import SudoOS.Lib.Run
import SudoOS.Proofs.Mapping

/-!
# Access rights of mapped pages

A table entry keeps the flags of the call that made it. A later call for another page below it
leaves them as they are, so that page is granted what its own flags ask for exactly if every entry
already on its way grants it (`MapInv.step`). The rights are those of the latest call for each page
in all states of a run exactly when every call that takes effect finds such a way
(`rights_take_effect`).
-/

namespace SudoOS

/-! ## Bits -/

theorem hasBit_eq {k : ℕ} (hk : k < 64) (e : BitVec 64) : hasBit (1#64 <<< k) e = e.getLsbD k :=
  ByteMap.and_one_shiftLeft_ne e hk

/-- An address has no flag bits. -/
theorem getLsbD_addr {y k : ℕ} (hal : 4096 ∣ y) (hlt : y < 2 ^ 52) (hk : k < 12 ∨ 52 ≤ k) :
    (BitVec.ofNat 64 y).getLsbD k = false := by
  obtain ⟨c, rfl⟩ := hal
  rw [BitVec.getLsbD_ofNat]
  rcases hk with hk | hk
  · rw [show 4096 * c = c * 2 ^ 12 by omega, Nat.testBit_mul_two_pow]
    simp [show ¬ 12 ≤ k by omega]
  · rw [Nat.testBit_lt_two_pow (hlt.trans_le (Nat.pow_le_pow_right (by omega) hk)),
      Bool.and_false]

theorem ofFlags_entry {y : ℕ} (flags : BitVec 64) (hal : 4096 ∣ y) (hlt : y < 2 ^ 52) :
    Rights.ofFlags (BitVec.ofNat 64 y ||| flags) = Rights.ofFlags flags := by
  unfold Rights.ofFlags pteRw pteUser pteNx
  simp only [hasBit_eq (k := 1) (by omega), hasBit_eq (k := 2) (by omega),
    hasBit_eq (k := 63) (by omega), BitVec.getLsbD_or, Bool.false_or,
    getLsbD_addr hal hlt (k := 1) (by omega), getLsbD_addr hal hlt (k := 2) (by omega),
    getLsbD_addr hal hlt (k := 63) (by omega)]

theorem ofFlags_or_present (flags : BitVec 64) :
    Rights.ofFlags (flags ||| ptePresent) = Rights.ofFlags flags := by
  unfold Rights.ofFlags pteRw pteUser pteNx ptePresent
  simp only [hasBit_eq (k := 1) (by omega), hasBit_eq (k := 2) (by omega),
    hasBit_eq (k := 63) (by omega), BitVec.getLsbD_or, ByteMap.getLsbD_one_shiftLeft]
  simp

theorem PageCall.flagsOk (c : PageCall) (h : isPresent c.flags = true) : FlagsOk c.flags := by
  constructor
  · apply BitVec.eq_of_getLsbD_eq
    intro i hi
    rw [isPresent_eq] at h
    rw [ptePresent, BitVec.getLsbD_and, ByteMap.getLsbD_one_shiftLeft]
    rcases Nat.eq_zero_or_pos i with rfl | hpos
    · simp [h]
    · simp [hpos.ne']
  · have hmask : callerFlags &&& pteAddrMask = 0#64 := by decide
    rw [← c.known, BitVec.and_assoc, hmask, BitVec.and_zero]

/-- The entry allows what the flags ask for, and forbids no more. -/
def Grants (flags e : BitVec 64) : Prop :=
  (hasBit pteRw flags = true → hasBit pteRw e = true)
    ∧ (hasBit pteUser flags = true → hasBit pteUser e = true)
    ∧ (hasBit pteNx e = true → hasBit pteNx flags = true)

instance (flags e : BitVec 64) : Decidable (Grants flags e) :=
  inferInstanceAs (Decidable (_ ∧ _ ∧ _))

/-- Entries of which some were there before and the others have the flags: together they grant what
the flags ask for exactly if those from before do. -/
theorem granted_eq_ofFlags {flags : BitVec 64} {old es : List (BitVec 64)}
    (hold : ∀ e ∈ old, e ∈ es)
    (hnew : ∀ e ∈ es, e ∈ old ∨ Rights.ofFlags e = Rights.ofFlags flags)
    (hex : ∃ e ∈ es, Rights.ofFlags e = Rights.ofFlags flags) :
    Rights.granted es = Rights.ofFlags flags ↔ ∀ e ∈ old, Grants flags e := by
  simp only [Rights.granted, Rights.ofFlags, Rights.mk.injEq] at hnew hex ⊢
  obtain ⟨x, hx, hxw, hxu, hxn⟩ := hex
  constructor
  · rintro ⟨hw, hu, hn⟩ e he
    refine ⟨fun hf => ?_, fun hf => ?_, fun hf => ?_⟩
    · exact List.all_eq_true.mp (hw.trans hf) e (hold e he)
    · exact List.all_eq_true.mp (hu.trans hf) e (hold e he)
    · exact hn ▸ List.any_eq_true.mpr ⟨e, hold e he, hf⟩
  · intro hall
    refine ⟨?_, ?_, ?_⟩
    · rw [Bool.eq_iff_iff, List.all_eq_true]
      refine ⟨fun h => hxw ▸ h x hx, fun hf e he => ?_⟩
      rcases hnew e he with h | ⟨h, -, -⟩
      · exact (hall e h).1 hf
      · exact h.trans hf
    · rw [Bool.eq_iff_iff, List.all_eq_true]
      refine ⟨fun h => hxu ▸ h x hx, fun hf e he => ?_⟩
      rcases hnew e he with h | ⟨-, h, -⟩
      · exact (hall e h).2.1 hf
      · exact h.trans hf
    · rw [Bool.eq_iff_iff, List.any_eq_true]
      refine ⟨?_, fun hf => ⟨x, hx, hxn.trans hf⟩⟩
      rintro ⟨e, he, hf⟩
      rcases hnew e he with h | ⟨-, -, h⟩
      · exact (hall e h).2.2 hf
      · exact h ▸ hf

/-! ## One call -/

section Call

variable {m m' : Machine} {pml4 pt va : ℕ} {e flags : BitVec 64}

theorem effective_eq (m : Machine) (pml4 va : ℕ) : m.effective pml4 va =
    if (m.walk pml4 (leafPath va)).length = 4 then
      some (Rights.granted (m.walk pml4 (leafPath va))) else none := rfl

theorem effective_of_walk (h : m'.walk pml4 (leafPath va) = m.walk pml4 (leafPath va)) :
    m'.effective pml4 va = m.effective pml4 va := by
  rw [effective_eq, effective_eq, h]

theorem effective_none_iff : m.effective pml4 va = none ↔ m.leafEntry pml4 va = none := by
  have hlen := walk_length m (leafPath va) pml4
  rw [leafPath_length] at hlen
  rw [effective_eq, ite_eq_right_iff]
  simp only [reduceCtorEq, imp_false, hlen, not_not]
  rw [leafPath, Machine.table, Radix.walk_concat]
  rcases hpt : m.table pml4 (tablePath va) with _ | pt
  · rw [leafEntry_of_none hpt]
    rw [Machine.table] at hpt
    simp [hpt]
  · rw [leafEntry_of_some hpt]
    rw [Machine.table] at hpt
    rw [hpt]
    simp only [Option.bind_some, tableChild]
    split_ifs <;> simp

/-- Adding tables changes no right. -/
theorem Grown.effective_eq (hT : TableTree m pml4)
    (hG : Grown (fun _ : Unit => some pml4) (fun _ p => TablePath p) flags m m' () (tablePath va))
    (va' : ℕ) : m'.effective pml4 va' = m.effective pml4 va' := by
  rcases hm : m.leafEntry pml4 va' with _ | e
  · rw [effective_none_iff.mpr hm, effective_none_iff, hG.leafEntry_eq hT va', hm]
  · refine effective_of_walk (walk_congr fun q i n hpre hq => .inl ?_)
    have hqP := tablePath_of_leaf hpre
    have hpr : isPresent (m.phys n i) = true := by
      have hfull : m.effective pml4 va' ≠ none := fun hc => by
        rw [effective_none_iff.mp hc] at hm
        cases hm
      have hlen : m.table pml4 (leafPath va') ≠ none := by
        rw [← walk_length, leafPath_length]
        by_contra hc
        exact hfull (if_neg hc)
      obtain ⟨s, hs⟩ := hpre
      by_contra hc
      apply hlen
      rw [← hs, Machine.table, Radix.walk_append, Radix.walk_concat]
      rw [Machine.table] at hq
      rw [hq]
      simp [tableChild, hc]
    by_contra hw
    obtain ⟨r, -, -, habs, -⟩ := hG.words n i (hT.busy q n hqP hq) hw
    rw [hpr] at habs
    cases habs

/-- Writing the entry of one page changes the rights at no other. -/
theorem setEntry_effective (hT : TableTree m pml4)
    (hpt : m.table pml4 (tablePath va) = some pt) {va' : ℕ} (hne : leafPath va' ≠ leafPath va) :
    (m.setEntry pt (ptIdx va) e).effective pml4 va' = m.effective pml4 va' := by
  refine effective_of_walk (walk_congr fun q i n hpre hq => .inl (setEntry_phys_of_ne ?_))
  rintro rfl rfl
  have hqv : q = tablePath va := hT.tree q _ n (tablePath_of_leaf hpre) (tablePath_ok va) hq hpt
  rw [hqv] at hpre
  exact hne (hpre.eq_of_length rfl).symm

/-- At the page itself the walk meets the entries on the way and then the new one. -/
theorem walk_setEntry (hT : TableTree m pml4) (hpt : m.table pml4 (tablePath va) = some pt)
    (he : isPresent e = true) :
    (m.setEntry pt (ptIdx va) e).walk pml4 (leafPath va)
      = m.walk pml4 (tablePath va) ++ [e] := by
  have hway : (m.setEntry pt (ptIdx va) e).walk pml4 (tablePath va)
      = m.walk pml4 (tablePath va) := by
    refine walk_congr fun q i n hpre hq => .inl (setEntry_phys_of_ne fun hn => ?_)
    obtain ⟨s, hs⟩ := hpre
    have hqi : TablePath (q ++ [i]) := by
      have hP := tablePath_ok va
      rw [← hs] at hP
      exact closed_tablePath.of_append (k := ()) s hP
    exact absurd hn (ne_of_tablePath hT (tablePath_ok va) rfl hpt hqi hq)
  have hpt' := (table_setEntry (i := ptIdx va) (e := e) hT (tablePath_ok va) rfl hpt
    (tablePath_ok va)).trans hpt
  rw [leafPath, walk_concat, hway, hpt', Option.elim_some, setEntry_phys_self, if_pos he]

/-- Once the tables are there, with what was on the way kept and what was added having the flags,
the entry of the page is written. -/
theorem MapInv.write (h : MapInv pml4 m') (hpt : m'.table pml4 (tablePath va) = some pt)
    (he : isPresent e = true) (heff : ∀ va', m'.effective pml4 va' = m.effective pml4 va')
    (hold : ∀ x ∈ m.walk pml4 (tablePath va), x ∈ m'.walk pml4 (tablePath va))
    (hnew : ∀ x ∈ m'.walk pml4 (tablePath va), x ∈ m.walk pml4 (tablePath va)
      ∨ Rights.ofFlags x = Rights.ofFlags flags)
    (hflags : Rights.ofFlags e = Rights.ofFlags flags) :
    MapInv pml4 (m'.setEntry pt (ptIdx va) e)
      ∧ (∀ va', leafPath va' ≠ leafPath va →
        (m'.setEntry pt (ptIdx va) e).effective pml4 va' = m.effective pml4 va')
      ∧ ∃ r, (m'.setEntry pt (ptIdx va) e).effective pml4 va = some r
        ∧ (r = Rights.ofFlags flags ↔ ∀ x ∈ m.walk pml4 (tablePath va), Grants flags x) := by
  have hwalk := walk_setEntry h.tree hpt he
  have hlen : (m'.walk pml4 (tablePath va)).length = 3 := by
    have htab : m'.table pml4 (tablePath va) ≠ none := by simp [hpt]
    exact (walk_length m' (tablePath va) pml4).mpr htab
  refine ⟨⟨h.pmm, h.width, h.zero, tableTree_setEntry h.tree (tablePath_ok va) rfl hpt⟩,
    fun va' hne => (setEntry_effective h.tree hpt hne).trans (heff va'),
    Rights.granted (m'.walk pml4 (tablePath va) ++ [e]), ?_, ?_⟩
  · rw [effective_eq, hwalk, if_pos (by simp [hlen])]
  · refine granted_eq_ofFlags (fun x hx => ?_) (fun x hx => ?_) ⟨e, by simp, hflags⟩
    · simp [hold x hx]
    · rcases List.mem_append.mp hx with hx | hx
      · exact hnew x hx
      · rw [List.mem_singleton.mp hx]
        exact .inr hflags

theorem Grown.walk_sub (hT : TableTree m pml4)
    (hG : Grown (fun _ : Unit => some pml4) (fun _ p => TablePath p) flags m m' () (tablePath va)) :
    (∀ x ∈ m.walk pml4 (tablePath va), x ∈ m'.walk pml4 (tablePath va))
      ∧ ∀ x ∈ m'.walk pml4 (tablePath va), x ∈ m.walk pml4 (tablePath va)
        ∨ LeadsTo flags x := by
  have hpath : ∀ {q i}, q ++ [i] <+: tablePath va → TablePath q := fun {q i} hpre =>
    tablePath_of_leaf (hpre.trans (List.prefix_append _ _))
  constructor
  · intro x hx
    obtain ⟨q, i, n, hpre, hq, hpr, rfl⟩ := (mem_walk m).mp hx
    refine (mem_walk m').mpr ⟨q, i, n, hpre, hG.kept () q n (hpath hpre) hq, ?_⟩
    have hword : m'.phys n i = m.phys n i := by
      by_contra hw
      obtain ⟨r, -, -, habs, -⟩ := hG.words n i (hT.busy q n (hpath hpre) hq) hw
      rw [hpr] at habs
      cases habs
    exact ⟨hword ▸ hpr, hword⟩
  · intro x hx
    obtain ⟨q, i, n, hpre, hq, hpr, rfl⟩ := (mem_walk m').mp hx
    rcases hG.added () q n (hpath hpre) hq with ho | ⟨-, -, -, hz⟩
    · by_cases hw : m'.phys n i = m.phys n i
      · rw [hw] at hpr ⊢
        exact .inl ((mem_walk m).mpr ⟨q, i, n, hpre, ho, hpr, rfl⟩)
      · obtain ⟨-, -, -, -, hlead⟩ := hG.words n i (hT.busy q n (hpath hpre) ho) hw
        exact .inr hlead
    · rcases hz i with h0 | ⟨-, hlead⟩
      · rw [h0] at hpr
        simp [isPresent_eq] at hpr
      · exact .inr hlead

theorem LeadsTo.ofFlags_eq (h : LeadsTo flags e) : Rights.ofFlags e = Rights.ofFlags flags := by
  obtain ⟨y, hal, hlt, rfl⟩ := h
  exact ofFlags_entry flags hal hlt

/-- No table is missing: the flags do not matter on the way. -/
theorem nextTables_of_missing_eq_zero (flags : BitVec 64) :
    ∀ {is : List ℕ} {t : ℕ}, m.missing t is = 0 →
      ∃ pt, m.table t is = some pt ∧ m.nextTables true flags t is = (some pt, m)
  | [], t, _ => ⟨t, rfl, rfl⟩
  | i :: is, t, h => by
    have hpr : isPresent (m.phys t i) = true := by
      by_contra hpr
      simp [Machine.missing, Machine.walk, hpr] at h
    have hrest : m.missing (pteGetAddr (m.phys t i)) is = 0 := by
      simpa [Machine.missing, Machine.walk, hpr] using h
    obtain ⟨pt, h1, h2⟩ := nextTables_of_missing_eq_zero flags hrest
    refine ⟨pt, ?_, ?_⟩
    · simp only [Machine.table, Radix.walk, tableChild, if_pos hpr, Option.bind_some]
      exact h1
    · simp only [Machine.nextTables, Machine.getNextTable, if_pos hpr]
      exact h2

/-! ## Flags without the present bit -/

variable (m m') in
/-- Nothing has happened to taken frames but that absent entries have been overwritten with absent
ones. -/
structure Inert : Prop where
  pmm : m'.pmm.Inv
  total : m'.pmm.totalPages = m.pmm.totalPages
  busy : ∀ n, m.pmm.Busy n → m'.pmm.Busy n
  words : ∀ n j, m.pmm.Busy n → m'.phys n j = m.phys n j
    ∨ (isPresent (m'.phys n j) = false ∧ isPresent (m.phys n j) = false)

theorem Inert.refl (h : m.pmm.Inv) : Inert m m := ⟨h, rfl, fun _ h => h, fun _ _ _ => .inl rfl⟩

theorem Inert.alloc (h : Inert m m') : Inert m { m' with pmm := (m'.pmm.pmmAllocPage).2 } := by
  obtain ⟨a1, a2, a3, -⟩ := Pmm.pmmAllocPage_spec h.pmm
  exact ⟨a1, a2.trans h.total, fun n hn => a3 n (h.busy n hn), h.words⟩

theorem isPresent_absent {x : ℕ} (hal : 4096 ∣ x) (hlt : x < 2 ^ 52)
    (hf : isPresent flags = false) : isPresent (BitVec.ofNat 64 x ||| flags) = false := by
  rw [isPresent_eq] at hf ⊢
  rw [BitVec.getLsbD_or, hf, getLsbD_addr hal hlt (.inl (by omega)), Bool.or_false]

/-- A table linked with such flags: its page is zeroed, and it is entered as absent. -/
theorem Inert.link (h : Inert m m') (hw : m.pmm.totalPages ≤ 2 ^ 40)
    (hf : isPresent flags = false) {t i : ℕ} (habs : isPresent (m'.phys t i) = false)
    (h0 : (m'.pmm.pmmAllocPage).1 ≠ 0) :
    Inert m { pmm := (m'.pmm.pmmAllocPage).2
              phys := (m'.phys.zeroPage (m'.pmm.pmmAllocPage).1).write t i
                (BitVec.ofNat 64 (m'.pmm.pmmAllocPage).1 ||| flags) }
      ∧ ¬ m.pmm.Busy (m'.pmm.pmmAllocPage).1
      ∧ ∀ j, isPresent ((m'.phys.zeroPage (m'.pmm.pmmAllocPage).1).write t i
        (BitVec.ofNat 64 (m'.pmm.pmmAllocPage).1 ||| flags) (m'.pmm.pmmAllocPage).1 j) = false := by
  obtain ⟨-, -, -, a4⟩ := Pmm.pmmAllocPage_spec h.pmm
  obtain ⟨hv, -⟩ := a4 h0
  have hlt : (m'.pmm.pmmAllocPage).1 < 2 ^ 52 := by
    have := hv.lt
    have := h.total
    omega
  have hentry := isPresent_absent hv.aligned hlt hf
  have hnot : ¬ m.pmm.Busy (m'.pmm.pmmAllocPage).1 := fun hb => hv.not_busy (h.busy _ hb)
  refine ⟨⟨h.alloc.pmm, h.alloc.total, h.alloc.busy, fun n j hn => ?_⟩, hnot, fun j => ?_⟩
  · have hne : n ≠ (m'.pmm.pmmAllocPage).1 := fun hc => hnot (hc ▸ hn)
    by_cases hat : n = t ∧ j = i
    · obtain ⟨rfl, rfl⟩ := hat
      refine .inr ⟨?_, ?_⟩
      · dsimp only
        rw [PhysMem.write, if_pos ⟨rfl, rfl⟩]
        exact hentry
      · rcases h.words n j hn with hw | ⟨-, hw⟩
        · exact hw ▸ habs
        · exact hw
    · dsimp only
      rw [PhysMem.write_of_ne fun h1 h2 => hat ⟨h1, h2⟩, PhysMem.zeroPage_of_ne hne]
      exact h.words n j hn
  · unfold PhysMem.write
    split_ifs
    · exact hentry
    · rw [PhysMem.zeroPage, if_pos rfl]
      decide

/-- Below a table of absent entries only frames not taken before are written. -/
theorem nextTables_dead (hw : m.pmm.totalPages ≤ 2 ^ 40) (hf : isPresent flags = false) :
    ∀ (is : List ℕ) (m' : Machine) (t : ℕ), Inert m m' → ¬ m.pmm.Busy t →
      (∀ j, isPresent (m'.phys t j) = false) →
      Inert m (m'.nextTables true flags t is).2
        ∧ ∀ pt, (m'.nextTables true flags t is).1 = some pt → ¬ m.pmm.Busy pt
  | [], m', t, h, ht, _ => ⟨h, fun pt hpt => Option.some.inj hpt ▸ ht⟩
  | i :: is, m', t, h, ht, habs => by
    simp only [Machine.nextTables]
    rcases getNextTable_cases m' t i flags with ⟨x, hx, -⟩ | ⟨-, -, he⟩ | ⟨-, h0, he⟩
    · rw [tableChild, habs i] at hx
      cases hx
    · rw [he]
      exact ⟨h.alloc, fun pt hpt => by cases hpt⟩
    · rw [he]
      obtain ⟨k1, k2, k3⟩ := h.link hw hf (habs i) h0
      exact nextTables_dead hw hf is _ _ k1 k2 k3

/-- With a table missing, flags without the present bit build nothing. -/
theorem nextTables_inert (h : m.pmm.Inv) (hw : m.pmm.totalPages ≤ 2 ^ 40)
    (hf : isPresent flags = false) : ∀ {is : List ℕ} {t : ℕ}, m.missing t is ≠ 0 →
      Inert m (m.nextTables true flags t is).2
        ∧ ∀ pt, (m.nextTables true flags t is).1 = some pt → ¬ m.pmm.Busy pt
  | [], t, hm => absurd rfl hm
  | i :: is, t, hm => by
    simp only [Machine.nextTables]
    rcases getNextTable_cases m t i flags with ⟨x, hx, he⟩ | ⟨-, -, he⟩ | ⟨hx, h0, he⟩ <;> rw [he]
    · unfold tableChild at hx
      split_ifs at hx with hpr
      obtain rfl := Option.some.inj hx
      refine nextTables_inert h hw hf fun hc => hm ?_
      simpa [Machine.missing, Machine.walk, hpr] using hc
    · exact ⟨(Inert.refl h).alloc, fun pt hpt => by cases hpt⟩
    · have habs : isPresent (m.phys t i) = false := by
        by_contra hpr
        rw [tableChild, if_pos (by simpa using hpr)] at hx
        cases hx
      obtain ⟨k1, k2, k3⟩ := (Inert.refl h).link hw hf habs h0
      exact nextTables_dead hw hf is _ _ k1 k2 k3

/-- What is mapped, and how, is as before. -/
theorem Inert.mapInv (h : MapInv pml4 m) (hin : Inert m m') :
    MapInv pml4 m' ∧ ∀ va, m'.effective pml4 va = m.effective pml4 va := by
  have htable : ∀ p, TablePath p → m'.table pml4 p = m.table pml4 p := by
    intro p hp
    have hnode : ∀ a : Machine, a.table pml4 p = a.node (fun _ : Unit => some pml4) () p :=
      fun _ => rfl
    rw [hnode, hnode]
    refine Radix.node_congr closed_tablePath () (fun q a j hq ha => ?_) p hp
    rcases hin.words a j (h.tree.busy q a (closed_tablePath () q j hq) ha) with hw | ⟨h1, h2⟩
    · exact tableChild_congr hw
    · simp [tableChild, h1, h2]
  refine ⟨⟨hin.pmm, hin.total ▸ h.width, hin.busy 0 h.zero, ⟨fun p q n hp hq h1 h2 => ?_,
    fun p n hp hn => ?_⟩⟩, fun va => effective_of_walk (walk_congr fun q i n hpre hq => ?_)⟩
  · exact h.tree.tree p q n hp hq ((htable p hp).symm.trans h1) ((htable q hq).symm.trans h2)
  · exact hin.busy n (h.tree.busy p n hp ((htable p hp).symm.trans hn))
  · exact hin.words n i (h.tree.busy q n (tablePath_of_leaf hpre) hq)

/-! ## The step -/

theorem effective_of_missing (h : m.missing pml4 (tablePath va) ≠ 0) :
    m.effective pml4 va = none := by
  rw [effective_none_iff]
  apply leafEntry_of_none
  by_contra hc
  have hlen := (walk_length m (tablePath va) pml4).mpr hc
  exact h (by rw [Machine.missing, hlen, Nat.sub_self])

/-- The call finds or builds all its tables: an absent entry leads nowhere, also when it has just
been made. -/
def TakesEffect (pml4 : ℕ) (m : Machine) (c : PageCall) : Prop :=
  m.missing pml4 (tablePath c.va) = 0
    ∨ (isPresent c.flags = true ∧ m.missing pml4 (tablePath c.va) ≤ m.pmm.freePages)

instance (pml4 : ℕ) (m : Machine) (c : PageCall) : Decidable (TakesEffect pml4 m c) :=
  inferInstanceAs (Decidable (_ ∨ _))

variable (pml4 m m') in
/-- What a call does to the rights of all pages. -/
structure CallSpec (c : PageCall) : Prop where
  inv : MapInv pml4 m'
  frame : ∀ va, leafPath va ≠ leafPath c.va → m'.effective pml4 va = m.effective pml4 va
  effect : TakesEffect pml4 m c → ∃ r, m'.effective pml4 c.va = some r
    ∧ (r = Rights.ofFlags c.flags ↔ ∀ e ∈ m.walk pml4 (tablePath c.va), Grants c.flags e)
  none : ¬ TakesEffect pml4 m c → m'.effective pml4 c.va = none

variable {c : PageCall}

/-- Where the call does not take effect, nothing is mapped at the page and nothing need change. -/
theorem CallSpec.of_idle (hno : ¬ TakesEffect pml4 m c) (hinv : MapInv pml4 m')
    (heff : ∀ va, m'.effective pml4 va = m.effective pml4 va) : CallSpec m m' pml4 c where
  inv := hinv
  frame va _ := heff va
  effect h := absurd h hno
  none _ := (heff c.va).trans (effective_of_missing fun hc => hno (.inl hc))

theorem callSpec_of_tables (h : MapInv pml4 m) (hmiss : m.missing pml4 (tablePath c.va) = 0) :
    CallSpec m (m.vmmMapPage pml4 c.va c.pa c.flags) pml4 c := by
  obtain ⟨pt, hpt, hr⟩ := nextTables_of_missing_eq_zero c.flags hmiss
  have he : m.vmmMapPage pml4 c.va c.pa c.flags
      = m.setEntry pt (ptIdx c.va) (BitVec.ofNat 64 c.pa ||| c.flags ||| ptePresent) := by
    unfold Machine.vmmMapPage
    rw [← tablePath, hr]
  have hpres : isPresent (BitVec.ofNat 64 c.pa ||| c.flags ||| ptePresent) = true := by
    rw [isPresent_eq, BitVec.getLsbD_or, ptePresent, ByteMap.getLsbD_one_shiftLeft]
    simp
  have hflags : Rights.ofFlags (BitVec.ofNat 64 c.pa ||| c.flags ||| ptePresent)
      = Rights.ofFlags c.flags := by
    rw [ofFlags_or_present, ofFlags_entry _ c.aligned c.lt]
  obtain ⟨h1, h2, h3⟩ := h.write (m := m) hpt hpres (fun _ => rfl) (fun _ hx => hx)
    (fun _ hx => .inl hx) hflags
  rw [he]
  exact ⟨h1, h2, fun _ => h3, fun hno => absurd (.inl hmiss) hno⟩

theorem callSpec_of_present (h : MapInv pml4 m) (hf : isPresent c.flags = true) :
    CallSpec m (m.vmmMapPage pml4 c.va c.pa c.flags) pml4 c := by
  obtain ⟨m₁, hinv, hG, ⟨hlt, -, he⟩ | ⟨hle, -, pt, hpt, he⟩⟩ :=
    vmmMapPage_split h (c.flagsOk hf) c.va c.pa
  all_goals
    have heff := hG.effective_eq h.tree
    rw [he]
  · refine CallSpec.of_idle ?_ hinv heff
    rintro (h0 | ⟨-, hle⟩) <;> omega
  · obtain ⟨hold, hnew⟩ := hG.walk_sub h.tree
    obtain ⟨h1, h2, h3⟩ := hinv.write hpt (isPresent_entry (c.flagsOk hf)) heff hold
      (fun x hx => (hnew x hx).imp_right LeadsTo.ofFlags_eq)
      (ofFlags_entry c.flags c.aligned c.lt)
    exact ⟨h1, h2, fun _ => h3, fun hno => absurd (.inr ⟨hf, hle⟩) hno⟩

theorem callSpec_of_absent (h : MapInv pml4 m) (hf : isPresent c.flags = false)
    (hmiss : m.missing pml4 (tablePath c.va) ≠ 0) :
    CallSpec m (m.vmmMapPage pml4 c.va c.pa c.flags) pml4 c := by
  have hno : ¬ TakesEffect pml4 m c := by
    rintro (h0 | ⟨hpr, -⟩)
    · exact hmiss h0
    · rw [hf] at hpr
      cases hpr
  obtain ⟨hin, hpt⟩ := nextTables_inert h.pmm h.width hf hmiss
  have hin' : Inert m (m.vmmMapPage pml4 c.va c.pa c.flags) := by
    unfold Machine.vmmMapPage
    rw [← tablePath]
    rcases hr : m.nextTables true c.flags pml4 (tablePath c.va) with ⟨_ | pt, m₁⟩ <;>
      rw [hr] at hin hpt
    · exact hin
    · refine ⟨hin.pmm, hin.total, hin.busy, fun n j hn => ?_⟩
      rw [setEntry_phys_of_ne fun hc : n = pt => absurd (hc ▸ hn) (hpt pt rfl)]
      exact hin.words n j hn
  obtain ⟨hinv, heff⟩ := hin'.mapInv h
  exact CallSpec.of_idle hno hinv heff

theorem callSpec (h : MapInv pml4 m) (c : PageCall) :
    CallSpec m (m.vmmMapPage pml4 c.va c.pa c.flags) pml4 c := by
  by_cases hmiss : m.missing pml4 (tablePath c.va) = 0
  · exact callSpec_of_tables h hmiss
  · rcases hf : isPresent c.flags
    · exact callSpec_of_absent h hf hmiss
    · exact callSpec_of_present h hf

end Call

/-! ## Runs -/

section Runs

variable {pml4 : ℕ}

/-- The mapped pages have the rights that the latest calls for them ask for. -/
def Exact (pml4 : ℕ) (s : RightsRun) : Prop :=
  ∀ va flags r, s.latest (leafPath va) = some flags → s.machine.effective pml4 va = some r →
    r = Rights.ofFlags flags

/-- A call that takes effect finds no entry on its way that grants less than it asks for. -/
def WayGrants (pml4 : ℕ) (s : RightsRun) (c : PageCall) : Prop :=
  TakesEffect pml4 s.machine c → ∀ e ∈ s.machine.walk pml4 (tablePath c.va), Grants c.flags e

instance (pml4 : ℕ) (s : RightsRun) (c : PageCall) : Decidable (WayGrants pml4 s c) :=
  have : Decidable (∀ e ∈ s.machine.walk pml4 (tablePath c.va), Grants c.flags e) :=
    List.decidableBAll _ _
  inferInstanceAs (Decidable (_ → _))

theorem mapStep_inv {s s' : RightsRun} {c : PageCall} (h : MapInv pml4 s.machine)
    (hs : mapStep pml4 s c = some s') : CallSpec s.machine s'.machine pml4 c
      ∧ s'.latest = Function.update s.latest (leafPath c.va) (some c.flags) := by
  obtain rfl := Option.some.inj hs
  exact ⟨callSpec h c, rfl⟩

theorem mapStep_exact {s s' : RightsRun} {c : PageCall} (h : MapInv pml4 s.machine)
    (hex : Exact pml4 s) (hok : WayGrants pml4 s c) (hs : mapStep pml4 s c = some s') :
    MapInv pml4 s'.machine ∧ Exact pml4 s' := by
  obtain ⟨hspec, hlatest⟩ := mapStep_inv h hs
  refine ⟨hspec.inv, fun va flags r hl hr => ?_⟩
  rw [hlatest] at hl
  by_cases hva : leafPath va = leafPath c.va
  · rw [hva, Function.update_self] at hl
    obtain rfl := Option.some.inj hl
    have hr : s'.machine.effective pml4 c.va = some r := by
      rw [← hr, effective_eq, effective_eq, hva]
    by_cases ht : TakesEffect pml4 s.machine c
    · obtain ⟨r', hr', hiff⟩ := hspec.effect ht
      obtain rfl := Option.some.inj (hr.symm.trans hr')
      exact hiff.mpr (hok ht)
    · rw [hspec.none ht] at hr
      cases hr
  · rw [Function.update_of_ne hva] at hl
    rw [hspec.frame va hva] at hr
    exact hex va flags r hl hr

theorem mapStep_not_exact {s s' : RightsRun} {c : PageCall} (h : MapInv pml4 s.machine)
    (hno : ¬ WayGrants pml4 s c) (hs : mapStep pml4 s c = some s') : ¬ Exact pml4 s' := by
  obtain ⟨hspec, hlatest⟩ := mapStep_inv h hs
  rw [WayGrants, Classical.not_imp] at hno
  obtain ⟨ht, hway⟩ := hno
  obtain ⟨r, hr, hiff⟩ := hspec.effect ht
  intro hex
  refine hway (hiff.mp (hex c.va c.flags r ?_ hr))
  rw [hlatest, Function.update_self]

theorem mapStep_total (pml4 : ℕ) : ∀ (calls : List PageCall) (s : RightsRun),
    ∃ s', Run.run (mapStep pml4) s calls = some s'
  | [], s => ⟨s, rfl⟩
  | _ :: calls, _ => mapStep_total pml4 calls _

/-- In a sequence of calls on one PML4 the rights are right throughout exactly if no call runs into
an entry that grants less. -/
theorem rights_take_effect {m : Machine} (h : MapInv pml4 m) (calls : List PageCall) :
    Run.Meets (mapStep pml4) (WayGrants pml4) ⟨m, fun _ => none⟩ calls
      ↔ ∀ pre s, pre <+: calls → Run.run (mapStep pml4) ⟨m, fun _ => none⟩ pre = some s →
        Exact pml4 s := by
  obtain ⟨s', hs'⟩ := mapStep_total pml4 calls ⟨m, fun _ => none⟩
  refine Run.meets_iff_forall_run (I := fun s => MapInv pml4 s.machine ∧ Exact pml4 s)
    (fun s c s' hI hok hs => mapStep_exact hI.1 hI.2 hok hs) (fun s hI => hI.2)
    (fun s c s' hI hno hs => mapStep_not_exact hI.1 hno hs) ⟨h, fun va flags r hl => ?_⟩ hs'
  cases hl

/-- A read-only user page and, next to it, a writable one. -/
def readOnlyCall : PageCall := ⟨0x400000, 0x6000, 5#64, by decide, by decide, by decide⟩

def writableCall : PageCall := ⟨0x401000, 0x7000, 7#64, by decide, by decide, by decide⟩

theorem smallMachine_mapInv : MapInv 0x1000 smallMachine :=
  ⟨smallMachine_inv, by decide, by decide, smallMachine_tableTree⟩

theorem rights_take_effect_smallMachine :
    Exact 0x1000 ⟨(smallMachine.vmmMapPage 0x1000 0x401000 0x7000 7#64).vmmMapPage 0x1000 0x400000
      0x6000 5#64, Function.update (Function.update (fun _ => none) (leafPath 0x401000)
        (some 7#64)) (leafPath 0x400000) (some 5#64)⟩ :=
  (rights_take_effect smallMachine_mapInv [writableCall, readOnlyCall]).mp (by decide +kernel)
    [writableCall, readOnlyCall] _ List.prefix_rfl rfl

/-- The other way round the second page is not writable. -/
theorem mapStep_narrows :
    MapInv 0x1000 smallMachine
      ∧ ∃ s, Run.run (mapStep 0x1000) ⟨smallMachine, fun _ => none⟩ [readOnlyCall, writableCall]
          = some s
        ∧ s.latest (leafPath 0x401000) = some 7#64
        ∧ s.machine.effective 0x1000 0x401000 = some ⟨false, true, false⟩
        ∧ ¬ Exact 0x1000 s := by
  have heff : ((smallMachine.vmmMapPage 0x1000 0x400000 0x6000 5#64).vmmMapPage 0x1000 0x401000
      0x7000 7#64).effective 0x1000 0x401000 = some ⟨false, true, false⟩ := by decide +kernel
  refine ⟨smallMachine_mapInv, _, rfl, rfl, heff, fun hex => ?_⟩
  exact absurd (hex 0x401000 7#64 _ rfl heff) (by decide)

end Runs

end SudoOS
