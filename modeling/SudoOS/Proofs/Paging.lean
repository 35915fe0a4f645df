import SudoOS.Paging
import SudoOS.Proofs.Pmm
import SudoOS.Lib.Radix

/-!
# Mapping and looking up pages

Page tables are radix trees in physical memory (`Radix`), an entry being a child when it is
present. `Owned` ties such a forest to the frame allocator: every node is a frame that is taken, so
a frame the allocator hands out is fresh. Descending with allocation then only adds nodes along
its own path (`Grown`, `nextTables_spec`), which is all that the mapping law needs.
-/

namespace SudoOS

/-! ## Entries -/

theorem isPresent_eq (e : BitVec 64) : isPresent e = e.getLsbD 0 :=
  ByteMap.and_one_shiftLeft_ne e (by omega)

/-- Flags as a caller may pass them: present, and clear of address bits. -/
structure FlagsOk (flags : BitVec 64) : Prop where
  present : flags &&& ptePresent = ptePresent
  addr : flags &&& pteAddrMask = 0#64

theorem FlagsOk.getLsbD_zero {flags : BitVec 64} (h : FlagsOk flags) :
    flags.getLsbD 0 = true := by
  have := congrArg (BitVec.getLsbD · 0) h.present
  simpa [BitVec.getLsbD_and, ptePresent] using this

theorem FlagsOk.or_present {flags : BitVec 64} (h : FlagsOk flags) :
    flags ||| ptePresent = flags := by
  apply BitVec.eq_of_getLsbD_eq
  intro i hi
  rw [BitVec.getLsbD_or]
  rcases Nat.eq_zero_or_pos i with rfl | hpos
  · rw [h.getLsbD_zero, Bool.true_or]
  · simp [ptePresent, hpos.ne']

theorem pteGetAddr_ofNat {pa : ℕ} (hal : 4096 ∣ pa) (hlt : pa < 2 ^ 52) :
    BitVec.ofNat 64 pa &&& pteAddrMask = BitVec.ofNat 64 pa := by
  apply BitVec.eq_of_toNat_eq
  have hM : pteAddrMask.toNat = 2 ^ 52 - 2 ^ 12 := by decide
  rw [BitVec.toNat_and, BitVec.toNat_ofNat, hM, Nat.mod_eq_of_lt (by omega),
    and_two_pow_sub hlt (by omega)]
  omega

theorem or_and_mask (x y : BitVec 64) :
    (x ||| y) &&& pteAddrMask = (x &&& pteAddrMask) ||| (y &&& pteAddrMask) := by
  apply BitVec.eq_of_getLsbD_eq
  intro i hi
  simp only [BitVec.getLsbD_and, BitVec.getLsbD_or, Bool.and_or_distrib_right]

theorem pteGetAddr_entry {pa : ℕ} {flags : BitVec 64} (hal : 4096 ∣ pa) (hlt : pa < 2 ^ 52)
    (hf : FlagsOk flags) : pteGetAddr (BitVec.ofNat 64 pa ||| flags) = pa := by
  rw [pteGetAddr, or_and_mask, hf.addr, pteGetAddr_ofNat hal hlt, BitVec.or_zero,
    BitVec.toNat_ofNat]
  omega

theorem pteGetFlags_entry {pa : ℕ} {flags : BitVec 64} (hal : 4096 ∣ pa) (hlt : pa < 2 ^ 52)
    (hf : FlagsOk flags) : pteGetFlags (BitVec.ofNat 64 pa ||| flags) = flags := by
  have h1 := pteGetAddr_ofNat hal hlt
  have h2 := hf.addr
  unfold pteGetFlags
  apply BitVec.eq_of_getLsbD_eq
  intro i hi
  have h1' := congrArg (BitVec.getLsbD · i) h1
  have h2' := congrArg (BitVec.getLsbD · i) h2
  simp only [BitVec.getLsbD_and, BitVec.getLsbD_zero] at h1' h2'
  simp only [BitVec.getLsbD_and, BitVec.getLsbD_or, BitVec.getLsbD_not, hi, decide_true,
    Bool.true_and]
  generalize pteAddrMask.getLsbD i = b at h1' h2' ⊢
  generalize (BitVec.ofNat 64 pa).getLsbD i = c at h1' ⊢
  generalize flags.getLsbD i = d at h2' ⊢
  cases b <;> cases c <;> cases d <;> simp_all

theorem isPresent_entry {pa : ℕ} {flags : BitVec 64} (hf : FlagsOk flags) :
    isPresent (BitVec.ofNat 64 pa ||| flags) = true := by
  rw [isPresent_eq, BitVec.getLsbD_or, hf.getLsbD_zero, Bool.or_true]

theorem pteGetAddr_dvd (e : BitVec 64) : 4096 ∣ pteGetAddr e := by
  have hM : pteAddrMask.toNat = 2 ^ 52 - 2 ^ 12 := by decide
  have h : pteGetAddr e = e.toNat % 2 ^ 52 / 2 ^ 12 * 2 ^ 12 := by
    rw [pteGetAddr, BitVec.toNat_and, hM, ← and_two_pow_sub (Nat.mod_lt _ (by positivity))
      (by omega)]
    apply Nat.eq_of_testBit_eq
    intro i
    have hsub : 2 ^ 52 - 2 ^ 12 = 2 ^ 52 - (4095 + 1) := by omega
    rw [Nat.testBit_and, Nat.testBit_and, Nat.testBit_mod_two_pow, hsub,
      Nat.testBit_two_pow_sub_succ (by omega)]
    by_cases hi : i < 52 <;> simp [hi]
  exact ⟨e.toNat % 2 ^ 52 / 2 ^ 12, by omega⟩

/-- An entry that leads to a page with the given flags. -/
def LeadsTo (flags e : BitVec 64) : Prop :=
  ∃ y, 4096 ∣ y ∧ y < 2 ^ 52 ∧ e = BitVec.ofNat 64 y ||| flags

theorem LeadsTo.and_pteHuge {flags e : BitVec 64} (h : LeadsTo flags e) :
    e &&& pteHuge = flags &&& pteHuge := by
  obtain ⟨y, ⟨c, rfl⟩, -, rfl⟩ := h
  apply BitVec.eq_of_getLsbD_eq
  intro i hi
  simp only [pteHuge, BitVec.getLsbD_and, BitVec.getLsbD_or, ByteMap.getLsbD_one_shiftLeft]
  by_cases h7 : i = 7
  · have : (BitVec.ofNat 64 (4096 * c)).getLsbD i = false := by
      rw [BitVec.getLsbD_ofNat, show 4096 * c = c * 2 ^ 12 by omega, Nat.testBit_mul_two_pow]
      simp [h7]
    rw [this, Bool.false_or]
  · simp [h7]

/-! ## Indices -/

theorem pml4Idx_eq (va : ℕ) : pml4Idx va = va / 2 ^ 39 % 512 := by
  rw [pml4Idx, Nat.shiftRight_eq_div_pow]
  exact Nat.and_two_pow_sub_one_eq_mod _ 9

theorem pdptIdx_eq (va : ℕ) : pdptIdx va = va / 2 ^ 30 % 512 := by
  rw [pdptIdx, Nat.shiftRight_eq_div_pow]
  exact Nat.and_two_pow_sub_one_eq_mod _ 9

theorem pdIdx_eq (va : ℕ) : pdIdx va = va / 2 ^ 21 % 512 := by
  rw [pdIdx, Nat.shiftRight_eq_div_pow]
  exact Nat.and_two_pow_sub_one_eq_mod _ 9

theorem ptIdx_eq (va : ℕ) : ptIdx va = va / 2 ^ 12 % 512 := by
  rw [ptIdx, Nat.shiftRight_eq_div_pow]
  exact Nat.and_two_pow_sub_one_eq_mod _ 9

/-- The path to the table that holds the entry for `va`. -/
def tablePath (va : ℕ) : List ℕ := [pml4Idx va, pdptIdx va, pdIdx va]

theorem tablePath_lt (va : ℕ) : ∀ i ∈ tablePath va, i < 512 := by
  simp only [tablePath, List.mem_cons, List.not_mem_nil, or_false, forall_eq_or_imp, forall_eq,
    pml4Idx_eq, pdptIdx_eq, pdIdx_eq]
  omega

theorem ptIdx_lt (va : ℕ) : ptIdx va < 512 := by
  rw [ptIdx_eq]
  omega

theorem page_eq_of_path {va va' : ℕ} (h : Canonical va) (h' : Canonical va')
    (ht : tablePath va = tablePath va') (hi : ptIdx va = ptIdx va') : va / 4096 = va' / 4096 := by
  simp only [tablePath, List.cons.injEq, pml4Idx_eq, pdptIdx_eq, pdIdx_eq, and_true] at ht
  simp only [ptIdx_eq] at hi
  unfold Canonical at h h'
  omega

/-! ## Owned forests -/

/-- A present entry leads to the page it names. -/
def tableChild (ph : PhysMem) (n i : ℕ) : Option ℕ :=
  if isPresent (ph n i) then some (pteGetAddr (ph n i)) else none

theorem tableChild_congr {ph ph' : PhysMem} {n i : ℕ} (h : ph' n i = ph n i) :
    tableChild ph' n i = tableChild ph n i := by
  simp only [tableChild, h]

theorem tableChild_zero {ph : PhysMem} {n i : ℕ} (h : ph n i = 0#64) :
    tableChild ph n i = none := by
  simp [tableChild, h, isPresent_eq]

theorem PhysMem.write_of_ne {ph : PhysMem} {page idx a j : ℕ} {v : BitVec 64}
    (h : a = page → j ≠ idx) : ph.write page idx v a j = ph a j :=
  if_neg fun hc => h hc.1 hc.2

theorem PhysMem.zeroPage_of_ne {ph : PhysMem} {page a j : ℕ} (h : a ≠ page) :
    ph.zeroPage page a j = ph a j :=
  if_neg h

section Forests

variable {K : Type*} {root : K → Option ℕ} {adm : K → List ℕ → Prop}

/-- The page a path of tree `k` leads to. -/
def Machine.node (m : Machine) (root : K → Option ℕ) (k : K) (p : List ℕ) : Option ℕ :=
  Radix.node (tableChild m.phys) root k p

variable (root adm) in
/-- The tables form a forest of taken frames, so a frame newly allocated is none of theirs. -/
structure Owned (m : Machine) : Prop where
  pmm : m.pmm.Inv
  width : m.pmm.totalPages ≤ 2 ^ 40
  forest : Radix.Forest (tableChild m.phys) root adm
  busy : ∀ k p n, adm k p → m.node root k p = some n → m.pmm.Busy n

variable (root adm) in
/-- Tables have been added to tree `k₀` along the path `P`, and nothing else has happened to pages
that were taken. -/
structure Grown (flags : BitVec 64) (m m' : Machine) (k₀ : K) (P : List ℕ) : Prop where
  total : m'.pmm.totalPages = m.pmm.totalPages
  busy : ∀ n, m.pmm.Busy n → m'.pmm.Busy n
  kept : ∀ k p x, adm k p → m.node root k p = some x → m'.node root k p = some x
  added : ∀ k p x, adm k p → m'.node root k p = some x → m.node root k p = some x
    ∨ (k = k₀ ∧ p <+: P ∧ ¬ m.pmm.Busy x
      ∧ ∀ j, m'.phys x j = 0#64 ∨ (p ++ [j] <+: P ∧ LeadsTo flags (m'.phys x j)))
  words : ∀ a j, m.pmm.Busy a → m'.phys a j ≠ m.phys a j →
    ∃ q, q ++ [j] <+: P ∧ m.node root k₀ q = some a ∧ isPresent (m.phys a j) = false
      ∧ LeadsTo flags (m'.phys a j)

variable {m m' m'' : Machine} {k₀ : K} {P Q : List ℕ} {flags : BitVec 64}

theorem Grown.refl (flags : BitVec 64) (m : Machine) (k₀ : K) (P : List ℕ) :
    Grown root adm flags m m k₀ P where
  total := rfl
  busy _ h := h
  kept _ _ _ _ h := h
  added _ _ _ _ h := .inl h
  words _ _ _ h := absurd rfl h

theorem Grown.mono (h : Grown root adm flags m m' k₀ P) (hPQ : P <+: Q) :
    Grown root adm flags m m' k₀ Q where
  total := h.total
  busy := h.busy
  kept := h.kept
  added k p x hp hx := by
    rcases h.added k p x hp hx with h1 | ⟨h1, h2, h3, h4⟩
    · exact .inl h1
    · exact .inr ⟨h1, h2.trans hPQ, h3, fun j => (h4 j).imp_right fun hc => ⟨hc.1.trans hPQ, hc.2⟩⟩
  words a j ha hw := by
    obtain ⟨q, hq, h'⟩ := h.words a j ha hw
    exact ⟨q, hq.trans hPQ, h'⟩

theorem Grown.trans (hadm : Radix.Closed adm) (hP : adm k₀ P)
    (h : Grown root adm flags m m' k₀ P) (h' : Grown root adm flags m' m'' k₀ P)
    (hO : Owned root adm m') : Grown root adm flags m m'' k₀ P where
  total := h'.total.trans h.total
  busy n hn := h'.busy n (h.busy n hn)
  kept k p x hp hx := h'.kept k p x hp (h.kept k p x hp hx)
  added k p x hp hx := by
    rcases h'.added k p x hp hx with h1 | ⟨h1, h2, h3, h4⟩
    · rcases h.added k p x hp h1 with g1 | ⟨rfl, g2, g3, g4⟩
      · exact .inl g1
      · refine .inr ⟨rfl, g2, g3, fun j => ?_⟩
        by_cases hc : m''.phys x j = m'.phys x j
        · rw [hc]
          exact g4 j
        · obtain ⟨q, ⟨s, hs⟩, hqx, -, hlead⟩ := h'.words x j (hO.busy _ _ _ hp h1) hc
          have hqa : adm k q := hadm _ _ _ (hadm.of_append s (hs ▸ hP))
          obtain ⟨-, rfl⟩ := hO.forest k p k q x hp hqa h1 hqx
          exact .inr ⟨⟨s, hs⟩, hlead⟩
    · exact .inr ⟨h1, h2, fun hb => h3 (h.busy x hb), h4⟩
  words a j ha hw := by
    by_cases hc : m'.phys a j = m.phys a j
    · obtain ⟨q, ⟨s, hs⟩, hqa, hpr, hlead⟩ := h'.words a j (h.busy a ha) (by rwa [hc])
      have hadmq : adm k₀ q := hadm _ _ _ (hadm.of_append s (hs ▸ hP))
      rcases h.added k₀ q a hadmq hqa with h1 | ⟨-, -, h1, -⟩
      · exact ⟨q, ⟨s, hs⟩, h1, hc ▸ hpr, hlead⟩
      · exact absurd ha h1
    · obtain ⟨q, hq, hqa, hpr, hlead⟩ := h.words a j ha hc
      refine ⟨q, hq, hqa, hpr, ?_⟩
      by_cases hc' : m''.phys a j = m'.phys a j
      · rwa [hc']
      · obtain ⟨-, -, -, -, hlead'⟩ := h'.words a j (h.busy a ha) hc'
        exact hlead'

/-- What `get_next_table` with allocation can do. -/
theorem getNextTable_cases (m : Machine) (t i : ℕ) (flags : BitVec 64) :
    (∃ x, tableChild m.phys t i = some x ∧ m.getNextTable t i true flags = (some x, m))
      ∨ (tableChild m.phys t i = none ∧ (m.pmm.pmmAllocPage).1 = 0
        ∧ m.getNextTable t i true flags = (none, { m with pmm := (m.pmm.pmmAllocPage).2 }))
      ∨ (tableChild m.phys t i = none ∧ (m.pmm.pmmAllocPage).1 ≠ 0
        ∧ m.getNextTable t i true flags = (some (m.pmm.pmmAllocPage).1,
          { pmm := (m.pmm.pmmAllocPage).2
            phys := (m.phys.zeroPage (m.pmm.pmmAllocPage).1).write t i
              (BitVec.ofNat 64 (m.pmm.pmmAllocPage).1 ||| flags) })) := by
  unfold Machine.getNextTable tableChild
  by_cases h1 : isPresent (m.phys t i)
  · exact .inl ⟨_, by rw [if_pos h1], by rw [if_pos h1]⟩
  · simp only [h1, Bool.false_eq_true, ↓reduceIte, true_and]
    by_cases h2 : (m.pmm.pmmAllocPage).1 = 0
    · exact .inr (.inl ⟨h2, if_pos h2⟩)
    · exact .inr (.inr ⟨h2, if_neg h2⟩)

theorem nextTables_freePages (flags : BitVec 64) : ∀ (is : List ℕ) (m : Machine) (t : ℕ),
    (m.nextTables true flags t is).2.pmm.freePages ≤ m.pmm.freePages
  | [], m, t => le_rfl
  | i :: is, m, t => by
    have halloc := (Pmm.pmmAllocPage_freePages m.pmm).1
    unfold Machine.nextTables
    rcases getNextTable_cases m t i flags with ⟨x, -, h⟩ | ⟨-, -, h⟩ | ⟨-, -, h⟩ <;> rw [h]
    · exact nextTables_freePages flags is m x
    · exact halloc
    · exact (nextTables_freePages flags is _ _).trans halloc

theorem vmmMapPage_freePages (m : Machine) (pml4 va pa : ℕ) (flags : BitVec 64) :
    (m.vmmMapPage pml4 va pa flags).pmm.freePages ≤ m.pmm.freePages := by
  have h := nextTables_freePages flags (tablePath va) m pml4
  unfold Machine.vmmMapPage
  rw [← tablePath]
  rcases hn : m.nextTables true flags pml4 (tablePath va) with ⟨_ | pt, m'⟩ <;> rw [hn] at h
  · exact h
  · exact h

/-- Entering a fresh zeroed page `x` at entry `i` of a table without one there. -/
theorem link_spec (hadm : Radix.Closed adm) (hO : Owned root adm m) {p₀ : List ℕ}
    {t i x : ℕ} {pmm' : Pmm} (hn : m.node root k₀ p₀ = some t)
    (hp : adm k₀ (p₀ ++ [i])) (hf : FlagsOk flags) (hold : tableChild m.phys t i = none)
    (hI : pmm'.Inv) (htot : pmm'.totalPages = m.pmm.totalPages) (hv : m.pmm.Vacant x)
    (hbusy : ∀ pa, pmm'.Busy pa ↔ m.pmm.Busy pa ∨ pa = x) :
    let m' : Machine :=
      { pmm := pmm'
        phys := (m.phys.zeroPage x).write t i (BitVec.ofNat 64 x ||| flags) }
    Owned root adm m' ∧ Grown root adm flags m m' k₀ (p₀ ++ [i])
      ∧ m'.node root k₀ (p₀ ++ [i]) = some x := by
  intro m'
  have htx : t ≠ x := by
    rintro rfl
    exact hv.not_busy (hO.busy _ _ _ (hadm _ _ _ hp) hn)
  have hlt : x < 2 ^ 52 := by
    have := hO.width
    have := hv.lt
    omega
  have hword : ∀ a j, a ≠ x → (a = t → j ≠ i) → m'.phys a j = m.phys a j := fun a j ha hj => by
    show PhysMem.write _ _ _ _ _ _ = _
    rw [PhysMem.write_of_ne hj, PhysMem.zeroPage_of_ne ha]
  have hzero : ∀ j, m'.phys x j = 0#64 := fun j => by
    show PhysMem.write _ _ _ _ _ _ = _
    rw [PhysMem.write_of_ne fun hc => absurd hc.symm htx]
    exact if_pos rfl
  have hnew : tableChild m'.phys t i = some x := by
    have : m'.phys t i = BitVec.ofNat 64 x ||| flags := if_pos ⟨rfl, rfl⟩
    rw [tableChild, this, if_pos (isPresent_entry hf), pteGetAddr_entry hv.aligned hlt hf]
  have hreach : ∀ k p a, adm k p → m.node root k p = some a → a ≠ x := by
    rintro k p a hpa ha rfl
    exact hv.not_busy (hO.busy _ _ _ hpa ha)
  have hsame : ∀ k p a j, adm k (p ++ [j]) → Radix.node (tableChild m.phys) root k p = some a →
      (a = t → j ≠ i) → tableChild m'.phys a j = tableChild m.phys a j := fun k p a j hpa ha hj =>
    tableChild_congr (hword a j (hreach k p a (hadm _ _ _ hpa) ha) hj)
  have hbelow : ∀ y j, some x = some y → adm k₀ (p₀ ++ [i] ++ [j]) →
      tableChild m'.phys y j = none := by
    rintro y j hy -
    rw [← Option.some.inj hy]
    exact tableChild_zero (hzero j)
  have hw := Radix.node_write hadm hO.forest hn hp hnew hsame hbelow
  have hF := hO.forest.write hadm hn hp hnew hsame hbelow fun y hy k p hpa ha =>
    hreach k p y hpa ha (Option.some.inj hy).symm
  have hpre : ∀ k p y, m.node root k p = some y → ¬ (k = k₀ ∧ p₀ ++ [i] <+: p) := by
    rintro k p y hy ⟨rfl, s, rfl⟩
    have : m.node root k (p₀ ++ [i]) = none := by
      simp only [Machine.node, Radix.node_concat] at hn ⊢
      rw [hn, Option.bind_some, hold]
    rw [Machine.node, Radix.node_append_none this] at hy
    exact absurd hy (by simp)
  refine ⟨⟨hI, htot ▸ hO.width, hF, fun k p y hpa hy => ?_⟩, ⟨htot, fun pa h => (hbusy pa).mpr
    (.inl h), fun k p y hpa hy => ?_, fun k p y hpa hy => ?_, fun a j ha hne => ?_⟩, ?_⟩
  · rcases (hw p k y hpa).mp hy with ⟨-, -, hxy⟩ | ⟨h', -⟩
    · exact (hbusy y).mpr (.inr (Option.some.inj hxy).symm)
    · exact (hbusy y).mpr (.inl (hO.busy k p y hpa h'))
  · exact (hw p k y hpa).mpr (.inr ⟨hy, hpre k p y hy⟩)
  · rcases (hw p k y hpa).mp hy with ⟨rfl, rfl, hxy⟩ | ⟨h', -⟩
    · obtain rfl := Option.some.inj hxy
      exact .inr ⟨rfl, List.prefix_rfl, hv.not_busy, fun j => .inl (hzero j)⟩
    · exact .inl h'
  · have hax : a ≠ x := by
      rintro rfl
      exact hv.not_busy ha
    by_cases hat : a = t ∧ j = i
    · obtain ⟨rfl, rfl⟩ := hat
      refine ⟨p₀, List.prefix_rfl, hn, ?_, x, hv.aligned, hlt, if_pos ⟨rfl, rfl⟩⟩
      by_contra hpr
      simp [tableChild, hpr] at hold
    · exact absurd (hword a j hax fun h hj => hat ⟨h, hj⟩) hne
  · exact (hw _ _ _ hp).mpr (.inl ⟨rfl, rfl, rfl⟩)

theorem getNextTable_spec (hadm : Radix.Closed adm) (hO : Owned root adm m) {p₀ : List ℕ}
    {t i : ℕ} (hn : m.node root k₀ p₀ = some t) (hp : adm k₀ (p₀ ++ [i])) (hf : FlagsOk flags) :
    Owned root adm (m.getNextTable t i true flags).2
      ∧ Grown root adm flags m (m.getNextTable t i true flags).2 k₀ (p₀ ++ [i])
      ∧ ∀ x, (m.getNextTable t i true flags).1 = some x →
        (m.getNextTable t i true flags).2.node root k₀ (p₀ ++ [i]) = some x := by
  obtain ⟨a1, a2, a3, a4⟩ := Pmm.pmmAllocPage_spec hO.pmm
  rcases getNextTable_cases m t i flags with ⟨x, hx, he⟩ | ⟨hx, h0, he⟩ | ⟨hx, h0, he⟩ <;> rw [he]
  · refine ⟨hO, Grown.refl _ _ _ _, fun y hy => ?_⟩
    simp only [Machine.node, Radix.node_concat] at hn ⊢
    rw [hn, Option.bind_some, hx]
    exact hy
  · refine ⟨⟨a1, a2 ▸ hO.width, hO.forest, fun k p n hp hx => a3 n (hO.busy k p n hp hx)⟩, ?_,
      fun x hx => by simp at hx⟩
    exact ⟨a2, a3, fun _ _ _ _ h => h, fun _ _ _ _ h => .inl h, fun _ _ _ h => absurd rfl h⟩
  · obtain ⟨hv, hbusy⟩ := a4 h0
    obtain ⟨h1, h2, h3⟩ := link_spec hadm hO hn hp hf hx a1 a2 hv hbusy
    refine ⟨h1, h2, fun y hy => ?_⟩
    obtain rfl := Option.some.inj hy
    exact h3

theorem nextTables_spec (hadm : Radix.Closed adm) (hf : FlagsOk flags) :
    ∀ (is : List ℕ) (m : Machine) (p₀ : List ℕ) (t : ℕ), Owned root adm m →
      m.node root k₀ p₀ = some t → adm k₀ (p₀ ++ is) →
      Owned root adm (m.nextTables true flags t is).2
        ∧ Grown root adm flags m (m.nextTables true flags t is).2 k₀ (p₀ ++ is)
        ∧ ∀ x, (m.nextTables true flags t is).1 = some x →
          (m.nextTables true flags t is).2.node root k₀ (p₀ ++ is) = some x
  | [], m, p₀, t, hO, hn, _ => by
    refine ⟨hO, Grown.refl _ _ _ _, fun x hx => ?_⟩
    simp only [Machine.nextTables, Option.some.injEq] at hx
    simpa [Machine.nextTables, ← hx] using hn
  | i :: is, m, p₀, t, hO, hn, hp => by
    have hP : p₀ ++ i :: is = p₀ ++ [i] ++ is := by simp
    rw [hP] at hp ⊢
    obtain ⟨h1, h2, h3⟩ := getNextTable_spec hadm hO hn (hadm.of_append is hp) hf
    simp only [Machine.nextTables]
    rcases hg : m.getNextTable t i true flags with ⟨_ | next, m'⟩ <;> rw [hg] at h1 h2 h3
    · exact ⟨h1, h2.mono (List.prefix_append _ _), fun x hx => by simp at hx⟩
    · obtain ⟨k1, k2, k3⟩ := nextTables_spec hadm hf is m' (p₀ ++ [i]) next h1 (h3 next rfl) hp
      exact ⟨k1, Grown.trans hadm hp (h2.mono (List.prefix_append _ _)) k2 h1, k3⟩

/-- A descent that is given up leaves no page to hand out. -/
theorem nextTables_none (hadm : Radix.Closed adm) (hf : FlagsOk flags) :
    ∀ (is : List ℕ) (m : Machine) (p₀ : List ℕ) (t : ℕ), Owned root adm m → m.pmm.Busy 0 →
      m.node root k₀ p₀ = some t → adm k₀ (p₀ ++ is) →
      (m.nextTables true flags t is).1 = none →
      ((m.nextTables true flags t is).2.pmm.pmmAllocPage).1 = 0
  | [], m, p₀, t, _, _, _, _, h => by simp [Machine.nextTables] at h
  | i :: is, m, p₀, t, hO, hz, hn, hp, h => by
    rw [show p₀ ++ i :: is = p₀ ++ [i] ++ is by simp] at hp
    obtain ⟨h1, h2, h3⟩ := getNextTable_spec hadm hO hn (hadm.of_append is hp) hf
    simp only [Machine.nextTables] at h ⊢
    rcases getNextTable_cases m t i flags with ⟨x, -, he⟩ | ⟨-, h0, he⟩ | ⟨-, -, he⟩ <;>
      rw [he] at h h1 h2 h3 ⊢
    · exact nextTables_none hadm hf is m (p₀ ++ [i]) x hO hz (h3 x rfl) hp h
    · dsimp only
      rw [Pmm.pmmAllocPage_of_eq_zero hO.pmm hz h0, Pmm.pmmAllocPage_of_eq_zero hO.pmm hz h0]
    · exact nextTables_none hadm hf is _ (p₀ ++ [i]) _ h1 (h2.busy 0 hz) (h3 _ rfl) hp h

/-- Without allocation the descent is the walk, and nothing changes. -/
theorem nextTables_false (flags : BitVec 64) : ∀ (is : List ℕ) (m : Machine) (t : ℕ),
    m.nextTables false flags t is = (Radix.walk (tableChild m.phys) t is, m)
  | [], m, t => rfl
  | i :: is, m, t => by
    simp only [Machine.nextTables, Machine.getNextTable, Radix.walk, tableChild]
    by_cases h : isPresent (m.phys t i)
    · simp only [h, ↓reduceIte, Option.bind_some]
      exact nextTables_false flags is m _
    · simp [h]

end Forests

/-! ## The mapping law -/

/-- The table a path of indices leads to. -/
def Machine.table (m : Machine) (pml4 : ℕ) (p : List ℕ) : Option ℕ :=
  Radix.walk (tableChild m.phys) pml4 p

/-- Paths to tables: at most three indices of an entry each. -/
def TablePath (p : List ℕ) : Prop := p.length ≤ 3 ∧ ∀ i ∈ p, i < 512

/-- The tables form a tree of taken frames: no table is reached along two paths. -/
structure TableTree (m : Machine) (pml4 : ℕ) : Prop where
  tree : ∀ p q n, TablePath p → TablePath q → m.table pml4 p = some n →
    m.table pml4 q = some n → p = q
  busy : ∀ p n, TablePath p → m.table pml4 p = some n → m.pmm.Busy n

/-- What holds of all present entries above the last level. -/
def TableEntries (P : BitVec 64 → Prop) (m : Machine) (pml4 : ℕ) : Prop :=
  ∀ p n i, TablePath (p ++ [i]) → m.table pml4 p = some n → isPresent (m.phys n i) = true →
    P (m.phys n i)

/-- No present entry above the last level is a huge page. -/
def NoHuge (m : Machine) (pml4 : ℕ) : Prop :=
  ∀ p n i, TablePath (p ++ [i]) → m.table pml4 p = some n → isPresent (m.phys n i) = true →
    m.phys n i &&& pteHuge = 0#64

theorem closed_tablePath : Radix.Closed fun (_ : Unit) p => TablePath p := by
  rintro - p i ⟨h1, h2⟩
  simp only [List.length_append, List.length_singleton] at h1
  exact ⟨by omega, fun j hj => h2 j (List.mem_append_left _ hj)⟩

theorem tablePath_ok (va : ℕ) : TablePath (tablePath va) := ⟨le_rfl, tablePath_lt va⟩

theorem TableTree.owned {m : Machine} {pml4 : ℕ} (h : TableTree m pml4) (hI : m.pmm.Inv)
    (hw : m.pmm.totalPages ≤ 2 ^ 40) :
    Owned (fun _ : Unit => some pml4) (fun _ p => TablePath p) m where
  pmm := hI
  width := hw
  forest _ p _ q n hp hq h1 h2 := ⟨rfl, h.tree p q n hp hq h1 h2⟩
  busy _ p n hp hn := h.busy p n hp hn

theorem Owned.tableTree {m : Machine} {pml4 : ℕ}
    (h : Owned (fun _ : Unit => some pml4) (fun _ p => TablePath p) m) : TableTree m pml4 where
  tree p q n hp hq h1 h2 := (h.forest () p () q n hp hq h1 h2).2
  busy p n hp hn := h.busy () p n hp hn

theorem vmmGetPte_eq (m : Machine) (pml4 va : ℕ) :
    m.vmmGetPte pml4 va = (m.table pml4 (tablePath va)).map fun pt => (pt, ptIdx va) := by
  unfold Machine.vmmGetPte
  rw [nextTables_false]
  simp only [Machine.table, tablePath]
  rcases Radix.walk (tableChild m.phys) pml4 [pml4Idx va, pdptIdx va, pdIdx va] with _ | pt <;> rfl

theorem leafEntry_of_none {m : Machine} {pml4 va : ℕ} (h : m.table pml4 (tablePath va) = none) :
    m.leafEntry pml4 va = none := by
  rw [Machine.leafEntry, vmmGetPte_eq, h]
  rfl

theorem leafEntry_of_some {m : Machine} {pml4 va pt : ℕ}
    (h : m.table pml4 (tablePath va) = some pt) :
    m.leafEntry pml4 va
      = if isPresent (m.phys pt (ptIdx va)) then some (m.phys pt (ptIdx va)) else none := by
  rw [Machine.leafEntry, vmmGetPte_eq, h]
  rfl

theorem table_of_entry {m : Machine} {r r' va : ℕ}
    (h : m.phys r (pml4Idx va) = m.phys r' (pml4Idx va)) :
    m.table r (tablePath va) = m.table r' (tablePath va) := by
  simp only [Machine.table, tablePath, Radix.walk, tableChild, h]

/-- A PML4 translates by its entry for the address alone. -/
theorem leafEntry_of_entry {m : Machine} {r r' va : ℕ}
    (h : m.phys r (pml4Idx va) = m.phys r' (pml4Idx va)) :
    m.leafEntry r va = m.leafEntry r' va := by
  rw [Machine.leafEntry, Machine.leafEntry, vmmGetPte_eq, vmmGetPte_eq, table_of_entry h]

theorem leafEntry_eq_some {m : Machine} {pml4 va : ℕ} {e : BitVec 64}
    (h : m.leafEntry pml4 va = some e) :
    ∃ pt, m.table pml4 (tablePath va) = some pt ∧ m.phys pt (ptIdx va) = e
      ∧ isPresent (m.phys pt (ptIdx va)) = true := by
  rcases hpt : m.table pml4 (tablePath va) with _ | pt
  · rw [leafEntry_of_none hpt] at h
    cases h
  rw [leafEntry_of_some hpt] at h
  split_ifs at h with hpr
  exact ⟨pt, rfl, Option.some.inj h, hpr⟩

/-- Once its tables are there, `vmm_map_page` writes one entry. -/
theorem vmmMapPage_eq {m m' : Machine} {pml4 va pa pt : ℕ} {flags : BitVec 64}
    (hf : FlagsOk flags) (h : m.nextTables true flags pml4 (tablePath va) = (some pt, m')) :
    m.vmmMapPage pml4 va pa flags = m'.setEntry pt (ptIdx va) (BitVec.ofNat 64 pa ||| flags) := by
  unfold Machine.vmmMapPage
  rw [show [pml4Idx va, pdptIdx va, pdIdx va] = tablePath va from rfl, h, BitVec.or_assoc,
    hf.or_present]

section Leaf

variable {m m' : Machine} {pml4 pt i va : ℕ} {P : List ℕ} {e flags : BitVec 64}

@[simp] theorem setEntry_pmm (m : Machine) (t i : ℕ) (e : BitVec 64) :
    (m.setEntry t i e).pmm = m.pmm := rfl

theorem setEntry_phys_self (m : Machine) (t i : ℕ) (e : BitVec 64) :
    (m.setEntry t i e).phys t i = e := if_pos ⟨rfl, rfl⟩

theorem setEntry_phys_of_ne {t a j : ℕ} (h : a = t → j ≠ i) :
    (m.setEntry t i e).phys a j = m.phys a j := PhysMem.write_of_ne h

/-- A last-level table's entry is not on the way to any table. -/
theorem ne_of_tablePath (hT : TableTree m pml4) (hP : TablePath P) (h3 : P.length = 3)
    (hpt : m.table pml4 P = some pt) {q : List ℕ} {a j : ℕ} (hq : TablePath (q ++ [j]))
    (ha : m.table pml4 q = some a) : a ≠ pt := by
  rintro rfl
  have hqP := hT.tree q P a (closed_tablePath () q j hq) hP ha hpt
  have := hq.1
  simp only [hqP, List.length_append, List.length_singleton, h3] at this
  omega

/-- The tables are where they were if the words of tables are what they were. -/
theorem table_congr {m' : Machine} (hsame : ∀ q a j, TablePath q → m.table pml4 q = some a →
    TablePath (q ++ [j]) → m'.phys a j = m.phys a j) {p : List ℕ} (hp : TablePath p) :
    m'.table pml4 p = m.table pml4 p := by
  show Radix.node _ (fun _ : Unit => some pml4) () p = Radix.node _ (fun _ => some pml4) () p
  refine Radix.node_congr closed_tablePath () (fun q a j hq ha => ?_) p hp
  exact tableChild_congr (hsame q a j (closed_tablePath () q j hq) ha hq)

theorem table_setEntry (hT : TableTree m pml4) (hP : TablePath P) (h3 : P.length = 3)
    (hpt : m.table pml4 P = some pt) {p : List ℕ} (hp : TablePath p) :
    (m.setEntry pt i e).table pml4 p = m.table pml4 p :=
  table_congr (fun _ _ _ _ ha hq => setEntry_phys_of_ne fun h =>
    absurd h (ne_of_tablePath hT hP h3 hpt hq ha)) hp

theorem tableTree_setEntry (hT : TableTree m pml4) (hP : TablePath P) (h3 : P.length = 3)
    (hpt : m.table pml4 P = some pt) : TableTree (m.setEntry pt i e) pml4 where
  tree p q n hp hq h1 h2 := by
    rw [table_setEntry hT hP h3 hpt hp] at h1
    rw [table_setEntry hT hP h3 hpt hq] at h2
    exact hT.tree p q n hp hq h1 h2
  busy p n hp hn := by
    rw [table_setEntry hT hP h3 hpt hp] at hn
    exact hT.busy p n hp hn

theorem tableEntries_setEntry {Q : BitVec 64 → Prop} (hT : TableTree m pml4) (hP : TablePath P)
    (h3 : P.length = 3) (hpt : m.table pml4 P = some pt) (hH : TableEntries Q m pml4) :
    TableEntries Q (m.setEntry pt i e) pml4 := by
  intro p n j hp hn hpr
  rw [table_setEntry hT hP h3 hpt (closed_tablePath () p j hp)] at hn
  rw [setEntry_phys_of_ne fun h => absurd h (ne_of_tablePath hT hP h3 hpt hp hn)] at hpr ⊢
  exact hH p n j hp hn hpr

/-- The entry of another page is not the one written. -/
theorem leafEntry_setEntry (hT : TableTree m pml4)
    (hpt : m.table pml4 (tablePath va) = some pt) {va' : ℕ}
    (hne : tablePath va' = tablePath va → ptIdx va' ≠ ptIdx va) :
    (m.setEntry pt (ptIdx va) e).leafEntry pml4 va' = m.leafEntry pml4 va' := by
  have htab := table_setEntry (i := ptIdx va) (e := e) hT (tablePath_ok va) rfl hpt
    (tablePath_ok va')
  rcases hn : m.table pml4 (tablePath va') with _ | a <;> rw [hn] at htab
  · rw [leafEntry_of_none hn, leafEntry_of_none htab]
  · rw [leafEntry_of_some hn, leafEntry_of_some htab, setEntry_phys_of_ne]
    rintro rfl
    exact hne (hT.tree _ _ _ (tablePath_ok va') (tablePath_ok va) hn hpt)

/-- Adding tables changes no present entry of a page. -/
theorem Grown.leafEntry_eq (hT : TableTree m pml4)
    (hG : Grown (fun _ : Unit => some pml4) (fun _ p => TablePath p) flags m m' () (tablePath va))
    (va' : ℕ) : m'.leafEntry pml4 va' = m.leafEntry pml4 va' := by
  have hpos : ∀ q, ¬ (q.length = 3 ∧ q ++ [ptIdx va'] <+: tablePath va) := by
    rintro q ⟨hq, hpre⟩
    have := hpre.length_le
    simp [tablePath, hq] at this
  rcases ho : m.table pml4 (tablePath va') with _ | a
  · rw [leafEntry_of_none ho]
    rcases hn : m'.table pml4 (tablePath va') with _ | a
    · exact leafEntry_of_none hn
    · rw [leafEntry_of_some hn]
      rcases hG.added () _ a (tablePath_ok va') hn with h | ⟨-, -, -, hz⟩
      · rw [show m.node (fun _ : Unit => some pml4) () (tablePath va') = none from ho] at h
        exact absurd h (by simp)
      · rcases hz (ptIdx va') with h0 | ⟨hpre, -⟩
        · simp [h0, isPresent_eq]
        · exact absurd ⟨rfl, hpre⟩ (hpos _)
  · have hn : m'.table pml4 (tablePath va') = some a := hG.kept () _ a (tablePath_ok va') ho
    rw [leafEntry_of_some ho, leafEntry_of_some hn]
    suffices h : m'.phys a (ptIdx va') = m.phys a (ptIdx va') by rw [h]
    by_contra hc
    obtain ⟨q, hq, hqa, -⟩ := hG.words a _ (hT.busy _ _ (tablePath_ok va') ho) hc
    obtain ⟨s, hs⟩ := hq
    have hqP : TablePath q :=
      closed_tablePath () q _ (closed_tablePath.of_append (k := ()) s (hs ▸ tablePath_ok va))
    obtain rfl := hT.tree q _ a hqP (tablePath_ok va') hqa ho
    exact hpos _ ⟨rfl, s, hs⟩

theorem Grown.tableEntries {Q : BitVec 64 → Prop} (hT : TableTree m pml4)
    (hG : Grown (fun _ : Unit => some pml4) (fun _ p => TablePath p) flags m m' () P)
    (hQ : ∀ e, LeadsTo flags e → Q e) (hH : TableEntries Q m pml4) : TableEntries Q m' pml4 := by
  intro p n i hp hn hpr
  have hpp := closed_tablePath () p i hp
  rcases hG.added () p n hpp hn with ho | ⟨-, -, -, hz⟩
  · by_cases hc : m'.phys n i = m.phys n i
    · rw [hc] at hpr ⊢
      exact hH p n i hp ho hpr
    · obtain ⟨-, -, -, -, h⟩ := hG.words n i (hT.busy p n hpp ho) hc
      exact hQ _ h
  · rcases hz i with h0 | ⟨-, h⟩
    · rw [h0] at hpr
      cases hpr
    · exact hQ _ h

end Leaf

/-- `vmm_map_page` and `vmm_get_pte` obey the law of a map from pages to entries, and the tables
stay a tree of taken frames. They stay free of huge pages if the flags ask for none: the flags go
into every table entry on the way. -/
theorem vmmMapPage_law {m : Machine} {pml4 : ℕ} (va pa : ℕ) (flags : BitVec 64) (hI : m.pmm.Inv)
    (hw : m.pmm.totalPages ≤ 2 ^ 40) (hT : TableTree m pml4) (hH : NoHuge m pml4)
    (hva : Canonical va) (hal : 4096 ∣ pa) (hlt : pa < 2 ^ 52) (hf : FlagsOk flags)
    (halloc : (m.nextTables true flags pml4 (tablePath va)).1 ≠ none) :
    (∃ pt, (m.vmmMapPage pml4 va pa flags).vmmGetPte pml4 va = some (pt, ptIdx va)
        ∧ pteGetAddr ((m.vmmMapPage pml4 va pa flags).phys pt (ptIdx va)) = pa
        ∧ pteGetFlags ((m.vmmMapPage pml4 va pa flags).phys pt (ptIdx va)) = flags ||| ptePresent)
      ∧ (∀ va', Canonical va' → va' / 4096 ≠ va / 4096 →
        (m.vmmMapPage pml4 va pa flags).leafEntry pml4 va' = m.leafEntry pml4 va')
      ∧ TableTree (m.vmmMapPage pml4 va pa flags) pml4
      ∧ (flags &&& pteHuge = 0#64 → NoHuge (m.vmmMapPage pml4 va pa flags) pml4) := by
  obtain ⟨pt, hpt⟩ := Option.ne_none_iff_exists'.mp halloc
  obtain ⟨hO', hG, hnode⟩ := nextTables_spec closed_tablePath hf (tablePath va) m [] pml4
    (hT.owned hI hw) rfl (tablePath_ok va)
  have hT' := hO'.tableTree
  have hPt := hnode pt hpt
  rcases hr : m.nextTables true flags pml4 (tablePath va) with ⟨r, m'⟩
  rw [hr] at hpt hT' hG hPt
  obtain rfl : r = some pt := hpt
  rw [vmmMapPage_eq hf hr]
  refine ⟨⟨pt, ?_, ?_, ?_⟩, fun va' hva' hne => ?_,
    tableTree_setEntry hT' (tablePath_ok va) rfl hPt, fun hnh => ?_⟩
  · rw [vmmGetPte_eq, table_setEntry hT' (tablePath_ok va) rfl hPt (tablePath_ok va)]
    exact congrArg _ hPt
  · rw [setEntry_phys_self, pteGetAddr_entry hal hlt hf]
  · rw [setEntry_phys_self, pteGetFlags_entry hal hlt hf, hf.or_present]
  · rw [leafEntry_setEntry hT' hPt fun h1 h2 => hne (page_eq_of_path hva' hva h1 h2)]
    exact hG.leafEntry_eq hT va'
  · exact tableEntries_setEntry hT' (tablePath_ok va) rfl hPt
      (hG.tableEntries hT (fun e he => he.and_pteHuge.trans hnh) hH)

/-- An empty PML4 in page one of eight, with the pages above it vacant. -/
def smallMachine : Machine where
  pmm := { bitmap := [0x03#8], totalPages := 8, freePages := 6, lastFreeIndex := 2 }
  phys _ _ := 0#64

theorem smallMachine_inv : smallMachine.pmm.Inv :=
  ⟨⟨by decide, by decide⟩, by decide, by decide, by decide⟩

theorem smallMachine_table {p : List ℕ} {n : ℕ} (h : smallMachine.table 0x1000 p = some n) :
    p = [] ∧ n = 0x1000 := by
  rcases p with _ | ⟨i, p⟩
  · exact ⟨rfl, (Option.some.inj h).symm⟩
  · rw [Machine.table, Radix.walk, tableChild_zero rfl] at h
    exact absurd h (by simp)

theorem smallMachine_tableTree : TableTree smallMachine 0x1000 where
  tree p q n _ _ h1 h2 := (smallMachine_table h1).1.trans (smallMachine_table h2).1.symm
  busy p n _ h := by
    obtain ⟨-, rfl⟩ := smallMachine_table h
    decide

theorem smallMachine_noHuge : NoHuge smallMachine 0x1000 :=
  fun _ _ _ _ _ _ => BitVec.zero_and

theorem vmmMapPage_law_smallMachine :
    (∃ pt, (smallMachine.vmmMapPage 0x1000 0x400000 0x7000 3#64).vmmGetPte 0x1000 0x400000
        = some (pt, ptIdx 0x400000))
      ∧ NoHuge (smallMachine.vmmMapPage 0x1000 0x400000 0x7000 3#64) 0x1000 := by
  obtain ⟨⟨pt, h1, -⟩, -, -, h2⟩ := vmmMapPage_law 0x400000 0x7000 3#64 smallMachine_inv
    (by decide) smallMachine_tableTree smallMachine_noHuge (.inl (by decide))
    (by decide) (by decide) ⟨by decide, by decide⟩ (by decide)
  exact ⟨⟨pt, h1⟩, h2 (by decide)⟩

/-- Flags with the huge-page bit make huge pages of the table entries. -/
theorem vmmMapPage_huge_flags :
    smallMachine.pmm.Inv ∧ TableTree smallMachine 0x1000 ∧ NoHuge smallMachine 0x1000
      ∧ Canonical 0x400000 ∧ 4096 ∣ 0x7000 ∧ 0x7000 < 2 ^ 52 ∧ FlagsOk 0x81#64
      ∧ (smallMachine.nextTables true 0x81#64 0x1000 (tablePath 0x400000)).1 ≠ none
      ∧ ¬ NoHuge (smallMachine.vmmMapPage 0x1000 0x400000 0x7000 0x81#64) 0x1000 := by
  refine ⟨smallMachine_inv, smallMachine_tableTree, smallMachine_noHuge, .inl (by decide),
    by decide, by decide, ⟨by decide, by decide⟩, by decide, fun h => ?_⟩
  have := h [] 0x1000 0 ⟨by decide, by decide⟩ rfl (by decide)
  exact absurd this (by decide)

/-! ## The calls of `paging_init` -/

/-- The calls of `vmm_map_page` for `n` successive pages, an address and a frame each. -/
def pageCalls (va pa n : ℕ) : List (ℕ × ℕ) :=
  (List.range n).map fun i => (u64 (va + i * pageSize), u64 (pa + i * pageSize))

/-- The calls for an entry of the memory map. -/
def entryCalls (hhdm : ℕ) (e : MemmapEntry) : List (ℕ × ℕ) :=
  if e.type.isMapped then
    let start := alignDown e.base pageSize
    let stop := alignUp (u64 (e.base + e.length)) pageSize
    pageCalls (start + hhdm) start ((stop - start) / pageSize)
      ++ pageCalls start start ((min stop 0x100000000 - start) / pageSize)
  else []

def pagingCalls (hhdm : ℕ) (img : KernelImage) (mmap : List MemmapEntry) : List (ℕ × ℕ) :=
  pageCalls img.virtualBase img.physicalBase (alignUp img.size pageSize / pageSize)
    ++ mmap.flatMap (entryCalls hhdm)

namespace Machine

def mapCall (pml4 : ℕ) (m : Machine) (c : ℕ × ℕ) : Machine :=
  m.vmmMapPage pml4 c.1 c.2 kernelFlags

/-- The machine with a cleared PML4. -/
def clearPml4 (m : Machine) : Machine :=
  { pmm := (m.pmm.pmmAllocPage).2, phys := m.phys.zeroPage (m.pmm.pmmAllocPage).1 }

end Machine

theorem mapPages_eq (m : Machine) (pml4 va pa n : ℕ) :
    m.mapPages pml4 va pa n = (pageCalls va pa n).foldl (Machine.mapCall pml4) m := by
  unfold pageCalls Machine.mapPages
  rw [List.foldl_map]
  rfl

theorem mapEntry_eq (m : Machine) (hhdm pml4 : ℕ) (e : MemmapEntry) :
    m.mapEntry hhdm pml4 e = (entryCalls hhdm e).foldl (Machine.mapCall pml4) m := by
  unfold Machine.mapEntry entryCalls
  split_ifs with hm
  · dsimp only
    rw [List.foldl_append, ← mapPages_eq, ← mapPages_eq]
    split_ifs with hhigh hcut
    · have hnone : min (alignUp (u64 (e.base + e.length)) pageSize) 0x100000000
          - alignDown e.base pageSize = 0 := by omega
      rw [hnone]
      rfl
    · rw [min_eq_right hcut.le]
    · rw [min_eq_left (not_lt.mp hcut)]
  · rfl

theorem pagingInit_eq (hhdm : ℕ) (img : KernelImage) (mmap : List MemmapEntry) (m : Machine) :
    pagingInit hhdm img mmap m = if (m.pmm.pmmAllocPage).1 = 0 then none else
      some ((m.pmm.pmmAllocPage).1, (pagingCalls hhdm img mmap).foldl
        (Machine.mapCall (m.pmm.pmmAllocPage).1) m.clearPml4) := by
  have hentries : ∀ (es : List MemmapEntry) (pml4 : ℕ) (m : Machine),
      es.foldl (Machine.mapEntry hhdm pml4) m
        = (es.flatMap (entryCalls hhdm)).foldl (Machine.mapCall pml4) m := by
    intro es pml4
    induction es with
    | nil => exact fun m => rfl
    | cons e es ih =>
      intro m
      rw [List.foldl_cons, List.flatMap_cons, List.foldl_append, ih, mapEntry_eq]
  unfold pagingInit pagingCalls
  dsimp only
  rw [List.foldl_append, hentries, mapPages_eq]
  rfl

end SudoOS
