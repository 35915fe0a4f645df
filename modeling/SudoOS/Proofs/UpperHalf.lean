import SudoOS.Proofs.Elf
import SudoOS.Proofs.Rights
import SudoOS.Proofs.Supply

/-!
# Mappings in the upper half

`mm_map_range` does not look at the addresses it is given. The pages it maps are entered with
`PTE_USER` on frames that were free, so their entries are never what was there before; where a frame
is missing it unmaps what it had mapped, and with it whatever was there before. So it leaves the
upper half alone exactly if no page of that half stays mapped, and none is unmapped that had been
mapped (`KMem.SparesUpper`). The other address spaces and the kernel see what the one address space
sees, since they share its entries for the upper half (`upperKept_of_root`).
-/

namespace SudoOS

/-! ## The loop -/

section Loop

variable {m m' : Machine} {pml4 va : ℕ} {flags : BitVec 64} {vas : List ℕ}

theorem mapNext_inv (h : MapInv pml4 m) (hf : FlagsOk flags) (h0 : (m.pmm.pmmAllocPage).1 ≠ 0)
    (va : ℕ) : MapInv pml4 (m.mapNext pml4 va flags) := by
  rcases lt_or_ge (m.missing pml4 (tablePath va)) m.pmm.freePages with hlt | hge
  · exact (mapNext_enough h hf h0 hlt).inv
  · exact (mapNext_short h hf h0 hge).1

theorem mapEach_inv (hf : FlagsOk flags) : ∀ {vas : List ℕ} {m m' : Machine}, MapInv pml4 m →
    Machine.mapEach pml4 flags vas m = (true, m') → MapInv pml4 m'
  | [], m, m', h, he => (Prod.mk.inj he).2 ▸ h
  | va :: vas, m, m', h, he => by
    rw [Machine.mapEach] at he
    split_ifs at he with h0
    · cases he
    · exact mapEach_inv hf (mapNext_inv h hf h0 va) he

/-- A page is entered with the flags it is mapped with. -/
theorem mapNext_entry (h : MapInv pml4 m) (hf : FlagsOk flags) {e : BitVec 64}
    (h0 : (m.pmm.pmmAllocPage).1 ≠ 0)
    (hlt : m.missing pml4 (tablePath va) < m.pmm.freePages)
    (he : (m.mapNext pml4 va flags).leafEntry pml4 va = some e) :
    hasBit pteUser e = hasBit pteUser flags := by
  have hfree := (Pmm.pmmAllocPage_exact h.pmm h.zero).resolve_left fun hc => h0 (by rw [hc.2])
  have hv := ((Pmm.pmmAllocPage_spec h.pmm).2.2.2 h0).1
  have hwidth := h.width
  have hpalt := hv.lt
  obtain ⟨m₁, hinv, -, ⟨hshort, -, -⟩ | ⟨-, -, pt, hpt, hmap⟩⟩ :=
    vmmMapPage_split h.alloc hf va (m.pmm.pmmAllocPage).1
  · change (m.pmm.pmmAllocPage).2.freePages < m.missing pml4 (tablePath va) at hshort
    omega
  have hpt' := (table_setEntry (i := ptIdx va)
    (e := BitVec.ofNat 64 (m.pmm.pmmAllocPage).1 ||| flags) hinv.tree (tablePath_ok va) rfl hpt
    (tablePath_ok va)).trans hpt
  rw [Machine.mapNext, hmap, leafEntry_of_some hpt', setEntry_phys_self,
    if_pos (isPresent_entry hf)] at he
  obtain rfl := Option.some.inj he
  exact congrArg Rights.user (ofFlags_entry flags hv.aligned (by omega))

theorem mapEach_user (hf : FlagsOk flags) (hu : hasBit pteUser flags = true) :
    ∀ {vas : List ℕ} {m m' : Machine}, MapInv pml4 m → m.framesFor pml4 vas ≤ m.pmm.freePages →
    Machine.mapEach pml4 flags vas m = (true, m') → ∀ w ∈ vas, ∀ e, m'.leafEntry pml4 w = some e →
      hasBit pteUser e = true
  | va :: vas, m, m', h, hle, he, w, hw, e, hwe => by
    obtain ⟨h0, hone, hle'⟩ := mapNext_of_framesFor h hf hle
    rw [Machine.mapEach, if_neg h0] at he
    by_cases hlater : ∃ x ∈ vas, leafPath x = leafPath w
    · obtain ⟨x, hx, hpath⟩ := hlater
      exact mapEach_user hf hu hone.inv hle' he x hx e ((leafEntry_of_leafPath hpath).trans hwe)
    · push Not at hlater
      obtain rfl : w = va := (List.mem_cons.mp hw).resolve_right fun hc => hlater w hc rfl
      obtain ⟨m₁, he₁, hrest⟩ := mapEach_enough hf hone.inv hle'
      obtain ⟨-, rfl⟩ := Prod.mk.inj (he₁.symm.trans he)
      rw [hrest.frame w hlater] at hwe
      have hframe := hone.frames
      rw [framesFor_singleton] at hframe
      exact (mapNext_entry h hf h0 (by omega) hwe).trans hu

/-- A frame in use that no table below the PML4 is on, and not the PML4 either, is as before. -/
theorem mapEach_off_tables (hf : FlagsOk flags) {x : ℕ} :
    ∀ {vas : List ℕ} {m m' : Machine} {ok : Bool},
    MapInv pml4 m → m.pmm.Busy x → (∀ p, TablePath p → m.table pml4 p ≠ some x) →
    Machine.mapEach pml4 flags vas m = (ok, m') →
      (∀ p, TablePath p → m'.table pml4 p ≠ some x) ∧ ∀ j, m'.phys x j = m.phys x j
  | [], m, m', ok, _, _, hno, he => by
    obtain ⟨-, rfl⟩ := Prod.mk.inj he
    exact ⟨hno, fun _ => rfl⟩
  | va :: vas, m, m', ok, h, hx, hno, he => by
    rw [Machine.mapEach] at he
    split_ifs at he with h0
    · obtain ⟨-, rfl⟩ := Prod.mk.inj he
      exact ⟨hno, fun _ => rfl⟩
    have hx' := (Pmm.pmmAllocPage_spec h.pmm).2.2.1 x hx
    obtain ⟨m₁, hinv, hG, hcase⟩ := vmmMapPage_split h.alloc hf va (m.pmm.pmmAllocPage).1
    have hno₁ : ∀ p, TablePath p → m₁.table pml4 p ≠ some x := fun p hp hn => by
      rcases hG.added () p x hp hn with h1 | ⟨-, -, h1, -⟩
      · exact hno p hp h1
      · exact h1 hx'
    have hword₁ : ∀ j, m₁.phys x j = m.phys x j := fun j => by
      by_contra hc
      obtain ⟨q, hq, hn, -⟩ := hG.words x j hx' hc
      exact hno q (tablePath_of_initial ((List.prefix_append _ _).trans hq)) hn
    have hstep : (m.mapNext pml4 va flags).pmm.Busy x
        ∧ (∀ p, TablePath p → (m.mapNext pml4 va flags).table pml4 p ≠ some x)
        ∧ ∀ j, (m.mapNext pml4 va flags).phys x j = m.phys x j := by
      rcases hcase with ⟨-, -, hmap⟩ | ⟨-, -, pt, hpt, hmap⟩ <;> rw [Machine.mapNext, hmap]
      · exact ⟨hG.busy x hx', hno₁, hword₁⟩
      · refine ⟨hG.busy x hx', fun p hp => ?_, fun j => ?_⟩
        · rw [table_setEntry hinv.tree (tablePath_ok va) rfl hpt hp]
          exact hno₁ p hp
        · have hne : x ≠ pt := fun hc =>
            hno₁ _ (tablePath_ok va) (hpt.trans (congrArg some hc.symm))
          rw [setEntry_phys_of_ne fun hc => absurd hc hne]
          exact hword₁ j
    obtain ⟨hbusy, htables, hwords⟩ := hstep
    obtain ⟨hno', hwords'⟩ := mapEach_off_tables hf (mapNext_inv h hf h0 va) hbusy htables he
    exact ⟨hno', fun j => (hwords' j).trans (hwords j)⟩

/-- The present entries of the PML4 stay. -/
theorem mapEach_root (hf : FlagsOk flags) {j : ℕ} : ∀ {vas : List ℕ} {m m' : Machine} {ok : Bool},
    MapInv pml4 m → isPresent (m.phys pml4 j) = true →
    Machine.mapEach pml4 flags vas m = (ok, m') → m'.phys pml4 j = m.phys pml4 j
  | [], m, m', ok, _, _, he => by
    obtain ⟨-, rfl⟩ := Prod.mk.inj he
    rfl
  | va :: vas, m, m', ok, h, hpr, he => by
    rw [Machine.mapEach] at he
    split_ifs at he with h0
    · obtain ⟨-, rfl⟩ := Prod.mk.inj he
      rfl
    · have hword := mapNext_words h va hf h0 h.root_busy (fun _ => h.root_apart) hpr
      rw [← hword] at hpr ⊢
      exact mapEach_root hf (mapNext_inv h hf h0 va) hpr he

/-- A loop that fails has mapped the pages before one that gets no frame, and gives them back. -/
theorem mapRange_false (pml4 start : ℕ) (flags : BitVec 64) : ∀ (n i : ℕ) {m m' : Machine},
    Machine.mapRange pml4 start flags n i m = (false, m') → ∃ l < n, ∃ m₁,
      Machine.mapEach pml4 flags (pagesFrom start i l) m = (true, m₁)
        ∧ (m₁.pmm.pmmAllocPage).1 = 0
        ∧ m' = Machine.rollback { m₁ with pmm := (m₁.pmm.pmmAllocPage).2 } pml4 start (i + l)
  | 0, i, m, m', h => by cases h
  | n + 1, i, m, m', h => by
    rw [Machine.mapRange] at h
    split_ifs at h with h0
    · exact ⟨0, Nat.succ_pos n, m, rfl, h0, (Prod.mk.inj h).2.symm⟩
    · obtain ⟨l, hl, m₁, he, hzero, hm'⟩ := mapRange_false pml4 start flags n (i + 1) h
      refine ⟨l + 1, Nat.succ_lt_succ hl, m₁, ?_, hzero, ?_⟩
      · rw [pagesFrom_succ, Machine.mapEach, if_neg h0]
        exact he
      · rw [hm', Nat.add_right_comm, Nat.add_assoc]

end Loop

/-! ## The rollback -/

section Rollback

variable {m : Machine} {pml4 : ℕ} {p : Pmm}

/-- The entries of these pages have been cleared, and the tables are where they were. The frames
given back are looked past: a table is found without asking which frames are in use. -/
structure Cleared (p : Pmm) (pml4 : ℕ) (m m' : Machine) (vas : List ℕ) : Prop where
  tree : TableTree { m' with pmm := p } pml4
  cleared : ∀ va ∈ vas, m'.leafEntry pml4 va = none
  frame : ∀ w, (∀ va ∈ vas, leafPath va ≠ leafPath w) → m'.leafEntry pml4 w = m.leafEntry pml4 w
  tables : ∀ q, TablePath q → m'.table pml4 q = m.table pml4 q
  words : ∀ x j, (∀ va, m.table pml4 (tablePath va) ≠ some x) → m'.phys x j = m.phys x j

theorem rollbackPage_cleared (hT : TableTree { m with pmm := p } pml4) (va : ℕ) :
    Cleared p pml4 m (m.rollbackPage pml4 va) [va] := by
  have hnothing : m.leafEntry pml4 va = none → Cleared p pml4 m m [va] := fun hnone =>
    ⟨hT, fun w hw => List.mem_singleton.mp hw ▸ hnone, fun _ _ => rfl, fun _ _ => rfl,
      fun _ _ _ => rfl⟩
  unfold Machine.rollbackPage
  rw [vmmGetPte_eq]
  rcases hpt : m.table pml4 (tablePath va) with _ | pt
  · exact hnothing (leafEntry_of_none hpt)
  dsimp only [Option.map_some]
  split_ifs with hpr
  swap
  · exact hnothing (by rw [leafEntry_of_some hpt, if_neg hpr])
  have hpt' : Machine.table { m with pmm := p } pml4 (tablePath va) = some pt := hpt
  have htable : ∀ q, TablePath q →
      (Machine.setEntry { m with pmm := p } pt (ptIdx va) 0#64).table pml4 q = m.table pml4 q :=
    fun q hq => table_setEntry hT (tablePath_ok va) rfl hpt' hq
  have hentry := leafEntry_pmm (Machine.setEntry { m with pmm := p } pt (ptIdx va) 0#64)
    (m.pmm.pmmFreePage (pteGetAddr (m.phys pt (ptIdx va)))) pml4
  refine ⟨tableTree_setEntry hT (tablePath_ok va) rfl hpt', fun w hw => ?_, fun w hw => ?_, htable,
    fun x j hx => ?_⟩
  · obtain rfl := List.mem_singleton.mp hw
    refine (hentry w).trans ?_
    rw [leafEntry_of_some ((htable _ (tablePath_ok w)).trans hpt), setEntry_phys_self]
    rfl
  · have hne := hw va (List.mem_singleton_self va)
    refine (hentry w).trans ((leafEntry_setEntry hT hpt' fun h1 h2 => hne ?_).trans ?_)
    · rw [leafPath, leafPath, h1, h2]
    · exact leafEntry_pmm m p pml4 w
  · exact PhysMem.write_of_ne fun hc => absurd (hpt.trans (congrArg some hc.symm)) (hx va)

theorem rollback_cleared (hT : TableTree { m with pmm := p } pml4) (start : ℕ) : ∀ n,
    Cleared p pml4 m (m.rollback pml4 start n) (pagesFrom start 0 n)
  | 0 => ⟨hT, fun _ hw => (by cases hw), fun _ _ => rfl, fun _ _ => rfl, fun _ _ _ => rfl⟩
  | n + 1 => by
    have ih := rollback_cleared hT start n
    have hstep := rollbackPage_cleared ih.tree (u64 (start + n * pageSize))
    have hsplit : m.rollback pml4 start (n + 1)
        = (m.rollback pml4 start n).rollbackPage pml4 (u64 (start + n * pageSize)) := by
      rw [Machine.rollback, List.range_succ, List.foldl_append]
      rfl
    rw [hsplit, pagesFrom_concat, Nat.zero_add]
    refine ⟨hstep.tree, fun w hw => ?_, fun w hw => ?_,
      fun q hq => (hstep.tables q hq).trans (ih.tables q hq), fun x j hx => ?_⟩
    · by_cases hpath : leafPath (u64 (start + n * pageSize)) = leafPath w
      · exact (leafEntry_of_leafPath hpath.symm).trans
          (hstep.cleared _ (List.mem_singleton_self _))
      · rw [hstep.frame w fun va hva => List.mem_singleton.mp hva ▸ hpath]
        rcases List.mem_append.mp hw with hw | hw
        · exact ih.cleared w hw
        · exact absurd (congrArg leafPath (List.mem_singleton.mp hw).symm) hpath
    · rw [hstep.frame w fun va hva => hw va (List.mem_append_right _ hva)]
      exact ih.frame w fun va hva => hw va (List.mem_append_left _ hva)
    · refine (hstep.words x j fun va => ?_).trans (ih.words x j hx)
      rw [ih.tables _ (tablePath_ok va)]
      exact hx va

end Rollback

/-! ## The upper half of one table -/

section Upper

variable {m m' : Machine} {pml4 start n : ℕ} {flags : BitVec 64}

theorem framesFor_pages_lt (m : Machine) (pml4 start : ℕ) {i j : ℕ} (h : i < j) :
    m.framesFor pml4 (pagesFrom start 0 i) < m.framesFor pml4 (pagesFrom start 0 j) := by
  obtain ⟨l, rfl⟩ := Nat.exists_eq_add_of_lt h
  rw [Nat.add_assoc, pagesFrom_append, Machine.framesFor, Machine.framesFor, List.length_append,
    pagesFrom_succ, List.length_cons]
  have hcard := card_missingFor_le m pml4
    (List.subset_append_left (pagesFrom start 0 i) (pagesFrom start (0 + i) (l + 1)))
  rw [pagesFrom_succ] at hcard
  omega

/-- A page gets a frame exactly if those before it leave one. -/
theorem mapEach_frame_iff (hf : FlagsOk flags) (h : MapInv pml4 m) (i : ℕ) :
    (Machine.mapEach pml4 flags (pagesFrom start 0 (i + 1)) m).1 = true
      ↔ m.framesFor pml4 (pagesFrom start 0 i) < m.pmm.freePages := by
  rw [pagesFrom_concat]
  rcases lt_or_ge (m.framesFor pml4 (pagesFrom start 0 i)) m.pmm.freePages with hlt | hge
  · refine iff_of_true ?_ hlt
    rcases le_or_gt (m.framesFor pml4 (pagesFrom start 0 i ++ [u64 (start + (0 + i) * pageSize)]))
      m.pmm.freePages with hle | hgt
    · obtain ⟨m', he, -⟩ := mapEach_enough hf h hle
      rw [he]
    · obtain ⟨m₁, -, -, -, he, -⟩ := mapEach_last hf h hlt hgt
      rw [he]
  · exact iff_of_false (by rw [mapEach_short hf _ h hge]; decide) hge.not_gt

theorem framesFor_pages_le (m : Machine) (pml4 start : ℕ) {i j : ℕ} (h : i ≤ j) :
    m.framesFor pml4 (pagesFrom start 0 i) ≤ m.framesFor pml4 (pagesFrom start 0 j) := by
  rcases Nat.eq_or_lt_of_le h with rfl | hlt
  · exact le_rfl
  · exact (framesFor_pages_lt m pml4 start hlt).le

/-- What a loop that comes to its end has done: the pages before some point are mapped, and one
after it at most has a frame only. -/
theorem mapEach_pages (hf : FlagsOk flags) (hu : hasBit pteUser flags = true) (h : MapInv pml4 m)
    {l : ℕ} (he : Machine.mapEach pml4 flags (pagesFrom start 0 l) m = (true, m')) :
    ∃ q ≤ l, ∃ m₁, MapsEach m m₁ pml4 (pagesFrom start 0 q)
      ∧ (∀ w, m'.leafEntry pml4 w = m₁.leafEntry pml4 w)
      ∧ (∀ w ∈ pagesFrom start 0 q, ∀ e, m₁.leafEntry pml4 w = some e → hasBit pteUser e = true)
      ∧ ∀ i < l, m.pmm.freePages < m.framesFor pml4 (pagesFrom start 0 (i + 1)) ↔ q ≤ i := by
  rcases le_or_gt (m.framesFor pml4 (pagesFrom start 0 l)) m.pmm.freePages with hle | hgt
  · obtain ⟨m₁, he₁, hmaps⟩ := mapEach_enough hf h hle
    obtain ⟨-, rfl⟩ := Prod.mk.inj (he₁.symm.trans he)
    refine ⟨l, le_rfl, m₁, hmaps, fun _ => rfl, mapEach_user hf hu h hle he,
      fun i hi => iff_of_false (fun hc => ?_) hi.not_ge⟩
    exact absurd ((framesFor_pages_le m pml4 start hi).trans hle) hc.not_ge
  rcases l with _ | l
  · simp [pagesFrom, Machine.framesFor, Machine.missingFor] at hgt
  -- The last page's tables are short.
  have hlt := (mapEach_frame_iff hf h l).mp (congrArg Prod.fst he)
  obtain ⟨m₁, he₁, hmaps⟩ := mapEach_enough hf h hlt.le
  rw [pagesFrom_concat] at he hgt
  rw [mapEach_append pml4 flags _ he₁, Machine.mapEach] at he
  split_ifs at he with h0
  · cases he
  obtain ⟨-, rfl⟩ := Prod.mk.inj he
  have hshort : m₁.pmm.freePages
      ≤ m₁.missing pml4 (tablePath (u64 (start + (0 + l) * pageSize))) := by
    have happ := framesFor_append hmaps.missing [u64 (start + (0 + l) * pageSize)]
    have hfrm := hmaps.frames
    rw [framesFor_singleton] at happ
    omega
  obtain ⟨-, -, hsame⟩ := mapNext_short hmaps.inv hf h0 hshort
  refine ⟨l, Nat.le_succ l, m₁, hmaps, hsame, mapEach_user hf hu h hlt.le he₁, fun i hi => ?_⟩
  rcases Nat.lt_or_eq_of_le (Nat.le_of_lt_succ hi) with hil | rfl
  · refine iff_of_false (fun hc => ?_) hil.not_ge
    exact absurd ((framesFor_pages_le m pml4 start hil).trans hlt.le) hc.not_ge
  · rw [pagesFrom_concat]
    exact iff_of_true hgt le_rfl

/-- The upper half is mapped with `PTE_USER` to taken frames only. -/
def UserTaken (m : Machine) (pml4 : ℕ) : Prop :=
  ∀ w, 256 ≤ pml4Idx w → ∀ e, m.leafEntry pml4 w = some e → hasBit pteUser e = true →
    m.pmm.Busy (pteGetAddr e)

/-- A loop that succeeds leaves the upper half alone exactly if no page of it gets its tables. -/
theorem mapRange_true_upper (hf : FlagsOk flags) (hu : hasBit pteUser flags = true)
    (h : MapInv pml4 m) (hk : UserTaken m pml4)
    (hr : Machine.mapRange pml4 start flags n 0 m = (true, m')) :
    (∀ w, 256 ≤ pml4Idx w → m'.leafEntry pml4 w = m.leafEntry pml4 w)
      ↔ ∀ i < n, 256 ≤ pml4Idx (u64 (start + i * pageSize)) →
        m.pmm.freePages < m.framesFor pml4 (pagesFrom start 0 (i + 1)) := by
  obtain ⟨hok, heq⟩ := mapRange_eq pml4 start flags n 0 m
  rw [hr] at hok
  obtain ⟨q, hq, m₁, hmaps, hsame, huser, hshort⟩ :=
    mapEach_pages hf hu h ((heq hok.symm).symm.trans hr)
  simp only [hsame]
  constructor
  · intro hkept i hi hup
    refine (hshort i hi).mpr (Nat.le_of_not_lt fun hiq => ?_)
    obtain ⟨pa, hpa, hno, -⟩ := hmaps.mapped _ (mem_pagesFrom hiq)
    obtain ⟨e, he, rfl⟩ := Option.map_eq_some_iff.mp hpa
    exact hno (hk _ hup e ((hkept _ hup).symm.trans he) (huser _ (mem_pagesFrom hiq) e he))
  · intro hshort' w hw
    refine hmaps.frame w fun va hva hpath => ?_
    obtain ⟨i, hi, rfl⟩ := exists_of_mem_pagesFrom hva
    rw [← pml4Idx_of_leafPath hpath] at hw
    exact absurd hi ((hshort i (hi.trans_le hq)).mp (hshort' i (hi.trans_le hq) hw)).not_gt

/-- A loop that fails leaves the upper half alone exactly if no page of it that gets a frame had
been mapped. -/
theorem mapRange_false_upper (hf : FlagsOk flags) (hu : hasBit pteUser flags = true)
    (h : MapInv pml4 m) (hr : Machine.mapRange pml4 start flags n 0 m = (false, m')) :
    (∀ w, 256 ≤ pml4Idx w → m'.leafEntry pml4 w = m.leafEntry pml4 w)
      ↔ ∀ i < n, 256 ≤ pml4Idx (u64 (start + i * pageSize)) →
        m.framesFor pml4 (pagesFrom start 0 i) < m.pmm.freePages →
          m.leafEntry pml4 (u64 (start + i * pageSize)) = none := by
  obtain ⟨l, hl, m₁, he, h0, rfl⟩ := mapRange_false pml4 start flags n 0 hr
  obtain ⟨q, hq, m₂, hmaps, hsame, -, -⟩ := mapEach_pages hf hu h he
  have htree : TableTree { { m₁ with pmm := (m₁.pmm.pmmAllocPage).2 } with pmm := m₁.pmm } pml4 :=
    (mapEach_inv hf h he).tree
  have hclear := rollback_cleared htree start l
  have hgets : ∀ i, m.framesFor pml4 (pagesFrom start 0 i) < m.pmm.freePages ↔ i < l := by
    intro i
    constructor
    · intro hlt
      by_contra hil
      obtain ⟨d, rfl⟩ := Nat.exists_eq_add_of_le (Nat.le_of_not_lt hil)
      have htrue := (mapEach_frame_iff hf h (l + d)).mpr hlt
      rw [Nat.add_assoc, pagesFrom_append, mapEach_append pml4 flags _ he,
        pagesFrom_succ, Machine.mapEach, if_pos h0] at htrue
      cases htrue
    · intro hil
      obtain ⟨d, rfl⟩ := Nat.exists_eq_add_of_lt hil
      have hlt := (mapEach_frame_iff hf h (i + d)).mp (congrArg Prod.fst he)
      exact (framesFor_pages_le m pml4 start (Nat.le_add_right i d)).trans_lt hlt
  simp only [Nat.zero_add, hgets]
  constructor
  · intro hkept i _ hup hil
    exact (hkept _ hup).symm.trans (hclear.cleared _ (mem_pagesFrom hil))
  · intro hnone w hw
    by_cases hon : ∃ va ∈ pagesFrom start 0 l, leafPath va = leafPath w
    · obtain ⟨va, hva, hpath⟩ := hon
      obtain ⟨i, hi, rfl⟩ := exists_of_mem_pagesFrom hva
      rw [← pml4Idx_of_leafPath hpath] at hw
      rw [leafEntry_of_leafPath hpath.symm, leafEntry_of_leafPath hpath.symm,
        hclear.cleared _ hva, hnone i (hi.trans hl) hw hi]
    · push Not at hon
      rw [hclear.frame w hon, leafEntry_pmm, hsame]
      refine hmaps.frame w fun va hva => hon va ?_
      obtain ⟨i, hi, rfl⟩ := exists_of_mem_pagesFrom hva
      exact mem_pagesFrom (hi.trans_le hq)

theorem mapRange_upper_iff (hf : FlagsOk flags) (hu : hasBit pteUser flags = true)
    (h : MapInv pml4 m) (hk : UserTaken m pml4) {ok : Bool}
    (hr : Machine.mapRange pml4 start flags n 0 m = (ok, m')) :
    (∀ w, 256 ≤ pml4Idx w → m'.leafEntry pml4 w = m.leafEntry pml4 w)
      ↔ ∀ i < n, 256 ≤ pml4Idx (u64 (start + i * pageSize)) →
        if ok then m.pmm.freePages < m.framesFor pml4 (pagesFrom start 0 (i + 1))
        else m.framesFor pml4 (pagesFrom start 0 i) < m.pmm.freePages →
          m.leafEntry pml4 (u64 (start + i * pageSize)) = none := by
  cases ok with
  | true => simpa using mapRange_true_upper hf hu h hk hr
  | false => simpa using mapRange_false_upper hf hu h hr

end Upper

/-! ## The upper half of all -/

section Outside

variable {m m' : Machine} {pml4 start n : ℕ} {flags : BitVec 64} {ok : Bool}

/-- A frame in use that no table of the address space is on is not written. -/
theorem mapRange_outside (hf : FlagsOk flags) (h : MapInv pml4 m) {x : ℕ} (hx : m.pmm.Busy x)
    (hno : ∀ p, TablePath p → m.table pml4 p ≠ some x)
    (hr : Machine.mapRange pml4 start flags n 0 m = (ok, m')) (j : ℕ) :
    m'.phys x j = m.phys x j := by
  cases ok with
  | true =>
    obtain ⟨hok, heq⟩ := mapRange_eq pml4 start flags n 0 m
    rw [hr] at hok
    exact (mapEach_off_tables hf h hx hno ((heq hok.symm).symm.trans hr)).2 j
  | false =>
    obtain ⟨l, -, m₁, he, -, rfl⟩ := mapRange_false pml4 start flags n 0 hr
    obtain ⟨hno₁, hwords⟩ := mapEach_off_tables hf h hx hno he
    have htree : TableTree { { m₁ with pmm := (m₁.pmm.pmmAllocPage).2 } with pmm := m₁.pmm } pml4 :=
      (mapEach_inv hf h he).tree
    exact ((rollback_cleared htree start (0 + l)).words x j fun va =>
      hno₁ _ (tablePath_ok va)).trans (hwords j)

theorem mapRange_root (hf : FlagsOk flags) (h : MapInv pml4 m) {j : ℕ}
    (hpr : isPresent (m.phys pml4 j) = true)
    (hr : Machine.mapRange pml4 start flags n 0 m = (ok, m')) : m'.phys pml4 j = m.phys pml4 j := by
  cases ok with
  | true =>
    obtain ⟨hok, heq⟩ := mapRange_eq pml4 start flags n 0 m
    rw [hr] at hok
    exact mapEach_root hf h hpr ((heq hok.symm).symm.trans hr)
  | false =>
    obtain ⟨l, -, m₁, he, -, rfl⟩ := mapRange_false pml4 start flags n 0 hr
    have hinv := mapEach_inv hf h he
    have hword := mapEach_root hf h hpr he
    have htree : TableTree { { m₁ with pmm := (m₁.pmm.pmmAllocPage).2 } with pmm := m₁.pmm } pml4 :=
      hinv.tree
    exact ((rollback_cleared htree start (0 + l)).words pml4 j fun va =>
      hinv.root_apart (tablePath_ok va) (by simp [tablePath])).trans hword

end Outside

section Roots

variable {live : List ℕ} {k : Kernel} {mm root : ℕ}

/-- The other page tables are apart from an address space's. -/
theorem HalfInv.root_outside (h : HalfInv live k) (hmm : mm ∈ live)
    (hroot : root ∈ k.kernelPml4 :: live.map fun a => (k.mms a).pml4Pa)
    (hne : root ≠ (k.mms mm).pml4Pa) :
    k.pmm.Busy root ∧ ∀ p, TablePath p → k.table (k.mms mm).pml4Pa p ≠ some root := by
  obtain ⟨frames, hm⟩ := h.spaces.mem
  obtain ⟨u, hu, hnode⟩ : ∃ u, treePath (· = stackSlot) u []
      ∧ k.toMachine.node (treeRoot k.kernelPml4 frames (k.spaces live)) u [] = some root := by
    rcases List.mem_cons.mp hroot with rfl | hroot
    · exact ⟨.kernel, .inl ⟨by decide, nofun⟩, rfl⟩
    · obtain ⟨a, ha, rfl⟩ := List.mem_map.mp hroot
      refine ⟨.mm a, ⟨by decide, nofun, nofun⟩, ?_⟩
      have hspace : treeRoot k.kernelPml4 frames (k.spaces live) (.mm a) = some (k.mms a).pml4Pa :=
        if_pos ha
      exact Machine.node_eq_table hspace []
  refine ⟨hm.tables.busy u [] root hu hnode, fun p hp hn => ?_⟩
  obtain ⟨t, ht, -, hnt⟩ := h.space_table hmm frames hp hn
  obtain ⟨-, rfl⟩ := hm.tables.forest t p u [] root ht hu hnt hnode
  exact hne (Option.some.inj hn).symm

theorem HalfInv.root_word (h : HalfInv live k) (hmm : mm ∈ live)
    (hroot : root ∈ k.kernelPml4 :: live.map fun a => (k.mms a).pml4Pa) {j : ℕ} (h1 : 256 ≤ j)
    (h2 : j < 512) : k.phys root j = k.phys (k.mms mm).pml4Pa j := by
  rw [h.shares mm hmm j h1 h2]
  rcases List.mem_cons.mp hroot with rfl | hroot
  · rfl
  · obtain ⟨a, ha, rfl⟩ := List.mem_map.mp hroot
    exact h.shares a ha j h1 h2

/-- What one address space sees of the upper half the others see, and the kernel. -/
theorem upperKept_of_root (h : HalfInv live k) (hmm : mm ∈ live) {m' : Machine}
    (houtside : ∀ x, k.pmm.Busy x → (∀ p, TablePath p → k.table (k.mms mm).pml4Pa p ≠ some x) →
      ∀ j, m'.phys x j = k.phys x j)
    (hpresent : ∀ j, isPresent (k.phys (k.mms mm).pml4Pa j) = true →
      m'.phys (k.mms mm).pml4Pa j = k.phys (k.mms mm).pml4Pa j)
    (hkept : ∀ w, 256 ≤ pml4Idx w →
      m'.leafEntry (k.mms mm).pml4Pa w = k.leafEntry (k.mms mm).pml4Pa w)
    (hroot : root ∈ k.kernelPml4 :: live.map fun a => (k.mms a).pml4Pa) {va : ℕ}
    (hva : 256 ≤ pml4Idx va) : m'.leafEntry root va = k.leafEntry root va := by
  by_cases heq : root = (k.mms mm).pml4Pa
  · rw [heq]
    exact hkept va hva
  have hlt : pml4Idx va < 512 := by
    rw [pml4Idx_eq]
    omega
  obtain ⟨hbusy, hno⟩ := h.root_outside hmm hroot heq
  have hword := houtside root hbusy hno (pml4Idx va)
  have hsame := h.root_word hmm hroot hva hlt
  rcases hpr : isPresent (k.phys root (pml4Idx va)) with _ | _
  · rw [leafEntry_of_absent hpr, leafEntry_of_absent (hword ▸ hpr)]
  · have hword' := hpresent _ (hsame ▸ hpr)
    rw [leafEntry_of_entry hsame, leafEntry_of_entry (hword.trans (hsame.trans hword'.symm)),
      hkept va hva]

end Roots

/-! ## The calls -/

namespace KMem

/-- The page is not mapped, and not the one that the heap gains for an area. -/
def Unmapped (k : KMem) (pml4 va : ℕ) : Prop :=
  k.leafEntry pml4 va = none
    ∧ (k.heap.firstFit vmaStructSize = none → leafPath k.heap.kheapTop ≠ leafPath va)

/-- What a request does to the upper half: if there is memory for the area and a frame for each
page, no page of that half gets its tables too; if not, those that get a frame were unmapped. -/
def SparesUpper (k : KMem) (pml4 va size : ℕ) : Prop :=
  ∀ i < Kernel.pageCount (alignDown va pageSize) (alignUp (u64 (va + size)) pageSize),
    256 ≤ pml4Idx (u64 (alignDown va pageSize + i * pageSize)) →
      if k.Supplies pml4 [vmaStructSize] [] (rangePages va size) then
        ¬ k.Supplies pml4 [vmaStructSize] (pagesFrom (alignDown va pageSize) 0 (i + 1)) []
      else k.Supplies pml4 [vmaStructSize] [] (pagesFrom (alignDown va pageSize) 0 (i + 1)) →
        k.Unmapped pml4 (u64 (alignDown va pageSize + i * pageSize))

instance (k : KMem) (pml4 va : ℕ) : Decidable (k.Unmapped pml4 va) :=
  inferInstanceAs (Decidable (_ ∧ _))

instance (k : KMem) (pml4 va size : ℕ) : Decidable (k.SparesUpper pml4 va size) :=
  inferInstanceAs (Decidable (∀ i < _, _ → ite _ _ _))

end KMem

namespace Kernel

/-- The kernel when `mm_map_range` has its area, before the first page. -/
def allocVma (k : Kernel) (mm size : ℕ) : Kernel :=
  if mm = 0 ∨ size = 0 then k
  else
    match k.kmalloc vmaStructSize with
    | none => k
    | some (_, km) => { k with toKMem := km }

/-- The live address spaces share the kernel's upper half, in which what is mapped with `PTE_USER`
is on taken frames, and have its entries for all that the heap may still grow by. -/
structure UpperOk (live : List ℕ) (k : Kernel) : Prop where
  half : HalfInv live k
  zero : k.pmm.Busy 0
  room : k.heap.kheapTop + pageSize * k.pmm.freePages ≤ kernelHeapBase + 2 ^ 39
  taken : UserTaken k.toMachine k.kernelPml4

end Kernel

section Calls

variable {live : List ℕ} {k k' : Kernel} {mm va size : ℕ} {vmFlags : BitVec 64} {ok : Bool}

theorem pteFlagsOf_user (vmFlags : BitVec 64) : hasBit pteUser (pteFlagsOf vmFlags) = true := by
  unfold pteFlagsOf
  split_ifs <;> decide

theorem mapArea_mapRange {vma : ℕ} {v : VmaStruct} (h : k.mapArea mm vma v = (ok, k')) :
    Machine.mapRange (k.mms mm).pml4Pa v.vmStart (pteFlagsOf v.vmFlags)
      (Kernel.pageCount v.vmStart v.vmEnd) 0 k.toMachine = (ok, k'.toMachine) := by
  have hpml4 : ((k.linkVma mm vma v).mms mm).pml4Pa = (k.mms mm).pml4Pa := by
    rw [Kernel.linkVma_mms, if_pos rfl]
  have hmach : (k.linkVma mm vma v).toMachine = k.toMachine := rfl
  unfold Kernel.mapArea at h
  dsimp only at h
  rw [hpml4, hmach] at h
  split at h <;> rename_i m hm <;> obtain ⟨rfl, rfl⟩ := Prod.mk.inj h <;> exact hm

/-- The upper half is as before the call but for the pages that the heap gains. -/
theorem HalfInv.allocVma (h : HalfInv live k) {km : KMem} {vma : ℕ}
    (hkm : k.kmalloc vmaStructSize = some (vma, km)) :
    KernelHalfKept live (HeapPath k.heap.kheapTop km.heap.kheapTop) k { k with toKMem := km } := by
  obtain ⟨frames, hmem⟩ := h.spaces.clear.mem
  have hkept : MemKept (fun _ => False) (k.spaces live) (fun _ _ => False) k.toKMem
      ({ k with toKMem := km } : Kernel).toKMem :=
    kmallocLoop_kept hmem (heapClear_false _) hkm
  exact hkept.kernelHalfKept (fun _ _ hc => False.elim hc) fun a ha j h1 h2 _ =>
    h.shares a ha j h1 h2

/-- With the block for the area, the address spaces are in order, and what is mapped with
`PTE_USER` is on taken frames still. -/
theorem Kernel.UpperOk.kmalloc (h : k.UpperOk live) (hmm : mm ∈ live) {km : KMem} {vma : ℕ}
    (hspent : k.toKMem.Spent (k.mms mm).pml4Pa km [vmaStructSize] [])
    (hgrown : KMem.FoundOrGrown (k.mms mm).pml4Pa vmaStructSize k.toKMem km)
    (hkm : k.kmalloc vmaStructSize = some (vma, km)) :
    HalfInv live { k with toKMem := km }
      ∧ UserTaken km.toMachine (k.mms mm).pml4Pa
      ∧ ∀ w, km.leafEntry (k.mms mm).pml4Pa w = none ↔ k.toKMem.Unmapped (k.mms mm).pml4Pa w := by
  have hI := h.half.space_mapInv h.zero hmm
  have hbusy : ∀ x, k.pmm.Busy x → km.pmm.Busy x := by
    obtain ⟨n, -, -, hm⟩ := hspent.paid
    exact hm.busy
  have hold : ∀ w, 256 ≤ pml4Idx w → ∀ e, k.leafEntry (k.mms mm).pml4Pa w = some e →
      hasBit pteUser e = true → km.pmm.Busy (pteGetAddr e) := fun w hw e he hu =>
    hbusy _ (h.taken w hw e (((h.half.shares mm hmm).leafEntry hw).symm.trans he) hu)
  refine ⟨?_, ?_, ?_⟩
  · obtain ⟨n, -, htop, hm⟩ := hspent.paid
    have hfrm := hm.frames
    have htop' : km.heap.kheapTop ≤ kernelHeapBase + 2 ^ 39 := by
      have hroom := h.room
      have hlen : n ≤ k.pmm.freePages := by
        rw [Machine.framesFor, List.append_nil] at hfrm
        have hcount : (k.toKMem.heapPages n).length = n := by simp [KMem.heapPages, pagesFrom]
        omega
      have hmul := Nat.mul_le_mul_right pageSize hlen
      rw [Nat.mul_comm _ pageSize, Nat.mul_comm _ pageSize] at hmul
      rw [htop, Nat.mul_comm n]
      omega
    obtain ⟨frames, hmem⟩ := h.half.spaces.mem
    have hkept : MemKept (· = stackSlot) (k.spaces live) MayTouch k.toKMem km :=
      kmallocLoop_kept hmem (heapClear_stackSlot htop') hkm
    exact h.half.step (fun _ ha => ha) (h.half.spaces.setMem hkept) htop'
  · intro w hw e he hu
    rcases hgrown with ⟨-, hmach⟩ | ⟨-, h0, hlt, hmach⟩ <;> rw [hmach] at he
    · exact hold w hw e he hu
    · by_cases hpath : leafPath k.heap.kheapTop = leafPath w
      · rw [leafEntry_of_leafPath hpath.symm] at he
        rw [mapNext_entry hI kernelFlags_ok h0 hlt he] at hu
        exact absurd hu (by decide)
      · rw [mapNext_other hI kernelFlags_ok hpath] at he
        exact hold w hw e he hu
  · intro w
    rcases hgrown with ⟨hsome, hmach⟩ | ⟨hnone, h0, hlt, hmach⟩ <;> rw [hmach]
    · exact ⟨fun hw => ⟨hw, fun hc => absurd hc hsome⟩, fun hw => hw.1⟩
    · have hmaps := mapNext_enough hI kernelFlags_ok h0 hlt
      by_cases hpath : leafPath k.heap.kheapTop = leafPath w
      · refine iff_of_false (fun hc => ?_) fun hc => hc.2 hnone hpath
        obtain ⟨pa, hpa, -⟩ := hmaps.mapped _ (List.mem_singleton_self _)
        rw [Machine.frameAt, ← leafEntry_of_leafPath hpath.symm, hc] at hpa
        cases hpa
      · rw [mapNext_other hI kernelFlags_ok hpath]
        exact ⟨fun hw => ⟨hw, fun _ => hpath⟩, fun hw => hw.1⟩

theorem Kernel.UpperOk.spent (h : k.UpperOk live) (hmm : mm ∈ live) :
    k.toKMem.Spent (k.mms mm).pml4Pa k.toKMem [] [] := by
  obtain ⟨frames, hmem⟩ := h.half.spaces.mem
  exact .nil hmem.heapInv (h.half.space_mapInv h.zero hmm) (h.half.heapShared hmm h.room)

theorem Kernel.allocVma_eq {km : KMem} {vma : ℕ} (hmm : mm ≠ 0) (hs : 0 < size)
    (hkm : k.kmalloc vmaStructSize = some (vma, km)) :
    k.allocVma mm size = { k with toKMem := km } := by
  rw [Kernel.allocVma, if_neg (by omega), hkm]

/-- Whether the upper half is left alone can be read off one table. -/
theorem HalfInv.kept_iff (h : HalfInv live k) (hz : k.pmm.Busy 0) (hmm : mm ∈ live) {start n : ℕ}
    {flags : BitVec 64} (hf : FlagsOk flags)
    (hr : Machine.mapRange (k.mms mm).pml4Pa start flags n 0 k.toMachine = (ok, k'.toMachine)) :
    KernelHalfKept live (fun _ => False) k k' ↔ ∀ w, 256 ≤ pml4Idx w →
      k'.leafEntry (k.mms mm).pml4Pa w = k.leafEntry (k.mms mm).pml4Pa w := by
  have hI := h.space_mapInv hz hmm
  constructor
  · intro hkept w hw
    exact hkept _ (List.mem_cons_of_mem _ (List.mem_map_of_mem hmm)) w hw id
  · intro hkept root hroot va hva _
    exact upperKept_of_root h hmm (fun x hx hno => mapRange_outside hf hI hx hno hr)
      (fun j hj => mapRange_root hf hI hj hr) hkept hroot hva

/-- What the loop finds when the area has its block can be read off the state before. -/
theorem KMem.Spent.sparesUpper_iff {k km : KMem} {pml4 : ℕ}
    (h : k.Spent pml4 km [vmaStructSize] [])
    (hok : ok = true ↔ k.Supplies pml4 [vmaStructSize] [] (rangePages va size))
    (hunmapped : ∀ w, km.leafEntry pml4 w = none ↔ k.Unmapped pml4 w) :
    k.SparesUpper pml4 va size
      ↔ ∀ i < Kernel.pageCount (alignDown va pageSize) (alignUp (u64 (va + size)) pageSize),
        256 ≤ pml4Idx (u64 (alignDown va pageSize + i * pageSize)) →
        if ok then
          km.pmm.freePages < km.framesFor pml4 (pagesFrom (alignDown va pageSize) 0 (i + 1))
        else km.framesFor pml4 (pagesFrom (alignDown va pageSize) 0 i) < km.pmm.freePages →
          km.leafEntry pml4 (u64 (alignDown va pageSize + i * pageSize)) = none := by
  have htables : ∀ i,
      ¬ k.Supplies pml4 [vmaStructSize] (pagesFrom (alignDown va pageSize) 0 (i + 1)) []
        ↔ km.pmm.freePages < km.framesFor pml4 (pagesFrom (alignDown va pageSize) 0 (i + 1)) := by
    intro i
    rw [← List.nil_append (pagesFrom (alignDown va pageSize) 0 (i + 1)), h.supplies_all,
      List.nil_append, not_le]
  have hframe : ∀ i,
      k.Supplies pml4 [vmaStructSize] [] (pagesFrom (alignDown va pageSize) 0 (i + 1))
        ↔ km.framesFor pml4 (pagesFrom (alignDown va pageSize) 0 i) < km.pmm.freePages := by
    intro i
    rw [h.supplies_iff, pagesFrom_concat, List.dropLast_concat, List.length_append,
      List.length_singleton, Machine.framesFor]
    omega
  unfold KMem.SparesUpper
  simp only [htables, hframe, ← hunmapped, ← hok]

/-- A call for a live address space leaves the upper half of all page tables alone exactly if no
bytes are asked for or the request spares that half. The block for the area may be on a page that
the heap gains for it, and no other page of that half changes then. -/
theorem user_mappings_spare_kernel_half (h : k.UpperOk live) (hmm : mm ∈ live)
    (hr : k.mmMapRange mm va size vmFlags = some (ok, k')) :
    (KernelHalfKept live (fun _ => False) (k.allocVma mm size) k'
        ↔ size = 0 ∨ k.SparesUpper (k.mms mm).pml4Pa va size)
      ∧ KernelHalfKept live (HeapPath k.heap.kheapTop (k.allocVma mm size).heap.kheapTop) k
        (k.allocVma mm size)
      ∧ (k.heap.firstFit vmaStructSize ≠ none →
        (KernelHalfKept live (fun _ => False) k k'
          ↔ size = 0 ∨ k.SparesUpper (k.mms mm).pml4Pa va size)) := by
  have hm0 := h.half.spaces.nonzero mm hmm
  have hsp := h.spent hmm
  rcases mmMapRange_cases hr with ⟨-, h0, rfl⟩ | ⟨-, hs, vma, km, hkm, hcase⟩
  -- No bytes are asked for.
  · have hsame : k'.allocVma mm size = k' := if_pos h0
    have hs0 := h0.resolve_left hm0
    rw [hsame]
    have hkept : ∀ X, KernelHalfKept live X k' k' := fun X _ _ _ _ _ => rfl
    exact ⟨iff_of_true (hkept _) (.inl hs0), hkept _, fun _ => iff_of_true (hkept _) (.inl hs0)⟩
  rw [Kernel.allocVma_eq hm0 hs hkm]
  have hmain : KernelHalfKept live (fun _ => False) { k with toKMem := km } k'
      ↔ size = 0 ∨ k.SparesUpper (k.mms mm).pml4Pa va size := by
    rw [or_iff_right hs.ne']
    rcases hsp.kmalloc_cases (by decide) (by decide) hkm with ⟨hv, hspent, hgrown⟩ | ⟨rfl, hno⟩
    · have hmap := (hcase.resolve_left fun hc => hv hc.2.1).2
      obtain ⟨hhalf, huser, hunmapped⟩ := h.kmalloc hmm hspent hgrown hkm
      have hloop := mapArea_mapRange hmap
      obtain ⟨hok, -, -⟩ := hsp.mmMapRange hm0 rfl hs.ne' hr
      have hzero : km.pmm.Busy 0 := hspent.mapInv.zero
      rw [hspent.sparesUpper_iff hok hunmapped, hhalf.kept_iff hzero hmm (pteFlagsOf_ok _) hloop]
      exact mapRange_upper_iff (pteFlagsOf_ok _) (pteFlagsOf_user _) hspent.mapInv huser hloop
    -- There is no memory for the area.
    · obtain ⟨-, -, rfl⟩ := hcase.resolve_right fun hc => hc.1 rfl
      refine iff_of_true (fun _ _ _ _ _ => rfl) fun i hi _ => ?_
      have hnone : ∀ vas ws, ¬ k.Supplies (k.mms mm).pml4Pa [vmaStructSize] vas ws :=
        fun vas ws hc => hno (hc.fewer (by simp) (by simp))
      rw [if_neg (hnone _ _)]
      exact fun hc => absurd hc (hnone _ _)
  refine ⟨hmain, h.half.allocVma hkm, fun hfit => ?_⟩
  have hmach : km.toMachine = k.toMachine ∧ km.kernelPml4 = k.kernelPml4 := by
    obtain ⟨t, ht⟩ := Option.ne_none_iff_exists'.mp hfit
    obtain ⟨-, rfl⟩ := Prod.mk.inj (Option.some.inj
      (hkm.symm.trans (KMem.kmalloc_found (by decide) (by decide) hsp.heapInv ht)))
    exact ⟨rfl, rfl⟩
  rw [← hmain]
  unfold KernelHalfKept
  dsimp only
  rw [hmach.1, hmach.2]

/-- Eleven frames of sixteen are taken: by the PML4s, by the tables for the heap and the stacks,
which both have, and by the heap's page. -/
def halfKernel : Kernel :=
  { oneMmKernel (framesLeft 11) with
    phys := fun p i => if p = 0x1000 ∨ p = 0x2000 then
      if i = heapSlot then 0x3003#64 else if i = stackSlot then 0x4003#64 else 0#64
      else 0#64 }

theorem halfKernel_table {root : ℕ} (hr : root = 0x1000 ∨ root = 0x2000) {p : List ℕ} {n : ℕ}
    (h : halfKernel.table root p = some n) :
    (p, n) ∈ [([], root), ([heapSlot], 0x3000), ([stackSlot], 0x4000)] := by
  have hempty : ∀ a, a ≠ 0x1000 → a ≠ 0x2000 → ∀ j, halfKernel.phys a j = 0#64 := fun a h1 h2 j =>
    if_neg (by omega)
  have hentry : ∀ j, halfKernel.phys root j
      = if j = heapSlot then 0x3003#64 else if j = stackSlot then 0x4003#64 else 0#64 := fun j =>
    if_pos hr
  rcases p with _ | ⟨j, p⟩
  · obtain rfl := Option.some.inj h
    exact List.mem_cons_self
  rw [Machine.table, Radix.walk] at h
  obtain ⟨a, ha, h⟩ := Option.bind_eq_some_iff.mp h
  obtain ⟨rfl, rfl⟩ | ⟨rfl, rfl⟩ : (j = heapSlot ∧ a = 0x3000) ∨ (j = stackSlot ∧ a = 0x4000) := by
    rw [tableChild, hentry] at ha
    split_ifs at ha with h1 h2 h3 h4 h5
    · exact .inl ⟨h1, by rw [← Option.some.inj ha]; decide⟩
    · exact .inr ⟨h3, by rw [← Option.some.inj ha]; decide⟩
    · exact absurd h5 (by decide)
  all_goals
    rcases p with _ | ⟨l, p⟩
    · obtain rfl := Option.some.inj h
      simp
    · rw [Radix.walk, tableChild_zero (hempty _ (by decide) (by decide) l)] at h
      cases h

/-- The tables and pages of the kernel, of its heap and of the address space. -/
def halfNodes : List (Tree × List ℕ × ℕ) :=
  [(.kernel, [], 0x1000), (.kernel, [heapSlot], 0x3000), (.kernel, [stackSlot], 0x4000),
    (.heapPage 0, [], 0x5000), (.mm onlyMm, [], 0x2000)]

theorem halfKernel_node {t : Tree} {p : List ℕ} {n : ℕ}
    (ht : treePath (· = stackSlot) t p)
    (h : halfKernel.node (treeRoot halfKernel.kernelPml4 [0x5000] (halfKernel.spaces [onlyMm])) t p
      = some n) : (t, p, n) ∈ halfNodes := by
  obtain ⟨root, hroot, hwalk⟩ := Option.bind_eq_some_iff.mp h
  cases t with
  | kernel =>
    obtain rfl := Option.some.inj hroot
    simpa [halfNodes] using halfKernel_table (.inl rfl) hwalk
  | heapPage j =>
    obtain rfl : p = [] := ht
    obtain rfl := Option.some.inj hwalk
    rcases j with _ | j
    · obtain rfl := Option.some.inj hroot
      simp [halfNodes]
    · cases hroot
  | mm a =>
    rw [treeRoot, Kernel.spaces] at hroot
    split_ifs at hroot with ha
    obtain rfl := List.mem_singleton.mp ha
    obtain rfl := Option.some.inj hroot
    have hmem := halfKernel_table (.inr rfl) hwalk
    simp only [List.mem_cons, Prod.mk.injEq, List.not_mem_nil, or_false] at hmem
    rcases hmem with ⟨rfl, rfl⟩ | ⟨rfl, -⟩ | ⟨rfl, -⟩
    · simp [halfNodes]
    · exact absurd (ht.2.2 _ rfl) (by decide)
    · exact absurd (ht.2.2 _ rfl) (by decide)

theorem halfKernel_upperOk : halfKernel.UpperOk [onlyMm] := by
  have hroom : kernelHeapBase + pageSize * 16 < 2 ^ 64 := by decide
  have hinj : ∀ x ∈ halfNodes, ∀ y ∈ halfNodes, x.2.2 = y.2.2 → x = y := by decide
  have hbusy : ∀ x ∈ halfNodes, halfKernel.pmm.Busy x.2.2 := by decide
  have htables : TablesOk (treeRoot halfKernel.kernelPml4 [0x5000] (halfKernel.spaces [onlyMm]))
      (treePath (· = stackSlot)) halfKernel.toMachine := by
    refine ⟨⟨framesLeft_inv (by decide), by decide, fun t p u q n ht hu h1 h2 => ?_,
      fun t p n ht h1 => hbusy _ (halfKernel_node ht h1)⟩, fun t p n j _ _ habs => ?_⟩
    · have heq := hinj _ (halfKernel_node ht h1) _ (halfKernel_node hu h2) rfl
      exact ⟨congrArg Prod.fst heq, congrArg (·.2.1) heq⟩
    · unfold halfKernel at habs ⊢
      dsimp only at habs ⊢
      split_ifs at habs ⊢
      · exact absurd habs (by decide)
      · exact absurd habs (by decide)
      · rfl
      · rfl
  have hshares : halfKernel.SharesHalf onlyMm := fun j _ _ => rfl
  refine ⟨⟨⟨⟨[0x5000], htables, ⟨rfl, rfl, rfl⟩, rfl, hroom⟩, by simp, by decide, ?_⟩, by decide,
    by decide, ?_⟩, by decide, by decide, fun va hva e he _ => ?_⟩
  · simp [halfKernel, oneMmKernel]
  · simpa using hshares
  · obtain ⟨pt, hpt, -⟩ := leafEntry_eq_some he
    simpa [tablePath] using halfKernel_table (.inl rfl) hpt

/-- The second page is the first of the upper half: it gets a frame, and none is left for its
tables. -/
theorem user_mappings_spare_kernel_half_halfKernel :
    ∃ k', halfKernel.mmMapRange onlyMm 0x7FFFFFFFF000 0x2000 vmWrite = some (true, k')
      ∧ KernelHalfKept [onlyMm] (fun _ => False) halfKernel k' := by
  obtain ⟨⟨ok, k'⟩, hr, rfl⟩ := Option.map_eq_some_iff.mp
    (show (halfKernel.mmMapRange onlyMm 0x7FFFFFFFF000 0x2000 vmWrite).map Prod.fst = some true by
      decide +kernel)
  refine ⟨k', hr, ((user_mappings_spare_kernel_half halfKernel_upperOk List.mem_cons_self hr).2.2
    (by decide)).mpr (.inr (by decide +kernel))⟩

end Calls

end SudoOS
