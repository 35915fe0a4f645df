import SudoOS.Kstack
import SudoOS.Proofs.HeapGrowth
import SudoOS.Proofs.Mapping
import SudoOS.Proofs.Vmm

/-!
# What a mapping's success means

`mm_map_range`, `kheap_expand` and `kstack_init` share one loop over pages (`Machine.mapEach`).
They learn of a failure to allocate a page, not of a failure to allocate its tables, which leaves
none for the next page. So success means that all is mapped unless the frames run out at the very
last page (`mapping_success`); `kheap_expand`, which writes to each page it maps, faults there
instead.
-/

namespace SudoOS

/-- The addresses of `n` pages, page `i` of the range first. -/
def pagesFrom (start i n : ℕ) : List ℕ :=
  (List.range' i n).map fun j => u64 (start + j * pageSize)

theorem pagesFrom_succ (start i n : ℕ) :
    pagesFrom start i (n + 1) = u64 (start + i * pageSize) :: pagesFrom start (i + 1) n := rfl

theorem pagesFrom_concat (start i n : ℕ) :
    pagesFrom start i (n + 1) = pagesFrom start i n ++ [u64 (start + (i + n) * pageSize)] := by
  rw [pagesFrom, pagesFrom, List.range'_concat, List.map_append, List.map_singleton, Nat.one_mul]

/-! ## Pages and paths -/

theorem u64_page (start i : ℕ) :
    u64 (u64 (start + i * pageSize) + pageSize) = u64 (start + (i + 1) * pageSize) := by
  rw [u64, u64, u64, Nat.mod_add_mod, Nat.add_mul, Nat.one_mul, Nat.add_assoc]

/-- Only 36 bits of a page's number count. -/
theorem leafPath_eq_iff {x y : ℕ} :
    leafPath x = leafPath y ↔ x / 4096 % 2 ^ 36 = y / 4096 % 2 ^ 36 := by
  have hdigits : leafPath x = leafPath y ↔ (pml4Idx x = pml4Idx y ∧ pdptIdx x = pdptIdx y
      ∧ pdIdx x = pdIdx y ∧ ptIdx x = ptIdx y) := by
    simp [leafPath, tablePath]
  rw [hdigits]
  simp only [pml4Idx_eq, pdptIdx_eq, pdIdx_eq, ptIdx_eq]
  omega

theorem leafPath_page {start i j : ℕ} :
    leafPath (u64 (start + i * pageSize)) = leafPath (u64 (start + j * pageSize))
      ↔ i % 2 ^ 36 = j % 2 ^ 36 := by
  rw [leafPath_eq_iff]
  unfold u64 pageSize
  omega

/-! ## The loops -/

section Loops

variable {pml4 start n : ℕ} {flags : BitVec 64}

/-- The rollback apart, `mm_map_range` runs the common loop. -/
theorem mapRange_eq (pml4 start : ℕ) (flags : BitVec 64) : ∀ (n i : ℕ) (m : Machine),
    (Machine.mapRange pml4 start flags n i m).1
        = (Machine.mapEach pml4 flags (pagesFrom start i n) m).1
      ∧ ((Machine.mapEach pml4 flags (pagesFrom start i n) m).1 = true →
        Machine.mapRange pml4 start flags n i m
          = Machine.mapEach pml4 flags (pagesFrom start i n) m)
  | 0, _, _ => ⟨rfl, fun _ => rfl⟩
  | n + 1, i, m => by
    rw [pagesFrom_succ, Machine.mapRange, Machine.mapEach]
    split_ifs with h0
    · exact ⟨rfl, fun h => by cases h⟩
    · exact mapRange_eq pml4 start flags n (i + 1) _

theorem mapNext_freePages (m : Machine) (pml4 va : ℕ) (flags : BitVec 64)
    (h0 : (m.pmm.pmmAllocPage).1 ≠ 0) :
    (m.mapNext pml4 va flags).pmm.freePages < m.pmm.freePages :=
  (vmmMapPage_freePages _ pml4 va _ flags).trans_lt ((Pmm.pmmAllocPage_freePages m.pmm).2 h0)

/-- The loop of `kstack_init` is the common one over the pages below `top`, if it comes to an end
there or else needs more pages than are free. -/
theorem kstackMap_eq {pml4 top start n i fuel : ℕ} {m : Machine} (hfuel : m.pmm.freePages < fuel)
    (hbelow : ∀ j, i ≤ j → j < i + n → u64 (start + j * pageSize) < top)
    (hend : top ≤ u64 (start + (i + n) * pageSize) ∨ m.pmm.freePages < n) :
    Machine.kstackMap pml4 top fuel (u64 (start + i * pageSize)) m
      = Machine.mapEach pml4 kernelFlags (pagesFrom start i n) m := by
  induction n generalizing i fuel m with
  | zero =>
    obtain ⟨fuel, rfl⟩ := Nat.exists_eq_succ_of_ne_zero (Nat.ne_zero_of_lt hfuel)
    have htop : top ≤ u64 (start + i * pageSize) := hend.resolve_right (Nat.not_lt_zero _)
    rw [Machine.kstackMap, if_neg (Nat.not_lt.mpr htop)]
    rfl
  | succ n ih =>
    obtain ⟨fuel, rfl⟩ := Nat.exists_eq_succ_of_ne_zero (Nat.ne_zero_of_lt hfuel)
    rw [pagesFrom_succ, Machine.kstackMap, Machine.mapEach, if_pos (hbelow i le_rfl (by omega))]
    dsimp only
    split_ifs with h0
    · rfl
    · have hless := mapNext_freePages m pml4 (u64 (start + i * pageSize)) kernelFlags h0
      rw [u64_page]
      refine ih (hless.trans_le (Nat.le_of_lt_succ hfuel)) (fun j hi hj => hbelow j (by omega)
        (by omega)) (hend.imp (fun htop => ?_) fun hc => hless.trans_le (Nat.le_of_lt_succ hc))
      rwa [Nat.add_assoc, Nat.add_comm 1 n]

/-- With more pages to map than are free the common loop ends with a failure. -/
theorem mapEach_of_length : ∀ {vas : List ℕ} {m : Machine}, m.pmm.freePages < vas.length →
    (Machine.mapEach pml4 flags vas m).1 = false
  | [], _, h => absurd h (Nat.not_lt_zero _)
  | va :: vas, m, h => by
    rw [Machine.mapEach]
    split_ifs with h0
    · rfl
    · exact mapEach_of_length
        ((mapNext_freePages m pml4 va flags h0).trans_le (Nat.le_of_lt_succ h))

theorem grown_kheapTop (k : KMem) : k.grown.heap.kheapTop = u64 (k.heap.kheapTop + pageSize) := rfl

/-- An expansion that succeeds has run the common loop and found its last page mapped. -/
theorem kheapExpand_true (start : ℕ) : ∀ {n i : ℕ} {k k' : KMem},
    k.heap.kheapTop = u64 (start + i * pageSize) → k.kheapExpand n = some (true, k') →
    Machine.mapEach k.kernelPml4 kernelFlags (pagesFrom start i n) k.toMachine
        = (true, k'.toMachine)
      ∧ (n ≠ 0 → k'.frameAt k.kernelPml4 (u64 (start + (i + (n - 1)) * pageSize)) ≠ none)
  | 0, i, k, k', _, h => by
    simp only [KMem.kheapExpand, Option.some.injEq, Prod.mk.injEq, true_and] at h
    exact ⟨by rw [← h]; rfl, fun hc => absurd rfl hc⟩
  | n + 1, i, k, k', htop, h => by
    rcases KMem.kheapExpand_cases h with ⟨hok, -⟩ | ⟨h0, hleaf, h'⟩
    · cases hok
    · have htop' : k.grown.heap.kheapTop = u64 (start + (i + 1) * pageSize) := by
        rw [grown_kheapTop, htop, u64_page]
      obtain ⟨hloop, hlast⟩ := kheapExpand_true start htop' h'
      refine ⟨?_, fun _ => ?_⟩
      · rw [pagesFrom_succ, Machine.mapEach, if_neg h0, ← htop]
        exact hloop
      · rcases n with _ | n
        · simp only [KMem.kheapExpand, Option.some.injEq, Prod.mk.injEq, true_and] at h'
          rw [htop] at hleaf
          rw [← h', Machine.frameAt, Ne, Option.map_eq_none_iff]
          simpa using hleaf
        · have hidx : i + (n + 1 + 1 - 1) = i + 1 + (n + 1 - 1) := by omega
          rw [hidx]
          exact hlast (Nat.succ_ne_zero n)

/-- With frames for all an expansion succeeds. -/
theorem kheapExpand_enough (start : ℕ) : ∀ {n i : ℕ} {k : KMem},
    k.heap.kheapTop = u64 (start + i * pageSize) → MapInv k.kernelPml4 k.toMachine →
    k.framesFor k.kernelPml4 (pagesFrom start i n) ≤ k.pmm.freePages →
    ∃ k', k.kheapExpand n = some (true, k')
  | 0, _, k, _, _, _ => ⟨k, rfl⟩
  | n + 1, i, k, htop, h, hle => by
    rw [pagesFrom_succ, ← htop] at hle
    obtain ⟨h0, hone, hle'⟩ := mapNext_of_framesFor h kernelFlags_ok hle
    obtain ⟨pa, hpa, -, -⟩ := hone.mapped _ (List.mem_singleton_self _)
    have htop' : k.grown.heap.kheapTop = u64 (start + (i + 1) * pageSize) := by
      rw [grown_kheapTop, htop, u64_page]
    obtain ⟨k', hk'⟩ := kheapExpand_enough start htop' hone.inv hle'
    obtain ⟨e, hent, -⟩ := Option.map_eq_some_iff.mp hpa
    have hleaf : k.grown.leafEntry k.kernelPml4 k.heap.kheapTop = some e := hent
    exact ⟨k', by rw [KMem.kheapExpand_succ, if_neg h0, hleaf]; exact hk'⟩

end Loops

/-! ## Success -/

/-- The pages of a range are mapped, each to a frame of its own that was not taken in `m`. -/
structure MapsRange (m m' : Machine) (pml4 start n : ℕ) : Prop where
  bound : ∀ i < n, ∃ pa, m'.frameAt pml4 (start + i * pageSize) = some pa
    ∧ ¬ m.pmm.Busy pa ∧ m'.pmm.Busy pa
  distinct : ∀ i < n, ∀ j < n, m'.frameAt pml4 (start + i * pageSize)
    = m'.frameAt pml4 (start + j * pageSize) → i = j

/-- There are frames for the range and its tables, and its pages differ in their indices. -/
def Machine.Fits (m : Machine) (pml4 start n : ℕ) : Prop :=
  m.framesFor pml4 (pagesFrom start 0 n) ≤ m.pmm.freePages ∧ n ≤ 2 ^ 36

/-- The frames run out before the last page. -/
def Machine.Short (m : Machine) (pml4 start n : ℕ) : Prop :=
  m.pmm.freePages ≤ m.framesFor pml4 (pagesFrom start 0 (n - 1))

section Success

variable {m m' : Machine} {pml4 start n : ℕ} {flags : BitVec 64}

theorem mem_pagesFrom {i : ℕ} (hi : i < n) : u64 (start + i * pageSize) ∈ pagesFrom start 0 n :=
  List.mem_map.mpr ⟨i, List.mem_range'_1.mpr ⟨Nat.zero_le _, by omega⟩, rfl⟩

theorem exists_of_mem_pagesFrom {va : ℕ} (h : va ∈ pagesFrom start 0 n) :
    ∃ i < n, u64 (start + i * pageSize) = va := by
  obtain ⟨i, hi, rfl⟩ := List.mem_map.mp h
  exact ⟨i, by simpa using hi, rfl⟩

theorem MapsEach.mapsRange (h : MapsEach m m' pml4 (pagesFrom start 0 n))
    (hend : ∀ i < n, start + i * pageSize < 2 ^ 64) (hn : n ≤ 2 ^ 36) :
    MapsRange m m' pml4 start n where
  bound i hi := u64_of_lt (hend i hi) ▸ h.mapped _ (mem_pagesFrom hi)
  distinct i hi j hj heq := by
    rw [← u64_of_lt (hend i hi), ← u64_of_lt (hend j hj)] at heq
    have hpath := h.distinct _ (mem_pagesFrom hi) _ (mem_pagesFrom hj) heq
    rw [leafPath_page, Nat.mod_eq_of_lt (by omega), Nat.mod_eq_of_lt (by omega)] at hpath
    exact hpath

theorem MapsRange.take (h : MapsRange m m' pml4 start (n + 1)) : MapsRange m m' pml4 start n where
  bound i hi := h.bound i (Nat.lt_succ_of_lt hi)
  distinct i hi j hj := h.distinct i (Nat.lt_succ_of_lt hi) j (Nat.lt_succ_of_lt hj)

/-- In a longer range two pages have the same indices. -/
theorem MapsRange.le (h : MapsRange m m' pml4 start n)
    (hend : ∀ i < n, start + i * pageSize < 2 ^ 64) : n ≤ 2 ^ 36 := by
  by_contra hn
  have hpath : leafPath (u64 (start + 0 * pageSize)) = leafPath (u64 (start + 2 ^ 36 * pageSize)) :=
    leafPath_page.mpr rfl
  rw [u64_of_lt (hend 0 (by omega)), u64_of_lt (hend _ (by omega))] at hpath
  exact absurd (h.distinct 0 (by omega) (2 ^ 36) (by omega) (frameAt_congr hpath)) (by omega)

theorem framesFor_concat (m : Machine) (pml4 : ℕ) (vas : List ℕ) (va : ℕ) :
    m.framesFor pml4 vas < m.framesFor pml4 (vas ++ [va]) := by
  have hsub : m.missingFor pml4 vas ⊆ m.missingFor pml4 (vas ++ [va]) := by
    rw [missingFor_append]
    exact Finset.subset_union_left
  have hcard := Finset.card_le_card hsub
  rw [Machine.framesFor, Machine.framesFor, List.length_append, List.length_singleton]
  omega

theorem mapEach_of_short (h : MapInv pml4 m) (hf : FlagsOk flags) (hn : n ≠ 0)
    (hs : m.Short pml4 start n) :
    (Machine.mapEach pml4 flags (pagesFrom start 0 n) m).1 = false := by
  obtain ⟨n, rfl⟩ := Nat.exists_eq_succ_of_ne_zero hn
  rw [Nat.succ_eq_add_one, pagesFrom_concat]
  exact mapEach_short hf _ h hs

/-- What the common loop may do when the frames do not suffice. -/
theorem mapEach_of_not_enough (h : MapInv pml4 m) (hf : FlagsOk flags)
    (hlt : m.pmm.freePages < m.framesFor pml4 (pagesFrom start 0 n)) :
    (m.Short pml4 start n ∧ (Machine.mapEach pml4 flags (pagesFrom start 0 n) m).1 = false)
      ∨ (¬ m.Short pml4 start n ∧ n ≠ 0 ∧ ∃ m',
        Machine.mapEach pml4 flags (pagesFrom start 0 n) m = (true, m')
          ∧ m'.frameAt pml4 (u64 (start + (n - 1) * pageSize)) = none) := by
  rcases n with _ | n
  · simp [pagesFrom, Machine.framesFor, Machine.missingFor] at hlt
  · rcases le_or_gt m.pmm.freePages (m.framesFor pml4 (pagesFrom start 0 n)) with hle | hgt
    · exact .inl ⟨hle, mapEach_of_short h hf (Nat.succ_ne_zero n) hle⟩
    · have hsplit := pagesFrom_concat start 0 n
      rw [Nat.zero_add] at hsplit
      rw [Machine.Short, Nat.add_sub_cancel]
      rw [hsplit] at hlt ⊢
      obtain ⟨m₁, -, -, -, he, hnone⟩ := mapEach_last hf h hgt hlt
      refine .inr ⟨by omega, Nat.succ_ne_zero n, _, he, ?_⟩
      rw [Machine.frameAt, leafEntry_of_none hnone, Option.map_none]

/-- The common loop tells the truth about a range exactly if there are frames for all of it, or not
even for a start on its last page. -/
theorem mapEach_mapsRange_iff (h : MapInv pml4 m) (hf : FlagsOk flags)
    (hend : ∀ i < n, start + i * pageSize < 2 ^ 64) :
    (∀ m', Machine.mapEach pml4 flags (pagesFrom start 0 n) m = (true, m') →
        MapsRange m m' pml4 start n)
      ↔ m.Short pml4 start n ∨ m.Fits pml4 start n := by
  rcases le_or_gt (m.framesFor pml4 (pagesFrom start 0 n)) m.pmm.freePages with hle | hlt
  · obtain ⟨m', he, hmaps⟩ := mapEach_enough hf h hle
    constructor
    · intro hall
      exact .inr ⟨hle, (hall m' he).le hend⟩
    · intro hcond m'' he'
      obtain rfl := congrArg Prod.snd (he.symm.trans he')
      refine hmaps.mapsRange hend ?_
      rcases hcond with hs | ⟨-, hn⟩
      · rcases n with _ | n
        · exact Nat.zero_le _
        · have hsplit := pagesFrom_concat start 0 n
          have hgrow := framesFor_concat m pml4 (pagesFrom start 0 n)
            (u64 (start + (0 + n) * pageSize))
          rw [hsplit] at hle
          rw [Machine.Short, Nat.add_sub_cancel] at hs
          omega
      · exact hn
  · rcases mapEach_of_not_enough h hf hlt with ⟨hs, hfalse⟩ | ⟨hs, hn, m', he, hnone⟩
    · refine ⟨fun _ => .inl hs, fun _ m' he => ?_⟩
      rw [he] at hfalse
      cases hfalse
    · refine ⟨fun hall => ?_, fun hcond => ?_⟩
      · obtain ⟨pa, hpa, -⟩ := (hall m' he).bound (n - 1) (by omega)
        rw [u64_of_lt (hend _ (by omega)), hpa] at hnone
        cases hnone
      · rcases hcond with hc | ⟨hle, -⟩
        · exact absurd hc hs
        · omega

/-- An expansion of the kernel heap ends in a page fault where the others would claim success. -/
theorem kheapExpand_mapsRange_iff {k : KMem} (h : MapInv k.kernelPml4 k.toMachine)
    (hend : ∀ i < n, k.heap.kheapTop + i * pageSize < 2 ^ 64) (htop : k.heap.kheapTop < 2 ^ 64) :
    (∀ k', k.kheapExpand n = some (true, k') →
        MapsRange k.toMachine k'.toMachine k.kernelPml4 k.heap.kheapTop n)
      ↔ k.pmm.freePages < k.framesFor k.kernelPml4 (pagesFrom k.heap.kheapTop 0 n)
        ∨ n ≤ 2 ^ 36 := by
  have hstart : k.heap.kheapTop = u64 (k.heap.kheapTop + 0 * pageSize) := by
    rw [Nat.zero_mul, Nat.add_zero, u64_of_lt htop]
  rcases le_or_gt (k.framesFor k.kernelPml4 (pagesFrom k.heap.kheapTop 0 n)) k.pmm.freePages
    with hle | hlt
  · obtain ⟨m', he, hmaps⟩ := mapEach_enough kernelFlags_ok h hle
    constructor
    · intro hall
      obtain ⟨k', hk'⟩ := kheapExpand_enough k.heap.kheapTop hstart h hle
      exact .inr ((hall k' hk').le hend)
    · intro hcond k' hk'
      obtain ⟨he', -⟩ := kheapExpand_true k.heap.kheapTop hstart hk'
      obtain rfl := congrArg Prod.snd (he.symm.trans he')
      exact hmaps.mapsRange hend (hcond.resolve_left (by omega))
  · refine ⟨fun _ => .inl hlt, fun _ k' hk' => ?_⟩
    obtain ⟨he', hlast⟩ := kheapExpand_true k.heap.kheapTop hstart hk'
    rcases mapEach_of_not_enough h kernelFlags_ok hlt with ⟨-, hfalse⟩ | ⟨-, hn, m', he, hnone⟩
    · rw [he'] at hfalse
      cases hfalse
    · obtain rfl := congrArg Prod.snd (he.symm.trans he')
      rw [Nat.zero_add] at hlast
      exact absurd hnone (hlast hn)

end Success

/-! ## The callers -/

/-- The pages that a range meets. -/
def pageSpan (va size : ℕ) : ℕ := (va + size + 4095) / 4096 - va / 4096

theorem requestArea_of_lt {mm va size : ℕ} {vmFlags : BitVec 64}
    (hend : va + size + 4095 < 2 ^ 64) :
    (requestArea mm va size vmFlags).vmStart = va / 4096 * 4096
      ∧ Kernel.pageCount (va / 4096 * 4096) (requestArea mm va size vmFlags).vmEnd
        = pageSpan va size := by
  have h1 : (requestArea mm va size vmFlags).vmStart = va / 4096 * 4096 :=
    alignDown_eq (by omega)
  have h2 : (requestArea mm va size vmFlags).vmEnd = (va + size + 4095) / 4096 * 4096 := by
    simp only [requestArea]
    rw [u64_of_lt (by omega), alignUp_eq, u64_of_lt hend]
  refine ⟨h1, ?_⟩
  rw [Kernel.pageCount, h2, u64Sub_of_le (by omega), pageSize, pageSpan]
  omega

/-- The end of a range, rounded up to a whole page without wrapping. -/
def roundedEnd (va size : ℕ) : ℕ := (va + size + 4095) / 4096 * 4096

/-- The rounded range ends within the address space, or with it, without beginning with it. -/
def EndOk (va size : ℕ) : Prop :=
  roundedEnd va size < 2 ^ 64 ∨ (roundedEnd va size = 2 ^ 64 ∧ 4096 ≤ va)

instance (va size : ℕ) : Decidable (EndOk va size) := inferInstanceAs (Decidable (_ ∨ _))

theorem EndOk.le {va size : ℕ} (h : EndOk va size) : roundedEnd va size ≤ 2 ^ 64 := by
  rcases h with h | ⟨h, -⟩
  · exact h.le
  · exact h.le

section Pages

variable {va size : ℕ}

theorem requestArea_vmEnd (mm va size : ℕ) (vmFlags : BitVec 64) :
    (requestArea mm va size vmFlags).vmEnd = u64 (u64 (va + size) + 4095) / 4096 * 4096 :=
  alignUp_eq _

theorem requestArea_vmEnd_zero (h : roundedEnd va size = 2 ^ 64) (mm : ℕ) (vmFlags : BitVec 64) :
    (requestArea mm va size vmFlags).vmEnd = 0 := by
  unfold roundedEnd at h
  have hlow : u64 (u64 (va + size) + 4095) < 4096 := by
    rcases eq_or_lt_of_le (show va + size ≤ 2 ^ 64 by omega) with heq | hlt
    · rw [heq]
      decide
    · rw [u64_of_lt hlt, u64, Nat.mod_eq_sub_mod (by omega)]
      exact (Nat.mod_le _ _).trans_lt (by omega)
  rw [requestArea_vmEnd, Nat.div_eq_of_lt hlow, Nat.zero_mul]

/-- The number of pages comes out right. -/
theorem requestArea_pages (h : EndOk va size) (hs : 0 < size) (mm : ℕ) (vmFlags : BitVec 64) :
    Kernel.pageCount (va / 4096 * 4096) (requestArea mm va size vmFlags).vmEnd
      = pageSpan va size := by
  rw [Kernel.pageCount, pageSize, pageSpan]
  rcases h with hlt | ⟨heq, hva⟩
  · unfold roundedEnd at hlt
    rw [requestArea_vmEnd]
    have hsum : va + size + 4095 < 2 ^ 64 := by omega
    have hin : u64 (va + size) = va + size := u64_of_lt (by omega)
    rw [hin, u64_of_lt hsum, u64Sub_of_le (by omega)]
    omega
  · rw [requestArea_vmEnd_zero heq, u64Sub, if_neg (by omega)]
    unfold roundedEnd at heq
    omega

/-- A range that begins in page zero and ends with the address space counts as empty. -/
theorem requestArea_pages_zero (hend : roundedEnd va size = 2 ^ 64) (hva : va < 4096) (mm : ℕ)
    (vmFlags : BitVec 64) :
    Kernel.pageCount (va / 4096 * 4096) (requestArea mm va size vmFlags).vmEnd = 0 := by
  rw [Kernel.pageCount, requestArea_vmEnd_zero hend, Nat.div_eq_of_lt hva, Nat.zero_mul,
    u64Sub_of_le le_rfl, Nat.sub_self, Nat.zero_div]

end Pages

section Callers

variable {k k' : Kernel} {mm va size : ℕ} {vmFlags : BitVec 64}

theorem mapArea_true_iff {vma : ℕ} {v : VmaStruct} : k.mapArea mm vma v = (true, k') ↔
    ∃ m', Machine.mapEach (k.mms mm).pml4Pa (pteFlagsOf v.vmFlags)
        (pagesFrom v.vmStart 0 (Kernel.pageCount v.vmStart v.vmEnd)) k.toMachine = (true, m')
      ∧ k' = { k.linkVma mm vma v with toMachine := m' } := by
  obtain ⟨hok, heq⟩ := mapRange_eq (k.mms mm).pml4Pa v.vmStart (pteFlagsOf v.vmFlags)
    (Kernel.pageCount v.vmStart v.vmEnd) 0 k.toMachine
  have hpml4 : ((k.linkVma mm vma v).mms mm).pml4Pa = (k.mms mm).pml4Pa := by
    simp [Kernel.linkVma, Kernel.setMm]
  have hmach : (k.linkVma mm vma v).toMachine = k.toMachine := rfl
  unfold Kernel.mapArea
  dsimp only
  rw [hpml4, hmach]
  constructor
  · intro h
    split at h
    · rename_i m' hm
      rw [hm] at hok heq
      exact ⟨m', (heq hok.symm).symm, (congrArg Prod.snd h).symm⟩
    · cases congrArg Prod.fst h
  · rintro ⟨m', hm, rfl⟩
    rw [heq (by rw [hm]), hm]

/-- When `mm_map_range` succeeds. -/
theorem mmMapRange_true_iff : k.mmMapRange mm va size vmFlags = some (true, k') ↔
    mm ≠ 0 ∧ size ≠ 0 ∧ ∃ vma km m', k.kmalloc vmaStructSize = some (vma, km) ∧ vma ≠ 0
      ∧ Machine.mapEach (k.mms mm).pml4Pa (pteFlagsOf vmFlags)
          (pagesFrom (requestArea mm va size vmFlags).vmStart 0
            (Kernel.pageCount (requestArea mm va size vmFlags).vmStart
              (requestArea mm va size vmFlags).vmEnd)) km.toMachine = (true, m')
      ∧ k' = { Kernel.linkVma { k with toKMem := km } mm vma (requestArea mm va size vmFlags) with
          toMachine := m' } := by
  constructor
  · intro h
    rcases mmMapRange_cases h with ⟨hc, -⟩ | ⟨hmm, hs, vma, km, hkm, ⟨hc, -⟩ | ⟨hv, hmap⟩⟩
    · cases hc
    · cases hc
    · obtain ⟨m', hm, he⟩ := mapArea_true_iff.mp hmap
      exact ⟨hmm, hs.ne', vma, km, m', hkm, hv, hm, he⟩
  · rintro ⟨hmm, hs, vma, km, m', hkm, hv, hm, he⟩
    rw [Kernel.mmMapRange, if_neg (not_or.mpr ⟨hmm, hs⟩), hkm]
    dsimp only
    rw [if_neg hv]
    exact congrArg some (mapArea_true_iff.mpr ⟨m', hm, he⟩)

theorem pageSpan_lt (h : va + size ≤ 2 ^ 64) {i : ℕ} (hi : i < pageSpan va size) :
    va / 4096 * 4096 + i * pageSize < 2 ^ 64 := by
  unfold pageSpan at hi
  unfold pageSize
  omega

theorem requestArea_of_endOk (h : EndOk va size) (hs : size ≠ 0) :
    (requestArea mm va size vmFlags).vmStart = va / 4096 * 4096
      ∧ Kernel.pageCount (va / 4096 * 4096) (requestArea mm va size vmFlags).vmEnd
        = pageSpan va size := by
  refine ⟨alignDown_eq ?_, requestArea_pages h (Nat.pos_of_ne_zero hs) mm vmFlags⟩
  have hle := h.le
  unfold roundedEnd at hle
  omega

/-- Of all of the address space nothing is mapped. -/
theorem mmMapRange_whole (hmm : mm ≠ 0) (hs : size ≠ 0) (hend : va + size ≤ 2 ^ 64)
    (hc : ¬ EndOk va size) {vma : ℕ} {km : KMem} (hkm : k.kmalloc vmaStructSize = some (vma, km))
    (hv : vma ≠ 0) :
    ∃ k', k.mmMapRange mm va size vmFlags = some (true, k') ∧ k'.toMachine = km.toMachine
      ∧ pageSpan va size ≠ 0 := by
  obtain ⟨hlast, hva⟩ : roundedEnd va size = 2 ^ 64 ∧ va < 4096 := by
    unfold EndOk roundedEnd at hc
    unfold roundedEnd
    omega
  have hstart : (requestArea mm va size vmFlags).vmStart = va / 4096 * 4096 :=
    alignDown_eq (by omega)
  refine ⟨_, mmMapRange_true_iff.mpr ⟨hmm, hs, vma, km, km.toMachine, hkm, hv, ?_, rfl⟩, rfl, ?_⟩
  · rw [hstart, requestArea_pages_zero hlast hva]
    rfl
  · unfold pageSpan
    omega

theorem mmMapRange_mapsRange_iff (hend : va + size ≤ 2 ^ 64)
    (hinv : ∀ vma km, k.kmalloc vmaStructSize = some (vma, km) →
      MapInv (k.mms mm).pml4Pa km.toMachine) :
    (∀ k', k.mmMapRange mm va size vmFlags = some (true, k') →
        ∀ vma km, k.kmalloc vmaStructSize = some (vma, km) →
          MapsRange km.toMachine k'.toMachine (k.mms mm).pml4Pa (va / 4096 * 4096)
            (pageSpan va size))
      ↔ (mm ≠ 0 → size ≠ 0 → ∀ vma km, k.kmalloc vmaStructSize = some (vma, km) → vma ≠ 0 →
        EndOk va size ∧
          (km.Short (k.mms mm).pml4Pa (va / 4096 * 4096) (pageSpan va size)
            ∨ km.Fits (k.mms mm).pml4Pa (va / 4096 * 4096) (pageSpan va size))) := by
  by_cases hc : EndOk va size
  · have hiff := fun vma km hkm => mapEach_mapsRange_iff (hinv vma km hkm) (pteFlagsOf_ok vmFlags)
      fun i hi => pageSpan_lt hend hi
    have htrue : ∀ k', k.mmMapRange mm va size vmFlags = some (true, k') ↔ _ :=
      fun k' => mmMapRange_true_iff
    constructor
    · intro hall hmm hs vma km hkm hv
      obtain ⟨hstart, hcount⟩ : (requestArea mm va size vmFlags).vmStart = _ ∧ _ :=
        requestArea_of_endOk hc hs
      simp only [hstart, hcount] at htrue
      refine ⟨hc, (hiff vma km hkm).mp fun m' hm => ?_⟩
      exact hall _ ((htrue _).mpr ⟨hmm, hs, vma, km, m', hkm, hv, hm, rfl⟩) vma km hkm
    · intro hcond k' h vma km hkm
      obtain ⟨hmm, hs, vma', km', m', hkm', hv, hm, rfl⟩ := (htrue k').mp h
      obtain ⟨rfl, rfl⟩ := Prod.mk.inj (Option.some.inj (hkm.symm.trans hkm'))
      obtain ⟨hstart, hcount⟩ : (requestArea mm va size vmFlags).vmStart = _ ∧ _ :=
        requestArea_of_endOk hc hs
      rw [hstart, hcount] at hm
      exact (hiff vma km hkm).mpr (hcond hmm hs vma km hkm hv).2 m' hm
  · constructor
    · intro hall hmm hs vma km hkm hv
      obtain ⟨k', hk', hmach, hspan⟩ := mmMapRange_whole hmm hs hend hc hkm hv
      obtain ⟨pa, -, hold, hnew⟩ := (hall k' hk' vma km hkm).bound 0 (Nat.pos_of_ne_zero hspan)
      exact absurd (hmach ▸ hnew) hold
    · intro hcond k' h
      obtain ⟨hmm, hs, vma, km, m', hkm, hv, -⟩ := mmMapRange_true_iff.mp h
      exact absurd (hcond hmm hs vma km hkm hv).1 hc

end Callers

/-! ## Kernel stacks -/

namespace MmState

/-- The bottom of the next stack. -/
def stackBottom (s : MmState) : ℕ := u64 (s.kstackPtr + pageSize)

/-- The top of the next stack. -/
def stackTop (s : MmState) (size : ℕ) : ℕ := u64 (s.stackBottom + size)

/-- The addresses from the bottom on, a page apart, that are below the top. -/
def stackRounds (s : MmState) (size : ℕ) : ℕ :=
  (s.stackTop size - s.stackBottom + (pageSize - 1)) / pageSize

/-- The pages `kstack_init` asks for: more than are free where the address after the last one wraps
around and the loop goes on. -/
def stackPages (s : MmState) (size : ℕ) : ℕ :=
  if s.stackBottom + s.stackRounds size * pageSize < 2 ^ 64 then s.stackRounds size
  else s.pmm.freePages + 1

end MmState

section Stacks

variable {s : MmState} {size : ℕ}

theorem stackPages_below {j : ℕ} (hj : j < s.stackPages size) :
    u64 (s.stackBottom + j * pageSize) < s.stackTop size := by
  have hbottom : s.stackBottom < 2 ^ 64 := u64_lt _
  have htop : s.stackTop size < 2 ^ 64 := u64_lt _
  unfold MmState.stackPages MmState.stackRounds at hj
  unfold u64
  unfold pageSize at hj ⊢
  split_ifs at hj <;> omega

theorem kstackInit_eq (s : MmState) (size : ℕ) :
    s.kstackInit size = (if (Machine.mapEach s.kernelPml4 kernelFlags
          (pagesFrom s.stackBottom 0 (s.stackPages size)) s.toMachine).1
        then s.stackTop size else 0,
        { s with
          toMachine := (Machine.mapEach s.kernelPml4 kernelFlags
            (pagesFrom s.stackBottom 0 (s.stackPages size)) s.toMachine).2
          kstackPtr := s.stackTop size }) := by
  have hend : s.stackTop size ≤ u64 (s.stackBottom + (0 + s.stackPages size) * pageSize)
      ∨ s.pmm.freePages < s.stackPages size := by
    unfold MmState.stackPages
    split_ifs with hwrap
    · rw [Nat.zero_add, u64_of_lt hwrap]
      unfold MmState.stackRounds pageSize
      omega
    · exact .inr (Nat.lt_succ_self _)
  have hloop : Machine.kstackMap s.kernelPml4 (s.stackTop size) (s.pmm.freePages + 1)
      (u64 (s.stackBottom + 0 * pageSize)) s.toMachine = _ :=
    kstackMap_eq (Nat.lt_succ_self _) (fun j _ hj => stackPages_below (by omega)) hend
  have hbottom : u64 (s.stackBottom + 0 * pageSize) = s.stackBottom := by
    rw [Nat.zero_mul, Nat.add_zero]
    exact u64_of_lt (u64_lt _)
  rw [hbottom] at hloop
  rw [← hloop]
  unfold MmState.kstackInit MmState.stackTop MmState.stackBottom
  dsimp only
  split <;> rename_i he <;> rw [he] <;> rfl

theorem mapsRange_align {m m' : Machine} {pml4 start n : ℕ} :
    MapsRange m m' pml4 start n ↔ MapsRange m m' pml4 (start / 4096 * 4096) n := by
  have hpage : ∀ i, m'.frameAt pml4 (start / 4096 * 4096 + i * pageSize)
      = m'.frameAt pml4 (start + i * pageSize) := fun i => by
    refine frameAt_congr (leafPath_eq_iff.mpr ?_)
    unfold pageSize
    omega
  constructor
  · exact fun h => ⟨fun i hi => hpage i ▸ h.bound i hi,
      fun i hi j hj heq => h.distinct i hi j hj (by rwa [hpage, hpage] at heq)⟩
  · exact fun h => ⟨fun i hi => hpage i ▸ h.bound i hi,
      fun i hi j hj heq => h.distinct i hi j hj (by rwa [hpage, hpage])⟩

/-- The pages that a size fills. -/
def sizePages (size : ℕ) : ℕ := (size + 4095) / 4096

/-- When the loop of `kstack_init` does not come to its end. -/
theorem kstackInit_wraps (hend : s.stackBottom + size ≤ 2 ^ 64)
    (hwrap : 2 ^ 64 ≤ s.stackBottom + sizePages size * pageSize) : (s.kstackInit size).1 = 0 := by
  have hbottom : s.stackBottom < 2 ^ 64 := u64_lt _
  rw [kstackInit_eq]
  dsimp only
  rcases hend.eq_or_lt with htop | hlt
  · have h0 : s.stackTop size = 0 := by rw [MmState.stackTop, htop, u64, Nat.mod_self]
    rw [h0, ite_self]
  · have hpages : s.stackPages size = s.pmm.freePages + 1 := by
      unfold MmState.stackPages MmState.stackRounds MmState.stackTop
      rw [u64_of_lt hlt]
      refine if_neg ?_
      unfold sizePages pageSize at hwrap
      unfold pageSize
      omega
    rw [mapEach_of_length, if_neg (by decide)]
    rw [pagesFrom, List.length_map, List.length_range', hpages]
    exact Nat.lt_succ_self _

/-- When it does, it maps a page for each page of the size. -/
theorem kstackInit_ends (hfits : s.stackBottom + sizePages size * pageSize < 2 ^ 64) :
    (s.kstackInit size).1 = (if (Machine.mapEach s.kernelPml4 kernelFlags
          (pagesFrom s.stackBottom 0 (sizePages size)) s.toMachine).1
        then s.stackBottom + size else 0)
      ∧ (s.kstackInit size).2.toMachine = (Machine.mapEach s.kernelPml4 kernelFlags
          (pagesFrom s.stackBottom 0 (sizePages size)) s.toMachine).2 := by
  have htop : s.stackTop size = s.stackBottom + size := u64_of_lt (by
    unfold sizePages pageSize at hfits
    omega)
  have hpages : s.stackPages size = sizePages size := by
    unfold MmState.stackPages MmState.stackRounds
    rw [htop]
    unfold sizePages pageSize at *
    split_ifs <;> omega
  rw [kstackInit_eq, hpages, htop]
  exact ⟨rfl, rfl⟩

/-- The stack has a page for each page that its range meets, or one less where the bottom is not
aligned. -/
theorem stack_pageSpan : pageSpan s.stackBottom size = sizePages size
    ∨ pageSpan s.stackBottom size = sizePages size + 1 := by
  unfold pageSpan sizePages
  omega

/-- What `kstack_init` says of a range: every page that it meets is mapped. -/
def MmState.StackMapped (s : MmState) (size : ℕ) : Prop :=
  (s.kstackInit size).1 ≠ 0 → size ≠ 0 →
    MapsRange s.toMachine (s.kstackInit size).2.toMachine s.kernelPml4
      (s.stackBottom / 4096 * 4096) (pageSpan s.stackBottom size)

/-- There is no page, or no end of the pages, or not even a frame for the last one, or there are
frames for all and the last one is the page under the top. -/
def MmState.StackServed (s : MmState) (size : ℕ) : Prop :=
  size = 0 ∨ 2 ^ 64 ≤ s.stackBottom + sizePages size * pageSize
    ∨ s.Short s.kernelPml4 s.stackBottom (sizePages size)
    ∨ (s.Fits s.kernelPml4 s.stackBottom (sizePages size)
      ∧ pageSpan s.stackBottom size = sizePages size)

theorem page_lt {bottom n i : ℕ} (hfits : bottom + n * pageSize < 2 ^ 64) (hi : i ≤ n) :
    bottom + i * pageSize < 2 ^ 64 :=
  (Nat.add_le_add_left (Nat.mul_le_mul_right _ hi) _).trans_lt hfits

variable (h : MapInv s.kernelPml4 s.toMachine)
include h

theorem stack_mapsRange_iff
    (hfits : s.stackBottom + sizePages size * pageSize < 2 ^ 64) :
    ((Machine.mapEach s.kernelPml4 kernelFlags
        (pagesFrom s.stackBottom 0 (sizePages size)) s.toMachine).1 = true →
      MapsRange s.toMachine (Machine.mapEach s.kernelPml4 kernelFlags
          (pagesFrom s.stackBottom 0 (sizePages size)) s.toMachine).2 s.kernelPml4
        (s.stackBottom / 4096 * 4096) (sizePages size))
      ↔ s.Short s.kernelPml4 s.stackBottom (sizePages size)
        ∨ s.Fits s.kernelPml4 s.stackBottom (sizePages size) := by
  rw [← mapEach_mapsRange_iff h kernelFlags_ok fun i hi => page_lt hfits hi.le, ← mapsRange_align]
  rcases Machine.mapEach s.kernelPml4 kernelFlags
    (pagesFrom s.stackBottom 0 (sizePages size)) s.toMachine with ⟨_ | _, m⟩ <;> simp

theorem MmState.StackServed.mapped (hend : s.stackBottom + size ≤ 2 ^ 64)
    (hok : s.StackServed size) : s.StackMapped size := by
  intro hnull hs
  rcases le_or_gt (2 ^ 64) (s.stackBottom + sizePages size * pageSize) with hwrap | hfits
  · exact absurd (kstackInit_wraps hend hwrap) hnull
  obtain ⟨hret, hmach⟩ := kstackInit_ends hfits
  rw [hret, ite_ne_right_iff] at hnull
  rw [hmach]
  rcases hok with h0 | hwrap | hshort | ⟨hfit, hspan⟩
  · exact absurd h0 hs
  · exact absurd hfits (Nat.not_lt.mpr hwrap)
  · rw [mapEach_of_short h kernelFlags_ok (by
      unfold sizePages
      omega) hshort] at hnull
    cases hnull.1
  · rw [hspan]
    exact (stack_mapsRange_iff h hfits).mpr (.inr hfit) hnull.1

/-- Where the range meets a page more than are mapped, that page is left as it was: not mapped, or
to a frame that was taken. -/
theorem MmState.StackMapped.served (hall : s.StackMapped size)
    (hold : ∀ pa, s.frameAt s.kernelPml4 (s.stackBottom / 4096 * 4096
      + sizePages size * pageSize) = some pa → s.pmm.Busy pa) :
    s.StackServed size := by
  rcases eq_or_ne size 0 with h0 | hs
  · exact .inl h0
  rcases le_or_gt (2 ^ 64) (s.stackBottom + sizePages size * pageSize) with hwrap | hfits
  · exact .inr (.inl hwrap)
  obtain ⟨hret, hmach⟩ := kstackInit_ends hfits
  have hloop : (Machine.mapEach s.kernelPml4 kernelFlags
      (pagesFrom s.stackBottom 0 (sizePages size)) s.toMachine).1 = true →
      MapsRange s.toMachine (Machine.mapEach s.kernelPml4 kernelFlags
        (pagesFrom s.stackBottom 0 (sizePages size)) s.toMachine).2 s.kernelPml4
        (s.stackBottom / 4096 * 4096) (pageSpan s.stackBottom size) := fun hm => by
    have hr := hall (by rw [hret, if_pos hm]; omega) hs
    rwa [hmach] at hr
  have hiff := stack_mapsRange_iff h hfits
  have hpages : pageSpan s.stackBottom size = _ ∨ _ := stack_pageSpan
  rcases hpages with hspan | hspan <;> rw [hspan] at hloop
  · rcases hiff.mp hloop with hshort | hfit
    · exact .inr (.inr (.inl hshort))
    · exact .inr (.inr (.inr ⟨hfit, hspan⟩))
  · rcases hiff.mp fun hm => (hloop hm).take with hshort | hfit
    · exact .inr (.inr (.inl hshort))
    · obtain ⟨m', hm, hmaps⟩ := mapEach_enough kernelFlags_ok h hfit.1
      rw [hm] at hloop
      have hrange := hloop rfl
      obtain ⟨pa, hpa, hfree, -⟩ := hrange.bound (sizePages size) (Nat.lt_succ_self _)
      have hlong : sizePages size + 1 ≤ 2 ^ 36 := (mapsRange_align.mpr hrange).le fun i hi =>
        page_lt hfits (Nat.le_of_lt_succ hi)
      refine absurd (hold pa (Eq.trans ?_ hpa)) hfree
      refine congrArg (Option.map pteGetAddr) (hmaps.frame _ fun va hva => ?_).symm
      obtain ⟨i, hi, rfl⟩ := List.mem_map.mp hva
      have hi' := (List.mem_range'_1.mp hi).2
      rw [Ne, u64_of_lt (page_lt hfits (by omega)), leafPath_eq_iff]
      unfold pageSize
      omega

end Stacks

/-- Success means mapped, for `mm_map_range` exactly if the end does not wrap and the frames, once
the area's structure is allocated, suffice for the whole range or run out before its last page; for
`kheap_expand` whenever the range is no longer than the table indices can tell apart; for
`kstack_init` exactly if the same holds of the frames and no page under the top is left out. -/
theorem mapping_success (k : Kernel) (heap : KMem) (s : MmState) (mm va size pgnum : ℕ)
    (vmFlags : BitVec 64) :
    (va + size ≤ 2 ^ 64 →
        (∀ vma km, k.kmalloc vmaStructSize = some (vma, km) →
          MapInv (k.mms mm).pml4Pa km.toMachine) →
        ((∀ k', k.mmMapRange mm va size vmFlags = some (true, k') →
            ∀ vma km, k.kmalloc vmaStructSize = some (vma, km) →
              MapsRange km.toMachine k'.toMachine (k.mms mm).pml4Pa (va / 4096 * 4096)
                (pageSpan va size))
          ↔ (mm ≠ 0 → size ≠ 0 → ∀ vma km, k.kmalloc vmaStructSize = some (vma, km) → vma ≠ 0 →
            EndOk va size ∧
              (km.Short (k.mms mm).pml4Pa (va / 4096 * 4096) (pageSpan va size)
                ∨ km.Fits (k.mms mm).pml4Pa (va / 4096 * 4096) (pageSpan va size)))))
      ∧ (MapInv heap.kernelPml4 heap.toMachine →
        heap.heap.kheapTop + pgnum * pageSize ≤ 2 ^ 64 → heap.heap.kheapTop < 2 ^ 64 →
        ((∀ k', heap.kheapExpand pgnum = some (true, k') →
            MapsRange heap.toMachine k'.toMachine heap.kernelPml4 heap.heap.kheapTop pgnum)
          ↔ heap.pmm.freePages
              < heap.framesFor heap.kernelPml4 (pagesFrom heap.heap.kheapTop 0 pgnum)
            ∨ pgnum ≤ 2 ^ 36))
      ∧ (MapInv s.kernelPml4 s.toMachine → s.stackBottom + size ≤ 2 ^ 64 →
        (s.StackServed size → s.StackMapped size)
          ∧ ((∀ pa, s.frameAt s.kernelPml4 (s.stackBottom / 4096 * 4096
              + sizePages size * pageSize) = some pa → s.pmm.Busy pa) →
            s.StackMapped size → s.StackServed size)) := by
  exact ⟨fun hend hinv => mmMapRange_mapsRange_iff hend hinv,
    fun h hend htop => kheapExpand_mapsRange_iff h
      (fun i hi => by unfold pageSize at hend ⊢; omega) htop,
    fun h hend => ⟨fun hok => hok.mapped h hend, fun hold hall => hall.served h hold⟩⟩

/-- A kernel with one `mm_struct`, whose PML4 in page two is empty, and with the frames that `p` has
left. -/
def oneMmKernel (p : Pmm) : Kernel where
  pmm := p
  phys _ _ := 0#64
  kernelPml4 := 0x1000
  heap := ⟨[⟨kernelHeapBase, 104, false⟩, ⟨kernelHeapBase + 136, 3928, true⟩],
    kernelHeapBase + 4096⟩
  mms _ := { pml4Pa := 0x2000 }
  vmas _ := ⟨0, 0, 0, 0#64⟩

def onlyMm : ℕ := kernelHeapBase + 32

/-- The frames from `n` on are free, of sixteen. -/
def framesLeft (n : ℕ) : Pmm :=
  { bitmap := [BitVec.ofNat 8 (2 ^ n - 1), BitVec.ofNat 8 ((2 ^ n - 1) >>> 8)]
    totalPages := 16
    freePages := 16 - n
    lastFreeIndex := n }

theorem mapInv_of_blank {m : Machine} {pml4 : ℕ} (hphys : ∀ a j, m.phys a j = 0#64)
    (hI : m.pmm.Inv) (hw : m.pmm.totalPages ≤ 2 ^ 40) (hz : m.pmm.Busy 0) (hb : m.pmm.Busy pml4) :
    MapInv pml4 m := by
  have htable : ∀ {p n}, m.table pml4 p = some n → p = [] ∧ n = pml4 := by
    rintro (_ | ⟨i, p⟩) n h
    · exact ⟨rfl, (Option.some.inj h).symm⟩
    · rw [Machine.table, Radix.walk, tableChild_zero (hphys _ _)] at h
      cases h
  exact ⟨hI, hw, hz, ⟨fun p q n _ _ h1 h2 => (htable h1).1.trans (htable h2).1.symm,
    fun p n _ h => (htable h).2 ▸ hb⟩⟩

/-- A PML4 with one entry, for an empty table. -/
theorem table_of_one_entry {m : Machine} {pml4 i n : ℕ} {e : BitVec 64}
    (hroot : ∀ j, m.phys pml4 j = if j = i then e else 0#64)
    (hnext : ∀ j, m.phys (pteGetAddr e) j = 0#64) {p : List ℕ} (h : m.table pml4 p = some n) :
    (p = [] ∧ n = pml4) ∨ (p = [i] ∧ n = pteGetAddr e) := by
  rcases p with _ | ⟨j, p⟩
  · exact .inl ⟨rfl, (Option.some.inj h).symm⟩
  rw [Machine.table, Radix.walk] at h
  by_cases hj : j = i
  · rw [tableChild, hroot, if_pos hj] at h
    split_ifs at h
    · rcases p with _ | ⟨l, p⟩
      · exact .inr ⟨by rw [hj], (Option.some.inj h).symm⟩
      · rw [Option.bind_some, Radix.walk, tableChild_zero (hnext _)] at h
        cases h
    · cases h
  · rw [tableChild_zero (by rw [hroot, if_neg hj])] at h
    cases h

theorem mapInv_of_entry {m : Machine} {pml4 i : ℕ} {e : BitVec 64}
    (hroot : ∀ j, m.phys pml4 j = if j = i then e else 0#64)
    (hnext : ∀ j, m.phys (pteGetAddr e) j = 0#64) (hne : pteGetAddr e ≠ pml4) (hI : m.pmm.Inv)
    (hw : m.pmm.totalPages ≤ 2 ^ 40) (hz : m.pmm.Busy 0) (hb : m.pmm.Busy pml4)
    (ht : m.pmm.Busy (pteGetAddr e)) : MapInv pml4 m := by
  have htable := fun p n => table_of_one_entry (p := p) (n := n) hroot hnext
  refine ⟨hI, hw, hz, ⟨fun p q n _ _ h1 h2 => ?_, fun p n _ h => ?_⟩⟩
  · rcases htable p n h1 with ⟨rfl, rfl⟩ | ⟨rfl, rfl⟩ <;>
      rcases htable q _ h2 with ⟨rfl, hn⟩ | ⟨rfl, hn⟩
    · rfl
    · exact absurd hn.symm hne
    · exact absurd hn hne
    · rfl
  · rcases htable p n h with ⟨-, rfl⟩ | ⟨-, rfl⟩
    · exact hb
    · exact ht

theorem framesLeft_inv {n : ℕ} (h : n < 16) : (framesLeft n).Inv := by
  interval_cases n <;> exact ⟨⟨by decide, by decide⟩, by decide, by decide, by decide⟩

theorem oneMmKernel_kmalloc (p : Pmm) :
    ∃ km, (oneMmKernel p).kmalloc vmaStructSize = some (kernelHeapBase + 168, km)
      ∧ km.toMachine = (oneMmKernel p).toMachine :=
  ⟨_, rfl, rfl⟩

theorem oneMmKernel_mapInv {n : ℕ} (h : n = 3 ∨ n = 15) {vma : ℕ} {km : KMem}
    (hkm : (oneMmKernel (framesLeft n)).kmalloc vmaStructSize = some (vma, km)) :
    MapInv 0x2000 km.toMachine := by
  obtain ⟨km', hkm', hmach⟩ := oneMmKernel_kmalloc (framesLeft n)
  obtain ⟨-, rfl⟩ := Prod.mk.inj (Option.some.inj (hkm.symm.trans hkm'))
  rw [hmach]
  refine mapInv_of_blank (fun _ _ => rfl) (framesLeft_inv (by omega)) ?_ ?_ ?_
  all_goals rcases h with rfl | rfl <;> decide

theorem mapping_success_oneMmKernel :
    (∃ km k', (oneMmKernel (framesLeft 3)).kmalloc vmaStructSize = some (kernelHeapBase + 168, km)
      ∧ (oneMmKernel (framesLeft 3)).mmMapRange onlyMm 0x400000 0x4000 vmRead = some (true, k')
      ∧ MapsRange km.toMachine k'.toMachine 0x2000 (0x400000 / 4096 * 4096)
        (pageSpan 0x400000 0x4000))
      ∧ (MmState.kstackInit ⟨oneMmKernel (framesLeft 3), kernelStackBase⟩ 0x4000).1 ≠ 0
      ∧ MmState.StackMapped ⟨oneMmKernel (framesLeft 3), kernelStackBase⟩ 0x4000 := by
  obtain ⟨hrange, -, hstack⟩ := mapping_success (oneMmKernel (framesLeft 3))
    (oneMmKernel (framesLeft 3)).toKMem ⟨oneMmKernel (framesLeft 3), kernelStackBase⟩ onlyMm
    0x400000 0x4000 0 vmRead
  refine ⟨?_, by decide +kernel, (hstack ?_ (by decide)).1 (.inr (.inr (.inr ?_)))⟩
  · obtain ⟨km, hkm, -⟩ := oneMmKernel_kmalloc (framesLeft 3)
    obtain ⟨⟨ok, k'⟩, hk', rfl⟩ := Option.map_eq_some_iff.mp
      (show ((oneMmKernel (framesLeft 3)).mmMapRange onlyMm 0x400000 0x4000 vmRead).map Prod.fst
        = some true by decide +kernel)
    have hiff := hrange (by decide) fun _ _ h => oneMmKernel_mapInv (.inl rfl) h
    refine ⟨km, k', hkm, hk', hiff.mpr (fun _ _ vma km' hkm' _ => ?_) k' hk' _ km hkm⟩
    obtain ⟨km'', hkm'', hmach⟩ := oneMmKernel_kmalloc (framesLeft 3)
    obtain ⟨-, rfl⟩ := Prod.mk.inj (Option.some.inj (hkm'.symm.trans hkm''))
    rw [hmach]
    exact ⟨by decide, .inr ⟨by decide +kernel, by decide⟩⟩
  · exact mapInv_of_blank (fun _ _ => rfl) (framesLeft_inv (by decide)) (by decide)
      (by decide) (by decide)
  · exact ⟨⟨by decide +kernel, by decide⟩, by decide⟩

/-- With one frame left the page gets it, and its tables none. -/
theorem mmMapRange_unmapped :
    ∃ vma km k', (oneMmKernel (framesLeft 15)).kmalloc vmaStructSize = some (vma, km)
      ∧ MapInv 0x2000 km.toMachine
      ∧ (oneMmKernel (framesLeft 15)).mmMapRange onlyMm 0x400000 4096 vmRead = some (true, k')
      ∧ k'.frameAt 0x2000 0x400000 = none
      ∧ ¬ MapsRange km.toMachine k'.toMachine 0x2000 0x400000 1 := by
  obtain ⟨km, hkm, -⟩ := oneMmKernel_kmalloc (framesLeft 15)
  obtain ⟨⟨ok, k'⟩, hk', heq⟩ := Option.map_eq_some_iff.mp
    (show ((oneMmKernel (framesLeft 15)).mmMapRange onlyMm 0x400000 4096 vmRead).map
      (fun r => (r.1, r.2.frameAt 0x2000 0x400000)) = some (true, none) by decide +kernel)
  obtain ⟨rfl, hnone⟩ := Prod.mk.inj heq
  refine ⟨_, km, k', hkm, oneMmKernel_mapInv (.inr rfl) hkm, hk', hnone, fun h => ?_⟩
  obtain ⟨pa, hpa, -⟩ := h.bound 0 (by decide)
  exact absurd (hnone.symm.trans hpa) (by simp)

end SudoOS
