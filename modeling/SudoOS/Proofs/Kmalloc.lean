import SudoOS.Proofs.HeapGrowth

/-!
# What `kmalloc` returns

A request of at most a page fails when no block is free and no page can be had, or the last block,
in use, swallows the new pages (`kmalloc_eq_zero_iff`). Anything else gets a block of its size or
larger, unless rounding the size wraps: the last seven sizes become zero, which any free block
satisfies (`kmalloc_sized`).
-/

namespace SudoOS

namespace KMem

/-! ## A failing allocation -/

theorem alignUp_eight_of_dvd {size : ℕ} (h : 8 ∣ size) (hlt : size < 2 ^ 64) :
    alignUp size 8 = size := by
  rw [alignUp_eight, u64_of_lt (by omega)]
  omega

/-- A block that fits in a page with its header. -/
theorem pgNeeded_one {size : ℕ} (h : size + headerSize ≤ pageSize) : pgNeeded size = 1 := by
  unfold headerSize pageSize at h
  unfold pgNeeded headerSize
  rw [u64_of_lt (by omega), alignUp_eq, u64_of_lt (by omega)]
  unfold pageSize
  dsimp only
  split_ifs <;> omega

/-- An expansion by one page does not fail once it has it. -/
theorem kheapExpand_one_false {k k' : KMem} (h : k.kheapExpand 1 = some (false, k')) :
    (k.pmm.pmmAllocPage).1 = 0 := by
  rcases kheapExpand_cases h with ⟨-, h0, -⟩ | ⟨-, -, h'⟩
  · exact h0
  · simp [kheapExpand] at h'

section OnePage

variable {size : ℕ} (h8 : 8 ∣ size) (hpage : size + headerSize ≤ pageSize) {k k' : KMem}
include h8 hpage

theorem onePage_lt : size < 2 ^ 64 := by
  unfold pageSize at hpage
  omega

theorem kmalloc_found (hk : k.HeapInv) {t : Block} (ht : k.heap.firstFit size = some t) :
    k.kmalloc size = some (t.addr + headerSize, { k with heap := k.heap.carve size t }) := by
  rw [kmalloc_eq hk, alignUp_eight_of_dvd h8 (onePage_lt h8 hpage), ht]
  dsimp only
  rw [(carve_spec hk ht).2.1]

theorem kmalloc_fault (hk : k.HeapInv) (hnone : k.heap.firstFit size = none)
    (he : k.kheapExpand 1 = none) : k.kmalloc size = none := by
  rw [kmalloc_eq hk, alignUp_eight_of_dvd h8 (onePage_lt h8 hpage), hnone, pgNeeded_one hpage, he]

theorem kmalloc_short (hk : k.HeapInv) (hnone : k.heap.firstFit size = none)
    (he : k.kheapExpand 1 = some (false, k')) : k.kmalloc size = some (0, k') := by
  rw [kmalloc_eq hk, alignUp_eight_of_dvd h8 (onePage_lt h8 hpage), hnone, pgNeeded_one hpage, he]

theorem kmalloc_retry (hk : k.HeapInv) (hnone : k.heap.firstFit size = none)
    (he : k.kheapExpand 1 = some (true, k')) : k.kmalloc size = k'.kmalloc size := by
  rw [kmalloc_eq hk, alignUp_eight_of_dvd h8 (onePage_lt h8 hpage), hnone, pgNeeded_one hpage, he]

/-- After an expansion by one page the request is met exactly if the page was not swallowed. -/
theorem firstFit_onePage (hk : k.HeapInv) (hnone : k.heap.firstFit size = none)
    (he : k.kheapExpand 1 = some (true, k')) :
    (∃ t, k'.heap.firstFit size = some t) ↔ TailFree k.heap.kheapList := by
  refine firstFit_kheapExpand hk ?_ hnone (by rw [pgNeeded_one hpage, he])
  unfold pageSize at hpage
  omega

/-- While the last block is in use no expansion helps. -/
theorem kmalloc_of_not_tailFree : ∀ (n : ℕ) {k km : KMem} {p : ℕ}, k.pmm.freePages = n → k.HeapInv →
    k.heap.firstFit size = none → ¬ TailFree k.heap.kheapList →
    k.kmalloc size = some (p, km) → p = 0 := by
  intro n
  induction n using Nat.strong_induction_on with
  | _ n ih =>
    intro k km p hn hk hnone htail h
    rcases he : k.kheapExpand 1 with _ | ⟨_ | _, k₁⟩
    · rw [kmalloc_fault h8 hpage hk hnone he] at h
      cases h
    · rw [kmalloc_short h8 hpage hk hnone he] at h
      simp only [Option.some.injEq, Prod.mk.injEq] at h
      exact h.1.symm
    · rw [kmalloc_retry h8 hpage hk hnone he] at h
      obtain ⟨hk₁, -, hfree⟩ := kheapExpand_spec hk he
      have hlt := hfree rfl
      have hnone₁ : k₁.heap.firstFit size = none := by
        by_contra hc
        obtain ⟨t, ht⟩ := Option.ne_none_iff_exists'.mp hc
        exact htail ((firstFit_onePage h8 hpage hk hnone he).mp ⟨t, ht⟩)
      have htail₁ : ¬ TailFree k₁.heap.kheapList := by
        rcases List.eq_nil_or_concat k.heap.kheapList with hlist | ⟨pre, a, hlist⟩
        · exact absurd (fun b hb => by rw [hlist] at hb; cases hb) htail
        · rw [List.concat_eq_append] at hlist
          rw [kheapExpand_concat hk hlist he]
          rw [hlist] at htail
          simpa [TailFree] using htail
      exact ih _ (by omega) rfl hk₁ hnone₁ htail₁ h

/-- When `kmalloc` has no memory for a block that fits in a page. -/
theorem kmalloc_eq_zero_iff {p : ℕ} (hk : k.HeapInv) (h : k.kmalloc size = some (p, k')) :
    p = 0 ↔ k.heap.firstFit size = none
      ∧ ((k.pmm.pmmAllocPage).1 = 0 ∨ ¬ TailFree k.heap.kheapList) := by
  have hfound : ∀ {k km : KMem} {t : Block}, k.HeapInv → k.heap.firstFit size = some t →
      k.kmalloc size = some (p, km) → p ≠ 0 := by
    intro k km t hk ht h
    rw [kmalloc_found h8 hpage hk ht] at h
    simp only [Option.some.injEq, Prod.mk.injEq] at h
    rw [← h.1, headerSize]
    omega
  rcases hff : k.heap.firstFit size with _ | t
  · refine ⟨fun hp => ⟨rfl, ?_⟩, ?_⟩
    · by_contra hc
      push Not at hc
      obtain ⟨h0, htail⟩ := hc
      rcases he : k.kheapExpand 1 with _ | ⟨_ | _, k₁⟩
      · rw [kmalloc_fault h8 hpage hk hff he] at h
        cases h
      · exact h0 (kheapExpand_one_false he)
      · rw [kmalloc_retry h8 hpage hk hff he] at h
        obtain ⟨t, ht⟩ := (firstFit_onePage h8 hpage hk hff he).mpr htail
        exact hfound (kheapExpand_spec hk he).1 ht h hp
    · rintro ⟨-, h0 | htail⟩
      · have he : k.kheapExpand 1 = some (false, { k with pmm := (k.pmm.pmmAllocPage).2 }) := by
          rw [kheapExpand_succ, if_pos h0]
        rw [kmalloc_short h8 hpage hk hff he] at h
        simp only [Option.some.injEq, Prod.mk.injEq] at h
        exact h.1.symm
      · exact kmalloc_of_not_tailFree h8 hpage _ rfl hk hff htail h
  · exact ⟨fun hp => absurd hp (hfound hk hff h), fun hc => by cases hc.1⟩

end OnePage

/-! ## The size of the block -/

/-- What is asked for is in the block handed out, and a size that wraps gets none. -/
def Fulfils (k : KMem) (size : ℕ) : Prop :=
  ∀ p k', k.kmalloc size = some (p, k') → (p ≠ 0 → Holds k'.heap.kheapList (p, size))
    ∧ (2 ^ 64 ≤ size + 7 ∨ 2 ^ 64 ≤ alignUp size 8 + headerSize → p = 0)

/-- A page can be had, and is mapped at `kheap_top`. -/
def PageMaps (k : KMem) : Prop :=
  (k.pmm.pmmAllocPage).1 ≠ 0 ∧ k.grown.leafEntry k.kernelPml4 k.heap.kheapTop ≠ none

/-- No block is free, and none can be made: the last one is in use, or there is no page. -/
def Exhausted (k : KMem) : Prop :=
  (∀ b ∈ k.heap.kheapList, b.isFree = false) ∧ (k.heap.kheapList ≠ [] ∨ ¬ k.PageMaps)

section Size

variable {k k' : KMem} {size p : ℕ}

/-- The last seven sizes are rounded to zero. -/
theorem alignUp_eight_wraps (hlt : size < 2 ^ 64) (h : 2 ^ 64 ≤ size + 7) : alignUp size 8 = 0 := by
  rw [alignUp_eight]
  unfold u64
  omega

/-- A block has room in the heap. -/
theorem HeapInv.holds_lt (hk : k.HeapInv) (h : Holds k.heap.kheapList (p, size)) :
    size + kernelHeapBase < 2 ^ 64 := by
  obtain ⟨b, hb, -, -, hsize⟩ := h
  obtain ⟨hlo, hhi⟩ := hk.tiles.within hb
  have htop := hk.top_lt
  dsimp only at hsize
  unfold Block.width at hhi
  omega

/-- A size that does not wrap gets its block or none. -/
theorem fulfils_of_lt (hk : k.HeapInv) (hsize : size + 7 < 2 ^ 64) : k.Fulfils size := by
  intro p k' h
  obtain ⟨hk', -, hal⟩ := kmallocLoop_spec hk h
  refine ⟨fun hp => (hal (by omega) hp).holds, fun hwrap => ?_⟩
  by_contra hp
  have hfits := hk'.holds_lt (hal (by omega) hp).holds
  rw [alignUp_eight, u64_of_lt hsize] at hwrap
  unfold kernelHeapBase headerSize at *
  omega

theorem firstFit_zero_iff :
    k.heap.firstFit 0 = none ↔ ∀ b ∈ k.heap.kheapList, b.isFree = false := by
  unfold Heap.firstFit
  simp

/-- Without a free block, the last block is free only if there is none. -/
theorem tailFree_iff (h : ∀ b ∈ k.heap.kheapList, b.isFree = false) :
    TailFree k.heap.kheapList ↔ k.heap.kheapList = [] := by
  refine ⟨fun htail => ?_, fun hnil b hb => ?_⟩
  · rcases List.eq_nil_or_concat k.heap.kheapList with hnil | ⟨pre, a, hlist⟩
    · exact hnil
    · have hfree := htail a (by simp [hlist])
      rw [h a (by simp [hlist])] at hfree
      cases hfree
  · rw [hnil] at hb
    cases hb

theorem kheapExpand_pageMaps (h : k.PageMaps) : k.kheapExpand 1 = some (true, k.grown) := by
  obtain ⟨h0, hleaf⟩ := h
  obtain ⟨e, he⟩ := Option.ne_none_iff_exists'.mp hleaf
  rw [kheapExpand_succ, if_neg h0, he]
  rfl

/-- A request for nothing is refused only by an exhausted heap. -/
theorem kmalloc_zero_iff (hk : k.HeapInv) :
    (∀ p k', k.kmalloc 0 = some (p, k') → p = 0) ↔ k.Exhausted := by
  have hpage : 0 + headerSize ≤ pageSize := by decide
  constructor
  · intro hnull
    have hfound : ∀ {k₁ : KMem} {t : Block}, k₁.HeapInv → k₁.heap.firstFit 0 = some t →
        k.kmalloc 0 ≠ k₁.kmalloc 0 := by
      intro k₁ t hk₁ ht hsame
      rw [kmalloc_found (dvd_zero 8) hpage hk₁ ht] at hsame
      have hzero := hnull _ _ hsame
      unfold headerSize at hzero
      omega
    have hnone : k.heap.firstFit 0 = none := by
      by_contra hc
      obtain ⟨t, ht⟩ := Option.ne_none_iff_exists'.mp hc
      exact hfound hk ht rfl
    refine ⟨firstFit_zero_iff.mp hnone, ?_⟩
    by_contra hc
    push Not at hc
    obtain ⟨hnil, hmaps⟩ := hc
    have he := kheapExpand_pageMaps hmaps
    obtain ⟨t, ht⟩ := (firstFit_onePage (dvd_zero 8) hpage hk hnone he).mpr
      ((tailFree_iff (firstFit_zero_iff.mp hnone)).mpr hnil)
    exact hfound (kheapExpand_spec hk he).1 ht (kmalloc_retry (dvd_zero 8) hpage hk hnone he)
  · rintro ⟨hused, hempty⟩ p k' h
    have hnone := firstFit_zero_iff.mpr hused
    rw [kmalloc_eq_zero_iff (dvd_zero 8) hpage hk h]
    refine ⟨hnone, ?_⟩
    rcases hempty with hne | hno
    · exact .inr fun htail => hne ((tailFree_iff hused).mp htail)
    · left
      by_contra h0
      have hleaf : k.grown.leafEntry k.kernelPml4 k.heap.kheapTop = none := by
        by_contra hc
        exact hno ⟨h0, hc⟩
      have he : k.kheapExpand 1 = none := by rw [kheapExpand_succ, if_neg h0, hleaf]
      rw [kmalloc_fault (dvd_zero 8) hpage hk hnone he] at h
      cases h

end Size

end KMem

/-- Every request gets a block of its size, or none, exactly if rounding the size does not wrap or
the heap can give nothing. -/
theorem kmalloc_sized {k : KMem} (hk : k.HeapInv) {size : ℕ} (hlt : size < 2 ^ 64) :
    k.Fulfils size ↔ size + 7 < 2 ^ 64 ∨ k.Exhausted := by
  rcases lt_or_ge (size + 7) (2 ^ 64) with hsize | hwrap
  · exact ⟨fun _ => .inl hsize, fun _ => KMem.fulfils_of_lt hk hsize⟩
  · have hzero : k.kmalloc size = k.kmalloc 0 := by
      have h0 : alignUp 0 8 = 0 := by decide
      rw [KMem.kmalloc_eq hk, KMem.kmalloc_eq hk, KMem.alignUp_eight_wraps hlt hwrap, h0]
    have hfulfils : k.Fulfils size ↔ ∀ p k', k.kmalloc 0 = some (p, k') → p = 0 := by
      unfold KMem.Fulfils
      rw [hzero]
      refine ⟨fun h p k' hp => (h p k' hp).2 (.inl hwrap), fun h p k' hp => ?_⟩
      exact ⟨fun hne => absurd (h p k' hp) hne, fun _ => h p k' hp⟩
    rw [hfulfils, KMem.kmalloc_zero_iff hk, or_iff_right hwrap.not_gt]

theorem kmalloc_sized_smallKMem :
    ∃ k, smallKMem.kheapInit 1 = some k ∧ k.Fulfils 5000 := by
  obtain ⟨k, hk⟩ := Option.isSome_iff_exists.mp
    (show (smallKMem.kheapInit 1).isSome = true by decide +kernel)
  exact ⟨k, hk, (kmalloc_sized (kheapInit_inv hk (by decide)) (by norm_num)).mpr
    (.inl (by norm_num))⟩

/-- The largest request gets a block without a byte. -/
theorem kmalloc_undersized :
    ∃ k p k', smallKMem.kheapInit 1 = some k ∧ k.kmalloc (2 ^ 64 - 1) = some (p, k')
      ∧ p = kernelHeapBase + headerSize
      ∧ k'.heap.kheapList.head? = some ⟨kernelHeapBase, 0, false⟩
      ∧ ¬ Holds k'.heap.kheapList (p, 2 ^ 64 - 1) ∧ ¬ k.Fulfils (2 ^ 64 - 1) := by
  have hrun : ((smallKMem.kheapInit 1).bind fun k => (k.kmalloc (2 ^ 64 - 1)).map fun r =>
      (r.1, r.2.heap.kheapList.head?))
        = some (kernelHeapBase + headerSize, some ⟨kernelHeapBase, 0, false⟩) := by
    decide +kernel
  obtain ⟨k, hk, hrun⟩ := Option.bind_eq_some_iff.mp hrun
  obtain ⟨⟨p, k'⟩, hm, hrun⟩ := Option.map_eq_some_iff.mp hrun
  obtain ⟨hp, hhead⟩ := Prod.mk.inj hrun
  dsimp only at hp hhead
  have hsmall : ¬ Holds k'.heap.kheapList (p, 2 ^ 64 - 1) := by
    intro hholds
    have hlt := (KMem.kmallocLoop_spec (kheapInit_inv hk (by decide)) hm).1.holds_lt hholds
    unfold kernelHeapBase at hlt
    omega
  refine ⟨k, p, k', hk, hm, hp, hhead, hsmall, fun h => hsmall ((h p k' hm).1 ?_)⟩
  rw [hp]
  decide

end SudoOS
