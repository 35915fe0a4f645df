import SudoOS.Proofs.Pmm

/-!
# The pages free at boot

`pmm_init` counts the pages below the highest address of the map, and `pmm_set_free` refuses a run
that reaches the last of them. An entry at the very end of the map is therefore lost as a whole,
and no other is (`usable_pages_free`).
-/

namespace SudoOS

/-- Page `i` lies wholly in the entry. -/
def MemmapEntry.HasPage (e : MemmapEntry) (i : ℕ) : Prop :=
  e.base ≤ 4096 * i ∧ 4096 * i + 4096 ≤ e.base + e.length

/-- The allocator has the page, and may hand it out. -/
def Pmm.IsFree (p : Pmm) (i : ℕ) : Prop := i < p.totalPages ∧ p.bitTest i = false

/-- Every usable page that is not kept back is free. -/
def UsableFree (mmap : List MemmapEntry) (p : Pmm) : Prop :=
  ∀ e ∈ mmap, e.type = .usable → ∀ i, e.HasPage i → ¬ Reserved mmap i → p.IsFree i

theorem FreedBy.hasPage {total i : ℕ} {e : MemmapEntry} (h : FreedBy total e i) : e.HasPage i :=
  ⟨h.2.1, h.2.2.1⟩

theorem isFree_iff {mmap : List MemmapEntry} {p : Pmm} (hok : MemmapOk mmap)
    (h : pmmInit mmap = some p) {e : MemmapEntry} (he : e ∈ mmap) (hu : e.type = .usable) {i : ℕ}
    (hi : e.HasPage i) (hr : ¬ Reserved mmap i) :
    p.IsFree i ↔ (e.base + e.length) / 4096 < highestPa mmap / 4096 := by
  have hT := (pmmInit_inv h).2.2
  obtain ⟨hlo, hhi⟩ := hi
  constructor
  · rintro ⟨hlt, hc⟩
    obtain ⟨⟨e', he', hf⟩, -⟩ := (pmmInit_bitTest hok h hlt).mp hc
    obtain ⟨hlo', hhi'⟩ := hf.hasPage
    have heq : e' = e := hok.eq_of_mem he' he hlo' (by omega) hlo (by omega)
    rw [← hT, ← heq]
    exact hf.2.2.2
  · intro hlt
    have hlt' : i < p.totalPages := by omega
    refine ⟨hlt', (pmmInit_bitTest hok h hlt').mpr ⟨⟨e, he, hu, hlo, hhi, ?_⟩, hr⟩⟩
    rwa [hT]

/-- After `pmm_init` the usable pages are free exactly if no entry with such pages reaches the last
page of memory. -/
theorem usable_pages_free (mmap : List MemmapEntry) {p : Pmm} (hok : MemmapOk mmap)
    (h : pmmInit mmap = some p) :
    UsableFree mmap p ↔ ∀ e ∈ mmap, e.type = .usable → (∃ i, e.HasPage i ∧ ¬ Reserved mmap i) →
      (e.base + e.length) / 4096 < highestPa mmap / 4096 := by
  constructor
  · rintro hfree e he hu ⟨i, hi, hr⟩
    exact (isFree_iff hok h he hu hi hr).mp (hfree e he hu i hi hr)
  · intro hend e he hu i hi hr
    exact (isFree_iff hok h he hu hi hr).mpr (hend e he hu ⟨i, hi, hr⟩)

theorem usable_pages_free_smallMmap :
    ∃ p, pmmInit smallMmap = some p ∧ UsableFree smallMmap p := by
  refine ⟨_, rfl, (usable_pages_free smallMmap smallMmap_ok rfl).mpr fun e he hu _ => ?_⟩
  rcases List.mem_cons.mp he with rfl | he
  · decide
  · rw [List.mem_singleton.mp he] at hu
    cases hu

/-- Seven usable pages and nothing above them. -/
def topMmap : List MemmapEntry := [⟨0x1000, 0x7000, .usable⟩]

theorem pmmInit_loses_top :
    MemmapOk topMmap ∧ ∃ p, pmmInit topMmap = some p ∧ ¬ UsableFree topMmap p := by
  refine ⟨⟨List.pairwise_singleton _ _, by decide, by decide⟩, _, rfl, fun h => ?_⟩
  have hpage : (⟨0x1000, 0x7000, .usable⟩ : MemmapEntry).HasPage 2 := ⟨by decide, by decide⟩
  have hfree := h _ List.mem_cons_self rfl 2 hpage (by unfold Reserved; decide)
  exact absurd hfree.2 (by decide)

end SudoOS
