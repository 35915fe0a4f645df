import SudoOS.Proofs.Elf
import SudoOS.Proofs.MapSuccess

/-!
# The end of a range

`mm_map_range` rounds its range outwards modulo `2 ^ 64`. A range whose rounded end is `2 ^ 64`
still has the right number of pages, unless it begins in page zero: then it has none. Beyond that
the end wraps, and the call maps what is left of the range and succeeds. In all other cases the
pages it maps cover the range (`range_covered`), and so for the break that `SYS_BRK` moves.
-/

namespace SudoOS

/-- Every address in the range is mapped to a frame that was not taken in `m`. -/
def Covers (m m' : Machine) (pml4 va size : ℕ) : Prop :=
  ∀ x, va ≤ x → x < va + size → x < 2 ^ 64
    ∧ ∃ pa, m'.frameAt pml4 x = some pa ∧ ¬ m.pmm.Busy pa ∧ m'.pmm.Busy pa

section Range

variable {k k' : Kernel} {km : KMem} {m m' : Machine} {pml4 mm vma va size : ℕ}
  {vmFlags : BitVec 64}

theorem MapsEach.covers (h : MapsEach m m' pml4 (pagesFrom (va / 4096 * 4096) 0
    (pageSpan va size))) (hend : roundedEnd va size ≤ 2 ^ 64) : Covers m m' pml4 va size := by
  intro x hx hlt
  unfold roundedEnd at hend
  have hpage : x / 4096 - va / 4096 < pageSpan va size := by
    unfold pageSpan
    omega
  obtain ⟨pa, hpa, hrest⟩ := h.mapped _ (mem_pagesFrom hpage)
  refine ⟨by omega, pa, ?_, hrest⟩
  rw [← hpa]
  apply frameAt_congr
  rw [leafPath_eq_iff]
  unfold u64 pageSize
  omega

theorem Covers.le (h : Covers m m' pml4 va size) (hs : 0 < size) : roundedEnd va size ≤ 2 ^ 64 := by
  have hlast := (h (va + size - 1) (by omega) (by omega)).1
  unfold roundedEnd
  omega

/-- The frames suffice for what the call, once it has its area, asks for. -/
def Kernel.HasFrames (k : Kernel) (km : KMem) (mm va size : ℕ) (vmFlags : BitVec 64) : Prop :=
  km.framesFor (k.mms mm).pml4Pa (pagesFrom (va / 4096 * 4096) 0
    (Kernel.pageCount (va / 4096 * 4096) (requestArea mm va size vmFlags).vmEnd))
      ≤ km.pmm.freePages

theorem mmMapRange_of_frames (hmm : mm ≠ 0) (hva : va < 2 ^ 64) (hs : 0 < size)
    (hkm : k.kmalloc vmaStructSize = some (vma, km)) (hvma : vma ≠ 0)
    (hinv : MapInv (k.mms mm).pml4Pa km.toMachine) (hfit : k.HasFrames km mm va size vmFlags) :
    ∃ k', k.mmMapRange mm va size vmFlags = some (true, k')
      ∧ (Covers km.toMachine k'.toMachine (k.mms mm).pml4Pa va size ↔ EndOk va size) := by
  obtain ⟨m', he, hmaps⟩ := mapEach_enough (pteFlagsOf_ok vmFlags) hinv hfit
  have hstart : (requestArea mm va size vmFlags).vmStart = va / 4096 * 4096 := alignDown_eq hva
  have he' := he
  rw [← hstart] at he'
  refine ⟨_, mmMapRange_true_iff.mpr ⟨hmm, by omega, vma, km, m', hkm, hvma, he', rfl⟩, ?_⟩
  constructor
  · intro hcov
    by_contra hend
    have hle := hcov.le hs
    have heq : roundedEnd va size = 2 ^ 64 ∧ va < 4096 := by
      unfold EndOk at hend
      omega
    rw [requestArea_pages_zero heq.1 heq.2] at he
    obtain rfl := congrArg Prod.snd he
    obtain ⟨-, pa, -, hnb, hb⟩ := hcov va le_rfl (by omega)
    exact hnb hb
  · intro hend
    rw [requestArea_pages hend hs] at hmaps
    exact hmaps.covers hend.le

/-- The break, where it moves, is the end of a range mapped by `mm_map_range`. -/
theorem sysBrk_of_mmMapRange {newBrk : ℕ} (hlt : (k.mms mm).heap < newBrk)
    (h : k.mmMapRange mm (k.mms mm).heap (newBrk - (k.mms mm).heap) (vmRead ||| vmWrite ||| vmHeap)
      = some (true, k')) :
    k.sysBrk mm newBrk = some (newBrk, k'.setMm mm { k'.mms mm with heap := newBrk }) := by
  unfold Kernel.sysBrk
  dsimp only
  rw [if_neg (by omega), if_pos hlt, h]

end Range

/-- The pages of a range are mapped, and a range that cannot be is refused, exactly if the range
ends well; and so for the range by which `SYS_BRK` moves the break. The frames suffice in both. -/
theorem range_covered {k : Kernel} {km : KMem} {mm vma : ℕ} (hmm : mm ≠ 0)
    (hkm : k.kmalloc vmaStructSize = some (vma, km)) (hvma : vma ≠ 0)
    (hinv : MapInv (k.mms mm).pml4Pa km.toMachine) :
    (∀ va size vmFlags, va < 2 ^ 64 → 0 < size → k.HasFrames km mm va size vmFlags →
        (((∀ k', k.mmMapRange mm va size vmFlags = some (true, k') →
              Covers km.toMachine k'.toMachine (k.mms mm).pml4Pa va size)
            ∧ (2 ^ 64 < roundedEnd va size →
              ∀ ok k', k.mmMapRange mm va size vmFlags = some (ok, k') → ok = false))
          ↔ EndOk va size))
      ∧ ∀ newBrk, newBrk < 2 ^ 64 →
        k.HasFrames km mm (k.mms mm).heap (newBrk - (k.mms mm).heap)
          (vmRead ||| vmWrite ||| vmHeap) →
        ((∀ k', k.sysBrk mm newBrk = some (newBrk, k') →
            Covers km.toMachine k'.toMachine (k.mms mm).pml4Pa (k.mms mm).heap
              (newBrk - (k.mms mm).heap))
          ↔ ((k.mms mm).heap < newBrk →
            EndOk (k.mms mm).heap (newBrk - (k.mms mm).heap))) := by
  refine ⟨fun va size vmFlags hva hs hfit => ?_, fun newBrk hbrk hfit => ?_⟩
  · obtain ⟨k₁, hk₁, hiff⟩ := mmMapRange_of_frames hmm hva hs hkm hvma hinv hfit
    constructor
    · rintro ⟨hcov, -⟩
      exact hiff.mp (hcov k₁ hk₁)
    · intro hend
      refine ⟨fun k' hk' => ?_, fun hover => absurd hend.le (by omega)⟩
      obtain ⟨-, rfl⟩ := Prod.mk.inj (Option.some.inj (hk₁.symm.trans hk'))
      exact hiff.mpr hend
  · rcases lt_or_ge (k.mms mm).heap newBrk with hlt | hge
    · obtain ⟨k₁, hk₁, hiff⟩ := mmMapRange_of_frames hmm (hlt.trans hbrk) (by omega) hkm hvma
        hinv hfit
      have hret := sysBrk_of_mmMapRange hlt hk₁
      constructor
      · intro hcov _
        have hrange := hcov _ hret
        exact hiff.mp hrange
      · intro hend k' hk'
        obtain ⟨-, rfl⟩ := Prod.mk.inj (Option.some.inj (hret.symm.trans hk'))
        exact hiff.mpr (hend hlt)
    · refine ⟨fun _ hlt => absurd hlt (by omega), fun _ k' _ x hx hlt => ?_⟩
      omega

theorem range_covered_oneMmKernel :
    ∃ km k', (oneMmKernel (framesLeft 3)).kmalloc vmaStructSize = some (kernelHeapBase + 168, km)
      ∧ (oneMmKernel (framesLeft 3)).sysBrk onlyMm 0x1000 = some (0x1000, k')
      ∧ Covers km.toMachine k'.toMachine 0x2000 0 0x1000 := by
  obtain ⟨km, hkm, hmach⟩ := oneMmKernel_kmalloc (framesLeft 3)
  obtain ⟨⟨ret, k'⟩, hk', rfl⟩ := Option.map_eq_some_iff.mp
    (show ((oneMmKernel (framesLeft 3)).sysBrk onlyMm 0x1000).map Prod.fst = some 0x1000 by
      decide +kernel)
  refine ⟨km, k', hkm, hk', ?_⟩
  refine ((range_covered (by decide) hkm (by decide) (oneMmKernel_mapInv (.inl rfl) hkm)).2
    0x1000 (by decide) ?_).mpr (fun _ => by decide) k' hk'
  unfold Kernel.HasFrames
  rw [hmach]
  decide +kernel

/-- The break of a process that has none yet, moved to the last address: nothing is mapped. -/
theorem sysBrk_unmapped :
    ∃ km k', (oneMmKernel (framesLeft 3)).kmalloc vmaStructSize = some (kernelHeapBase + 168, km)
      ∧ MapInv 0x2000 km.toMachine
      ∧ (oneMmKernel (framesLeft 3)).HasFrames km onlyMm 0 (2 ^ 64 - 1)
        (vmRead ||| vmWrite ||| vmHeap)
      ∧ (oneMmKernel (framesLeft 3)).sysBrk onlyMm (2 ^ 64 - 1) = some (2 ^ 64 - 1, k')
      ∧ k'.frameAt 0x2000 0x400000 = none := by
  obtain ⟨km, hkm, hmach⟩ := oneMmKernel_kmalloc (framesLeft 3)
  obtain ⟨⟨ret, k'⟩, hk', heq⟩ := Option.map_eq_some_iff.mp
    (show ((oneMmKernel (framesLeft 3)).sysBrk onlyMm (2 ^ 64 - 1)).map
      (fun r => (r.1, r.2.frameAt 0x2000 0x400000)) = some (2 ^ 64 - 1, none) by decide +kernel)
  obtain ⟨rfl, hnone⟩ := Prod.mk.inj heq
  refine ⟨km, k', hkm, oneMmKernel_mapInv (.inl rfl) hkm, ?_, hk', hnone⟩
  unfold Kernel.HasFrames
  rw [hmach]
  decide +kernel

/-- A range beyond the last address: its pages are mapped at the other end of the address space. -/
theorem mmMapRange_wraps :
    ∃ k', (oneMmKernel (framesLeft 3)).mmMapRange onlyMm (2 ^ 64 - 4096) 8192 vmRead
        = some (true, k')
      ∧ 2 ^ 64 < roundedEnd (2 ^ 64 - 4096) 8192 ∧ k'.frameAt 0x2000 0 ≠ none := by
  obtain ⟨⟨ok, k'⟩, hk', heq⟩ := Option.map_eq_some_iff.mp
    (show ((oneMmKernel (framesLeft 3)).mmMapRange onlyMm (2 ^ 64 - 4096) 8192 vmRead).map
      (fun r => (r.1, r.2.frameAt 0x2000 0)) = some (true, some 0x7000) by decide +kernel)
  obtain ⟨rfl, hmapped⟩ := Prod.mk.inj heq
  exact ⟨k', hk', by decide, by simp [hmapped]⟩

end SudoOS
