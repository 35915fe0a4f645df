import SudoOS.Proofs.Kmalloc
import SudoOS.Proofs.MapSuccess

/-!
# What a failing `mm_map_range` leaves

When a page is missing, `mm_map_range` gives back the pages it mapped and releases the new area, but
leaves it in the list and counted. So it fails without a trace exactly if it fails before it has
the area (`failure_untouched`): the kernel heap has no block for the latter and cannot make one, for
want of a frame or because its last block is in use and swallows the new pages.
-/

namespace SudoOS

/-! ## What is left behind -/

/-- The page frames that the common loop takes. -/
def Machine.leafFrames (pml4 : ℕ) (flags : BitVec 64) : List ℕ → Machine → List ℕ
  | [], _ => []
  | va :: vas, m =>
    if (m.pmm.pmmAllocPage).1 = 0 then []
    else (m.pmm.pmmAllocPage).1 :: leafFrames pml4 flags vas (m.mapNext pml4 va flags)

namespace Kernel

/-- The page frames that a call of `mm_map_range` takes. -/
def leafFrames (k : Kernel) (mm va size : ℕ) (vmFlags : BitVec 64) : List ℕ :=
  if mm = 0 ∨ size = 0 then []
  else
    match k.kmalloc vmaStructSize with
    | none => []
    | some (vma, km) =>
      if vma = 0 then []
      else
        Machine.leafFrames (k.mms mm).pml4Pa (pteFlagsOf vmFlags)
          (pagesFrom (requestArea mm va size vmFlags).vmStart 0
            (pageCount (requestArea mm va size vmFlags).vmStart
              (requestArea mm va size vmFlags).vmEnd)) km.toMachine

/-- From `k` to `k'` nothing has happened to the address space, and the frames `leaves` are free. -/
structure Untouched (k k' : Kernel) (mm : ℕ) (leaves : List ℕ) : Prop where
  list : (k'.mms mm).vmaList = (k.mms mm).vmaList
  count : (k'.mms mm).mapCount = (k.mms mm).mapCount
  held : ∀ vma ∈ (k'.mms mm).vmaList, Holds k.heap.kheapList (vma, vmaStructSize) →
    Holds k'.heap.kheapList (vma, vmaStructSize)
  user : ∀ va, pml4Idx va < 256 →
    k'.leafEntry (k.mms mm).pml4Pa va = k.leafEntry (k.mms mm).pml4Pa va
  freed : ∀ pa ∈ leaves, ¬ k'.pmm.Busy pa

end Kernel

section Failure

variable {own : ℕ → Prop} {live : List ℕ} {k k' : Kernel} {mm va size : ℕ} {vmFlags : BitVec 64}

/-- A failure before there is an area. -/
theorem untouched_of_kmalloc {km : KMem} {frames : List ℕ} {p : ℕ}
    (hmem : MemInv (fun _ => False) (k.spaces live) frames k.toKMem) (hmm : mm ∈ live)
    (h : k.kmalloc vmaStructSize = some (p, km)) :
    k.Untouched { k with toKMem := km } mm [] := by
  have hkept : MemKept (fun _ => False) (k.spaces live) (fun _ _ => False) k.toKMem km :=
    kmallocLoop_kept hmem (heapClear_false _) h
  obtain ⟨-, hext, -⟩ := KMem.kmallocLoop_spec hmem.heapInv h
  refine ⟨rfl, rfl, fun vma _ hv => hext.holds _ hv, fun va hva => ?_, fun pa hpa => by cases hpa⟩
  exact (hkept.user mm (k.mms mm).pml4Pa (if_pos hmm)).leafEntry_eq
    (UserPath.of_append (leafPath_userPath hva)) fun q hq => hq.elim

/-- `mm_map_range` fails without a trace exactly if it fails before it has its area. -/
theorem failure_untouched (hI : SpacesInv own live k) (hmm : mm = 0 ∨ mm ∈ live)
    (h : k.mmMapRange mm va size vmFlags = some (false, k')) :
    k.Untouched k' mm (k.leafFrames mm va size vmFlags) ↔ mm = 0 ∨ size = 0
      ∨ (k.heap.firstFit vmaStructSize = none
        ∧ ((k.pmm.pmmAllocPage).1 = 0 ∨ ¬ KMem.TailFree k.heap.kheapList)) := by
  obtain ⟨frames, hmem⟩ := hI.clear.mem
  rcases mmMapRange_cases h with
    ⟨-, hargs, rfl⟩ | ⟨hmm0, hs, vma, km, hkm, ⟨-, rfl, rfl⟩ | ⟨hv, hmap⟩⟩
  · refine ⟨fun _ => by tauto, fun _ => ⟨rfl, rfl, fun _ _ hh => hh, fun _ _ => rfl, ?_⟩⟩
    rw [Kernel.leafFrames, if_pos hargs]
    simp
  · have hzero := (KMem.kmalloc_eq_zero_iff (by decide) (by decide) hmem.heapInv hkm).mp rfl
    have hleaf : k.leafFrames mm va size vmFlags = [] := by
      rw [Kernel.leafFrames, if_neg (not_or.mpr ⟨hmm0, hs.ne'⟩), hkm]
      exact if_pos rfl
    rw [hleaf]
    refine ⟨fun _ => .inr (.inr hzero), fun _ => ?_⟩
    exact untouched_of_kmalloc hmem (hmm.resolve_left hmm0) hkm
  · have hsome := (KMem.kmalloc_eq_zero_iff (by decide) (by decide) hmem.heapInv hkm).not.mp hv
    refine ⟨fun hu => ?_, fun hcond => ?_⟩
    swap
    · exact absurd ((hcond.resolve_left hmm0).resolve_left hs.ne') hsome
    have hlist := hu.list
    have hmms := mapArea_mms { k with toKMem := km } mm vma (requestArea mm va size vmFlags)
    rw [hmap] at hmms
    dsimp only at hmms
    rw [hmms, Kernel.linkVma_mms, if_pos rfl] at hlist
    simp at hlist

end Failure

/-- The booted kernel after one `mm_alloc`, and a call on the new address space. -/
def firstCall (size : ℕ) : Option (MmRun × Bool × Kernel) :=
  bootKernel.bind fun k => (Run.run mmStep ⟨k, []⟩ [.mmAlloc]).bind fun s =>
    (s.k.mmMapRange firstMm 0x400000 size vmRead).map fun r => (s, r)

theorem firstCall_inv {size : ℕ} {s : MmRun} {r : Bool × Kernel}
    (h : firstCall size = some (s, r)) :
    SpacesInv (fun _ => False) s.live s.k ∧ firstMm ∈ s.live
      ∧ s.k.mmMapRange firstMm 0x400000 size vmRead = some r := by
  obtain ⟨k, hk, h⟩ := Option.bind_eq_some_iff.mp h
  obtain ⟨s', hs, h⟩ := Option.bind_eq_some_iff.mp h
  obtain ⟨r', hr, heq⟩ := Option.map_eq_some_iff.mp h
  obtain ⟨rfl, rfl⟩ := Prod.mk.inj heq
  have hrun : (bootKernel.bind fun k => (Run.run mmStep ⟨k, []⟩ [.mmAlloc]).map fun s =>
      (s.live, decide (Run.Meets mmStep MmOk ⟨k, []⟩ [.mmAlloc]))) = some ([firstMm], true) := by
    decide +kernel
  rw [hk, Option.bind_some, hs] at hrun
  simp only [Option.map_some, Option.some.injEq, Prod.mk.injEq] at hrun
  refine ⟨mmRun_inv (by unfold MemoryFits; decide) hk (of_decide_eq_true hrun.2) hs, ?_, hr⟩
  rw [hrun.1]
  exact List.mem_singleton_self _

/-- All frames are taken, and the failing one of these calls has joined the rest of the heap to a
block in use: `kmalloc` refuses the area. -/
theorem failure_untouched_bootMmap :
    ∃ k s k', bootKernel = some k
      ∧ Run.run mmStep ⟨k, []⟩ (List.replicate 29 .mmAlloc) = some s
      ∧ s.k.mmMapRange firstMm 0x400000 0x1000 vmRead = some (false, k')
      ∧ s.k.Untouched k' firstMm (s.k.leafFrames firstMm 0x400000 0x1000 vmRead) := by
  have hrun : (bootKernel.bind fun k =>
      (Run.run mmStep ⟨k, []⟩ (List.replicate 29 .mmAlloc)).bind fun s =>
        (s.k.mmMapRange firstMm 0x400000 0x1000 vmRead).map fun r =>
          (r.1, decide (Run.Meets mmStep MmOk ⟨k, []⟩ (List.replicate 29 .mmAlloc)),
            decide (firstMm ∈ s.live), (s.k.heap.firstFit vmaStructSize).isNone,
            decide ((s.k.pmm.pmmAllocPage).1 = 0))) = some (false, true, true, true, true) := by
    decide +kernel
  obtain ⟨k, hk, hrun⟩ := Option.bind_eq_some_iff.mp hrun
  obtain ⟨s, hs, hrun⟩ := Option.bind_eq_some_iff.mp hrun
  obtain ⟨⟨ok, k'⟩, hr, hrun⟩ := Option.map_eq_some_iff.mp hrun
  obtain ⟨rfl, hmeets, hmm, hnone, h0⟩ : ok = false ∧ _ ∧ _ ∧ _ ∧ _ := by
    simpa only [Prod.mk.injEq] using hrun
  have hI := mmRun_inv (by unfold MemoryFits; decide) hk (of_decide_eq_true hmeets) hs
  refine ⟨k, s, k', hk, hs, hr,
    (failure_untouched hI (.inr (of_decide_eq_true hmm)) hr).mpr (.inr (.inr ⟨?_, .inl ?_⟩))⟩
  · exact Option.isNone_iff_eq_none.mp hnone
  · exact of_decide_eq_true h0

/-- A range of more pages than there are: the area stays in the list, and its block is released. -/
theorem mmMapRange_leaves_area :
    ∃ s k', firstCall 0x100000 = some (s, false, k')
      ∧ SpacesInv (fun _ => False) s.live s.k ∧ firstMm ∈ s.live
      ∧ (s.k.mms firstMm).vmaList = [] ∧ (k'.mms firstMm).vmaList = [secondMm]
      ∧ ¬ Holds k'.heap.kheapList (secondMm, vmaStructSize)
      ∧ ¬ s.k.Untouched k' firstMm (s.k.leafFrames firstMm 0x400000 0x100000 vmRead) := by
  obtain ⟨⟨s, ok, k'⟩, h, heq⟩ := Option.map_eq_some_iff.mp
    (show (firstCall 0x100000).map (fun r => (r.2.1, (r.1.k.mms firstMm).vmaList,
      (r.2.2.mms firstMm).vmaList, decide (Holds r.2.2.heap.kheapList (secondMm, vmaStructSize))))
        = some (false, [], [secondMm], false) by decide +kernel)
  simp only [Prod.mk.injEq] at heq
  obtain ⟨rfl, hlist, hlist', hheld⟩ := heq
  obtain ⟨hI, hmm, hr⟩ := firstCall_inv h
  refine ⟨s, k', h, hI, hmm, hlist, hlist', of_decide_eq_false hheld, fun hu => ?_⟩
  have := hu.list
  rw [hlist, hlist'] at this
  cases this

end SudoOS
