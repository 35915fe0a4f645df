import SudoOS.Proofs.Ownership
import SudoOS.Proofs.Kheap

/-!
# Isolation of address spaces

All frames in use are nodes of one forest: the kernel's tables, a tree of one node for each page
of the heap, and the user half of each address space. The heap pages are in it because they are
never given back, which bounds `kheap_top` through any number of processes (`MemInv.heapInv`).

The operations of `vmm.c` keep the forest, so no frame is reached twice, as long as `kmalloc` does
not hand out a live structure again. It does so after `kfree` has absorbed a live block, or after a
failed `mm_map_range` has released an area that stays linked: `frames_isolated` asks that every
live structure be in a block in use whenever `kmalloc` is called.
-/

namespace SudoOS

/-! ## The trees -/

inductive Tree
  | kernel
  | heapPage (j : ℕ)
  | mm (a : ℕ)
  deriving DecidableEq

/-- The root of each tree: `frames` are those of the heap, and `spaces` the PML4 of each live
address space. -/
def treeRoot (kernelPml4 : ℕ) (frames : List ℕ) (spaces : ℕ → Option ℕ) : Tree → Option ℕ
  | .kernel => some kernelPml4
  | .heapPage j => frames[j]?
  | .mm a => spaces a

/-- Paths of the kernel's tree: those to tables and, in the top-level slots of `own`, those to
pages. -/
def KernelPath (own : ℕ → Prop) (p : List ℕ) : Prop :=
  TablePath p ∨ (p.length = 4 ∧ (∀ i ∈ p, i < 512) ∧ ∃ i ∈ p.head?, own i)

def treePath (own : ℕ → Prop) : Tree → List ℕ → Prop
  | .kernel, p => KernelPath own p
  | .heapPage _, p => p = []
  | .mm _, p => UserPath p

section Paths

variable {own : ℕ → Prop}

theorem UserPath.of_append {p s : List ℕ} (h : UserPath (p ++ s)) : UserPath p := by
  obtain ⟨h1, h2, h3⟩ := h
  rw [List.length_append] at h1
  refine ⟨by omega, fun i hi => h2 i (List.mem_append_left _ hi), fun i hi => h3 i ?_⟩
  rw [List.head?_append]
  simp [Option.mem_def.mp hi]

theorem closed_treePath : Radix.Closed (treePath own) := by
  intro k p i h
  cases k with
  | kernel =>
    rcases h with h | ⟨h1, h2, -⟩
    · exact .inl (closed_tablePath () p i h)
    · rw [List.length_append, List.length_singleton] at h1
      exact .inl ⟨by omega, fun j hj => h2 j (List.mem_append_left _ hj)⟩
  | heapPage j => simp [treePath] at h
  | mm a => exact UserPath.of_append h

theorem treePath_mono (t : Tree) (p : List ℕ) (h : treePath (fun _ => False) t p) :
    treePath own t p := by
  cases t with
  | kernel => exact .inl (h.resolve_right fun ⟨_, _, _, _, hc⟩ => hc)
  | heapPage j => exact h
  | mm a => exact h

theorem pml4Idx_user {va : ℕ} (h : va < 2 ^ 47) : pml4Idx va < 256 := by
  rw [pml4Idx_eq]
  omega

theorem leafPath_userPath {va : ℕ} (h : pml4Idx va < 256) : UserPath (leafPath va) := by
  refine ⟨le_rfl, leafPath_lt va, fun i hi => ?_⟩
  simp only [leafPath, tablePath, List.cons_append, List.head?_cons, Option.mem_def,
    Option.some.injEq] at hi
  exact hi ▸ h

theorem isLeaf_mm {a : ℕ} {p : List ℕ} (h : UserPath p) (h4 : p.length = 4) :
    IsLeaf (treePath own) (.mm a) p := by
  refine ⟨h, fun j hj => ?_⟩
  have := hj.1
  rw [List.length_append, h4] at this
  simp at this

theorem isLeaf_leafPath (a : ℕ) {va : ℕ} (h : pml4Idx va < 256) :
    IsLeaf (treePath own) (.mm a) (leafPath va) :=
  isLeaf_mm (leafPath_userPath h) rfl

theorem isLeaf_kernel {va : ℕ} (h : own (pml4Idx va)) :
    IsLeaf (treePath own) .kernel (leafPath va) := by
  refine ⟨.inr ⟨rfl, leafPath_lt va, pml4Idx va, rfl, h⟩, fun j => ?_⟩
  rintro (⟨hc, -⟩ | ⟨hc, -⟩)
  · simp [leafPath_length] at hc
  · simp [leafPath_length] at hc

theorem not_kernel_leafPath {va : ℕ} (h : ¬ own (pml4Idx va)) :
    ¬ treePath own .kernel (leafPath va) := by
  rintro (⟨hc, -⟩ | ⟨-, -, i, hi, hc⟩)
  · rw [leafPath_length] at hc
    omega
  · obtain rfl : pml4Idx va = i := Option.some.inj hi
    exact h hc

end Paths

theorem kernelFlags_ok : FlagsOk kernelFlags := ⟨by decide, by decide⟩

theorem pteFlagsOf_ok (vmFlags : BitVec 64) : FlagsOk (pteFlagsOf vmFlags) := by
  unfold pteFlagsOf
  split_ifs
  · exact ⟨by decide, by decide⟩
  · exact ⟨by decide, by decide⟩

/-! ## Kernel memory -/

/-- Kernel memory with the given heap frames and address spaces. -/
structure MemInv (own : ℕ → Prop) (spaces : ℕ → Option ℕ) (frames : List ℕ) (k : KMem) : Prop where
  tables : TablesOk (treeRoot k.kernelPml4 frames spaces) (treePath own) k.toMachine
  tiles : TilesBlocks kernelHeapBase k.heap.kheapList k.heap.kheapTop
  top : k.heap.kheapTop = kernelHeapBase + pageSize * frames.length
  bound : kernelHeapBase + pageSize * k.pmm.totalPages < 2 ^ 64

/-- The paths to the pages that the heap gains when its top moves. -/
def HeapPath (top top' : ℕ) (p : List ℕ) : Prop := ∃ va, top ≤ va ∧ va < top' ∧ p = leafPath va

/-- The step keeps kernel memory, and touches the paths in `T` and those to new heap pages. -/
structure MemKept (own : ℕ → Prop) (spaces : ℕ → Option ℕ) (T : Tree → List ℕ → Prop)
    (k k' : KMem) : Prop where
  mem : ∃ frames, MemInv own spaces frames k'
  pml4 : k'.kernelPml4 = k.kernelPml4
  top : k.heap.kheapTop ≤ k'.heap.kheapTop
  user : ∀ a pml4, spaces a = some pml4 →
    Touches UserPath pml4 (T (.mm a)) k.toMachine k'.toMachine
  kernel : Touches (KernelPath own) k.kernelPml4
    (fun p => T .kernel p ∨ HeapPath k.heap.kheapTop k'.heap.kheapTop p) k.toMachine k'.toMachine

/-- The heap is outside the slots of `own`. -/
def HeapClear (own : ℕ → Prop) (top : ℕ) : Prop :=
  ∀ va, kernelHeapBase ≤ va → va ≤ top → ¬ own (pml4Idx va)

theorem HeapClear.mono {own : ℕ → Prop} {top top' : ℕ} (h : HeapClear own top')
    (htop : top ≤ top') : HeapClear own top := fun va h1 h2 => h va h1 (h2.trans htop)

theorem heapClear_false (top : ℕ) : HeapClear (fun _ => False) top := fun _ _ _ hc => hc

section Memory

variable {own : ℕ → Prop} {spaces : ℕ → Option ℕ} {frames : List ℕ} {T : Tree → List ℕ → Prop}
  {k k' k'' : KMem}

theorem MemKept.refl (h : MemInv own spaces frames k) : MemKept own spaces T k k :=
  ⟨⟨frames, h⟩, rfl, le_rfl, fun _ _ _ => Touches.refl, Touches.refl⟩

theorem MemKept.mono {T' : Tree → List ℕ → Prop} (h : MemKept own spaces T k k')
    (hT : ∀ t p, T t p → T' t p) : MemKept own spaces T' k k' where
  mem := h.mem
  pml4 := h.pml4
  top := h.top
  user a pml4 ha := (h.user a pml4 ha).mono (hT _)
  kernel := h.kernel.mono fun p hp => hp.imp_left (hT _ p)

theorem MemKept.trans (h : MemKept own spaces T k k') (h' : MemKept own spaces T k' k'') :
    MemKept own spaces T k k'' := by
  refine ⟨h'.mem, h'.pml4.trans h.pml4, h.top.trans h'.top,
    fun a pml4 ha => (h.user a pml4 ha).trans (h'.user a pml4 ha), ?_⟩
  have h1 := h.top
  have h2 := h'.top
  have hk' := h'.kernel
  rw [h.pml4] at hk'
  refine (h.kernel.mono ?_).trans (hk'.mono ?_)
  · rintro p (hp | ⟨va, hva, hva', rfl⟩)
    · exact .inl hp
    · exact .inr ⟨va, hva, by omega, rfl⟩
  · rintro p (hp | ⟨va, hva, hva', rfl⟩)
    · exact .inl hp
    · exact .inr ⟨va, by omega, hva', rfl⟩

/-- A step of the page tables alone. -/
theorem Kept.memKept {S : Tree → List ℕ → Prop} {m' : Machine} (hI : MemInv own spaces frames k)
    (h : Kept (treeRoot k.kernelPml4 frames spaces) (treePath own) S k.toMachine m')
    (hS : ∀ t p, S t p → T t p) : MemKept own spaces T k { k with toMachine := m' } := by
  refine ⟨⟨frames, h.tables, hI.tiles, hI.top, ?_⟩, rfl, le_rfl,
    fun a pml4 ha => (h.touches (.mm a) pml4 ha).mono (hS _),
    (h.touches .kernel k.kernelPml4 rfl).mono fun p hp => .inl (hS _ p hp)⟩
  dsimp only
  rw [h.total]
  exact hI.bound

/-- The same memory seen with pages in no slot. -/
theorem MemInv.clear (h : MemInv own spaces frames k) : MemInv (fun _ => False) spaces frames k :=
  ⟨h.tables.mono_adm treePath_mono, h.tiles, h.top, h.bound⟩

theorem MemInv.frames_nodup (h : MemInv own spaces frames k) : frames.Nodup := by
  rw [List.nodup_iff_getElem?_ne_getElem?]
  intro i j hij hj heq
  have hi := heq.trans (List.getElem?_eq_getElem hj)
  have hnode : ∀ j, k.node (treeRoot k.kernelPml4 frames spaces) (.heapPage j) [] = frames[j]? :=
    fun j => Radix.node_nil _ _ _
  obtain ⟨hij', -⟩ := h.tables.forest (.heapPage i) [] (.heapPage j) [] _ rfl rfl
    ((hnode i).trans hi) ((hnode j).trans (List.getElem?_eq_getElem hj))
  simp only [Tree.heapPage.injEq] at hij'
  omega

theorem MemInv.frames_busy (h : MemInv own spaces frames k) : ∀ n ∈ frames, k.pmm.Busy n := by
  intro n hn
  obtain ⟨j, hj, rfl⟩ := List.getElem_of_mem hn
  refine h.tables.busy (.heapPage j) [] _ rfl ?_
  exact (Radix.node_nil _ _ _).trans (List.getElem?_eq_getElem hj)

/-- The heap has room for every frame that is left. -/
theorem MemInv.heapInv (h : MemInv own spaces frames k) : k.HeapInv := by
  refine ⟨h.tiles, ?_⟩
  have hcount := h.tables.pmm.length_add_freePages h.frames_nodup h.frames_busy
  have := h.bound
  rw [h.top]
  unfold pageSize at this ⊢
  omega

theorem MemInv.base_le_top (h : MemInv own spaces frames k) :
    kernelHeapBase ≤ k.heap.kheapTop := by
  rw [h.top]
  exact Nat.le_add_right _ _

theorem MemInv.setHeap (h : MemInv own spaces frames k) {heap : Heap}
    (ht : TilesBlocks kernelHeapBase heap.kheapList heap.kheapTop)
    (htop : heap.kheapTop = k.heap.kheapTop) : MemKept own spaces T k { k with heap := heap } :=
  ⟨⟨frames, h.tables, ht, htop.trans h.top, h.bound⟩, rfl, htop.ge, fun _ _ _ => Touches.refl,
    Touches.refl⟩

theorem MemInv.kfree (h : MemInv own spaces frames k) (ptr : ℕ) :
    MemKept own spaces T k (k.kfree ptr) := by
  have htop := Heap.kfree_kheapTop k.heap ptr
  refine h.setHeap ?_ htop
  rw [htop]
  exact Heap.kfree_tiles h.tiles h.heapInv.top_lt ptr

/-- One page more for the heap. -/
theorem MemInv.grown (h : MemInv own spaces frames k) (h0 : (k.pmm.pmmAllocPage).1 ≠ 0)
    (hclear : ¬ own (pml4Idx k.heap.kheapTop)) : MemKept own spaces T k k.grown := by
  have halloc := h.tables.alloc (T := fun t p => t = .kernel ∧ p = leafPath k.heap.kheapTop)
    closed_treePath
  obtain ⟨-, -, -, a4⟩ := Pmm.pmmAllocPage_spec h.tables.pmm
  obtain ⟨hv, hbusy⟩ := a4 h0
  obtain ⟨hmap, hfresh⟩ := vmmMapPage_outside Tree.kernel closed_treePath halloc.tables
    (k.pmm.pmmAllocPage).1 rfl (.inl (tablePath_ok k.heap.kheapTop)) (not_kernel_leafPath hclear)
    kernelFlags_ok
  have hkept := halloc.trans hmap
  obtain ⟨hb, hf⟩ := hfresh _ ((hbusy _).mpr (.inr rfl))
  have hf := hf (h.tables.fresh_of_vacant hv)
  obtain ⟨hheap, -, htop, -⟩ := KMem.grown_spec h.heapInv h0
  refine ⟨⟨frames ++ [(k.pmm.pmmAllocPage).1], ?_, hheap.tiles, ?_, ?_⟩, rfl, by omega,
    fun a pml4 ha => ?_, ?_⟩
  · refine hkept.tables.addRoot (.heapPage frames.length) closed_treePath ?_ ?_ ?_ hb hf
    · simp [treeRoot]
    · intro t ht
      cases t with
      | kernel => rfl
      | mm a => rfl
      | heapPage j =>
        have hj : j ≠ frames.length := fun hc => ht (hc ▸ rfl)
        simp only [treeRoot]
        rcases Nat.lt_or_gt_of_ne hj with hlt | hgt
        · rw [List.getElem?_append_left hlt]
        · rw [List.getElem?_eq_none (by simp; omega), List.getElem?_eq_none (by omega)]
    · intro j hj
      simp [treePath] at hj
  · rw [htop, h.top, List.length_append, List.length_singleton]
    ring
  · rw [show k.grown.pmm.totalPages = k.pmm.totalPages from hkept.total]
    exact h.bound
  · refine (hkept.touches (.mm a) pml4 ha).mono ?_
    rintro p ⟨hc, -⟩
    cases hc
  · refine (hkept.touches .kernel k.kernelPml4 rfl).mono ?_
    rintro p ⟨-, rfl⟩
    refine .inr ⟨_, le_rfl, ?_, rfl⟩
    rw [htop]
    unfold pageSize
    omega

theorem kheapExpand_kept : ∀ {n : ℕ} {frames : List ℕ} {k k' : KMem} {ok : Bool},
    MemInv own spaces frames k → HeapClear own k'.heap.kheapTop →
      KMem.kheapExpand n k = some (ok, k') → MemKept own spaces T k k'
  | 0, frames, k, k', ok, hk, _, h => by
    simp only [KMem.kheapExpand, Option.some.injEq, Prod.mk.injEq] at h
    exact h.2 ▸ MemKept.refl hk
  | n + 1, frames, k, k', ok, hk, hclear, h => by
    have htop := (KMem.kheapExpand_spec hk.heapInv h).2.1.top
    rcases KMem.kheapExpand_cases h with ⟨-, -, rfl⟩ | ⟨h0, -, h⟩
    · exact (hk.tables.alloc closed_treePath).memKept hk fun _ _ hc => hc
    · have hstep := hk.grown (T := T) h0 (hclear _ hk.base_le_top htop)
      obtain ⟨frames', hk'⟩ := hstep.mem
      exact hstep.trans (kheapExpand_kept hk' hclear h)

theorem kmallocLoop_kept : ∀ {fuel size : ℕ} {frames : List ℕ} {k k' : KMem} {p : ℕ},
    MemInv own spaces frames k → HeapClear own k'.heap.kheapTop →
      KMem.kmallocLoop fuel size k = some (p, k') → MemKept own spaces T k k'
  | 0, size, frames, k, k', p, hk, _, h => by
    simp only [KMem.kmallocLoop, Option.some.injEq, Prod.mk.injEq] at h
    exact h.2 ▸ MemKept.refl hk
  | fuel + 1, size, frames, k, k', p, hk, hclear, h => by
    unfold KMem.kmallocLoop at h
    dsimp only at h
    rcases hff : k.heap.firstFit (alignUp size 8) with _ | t <;> rw [hff] at h
    · dsimp only at h
      rcases he : KMem.kheapExpand (KMem.pgNeeded (alignUp size 8)) k with _ | ⟨ok, k₁⟩ <;>
        rw [he] at h
      · cases h
      · cases ok with
        | false =>
          simp only [Option.some.injEq, Prod.mk.injEq] at h
          obtain ⟨-, rfl⟩ := h
          exact kheapExpand_kept hk hclear he
        | true =>
          have htop := (KMem.kmallocLoop_spec (KMem.kheapExpand_spec hk.heapInv he).1 h).2.1.top
          have hstep := kheapExpand_kept (T := T) hk (hclear.mono htop) he
          obtain ⟨frames₁, hk₁⟩ := hstep.mem
          exact hstep.trans (kmallocLoop_kept hk₁ hclear h)
    · simp only [Option.some.injEq, Prod.mk.injEq] at h
      rw [← h.2]
      exact hk.setHeap (KMem.carve_spec hk.heapInv hff).1.tiles rfl

end Memory

/-! ## Address spaces -/

/-- The PML4 of each live address space. -/
def Kernel.spaces (k : Kernel) (live : List ℕ) (a : ℕ) : Option ℕ :=
  if a ∈ live then some (k.mms a).pml4Pa else none

/-- An area in the user half. -/
def AreaOk (v : VmaStruct) : Prop := v.vmStart ≤ v.vmEnd ∧ v.vmEnd ≤ 2 ^ 47

structure SpacesInv (own : ℕ → Prop) (live : List ℕ) (k : Kernel) : Prop where
  mem : ∃ frames, MemInv own (k.spaces live) frames k.toKMem
  nodup : live.Nodup
  nonzero : ∀ a ∈ live, a ≠ 0
  areas : ∀ a ∈ live, ∀ v ∈ (k.mms a).vmaList, AreaOk (k.vmas v)

/-- The step keeps the address spaces, and touches the paths in `T` and new heap pages. -/
structure SpacesKept (own : ℕ → Prop) (live : List ℕ) (T : Tree → List ℕ → Prop) (k k' : Kernel) :
    Prop where
  inv : SpacesInv own live k'
  roots : k'.spaces live = k.spaces live
  lists : ∀ a ∈ live, (k.mms a).vmaList <+: (k'.mms a).vmaList
  kept : MemKept own (k.spaces live) T k.toKMem k'.toKMem

section Spaces

variable {own : ℕ → Prop} {live : List ℕ} {T T' : Tree → List ℕ → Prop} {k k' k'' : Kernel}

theorem SpacesKept.refl (h : SpacesInv own live k) : SpacesKept own live T k k := by
  obtain ⟨frames, hm⟩ := h.mem
  exact ⟨h, rfl, fun _ _ => List.prefix_rfl, MemKept.refl hm⟩

theorem SpacesKept.trans (h : SpacesKept own live T k k') (h' : SpacesKept own live T k' k'') :
    SpacesKept own live T k k'' := by
  have hk' := h'.kept
  rw [h.roots] at hk'
  exact ⟨h'.inv, h'.roots.trans h.roots, fun a ha => (h.lists a ha).trans (h'.lists a ha),
    h.kept.trans hk'⟩

theorem SpacesKept.mono (h : SpacesKept own live T k k') (hT : ∀ t p, T t p → T' t p) :
    SpacesKept own live T' k k' :=
  ⟨h.inv, h.roots, h.lists, h.kept.mono hT⟩

theorem SpacesKept.pml4Pa (h : SpacesKept own live T k k') {a : ℕ} (ha : a ∈ live) :
    (k'.mms a).pml4Pa = (k.mms a).pml4Pa := by
  have hroot : k.spaces live a = some (k.mms a).pml4Pa := if_pos ha
  have hroot' : k'.spaces live a = some (k'.mms a).pml4Pa := if_pos ha
  rw [h.roots, hroot] at hroot'
  exact (Option.some.inj hroot').symm

/-- A step of kernel memory alone. -/
theorem SpacesInv.setMem (h : SpacesInv own live k) {km : KMem}
    (hkm : MemKept own (k.spaces live) T k.toKMem km) :
    SpacesKept own live T k { k with toKMem := km } :=
  ⟨⟨hkm.mem, h.nodup, h.nonzero, h.areas⟩, rfl, fun _ _ => List.prefix_rfl, hkm⟩

theorem SpacesInv.kfree (h : SpacesInv own live k) (ptr : ℕ) :
    SpacesKept own live T k (k.kfree ptr) := by
  obtain ⟨frames, hm⟩ := h.mem
  exact h.setMem (hm.kfree ptr)

/-- The same address spaces seen with pages in no slot. -/
theorem SpacesInv.clear (h : SpacesInv own live k) : SpacesInv (fun _ => False) live k := by
  obtain ⟨frames, hm⟩ := h.mem
  exact ⟨⟨frames, hm.clear⟩, h.nodup, h.nonzero, h.areas⟩

theorem Kernel.setMm_self (k : Kernel) (mm : ℕ) (s : MmStruct) : (k.setMm mm s).mms mm = s :=
  Function.update_self _ _ _

theorem Kernel.setMm_of_ne (k : Kernel) {mm a : ℕ} (s : MmStruct) (h : a ≠ mm) :
    (k.setMm mm s).mms a = k.mms a :=
  Function.update_of_ne h _ _

theorem spaces_setMm (live : List ℕ) (k : Kernel) {mm : ℕ} {s : MmStruct}
    (hs : mm ∈ live → s.pml4Pa = (k.mms mm).pml4Pa) :
    (k.setMm mm s).spaces live = k.spaces live := by
  funext a
  unfold Kernel.spaces
  split_ifs with hin
  · by_cases ha : a = mm
    · rw [ha, Kernel.setMm_self, hs (ha ▸ hin)]
    · rw [Kernel.setMm_of_ne k s ha]
  · rfl

theorem SpacesInv.setMm (h : SpacesInv own live k) {mm : ℕ} (s : MmStruct) (hmm : mm ∉ live) :
    SpacesKept own live T k (k.setMm mm s) := by
  have hroots := spaces_setMm live k (s := s) fun hin => absurd hin hmm
  have hne : ∀ a ∈ live, a ≠ mm := fun a ha hc => hmm (hc ▸ ha)
  obtain ⟨frames, hm⟩ := h.mem
  refine ⟨⟨?_, h.nodup, h.nonzero, fun a ha v hv => ?_⟩, hroots, fun a ha => ?_, MemKept.refl hm⟩
  · rw [hroots]
    exact h.mem
  · rw [Kernel.setMm_of_ne k s (hne a ha)] at hv
    exact h.areas a ha v hv
  · rw [Kernel.setMm_of_ne k s (hne a ha)]

theorem Kernel.linkVma_mms (k : Kernel) (mm vma : ℕ) (v : VmaStruct) (a : ℕ) :
    (k.linkVma mm vma v).mms a = if a = mm then
      { k.mms mm with vmaList := (k.mms mm).vmaList ++ [vma], mapCount := (k.mms mm).mapCount + 1 }
      else k.mms a :=
  Function.update_apply _ _ _ _

theorem SpacesInv.linkVma (h : SpacesInv own live k) (mm vma : ℕ) {v : VmaStruct} (hv : AreaOk v) :
    SpacesKept own live T k (k.linkVma mm vma v) := by
  have hroots : (k.linkVma mm vma v).spaces live = k.spaces live := by
    unfold Kernel.linkVma
    rw [spaces_setMm]
    · rfl
    · exact fun _ => rfl
  have hvmas : ∀ w, AreaOk (k.vmas w) → AreaOk ((k.linkVma mm vma v).vmas w) := by
    intro w hw
    show AreaOk (Function.update k.vmas vma v w)
    by_cases hwv : w = vma
    · rw [hwv, Function.update_self]
      exact hv
    · rwa [Function.update_of_ne hwv]
  have hmms := k.linkVma_mms mm vma v
  obtain ⟨frames, hm⟩ := h.mem
  refine ⟨⟨?_, h.nodup, h.nonzero, fun a ha w hw => ?_⟩, hroots, fun a ha => ?_, MemKept.refl hm⟩
  · rw [hroots]
    exact h.mem
  · rw [hmms] at hw
    split_ifs at hw with ham
    · rcases List.mem_append.mp hw with hw | hw
      · exact hvmas w (h.areas mm (ham ▸ ha) w hw)
      · rw [List.mem_singleton.mp hw]
        show AreaOk (Function.update k.vmas vma v vma)
        rwa [Function.update_self]
    · exact hvmas w (h.areas a ha w hw)
  · rw [hmms]
    split_ifs with ham
    · rw [ham]
      exact List.prefix_append _ _
    · exact List.prefix_rfl

/-! ## Mapping a range -/

/-- The pages that `mm_map_range` maps for an area, with so many frames to be had. -/
def RangePaths (mm : ℕ) (v : VmaStruct) (free : ℕ) : Tree → List ℕ → Prop :=
  InRange (Tree.mm mm) v.vmStart (min (Kernel.pageCount v.vmStart v.vmEnd) free)

/-- All of them in the user half. -/
def RangeOk (v : VmaStruct) (free : ℕ) : Prop :=
  ∀ i < min (Kernel.pageCount v.vmStart v.vmEnd) free,
    pml4Idx (u64 (v.vmStart + i * pageSize)) < 256

/-- The pages of an area. -/
def AreaPaths (mm : ℕ) (v : VmaStruct) (t : Tree) (p : List ℕ) : Prop :=
  t = .mm mm ∧ ∃ w, v.vmStart ≤ w ∧ w < v.vmEnd ∧ p = leafPath w

theorem pageCount_bounds {v : VmaStruct} (hv : AreaOk v) {i : ℕ}
    (hi : i < Kernel.pageCount v.vmStart v.vmEnd) :
    u64 (v.vmStart + i * pageSize) = v.vmStart + i * pageSize
      ∧ v.vmStart + i * pageSize < v.vmEnd := by
  obtain ⟨h1, h2⟩ := hv
  have hcount : Kernel.pageCount v.vmStart v.vmEnd = (v.vmEnd - v.vmStart) / 4096 := by
    rw [Kernel.pageCount, u64Sub_of_le h1, pageSize]
  rw [hcount] at hi
  have hend : v.vmStart + i * pageSize < v.vmEnd := by
    unfold pageSize
    omega
  exact ⟨u64_of_lt (by omega), hend⟩

theorem AreaOk.range {v : VmaStruct} (hv : AreaOk v) (free : ℕ) : RangeOk v free := by
  intro i hi
  obtain ⟨h1, h2⟩ := pageCount_bounds hv (lt_min_iff.mp hi).1
  rw [h1]
  exact pml4Idx_user (h2.trans_le hv.2)

theorem RangePaths.area {mm free : ℕ} {v : VmaStruct} (hv : AreaOk v) (t : Tree) (p : List ℕ)
    (h : RangePaths mm v free t p) : AreaPaths mm v t p := by
  obtain ⟨ht, i, hi, rfl⟩ := h
  obtain ⟨h1, h2⟩ := pageCount_bounds hv (lt_min_iff.mp hi).1
  rw [h1]
  exact ⟨ht, _, Nat.le_add_right _ _, h2, rfl⟩

/-- What `mm_map_range` does from its new area on: the area is linked, and kernel memory changes
at the area's pages only. -/
theorem mapArea_mem (hI : SpacesInv own live k) {mm vma : ℕ} {v : VmaStruct} {ok : Bool}
    (hmm : mm ∈ live) (hv : RangeOk v k.pmm.freePages) (h : k.mapArea mm vma v = (ok, k')) :
    MemKept own (k.spaces live) (RangePaths mm v k.pmm.freePages) k.toKMem k'.toKMem
      ∧ ∃ km, k' = { k.linkVma mm vma v with toKMem := km } := by
  obtain ⟨frames, hmem⟩ := hI.mem
  have hroot : treeRoot k.kernelPml4 frames (k.spaces live) (.mm mm) = some (k.mms mm).pml4Pa :=
    if_pos hmm
  have hleaf : ∀ i < min (Kernel.pageCount v.vmStart v.vmEnd) k.pmm.freePages,
      IsLeaf (treePath own) (.mm mm) (leafPath (u64 (v.vmStart + i * pageSize))) :=
    fun i hi => isLeaf_leafPath mm (hv i hi)
  have hkept := mapRange_kept closed_treePath (pteFlagsOf_ok v.vmFlags) hroot hleaf
    (Kernel.pageCount v.vmStart v.vmEnd) 0 k.toMachine (by omega) hmem.tables
  have hkm : MemKept own (k.spaces live) (RangePaths mm v k.pmm.freePages) k.toKMem _ :=
    hkept.memKept hmem fun _ _ h => h
  unfold Kernel.mapArea at h
  have hpml4 : ((k.linkVma mm vma v).mms mm).pml4Pa = (k.mms mm).pml4Pa := by
    rw [Kernel.linkVma_mms, if_pos rfl]
  dsimp only at h
  rw [hpml4, show (k.linkVma mm vma v).toMachine = k.toMachine from rfl] at h
  rcases hr : Machine.mapRange (k.mms mm).pml4Pa v.vmStart (pteFlagsOf v.vmFlags)
    (Kernel.pageCount v.vmStart v.vmEnd) 0 k.toMachine with ⟨_ | _, m⟩ <;> rw [hr] at h hkm
  · obtain ⟨-, rfl⟩ := Prod.mk.inj h
    obtain ⟨frames', hm⟩ := hkm.mem
    exact ⟨hkm.trans (hm.kfree vma), _, rfl⟩
  · obtain ⟨-, rfl⟩ := Prod.mk.inj h
    exact ⟨hkm, _, rfl⟩

theorem mapArea_kept (hI : SpacesInv own live k) {mm vma : ℕ} {v : VmaStruct} {ok : Bool}
    (hmm : mm ∈ live) (hv : AreaOk v) (h : k.mapArea mm vma v = (ok, k')) :
    SpacesKept own live (RangePaths mm v k.pmm.freePages) k k' := by
  obtain ⟨hkm, km, rfl⟩ := mapArea_mem hI hmm (hv.range _) h
  have h₁ := hI.linkVma (T := RangePaths mm v k.pmm.freePages) mm vma hv
  rw [← h₁.roots] at hkm
  exact h₁.trans (h₁.inv.setMem hkm)

theorem mapArea_kheapTop (k : Kernel) (mm vma : ℕ) (v : VmaStruct) :
    (k.mapArea mm vma v).2.heap.kheapTop = k.heap.kheapTop := by
  unfold Kernel.mapArea
  dsimp only
  split
  · rfl
  · exact Heap.kfree_kheapTop _ _

/-- The area of a request. -/
def requestArea (mm va size : ℕ) (vmFlags : BitVec 64) : VmaStruct :=
  ⟨mm, alignDown va pageSize, alignUp (u64 (va + size)) pageSize, vmFlags⟩

/-- What `mm_map_range` can do. -/
theorem mmMapRange_cases {mm va size : ℕ} {vmFlags : BitVec 64} {ok : Bool}
    (h : k.mmMapRange mm va size vmFlags = some (ok, k')) :
    (ok = false ∧ (mm = 0 ∨ size = 0) ∧ k' = k)
      ∨ (mm ≠ 0 ∧ 0 < size ∧ ∃ vma km, k.kmalloc vmaStructSize = some (vma, km)
        ∧ ((ok = false ∧ vma = 0 ∧ k' = { k with toKMem := km })
          ∨ (vma ≠ 0 ∧ Kernel.mapArea { k with toKMem := km } mm vma
            (requestArea mm va size vmFlags) = (ok, k')))) := by
  unfold Kernel.mmMapRange at h
  split_ifs at h with h0
  · simp only [Option.some.injEq, Prod.mk.injEq] at h
    exact .inl ⟨h.1.symm, h0, h.2.symm⟩
  · right
    refine ⟨by omega, by omega, ?_⟩
    dsimp only at h
    rcases hm : k.kmalloc vmaStructSize with _ | ⟨vma, km⟩ <;> rw [hm] at h
    · cases h
    refine ⟨vma, km, rfl, ?_⟩
    dsimp only at h
    split_ifs at h with hv
    · simp only [Option.some.injEq, Prod.mk.injEq] at h
      exact .inl ⟨h.1.symm, hv, h.2.symm⟩
    · exact .inr ⟨hv, Option.some.inj h⟩

theorem mapArea_mms (k : Kernel) (mm vma : ℕ) (v : VmaStruct) :
    (k.mapArea mm vma v).2.mms = (k.linkVma mm vma v).mms := by
  unfold Kernel.mapArea
  dsimp only
  split <;> rfl

/-- Of an `mm_struct` only the list of areas and their count change. -/
theorem mmMapRange_mms {mm va size : ℕ} {vmFlags : BitVec 64} {ok : Bool}
    (h : k.mmMapRange mm va size vmFlags = some (ok, k')) (a : ℕ) :
    ∃ l n, k'.mms a = { k.mms a with vmaList := l, mapCount := n } := by
  rcases mmMapRange_cases h with ⟨-, -, rfl⟩ | ⟨-, -, vma, km, -, ⟨-, -, rfl⟩ | ⟨-, hmap⟩⟩
  · exact ⟨_, _, rfl⟩
  · exact ⟨_, _, rfl⟩
  · have hmms := mapArea_mms { k with toKMem := km } mm vma (requestArea mm va size vmFlags)
    rw [hmap] at hmms
    rw [hmms, Kernel.linkVma_mms]
    split_ifs with ha
    · rw [ha]
      exact ⟨_, _, rfl⟩
    · exact ⟨_, _, rfl⟩

/-- The area `mm_map_range` makes for a request in the user half. -/
theorem rangeArea {va size : ℕ} (h : va + size ≤ 2 ^ 47) (hs : 0 < size) :
    alignDown va pageSize = va / 4096 * 4096
      ∧ alignUp (u64 (va + size)) pageSize = (va + size + 4095) / 4096 * 4096
      ∧ alignDown va pageSize < alignUp (u64 (va + size)) pageSize
      ∧ alignUp (u64 (va + size)) pageSize ≤ 2 ^ 47 := by
  have h1 : alignDown va pageSize = va / 4096 * 4096 := alignDown_eq (by omega)
  have h2 : alignUp (u64 (va + size)) pageSize = (va + size + 4095) / 4096 * 4096 := by
    rw [u64_of_lt (by omega), alignUp_eq, u64_of_lt (by omega)]
  rw [h1, h2]
  refine ⟨rfl, rfl, ?_, ?_⟩
  · omega
  · omega

/-- The allocation of the new area touches no page, and only what follows it maps any. -/
theorem mmMapRange_alloc (hI : SpacesInv own live k) {mm va size : ℕ} {vmFlags : BitVec 64}
    {ok : Bool} (hclear : HeapClear own k'.heap.kheapTop)
    (h : k.mmMapRange mm va size vmFlags = some (ok, k')) :
    (ok = false ∧ (∃ km, k' = { k with toKMem := km }) ∧ SpacesKept own live T k k')
      ∨ (0 < size ∧ ∃ vma km, k.kmalloc vmaStructSize = some (vma, km) ∧ vma ≠ 0
        ∧ SpacesKept own live T k { k with toKMem := km }
        ∧ Kernel.mapArea { k with toKMem := km } mm vma (requestArea mm va size vmFlags)
          = (ok, k')) := by
  obtain ⟨frames, hmem⟩ := hI.mem
  rcases mmMapRange_cases h with
    ⟨hok, -, rfl⟩ | ⟨-, hs, vma, km, hkm, ⟨hok, -, rfl⟩ | ⟨h0, hmap⟩⟩
  · exact .inl ⟨hok, ⟨k'.toKMem, rfl⟩, SpacesKept.refl hI⟩
  · exact .inl ⟨hok, ⟨km, rfl⟩, hI.setMem (kmallocLoop_kept hmem hclear hkm)⟩
  · have htop := mapArea_kheapTop { k with toKMem := km } mm vma (requestArea mm va size vmFlags)
    rw [hmap] at htop
    have hclear' : HeapClear own km.heap.kheapTop := htop ▸ hclear
    exact .inr ⟨hs, vma, km, hkm, h0,
      hI.setMem (kmallocLoop_kept hmem hclear' hkm), hmap⟩

/-- `mm_map_range` on pages of the user half. -/
theorem mmMapRange_mem (hI : SpacesInv own live k) {mm va size : ℕ} {vmFlags : BitVec 64}
    {ok : Bool} (hmm : mm ∈ live)
    (hrange : RangeOk (requestArea mm va size vmFlags) k.pmm.freePages)
    (hclear : HeapClear own k'.heap.kheapTop)
    (h : k.mmMapRange mm va size vmFlags = some (ok, k')) :
    MemKept own (k.spaces live)
      (RangePaths mm (requestArea mm va size vmFlags) k.pmm.freePages) k.toKMem k'.toKMem := by
  rcases mmMapRange_alloc hI hclear h with ⟨-, -, h₀⟩ | ⟨-, vma, km, hkm, -, h₁, hmap⟩
  · exact h₀.kept
  · obtain ⟨frames, hmem⟩ := hI.mem
    have hfree := (KMem.kmallocLoop_spec hmem.heapInv hkm).2.1.frames
    have hmem₁ := (mapArea_mem h₁.inv hmm
      (fun i hi => hrange i (hi.trans_le (min_le_min_left _ hfree))) hmap).1
    refine h₁.kept.trans (hmem₁.mono ?_)
    rintro t p ⟨ht, i, hi, rfl⟩
    exact ⟨ht, i, hi.trans_le (min_le_min_left _ hfree), rfl⟩

theorem mmMapRange_kept (hI : SpacesInv own live k) {mm va size : ℕ} {vmFlags : BitVec 64}
    {ok : Bool} (hmm : mm ∈ live) (hva : va + size ≤ 2 ^ 47)
    (hclear : HeapClear own k'.heap.kheapTop)
    (h : k.mmMapRange mm va size vmFlags = some (ok, k')) :
    SpacesKept own live (AreaPaths mm (requestArea mm va size vmFlags)) k k' := by
  rcases mmMapRange_alloc hI hclear h with ⟨-, -, h₀⟩ | ⟨hs, vma, km, -, -, h₁, hmap⟩
  · exact h₀
  · obtain ⟨-, -, hlt, hle⟩ := rangeArea hva hs
    have hv : AreaOk (requestArea mm va size vmFlags) := ⟨hlt.le, hle⟩
    exact h₁.trans ((mapArea_kept h₁.inv hmm hv hmap).mono (RangePaths.area hv))

/-! ## Releasing -/

/-- Releases on the heap change its list and nothing else. -/
theorem foldl_kfree_eq : ∀ (l : List ℕ) (k : Kernel),
    ∃ heap, l.foldl Kernel.kfree k = { k with heap := heap }
  | [], k => ⟨k.heap, rfl⟩
  | ptr :: l, k => foldl_kfree_eq l (k.kfree ptr)

theorem SpacesInv.foldl_kfree : ∀ (l : List ℕ) {k : Kernel}, SpacesInv own live k →
    SpacesKept own live T k (l.foldl Kernel.kfree k)
  | [], k, h => SpacesKept.refl h
  | ptr :: l, k, h => by
    have h₁ : SpacesKept own live T k (k.kfree ptr) := h.kfree ptr
    exact h₁.trans (SpacesInv.foldl_kfree l h₁.inv)

theorem spaces_erase (k : Kernel) (hnd : live.Nodup) {a b n : ℕ}
    (h : k.spaces (live.erase a) b = some n) : k.spaces live b = some n ∧ b ≠ a := by
  unfold Kernel.spaces at h ⊢
  split_ifs at h with hb
  obtain ⟨hne, hin⟩ := hnd.mem_erase_iff.mp hb
  rw [if_pos hin]
  exact ⟨h, hne⟩

/-- The frames that `mm_free` gives back: the PML4 and what the walk from it reaches. -/
theorem frees_space (ph : PhysMem) {pml4 : ℕ} (hal : 4096 ∣ pml4) :
    Frees (fun p => (userPgtableFreeRecursive ph 4 pml4 p).pmmFreePage pml4) fun n =>
      ∃ q, UserPath q ∧ Radix.walk (tableChild ph) pml4 q = some n := by
  intro p hp
  obtain ⟨h1, h2, h3⟩ :=
    ((frees_userPgtableFreeRecursive ph 4 pml4 le_rfl).comp (frees_pmmFreePage hal)) p hp
  refine ⟨h1, h2, fun n => (h3 n).trans (and_congr_right fun _ => not_congr ?_)⟩
  constructor
  · rintro (⟨q, ⟨-, hl, hi, hh⟩, hw⟩ | rfl)
    · exact ⟨q, ⟨hl, hi, hh rfl⟩, hw⟩
    · exact ⟨[], ⟨by simp, by simp, by simp⟩, rfl⟩
  · rintro ⟨_ | ⟨i, q⟩, ⟨hl, hi, hh⟩, hw⟩
    · exact .inr (Option.some.inj hw).symm
    · exact .inl ⟨i :: q, ⟨by simp, hl, hi, fun _ => hh⟩, hw⟩

theorem treeRoot_erase {frames : List ℕ} (hnd : live.Nodup) {a n : ℕ} {t : Tree}
    (ht : treeRoot k.kernelPml4 frames (k.spaces (live.erase a)) t = some n) :
    treeRoot k.kernelPml4 frames (k.spaces live) t = some n ∧ t ≠ .mm a := by
  cases t with
  | kernel => exact ⟨ht, by simp⟩
  | heapPage j => exact ⟨ht, by simp⟩
  | mm b =>
    obtain ⟨h1, h2⟩ := spaces_erase k hnd ht
    exact ⟨h1, fun hc => h2 (Tree.mm.inj hc)⟩

/-- One address space less, with some of its frames given back. -/
theorem SpacesInv.drop (hI : SpacesInv own live k) (a : ℕ) {frames : List ℕ} {p : Pmm}
    (hmem : MemInv own (k.spaces live) frames k.toKMem) (hp : p.Inv)
    (htot : p.totalPages = k.pmm.totalPages)
    (hbusy : ∀ t q x, treePath own t q → t ≠ .mm a →
      k.node (treeRoot k.kernelPml4 frames (k.spaces live)) t q = some x → p.Busy x) :
    SpacesInv own (live.erase a) { k with pmm := p } := by
  refine ⟨⟨frames, ?_, hmem.tiles, hmem.top, ?_⟩, hI.nodup.erase a,
    fun b hb => hI.nonzero b (List.mem_of_mem_erase hb),
    fun b hb => hI.areas b (List.mem_of_mem_erase hb)⟩
  · refine hmem.tables.drop (fun t n ht => (treeRoot_erase hI.nodup ht).1) hp htot
      fun t q x hq hx _ => ?_
    obtain ⟨n, hn, -⟩ := Option.bind_eq_some_iff.mp hx
    exact hbusy t q x hq (treeRoot_erase hI.nodup hn).2
      (Radix.node_mono (fun n hn => (treeRoot_erase hI.nodup hn).1) hx)
  · dsimp only
    rw [htot]
    exact hmem.bound

theorem SpacesInv.erase (hI : SpacesInv own live k) (a : ℕ) : SpacesInv own (live.erase a) k := by
  obtain ⟨frames, hmem⟩ := hI.mem
  exact hI.drop a hmem hmem.tables.pmm rfl fun t q x hq _ hx => hmem.tables.busy t q x hq hx

theorem SpacesKept.erase (h : SpacesKept own live T k k') (a : ℕ) :
    SpacesKept own (live.erase a) T k k' := by
  have hnd := h.inv.nodup
  have hroots : k'.spaces (live.erase a) = k.spaces (live.erase a) := by
    funext b
    have hb := congrFun h.roots b
    unfold Kernel.spaces at hb ⊢
    split_ifs with hin
    · rwa [if_pos (List.mem_of_mem_erase hin), if_pos (List.mem_of_mem_erase hin)] at hb
    · rfl
  have hinv := h.inv.erase a
  refine ⟨hinv, hroots, fun b hb => h.lists b (List.mem_of_mem_erase hb), ?_⟩
  exact ⟨hroots ▸ hinv.mem, h.kept.pml4, h.kept.top,
    fun b pml4 hb => h.kept.user b pml4 (spaces_erase k hnd hb).1, h.kept.kernel⟩

theorem SpacesInv.releaseTables (hI : SpacesInv own live k) {a : ℕ} (ha : a ∈ live) :
    SpacesKept own (live.erase a) T k (k.releaseTables (k.mms a).pml4Pa) := by
  obtain ⟨frames, hmem⟩ := hI.mem
  have hroot : k.spaces live a = some (k.mms a).pml4Pa := if_pos ha
  unfold Kernel.releaseTables
  split_ifs with h0
  · exact SpacesKept.refl (hI.erase a)
  · have hpml4 : k.pmm.Busy (k.mms a).pml4Pa :=
      hmem.tables.busy (.mm a) [] _ ⟨by simp, by simp, by simp⟩
        ((Radix.node_nil _ _ _).trans hroot)
    obtain ⟨f1, f2, f3⟩ := frees_space k.phys hpml4.aligned k.pmm hmem.tables.pmm
    have hinv := hI.drop a hmem f1 f2 fun t q x hq ht hx => by
      refine (f3 x).mpr ⟨hmem.tables.busy t q x hq hx, ?_⟩
      rintro ⟨q', hq', hw⟩
      have hx' : k.node (treeRoot k.kernelPml4 frames (k.spaces live)) (.mm a) q' = some x :=
        (Machine.node_eq_table hroot q').trans hw
      exact ht (hmem.tables.forest t q (.mm a) q' x hq hq' hx hx').1
    exact ⟨hinv, rfl, fun _ _ => List.prefix_rfl, hinv.mem, rfl, le_rfl,
      fun _ _ _ => Touches.of_phys_eq rfl, Touches.of_phys_eq rfl⟩

theorem mmFree_kept (hI : SpacesInv own live k) {a : ℕ} (ha : a ∈ live) :
    SpacesKept own (live.erase a) T k (k.mmFree a) := by
  unfold Kernel.mmFree
  rw [if_neg (hI.nonzero a ha)]
  have h₁ := hI.foldl_kfree (T := T) (k.mms a).vmaList
  obtain ⟨heap, hheap⟩ := foldl_kfree_eq (k.mms a).vmaList k
  have hmms : ((k.mms a).vmaList.foldl Kernel.kfree k).mms = k.mms := by rw [hheap]
  have h₂ := h₁.inv.releaseTables (T := T) ha
  rw [hmms] at h₂
  have h₃ := (h₁.erase a).trans h₂
  exact h₃.trans (h₃.inv.kfree a)

/-! ## Making -/

theorem zeroPage_copyKernelHalf (ph : PhysMem) (x src : ℕ) {a j : ℕ} (ha : a ≠ x) :
    (ph.zeroPage x).copyKernelHalf x src a j = ph a j := by
  unfold PhysMem.copyKernelHalf
  rw [if_neg fun hc => ha hc.1]
  exact PhysMem.zeroPage_of_ne ha

theorem zeroPage_copyKernelHalf_low (ph : PhysMem) (x src : ℕ) {j : ℕ} (hj : j < 256) :
    (ph.zeroPage x).copyKernelHalf x src x j = 0#64 := by
  unfold PhysMem.copyKernelHalf
  rw [if_neg (by omega)]
  exact if_pos rfl

theorem zeroPage_copyKernelHalf_high (ph : PhysMem) (x src : ℕ) {j : ℕ} (h1 : 256 ≤ j)
    (h2 : j < 512) (hx : src ≠ x) : (ph.zeroPage x).copyKernelHalf x src x j = ph src j := by
  unfold PhysMem.copyKernelHalf
  rw [if_pos ⟨rfl, h1, h2⟩]
  exact PhysMem.zeroPage_of_ne hx

/-- The upper half of the address space's PML4 is the kernel's. -/
def Kernel.SharesHalf (k : Kernel) (a : ℕ) : Prop :=
  ∀ j, 256 ≤ j → j < 512 → k.phys (k.mms a).pml4Pa j = k.phys k.kernelPml4 j

/-- The address space has no area, and its user half no entry. -/
def Kernel.IsBare (k : Kernel) (a : ℕ) : Prop :=
  (k.mms a).vmaList = [] ∧ ∀ j < 256, k.phys (k.mms a).pml4Pa j = 0#64

/-- Memory with a new PML4, which has the kernel's upper half. -/
def Machine.newPml4 (m : Machine) (kernelPml4 : ℕ) : Machine :=
  { pmm := (m.pmm.pmmAllocPage).2
    phys := (m.phys.zeroPage (m.pmm.pmmAllocPage).1).copyKernelHalf (m.pmm.pmmAllocPage).1
      kernelPml4 }

/-- The new PML4 is a tree of its own. -/
theorem MemInv.newPml4 {km : KMem} {frames : List ℕ} {spaces spaces' : ℕ → Option ℕ} {mm : ℕ}
    (hmem : MemInv own spaces frames km) (ha : (km.pmm.pmmAllocPage).1 ≠ 0)
    (hnew : spaces' mm = some (km.pmm.pmmAllocPage).1)
    (hold : ∀ b, b ≠ mm → spaces' b = spaces b) :
    Kept (treeRoot km.kernelPml4 frames spaces) (treePath own) T km.toMachine
        (km.toMachine.newPml4 km.kernelPml4)
      ∧ TablesOk (treeRoot km.kernelPml4 frames spaces') (treePath own)
        (km.toMachine.newPml4 km.kernelPml4)
      ∧ km.kernelPml4 ≠ (km.pmm.pmmAllocPage).1 := by
  obtain ⟨-, -, -, hspec⟩ := Pmm.pmmAllocPage_spec hmem.tables.pmm
  obtain ⟨hv, hbusy⟩ := hspec ha
  have hfresh := hmem.tables.fresh_of_vacant hv
  have halloc : Kept _ _ T _ _ := hmem.tables.alloc closed_treePath
  obtain ⟨hfill, hnode⟩ : Kept _ _ T _ (km.toMachine.newPml4 km.kernelPml4) ∧ _ :=
    halloc.tables.fill closed_treePath hfresh fun a j h =>
      zeroPage_copyKernelHalf km.phys _ km.kernelPml4 h
  refine ⟨halloc.trans hfill, ?_, fun hc => ?_⟩
  · refine hfill.tables.addRoot (.mm mm) closed_treePath hnew ?_ ?_ ((hbusy _).mpr (.inr rfl)) ?_
    · intro t ht
      cases t with
      | kernel => rfl
      | heapPage j => rfl
      | mm b => exact hold b fun hc => ht (hc ▸ rfl)
    · intro j hj
      exact zeroPage_copyKernelHalf_low km.phys _ km.kernelPml4 (hj.2.2 j rfl)
    · intro t p hp hx
      exact hfresh t p hp ((hnode t p hp).symm.trans hx)
  · refine hfresh .kernel [] (.inl ⟨by simp, by simp⟩) ?_
    exact (Radix.node_nil _ _ _).trans (congrArg some hc)

/-- A new PML4 for an address that is not live. -/
theorem SpacesInv.addSpace (hI : SpacesInv own live k) {mm : ℕ} (hmm : mm ∉ live) (h0 : mm ≠ 0)
    (ha : (k.pmm.pmmAllocPage).1 ≠ 0)
    (hk' : k' = Kernel.setMm
        { k with
          pmm := (k.pmm.pmmAllocPage).2
          phys := (k.phys.zeroPage (k.pmm.pmmAllocPage).1).copyKernelHalf (k.pmm.pmmAllocPage).1
            k.kernelPml4 }
        mm { pml4Pa := (k.pmm.pmmAllocPage).1 }) :
    SpacesInv own (mm :: live) k' ∧ SpacesKept own live T k k' ∧ k'.SharesHalf mm
      ∧ k'.IsBare mm := by
  obtain ⟨frames, hmem⟩ := hI.mem
  have hmm' : k'.mms mm = { pml4Pa := (k.pmm.pmmAllocPage).1 } := by rw [hk', Kernel.setMm_self]
  have hother : ∀ b, b ≠ mm → k'.mms b = k.mms b := fun b hb => by
    rw [hk', Kernel.setMm_of_ne _ _ hb]
  have hspaces : k'.spaces live = k.spaces live := by
    rw [hk', spaces_setMm]
    · rfl
    · exact fun hin => absurd hin hmm
  have hmem' : k'.toKMem = { k.toKMem with toMachine := k.toMachine.newPml4 k.kernelPml4 } := by
    rw [hk']
    rfl
  have hroot : k'.spaces (mm :: live) mm = some (k.pmm.pmmAllocPage).1 := by
    rw [Kernel.spaces, if_pos List.mem_cons_self, hmm']
  have hroots : ∀ b, b ≠ mm → k'.spaces (mm :: live) b = k.spaces live b := fun b hb => by
    unfold Kernel.spaces
    rw [hother b hb]
    simp [hb]
  obtain ⟨hkept, htables, hkernel⟩ := hmem.newPml4 (T := T) ha hroot hroots
  have hnew : SpacesInv own (mm :: live) k' := by
    refine ⟨⟨frames, ?_⟩, List.nodup_cons.mpr ⟨hmm, hI.nodup⟩, ?_, ?_⟩
    · rw [hmem']
      exact ⟨htables, hmem.tiles, hmem.top, hkept.total ▸ hmem.bound⟩
    · intro b hb
      rcases List.mem_cons.mp hb with rfl | hb
      · exact h0
      · exact hI.nonzero b hb
    · intro b hb v hvb
      by_cases hbm : b = mm
      · rw [hbm, hmm'] at hvb
        cases hvb
      · rw [hother b hbm] at hvb
        rw [show k'.vmas = k.vmas by rw [hk']; rfl]
        exact hI.areas b ((List.mem_cons.mp hb).resolve_left hbm) v hvb
  refine ⟨hnew, ⟨?_, hspaces, fun b hb => ?_, ?_⟩, fun j h1 h2 => ?_, ?_, fun j hj => ?_⟩
  · simpa using hnew.erase mm
  · rw [hother b fun hc => hmm (hc ▸ hb)]
  · rw [hmem']
    exact hkept.memKept hmem fun _ _ h => h
  · rw [hmm', hk']
    exact (zeroPage_copyKernelHalf_high k.phys _ k.kernelPml4 h1 h2 hkernel).trans
      (zeroPage_copyKernelHalf k.phys _ k.kernelPml4 hkernel).symm
  · rw [hmm']
  · rw [hmm', hk']
    exact zeroPage_copyKernelHalf_low k.phys _ k.kernelPml4 hj

/-- An allocation that can clash with no live structure: a failure makes nothing. -/
theorem mmAlloc_kept (hI : SpacesInv own live k) {mm : ℕ}
    (hheld : ∀ a ∈ live, Holds k.heap.kheapList (a, mmStructSize))
    (hclear : HeapClear own k'.heap.kheapTop) (h : k.mmAlloc = some (mm, k')) :
    SpacesKept own live T k k'
      ∧ (mm ≠ 0 → SpacesInv own (mm :: live) k' ∧ k'.SharesHalf mm ∧ k'.IsBare mm) := by
  obtain ⟨frames, hmem⟩ := hI.mem
  unfold Kernel.mmAlloc at h
  rcases hk : KMem.kmalloc mmStructSize k.toKMem with _ | ⟨a, km⟩ <;> rw [hk] at h
  · cases h
  dsimp only at h
  obtain ⟨-, -, hal⟩ := KMem.kmallocLoop_spec hmem.heapInv hk
  have h₁ : HeapClear own km.heap.kheapTop → SpacesKept own live T k { k with toKMem := km } :=
    fun hc => hI.setMem (kmallocLoop_kept hmem hc hk)
  split_ifs at h with ha hp
  · simp only [Option.some.injEq, Prod.mk.injEq] at h
    obtain ⟨rfl, rfl⟩ := h
    exact ⟨h₁ hclear, fun hc => absurd rfl hc⟩
  · simp only [Option.some.injEq, Prod.mk.injEq] at h
    obtain ⟨rfl, rfl⟩ := h
    have htop : HeapClear own km.heap.kheapTop := by
      have := Heap.kfree_kheapTop km.heap a
      exact this ▸ hclear
    have h₁ := h₁ htop
    have hnot : a ∉ live := fun hin => (hal (by decide) ha).fresh _ (hheld a hin) rfl
    have h₂ := h₁.trans (h₁.inv.setMm {} hnot)
    obtain ⟨frames₂, hmem₂⟩ := h₂.inv.mem
    have halloc : Kept _ _ T _ _ := hmem₂.tables.alloc closed_treePath
    have h₃ := h₂.trans (h₂.inv.setMem (halloc.memKept hmem₂ fun _ _ hc => hc))
    exact ⟨h₃.trans (h₃.inv.kfree a), fun hc => absurd rfl hc⟩
  · simp only [Option.some.injEq, Prod.mk.injEq] at h
    obtain ⟨rfl, hk'⟩ := h
    have htop : km.heap.kheapTop = k'.heap.kheapTop := by rw [← hk']; rfl
    have h₁ := h₁ (htop ▸ hclear)
    have hnot : a ∉ live := fun hin => (hal (by decide) ha).fresh _ (hheld a hin) rfl
    have h₂ := h₁.trans (h₁.inv.setMm {} hnot)
    obtain ⟨hnew, h₃, hhalf, hbare⟩ := h₂.inv.addSpace (T := T) hnot ha hp
      (hk'.symm.trans (by simp [Kernel.setMm]))
    exact ⟨h₂.trans h₃, fun _ => ⟨hnew, hhalf, hbare⟩⟩

/-! ## Copying -/

theorem rounds_bounds {v : VmaStruct} (hv : AreaOk v) {i : ℕ} (hi : i < v.rounds) :
    u64 (v.vmStart + i * pageSize) < 2 ^ 47 := by
  obtain ⟨h1, h2⟩ := hv
  unfold VmaStruct.rounds at hi
  unfold pageSize at hi ⊢
  rw [u64_of_lt (by omega)]
  omega

/-- The pages of an address space. -/
def SpacePaths (mm : ℕ) (t : Tree) (p : List ℕ) : Prop :=
  t = .mm mm ∧ ∃ va < 2 ^ 47, p = leafPath va

theorem AreaPaths.space {mm : ℕ} {v : VmaStruct} (hv : v.vmEnd ≤ 2 ^ 47) (t : Tree) (p : List ℕ)
    (h : AreaPaths mm v t p) : SpacePaths mm t p := by
  obtain ⟨ht, w, -, hw, hp⟩ := h
  exact ⟨ht, w, by omega, hp⟩

/-- The deep copy of one area. -/
theorem SpacesInv.copyRange (hI : SpacesInv own live k) {dst src : ℕ} {v : VmaStruct} {ok : Bool}
    {m : Machine} (hd : dst ∈ live) (hs : src ∈ live) (hv : AreaOk v)
    (h : Machine.copyRange (k.mms dst).pml4Pa (k.mms src).pml4Pa v.rounds v.vmStart k.toMachine
      = (ok, m)) : SpacesKept own live (SpacePaths dst) k { k with toMachine := m } := by
  obtain ⟨frames, hmem⟩ := hI.mem
  have hroot : ∀ a ∈ live,
      treeRoot k.kernelPml4 frames (k.spaces live) (.mm a) = some (k.mms a).pml4Pa :=
    fun a ha => if_pos ha
  have hkept := copyRange_kept closed_treePath (hroot dst hd) (hroot src hs)
    (fun va hva => ⟨isLeaf_leafPath dst (pml4Idx_user hva), leafPath_userPath (pml4Idx_user hva)⟩)
    v.rounds v.vmStart k.toMachine
    (fun i hi => rounds_bounds hv hi) (by have := hv.1; have := hv.2; omega) hmem.tables
  rw [h] at hkept
  exact hI.setMem (hkept.memKept hmem fun _ _ hc => hc)

/-- The new area of a copy. -/
theorem mmMapRange_copy {dst v : ℕ} {ok : Bool} (hI : SpacesInv own live k) (hd : dst ∈ live)
    (hv : AreaOk (k.vmas v)) (hclear : HeapClear own k'.heap.kheapTop)
    (h : k.mmMapRange dst (k.vmas v).vmStart (u64Sub (k.vmas v).vmEnd (k.vmas v).vmStart)
      (k.vmas v).vmFlags = some (ok, k')) : SpacesKept own live (SpacePaths dst) k k' := by
  have hva : (k.vmas v).vmStart + u64Sub (k.vmas v).vmEnd (k.vmas v).vmStart ≤ 2 ^ 47 := by
    rw [u64Sub_of_le hv.1]
    have := hv.1
    have := hv.2
    omega
  rcases Nat.eq_zero_or_pos (u64Sub (k.vmas v).vmEnd (k.vmas v).vmStart) with h0 | hpos
  · simp only [Kernel.mmMapRange, h0, or_true, if_true, Option.some.injEq, Prod.mk.injEq] at h
    exact h.2 ▸ SpacesKept.refl hI
  · exact (mmMapRange_kept hI hd hva hclear h).mono
      (AreaPaths.space (rangeArea hva hpos).2.2.2)

theorem mmCopyLoop_kept {dst src : ℕ} (hd : dst ∈ live) (hs : src ∈ live) :
    ∀ (vs : List ℕ) {own : ℕ → Prop} {k k' : Kernel} {ok : Bool}, SpacesInv own live k →
      (∀ v ∈ vs, v ∈ (k.mms src).vmaList) → HeapClear own k'.heap.kheapTop →
      Kernel.mmCopyLoop dst src vs k = some (ok, k') →
      SpacesKept own (if ok then live else live.erase dst) (SpacePaths dst) k k'
  | [], own, k, k', ok, hI, _, _, h => by
    simp only [Kernel.mmCopyLoop, Option.some.injEq, Prod.mk.injEq] at h
    obtain ⟨rfl, rfl⟩ := h
    exact SpacesKept.refl hI
  | v :: vs, own, k, k', ok, hI, hvs, hclear, h => by
    unfold Kernel.mmCopyLoop at h
    have hv := hI.areas src hs v (hvs v List.mem_cons_self)
    rcases hmap : k.mmMapRange dst (k.vmas v).vmStart
      (u64Sub (k.vmas v).vmEnd (k.vmas v).vmStart) (k.vmas v).vmFlags with _ | ⟨b, k₁⟩ <;>
      rw [hmap] at h
    · cases h
    have hkept₀ := mmMapRange_copy hI.clear hd hv (heapClear_false _) hmap
    have hkept : k₁.heap.kheapTop ≤ k'.heap.kheapTop →
        SpacesKept own live (SpacePaths dst) k k₁ :=
      fun htop => mmMapRange_copy hI hd hv (hclear.mono htop) hmap
    cases b with
    | false =>
      simp only [Option.some.injEq, Prod.mk.injEq] at h
      obtain ⟨rfl, rfl⟩ := h
      have htop := (mmFree_kept (T := SpacePaths dst) hkept₀.inv hd).kept.top
      exact ((hkept htop).erase dst).trans (mmFree_kept (hkept htop).inv hd)
    | true =>
      have hvs₁ : ∀ w ∈ v :: vs, w ∈ (k₁.mms src).vmaList := fun w hw =>
        (hkept₀.lists src hs).subset (hvs w hw)
      have hv₁ := hkept₀.inv.areas src hs v (hvs₁ v List.mem_cons_self)
      dsimp only at h
      rcases hc : Machine.copyRange (k₁.mms dst).pml4Pa (k₁.mms src).pml4Pa (k₁.vmas v).rounds
        (k₁.vmas v).vmStart k₁.toMachine with ⟨_ | _, m⟩ <;> rw [hc] at h
      · simp only [Option.some.injEq, Prod.mk.injEq] at h
        obtain ⟨rfl, rfl⟩ := h
        have hcopy₀ := hkept₀.inv.copyRange hd hs hv₁ hc
        have htop := (mmFree_kept (T := SpacePaths dst) hcopy₀.inv hd).kept.top
        have hkept := hkept htop
        have hcopy := hkept.trans (hkept.inv.copyRange hd hs hv₁ hc)
        exact (hcopy.erase dst).trans (mmFree_kept hcopy.inv hd)
      · have hrest : ∀ w ∈ vs, w ∈ (k₁.mms src).vmaList := fun w hw =>
          hvs₁ w (List.mem_cons_of_mem v hw)
        have hcopy₀ := hkept₀.inv.copyRange hd hs hv₁ hc
        have htop := (mmCopyLoop_kept hd hs vs hcopy₀.inv hrest (heapClear_false _) h).kept.top
        have hkept := hkept htop
        have hcopy := hkept.trans (hkept.inv.copyRange hd hs hv₁ hc)
        have hloop := mmCopyLoop_kept hd hs vs hcopy.inv hrest hclear h
        split_ifs at hloop ⊢
        · exact hcopy.trans hloop
        · exact (hcopy.erase dst).trans hloop

theorem mmCopy_kept (hI : SpacesInv own live k) {dst src : ℕ} {ok : Bool} (hd : dst ∈ live)
    (hs : src ∈ live) (hclear : HeapClear own k'.heap.kheapTop)
    (h : k.mmCopy dst src = some (ok, k')) :
    SpacesKept own (if ok then live else live.erase dst) (SpacePaths dst) k k' := by
  unfold Kernel.mmCopy at h
  have h0 : ¬ (dst = 0 ∨ src = 0) := by
    rintro (rfl | rfl)
    · exact hI.nonzero 0 hd rfl
    · exact hI.nonzero 0 hs rfl
  rw [if_neg h0] at h
  exact mmCopyLoop_kept hd hs _ hI (fun _ hv => hv) hclear h

end Spaces

/-! ## Boot -/

/-- The addresses that `paging_init` maps are outside the slots of `own`. -/
structure BootClear (own : ℕ → Prop) (hhdm : ℕ) (img : KernelImage) (mmap : List MemmapEntry) :
    Prop where
  image : ∀ i < alignUp img.size pageSize / pageSize,
    ¬ own (pml4Idx (u64 (img.virtualBase + i * pageSize)))
  direct : ∀ e ∈ mmap, e.type.isMapped → ∀ i < (alignUp (u64 (e.base + e.length)) pageSize
      - alignDown e.base pageSize) / pageSize,
    ¬ own (pml4Idx (u64 (alignDown e.base pageSize + hhdm + i * pageSize)))
  identity : ¬ own 0

theorem bootClear_false (hhdm : ℕ) (img : KernelImage) (mmap : List MemmapEntry) :
    BootClear (fun _ => False) hhdm img mmap :=
  ⟨fun _ _ hc => hc, fun _ _ _ _ _ hc => hc, fun hc => hc⟩

section Boot

variable {own : ℕ → Prop} {root : Tree → Option ℕ} {pml4 : ℕ}

variable (own root) in
/-- A step of `paging_init`: it keeps the tables and gives nothing back. -/
structure BootKept (m m' : Machine) : Prop extends
    Kept root (treePath own) (fun _ _ => True) m m' where
  busy : ∀ x, m.pmm.Busy x → m'.pmm.Busy x

theorem BootKept.refl {m : Machine} (h : TablesOk root (treePath own) m) : BootKept own root m m :=
  ⟨Kept.refl h, fun _ hx => hx⟩

theorem BootKept.trans {m m' m'' : Machine} (h : BootKept own root m m')
    (h' : BootKept own root m' m'') : BootKept own root m m'' :=
  ⟨h.toKept.trans h'.toKept, fun x hx => h'.busy x (h.busy x hx)⟩

/-- The calls of `paging_init` change only the kernel's tables. -/
theorem mapCalls_kept (hroot : root .kernel = some pml4) : ∀ (calls : List (ℕ × ℕ)) {m : Machine},
    (∀ c ∈ calls, ¬ own (pml4Idx c.1)) → TablesOk root (treePath own) m →
      BootKept own root m (calls.foldl (Machine.mapCall pml4) m)
  | [], m, _, h => BootKept.refl h
  | c :: cs, m, hcs, h => by
    obtain ⟨hmap, hbusy⟩ := vmmMapPage_outside Tree.kernel closed_treePath h c.2 hroot
      (.inl (tablePath_ok c.1)) (not_kernel_leafPath (hcs c List.mem_cons_self)) kernelFlags_ok
    have h₁ : BootKept own root m (m.mapCall pml4 c) :=
      ⟨hmap.mono _ fun _ _ _ => trivial, fun x hx => (hbusy x hx).1⟩
    exact h₁.trans
      (mapCalls_kept hroot cs (fun d hd => hcs d (List.mem_cons_of_mem c hd)) h₁.tables)

/-- Pages below 4 GiB. -/
theorem pml4Idx_low {start stop i : ℕ} (hstop : stop ≤ 0x100000000)
    (hi : i < (stop - start) / pageSize) : pml4Idx (u64 (start + i * pageSize)) = 0 := by
  unfold pageSize at hi ⊢
  rw [u64_of_lt (by omega), pml4Idx_eq]
  omega

theorem BootClear.calls {hhdm : ℕ} {img : KernelImage} {mmap : List MemmapEntry}
    (h : BootClear own hhdm img mmap) : ∀ c ∈ pagingCalls hhdm img mmap, ¬ own (pml4Idx c.1) := by
  intro c hc
  rcases List.mem_append.mp hc with himage | hentries
  · obtain ⟨i, hi, rfl⟩ := List.mem_map.mp himage
    exact h.image i (List.mem_range.mp hi)
  · obtain ⟨e, he, hc⟩ := List.mem_flatMap.mp hentries
    unfold entryCalls at hc
    split_ifs at hc with hm
    · rcases List.mem_append.mp hc with hdirect | hidentity
      · obtain ⟨i, hi, rfl⟩ := List.mem_map.mp hdirect
        exact h.direct e he hm i (List.mem_range.mp hi)
      · obtain ⟨i, hi, rfl⟩ := List.mem_map.mp hidentity
        rw [pml4Idx_low (min_le_right _ _) (List.mem_range.mp hi)]
        exact h.identity
    · cases hc

theorem pagingInit_tables {hhdm : ℕ} {img : KernelImage} {mmap : List MemmapEntry}
    {m m' : Machine} (hclear : BootClear own hhdm img mmap) (hI : m.pmm.Inv)
    (hw : m.pmm.totalPages ≤ 2 ^ 40) (h : pagingInit hhdm img mmap m = some (pml4, m')) :
    TablesOk (treeRoot pml4 [] fun _ => none) (treePath own) m'
      ∧ m'.pmm.totalPages = m.pmm.totalPages ∧ m'.pmm.Busy 0 := by
  have hnone : TablesOk (fun _ : Tree => none) (treePath own) m :=
    { pmm := hI
      width := hw
      forest := fun _ _ _ _ _ _ _ hx _ => by cases hx
      busy := fun _ _ _ _ hx => by cases hx
      tidy := fun _ _ _ _ _ hx => by cases hx }
  rw [pagingInit_eq] at h
  split_ifs at h with h0
  simp only [Option.some.injEq, Prod.mk.injEq] at h
  obtain ⟨rfl, rfl⟩ := h
  obtain ⟨-, -, -, a4⟩ := Pmm.pmmAllocPage_spec hI
  obtain ⟨hv, hbusy⟩ := a4 h0
  have hfresh := hnone.fresh_of_vacant hv
  have halloc : Kept _ _ (fun _ _ => True) _ _ := hnone.alloc closed_treePath
  obtain ⟨hfill, -⟩ : Kept _ _ (fun _ _ => True) _ _ ∧ _ :=
    halloc.tables.fill closed_treePath hfresh fun a j h => PhysMem.zeroPage_of_ne h
  have hkernel : TablesOk (treeRoot (m.pmm.pmmAllocPage).1 [] fun _ => none) (treePath own)
      ⟨(m.pmm.pmmAllocPage).2, m.phys.zeroPage (m.pmm.pmmAllocPage).1⟩ := by
    refine hfill.tables.addRoot .kernel closed_treePath rfl ?_ ?_ ((hbusy _).mpr (.inr rfl))
      fun t p _ hx => by cases hx
    · intro t ht
      cases t with
      | kernel => exact absurd rfl ht
      | heapPage j => rfl
      | mm b => rfl
    · exact fun j _ => if_pos rfl
  have hmaps := mapCalls_kept rfl _ hclear.calls hkernel
  refine ⟨hmaps.tables, hmaps.total.trans halloc.total, hmaps.busy 0 ?_⟩
  exact (hbusy 0).mpr (.inl (Pmm.pmmAllocPage_busy_zero hI h0))

/-- Physical memory small enough for the heap's part of the address space to hold all of it. -/
def MemoryFits (mmap : List MemmapEntry) : Prop :=
  kernelHeapBase + highestPa mmap < 2 ^ 64

/-- What `bootMemory` has made when it comes to the heap. -/
theorem bootMemory_cases {hhdm pgnum : ℕ} {img : KernelImage} {mmap : List MemmapEntry}
    {phys : PhysMem} {k : Kernel} (hfit : MemoryFits mmap) (hclear : BootClear own hhdm img mmap)
    (h : bootMemory hhdm img mmap pgnum phys = some k) :
    ∃ km ok, MemInv own (fun _ => none) [] km ∧ km.pmm.Busy 0
      ∧ km.heap.kheapTop = kernelHeapBase ∧ KMem.kheapExpand pgnum km = some (ok, k.toKMem) := by
  unfold bootMemory at h
  obtain ⟨p, hp, h⟩ := Option.bind_eq_some_iff.mp h
  obtain ⟨⟨pml4, m⟩, hm, h⟩ := Option.bind_eq_some_iff.mp h
  obtain ⟨km, hk, rfl⟩ := Option.map_eq_some_iff.mp h
  obtain ⟨hI, -, htot⟩ := pmmInit_inv hp
  unfold MemoryFits kernelHeapBase at hfit
  obtain ⟨ht, hmt, hz⟩ := pagingInit_tables hclear hI (by dsimp only; omega) hm
  obtain ⟨⟨ok, km'⟩, he, rfl⟩ := Option.map_eq_some_iff.mp hk
  refine ⟨{ toMachine := m, kernelPml4 := pml4, heap := ⟨[], kernelHeapBase⟩ }, ok,
    ⟨ht, rfl, rfl, ?_⟩, hz, rfl, he⟩
  dsimp only at hmt ⊢
  rw [hmt, htot]
  unfold kernelHeapBase pageSize
  omega

theorem bootMemory_inv {hhdm pgnum : ℕ} {img : KernelImage} {mmap : List MemmapEntry}
    {phys : PhysMem} {k : Kernel} (hfit : MemoryFits mmap) (hclear : BootClear own hhdm img mmap)
    (htop : HeapClear own k.heap.kheapTop)
    (h : bootMemory hhdm img mmap pgnum phys = some k) : SpacesInv own [] k := by
  obtain ⟨km, ok, hmem, -, -, he⟩ := bootMemory_cases hfit hclear h
  have hkept : MemKept own (fun _ => none) (fun _ _ => False) _ _ := kheapExpand_kept hmem htop he
  exact ⟨hkept.mem, List.nodup_nil, by simp, by simp⟩

end Boot

/-! ## Runs of calls -/

inductive MmOp
  | mmAlloc
  | mmMapRange (mm va size : ℕ) (vmFlags : BitVec 64)
  | mmCopy (dst src : ℕ)
  | mmFree (mm : ℕ)
  deriving Repr, DecidableEq

/-- The kernel with the address spaces made and not yet released. -/
structure MmRun where
  k : Kernel
  live : List ℕ

/-- A call: on live address spaces, on ranges of the user half, and copying into one without
areas. A copy that fails has released its destination. -/
def mmStep (s : MmRun) : MmOp → Option MmRun
  | .mmAlloc => s.k.mmAlloc.map fun r => ⟨r.2, if r.1 = 0 then s.live else r.1 :: s.live⟩
  | .mmMapRange mm va size vmFlags =>
    if mm ∈ s.live ∧ va + size ≤ 2 ^ 47 then
      (s.k.mmMapRange mm va size vmFlags).map fun r => ⟨r.2, s.live⟩
    else none
  | .mmCopy dst src =>
    if dst ∈ s.live ∧ src ∈ s.live ∧ (s.k.mms dst).vmaList = [] then
      (s.k.mmCopy dst src).map fun r => ⟨r.2, if r.1 then s.live else s.live.erase dst⟩
    else none
  | .mmFree mm => if mm ∈ s.live then some ⟨s.k.mmFree mm, s.live.erase mm⟩ else none

/-- The live structures on the heap: each address space and the areas it links. -/
def MmRun.objects (s : MmRun) : List (ℕ × ℕ) :=
  s.live.flatMap fun a =>
    (a, mmStructSize) :: (s.k.mms a).vmaList.map fun v => (v, vmaStructSize)

/-- Every live structure is in a block in use whenever `kmalloc` may be called. -/
def MmOk (s : MmRun) : MmOp → Prop
  | .mmFree _ => True
  | _ => ∀ o ∈ s.objects, Holds s.k.heap.kheapList o

instance (bs : List Block) (a : ℕ × ℕ) : Decidable (Holds bs a) :=
  inferInstanceAs (Decidable (∃ b ∈ bs, _))

instance (s : MmRun) : (op : MmOp) → Decidable (MmOk s op)
  | .mmFree _ => isTrue trivial
  | .mmAlloc => inferInstanceAs (Decidable (∀ o ∈ s.objects, _))
  | .mmMapRange _ _ _ _ => inferInstanceAs (Decidable (∀ o ∈ s.objects, _))
  | .mmCopy _ _ => inferInstanceAs (Decidable (∀ o ∈ s.objects, _))

/-- The frame at a path of an address space: the PML4, a table or a page. -/
def MmRun.frame (s : MmRun) (a : ℕ) (p : List ℕ) : Option ℕ := s.k.table (s.k.mms a).pml4Pa p

/-- Frames are referenced once among all live address spaces, and are taken. -/
structure FramesIsolated (s : MmRun) : Prop where
  distinct : s.live.Nodup
  once : ∀ a ∈ s.live, ∀ b ∈ s.live, ∀ p q n, UserPath p → UserPath q →
    s.frame a p = some n → s.frame b q = some n → a = b ∧ p = q
  busy : ∀ a ∈ s.live, ∀ p n, UserPath p → s.frame a p = some n → s.k.pmm.Busy n

theorem SpacesInv.isolated {own : ℕ → Prop} {s : MmRun} (h : SpacesInv own s.live s.k) :
    FramesIsolated s := by
  obtain ⟨frames, hmem⟩ := h.mem
  have hframe : ∀ a ∈ s.live, ∀ p n, s.frame a p = some n →
      s.k.node (treeRoot s.k.kernelPml4 frames (s.k.spaces s.live)) (.mm a) p = some n :=
    fun a ha p n hn => (Machine.node_eq_table (if_pos ha) p).trans hn
  refine ⟨h.nodup, fun a ha b hb p q n hp hq hpn hqn => ?_, fun a ha p n hp hn => ?_⟩
  · obtain ⟨hab, hpq⟩ := hmem.tables.forest (.mm a) p (.mm b) q n hp hq (hframe a ha p n hpn)
      (hframe b hb q n hqn)
    exact ⟨Tree.mm.inj hab, hpq⟩
  · exact hmem.tables.busy (.mm a) p n hp (hframe a ha p n hn)

theorem mmStep_inv (s : MmRun) (op : MmOp) (s' : MmRun)
    (hI : SpacesInv (fun _ => False) s.live s.k) (hok : MmOk s op) (h : mmStep s op = some s') :
    SpacesInv (fun _ => False) s'.live s'.k := by
  cases op with
  | mmAlloc =>
    obtain ⟨⟨mm, k'⟩, hr, rfl⟩ := Option.map_eq_some_iff.mp h
    have hheld : ∀ a ∈ s.live, Holds s.k.heap.kheapList (a, mmStructSize) := fun a ha =>
      hok _ (List.mem_flatMap.mpr ⟨a, ha, List.mem_cons_self⟩)
    obtain ⟨hkept, hnew⟩ := mmAlloc_kept (T := fun _ _ => False) hI hheld (heapClear_false _) hr
    dsimp only
    split_ifs with h0
    · exact hkept.inv
    · exact (hnew h0).1
  | mmMapRange mm va size vmFlags =>
    unfold mmStep at h
    dsimp only at h
    split_ifs at h with hc
    obtain ⟨⟨ok, k'⟩, hr, rfl⟩ := Option.map_eq_some_iff.mp h
    exact (mmMapRange_kept hI hc.1 hc.2 (heapClear_false _) hr).inv
  | mmCopy dst src =>
    unfold mmStep at h
    dsimp only at h
    split_ifs at h with hc
    obtain ⟨⟨ok, k'⟩, hr, rfl⟩ := Option.map_eq_some_iff.mp h
    exact (mmCopy_kept hI hc.1 hc.2.1 (heapClear_false _) hr).inv
  | mmFree mm =>
    unfold mmStep at h
    dsimp only at h
    split_ifs at h with hc
    simp only [Option.some.injEq] at h
    subst h
    exact (mmFree_kept (T := fun _ _ => False) hI hc).inv

theorem mmRun_inv {hhdm pgnum : ℕ} {img : KernelImage} {mmap : List MemmapEntry} {phys : PhysMem}
    {ops : List MmOp} {k : Kernel} {s : MmRun} (hfit : MemoryFits mmap)
    (hboot : bootMemory hhdm img mmap pgnum phys = some k)
    (hok : Run.Meets mmStep MmOk ⟨k, []⟩ ops) (h : Run.run mmStep ⟨k, []⟩ ops = some s) :
    SpacesInv (fun _ => False) s.live s.k := by
  have h₀ : SpacesInv (fun _ => False) [] k :=
    bootMemory_inv hfit (bootClear_false _ _ _) (heapClear_false _) hboot
  exact Run.run_invariant_of_meets (I := fun s => SpacesInv (fun _ => False) s.live s.k)
    mmStep_inv h₀ hok h

/-- No frame is shared, within an address space or between two, in any run that calls `kmalloc`
only while every live structure is in a block in use. -/
theorem frames_isolated (hhdm : ℕ) (img : KernelImage) (mmap : List MemmapEntry) (pgnum : ℕ)
    (phys : PhysMem) (ops : List MmOp) {k : Kernel} {s : MmRun} (hfit : MemoryFits mmap)
    (hboot : bootMemory hhdm img mmap pgnum phys = some k)
    (hok : Run.Meets mmStep MmOk ⟨k, []⟩ ops) (h : Run.run mmStep ⟨k, []⟩ ops = some s) :
    FramesIsolated s :=
  (mmRun_inv hfit hboot hok h).isolated

/-- Forty usable pages below a reserved one. -/
def bootMmap : List MemmapEntry :=
  [⟨0x1000, 0x28000, .usable⟩, ⟨0x29000, 0x1000, .reserved⟩]

def bootKernel : Option Kernel :=
  bootMemory 0xFFFF800000000000 ⟨0xFFFFFFFF80000000, 0, 0⟩ bootMmap 1 fun _ _ => 0#64

/-- The addresses `mm_alloc` returns first and second. -/
def firstMm : ℕ := kernelHeapBase + 32

def secondMm : ℕ := kernelHeapBase + 168

def smallMmOps : List MmOp :=
  [.mmAlloc, .mmAlloc, .mmMapRange firstMm 0x400100 0x2000 vmWrite, .mmCopy secondMm firstMm,
    .mmMapRange secondMm 0x400000 0x1000 vmRead, .mmFree secondMm]

theorem frames_isolated_bootMmap :
    ∃ k s, bootKernel = some k ∧ Run.run mmStep ⟨k, []⟩ smallMmOps = some s
      ∧ s.live = [firstMm] ∧ FramesIsolated s := by
  have hrun : (bootKernel.bind fun k => (Run.run mmStep ⟨k, []⟩ smallMmOps).map fun s =>
      (s.live, decide (Run.Meets mmStep MmOk ⟨k, []⟩ smallMmOps))) = some ([firstMm], true) := by
    decide +kernel
  obtain ⟨k, hk, hrun⟩ := Option.bind_eq_some_iff.mp hrun
  obtain ⟨s, hs, hlive⟩ := Option.map_eq_some_iff.mp hrun
  obtain ⟨hlive, hok⟩ := Prod.mk.inj hlive
  refine ⟨k, s, hk, hs, hlive, ?_⟩
  exact frames_isolated 0xFFFF800000000000 ⟨0xFFFFFFFF80000000, 0, 0⟩ bootMmap 1 (fun _ _ => 0#64)
    smallMmOps (by unfold MemoryFits; decide) hk (of_decide_eq_true hok) hs

/-- The release of the first address space absorbs the block of the second, which is then handed
out again; the release of the second takes the PML4 of the new one. -/
theorem live_mm_reallocated :
    ∃ k s, bootKernel = some k ∧ MemoryFits bootMmap
      ∧ Run.run mmStep ⟨k, []⟩
        [.mmAlloc, .mmAlloc, .mmFree firstMm, .mmAlloc, .mmAlloc, .mmFree secondMm] = some s
      ∧ ¬ FramesIsolated s := by
  have hrun : (bootKernel.bind fun k => (Run.run mmStep ⟨k, []⟩
      [.mmAlloc, .mmAlloc, .mmFree firstMm, .mmAlloc, .mmAlloc, .mmFree secondMm]).map fun s =>
        (decide (secondMm ∈ s.live), s.frame secondMm [], s.k.pmm.bitTest (0xF000 / 4096)))
      = some (true, some 0xF000, false) := by
    decide +kernel
  obtain ⟨k, hk, hrun⟩ := Option.bind_eq_some_iff.mp hrun
  obtain ⟨s, hs, hrun⟩ := Option.map_eq_some_iff.mp hrun
  obtain ⟨hlive, hframe, hbit⟩ : _ ∧ _ ∧ _ := by
    simpa only [Prod.mk.injEq] using hrun
  refine ⟨k, s, hk, by unfold MemoryFits; decide, hs, fun h => ?_⟩
  have hbusy := h.busy secondMm (of_decide_eq_true hlive) [] 0xF000
    ⟨by simp, by simp, by simp⟩ hframe
  rw [hbusy.bit] at hbit
  cases hbit

end SudoOS
