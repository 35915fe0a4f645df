import SudoOS.HeapCalls
import SudoOS.Proofs.CopySupply
import SudoOS.Proofs.Fork

/-!
# Releases of a failing fork

`mm_copy` releases the destination when it fails half way, and `free_proc` does so again: a fork
that fails releases each object once exactly if there is an address space to copy, none can be made
for the child, or there is memory for the copies of all areas (`failing_fork`). That `mm_map_range`
leaves the area it has released in the list makes three releases of that one.
-/

namespace SudoOS

/-- Each object allocated is released once, and no address space twice. -/
structure ReleasesOnce (calls : List HeapCall) : Prop where
  once : ∀ p ≠ 0, .kmalloc p ∈ calls → calls.count (.kfree p) = 1
  mms : ∀ mm, calls.count (.mmFree mm) ≤ 1

theorem kfree_injective : Function.Injective HeapCall.kfree := fun _ _ h => HeapCall.kfree.inj h

/-- Allocations first, then an address space and the rest. -/
theorem releasesOnce_of_split (taken freed : List ℕ) {mid : List HeapCall}
    (hmid : mid = [] ∨ ∃ mm, mid = [.mmFree mm]) (hnd : freed.Nodup)
    (hsub : ∀ p ∈ taken, p ≠ 0 → p ∈ freed) :
    ReleasesOnce (taken.map .kmalloc ++ (mid ++ freed.map .kfree)) := by
  have htaken : ∀ p, (taken.map HeapCall.kmalloc).count (.kfree p) = 0 := fun p => by
    simp [List.count_eq_zero]
  have htaken' : ∀ mm, (taken.map HeapCall.kmalloc).count (.mmFree mm) = 0 := fun mm => by
    simp [List.count_eq_zero]
  have hfreed : ∀ mm, (freed.map HeapCall.kfree).count (.mmFree mm) = 0 := fun mm => by
    simp [List.count_eq_zero]
  have hin : mid.length ≤ 1 ∧ (∀ p, .kmalloc p ∉ mid) ∧ ∀ p, mid.count (.kfree p) = 0 := by
    rcases hmid with rfl | ⟨mm, rfl⟩ <;> simp
  refine ⟨fun p hp hmem => ?_, fun mm => ?_⟩
  · have hmem' : p ∈ taken := by
      simp only [List.mem_append, List.mem_map, HeapCall.kmalloc.injEq, exists_eq_right] at hmem
      rcases hmem with h | h | ⟨q, -, hq⟩
      · exact h
      · exact absurd h (hin.2.1 p)
      · cases hq
    rw [List.count_append, List.count_append, htaken, hin.2.2, Nat.zero_add, Nat.zero_add,
      List.count_map_of_injective _ _ kfree_injective]
    exact List.count_eq_one_of_mem hnd (hsub p hmem' hp)
  · rw [List.count_append, List.count_append, htaken', hfreed, Nat.zero_add, Nat.add_zero]
    exact List.count_le_length.trans hin.1

/-! ## The calls and the heap -/

/-- What a release does to the heap. -/
def HeapCall.release (h : Heap) : HeapCall → Heap
  | .kfree ptr => h.kfree ptr
  | _ => h

theorem foldl_kfree_heap : ∀ (l : List ℕ) (k : Kernel),
    (l.foldl Kernel.kfree k).heap = (l.map HeapCall.kfree).foldl HeapCall.release k.heap
  | [], _ => rfl
  | ptr :: l, k => foldl_kfree_heap l (k.kfree ptr)

/-- The heap after `mm_free` is what its calls make of the heap before. -/
theorem mmFree_heap (k : Kernel) (mm : ℕ) :
    (k.mmFree mm).heap = (k.mmFreeCalls mm).foldl HeapCall.release k.heap := by
  unfold Kernel.mmFree Kernel.mmFreeCalls Kernel.releaseTables
  dsimp only
  split_ifs
  · rfl
  all_goals
    rw [List.foldl_cons, List.foldl_append]
    change Heap.kfree _ _ = Heap.kfree (List.foldl _ k.heap _) _
    rw [← foldl_kfree_heap]

theorem ForkState.freeProc_heap (s : ForkState) (proc : ℕ) :
    (s.freeProc proc).mem.heap = (s.freeProcCalls proc).foldl HeapCall.release s.mem.heap := by
  unfold ForkState.freeProc ForkState.freeProcCalls
  rw [List.foldl_append]
  dsimp only
  split_ifs
  · rfl
  · rw [← mmFree_heap]
    rfl

/-! ## Allocations -/

/-- The blocks at `ps` have been allocated and nothing else has been released. -/
structure KMem.Took (k k' : KMem) (ps : List ℕ) : Prop where
  inv : k'.HeapInv
  holds : ∀ a, Holds k.heap.kheapList a → Holds k'.heap.kheapList a
  held : ∀ p ∈ ps, ∃ n, Holds k'.heap.kheapList (p, n)
  fresh : ∀ p ∈ ps, ∀ a, Holds k.heap.kheapList a → a.1 ≠ p
  nodup : ps.Nodup

namespace KMem

variable {k k' k'' : KMem} {ps qs : List ℕ}

theorem Took.nil (h : k.HeapInv) : k.Took k [] :=
  ⟨h, fun _ ha => ha, by simp, by simp, List.nodup_nil⟩

theorem Took.trans (h : k.Took k' ps) (h' : k'.Took k'' qs) : k.Took k'' (ps ++ qs) where
  inv := h'.inv
  holds a ha := h'.holds a (h.holds a ha)
  held p hp := by
    rcases List.mem_append.mp hp with hp | hp
    · obtain ⟨n, hn⟩ := h.held p hp
      exact ⟨n, h'.holds _ hn⟩
    · exact h'.held p hp
  fresh p hp a ha := by
    rcases List.mem_append.mp hp with hp | hp
    · exact h.fresh p hp a ha
    · exact h'.fresh p hp a (h.holds a ha)
  nodup := by
    refine List.nodup_append.mpr ⟨h.nodup, h'.nodup, fun p hp q hq heq => ?_⟩
    obtain ⟨n, hn⟩ := h.held p hp
    exact h'.fresh q hq _ hn heq

/-- Frames may be taken at any time. -/
theorem Took.machine (h : k.Took k' ps) {m : Machine} (hle : m.pmm.freePages ≤ k'.pmm.freePages) :
    k.Took { k' with toMachine := m } ps :=
  ⟨⟨h.inv.tiles, by
    have := h.inv.room
    unfold pageSize at this ⊢
    dsimp only
    omega⟩, h.holds, h.held, h.fresh, h.nodup⟩

theorem kmalloc_took {size p : ℕ} (hk : k.HeapInv) (hs : size ≤ 2 ^ 64 - 8)
    (h : k.kmalloc size = some (p, k')) (h0 : p ≠ 0) : k.Took k' [p] := by
  obtain ⟨hinv, hext, hal⟩ := kmallocLoop_spec hk h
  refine ⟨hinv, hext.holds, fun q hq => ⟨size, ?_⟩, fun q hq => ?_, List.nodup_singleton p⟩
  · rw [List.mem_singleton.mp hq]
    exact (hal hs h0).holds
  · rw [List.mem_singleton.mp hq]
    exact (hal hs h0).fresh

end KMem

theorem Machine.mapRange_freePages (pml4 start : ℕ) (flags : BitVec 64) : ∀ (n i : ℕ) (m : Machine),
    (Machine.mapRange pml4 start flags n i m).1 = true →
      (Machine.mapRange pml4 start flags n i m).2.pmm.freePages ≤ m.pmm.freePages
  | 0, _, _, _ => le_rfl
  | n + 1, i, m, h => by
    unfold Machine.mapRange at h ⊢
    dsimp only at h ⊢
    split_ifs at h ⊢ with h0
    refine (mapRange_freePages pml4 start flags n (i + 1) _ h).trans ?_
    exact (vmmMapPage_freePages _ _ _ _ _).trans (Pmm.pmmAllocPage_freePages m.pmm).1

theorem Machine.copyRange_pmm (dst src : ℕ) : ∀ (n va : ℕ) (m : Machine),
    (Machine.copyRange dst src n va m).2.pmm = m.pmm
  | 0, _, _ => rfl
  | n + 1, va, m => by
    have hpmm := copyPte_pmm m dst src va
    unfold Machine.copyRange
    rcases hc : m.copyPte dst src va with ⟨_ | _, m'⟩ <;> rw [hc] at hpmm
    · exact hpmm
    · exact (copyRange_pmm dst src n _ m').trans hpmm

section Calls

variable {k k' : Kernel} {mm dst src va size : ℕ} {vmFlags : BitVec 64} {ok : Bool}

theorem mapArea_took {km : KMem} {vma : ℕ} {v : VmaStruct} {ps : List ℕ}
    (ht : KMem.Took k.toKMem km ps)
    (h : Kernel.mapArea { k with toKMem := km } mm vma v = (true, k')) :
    KMem.Took k.toKMem k'.toKMem ps := by
  unfold Kernel.mapArea at h
  dsimp only at h
  rcases hm : Machine.mapRange ((Kernel.linkVma { k with toKMem := km } mm vma v).mms mm).pml4Pa
    v.vmStart (pteFlagsOf v.vmFlags) (Kernel.pageCount v.vmStart v.vmEnd) 0
    (Kernel.linkVma { k with toKMem := km } mm vma v).toMachine with ⟨_ | _, m⟩ <;> rw [hm] at h
  · cases (Prod.mk.inj h).1
  · obtain ⟨-, rfl⟩ := Prod.mk.inj h
    have hfree := Machine.mapRange_freePages _ _ _ _ _ _ (congrArg Prod.fst hm)
    rw [hm] at hfree
    exact ht.machine hfree

/-- When `mm_map_range` succeeds it has made one call. -/
theorem mmMapRange_calls (hI : k.toKMem.HeapInv)
    (h : k.mmMapRange mm va size vmFlags = some (true, k')) :
    ∃ vma, k.mmMapRangeCalls mm va size vmFlags = [.kmalloc vma]
      ∧ KMem.Took k.toKMem k'.toKMem [vma]
      ∧ (k'.mms mm).vmaList = (k.mms mm).vmaList ++ [vma] := by
  rcases mmMapRange_cases h with ⟨hc, -⟩ | ⟨hmm, hs, vma, km, hkm, ⟨hc, -⟩ | ⟨hv, hmap⟩⟩
  · cases hc
  · cases hc
  refine ⟨vma, ?_, mapArea_took (KMem.kmalloc_took hI (by decide) hkm hv) hmap, ?_⟩
  · unfold Kernel.mmMapRangeCalls
    rw [if_neg (not_or.mpr ⟨hmm, hs.ne'⟩), hkm]
    change HeapCall.kmalloc vma :: (if vma = 0 then [] else
      if (Kernel.mapArea _ mm vma (requestArea mm va size vmFlags)).1 then [] else _) = _
    rw [if_neg hv, hmap, if_pos rfl]
  · have hmms := mapArea_mms { k with toKMem := km } mm vma (requestArea mm va size vmFlags)
    rw [hmap] at hmms
    rw [hmms, Kernel.linkVma_mms, if_pos rfl]

theorem mmFree_mem_calls (k : Kernel) (h0 : mm ≠ 0) : .mmFree mm ∈ k.mmFreeCalls mm := by
  rw [Kernel.mmFreeCalls, if_neg h0]
  exact List.mem_cons_self

/-- The loop of `mm_copy` fails after releasing the destination, or has allocated its areas. -/
theorem mmCopyLoop_calls (hd : dst ≠ 0) : ∀ {vs : List ℕ} {k : Kernel}, k.toKMem.HeapInv →
    Kernel.mmCopyLoop dst src vs k = some (ok, k') →
    (ok = false → .mmFree dst ∈ Kernel.mmCopyLoopCalls dst src vs k)
      ∧ (ok = true → ∃ new : List ℕ, Kernel.mmCopyLoopCalls dst src vs k = new.map .kmalloc
        ∧ KMem.Took k.toKMem k'.toKMem new
        ∧ (k'.mms dst).vmaList = (k.mms dst).vmaList ++ new)
  | [], k, hI, h => by
    simp only [Kernel.mmCopyLoop, Option.some.injEq, Prod.mk.injEq] at h
    obtain ⟨rfl, rfl⟩ := h
    refine ⟨fun hc => (by cases hc), fun _ => ⟨[], rfl, ?_, ?_⟩⟩
    · exact KMem.Took.nil hI
    · rw [List.append_nil]
  | v :: vs, k, hI, h => by
    unfold Kernel.mmCopyLoop at h
    unfold Kernel.mmCopyLoopCalls
    rcases hmap : k.mmMapRange dst (k.vmas v).vmStart (u64Sub (k.vmas v).vmEnd (k.vmas v).vmStart)
      (k.vmas v).vmFlags with _ | ⟨_ | _, k₁⟩ <;> rw [hmap] at h
    · cases h
    · obtain ⟨rfl, -⟩ := Prod.mk.inj (Option.some.inj h)
      refine ⟨fun _ => List.mem_append_right _ (mmFree_mem_calls _ hd), fun hc => ?_⟩
      cases hc
    · obtain ⟨vma, hcalls, htook, hlist⟩ := mmMapRange_calls hI hmap
      dsimp only at h ⊢
      rw [hcalls]
      have hpmm := Machine.copyRange_pmm (k₁.mms dst).pml4Pa (k₁.mms src).pml4Pa
        (k₁.vmas v).rounds (k₁.vmas v).vmStart k₁.toMachine
      rcases hcopy : Machine.copyRange (k₁.mms dst).pml4Pa (k₁.mms src).pml4Pa (k₁.vmas v).rounds
        (k₁.vmas v).vmStart k₁.toMachine with ⟨_ | _, m⟩ <;> rw [hcopy] at h hpmm <;>
        dsimp only at h hpmm ⊢
      · obtain ⟨rfl, -⟩ := Prod.mk.inj (Option.some.inj h)
        refine ⟨fun _ => List.mem_append_right _ (mmFree_mem_calls _ hd), fun hc => ?_⟩
        cases hc
      · have htook' := htook.machine (m := m) (congrArg Pmm.freePages hpmm).le
        obtain ⟨hmem, hdone⟩ := mmCopyLoop_calls hd htook'.inv h
        refine ⟨fun hok => List.mem_append_right _ (hmem hok), fun hok => ?_⟩
        obtain ⟨new, hnew, htook'', hlist'⟩ := hdone hok
        refine ⟨vma :: new, by rw [hnew]; rfl, htook'.trans htook'', ?_⟩
        rw [hlist']
        dsimp only
        rw [hlist, List.append_assoc]
        rfl

/-- The calls of `mm_alloc`. -/
theorem mmAlloc_calls (hI : k.toKMem.HeapInv) (h : k.mmAlloc = some (mm, k')) :
    (mm = 0 ∧ ∃ p, (k.mmAllocCalls = [.kmalloc p] ∧ p = 0
        ∨ k.mmAllocCalls = [.kmalloc p, .kfree p] ∧ ∃ km, KMem.Took k.toKMem km [p]))
      ∨ (mm ≠ 0 ∧ k.mmAllocCalls = [.kmalloc mm] ∧ KMem.Took k.toKMem k'.toKMem [mm]
        ∧ (k'.mms mm).vmaList = []) := by
  unfold Kernel.mmAllocCalls
  unfold Kernel.mmAlloc at h
  rcases hkm : k.kmalloc mmStructSize with _ | ⟨p, km⟩ <;> rw [hkm] at h <;> dsimp only at h ⊢
  · cases h
  rcases eq_or_ne p 0 with rfl | hp
  · obtain ⟨rfl, -⟩ := Prod.mk.inj (Option.some.inj h)
    exact .inl ⟨rfl, 0, .inl ⟨rfl, rfl⟩⟩
  have htook := KMem.kmalloc_took hI (by decide) hkm hp
  rw [if_neg hp] at h ⊢
  change (if (km.pmm.pmmAllocPage).1 = 0 then _ else _) = _ at h
  split_ifs at h ⊢ with hpage <;> obtain ⟨rfl, rfl⟩ := Prod.mk.inj (Option.some.inj h)
  · exact .inl ⟨rfl, p, .inr ⟨rfl, km, htook⟩⟩
  · refine .inr ⟨hp, rfl, htook.machine (Pmm.pmmAllocPage_freePages km.pmm).1, ?_⟩
    rw [Kernel.setMm_self]

/-- A new address space is none of those there are. -/
theorem mmAlloc_keeps (hI : k.toKMem.HeapInv) (h : k.mmAlloc = some (mm, k')) (h0 : mm ≠ 0) :
    k'.vmas = k.vmas
      ∧ ∀ a, Holds k.heap.kheapList a → Holds k'.heap.kheapList a ∧ k'.mms a.1 = k.mms a.1 := by
  unfold Kernel.mmAlloc at h
  rcases hkm : k.kmalloc mmStructSize with _ | ⟨p, km⟩ <;> rw [hkm] at h <;> dsimp only at h
  · cases h
  obtain ⟨-, hext, hal⟩ := KMem.kmallocLoop_spec hI hkm
  split_ifs at h with hp hpage <;> obtain ⟨rfl, rfl⟩ := Prod.mk.inj (Option.some.inj h)
  · exact absurd rfl h0
  · exact absurd rfl h0
  · refine ⟨rfl, fun a ha => ⟨hext.holds a ha, ?_⟩⟩
    have hne := (hal (by decide) h0).fresh a ha
    rw [Kernel.setMm_of_ne _ _ hne]
    exact Function.update_of_ne hne _ _

end Calls

namespace ForkState

/-- The caller's address space. -/
def parentMm (s : ForkState) : ℕ := (s.sched.pcbs s.sched.currentProc).mm

/-- The caller's areas. -/
def areas (s : ForkState) : List ℕ := (s.mem.mms s.parentMm).vmaList

/-- Kernel memory is well formed, and the caller's structures are in blocks in use. -/
structure Settled (s : ForkState) : Prop where
  heap : s.mem.toKMem.HeapInv
  tables : MapInv s.mem.kernelPml4 s.mem.toMachine
  entries : s.mem.toKMem.HeapEntries
  pcb : Holds s.mem.heap.kheapList (s.sched.currentProc, pcbSize)
  mm : s.parentMm ≠ 0 → Holds s.mem.heap.kheapList (s.parentMm, mmStructSize)
    ∧ ∀ v ∈ s.areas, (s.mem.vmas v).PageAligned
      ∧ Holds s.mem.heap.kheapList (v, vmaStructSize)
  pid : 0 ≤ s.sched.nextPid

/-- There is memory for the child's PCB and `mm_struct`, and a frame for its PML4. -/
def MakesSpace (s : ForkState) : Prop := s.mem.toKMem.SuppliesNew [pcbSize, mmStructSize] []

/-- No area of the caller is empty, and there is memory besides for copies of them all. -/
def CopiesAreas (s : ForkState) : Prop :=
  (∀ v ∈ s.areas, (s.mem.vmas v).vmStart ≠ (s.mem.vmas v).vmEnd)
    ∧ s.mem.toKMem.SuppliesNew (pcbSize :: mmStructSize :: s.areas.map fun _ => vmaStructSize)
      (s.mem.pagesOf s.areas)

variable {s s' : ForkState} {child : ℕ}

theorem forkPcb_pid (s : ForkState) (child : ℕ) :
    ((s.forkPcb child).sched.pcbs child).pid = s.sched.nextPid := by
  unfold forkPcb modifyPcb Sched.modify Sched.newPcb Sched.allocNewPcb Pcb.setProcName
  simp

theorem forkPcb_parentMm (s : ForkState) (hcur : child ≠ s.sched.currentProc) :
    (s.forkPcb child).parentMm = s.parentMm := by
  unfold parentMm forkPcb modifyPcb Sched.modify Sched.newPcb Sched.allocNewPcb Pcb.setProcName
  simp [Function.update_of_ne hcur.symm]

theorem modifyPcb_mm_pid (s : ForkState) (child mm : ℕ) :
    ((s.modifyPcb child fun p => { p with mm := mm }).sched.pcbs child).mm = mm
      ∧ ((s.modifyPcb child fun p => { p with mm := mm }).sched.pcbs child).pid
        = (s.sched.pcbs child).pid := by
  rw [modifyPcb_pcbs]
  exact ⟨rfl, rfl⟩

/-- A fork that comes to the stack and fails has not got it. -/
theorem forkStack_failing (hpid : (s.sched.pcbs child).pid ≠ -1)
    (h : (s.forkStack child).1 = -1) :
    s.forkStackCalls child
      = freeProcCalls { s with mem := (s.mem.kstackInit kstackSize).2 } child := by
  unfold forkStack at h
  unfold forkStackCalls
  dsimp only at h ⊢
  split_ifs at h ⊢ with h0
  · rfl
  · refine absurd ?_ hpid
    rw [← h, modifyPcb_pcbs]

theorem freeProcCalls_eq (s : ForkState) {mm : ℕ} (hmm : (s.sched.pcbs child).mm = mm)
    (h0 : mm ≠ 0) : s.freeProcCalls child
      = .mmFree mm :: ((s.mem.mms mm).vmaList ++ [mm, child]).map .kfree := by
  rw [freeProcCalls, hmm, if_neg h0, Kernel.mmFreeCalls, if_neg h0]
  simp

/-- Two releases of an address space. -/
theorem not_releasesOnce {calls calls' : List HeapCall} {mm : ℕ} (h : .mmFree mm ∈ calls)
    (h' : .mmFree mm ∈ calls') (head : List HeapCall) :
    ¬ ReleasesOnce (head ++ (calls ++ calls')) := by
  intro hr
  have htwice := hr.mms mm
  have hone := List.count_pos_iff.mpr h
  have hone' := List.count_pos_iff.mpr h'
  rw [List.count_append, List.count_append] at htwice
  omega

/-- After the failure of `mm_alloc` there is at most its structure to release, besides the PCB. -/
theorem releasesOnce_of_mmAlloc {km : KMem} {calls : List HeapCall}
    (htook : KMem.Took km s.mem.toKMem [child])
    (h : ∃ p, (calls = [.kmalloc p] ∧ p = 0)
      ∨ (calls = [.kmalloc p, .kfree p] ∧ ∃ km', KMem.Took s.mem.toKMem km' [p])) :
    ReleasesOnce (.kmalloc child :: (calls ++ [.kfree child])) := by
  rcases h with ⟨p, ⟨rfl, rfl⟩ | ⟨rfl, km', htook'⟩⟩
  · exact releasesOnce_of_split [child, 0] [child] (.inl rfl)
      (List.nodup_singleton child) (by simp)
  · have hnd : [p, child].Nodup := List.nodup_reverse.mp (htook.trans htook').nodup
    exact releasesOnce_of_split [child, p] [p, child] (.inl rfl) hnd (by simp)

/-- From a `mm_copy` of two address spaces on. -/
theorem forkCopy_calls {km : KMem} {mm src : ℕ} (htook : KMem.Took km s.mem.toKMem [child, mm])
    (hmm : (s.sched.pcbs child).mm = mm) (hpid : (s.sched.pcbs child).pid ≠ -1) (h0 : mm ≠ 0)
    (hs0 : src ≠ 0) (hempty : (s.mem.mms mm).vmaList = [])
    (h : (match s.mem.mmCopy mm src with
      | none => none
      | some (false, k) => some (-1, (s.setKernel k).freeProc child)
      | some (true, k) => some ((s.setKernel k).forkStack child)) = some (-1, s')) :
    ∃ ok k, Kernel.mmCopyLoop mm src (s.mem.mms src).vmaList s.mem.toKernel = some (ok, k)
      ∧ (ReleasesOnce ([.kmalloc child, .kmalloc mm] ++ (s.mem.mmCopyCalls mm src ++
        match s.mem.mmCopy mm src with
        | none => []
        | some (false, k) => (s.setKernel k).freeProcCalls child
        | some (true, k) => (s.setKernel k).forkStackCalls child)) ↔ ok = true) := by
  rw [Kernel.mmCopy, if_neg (not_or.mpr ⟨h0, hs0⟩)] at h ⊢
  rw [Kernel.mmCopyCalls, if_neg (not_or.mpr ⟨h0, hs0⟩)]
  rcases hloop : Kernel.mmCopyLoop mm src (s.mem.mms src).vmaList s.mem.toKernel with
    _ | ⟨ok, k⟩ <;> rw [hloop] at h
  · cases h
  obtain ⟨hmem, hdone⟩ := mmCopyLoop_calls h0 htook.inv hloop
  refine ⟨ok, k, rfl, ?_⟩
  cases ok with
  | false =>
    have hproc : .mmFree mm ∈ (s.setKernel k).freeProcCalls child := by
      rw [freeProcCalls_eq (s.setKernel k) hmm h0]
      exact List.mem_cons_self
    exact ⟨fun hr => absurd hr (not_releasesOnce (hmem rfl) hproc _),
      fun hc => (by cases hc)⟩
  | true =>
    obtain ⟨new, hnew, htook', hlist⟩ := hdone rfl
    have hret : ((s.setKernel k).forkStack child).1 = -1 := by rw [Option.some.inj h]
    have hproc : ∀ m : MmState, m.mms = k.mms → freeProcCalls { s with mem := m } child
        = .mmFree mm :: (new ++ [mm, child]).map .kfree := by
      intro m hmms
      rw [freeProcCalls_eq { s with mem := m } hmm h0, hmms, hlist, hempty, List.nil_append]
    have hperm : ([child, mm] ++ new).Perm (new ++ [mm, child]) :=
      List.perm_append_comm.trans (.append_left new (.swap _ _ _))
    dsimp only
    rw [forkStack_failing (s := s.setKernel k) hpid hret, hnew]
    refine ⟨fun _ => rfl, fun _ => ?_⟩
    have hsplit := releasesOnce_of_split ([child, mm] ++ new) (new ++ [mm, child])
      (.inr ⟨mm, rfl⟩) (hperm.nodup_iff.mp (htook.trans htook').nodup)
      fun p hp _ => hperm.mem_iff.mp hp
    rw [List.map_append, List.append_assoc] at hsplit
    change ReleasesOnce (_ ++ (_ ++ freeProcCalls { s with mem := _ } child))
    rw [hproc _ (kstackInit_mms _ _)]
    exact hsplit

/-- From `mm_alloc` on. -/
theorem forkMemory_calls (km : KMem) (htook : KMem.Took km s.mem.toKMem [child])
    (hpid : (s.sched.pcbs child).pid ≠ -1) (hcur : child ≠ s.sched.currentProc)
    (h : s.forkMemory child = some (-1, s')) :
    ∃ mm k, s.mem.mmAlloc = some (mm, k)
      ∧ (mm = 0 ∨ s.parentMm = 0 → ReleasesOnce (.kmalloc child :: s.forkMemoryCalls child))
      ∧ (mm ≠ 0 → s.parentMm ≠ 0 → ∃ ok k', Kernel.mmCopyLoop mm s.parentMm
          (k.mms s.parentMm).vmaList k = some (ok, k')
        ∧ (ReleasesOnce (.kmalloc child :: s.forkMemoryCalls child) ↔ ok = true)) := by
  unfold forkMemory at h
  unfold forkMemoryCalls
  rcases halloc : s.mem.mmAlloc with _ | ⟨mm, k⟩ <;> rw [halloc] at h <;> dsimp only at h ⊢
  · cases h
  refine ⟨mm, k, rfl, ?_⟩
  obtain ⟨hmm, hpid'⟩ := modifyPcb_mm_pid (s.setKernel k) child mm
  have hsrc : (((s.setKernel k).modifyPcb child fun p => { p with mm := mm }).sched.pcbs
      ((s.setKernel k).modifyPcb child fun p => { p with mm := mm }).sched.currentProc).mm
        = s.parentMm := congrArg Pcb.mm (Function.update_of_ne hcur.symm _ _)
  have hk : ((s.setKernel k).modifyPcb child fun p => { p with mm := mm }).mem.toKernel = k := rfl
  revert h hmm hpid' hk hsrc
  generalize ((s.setKernel k).modifyPcb child fun p => { p with mm := mm }) = s₁
  intro h hmm hpid' hsrc hk
  rw [hmm, hsrc] at h ⊢
  generalize s.parentMm = src at h ⊢
  obtain rfl := hk
  rcases mmAlloc_calls htook.inv halloc with ⟨rfl, hcalls⟩ | ⟨h0, hcalls, htook', hempty⟩
  · have hproc : s₁.freeProcCalls child = [.kfree child] := by
      unfold freeProcCalls
      rw [hmm, if_pos rfl]
      rfl
    rw [Kernel.mmCopy, if_pos (.inl rfl), Kernel.mmCopyCalls, if_pos (.inl rfl)]
    change (_ → ReleasesOnce (_ :: (_ ++ ([] ++ s₁.freeProcCalls child)))) ∧ _
    rw [hproc]
    exact ⟨fun _ => releasesOnce_of_mmAlloc htook hcalls, fun hc => absurd rfl hc⟩
  rw [hcalls]
  refine ⟨fun hc => ?_, fun _ hs0 =>
    forkCopy_calls (htook.trans htook') hmm (hpid'.trans_ne hpid) h0 hs0 hempty h⟩
  have hs0 : src = 0 := hc.resolve_left h0
  have hproc := freeProcCalls_eq s₁ hmm h0
  rw [hempty] at hproc
  rw [Kernel.mmCopy, if_pos (.inr hs0), Kernel.mmCopyCalls, if_pos (.inr hs0)]
  change ReleasesOnce (_ :: ([_] ++ ([] ++ s₁.freeProcCalls child)))
  rw [hproc]
  have hnd : [mm, child].Nodup := List.nodup_reverse.mp (htook.trans htook').nodup
  exact releasesOnce_of_split [child, mm] [mm, child] (.inr ⟨mm, rfl⟩) hnd (by simp)

/-- A fork that fails passes each object it has allocated to `kfree` once, and no address space to
`mm_free` twice, exactly if the caller has no address space, none can be made for the child, or
there is memory for the copies of all areas. -/
theorem failing_fork (hs : s.Settled) (h : s.sysFork = some (-1, s')) :
    ReleasesOnce s.sysForkCalls ↔ s.parentMm = 0 ∨ ¬ s.MakesSpace ∨ s.CopiesAreas := by
  unfold sysFork at h
  unfold sysForkCalls
  rcases hkm : s.mem.kmalloc pcbSize with _ | ⟨child, km⟩ <;> rw [hkm] at h <;> dsimp only at h ⊢
  · cases h
  split_ifs at h ⊢ with h0
  have hpcb : (((s.setKernel { s.mem.toKernel with toKMem := km }).forkPcb child).sched.pcbs
      child).pid ≠ -1 := by
    have hpid := hs.pid
    rw [forkPcb_pid]
    change s.sched.nextPid ≠ -1
    omega
  have hspent : s.mem.toKMem.Spent s.mem.kernelPml4 km [pcbSize] [] :=
    (((KMem.Spent.start hs.heap hs.tables).kmalloc_cases (by decide) (by decide) hkm).resolve_right
      fun hc => h0 hc.1).2.1
  obtain ⟨-, hext, hal⟩ := KMem.kmallocLoop_spec hs.heap hkm
  have hcur : child ≠ s.sched.currentProc := ((hal (by decide) h0).fresh _ hs.pcb).symm
  have htook := KMem.kmalloc_took hs.heap (by decide) hkm h0
  have hparent : ((s.setKernel { s.mem.toKernel with toKMem := km }).forkPcb child).parentMm
      = s.parentMm := forkPcb_parentMm _ hcur
  have hmem : ((s.setKernel { s.mem.toKernel with toKMem := km }).forkPcb child).mem.toKernel
      = { s.mem.toKernel with toKMem := km } := rfl
  have hproc : ((s.setKernel { s.mem.toKernel with toKMem := km }).forkPcb child).sched.currentProc
      = s.sched.currentProc := rfl
  revert h hpcb hparent hmem hproc
  generalize (s.setKernel { s.mem.toKernel with toKMem := km }).forkPcb child = s₁
  intro h hpcb hparent hmem hproc
  rw [← hproc] at hcur
  obtain ⟨mm, k, halloc, hnone, hcopy⟩ := forkMemory_calls s.mem.toKMem
    (by rw [hmem]; exact htook) hpcb hcur h
  rw [hmem] at halloc
  rw [hparent] at hnone hcopy
  obtain ⟨hmakes, hnew⟩ := hspent.mmAlloc (K := { s.mem.toKernel with toKMem := km }) hs.tables
    hs.heap hs.entries halloc
  change _ ↔ s.MakesSpace at hmakes
  by_cases hp0 : s.parentMm = 0
  · exact ⟨fun _ => .inl hp0, fun _ => hnone (.inr hp0)⟩
  by_cases hm0 : mm = 0
  · exact ⟨fun _ => .inr (.inl fun hc => hmakes.mpr hc hm0), fun _ => hnone (.inl hm0)⟩
  obtain ⟨ok, k', hloop, hiff⟩ := hcopy hm0 hp0
  obtain ⟨hinv, hshared, hheap, hsupplies⟩ := hnew hm0
  obtain ⟨hheld, hareas⟩ := hs.mm hp0
  obtain ⟨hvmas, hkeep⟩ := mmAlloc_keeps hspent.heapInv halloc hm0
  have hlist : (k.mms s.parentMm).vmaList = s.areas :=
    congrArg MmStruct.vmaList (hkeep _ (hext.holds _ hheld)).2
  rw [hlist] at hloop
  have hall := mmCopyLoop_supplied hinv hshared hm0 (KMem.Spent.nil hheap hinv hshared) rfl
    (fun v hv => ⟨hvmas ▸ (hareas v hv).1, (hkeep _ (hext.holds _ (hareas v hv).2)).1⟩) hloop
  have hpages : k.pagesOf s.areas = s.mem.pagesOf s.areas := by
    rw [Kernel.pagesOf, hvmas]
    rfl
  rw [List.nil_append, hsupplies, hpages, hvmas] at hall
  rw [hiff, hall, or_iff_right hp0, or_iff_right fun hc => hc (hmakes.mp hm0)]
  rfl

/-- One frame is free, which the child's PML4 takes: the stack gets none. The kernel has a table for
the heap. -/
def crampedProcess : ForkState :=
  (oneProcess 0 []).setKernel
    { (oneProcess 0 []).mem.toKernel with
      pmm := framesLeft 15
      phys := fun p i => if p = 0x1000 ∧ i = heapSlot then 0x3003#64 else 0#64 }

theorem crampedProcess_entry (j : ℕ) : crampedProcess.mem.phys crampedProcess.mem.kernelPml4 j
    = if j = heapSlot then 0x3003#64 else 0#64 := by
  change (if 0x1000 = 0x1000 ∧ j = heapSlot then 0x3003#64 else 0#64) = _
  simp only [true_and]

theorem crampedProcess_settled : crampedProcess.Settled := by
  have hroom : kernelHeapBase + 4096 + pageSize * 1 < 2 ^ 64 := by decide
  refine ⟨⟨(oneProcess_heap 0 []).1.tiles, hroom⟩, ?_, fun va hlo hhi => ?_,
    (oneProcess_heap 0 []).2, fun _ => ⟨?_, fun v hv => (by cases hv)⟩, by decide⟩
  · exact mapInv_of_entry crampedProcess_entry (fun _ => rfl) (by decide)
      (framesLeft_inv (by decide)) (by decide) (by decide) (by decide) (by decide)
  · change kernelHeapBase + 4096 ≤ va at hlo
    change va < kernelHeapBase + 4096 + pageSize * 1 at hhi
    rw [pml4Idx_heap ((Nat.le_add_right _ _).trans hlo) (hhi.trans_le (by decide))]
    rfl
  · exact ⟨⟨kernelHeapBase, 104, false⟩, List.mem_cons_self, rfl, rfl, le_rfl⟩

theorem failing_fork_crampedProcess :
    ∃ s', crampedProcess.sysFork = some (-1, s') ∧ ReleasesOnce crampedProcess.sysForkCalls := by
  obtain ⟨⟨ret, s'⟩, hs', rfl⟩ := Option.map_eq_some_iff.mp
    (show (crampedProcess.sysFork).map Prod.fst = some (-1) by decide +kernel)
  have hcopies : crampedProcess.CopiesAreas := ⟨fun v hv => (by cases hv), by decide +kernel⟩
  exact ⟨s', hs', (failing_fork crampedProcess_settled hs').mpr (.inr (.inr hcopies))⟩

/-- A process with an area of four pages, after which six frames are free. -/
def areaProcess : Option ForkState :=
  ((oneProcess 0 []).mem.mmMapRange onlyMm 0x400000 0x4000 vmWrite).map fun r =>
    (oneProcess 0 []).setKernel r.2

/-- Its fork fails in the copy of the area: the child's area is released three times, and its
address space twice. -/
theorem sysFork_releases_twice :
    ∃ s s' child mm vma, areaProcess = some s ∧ s.mem.toKMem.HeapInv
      ∧ s.sysFork = some (-1, s')
      ∧ s.sysForkCalls = [.kmalloc child, .kmalloc mm, .kmalloc vma, .kfree vma,
        .mmFree mm, .kfree vma, .kfree mm, .mmFree mm, .kfree vma, .kfree mm, .kfree child]
      ∧ ¬ ReleasesOnce s.sysForkCalls := by
  have hrun : areaProcess.map (fun s => (s.sysFork.map Prod.fst, s.sysForkCalls))
      = some (some (-1), [.kmalloc (kernelHeapBase + 552), .kmalloc (kernelHeapBase + 856),
        .kmalloc (kernelHeapBase + 992), .kfree (kernelHeapBase + 992),
        .mmFree (kernelHeapBase + 856), .kfree (kernelHeapBase + 992),
        .kfree (kernelHeapBase + 856), .mmFree (kernelHeapBase + 856),
        .kfree (kernelHeapBase + 992), .kfree (kernelHeapBase + 856),
        .kfree (kernelHeapBase + 552)]) := by
    decide +kernel
  obtain ⟨s, hs, heq⟩ := Option.map_eq_some_iff.mp hrun
  obtain ⟨hret, hcalls⟩ := Prod.mk.inj heq
  obtain ⟨⟨ret, s'⟩, hs', rfl⟩ := Option.map_eq_some_iff.mp hret
  obtain ⟨⟨ok, k⟩, hmap, rfl⟩ := Option.map_eq_some_iff.mp hs
  have hok : ok = true := by
    have hfst : ((oneProcess 0 []).mem.mmMapRange onlyMm 0x400000 0x4000 vmWrite).map Prod.fst
        = some true := by
      decide +kernel
    rw [hmap] at hfst
    exact Option.some.inj hfst
  obtain ⟨vma, -, htook, -⟩ := mmMapRange_calls (oneProcess_heap 0 []).1 (hok ▸ hmap)
  refine ⟨_, s', _, _, _, hs, htook.inv, hs', hcalls, fun hr => ?_⟩
  have htwice := hr.mms (kernelHeapBase + 856)
  rw [hcalls] at htwice
  revert htwice
  decide

end ForkState

end SudoOS
