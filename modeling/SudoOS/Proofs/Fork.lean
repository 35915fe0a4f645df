import SudoOS.Fork
import SudoOS.Proofs.MapSuccess

/-!
# What a forked process inherits

A child starts from a zeroed PCB and an `mm_struct` fresh from `mm_alloc`. `sys_fork` carries over
the name, the working directory and the memory, but neither the break nor the descriptors: a child
has what its parent has exactly if that has no break and no open descriptor
(`fork_duplicates_iff`).
-/

namespace SudoOS

section Break

variable {k k' : Kernel}

/-- A fresh address space has no break. -/
theorem mmAlloc_heap {mm : ℕ} (h : k.mmAlloc = some (mm, k')) (h0 : mm ≠ 0) :
    (k'.mms mm).heap = 0 := by
  unfold Kernel.mmAlloc at h
  rcases hm : k.kmalloc mmStructSize with _ | ⟨a, km⟩ <;> rw [hm] at h <;> dsimp only at h
  · cases h
  split_ifs at h with ha hp
  all_goals
    simp only [Option.some.injEq, Prod.mk.injEq] at h
    obtain ⟨rfl, rfl⟩ := h
  · exact absurd rfl h0
  · exact absurd rfl h0
  · simp [Kernel.setMm]

theorem mmMapRange_heap {mm va size : ℕ} {vmFlags : BitVec 64} {ok : Bool}
    (h : k.mmMapRange mm va size vmFlags = some (ok, k')) (a : ℕ) :
    (k'.mms a).heap = (k.mms a).heap := by
  obtain ⟨l, n, he⟩ := mmMapRange_mms h a
  rw [he]

/-- Nor does a copy give it one. -/
theorem mmCopyLoop_heap {dst src : ℕ} : ∀ {vs : List ℕ} {k : Kernel},
    Kernel.mmCopyLoop dst src vs k = some (true, k') → ∀ a, (k'.mms a).heap = (k.mms a).heap
  | [], k, h, a => by
    simp only [Kernel.mmCopyLoop, Option.some.injEq, Prod.mk.injEq, true_and] at h
    rw [h]
  | v :: vs, k, h, a => by
    unfold Kernel.mmCopyLoop at h
    rcases hmap : k.mmMapRange dst (k.vmas v).vmStart
        (u64Sub (k.vmas v).vmEnd (k.vmas v).vmStart) (k.vmas v).vmFlags with _ | ⟨_ | _, k₁⟩ <;>
      rw [hmap] at h <;> dsimp only at h
    · cases h
    · simp at h
    · split at h
      · simp at h
      · rw [mmCopyLoop_heap h a]
        exact mmMapRange_heap hmap a

theorem mmCopy_heap {dst src : ℕ} (h : k.mmCopy dst src = some (true, k')) (a : ℕ) :
    dst ≠ 0 ∧ (k'.mms a).heap = (k.mms a).heap := by
  unfold Kernel.mmCopy at h
  split_ifs at h with h0
  · simp at h
  · exact ⟨fun hc => h0 (.inl hc), mmCopyLoop_heap h a⟩

end Break

namespace ForkState

/-- The child has the break, the working directory and the open files that the caller had. -/
structure Duplicates (s s' : ForkState) (child : ℕ) : Prop where
  heap : (s'.mem.mms (s'.sched.pcbs child).mm).heap
    = (s.mem.mms (s.sched.pcbs s.sched.currentProc).mm).heap
  cwd : (s'.sched.pcbs child).cwdInode = (s.sched.pcbs s.sched.currentProc).cwdInode
  fds : ∀ fd, (s'.sched.pcbs child).fdTable.getD fd none
    = (s.sched.pcbs s.sched.currentProc).fdTable.getD fd none

/-- The PCB at `child` is one in the making, with the caller's directory and no descriptor. -/
structure Draft (s₀ s : ForkState) (child : ℕ) : Prop where
  list : s.sched.procList = s₀.sched.procList
  cwd : child ≠ s₀.sched.currentProc →
    (s.sched.pcbs child).cwdInode = (s₀.sched.pcbs s₀.sched.currentProc).cwdInode
  fds : (s.sched.pcbs child).fdTable = List.replicate maxFd none

variable {s₀ s s' : ForkState} {child : ℕ} {ret : ℤ}

@[simp] theorem modifyPcb_mem (s : ForkState) (proc : ℕ) (f : Pcb → Pcb) :
    (s.modifyPcb proc f).mem = s.mem := rfl

@[simp] theorem modifyPcb_pcbs (s : ForkState) (proc : ℕ) (f : Pcb → Pcb) :
    (s.modifyPcb proc f).sched.pcbs proc = f (s.sched.pcbs proc) :=
  Function.update_self _ _ _

theorem forkPcb_draft (s : ForkState) (child : ℕ) : Draft s (s.forkPcb child) child := by
  unfold forkPcb modifyPcb Sched.modify Sched.newPcb Sched.allocNewPcb Pcb.setProcName
  refine ⟨rfl, fun hne => ?_, ?_⟩
  · simp [Function.update_of_ne hne.symm]
  · simp

theorem Draft.modifyPcb (h : Draft s₀ s child) {f : Pcb → Pcb}
    (hcwd : ∀ p, (f p).cwdInode = p.cwdInode) (hfds : ∀ p, (f p).fdTable = p.fdTable) :
    Draft s₀ (s.modifyPcb child f) child := by
  unfold ForkState.modifyPcb Sched.modify
  refine ⟨h.list, fun hne => ?_, ?_⟩
  · simpa [hcwd] using h.cwd hne
  · simpa [hfds] using h.fds

theorem Draft.setMem (h : Draft s₀ s child) (mem : MmState) :
    Draft s₀ { s with mem := mem } child := ⟨h.list, h.cwd, h.fds⟩

/-- The fork has succeeded. -/
structure Forked (s₀ s : ForkState) (child : ℕ) : Prop where
  list : s.sched.procList = child :: s₀.sched.procList
  cwd : child ≠ s₀.sched.currentProc →
    (s.sched.pcbs child).cwdInode = (s₀.sched.pcbs s₀.sched.currentProc).cwdInode
  fds : (s.sched.pcbs child).fdTable = List.replicate maxFd none
  heap : (s.mem.mms (s.sched.pcbs child).mm).heap = 0

theorem kstackInit_mms (m : MmState) (size : ℕ) : (m.kstackInit size).2.mms = m.mms := by
  unfold MmState.kstackInit
  dsimp only
  split <;> rfl

theorem forkStack_forked (h : Draft s₀ s child)
    (hheap : (s.mem.mms (s.sched.pcbs child).mm).heap = 0)
    (hr : s.forkStack child = (ret, s')) (hret : ret ≠ -1) : Forked s₀ s' child := by
  unfold forkStack at hr
  dsimp only at hr
  split_ifs at hr with h0
  · exact absurd (congrArg Prod.fst hr).symm hret
  · obtain ⟨-, rfl⟩ := Prod.mk.inj hr
    have hd := (h.setMem (s.mem.kstackInit kstackSize).2).modifyPcb (f := fun p =>
      { p with kstackBase := (s.mem.kstackInit kstackSize).1 - kstackSize, procState := .ready })
      (fun _ => rfl) fun _ => rfl
    refine ⟨congrArg (child :: ·) hd.list, hd.cwd, hd.fds, ?_⟩
    simpa [Sched.enlist, kstackInit_mms] using hheap

theorem forkMemory_forked (h : Draft s₀ s child) (hr : s.forkMemory child = some (ret, s'))
    (hret : ret ≠ -1) : Forked s₀ s' child := by
  unfold forkMemory at hr
  rcases halloc : s.mem.mmAlloc with _ | ⟨mm, k⟩ <;> rw [halloc] at hr <;> dsimp only at hr
  · cases hr
  have hd := (h.setMem { s.mem with toKernel := k }).modifyPcb
    (f := fun p => { p with mm := mm }) (fun _ => rfl) fun _ => rfl
  set s₁ := (s.setKernel k).modifyPcb child fun p => { p with mm := mm } with hs₁
  have hmm : (s₁.sched.pcbs child).mm = mm := by simp [hs₁]
  have hmem : s₁.mem.toKernel = k := rfl
  rcases hcopy : s₁.mem.mmCopy (s₁.sched.pcbs child).mm (s₁.sched.pcbs s₁.sched.currentProc).mm
    with _ | ⟨_ | _, k₁⟩ <;> rw [hcopy] at hr
  · cases hr
  · exact absurd (congrArg Prod.fst (Option.some.inj hr)).symm hret
  · rw [hmm, hmem] at hcopy
    obtain ⟨h0, hheap⟩ := mmCopy_heap hcopy mm
    rw [mmAlloc_heap halloc h0] at hheap
    refine forkStack_forked (hd.setMem { s₁.mem with toKernel := k₁ }) ?_ (Option.some.inj hr) hret
    change (k₁.mms (s₁.sched.pcbs child).mm).heap = 0
    rw [hmm, hheap]

theorem sysFork_forked (hr : s.sysFork = some (ret, s')) (hret : ret ≠ -1) :
    ∃ child km, s.mem.kmalloc pcbSize = some (child, km) ∧ child ≠ 0 ∧ Forked s s' child := by
  unfold sysFork at hr
  rcases hpcb : s.mem.kmalloc pcbSize with _ | ⟨child, km⟩ <;> rw [hpcb] at hr <;> dsimp only at hr
  · cases hr
  split_ifs at hr with h0
  have hdraft := forkPcb_draft (s.setKernel { s.mem.toKernel with toKMem := km }) child
  exact ⟨child, km, rfl, h0,
    forkMemory_forked ⟨hdraft.list, hdraft.cwd, hdraft.fds⟩ hr hret⟩

/-- A child has what its parent, whose PCB is in a block in use, has exactly if that has no break
and no open descriptor. -/
theorem fork_duplicates_iff (hI : s.mem.toKMem.HeapInv)
    (hcur : Holds s.mem.heap.kheapList (s.sched.currentProc, pcbSize))
    (hr : s.sysFork = some (ret, s')) (hret : ret ≠ -1) :
    ∃ child, s'.sched.procList = child :: s.sched.procList
      ∧ (Duplicates s s' child ↔ (s.mem.mms (s.sched.pcbs s.sched.currentProc).mm).heap = 0
        ∧ ∀ fd, (s.sched.pcbs s.sched.currentProc).fdTable.getD fd none = none) := by
  obtain ⟨child, km, hkm, h0, hf⟩ := sysFork_forked hr hret
  obtain ⟨-, -, hal⟩ := KMem.kmallocLoop_spec hI hkm
  have hne : child ≠ s.sched.currentProc := fun hc =>
    (hal (by decide) h0).fresh _ hcur hc.symm
  have hnone : ∀ fd, (s'.sched.pcbs child).fdTable.getD fd none = none := fun fd => by
    rw [hf.fds, List.getD_eq_getElem?_getD, List.getElem?_replicate]
    split_ifs <;> rfl
  refine ⟨child, hf.list, fun hd => ⟨?_, fun fd => ?_⟩, fun ⟨hheap, hfds⟩ => ⟨?_, hf.cwd hne, ?_⟩⟩
  · rw [← hd.heap, hf.heap]
  · rw [← hd.fds, hnone]
  · rw [hf.heap, hheap]
  · intro fd
    rw [hnone, hfds]

/-- A process with the given break and descriptors, alone in the system. -/
def oneProcess (brk : ℕ) (fds : List (Option ℕ)) : ForkState where
  mem :=
    { oneMmKernel (framesLeft 3) with
      heap := ⟨[⟨kernelHeapBase, 104, false⟩, ⟨kernelHeapBase + 136, 272, false⟩,
        ⟨kernelHeapBase + 440, 3624, true⟩], kernelHeapBase + 4096⟩
      mms := fun _ => { pml4Pa := 0x2000, heap := brk }
      kstackPtr := kernelStackBase }
  sched :=
    { pcbs := fun _ => ⟨0, onlyMm, 0, 10, 1, 0, .running, [], fds, 0, 0⟩
      procList := [kernelHeapBase + 168]
      readyQueue := []
      currentProc := kernelHeapBase + 168
      idleProc := 0
      nextPid := 2
      ticks := 0
      rsp0 := 0
      cr3 := 0x2000
      pml4Pa := fun _ => 0x2000 }

theorem oneProcess_heap (brk : ℕ) (fds : List (Option ℕ)) :
    (oneProcess brk fds).mem.toKMem.HeapInv
      ∧ Holds (oneProcess brk fds).mem.heap.kheapList ((oneProcess brk fds).sched.currentProc,
        pcbSize) := by
  have hroom : kernelHeapBase + 4096 + pageSize * 13 < 2 ^ 64 := by decide
  refine ⟨⟨⟨rfl, rfl, rfl, rfl⟩, hroom⟩, ⟨kernelHeapBase + 136, 272, false⟩, ?_, rfl, rfl, le_rfl⟩
  exact List.mem_cons_of_mem _ List.mem_cons_self

theorem fork_duplicates_oneProcess :
    ∃ s' child, (oneProcess 0 (List.replicate maxFd none)).sysFork = some (2, s')
      ∧ s'.sched.procList = [child, kernelHeapBase + 168]
      ∧ Duplicates (oneProcess 0 (List.replicate maxFd none)) s' child := by
  obtain ⟨⟨ret, s'⟩, hs', rfl⟩ := Option.map_eq_some_iff.mp
    (show ((oneProcess 0 (List.replicate maxFd none)).sysFork).map Prod.fst = some 2 by
      decide +kernel)
  obtain ⟨hI, hcur⟩ := oneProcess_heap 0 (List.replicate maxFd none)
  obtain ⟨child, hlist, hiff⟩ := fork_duplicates_iff hI hcur hs' (by decide)
  refine ⟨s', child, hs', hlist, hiff.mpr ⟨rfl, fun fd => ?_⟩⟩
  change (List.replicate maxFd none).getD fd none = none
  rw [List.getD_eq_getElem?_getD, List.getElem?_replicate]
  split_ifs <;> rfl

/-- Descriptor 3 is open. -/
def oneOpenFile : List (Option ℕ) := [none, none, none, some 5] ++ List.replicate 12 none

/-- A parent with a break and an open file: its child has neither. -/
theorem sysFork_forgets :
    ∃ s' child, (oneProcess 0x405000 oneOpenFile).sysFork = some (2, s')
      ∧ s'.sched.procList = [child, kernelHeapBase + 168]
      ∧ (s'.mem.mms (s'.sched.pcbs child).mm).heap = 0
      ∧ (s'.sched.pcbs child).fdTable.getD 3 none = none
      ∧ ¬ Duplicates (oneProcess 0x405000 oneOpenFile) s' child := by
  obtain ⟨⟨ret, s'⟩, hs', heq⟩ := Option.map_eq_some_iff.mp
    (show ((oneProcess 0x405000 oneOpenFile).sysFork).map (fun r =>
      (r.1, r.2.sched.procList,
        (r.2.mem.mms (r.2.sched.pcbs (kernelHeapBase + 472)).mm).heap,
        (r.2.sched.pcbs (kernelHeapBase + 472)).fdTable.getD 3 none))
      = some (2, [kernelHeapBase + 472, kernelHeapBase + 168], 0, none) by decide +kernel)
  simp only [Prod.mk.injEq] at heq
  obtain ⟨rfl, hlist, hheap, hfd⟩ := heq
  refine ⟨s', kernelHeapBase + 472, hs', hlist, hheap, hfd, fun hd => ?_⟩
  have hbrk := hd.heap
  rw [hheap] at hbrk
  exact absurd hbrk (by decide)

end ForkState

end SudoOS
