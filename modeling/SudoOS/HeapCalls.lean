import SudoOS.Fork

/-!
# The heap calls of a fork

The calls of `kmalloc`, `kfree` and `mm_free` that `mm/vmm.c` and `sys_fork` make, in their order.
Each list follows the function it is about through the same states.
-/

namespace SudoOS

/-- A call, with what `kmalloc` returns. -/
inductive HeapCall
  | kmalloc (ptr : ℕ)
  | kfree (ptr : ℕ)
  | mmFree (mm : ℕ)
  deriving Repr, DecidableEq

namespace Kernel

def mmFreeCalls (k : Kernel) (mm : ℕ) : List HeapCall :=
  if mm = 0 then []
  else .mmFree mm :: ((k.mms mm).vmaList.map .kfree ++ [.kfree mm])

def mmAllocCalls (k : Kernel) : List HeapCall :=
  match k.kmalloc mmStructSize with
  | none => []
  | some (mm, km) =>
    .kmalloc mm ::
      if mm = 0 then []
      else if (km.pmm.pmmAllocPage).1 = 0 then [.kfree mm]
      else []

def mmMapRangeCalls (k : Kernel) (mm va size : ℕ) (vmFlags : BitVec 64) : List HeapCall :=
  if mm = 0 ∨ size = 0 then []
  else
    let start := alignDown va pageSize
    let stop := alignUp (u64 (va + size)) pageSize
    match k.kmalloc vmaStructSize with
    | none => []
    | some (vma, km) =>
      .kmalloc vma ::
        if vma = 0 then []
        else if ({ k with toKMem := km }.mapArea mm vma ⟨mm, start, stop, vmFlags⟩).1 then []
        else [.kfree vma]

def mmCopyLoopCalls (dst src : ℕ) : List ℕ → Kernel → List HeapCall
  | [], _ => []
  | v :: vs, k =>
    k.mmMapRangeCalls dst (k.vmas v).vmStart (u64Sub (k.vmas v).vmEnd (k.vmas v).vmStart)
        (k.vmas v).vmFlags ++
      match k.mmMapRange dst (k.vmas v).vmStart
          (u64Sub (k.vmas v).vmEnd (k.vmas v).vmStart) (k.vmas v).vmFlags with
      | none => []
      | some (false, k) => k.mmFreeCalls dst
      | some (true, k) =>
        match Machine.copyRange (k.mms dst).pml4Pa (k.mms src).pml4Pa (k.vmas v).rounds
            (k.vmas v).vmStart k.toMachine with
        | (false, m) => { k with toMachine := m }.mmFreeCalls dst
        | (true, m) => mmCopyLoopCalls dst src vs { k with toMachine := m }

def mmCopyCalls (k : Kernel) (dst src : ℕ) : List HeapCall :=
  if dst = 0 ∨ src = 0 then [] else mmCopyLoopCalls dst src (k.mms src).vmaList k

end Kernel

namespace ForkState

def freeProcCalls (s : ForkState) (proc : ℕ) : List HeapCall :=
  (if (s.sched.pcbs proc).mm = 0 then [] else s.mem.mmFreeCalls (s.sched.pcbs proc).mm)
    ++ [.kfree proc]

/-- `kstack_init` makes no such call. -/
def forkStackCalls (s : ForkState) (child : ℕ) : List HeapCall :=
  let r := s.mem.kstackInit kstackSize
  let s := { s with mem := r.2 }
  if r.1 = 0 then s.freeProcCalls child else []

def forkMemoryCalls (s : ForkState) (child : ℕ) : List HeapCall :=
  s.mem.mmAllocCalls ++
    match s.mem.mmAlloc with
    | none => []
    | some (mm, k) =>
      let s := (s.setKernel k).modifyPcb child fun p => { p with mm := mm }
      let dst := (s.sched.pcbs child).mm
      let src := (s.sched.pcbs s.sched.currentProc).mm
      s.mem.mmCopyCalls dst src ++
        match s.mem.mmCopy dst src with
        | none => []
        | some (false, k) => (s.setKernel k).freeProcCalls child
        | some (true, k) => (s.setKernel k).forkStackCalls child

def sysForkCalls (s : ForkState) : List HeapCall :=
  match s.mem.kmalloc pcbSize with
  | none => []
  | some (child, km) =>
    .kmalloc child ::
      if child = 0 then []
      else
        ((s.setKernel { s.mem.toKernel with toKMem := km }).forkPcb child).forkMemoryCalls child

end ForkState

end SudoOS
