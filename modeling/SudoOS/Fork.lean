import SudoOS.Elf
import SudoOS.Kstack

/-!
# Fork

`sys_fork` of `proc/proc.c` on kernel memory and the process table together: the PCB comes from
`kmalloc`, the address space from `mm_alloc` and `mm_copy`, the stack from `kstack_init`. Trap frame
and context, which lie on the new stack, are not modelled.
-/

namespace SudoOS

/-- `sizeof(pcb_t)`. -/
def pcbSize : ℕ := 272

structure ForkState where
  mem : MmState
  sched : Sched

namespace ForkState

def setKernel (s : ForkState) (k : Kernel) : ForkState :=
  { s with mem := { s.mem with toKernel := k } }

def modifyPcb (s : ForkState) (proc : ℕ) (f : Pcb → Pcb) : ForkState :=
  { s with sched := s.sched.modify proc f }

/-- `free_proc` of a PCB in no list and without a kernel stack. -/
def freeProc (s : ForkState) (proc : ℕ) : ForkState :=
  let mm := (s.sched.pcbs proc).mm
  let k := if mm = 0 then s.mem.toKernel else s.mem.toKernel.mmFree mm
  s.setKernel (k.kfree proc)

/-- The new PCB at `child`, with what it takes from the parent's. -/
def forkPcb (s : ForkState) (child : ℕ) : ForkState :=
  let parent := s.sched.currentProc
  let s := { s with sched := s.sched.newPcb child fun p => p }
  let s := s.modifyPcb child fun p => { p with cwdInode := (s.sched.pcbs parent).cwdInode }
  let s := s.modifyPcb child fun p => p.setProcName (s.sched.pcbs parent).name
  s.modifyPcb child fun p => { p with parent := parent }

/-- From `kstack_init` on. -/
def forkStack (s : ForkState) (child : ℕ) : ℤ × ForkState :=
  let r := s.mem.kstackInit kstackSize
  let s := { s with mem := r.2 }
  if r.1 = 0 then (-1, s.freeProc child)
  else
    let s := s.modifyPcb child fun p =>
      { p with kstackBase := r.1 - kstackSize, procState := .ready }
    let mm := (s.sched.pcbs child).mm
    let pml4Pa := Function.update s.sched.pml4Pa mm (s.mem.mms mm).pml4Pa
    ((s.sched.pcbs child).pid,
      { s with sched := { s.sched with pml4Pa := pml4Pa }.enlist child })

/-- From `mm_alloc` on. -/
def forkMemory (s : ForkState) (child : ℕ) : Option (ℤ × ForkState) :=
  match s.mem.mmAlloc with
  | none => none
  | some (mm, k) =>
    let s := (s.setKernel k).modifyPcb child fun p => { p with mm := mm }
    match s.mem.mmCopy (s.sched.pcbs child).mm (s.sched.pcbs s.sched.currentProc).mm with
    | none => none
    | some (false, k) => some (-1, (s.setKernel k).freeProc child)
    | some (true, k) => some ((s.setKernel k).forkStack child)

/-- What it returns and leaves. `none` is a page fault in the kernel, or the writes through the null
pointer when there is no memory for the PCB. -/
def sysFork (s : ForkState) : Option (ℤ × ForkState) :=
  match s.mem.kmalloc pcbSize with
  | none => none
  | some (child, km) =>
    if child = 0 then none
    else ((s.setKernel { s.mem.toKernel with toKMem := km }).forkPcb child).forkMemory child

end ForkState

end SudoOS
