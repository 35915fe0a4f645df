import SudoOS.Proofs.Proc

/-!
# Creation, failure and release of processes

`kthread_create`, `create_user_process` and `sys_fork` of `proc/proc.c` with their failure exits,
and `free_proc`. What the allocators, the loader and `mm_copy` return in a creating call is an
`Attempt`; the allocators hand out only what is not in use. Beside the scheduler the state has the
address spaces that `mm_alloc` made and `mm_free` has not released. The system of processes and
files comes last: any process that has not exited makes the next call.
-/

namespace SudoOS

/-- How `load_elf` ends: at the magic number, at a segment it cannot map, or with the entry point.
-/
inductive ElfOutcome
  | badMagic
  | unmapped
  | loaded (entry : ℕ)
  deriving Repr, DecidableEq

/-- What a creating call gets: its PCB, address space and PML4, how the ELF file loads, whether the
user stack can be mapped and the parent's memory copied, and the kernel stack, 0 for `NULL`. -/
structure Attempt where
  pcb : ℕ
  mm : Option (ℕ × ℕ)
  elf : ElfOutcome
  stackMapped : Bool
  copied : Bool
  kstackTop : ℕ
  deriving Repr, DecidableEq

namespace Sched

def lcr3 (s : Sched) (pml4Pa : ℕ) : Sched := { s with cr3 := pml4Pa }

/-- The pid a creating call takes, also one that fails afterwards. -/
def takePid (s : Sched) : Sched := { s with nextPid := s.nextPid + 1 }

/-- `load_elf` with the target's PML4 loaded meanwhile; 0 for a failure. -/
def loadElf (s : Sched) (pml4Pa : ℕ) : ElfOutcome → Sched × ℕ
  | .badMagic => (s, 0)
  | .unmapped =>
    let oldCr3 := s.cr3
    ((s.lcr3 pml4Pa).lcr3 oldCr3, 0)
  | .loaded entry =>
    let oldCr3 := s.cr3
    ((s.lcr3 pml4Pa).lcr3 oldCr3, entry)

end Sched

/-- The scheduler, and the live address spaces. -/
structure ProcSys where
  sched : Sched
  mms : List ℕ

namespace ProcSys

def withSched (s : ProcSys) (t : Sched) : ProcSys := { s with sched := t }

/-- The allocators return a PCB, and an address space unless it is `NULL`, that is not in use. -/
def Fresh (s : ProcSys) (a : Attempt) : Prop :=
  s.sched.Fresh a.pcb ∧ ∀ m ∈ a.mm, m.1 ≠ 0 ∧ m.1 ∉ s.mms

instance (s : ProcSys) (a : Attempt) : Decidable (s.Fresh a) :=
  inferInstanceAs (Decidable (_ ∧ _))

/-- The call fails; what it took is released. -/
def fails (s : ProcSys) : ProcSys := s.withSched s.sched.takePid

def kthreadCreate (s : ProcSys) (parent : ℕ) (name : List UInt8) (a : Attempt) : ProcSys :=
  if a.kstackTop = 0 then s.fails
  else s.withSched (s.sched.kthreadCreate parent name ⟨a.pcb, 0, 0, a.kstackTop⟩)

def createUserProcess (s : ProcSys) (name : List UInt8) (a : Attempt) : ProcSys :=
  match a.mm with
  | none => s.fails
  | some (mm, pml4Pa) =>
    let (t, entryPoint) := s.sched.loadElf pml4Pa a.elf
    let s := s.withSched t
    if entryPoint = 0 then s.fails
    else
      let oldCr3 := s.sched.cr3
      let s := s.withSched (s.sched.lcr3 pml4Pa)
      if a.stackMapped = false then (s.withSched (s.sched.lcr3 oldCr3)).fails
      else
        let s := s.withSched (s.sched.lcr3 oldCr3)
        if a.kstackTop = 0 then s.fails
        else ⟨s.sched.createUserProcess name ⟨a.pcb, mm, pml4Pa, a.kstackTop⟩, mm :: s.mms⟩

/-- `mm_copy` fails for a parent that has no address space. -/
def sysFork (s : ProcSys) (a : Attempt) : ProcSys :=
  match a.mm with
  | none => s.fails
  | some (mm, pml4Pa) =>
    if (s.sched.pcbs s.sched.currentProc).mm = 0 ∨ a.copied = false then s.fails
    else if a.kstackTop = 0 then s.fails
    else ⟨s.sched.sysFork ⟨a.pcb, mm, pml4Pa, a.kstackTop⟩, mm :: s.mms⟩

/-- `free_proc`: the PCB leaves the lists, and its address space is released whoever else uses
it. -/
def freeProc (s : ProcSys) (p : ℕ) : ProcSys where
  sched := { s.sched with
    procList := s.sched.procList.erase p
    readyQueue := s.sched.readyQueue.erase p }
  mms := if (s.sched.pcbs p).mm ≠ 0 then s.mms.erase (s.sched.pcbs p).mm else s.mms

inductive Op
  | kthreadCreate (parent : ℕ) (name : List UInt8) (a : Attempt)
  | createUserProcess (name : List UInt8) (a : Attempt)
  | sysFork (a : Attempt)
  | tick
  | yield
  | exit (code : ℤ)
  deriving Repr, DecidableEq

/-- One step of the current process or the timer. A thread's parent is a process; the idle process
is `kmain`, which never exits. -/
def step (s : ProcSys) : Op → Option ProcSys
  | .kthreadCreate parent name a =>
    if s.Fresh a ∧ parent ∈ s.sched.procList then some (s.kthreadCreate parent name a) else none
  | .createUserProcess name a => if s.Fresh a then some (s.createUserProcess name a) else none
  | .sysFork a => if s.Fresh a then some (s.sysFork a) else none
  | .tick => some (s.withSched s.sched.timerCallback)
  | .yield => some (s.withSched s.sched.schedule)
  | .exit code =>
    if s.sched.currentProc ≠ s.sched.idleProc then some (s.withSched (s.sched.exit code)) else none

/-- A step, or the release of a process that has exited. -/
inductive LifeOp
  | op (op : Op)
  | freeProc (p : ℕ)
  deriving Repr, DecidableEq

def lifeStep (s : ProcSys) : LifeOp → Option ProcSys
  | .op op => s.step op
  | .freeProc p =>
    if p ∈ s.sched.procList ∧ s.sched.state p = .zombie then some (s.freeProc p) else none

end ProcSys

end SudoOS
