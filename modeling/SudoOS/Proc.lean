import SudoOS.Word

/-!
# Processes and the scheduler

`proc/proc.c`, `proc/sche.c` and the timer callback of `arch/timer.c`. A PCB is known by its
address; `proc_list` and `ready_queue` are lists of addresses, front first. What the allocators
return to a creating call is given as a `Grant`. The register contexts that `switch_to` exchanges
on the kernel stacks are not part of the state.
-/

namespace SudoOS

/-- `TIME_SLICE_DEFAULT`. -/
def timeSliceDefault : ℤ := 10

/-- `KSTACK_SIZE`. -/
def kstackSize : ℕ := 0x4000

/-- `PROCNAME_LEN`. -/
def procnameLen : ℕ := 32

/-- `MAX_FD`. -/
def maxFd : ℕ := 16

inductive ProcState
  | running
  | ready
  | blocked
  | zombie
  deriving Repr, DecidableEq

/-- `pcb_t`. Addresses are zero for `NULL`; a descriptor is the index of its open file. -/
structure Pcb where
  kstackBase : ℕ
  mm : ℕ
  totalRuntime : ℕ
  timeSlice : ℤ
  pid : ℤ
  parent : ℕ
  procState : ProcState
  name : List UInt8
  fdTable : List (Option ℕ)
  cwdInode : ℤ
  exitCode : ℤ
  deriving Repr, DecidableEq

/-- The process lists, with the registers the scheduler loads: `tss.rsp0` and CR3. -/
structure Sched where
  pcbs : ℕ → Pcb
  procList : List ℕ
  readyQueue : List ℕ
  currentProc : ℕ
  idleProc : ℕ
  nextPid : ℤ
  ticks : ℕ
  rsp0 : ℕ
  cr3 : ℕ
  pml4Pa : ℕ → ℕ

/-- What the allocators return for a new process: its PCB, address space and kernel stack. -/
structure Grant where
  pcb : ℕ
  mm : ℕ
  pml4Pa : ℕ
  kstackTop : ℕ
  deriving Repr, DecidableEq

/-- `strncpy` into the name field, which keeps a final NUL. -/
def Pcb.setProcName (p : Pcb) (name : List UInt8) : Pcb := { p with name := name.take procnameLen }

namespace Sched

def state (s : Sched) (p : ℕ) : ProcState := (s.pcbs p).procState

def slice (s : Sched) (p : ℕ) : ℤ := (s.pcbs p).timeSlice

/-- The PCB at `p` changed by `f`. -/
def modify (s : Sched) (p : ℕ) (f : Pcb → Pcb) : Sched :=
  { s with pcbs := Function.update s.pcbs p (f (s.pcbs p)) }

/-! ## Creation -/

/-- The fields of a fresh PCB. -/
def allocNewPcb (s : Sched) : Pcb where
  kstackBase := 0
  mm := 0
  totalRuntime := 0
  timeSlice := timeSliceDefault
  pid := s.nextPid
  parent := 0
  procState := .ready
  name := []
  fdTable := List.replicate maxFd none
  cwdInode := 0
  exitCode := 0

/-- A fresh PCB at `addr`, filled in by `f`. -/
def newPcb (s : Sched) (addr : ℕ) (f : Pcb → Pcb) : Sched :=
  { s with
    pcbs := Function.update s.pcbs addr (f s.allocNewPcb)
    nextPid := s.nextPid + 1 }

/-- In front of `proc_list` and at the end of `ready_queue`. -/
def enlist (s : Sched) (addr : ℕ) : Sched :=
  { s with procList := addr :: s.procList, readyQueue := s.readyQueue ++ [addr] }

/-- `proc_init`, given the idle process's PCB; `none` is the halt when there is none. -/
def procInit (s : Sched) (idle : ℕ) : Option Sched :=
  if idle = 0 then none
  else
    let s := s.newPcb idle fun p =>
      { p.setProcName [0x69, 0x64, 0x6c, 0x65] with procState := .running }
    some { s with procList := [idle], readyQueue := [], currentProc := idle, idleProc := idle }

def kthreadCreate (s : Sched) (parent : ℕ) (name : List UInt8) (g : Grant) : Sched :=
  (s.newPcb g.pcb fun p =>
    { p.setProcName name with
      parent := parent
      procState := .ready
      mm := (s.pcbs parent).mm
      kstackBase := g.kstackTop - kstackSize }).enlist g.pcb

/-- The address space the grant brings. -/
def addMm (s : Sched) (g : Grant) : Sched :=
  { s with pml4Pa := Function.update s.pml4Pa g.mm g.pml4Pa }

def createUserProcess (s : Sched) (name : List UInt8) (g : Grant) : Sched :=
  ((s.addMm g).newPcb g.pcb fun p =>
    { p.setProcName name with
      mm := g.mm
      kstackBase := g.kstackTop - kstackSize
      procState := .ready }).enlist g.pcb

def sysFork (s : Sched) (g : Grant) : Sched :=
  let parent := s.pcbs s.currentProc
  ((s.addMm g).newPcb g.pcb fun p =>
    { p.setProcName parent.name with
      cwdInode := parent.cwdInode
      parent := s.currentProc
      mm := g.mm
      kstackBase := g.kstackTop - kstackSize
      procState := .ready }).enlist g.pcb

/-! ## Scheduling -/

/-- The context switch. -/
def switchTo (s : Sched) (next : ℕ) : Sched :=
  if s.currentProc = next then s
  else
    let prevMm := (s.pcbs s.currentProc).mm
    let s := s.modify next fun p =>
      { p with procState := .running, timeSlice := timeSliceDefault }
    let mm := (s.pcbs next).mm
    { s with
      currentProc := next
      rsp0 := (s.pcbs next).kstackBase + kstackSize
      cr3 := if mm ≠ 0 ∧ (prevMm = 0 ∨ prevMm ≠ mm) then s.pml4Pa mm else s.cr3 }

/-- The head of the ready queue runs next, the idle process if there is none. -/
def dispatch (s : Sched) : Sched :=
  match s.readyQueue with
  | [] =>
    (s.modify s.idleProc fun p =>
      { p with procState := .running, timeSlice := timeSliceDefault }).switchTo s.idleProc
  | q :: rest => switchTo { s with readyQueue := rest } q

/-- The current process, its slice used up, goes to the end of the ready queue. -/
def requeue (s : Sched) : Sched :=
  let s := s.modify s.currentProc fun p =>
    { p with procState := .ready, timeSlice := timeSliceDefault }
  { s with readyQueue := s.readyQueue ++ [s.currentProc] }

def schedule (s : Sched) : Sched :=
  if s.state s.currentProc = .running ∧ s.currentProc ≠ s.idleProc then
    if s.slice s.currentProc ≤ 0 then s.requeue.dispatch else s
  else s.dispatch

def timerCallback (s : Sched) : Sched :=
  let s := { s with ticks := u64 (s.ticks + 1) }
  if s.currentProc ≠ 0 ∧ s.state s.currentProc = .running then
    let s := s.modify s.currentProc fun p =>
      { p with totalRuntime := u64 (p.totalRuntime + 1), timeSlice := p.timeSlice - 1 }
    if s.slice s.currentProc ≤ 0 then s.schedule else s
  else s

/-- `kthread_exit`, and `SYS_EXIT`. -/
def exit (s : Sched) (code : ℤ) : Sched :=
  (s.modify s.currentProc fun p => { p with procState := .zombie, exitCode := code }).schedule

end Sched

end SudoOS
