import SudoOS.Directory
import SudoOS.Lifecycle
import SudoOS.Proofs.Ramfs

/-!
# Processes that use files

The file system together with the processes that call it. A step is taken by a process that has not
exited, and any of them may be the next: `schedule` is left open here. A process makes a call on the
file system, creates another process, exits, or releases one that has exited.
-/

namespace SudoOS

structure Sys where
  fs : Ramfs
  procs : ProcSys

inductive SysOp
  | call (c : Ramfs.Call)
  | getdents64 (fd : ℤ) (dirp : ℕ → UInt8) (count : BitVec 32)
  | kthreadCreate (parent : ℕ) (name : List UInt8) (a : Attempt)
  | createUserProcess (name : List UInt8) (a : Attempt)
  | sysFork (a : Attempt)
  | exit (code : ℤ)
  | freeProc (p : ℕ)

namespace Sys

def procList (s : Sys) : List ℕ := s.procs.sched.procList

def pcb (s : Sys) (p : ℕ) : Pcb := s.procs.sched.pcbs p

/-- A process that has not exited. -/
def Runs (s : Sys) (p : ℕ) : Prop := p ∈ s.procList ∧ (s.pcb p).procState ≠ .zombie

instance (s : Sys) (p : ℕ) : Decidable (s.Runs p) := inferInstanceAs (Decidable (_ ∧ _))

/-- The state with `p` as the process that runs. -/
def switched (s : Sys) (p : ℕ) : ProcSys :=
  s.procs.withSched { s.procs.sched with currentProc := p }

/-- The file system and the caller's PCB after a call. -/
def called (s : Sys) (p : ℕ) (fs : Ramfs) (cur : Pcb) : Sys :=
  ⟨fs, (s.switched p).withSched ((s.switched p).sched.modify p fun _ => cur)⟩

def step (s : Sys) (e : ℕ × SysOp) : Option Sys :=
  if s.Runs e.1 then
    match e.2 with
    | .call c => (s.fs.perform (s.pcb e.1) c).map fun r => s.called e.1 r.1 r.2
    | .getdents64 fd dirp count =>
      (s.fs.ramfsGetdents64 (s.pcb e.1) fd dirp count).map fun r => s.called e.1 r.2.2 (s.pcb e.1)
    | .kthreadCreate parent name a =>
      ((s.switched e.1).step (.kthreadCreate parent name a)).map fun t => ⟨s.fs, t⟩
    | .createUserProcess name a =>
      ((s.switched e.1).step (.createUserProcess name a)).map fun t => ⟨s.fs, t⟩
    | .sysFork a => ((s.switched e.1).step (.sysFork a)).map fun t => ⟨s.fs, t⟩
    | .exit code =>
      if e.1 ≠ s.procs.sched.idleProc then
        some ⟨s.fs, (s.switched e.1).withSched ((s.switched e.1).sched.exited code)⟩
      else none
    | .freeProc q => ((s.switched e.1).lifeStep (.freeProc q)).map fun t => ⟨s.fs, t⟩
  else none

/-- After `ramfs_init(0, 0)` and `proc_init`. -/
def start (sched : Sched) : Sys := ⟨Ramfs.ramfsInit none 0, ⟨sched, []⟩⟩

end Sys

end SudoOS
