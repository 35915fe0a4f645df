import SudoOS.Lib.Run
import SudoOS.Trap

/-!
# Tasks that share the processor

Every task has a PCB and a kernel stack. It runs, in user mode or in the kernel, until an interrupt
puts its registers on its stack or `schedule` calls `switch_to` for another one. A step is an
instruction sequence of `arch/isr.S`, `arch/switch.S` or `proc/entry.S`, one of the layouts that
`proc/proc.c` prepares for a new task, or the work of user code or of C code in the kernel. Of C
code only the calling convention counts: it writes nothing above the stack pointer it was entered
with, and no stack, context pointer or trap frame of another task.
-/

namespace SudoOS.Trap

open Stack

/-- The selectors that `iretq` takes for user mode, and those of the kernel. -/
def userCode : Word := 0x23

def userData : Word := 0x1B

def kernelCode : Word := 0x08

/-! ## Entries -/

/-- The vectors with an entry in the IDT. -/
def gates : List ℕ := [0, 14, 32, 33, 128]

/-- The vectors for which the processor pushes an error code. -/
def pushesError (n : ℕ) : Bool := n ∈ [8, 10, 11, 12, 13, 14, 17, 21, 29, 30]

/-- `ISR_ERRCODE` and `ISR_NOERRCODE`. -/
def isr (n : ℕ) : List Instr :=
  if n ∈ [8, 10, 11, 12, 13, 14, 17, 30] then [.pushq (BitVec.ofNat 64 n)]
  else [.pushq 0, .pushq (BitVec.ofNat 64 n)]

/-- The flags that an interrupt gate clears. -/
def handlerFlags (rflags : Word) : Word := rflags &&& ~~~0x34300

/-- Interrupt `n` up to the call of `isr_handler`. -/
def entry (n : ℕ) (err : Word) (u : User) (rsp : Word) (mem : Mem) : Core :=
  let c := interrupt u rsp mem
  exec (isr n ++ isrCommonStub) (if pushesError n then c.push err else c)

/-- `enter_user_mode`, as far as it writes the stack; `rflags` are those that `pushfq` pushes. -/
def enterUserMode (entryPoint userStack rflags : Word) (c : Core) : Core :=
  let c := ((c.push userData).push userStack).push rflags
  let c := c.pop .rax
  let c := { c with reg := Function.update c.reg .rax (c.reg .rax ||| 0x200) }
  ((c.push (c.reg .rax)).push userCode).push entryPoint

/-- `kernel_thread_entry` up to the thread's function, which returns to `ret`. -/
def kernelThreadEntry (ret : Word) (c : Core) : Core :=
  let c := c.push ret
  { c with reg := Function.update c.reg .rip (c.reg .rbx) }

/-! ## New tasks -/

def clear (mem : Mem) (a n : ℕ) : Mem := Wire.store mem a (List.replicate n 0)

/-- The context of `kthread_create`, from the return of `kstack_init` on. -/
def kthreadCreate (proc kstackTop entry func arg : Word) (mem : Mem) : Mem :=
  let rsp := field proc pcbRsp
  let mem := save mem rsp kstackTop
  let mem := save mem (field proc pcbKstackBase) (kstackTop - BitVec.ofNat 64 kstackSize)
  let context := load mem rsp - BitVec.ofNat 64 (sizeof contextT)
  let mem := clear mem context.toNat (sizeof contextT)
  let mem := save mem (field proc pcbContext) context
  let mem := save mem rsp context
  let mem := save mem (field context (offsetOf contextT (.reg .rip))) entry
  let mem := save mem (field context (offsetOf contextT (.reg .rdi))) arg
  save mem (field context (offsetOf contextT (.reg .rbx))) func

/-- The context of `create_user_process`, from the return of `kstack_init` on. -/
def createUserProcess (proc kstackTop entry entryPoint userStackTop : Word) (mem : Mem) : Mem :=
  let rsp := field proc pcbRsp
  let mem := save mem rsp kstackTop
  let mem := save mem (field proc pcbKstackBase) (kstackTop - BitVec.ofNat 64 kstackSize)
  let mem := save mem rsp (load mem rsp - BitVec.ofNat 64 (sizeof contextT))
  let context := load mem rsp
  let mem := clear mem context.toNat (sizeof contextT)
  let mem := save mem (field context (offsetOf contextT (.reg .rip))) entry
  let mem := save mem (field context (offsetOf contextT (.reg .r12))) entryPoint
  let mem := save mem (field context (offsetOf contextT (.reg .r13))) userStackTop
  let mem := save mem (field proc pcbContext) context
  save mem (field proc pcbTrapFrame) 0

/-! ## The machine -/

/-- Where a task is kept. -/
structure Site where
  pcb : Word
  base : Word
  top : Word
  deriving Repr, DecidableEq

namespace Site

def stack (p : Site) : ℕ × ℕ := (p.base.toNat, p.top.toNat - p.base.toNat)

/-- The pointers `context` and `trap_frame` of the PCB. -/
def pointers (p : Site) : ℕ × ℕ := (p.pcb.toNat + pcbContext, 16)

def ranges (p : Site) : List (ℕ × ℕ) := [p.stack, (p.pcb.toNat, pcbSize)]

def Apart (p q : Site) : Prop := ∀ r ∈ p.ranges, ∀ s ∈ q.ranges, Separate r s

instance (p q : Site) : Decidable (p.Apart q) :=
  inferInstanceAs (Decidable (∀ r ∈ p.ranges, ∀ s ∈ q.ranges, Separate r s))

structure Fits (p : Site) : Prop where
  pcb : p.pcb ≠ 0
  pcbFits : p.pcb.toNat + pcbSize ≤ 2 ^ 64
  room : p.base.toNat + kstackSize ≤ p.top.toNat
  apart : Separate p.stack (p.pcb.toNat, pcbSize)

end Site

/-- What happens in a step: user code or C code leaves the processor in a state, or one of the
sequences runs, with what it is given. -/
inductive Event
  | compute (u : User)
  | work (u : User)
  | interrupt (n : ℕ) (err : Word)
  | store (s : Slot) (v : Word)
  | iret
  | switchTo (next : Site) (ret : Word)
  | enterUser (entryPoint userStack : Word)
  | kthreadCreate (child : Site) (entry func arg : Word)
  | createUserProcess (child : Site) (entry entryPoint userStackTop : Word)
  | sysFork (child : Site) (entry : Word)
  | freeProc (q : Site)

/-- `waiting` are the tasks that are switched away from or have not run yet. `marks` are the
addresses of the frames on a task's stack, the last one first. -/
structure Machine where
  cpu : User
  mem : Mem
  current : Site
  waiting : List Site
  marks : Site → List Word

namespace Machine

variable (m : Machine)

def core : Core := ⟨m.cpu.reg, m.cpu.rsp, m.mem⟩

/-- Above this address C code leaves a task's stack alone. -/
def mark (p : Site) : Word := (m.marks p).headD p.top

def sites : List Site := m.current :: m.waiting

/-- Where the processor puts a frame: on the kernel stack, or below what stands there already. -/
def frameTop : Word := if m.cpu.cs = userCode then m.current.top else m.cpu.rsp - m.cpu.rsp % 16

/-- An interrupt, up to `isr_handler`, and for a system call what `syscall_handler` does first. -/
def interrupted (n : ℕ) (err : Word) : Machine :=
  let c := entry n err m.cpu m.frameTop m.mem
  { m with
    cpu :=
      { reg := c.reg
        cs := kernelCode
        rflags := handlerFlags m.cpu.rflags
        rsp := c.sp
        ss := if m.cpu.cs = userCode then 0 else m.cpu.ss }
    mem := if n = 128 then save c.mem (field m.current.pcb pcbTrapFrame) c.sp else c.mem
    marks := Function.update m.marks m.current (c.sp :: m.marks m.current) }

/-- The stores of a system call into its frame. -/
def stored (s : Slot) (v : Word) : Machine :=
  { m with mem := save m.mem (field (m.mark m.current) (offsetOf registersT s)) v }

/-- The end of an interrupt. -/
def returned (code : List Instr) : Machine :=
  { m with
    cpu := iretq (exec code m.core)
    mem := (exec code m.core).mem
    marks := Function.update m.marks m.current (m.marks m.current).tail }

/-- A call of `switch_to` that returns to `ret`. -/
def switched (next : Site) (ret : Word) : Machine :=
  let c := callSwitchTo m.current.pcb next.pcb ret m.core
  { m with
    cpu := { m.cpu with reg := c.reg, rsp := c.sp }
    mem := c.mem
    current := next
    waiting := m.current :: m.waiting.erase next }

def started (entryPoint userStack rflags : Word) : Machine :=
  let c := enterUserMode entryPoint userStack rflags m.core
  { m with cpu := iretq c, mem := c.mem }

def spawned (child : Site) (marks : List Word) (mem : Mem) : Machine :=
  { m with
    mem := mem
    waiting := child :: m.waiting
    marks := Function.update m.marks child marks }

def released (q : Site) : Machine := { m with waiting := m.waiting.erase q }

def forkSite (child : Site) (entry : Word) : ForkSite where
  parent := m.current.pcb
  child := child.pcb
  parentTop := m.current.top
  childTop := child.top
  entry := entry

/-- What C code leaves alone. -/
structure Work (c : Core) : Prop where
  base : m.current.base.toNat ≤ c.sp.toNat
  below : c.sp.toNat ≤ (m.mark m.current).toNat
  kept : Same m.mem c.mem
    ((m.mark m.current).toNat, m.current.top.toNat - (m.mark m.current).toNat)
  pointers : Same m.mem c.mem m.current.pointers
  others : ∀ q ∈ m.waiting, Same m.mem c.mem q.stack ∧ Same m.mem c.mem q.pointers

/-- What `kmalloc` and `kstack_init` return shares no byte with what they have returned before. -/
structure Fresh (child : Site) : Prop where
  fits : child.Fits
  base : child.base = child.top - BitVec.ofNat 64 kstackSize
  apart : ∀ p ∈ m.sites, child.Apart p

/-- The fields of its frame that a system call writes: the result, and `do_execve`'s. -/
def syscallSlots : List Slot := [.reg .rax, .reg .rdi, .reg .rsi, .reg .rip, .rsp]

/-- Room for what is pushed on the current stack. -/
def Room (n : ℕ) : Prop := m.current.base.toNat + n ≤ m.cpu.rsp.toNat

/-- The steps, by their events. -/
inductive Does : Machine → Event → Machine → Prop
  | compute {m : Machine} (u : User) (hm : m.cpu.cs = userCode) (hu : u.cs = userCode) :
    Does m (.compute u) { m with cpu := u }
  | work {m : Machine} (c : Core) (rflags ss : Word) (hm : m.cpu.cs = kernelCode)
    (hc : m.Work c) :
    Does m (.work ⟨c.reg, kernelCode, rflags, c.sp, ss⟩)
      { m with cpu := ⟨c.reg, kernelCode, rflags, c.sp, ss⟩, mem := c.mem }
  | interrupt {m : Machine} (n : ℕ) (err : Word) (hn : n ∈ gates)
    (hm : m.cpu.cs = userCode ∨ m.cpu.cs = kernelCode ∧ n ≠ 128 ∧ m.Room 192) :
    Does m (.interrupt n err) (m.interrupted n err)
  | store {m : Machine} (s : Slot) (v : Word) (hm : m.cpu.cs = kernelCode)
    (hmark : m.marks m.current ≠ []) (hs : s ∈ syscallSlots)
    (hsys : load m.mem (field (m.mark m.current) (offsetOf registersT .intNo)) = 128) :
    Does m (.store s v) (m.stored s v)
  | iret {m : Machine} (code : List Instr) (hcode : code ∈ [isrReturn, forkRetEntry])
    (hm : m.cpu.cs = kernelCode) (hmark : m.marks m.current ≠ [])
    (hsp : m.cpu.rsp = m.mark m.current) :
    Does m .iret (m.returned code)
  | switchTo {m : Machine} (next : Site) (ret : Word) (hm : m.cpu.cs = kernelCode)
    (hnext : next ∈ m.waiting) (hroom : m.Room 64) :
    Does m (.switchTo next ret) (m.switched next ret)
  | enterUser {m : Machine} (entryPoint userStack rflags : Word) (hm : m.cpu.cs = kernelCode)
    (hmark : m.marks m.current = []) (hroom : m.Room 40) :
    Does m (.enterUser entryPoint userStack) (m.started entryPoint userStack rflags)
  | kthreadCreate {m : Machine} (child : Site) (entry func arg : Word)
    (hm : m.cpu.cs = kernelCode) (hchild : m.Fresh child) :
    Does m (.kthreadCreate child entry func arg)
      (m.spawned child [] (Trap.kthreadCreate child.pcb child.top entry func arg m.mem))
  | createUserProcess {m : Machine} (child : Site) (entry entryPoint userStackTop : Word)
    (hm : m.cpu.cs = kernelCode) (hchild : m.Fresh child) :
    Does m (.createUserProcess child entry entryPoint userStackTop)
      (m.spawned child []
        (Trap.createUserProcess child.pcb child.top entry entryPoint userStackTop m.mem))
  | sysFork {m : Machine} (child : Site) (entry : Word) (hm : m.cpu.cs = kernelCode)
    (hmark : m.marks m.current ≠ [])
    (hsys : load m.mem (field (m.mark m.current) (offsetOf registersT .intNo)) = 128)
    (hchild : m.Fresh child) :
    Does m (.sysFork child entry)
      (m.spawned child [child.top - BitVec.ofNat 64 (sizeof trapFrameT)]
        ((m.forkSite child entry).sysFork m.mem))
  | freeProc {m : Machine} (q : Site) (hq : q ∈ m.waiting) :
    Does m (.freeProc q) (m.released q)

def Step (m m' : Machine) : Prop := ∃ e, m.Does e m'

/-- The kernel before the first task: the idle process on the boot stack. -/
structure Boot : Prop where
  cs : m.cpu.cs = kernelCode
  waiting : m.waiting = []
  marks : m.marks m.current = []
  fits : m.current.Fits
  base : m.current.base.toNat ≤ m.cpu.rsp.toNat
  below : m.cpu.rsp.toNat ≤ m.current.top.toNat

end Machine

/-! ## Tasks on their own -/

/-- The state of a task that an interrupt has put on its stack. -/
structure Frame where
  cpu : User
  intNo : ℕ
  errCode : Word

def Frame.slot (f : Frame) : Slot → Word
  | .reg r => f.cpu.reg r
  | .intNo => BitVec.ofNat 64 f.intNo
  | .errCode => if pushesError f.intNo then f.errCode else 0
  | .cs => f.cpu.cs
  | .rflags => f.cpu.rflags
  | .rsp => f.cpu.rsp
  | .ss => f.cpu.ss

def Frame.words (f : Frame) : List Word := registersT.map f.slot

def Frame.store (f : Frame) (s : Slot) (v : Word) : Frame :=
  match s with
  | .reg r => { f with cpu := { f.cpu with reg := Function.update f.cpu.reg r v } }
  | .rsp => { f with cpu := { f.cpu with rsp := v } }
  | _ => f

/-- The registers of a `context_t`. -/
def contextRegs : List Reg := [.r15, .r14, .r13, .r12, .rbx, .rbp, .rdi, .rip]

/-- The registers and the stack pointer with which a call of `switch_to` is to return. -/
structure Call where
  reg : Reg → Word
  rsp : Word

/-- The registers of a kernel thread that has not run. -/
def kthreadRegs (entry func arg : Word) : Reg → Word
  | .rip => entry
  | .rdi => arg
  | .rbx => func
  | _ => 0

/-- The registers of a user process that has not run. -/
def userProcessRegs (entry entryPoint userStackTop : Word) : Reg → Word
  | .rip => entry
  | .r12 => entryPoint
  | .r13 => userStackTop
  | _ => 0

/-- The tasks as if each had its own memory: the states that its interrupts have saved, and its call
of `switch_to` if it waits. -/
structure Tasks where
  cpu : User
  current : Site
  waiting : List Site
  frames : Site → List Frame
  call : Site → Call

namespace Tasks

/-- A step changes the running task, and what is saved for it, only: an interrupt saves the state of
the processor, a return restores the state saved last, and a dispatch the registers of the task's
own call. -/
inductive Step : Tasks → Event → Tasks → Prop
  | compute {t : Tasks} (u : User) (ht : t.cpu.cs = userCode) (hu : u.cs = userCode) :
    Step t (.compute u) { t with cpu := u }
  | work {t : Tasks} (u : User) (ht : t.cpu.cs = kernelCode) (hu : u.cs = kernelCode) :
    Step t (.work u) { t with cpu := u }
  | interrupt {t : Tasks} (u : User) (n : ℕ) (err : Word) (hu : u.cs = kernelCode) :
    Step t (.interrupt n err)
      { t with
        cpu := u
        frames := Function.update t.frames t.current (⟨t.cpu, n, err⟩ :: t.frames t.current) }
  | store {t : Tasks} {f : Frame} {fs : List Frame} (s : Slot) (v : Word)
    (hf : t.frames t.current = f :: fs) :
    Step t (.store s v)
      { t with frames := Function.update t.frames t.current (f.store s v :: fs) }
  | iret {t : Tasks} {f : Frame} {fs : List Frame} (hf : t.frames t.current = f :: fs) :
    Step t .iret { t with cpu := f.cpu, frames := Function.update t.frames t.current fs }
  | switchTo {t : Tasks} (next : Site) (u : User) (rdi ret : Word) (hnext : next ∈ t.waiting)
    (hu : ∀ r ∈ contextRegs, u.reg r = (t.call next).reg r)
    (hsp : u.rsp = (t.call next).rsp) (hcs : u.cs = t.cpu.cs) :
    Step t (.switchTo next ret)
      { t with
        cpu := u
        current := next
        waiting := t.current :: t.waiting.erase next
        call := Function.update t.call t.current
          ⟨Function.update (Function.update t.cpu.reg .rdi rdi) .rip ret, t.cpu.rsp⟩ }
  | enterUser {t : Tasks} (u : User) (entryPoint userStack : Word) (hf : t.frames t.current = [])
    (hu : u.cs = userCode) (hrip : u.reg .rip = entryPoint) (hsp : u.rsp = userStack) :
    Step t (.enterUser entryPoint userStack) { t with cpu := u }
  | kthreadCreate {t : Tasks} (child : Site) (entry func arg : Word)
    (hc : child ∉ t.current :: t.waiting) :
    Step t (.kthreadCreate child entry func arg)
      { t with
        waiting := child :: t.waiting
        frames := Function.update t.frames child []
        call := Function.update t.call child ⟨kthreadRegs entry func arg, child.top⟩ }
  | createUserProcess {t : Tasks} (child : Site) (entry entryPoint userStackTop : Word)
    (hc : child ∉ t.current :: t.waiting) :
    Step t (.createUserProcess child entry entryPoint userStackTop)
      { t with
        waiting := child :: t.waiting
        frames := Function.update t.frames child []
        call := Function.update t.call child
          ⟨userProcessRegs entry entryPoint userStackTop, child.top⟩ }
  | sysFork {t : Tasks} {f : Frame} (child : Site) (entry : Word) (call : Call)
    (hc : child ∉ t.current :: t.waiting) (hf : t.frames t.current = [f])
    (hrip : call.reg .rip = entry)
    (hsp : call.rsp = child.top - BitVec.ofNat 64 (sizeof trapFrameT)) :
    Step t (.sysFork child entry)
      { t with
        waiting := child :: t.waiting
        frames := Function.update t.frames child [f.store (.reg .rax) 0]
        call := Function.update t.call child call }
  | release {t : Tasks} (q : Site) (hq : q ∈ t.waiting) :
    Step t (.freeProc q) { t with waiting := t.waiting.erase q }

end Tasks

/-- What the tasks of a machine are, given what is saved for them. -/
def Machine.tasks (m : Machine) (frames : Site → List Frame) (call : Site → Call) : Tasks where
  cpu := m.cpu
  current := m.current
  waiting := m.waiting
  frames := frames
  call := call

end SudoOS.Trap
