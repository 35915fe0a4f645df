import SudoOS.Fork
import SudoOS.Lib.Stack

/-!
# Trap frames and contexts

The words that `isr_common_stub` of `arch/isr.S`, `switch_to` of `arch/switch.S` and
`fork_ret_entry` of `proc/entry.S` push and pop, the structures of `arch/idt.h` and `arch/trap.h`
through which the C code sees them, and what `sys_fork` and `SYS_FORK` write there. Pointers are
64-bit words into a memory of bytes. What else the kernel writes meanwhile is not part of these
definitions.
-/

namespace SudoOS.Trap

open Stack

/-- The registers of a task but for RSP. -/
inductive Reg
  | rax
  | rbx
  | rcx
  | rdx
  | rsi
  | rdi
  | rbp
  | r8
  | r9
  | r10
  | r11
  | r12
  | r13
  | r14
  | r15
  | rip
  deriving Repr, DecidableEq

/-- A task at an interrupt; the selectors are extended to words as the processor pushes them. -/
structure User where
  reg : Reg → Word
  cs : Word
  rflags : Word
  rsp : Word
  ss : Word

abbrev Core := Processor Reg

/-! ## Assembly -/

/-- The instructions in use: `movRsp` is `movq %rsp, r`, `storeRsp` is `mov %rsp, (r)` and `loadRsp`
is `mov r, %rsp`. -/
inductive Instr
  | push (r : Reg)
  | pushq (n : Word)
  | pop (r : Reg)
  | movRsp (r : Reg)
  | storeRsp (r : Reg)
  | loadRsp (r : Reg)
  | addRsp (n : Word)
  | ret
  deriving Repr, DecidableEq

def Instr.exec (c : Core) : Instr → Core
  | .push r => c.push (c.reg r)
  | .pushq n => c.push n
  | .pop r => c.pop r
  | .movRsp r => { c with reg := Function.update c.reg r c.sp }
  | .storeRsp r => { c with mem := save c.mem (c.reg r).toNat c.sp }
  | .loadRsp r => { c with sp := c.reg r }
  | .addRsp n => { c with sp := c.sp + n }
  | .ret => c.pop .rip

def exec (code : List Instr) (c : Core) : Core := code.foldl Instr.exec c

/-- `ISR_NOERRCODE 128`. -/
def isr128 : List Instr := [.pushq 0, .pushq 128]

/-- `isr_common_stub` up to the call of `isr_handler`. -/
def isrCommonStub : List Instr :=
  [.push .rax, .push .rbx, .push .rcx, .push .rdx, .push .rsi, .push .rdi, .push .rbp, .push .r8,
    .push .r9, .push .r10, .push .r11, .push .r12, .push .r13, .push .r14, .push .r15,
    .movRsp .rdi]

/-- `isr_common_stub` from the call's return to `iretq`. -/
def isrReturn : List Instr :=
  [.pop .r15, .pop .r14, .pop .r13, .pop .r12, .pop .r11, .pop .r10, .pop .r9, .pop .r8, .pop .rbp,
    .pop .rdi, .pop .rsi, .pop .rdx, .pop .rcx, .pop .rbx, .pop .rax, .addRsp 16]

def switchTo : List Instr :=
  [.push .rdi, .push .rbp, .push .rbx, .push .r12, .push .r13, .push .r14, .push .r15,
    .storeRsp .rdi, .loadRsp .rsi,
    .pop .r15, .pop .r14, .pop .r13, .pop .r12, .pop .rbx, .pop .rbp, .pop .rdi, .ret]

/-- `fork_ret_entry` up to `iretq`. -/
def forkRetEntry : List Instr :=
  [.pop .r15, .pop .r14, .pop .r13, .pop .r12, .pop .r11, .pop .r10, .pop .r9, .pop .r8, .pop .rbp,
    .pop .rdi, .pop .rsi, .pop .rdx, .pop .rcx, .pop .rbx, .pop .rax, .addRsp 16]

/-- The processor's part of an interrupt from user mode, on the stack that `tss.rsp0` names. -/
def interrupt (u : User) (rsp0 : Word) (mem : Mem) : Core :=
  let c := Processor.push ⟨u.reg, rsp0, mem⟩ u.ss
  (((c.push u.rsp).push u.rflags).push u.cs).push (u.reg .rip)

/-- `iretq`: the five words from the stack pointer on. -/
def iretq (c : Core) : User where
  reg := Function.update c.reg .rip (load c.mem c.sp.toNat)
  cs := load c.mem (c.sp.toNat + 8)
  rflags := load c.mem (c.sp.toNat + 16)
  rsp := load c.mem (c.sp.toNat + 24)
  ss := load c.mem (c.sp.toNat + 32)

/-- `int $0x80`, up to the call of `isr_handler`. -/
def trap (u : User) (rsp0 : Word) (mem : Mem) : Core :=
  exec (isr128 ++ isrCommonStub) (interrupt u rsp0 mem)

/-! ## Structures -/

/-- The fields of the structures, each a word. -/
inductive Slot
  | reg (r : Reg)
  | intNo
  | errCode
  | cs
  | rflags
  | rsp
  | ss
  deriving Repr, DecidableEq

def registersT : List Slot :=
  [.reg .r15, .reg .r14, .reg .r13, .reg .r12, .reg .r11, .reg .r10, .reg .r9, .reg .r8,
    .reg .rbp, .reg .rdi, .reg .rsi, .reg .rdx, .reg .rcx, .reg .rbx, .reg .rax,
    .intNo, .errCode, .reg .rip, .cs, .rflags, .rsp, .ss]

def trapFrameT : List Slot :=
  [.reg .r15, .reg .r14, .reg .r13, .reg .r12, .reg .r11, .reg .r10, .reg .r9, .reg .r8,
    .reg .rbp, .reg .rdi, .reg .rsi, .reg .rdx, .reg .rcx, .reg .rbx, .reg .rax,
    .intNo, .errCode, .reg .rip, .cs, .rflags, .rsp, .ss]

def contextT : List Slot :=
  [.reg .r15, .reg .r14, .reg .r13, .reg .r12, .reg .rbx, .reg .rbp, .reg .rdi, .reg .rip]

def sizeof (t : List Slot) : ℕ := 8 * t.length

def offsetOf (t : List Slot) (s : Slot) : ℕ := 8 * t.idxOf s

/-- The address of the field at `off` of what `p` points to. -/
def field (p : Word) (off : ℕ) : ℕ := (p + BitVec.ofNat 64 off).toNat

/-! The offsets of the pointers that lead a `pcb_t`. -/

def pcbRsp : ℕ := 0

def pcbKstackBase : ℕ := 8

def pcbContext : ℕ := 16

def pcbTrapFrame : ℕ := 24

/-! ## The kernel's part -/

/-- The PCBs of a fork, the tops of their kernel stacks and the address of `fork_ret_entry`. -/
structure ForkSite where
  parent : Word
  child : Word
  parentTop : Word
  childTop : Word
  entry : Word

namespace ForkSite

variable (k : ForkSite)

/-- What `syscall_handler` does first. -/
def saveTrapFrame (regs : Word) (mem : Mem) : Mem :=
  if k.parent ≠ 0 then save mem (field k.parent pcbTrapFrame) regs else mem

/-- `sys_fork` from the return of `kstack_init` on: the trap frame and the context. -/
def sysFork (mem : Mem) : Mem :=
  let rsp := field k.child pcbRsp
  let mem := save mem rsp k.childTop
  let mem := save mem (field k.child pcbKstackBase) (k.childTop - BitVec.ofNat 64 kstackSize)
  let parentTf := load mem (field k.parent pcbTrapFrame)
  let mem := save mem rsp (load mem rsp - BitVec.ofNat 64 (sizeof trapFrameT))
  let childTf := load mem rsp
  let mem := copy mem childTf.toNat parentTf.toNat (sizeof trapFrameT)
  let mem := save mem (field childTf (offsetOf trapFrameT (.reg .rax))) 0
  let mem := save mem (field k.child pcbTrapFrame) childTf
  let mem := save mem rsp (load mem rsp - BitVec.ofNat 64 (sizeof contextT))
  let context := load mem rsp
  let mem := save mem (field context (offsetOf contextT (.reg .rip))) k.entry
  save mem (field k.child pcbContext) context

end ForkSite

/-- What `syscall_handler` does last. -/
def setRet (regs : Word) (ret : ℤ) (mem : Mem) : Mem :=
  save mem (field regs (offsetOf registersT (.reg .rax))) (BitVec.ofInt 64 ret)

/-- The call of `switch_to` in `schedule`, which returns to `ret` later on. -/
def callSwitchTo (prev next ret : Word) (c : Core) : Core :=
  let reg := Function.update c.reg .rdi (prev + BitVec.ofNat 64 pcbContext)
  let reg := Function.update reg .rsi (load c.mem (field next pcbContext))
  exec switchTo (Processor.push { c with reg := reg } ret)

end SudoOS.Trap
