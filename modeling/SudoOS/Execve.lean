import SudoOS.Elf
import SudoOS.Ramfs

/-!
# Replacing a program

`do_execve` of `arch/interrupts.c`. The file is read into a block of the kernel heap, whose size
comes from a structure of eight bytes on the stack that `ramfs_fstat` has been given; the bytes that
the stack and the new block hold before are parameters. Where `ramfs_fstat` returns 0 it has stored
beyond that structure, and there is no result. `argv` and `envp` are not used.
-/

namespace SudoOS

/-- The registers of a `trap_frame_t` that `do_execve` sets. -/
structure TrapFrame where
  rip : ℕ
  rsp : ℕ
  rdi : ℕ
  rsi : ℕ
  deriving Repr, DecidableEq

/-- The calling process, its files and its memory. -/
structure ExecState where
  fs : Ramfs
  cur : Pcb
  mem : Kernel
  trapFrame : Option TrapFrame

/-- A block of `size` bytes at `addr`, and the memory from there on. -/
structure ElfBuf where
  addr : ℕ
  size : ℕ
  mem : ℕ → UInt8

def ElfBuf.bytes (b : ElfBuf) : List UInt8 := (List.range b.size).map b.mem

namespace ExecState

def close (s : ExecState) (fd : ℤ) : ExecState :=
  { s with fs := (s.fs.ramfsClose s.cur fd).1, cur := (s.fs.ramfsClose s.cur fd).2 }

/-- From `kmalloc` on, up to `load_elf`. -/
def readElf (s : ExecState) (fd : ℤ) (size : ℕ) (heap : ℕ → UInt8) :
    Option (Option ElfBuf × ExecState) :=
  match s.mem.kmalloc size with
  | none => none
  | some (elfBuf, km) =>
    let s := { s with mem := { s.mem with toKMem := km } }
    if elfBuf = 0 then some (none, s.close fd)
    else
      match s.fs.ramfsRead s.cur fd (BitVec.ofNat 32 size) with
      | none => none
      | some (readBytes, bytes, fs) =>
        let s := { s with fs := fs }.close fd
        if (BitVec.ofInt 64 readBytes).toNat ≠ size then
          some (none, { s with mem := s.mem.kfree elfBuf })
        else some (some ⟨elfBuf, size, Wire.store heap 0 bytes⟩, s)

/-- The buffer that `load_elf` is handed, `none` when the call returns -1 before that. The memory
from `st` on is the stack from the structure for `ramfs_fstat` on. -/
def openElf (s : ExecState) (path : Option (List UInt8)) (st heap : ℕ → UInt8) :
    Option (Option ElfBuf × ExecState) :=
  match s.fs.ramfsOpen s.cur path 0 false with
  | none => none
  | some (fd, fs, cur) =>
    let s := { s with fs := fs, cur := cur }
    if fd < 0 then some (none, s)
    else
      match s.fs.ramfsFstat s.cur fd st with
      | none => none
      | some (ret, st) => if ret = 0 then none else s.readElf fd (Wire.readLe st 0 8) heap

/-- From `load_elf` on. -/
def loadBuf (s : ExecState) (b : ElfBuf) : Option (ℤ × ExecState) :=
  match s.mem.loadElf s.cur.mm b.mem with
  | none => none
  | some (entry, k) =>
    let s := { s with mem := k.kfree b.addr }
    if entry = 0 then some (-1, s)
    else
      some (0, { s with
        trapFrame := s.trapFrame.map fun f =>
          { f with rip := entry, rsp := userStackTop, rdi := 0, rsi := 0 } })

def doExecve (s : ExecState) (path : Option (List UInt8)) (st heap : ℕ → UInt8) :
    Option (ℤ × ExecState) :=
  match s.openElf path st heap with
  | none => none
  | some (none, s) => some (-1, s)
  | some (some b, s) => s.loadBuf b

end ExecState

end SudoOS
