import SudoOS.Console
import SudoOS.Ramfs

/-!
# Reading and writing descriptors

The keyboard's buffer (`drivers/keyboard.c`) and the cases `SYS_READ` and `SYS_WRITE` of
`syscall_handler`. The keyboard is descriptor 0 and the console 1 and 2, whatever the table of the
process says; everything else goes to the file system, the arguments cut to an `int`.
-/

namespace SudoOS

/-- `KBUF_SIZE`. -/
def kbufSize : ℕ := 128

/-- The ring buffer of `drivers/keyboard.c`, with the state of the shift key. -/
structure Keyboard where
  kbuf : ℕ → UInt8
  rPtr : ℕ
  wPtr : ℕ
  gShift : Bool

def kmapLow : List UInt8 :=
  [0, 27] ++ ascii "1234567890-=" ++ [8, 9] ++ ascii "qwertyuiop[]" ++ [10, 0]
    ++ ascii "asdfghjkl;" ++ [39, 96, 0, 92] ++ ascii "zxcvbnm,./" ++ [0, 42, 0, 32]

def kmapUp : List UInt8 :=
  [0, 27] ++ ascii "!@#$%^&*()_+" ++ [8, 9] ++ ascii "QWERTYUIOP" ++ [123, 125, 10, 0]
    ++ ascii "ASDFGHJKL:" ++ [34, 126, 0, 124] ++ ascii "ZXCVBNM<>?" ++ [0, 42, 0, 32]

namespace Keyboard

def init : Keyboard := ⟨fun _ => 0, 0, 0, false⟩

/-- A character behind the others, lost when the buffer is full. -/
def put (k : Keyboard) (c : UInt8) : Keyboard :=
  let nextW := (k.wPtr + 1) % kbufSize
  if nextW ≠ k.rPtr then { k with kbuf := Function.update k.kbuf k.wPtr c, wPtr := nextW } else k

/-- `keyboard_get_char`. -/
def getChar (k : Keyboard) : UInt8 × Keyboard :=
  if k.rPtr = k.wPtr then (0, k)
  else (k.kbuf k.rPtr, { k with rPtr := (k.rPtr + 1) % kbufSize })

end Keyboard

structure Devices where
  keyboard : Keyboard
  console : Console

namespace Devices

/-- `keyboard_handler`. -/
def keyboardHandler (d : Devices) (scancode : UInt8) : Devices :=
  let k := d.keyboard
  if scancode = 0x2A ∨ scancode = 0x36 then { d with keyboard := { k with gShift := true } }
  else if scancode = 0xAA ∨ scancode = 0xB6 then { d with keyboard := { k with gShift := false } }
  else if scancode &&& 0x80 ≠ 0 then d
  else if scancode = 0x49 then { d with console := d.console.consoleScroll 10 }
  else if scancode = 0x51 then { d with console := d.console.consoleScroll (-10) }
  else
    let c := (if k.gShift then kmapUp else kmapLow).getD scancode.toNat 0
    if c ≠ 0 then { d with keyboard := k.put c } else d

end Devices

/-! ## System calls -/

/-- An argument register as an `int`. -/
def intArg (arg : BitVec 64) : BitVec 32 := arg.setWidth 32

/-- The result of `SYS_READ`, with the bytes it has stored from the buffer's address on. -/
structure ReadResult where
  ret : BitVec 64
  stored : List UInt8
  fs : Ramfs
  dev : Devices

def sysRead (fs : Ramfs) (cur : Pcb) (dev : Devices) (arg1 arg3 : BitVec 64) : Option ReadResult :=
  if arg1 = 0 then
    let (c, k) := dev.keyboard.getChar
    if c ≠ 0 then some ⟨1, [c], fs, { dev with keyboard := k }⟩
    else some ⟨0, [], fs, { dev with keyboard := k }⟩
  else
    (fs.ramfsRead cur (intArg arg1).toInt (intArg arg3)).map fun r =>
      ⟨BitVec.ofInt 64 r.1, r.2.1, r.2.2, dev⟩

structure WriteResult where
  ret : BitVec 64
  fs : Ramfs
  dev : Devices

/-- `SYS_WRITE` of what stands at `buf`. -/
def sysWrite (fs : Ramfs) (cur : Pcb) (dev : Devices) (arg1 : BitVec 64) (buf : ℕ → UInt8)
    (arg3 : BitVec 64) : Option WriteResult :=
  if arg1 = 1 ∨ arg1 = 2 then
    let len := (intArg arg3).toInt
    some ⟨BitVec.ofInt 64 len, fs,
      { dev with
        console := (List.range len.toNat).foldl (fun s i => s.kprintChar (buf i)) dev.console }⟩
  else
    (fs.ramfsWrite cur (intArg arg1).toInt buf (intArg arg3)).map fun r =>
      ⟨BitVec.ofInt 64 r.1, r.2, dev⟩

end SudoOS
