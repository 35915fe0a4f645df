import SudoOS.Lib.Format
import SudoOS.Lib.Wire
import SudoOS.Numbers
import SudoOS.Str

/-!
# Formatted output

`printf` of the user library's `stdio.c` and `kprintf` of the console, as the characters they give
to `putchar` and `kprint_char`. A format string is the memory from its pointer on. What the buffers
for the digits hold before is given by the number of arguments left. An argument of the wrong kind,
or one that was not passed, gives `none`, and so does a format string that does not end within the
fuel. With them `atoi` of `stdlib.c`.
-/

namespace SudoOS

open Wire

/-- An argument of a variadic call: a number in its register, or a pointer to a string. -/
inductive VaArg
  | word (w : BitVec 64)
  | str (s : Option (List UInt8))
  deriving DecidableEq

namespace VaArg

def int : VaArg → Option (BitVec 32)
  | .word w => some (w.setWidth 32)
  | .str _ => none

def uint64 : VaArg → Option (BitVec 64)
  | .word w => some w
  | .str _ => none

/-- The text of a `char *`. -/
def charPtr : VaArg → Option (List UInt8)
  | .word _ => none
  | .str none => some (ascii "(null)")
  | .str (some s) => some s

/-- `va_arg` of a type, given by how it reads the argument. -/
def next {β : Type} (type : VaArg → Option β) : List VaArg → Option (β × List VaArg)
  | [] => none
  | a :: args => (type a).map fun v => (v, args)

end VaArg

/-- The low byte of an `int`. -/
def lowByte (d : BitVec 32) : UInt8 := UInt8.ofNat d.toNat

/-! ## The user library -/

namespace User

/-- What stands in `buf[32]` after `itoa`. -/
def itoaText (buf : Bytes) (base d : BitVec 32) : List UInt8 := readStr (itoa buf 0 base d) 32 0

/-- The `switch` of `printf`. -/
def printfSwitch (buf : ℕ → Bytes) : Format.Conversion UInt8 (List VaArg) := fun format ap =>
  if format 0 = 'c'.toUInt8 then
    (VaArg.next VaArg.int ap).map fun (d, ap) => ([lowByte d], 1, ap)
  else if format 0 = 's'.toUInt8 then
    (VaArg.next VaArg.charPtr ap).map fun (s, ap) => (s, 1, ap)
  else if format 0 = 'd'.toUInt8 then
    (VaArg.next VaArg.int ap).map fun (d, ap) => (itoaText (buf ap.length) 10 d, 1, ap)
  else if format 0 = 'x'.toUInt8 then
    (VaArg.next VaArg.int ap).map fun (d, ap) => (itoaText (buf ap.length) 16 d, 1, ap)
  else some (['%'.toUInt8, format 0], 1, ap)

def printf (buf : ℕ → Bytes) : ℕ → (ℕ → UInt8) → List VaArg → Option (List UInt8) :=
  Format.run 0 '%'.toUInt8 (printfSwitch buf)

/-- The loop of `atoi`; what is no digit is passed over. -/
def atoiLoop (str : List UInt8) : BitVec 32 :=
  str.foldl (fun res c =>
    if 48 ≤ c ∧ c ≤ 57 then res * 10 + BitVec.ofNat 32 c.toNat - 48 else res) 0

def atoi (str : List UInt8) : BitVec 32 :=
  if str.head? = some '-'.toUInt8 then -1 * atoiLoop str.tail else 1 * atoiLoop str

end User

/-! ## The kernel -/

/-- `kprint_int`: what stands in its `buf[32]`, `temp` being the array of `itoa`. -/
def kprintInt (val : BitVec 32) (buf temp : Bytes) : Option (List UInt8) :=
  (itoa val buf 0 10 temp).map fun buf => readStr buf 32 0

def kprintUint64 (val : BitVec 64) (buf temp : Bytes) : Option (List UInt8) :=
  (itoaUint64 val buf 0 10 temp).map fun buf => readStr buf 64 0

/-- The `switch` of `kprintf`. -/
def kprintfSwitch (buf temp : ℕ → Bytes) : Format.Conversion UInt8 (List VaArg) := fun p args =>
  if p 0 = 'd'.toUInt8 ∨ p 0 = 'i'.toUInt8 ∨ p 0 = 'u'.toUInt8 then
    (VaArg.next VaArg.int args).bind fun (val, args) =>
      (kprintInt val (buf args.length) (temp args.length)).map fun s => (s, 1, args)
  else if p 0 = 'c'.toUInt8 then
    (VaArg.next VaArg.int args).map fun (val, args) => ([lowByte val], 1, args)
  else if p 0 = 's'.toUInt8 then
    (VaArg.next VaArg.charPtr args).map fun (s, args) => (s, 1, args)
  else if p 0 = 'x'.toUInt8 ∨ p 0 = 'p'.toUInt8 then
    (VaArg.next VaArg.uint64 args).bind fun (val, args) =>
      (kprintHex val (buf args.length)).map fun s =>
        ((if p 0 = 'p'.toUInt8 then ascii "0x" else []) ++ s, 1, args)
  else if p 0 = 'l'.toUInt8 then
    if p 1 = 'u'.toUInt8 ∨ p 1 = 'd'.toUInt8 then
      (VaArg.next VaArg.uint64 args).bind fun (val, args) =>
        (kprintUint64 val (buf args.length) (temp args.length)).map fun s => (s, 2, args)
    else if p 1 = 'x'.toUInt8 then
      (VaArg.next VaArg.uint64 args).bind fun (val, args) =>
        (kprintHex val (buf args.length)).map fun s => (s, 2, args)
    else some ([], 2, args)
  else if p 0 = '%'.toUInt8 then some (['%'.toUInt8], 1, args)
  else some (['%'.toUInt8, p 0], 1, args)

def kprintf (buf temp : ℕ → Bytes) : ℕ → (ℕ → UInt8) → List VaArg → Option (List UInt8) :=
  Format.run 0 '%'.toUInt8 (kprintfSwitch buf temp)

end SudoOS
