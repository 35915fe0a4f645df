import SudoOS.Bytes

/-!
# Printing numbers

The conversions of numbers to text: `itoa` and `itoa_uint64` of the kernel's `lib/string.c`,
`kprint_hex` of the console, and the `itoa` of the user library's `stdio.c`. The kernel collects the
digits in an array on its stack, whose contents are arbitrary before, and `none` says that the array
or the table of digits has been left; the user library writes into the caller's buffer and reverses
it there. Arithmetic on an `int` wraps.
-/

namespace SudoOS

/-- `digits`. -/
def digitTable : List UInt8 := ascii "0123456789ABCDEF"

/-- `digits[rem]`. -/
def digitAt (rem : ℤ) : Option UInt8 := if 0 ≤ rem then digitTable[rem.toNat]? else none

/-- The loop over `value`, with `room` bytes left of the array from `i` on: the array and `i` as it
leaves them. Division truncates. -/
def digitLoop (base : ℤ) : ℕ → ℤ → Bytes → ℕ → Option (Bytes × ℕ)
  | 0, value, temp, i => if value = 0 then some (temp, i) else none
  | room + 1, value, temp, i =>
    if value = 0 then some (temp, i)
    else (digitAt (value.tmod base)).bind fun c =>
      digitLoop base room (value.tdiv base) (Function.update temp i c) (i + 1)

/-- The `i` bytes of `temp` to `mem` at `j`, the last one first, and a terminator. -/
def copyBack (temp : Bytes) : ℕ → Bytes → ℕ → Bytes
  | 0, mem, j => Function.update mem j 0
  | i + 1, mem, j => copyBack temp i (Function.update mem j (temp i)) (j + 1)

/-- The two functions of the kernel: `size` is that of `temp`, and `neg` the negation of the
type. -/
def itoaWith (size : ℕ) (neg : ℤ → ℤ) (value : ℤ) (mem : Bytes) (buffer : ℕ) (base : ℤ)
    (temp : Bytes) : Option Bytes :=
  if base < 2 ∨ base > 16 then some (Function.update mem buffer 0)
  else
    let isNegative := value < 0 ∧ base = 10
    let value := if isNegative then neg value else value
    if value = 0 then some (Function.update (Function.update mem buffer 48) (buffer + 1) 0)
    else (digitLoop base size value temp 0).bind fun (temp, i) =>
      if isNegative then
        if i < size then some (copyBack (Function.update temp i 45) (i + 1) mem buffer) else none
      else some (copyBack temp i mem buffer)

/-- The kernel's `itoa`. -/
def itoa (value : BitVec 32) (mem : Bytes) (buffer : ℕ) (base : BitVec 32) (temp : Bytes) :
    Option Bytes :=
  itoaWith 32 (fun v => (-BitVec.ofInt 32 v).toInt) value.toInt mem buffer base.toInt temp

def itoaUint64 (value : BitVec 64) (mem : Bytes) (buffer : ℕ) (base : BitVec 64) (temp : Bytes) :
    Option Bytes :=
  itoaWith 64 (fun v => (-BitVec.ofInt 64 v).toNat) value.toNat mem buffer base.toNat temp

/-- The characters that `kprint_hex` gives to `kprint_char`. -/
def kprintHex (n : BitVec 64) (buffer : Bytes) : Option (List UInt8) :=
  if n = 0 then some [48]
  else (digitLoop 16 17 n.toNat buffer 0).map fun (buffer, i) => (List.range i).reverse.map buffer

namespace User

/-- The character of a digit. -/
def digitChar (remainder : ℕ) : UInt8 :=
  UInt8.ofNat (if remainder < 10 then remainder + 48 else remainder + 97 - 10)

/-- The digits of `ud` from `p` on, the last one first, and `p` behind them. -/
def digitLoop (divisor : ℕ) (hd : 1 < divisor) (ud : ℕ) (mem : Bytes) (p : ℕ) : Bytes × ℕ :=
  let mem := Function.update mem p (digitChar (ud % divisor))
  if h : ud / divisor = 0 then (mem, p + 1) else digitLoop divisor hd (ud / divisor) mem (p + 1)
termination_by ud
decreasing_by exact Nat.div_lt_self (by by_contra hz; exact h (by simp_all)) hd

/-- The bytes from `p1` to `p2` in reverse. -/
def reverseLoop (mem : Bytes) (p1 p2 : ℕ) : Bytes :=
  if p1 < p2 then
    reverseLoop (Function.update (Function.update mem p1 (mem p2)) p2 (mem p1)) (p1 + 1) (p2 - 1)
  else mem
termination_by p2 - p1

/-- The user library's `itoa`; `divisor` is 10 unless `base` is 16. -/
def itoa (mem : Bytes) (buf : ℕ) (base : BitVec 32) (d : BitVec 32) : Bytes :=
  let isNegative := base = 10 ∧ d.toInt < 0
  let mem := if isNegative then Function.update mem buf 45 else mem
  let buf := if isNegative then buf + 1 else buf
  let ud := if isNegative then (-d).signExtend 64 else d.signExtend 64
  let (mem, p) := if base = 16 then digitLoop 16 (by omega) ud.toNat mem buf
    else digitLoop 10 (by omega) ud.toNat mem buf
  reverseLoop (Function.update mem p 0) buf (p - 1)

end User

end SudoOS
