import SudoOS.Str

/-!
# Byte loops

The functions of `lib/string.c` that copy and compare byte by byte. Memory that is written to is a
function of the address; a string that is only read is the list of its bytes, as in `Str`, and its
head is the byte under the pointer.
-/

namespace SudoOS

/-- Bytes by address. -/
abbrev Bytes := ℕ → UInt8

def memcpy : Bytes → ℕ → ℕ → ℕ → Bytes
  | mem, _, _, 0 => mem
  | mem, dst, src, n + 1 => memcpy (Function.update mem dst (mem src)) (dst + 1) (src + 1) n

def memset : Bytes → ℕ → UInt8 → ℕ → Bytes
  | mem, _, _, 0 => mem
  | mem, dst, value, n + 1 => memset (Function.update mem dst value) (dst + 1) value n

/-- The first loop of `strncpy`: the memory, and `dst` and `n` as it leaves them. -/
def strncpyLoop : Bytes → ℕ → List UInt8 → ℕ → Bytes × ℕ × ℕ
  | mem, dst, _, 0 => (mem, dst, 0)
  | mem, dst, src, n + 1 =>
    let mem := Function.update mem dst (src.headD 0)
    -- The terminator has been stored, but is not counted.
    if src.headD 0 = 0 then (mem, dst + 1, n + 1) else strncpyLoop mem (dst + 1) src.tail n

/-- `strncpy`; its second loop is that of `memset`. -/
def strncpy (mem : Bytes) (dst : ℕ) (src : List UInt8) (n : ℕ) : Bytes :=
  let (mem, dst, n) := strncpyLoop mem dst src n
  memset mem dst 0 n

/-- The loop of `strncmp`: the two pointers and `n` as it leaves them, `n` lowered once more than
bytes have been passed. -/
def strncmpLoop : List UInt8 → List UInt8 → BitVec 64 → List UInt8 × List UInt8 × BitVec 64
  | [], b, n => ([], b, n - 1)
  | x :: a, b, n =>
    if n ≠ 0 ∧ x ≠ 0 ∧ x = b.headD 0 then strncmpLoop a b.tail (n - 1) else (x :: a, b, n - 1)

def strncmp (a b : List UInt8) (n : BitVec 64) : ℤ :=
  let (a, b, n) := strncmpLoop a b n
  if (n.setWidth 32).toInt < 0 then 0 else (a.headD 0).toNat - (b.headD 0).toNat

end SudoOS
