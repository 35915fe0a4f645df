import SudoOS.Word

/-!
# C strings in a buffer

The string functions of `lib/string.c` that the file system uses. A string that is only read is the
list of its bytes, without the final NUL; a buffer that is written to is the list of all its bytes,
and a pointer into it is an index.
-/

namespace SudoOS

/-- The bytes of a string literal. -/
def ascii (s : String) : List UInt8 := s.toList.map fun c => UInt8.ofNat c.toNat

/-- The string at an index of a buffer. -/
def cstr (buf : List UInt8) (pos : ℕ) : List UInt8 := (buf.drop pos).takeWhile (· != 0)

/-- `strtok_r`: the token's place (`none` for `NULL`), the buffer with the token terminated, and
what it leaves in `saveptr`. -/
def strtokR (buf delim : List UInt8) (str : Option ℕ) (saveptr : ℕ) :
    Option ℕ × List UInt8 × ℕ :=
  let str := str.getD saveptr
  let token := str + ((buf.drop str).takeWhile fun c => c != 0 && delim.contains c).length
  if buf.getD token 0 = 0 then (none, buf, token)
  else
    let stop := token + ((buf.drop token).takeWhile fun c => c != 0 && !delim.contains c).length
    if buf.getD stop 0 = 0 then (some token, buf, stop)
    else (some token, buf.set stop 0, stop + 1)

/-- A length stored in an `int`. -/
def toInt32 (n : ℕ) : ℤ := (BitVec.ofNat 32 n).toInt

end SudoOS
