import SudoOS.Str

/-!
# Splitting a string

`strtok` of the user library keeps its place between two calls in `strtok_backup`, where the
kernel's `strtok_r` has the caller keep it. Both are called until they return `NULL`; the kernel's
callers pass one variable for the string and for the place.
-/

namespace SudoOS

/-- `strtok`: the token's place (`none` for `NULL`), the buffer with the token terminated, and
`strtok_backup`. -/
def strtok (buf delim : List UInt8) (str backup : Option ℕ) :
    Option ℕ × List UInt8 × Option ℕ :=
  match str.or backup with
  | none => (none, buf, none)
  | some pos =>
    let ret := pos + ((buf.drop pos).takeWhile fun c => c != 0 && delim.contains c).length
    if buf.getD ret 0 = 0 then (none, buf, none)
    else
      let stop := ret + ((buf.drop ret).takeWhile fun c => c != 0 && !delim.contains c).length
      if buf.getD stop 0 = 0 then (some ret, buf, none)
      else (some ret, buf.set stop 0, some (stop + 1))

/-- `strtok_r(p, delim, &p)` until `NULL`: the tokens with their places, and the buffer. -/
def strtokRLoop (delim : List UInt8) :
    ℕ → List UInt8 → ℕ → Option (List (ℕ × List UInt8) × List UInt8)
  | 0, _, _ => none
  | fuel + 1, buf, p =>
    match strtokR buf delim (some p) p with
    | (none, buf, _) => some ([], buf)
    | (some token, buf, p) =>
      (strtokRLoop delim fuel buf p).map fun r => ((token, cstr buf token) :: r.1, r.2)

/-- `strtok(str, delim)`, then `strtok(NULL, delim)` until `NULL`. -/
def strtokLoop (delim : List UInt8) :
    ℕ → List UInt8 → Option ℕ → Option ℕ → Option (List (ℕ × List UInt8) × List UInt8)
  | 0, _, _, _ => none
  | fuel + 1, buf, str, backup =>
    match strtok buf delim str backup with
    | (none, buf, _) => some ([], buf)
    | (some token, buf, backup) =>
      (strtokLoop delim fuel buf none backup).map fun r => ((token, cstr buf token) :: r.1, r.2)

end SudoOS
