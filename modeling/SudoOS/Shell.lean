import SudoOS.Strtok

/-!
# The shell's command line

`getline` and the loop of `shell_main` in `usr/shell.c`, as far as a command is handed over. The
buffer of the line and the array of arguments live as long as the shell: `getline` writes over the
front of the one and `strtok` fills the front of the other. An entry of the array that has not been
set yet holds what the stack held. The commands themselves leave both alone.
-/

namespace SudoOS

/-- `MAX_CMD_LEN`. -/
def maxCmdLen : ℕ := 256

/-- `MAX_ARGS`. -/
def maxArgs : ℕ := 16

/-- A pointer in `args`: `NULL`, a place in the line's buffer, or anything else. -/
inductive Arg
  | null
  | input (pos : ℕ)
  | other (addr : ℕ)
  deriving Repr, DecidableEq

structure Shell where
  input : List UInt8
  args : ℕ → Arg
  size : input.length = maxCmdLen

/-- The loop of `getline` over the keys of a line, up to the one that ends it; 8 and 127 take the
last character back. -/
def getlineLoop (maxLen : ℕ) : List UInt8 → ℕ → List UInt8 → List UInt8 × ℕ
  | buf, i, [] => (buf, i)
  | buf, i, c :: keys =>
    if i < maxLen - 1 then
      if c = 10 ∨ c = 13 then (buf, i)
      else if c = 8 ∨ c = 127 then getlineLoop maxLen buf (i - 1) keys
      else getlineLoop maxLen (buf.set i c) (i + 1) keys
    else (buf, i)

def getline (maxLen : ℕ) (buf keys : List UInt8) : List UInt8 :=
  let (buf, i) := getlineLoop maxLen buf 0 keys
  buf.set i 0

/-- The loop over the tokens: their places, at most `slots` of them, and the buffer. -/
def parseArgs : ℕ → List UInt8 → Option ℕ → Option ℕ → List ℕ × List UInt8
  | 0, buf, str, backup => ([], (strtok buf [32] str backup).2.1)
  | slots + 1, buf, str, backup =>
    match strtok buf [32] str backup with
    | (none, buf, _) => ([], buf)
    | (some token, buf, backup) =>
      let (toks, buf) := parseArgs slots buf none backup
      (token :: toks, buf)

/-- What a command is called with: its name and its arguments, `none` for `NULL`. -/
structure Call where
  word : List UInt8
  args : List (Option (List UInt8))
  deriving DecidableEq

/-- The chain of comparisons at the end of the loop, by the arguments each command reads. -/
def dispatch (argc : ℕ) (arg : ℕ → Option (List UInt8)) : Call :=
  let word := (arg 0).getD []
  if word ∈ [ascii "ls", ascii "cd", ascii "mkdir", ascii "cat", ascii "touch", ascii "run"] then
    ⟨word, [arg 1]⟩
  else if word = ascii "echo" then
    if argc ≥ 4 ∧ arg 2 = some (ascii ">") then ⟨word, [arg 1, arg 3]⟩ else ⟨word, [arg 1]⟩
  -- `help`, `pwd`, `clear`, `exit` and what is no command
  else ⟨word, []⟩

theorem length_getline (maxLen : ℕ) (buf keys : List UInt8) :
    (getline maxLen buf keys).length = buf.length := by
  have hloop : ∀ (keys buf : List UInt8) (i : ℕ),
      (getlineLoop maxLen buf i keys).1.length = buf.length := by
    intro keys
    induction keys with
    | nil => exact fun _ _ => rfl
    | cons c keys ih =>
      intro buf i
      rw [getlineLoop]
      split_ifs <;> simp [ih]
  rw [getline, List.length_set, hloop]

theorem length_strtok (buf delim : List UInt8) (str backup : Option ℕ) :
    (strtok buf delim str backup).2.1.length = buf.length := by
  unfold strtok
  rcases str.or backup with _ | pos
  · rfl
  · dsimp only
    split_ifs <;> simp

theorem length_parseArgs : ∀ (slots : ℕ) (buf : List UInt8) (str backup : Option ℕ),
    (parseArgs slots buf str backup).2.length = buf.length
  | 0, buf, str, backup => length_strtok buf [32] str backup
  | slots + 1, buf, str, backup => by
    have hlen := length_strtok buf [32] str backup
    rw [parseArgs]
    rcases h : strtok buf [32] str backup with ⟨_ | token, buf', backup'⟩ <;> rw [h] at hlen
    · exact hlen
    · exact (length_parseArgs slots buf' none backup').trans hlen

namespace Shell

/-- A line is read and its tokens are put into `args`: the shell then, and `argc`. -/
def readLine (s : Shell) (keys : List UInt8) : Shell × ℕ :=
  let buf := getline maxCmdLen s.input keys
  have hbuf : buf.length = maxCmdLen := (length_getline _ _ _).trans s.size
  if buf.getD 0 0 = 0 then (⟨buf, s.args, hbuf⟩, 0)
  else
    -- `strtok` is given the line, so what it has kept does not count.
    let r := parseArgs maxArgs buf (some 0) none
    (⟨r.2, fun i => (r.1[i]?.map Arg.input).getD (s.args i), (length_parseArgs _ _ _ _).trans hbuf⟩,
      r.1.length)

/-- The shell after some lines. -/
def after (s : Shell) (lines : List (List UInt8)) : Shell :=
  lines.foldl (fun s keys => (s.readLine keys).1) s

/-- The string a pointer leads to; `stray` are the strings outside the buffer. -/
def argText (s : Shell) (stray : ℕ → List UInt8) : Arg → Option (List UInt8)
  | .null => none
  | .input pos => some (cstr s.input pos)
  | .other addr => some (stray addr)

/-- The command of the next line, if it has one. -/
def call (s : Shell) (stray : ℕ → List UInt8) (keys : List UInt8) : Option Call :=
  let (s, argc) := s.readLine keys
  if argc = 0 then none else some (dispatch argc fun i => s.argText stray (s.args i))

end Shell

end SudoOS
