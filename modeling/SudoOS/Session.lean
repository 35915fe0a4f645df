import SudoOS.Directory
import SudoOS.Io
import SudoOS.Printf
import SudoOS.Shell

/-!
# The shell at work

The commands of `usr/shell.c`, with the functions of the user library they call and the cases of
`syscall_handler` behind these, as far as the shell's process, the file system, the keyboard and the
console go. The shell is the only process that runs; scancodes arrive between two reads of the
keyboard. `exit` and `run` are left out. A loop that does not end within its fuel gives `none`, as
does a call that leaves a buffer.
-/

namespace SudoOS

/-- The file system, the PCB of the shell's process, and the devices. -/
structure Session where
  fs : Ramfs
  cur : Pcb
  dev : Devices

namespace Session

/-! ## The user library -/

/-- The result, and the bytes stored. -/
def read (s : Session) (fd : ℤ) (count : BitVec 32) : Option (ℤ × List UInt8 × Session) :=
  (sysRead s.fs s.cur s.dev (BitVec.ofInt 64 fd) (count.signExtend 64)).map fun r =>
    ((intArg r.ret).toInt, r.stored, { s with fs := r.fs, dev := r.dev })

def write (s : Session) (fd : ℤ) (buf : ℕ → UInt8) (count : BitVec 32) : Option (ℤ × Session) :=
  (sysWrite s.fs s.cur s.dev (BitVec.ofInt 64 fd) buf (count.signExtend 64)).map fun r =>
    ((intArg r.ret).toInt, { s with fs := r.fs, dev := r.dev })

/-- A string as it stands in memory. -/
def pathArg (path : Option (List UInt8)) : Option (List UInt8) := path.map (· ++ [0])

/-- `mem` tells whether `kmalloc` has a page for a new file. -/
def «open» (s : Session) (path : Option (List UInt8)) (flags : BitVec 32) (mem : Bool) :
    Option (ℤ × Session) :=
  (s.fs.ramfsOpen s.cur (pathArg path) flags mem).map fun (fd, fs, cur) =>
    (fd, { s with fs := fs, cur := cur })

def close (s : Session) (fd : ℤ) : Session :=
  { s with fs := (s.fs.ramfsClose s.cur fd).1, cur := (s.fs.ramfsClose s.cur fd).2 }

def getdents64 (s : Session) (fd : ℤ) (dirp : ℕ → UInt8) (count : BitVec 32) :
    Option (ℤ × (ℕ → UInt8) × Session) :=
  (s.fs.ramfsGetdents64 s.cur fd dirp count).map fun (n, buf, fs) => (n, buf, { s with fs := fs })

/-- `SYS_CHDIR` does not resolve a null pointer. -/
def chdir (s : Session) (path : Option (List UInt8)) : Option (ℤ × Session) :=
  if path = none then some (-1, s)
  else (s.fs.ramfsChdir s.cur (pathArg path)).map fun (ret, cur) => (ret, { s with cur := cur })

def mkdir (s : Session) (path : Option (List UInt8)) : Option (ℤ × Session) :=
  if path = none then some (-1, s)
  else (s.fs.ramfsMkdir s.cur (pathArg path)).map fun (ret, fs) => (ret, { s with fs := fs })

/-- The path in `buf`, `none` when the call returns `NULL`. -/
def getcwd (s : Session) (buf : ℕ → UInt8) (size : ℕ) : Option (Option (List UInt8)) :=
  if size = 0 then some none
  else (s.fs.ramfsGetcwd s.cur (some buf) size).map fun r =>
    r.map fun buf => Wire.readStr buf size 0

def putchar (s : Session) (c : UInt8) : Option Session := (s.write 1 (fun _ => c) 1).map Prod.snd

def printf (s : Session) (format : String) (ap : List VaArg) : Option Session :=
  (User.printf (fun _ _ => 0) (format.length + 1)
    (Format.prepend (ascii format ++ [0]) fun _ => 0) ap).bind fun text => text.foldlM putchar s

/-! ## Typing a line -/

/-- Scancodes that arrive. -/
def interrupts (s : Session) (codes : List UInt8) : Session :=
  { s with dev := codes.foldl Devices.keyboardHandler s.dev }

/-- The end of a line that is being read: the session, the buffer, `i`, and the characters read. -/
structure Typed where
  session : Session
  buf : List UInt8
  i : ℕ
  keys : List UInt8

/-- The loop of `getline`, given the scancodes that arrive before each read. -/
def getlineLoop (maxLen : ℕ) : List (List UInt8) → Session → List UInt8 → ℕ → Option Typed
  | [], s, buf, i => if i < maxLen - 1 then none else some ⟨s, buf, i, []⟩
  | codes :: polls, s, buf, i =>
    if i < maxLen - 1 then
      ((s.interrupts codes).read 0 1).bind fun (n, bytes, s) =>
        if n > 0 then
          let c := bytes.headD 0
          if c = 10 ∨ c = 13 then (s.printf "\n" []).map fun s => ⟨s, buf, i, [c]⟩
          else
            Option.map (fun t => { t with keys := c :: t.keys })
              (if c = 8 ∨ c = 127 then
                if i > 0 then
                  (s.printf "\x08 \x08" []).bind fun s => getlineLoop maxLen polls s buf (i - 1)
                else getlineLoop maxLen polls s buf i
              else
                (s.printf "%c" [.word (c.toBitVec.signExtend 64)]).bind fun s =>
                  getlineLoop maxLen polls s (buf.set i c) (i + 1))
        else getlineLoop maxLen polls s buf i
    else some ⟨s, buf, i, []⟩

/-! ## The commands -/

/-- What a command finds: whether there is memory for a new file, and what its buffer holds. -/
structure Env where
  mem : Bool
  stack : ℕ → UInt8

def cmdHelp (s : Session) : Option Session :=
  ["\n=== SudoOS Shell Help ===\n",
    "Filesystem:\n",
    "  ls [path]       List directory contents\n",
    "  cd <path>       Change working directory\n",
    "  mkdir <path>    Create a new directory\n",
    "  pwd             Print current working directory\n",
    "  touch <file>    Create a new empty file\n",
    "  cat <file>      Display file content\n",
    "  echo <text>     Print text (use > to write to file)\n",
    "\nSystem:\n",
    "  clear           Clear the screen\n",
    "  run <id>        Interactive Syscall Runner\n",
    "  exit            Exit the shell\n",
    "\n[Debug] Syscall Table (ID : Name):\n",
    "   0 : READ          1 : WRITE         2 : OPEN\n",
    "   3 : CLOSE         4 : STAT          5 : FSTAT\n",
    "   8 : LSEEK         9 : MMAP         11 : MUNMAP\n",
    "  12 : BRK          24 : YIELD        35 : NANOSLEEP\n",
    "  39 : GETPID       57 : FORK         59 : EXECVE\n",
    "  60 : EXIT         61 : WAIT4        79 : GETCWD\n",
    "  80 : CHDIR        83 : MKDIR        96 : GETTIMEOFDAY\n",
    " 110 : GETPPID     217 : GETDENTS64\n"].foldlM (fun s line => s.printf line []) s

/-- One line of `cmd_ls`. -/
def printDirent (s : Session) (d : Ramfs.Dirent) : Option Session :=
  s.printf (if d.dType = 4 then "[%s]  " else "%s  ") [.str (some d.dName)]

/-- The loop of `cmd_ls` over the calls of `getdents64`, which counts the entries. -/
def lsLoop (fd : ℤ) : ℕ → Session → (ℕ → UInt8) → ℕ → Option (Session × ℕ)
  | 0, _, _, _ => none
  | fuel + 1, s, buf, count =>
    (s.getdents64 fd buf 1024).bind fun (nread, buf, s) =>
      if nread > 0 then
        (Ramfs.cmdLs buf nread.toNat nread.toNat 0).bind fun ds =>
          (ds.foldlM (fun s d => printDirent s d.2) s).bind fun s =>
            lsLoop fd fuel s buf (count + ds.length)
      else some (s, count)

def cmdLs (s : Session) (e : Env) (path : Option (List UInt8)) : Option Session :=
  let path := path.getD dot
  (s.open (some path) 0 e.mem).bind fun (fd, s) =>
    if fd < 0 then
      s.printf "ls: cannot access '%s': No such file or directory\n" [.str (some path)]
    else
      (lsLoop fd (maxFiles + 1) s e.stack 0).bind fun (s, count) =>
        (if count > 0 then s.printf "\n" [] else some s).map fun s => s.close fd

def cmdCd (s : Session) (path : Option (List UInt8)) : Option Session :=
  let path := path.getD (ascii "/usr")
  (s.chdir (some path)).bind fun (ret, s) =>
    if ret < 0 then s.printf "cd: no such file or directory: %s\n" [.str (some path)] else some s

def cmdPwd (s : Session) (e : Env) : Option Session :=
  (s.getcwd e.stack 128).bind fun cwd =>
    match cwd with
    | some path => s.printf "%s\n" [.str (some path)]
    | none => some s

def cmdMkdir (s : Session) (path : Option (List UInt8)) : Option Session :=
  (s.mkdir path).bind fun (ret, s) => if ret < 0 then s.printf "mkdir failed.\n" [] else some s

/-- The loop of `cat`; the string in its buffer ends at the first NUL. -/
def catLoop (fd : ℤ) : ℕ → Session → Option Session
  | 0, _ => none
  | fuel + 1, s =>
    (s.read fd 127).bind fun (n, bytes, s) =>
      if n > 0 then
        (s.printf "%s" [.str (some (cstr (bytes ++ [0]) 0))]).bind fun s => catLoop fd fuel s
      else some s

/-- A file has at most 4096 bytes. -/
def cmdCat (s : Session) (e : Env) (path : Option (List UInt8)) : Option Session :=
  (s.open path 0 e.mem).bind fun (fd, s) =>
    if fd ≥ 0 then
      ((catLoop fd 4097 s).bind fun s => s.printf "\n" []).map fun s => s.close fd
    else s.printf "File not found.\n" []

def cmdTouch (s : Session) (e : Env) (path : Option (List UInt8)) : Option Session :=
  (s.open path oCreat e.mem).map fun (fd, s) => if fd ≥ 0 then s.close fd else s

/-- `write(fd, text, strlen(text))`. -/
def writeText (s : Session) (fd : ℤ) (text : List UInt8) : Option (ℤ × Session) :=
  s.write fd (fun i => (text ++ [0]).getD i 0) (BitVec.ofNat 32 text.length)

/-- `echo` with a file behind `>`. -/
def echoTo (s : Session) (e : Env) (text path : Option (List UInt8)) : Option Session :=
  (s.open path oCreat e.mem).bind fun (fd, s) =>
    if fd ≥ 0 then
      text.bind fun text =>
        (s.writeText fd text).bind fun (_, s) =>
          (s.writeText fd (ascii "\n")).map fun (_, s) => s.close fd
    else some s

def echo (s : Session) (text : Option (List UInt8)) : Option Session :=
  s.printf "%s\n" [.str (some (text.getD []))]

/-- `printf("\n")`, thirty times. -/
def clear (s : Session) : Option Session :=
  (List.replicate 30 "\n").foldlM (fun s line => s.printf line []) s

/-- The chain of comparisons in `shell_main`. -/
def command (s : Session) (e : Env) (c : Call) : Option Session :=
  if c.word = ascii "help" then s.cmdHelp
  else if c.word = ascii "ls" then s.cmdLs e (c.args.headD none)
  else if c.word = ascii "cd" then s.cmdCd (c.args.headD none)
  else if c.word = ascii "pwd" then s.cmdPwd e
  else if c.word = ascii "mkdir" then s.cmdMkdir (c.args.headD none)
  else if c.word = ascii "cat" then s.cmdCat e (c.args.headD none)
  else if c.word = ascii "touch" then s.cmdTouch e (c.args.headD none)
  else if c.word = ascii "echo" then
    match c.args with
    | [text, path] => s.echoTo e text path
    | args => s.echo (args.headD none)
  else if c.word = ascii "clear" then s.clear
  else if c.word = ascii "exit" ∨ c.word = ascii "run" then none
  else s.printf "Unknown command: %s\n" [.str (some c.word)]

/-- The prompt of `shell_main`. -/
def prompt (s : Session) (e : Env) : Option Session :=
  (s.getcwd e.stack 128).bind fun cwd =>
    match cwd with
    | some path => s.printf "root@SudoOS:%s$ " [.str (some path)]
    | none => s.printf "root@SudoOS:?$ " []

/-- The first lines of `shell_main`. -/
def welcome (s : Session) : Option Session :=
  (s.printf "\nWelcome to SudoOS Shell v3.1\n" []).bind fun s =>
    (s.printf "Type 'help' for available commands.\n" []).bind fun s =>
      (s.chdir (some (ascii "/usr"))).bind fun (ret, s) =>
        if ret < 0 then
          (s.printf "Warning: Could not cd to /usr. Falling back to root.\n" []).bind fun s =>
            (s.chdir (some [slash])).map Prod.snd
        else some s

/-- What comes from outside in a round of the loop in `shell_main`: the scancodes before each read,
what the command finds, and the strings that stray pointers lead to. -/
structure Round where
  polls : List (List UInt8)
  env : Env
  stray : ℕ → List UInt8

/-- A line is read behind a prompt. -/
def readLine (s : Session) (sh : Shell) (r : Round) : Option Typed :=
  (s.prompt r.env).bind fun s => getlineLoop maxCmdLen r.polls s sh.input 0

/-- The command of a line that has been read, if it has one. -/
def answer (s : Session) (e : Env) : Option Call → Option Session
  | none => some s
  | some c => s.command e c

/-- The keys of a line and the command it gives. -/
structure Turn where
  keys : List UInt8
  call : Option Call
  deriving DecidableEq

/-- The loop of `shell_main`. -/
def shellMain : Shell → Session → List Round → Option (List Turn × Shell × Session)
  | sh, s, [] => some ([], sh, s)
  | sh, s, r :: rounds =>
    (s.readLine sh r).bind fun t =>
      let call := sh.call r.stray t.keys
      (t.session.answer r.env call).bind fun s =>
        (shellMain (sh.readLine t.keys).1 s rounds).map fun (turns, sh, s) =>
          (⟨t.keys, call⟩ :: turns, sh, s)

end Session

end SudoOS
