import SudoOS.Proc
import SudoOS.Str
import SudoOS.Lib.Wire

/-!
# The RAM file system

`fs/ramfs.c`: a table of inodes linked by `parent_idx`, a table of open files, and the descriptors
and working directory in the PCB of the process that calls. A file's content is `none` for a `NULL`
pointer. A call returns `none` where the source overruns a buffer or follows a `NULL` pointer.
-/

namespace SudoOS

/-- `MAX_FILES`. -/
def maxFiles : ℕ := 64

/-- `MAX_SYSTEM_OPEN_FILES`. -/
def maxSystemOpenFiles : ℕ := 128

/-- `O_CREAT`. -/
def oCreat : BitVec 32 := 64#32

/-- The `type` of an inode, zero in a cleared one. -/
inductive RamfsType
  | cleared
  | file
  | dir
  deriving Repr, DecidableEq

/-- `ramfs_node_t`. -/
structure RamfsNode where
  name : List UInt8
  content : Option (List UInt8)
  size : ℕ
  isUsed : Bool
  type : RamfsType
  parentIdx : ℤ
  inodeIdx : ℤ
  deriving Repr, DecidableEq

/-- `file_t`, its node given by index. -/
structure File where
  node : Option ℕ
  offset : ℕ
  refCount : ℤ
  deriving Repr, DecidableEq

structure Ramfs where
  files : ℕ → RamfsNode
  globalFileTable : ℕ → File

/-- An inode after `memset`. -/
def RamfsNode.zero : RamfsNode := ⟨[], none, 0, false, .cleared, 0, 0⟩

/-- `'/'`, `"."` and `".."`. -/
def slash : UInt8 := 47

def dot : List UInt8 := [46]

def dotDot : List UInt8 := [46, 46]

namespace Ramfs

/-- The inode at an `int` index. -/
def node (fs : Ramfs) (i : ℤ) : RamfsNode := fs.files i.toNat

def setNode (fs : Ramfs) (i : ℕ) (n : RamfsNode) : Ramfs :=
  { fs with files := Function.update fs.files i n }

def setFile (fs : Ramfs) (i : ℕ) (f : File) : Ramfs :=
  { fs with globalFileTable := Function.update fs.globalFileTable i f }

/-- The open file `alloc_file_handle` takes. -/
def allocFileHandle (fs : Ramfs) : Option (ℕ × Ramfs) :=
  ((List.range maxSystemOpenFiles).find? fun i => (fs.globalFileTable i).refCount = 0).map
    fun i => (i, fs.setFile i ⟨none, 0, 1⟩)

def freeFileHandle (fs : Ramfs) (i : ℕ) : Ramfs :=
  fs.setFile i { fs.globalFileTable i with refCount := 0, node := none }

/-- The inode `alloc_inode` takes, cleared and marked. -/
def allocInode (fs : Ramfs) : Option (ℕ × Ramfs) :=
  ((List.range maxFiles).find? fun i => !(fs.files i).isUsed).map
    fun i => (i, fs.setNode i { RamfsNode.zero with isUsed := true, inodeIdx := i })

/-! ## Paths -/

/-- The first used inode in directory `curr` with the name, -1 if there is none. -/
def lookup (fs : Ramfs) (curr : ℤ) (name : List UInt8) : ℤ :=
  match (List.range maxFiles).find? fun i =>
    (fs.files i).isUsed && (fs.files i).parentIdx == curr && (fs.files i).name == name with
  | some i => i
  | none => -1

/-- What `resolve_path` returns, and what it stores through `parent_out` and `name_out`. -/
structure Resolved where
  inode : ℤ
  parentOut : Option ℤ
  nameOut : Option (List UInt8)
  deriving Repr, DecidableEq

/-- The loop over the tokens. The last one goes through `strcpy` into a `name[32]` when the caller
wants it. -/
def resolveLoop (fs : Ramfs) (wantName : Bool) : ℕ → List UInt8 → ℕ → ℤ → Option Resolved
  | 0, _, _, curr => some ⟨curr, some (fs.node curr).parentIdx, none⟩
  | fuel + 1, buf, p, curr =>
    match strtokR buf [slash] (some p) p with
    | (none, _, _) => some ⟨curr, some (fs.node curr).parentIdx, none⟩
    | (some pos, buf, p) =>
      let token := cstr buf pos
      if token = [] then resolveLoop fs wantName fuel buf p curr
      else if token = dot then resolveLoop fs wantName fuel buf p curr
      else if token = dotDot then
        let up := (fs.node curr).parentIdx
        resolveLoop fs wantName fuel buf p (if up ≠ -1 then up else curr)
      else
        let found := fs.lookup curr token
        if buf.getD p 0 ≠ 0 then
          if found = -1 ∨ (fs.node found).type ≠ .dir then some ⟨-1, none, none⟩
          else resolveLoop fs wantName fuel buf p found
        else if wantName ∧ token.length ≥ 32 then none
        else some ⟨found, some curr, some token⟩

/-- Where the walk starts, and the path from there. -/
def pathStart (cwd : ℤ) (path : List UInt8) : ℤ × List UInt8 :=
  if path.head? = some slash then (0, path.tail) else (cwd, path)

/-- `resolve_path` of the string at a pointer, for a process in directory `cwd`. Every token takes a
byte of the buffer, so the loop ends before the bytes do. -/
def resolvePath (fs : Ramfs) (cwd : ℤ) (wantName : Bool) : Option (List UInt8) → Option Resolved
  | none => some ⟨-1, none, none⟩
  | some path =>
    let start := pathStart cwd (cstr path 0)
    let len := min (toInt32 start.2.length) 127
    if len < 0 then none
    else
      let tempPath := start.2.take len.toNat ++ [0]
      resolveLoop fs wantName tempPath.length tempPath 0 start.1

/-! ## Calls -/

/-- `ramfs_init`, with a page from `kmalloc` for each of the two source files: without one `strcpy`
follows the `NULL` pointer and the kernel does not come up. -/
def ramfsInit (init : Option (List UInt8)) (initSize : ℕ) : Ramfs :=
  let page := fun text : List UInt8 => some (text ++ List.replicate (pageSize - text.length) 0)
  let shellCode := ascii "// This is SudoOS Shell Source Code...\n"
  let mainCode := ascii "// User Main Entry Point\n"
  { files := fun i =>
      match i with
      | 0 => ⟨[], none, 0, true, .dir, -1, 0⟩
      | 1 => ⟨ascii "init", init, initSize, true, .file, 0, 1⟩
      | 2 => ⟨ascii "usr", none, 0, true, .dir, 0, 2⟩
      | 3 => ⟨ascii "bin", none, 0, true, .dir, 2, 3⟩
      | 4 => ⟨ascii "lib", none, 0, true, .dir, 2, 4⟩
      | 5 => ⟨ascii "shell.c", page shellCode, shellCode.length, true, .file, 2, 5⟩
      | 6 => ⟨ascii "usrmain.c", page mainCode, mainCode.length, true, .file, 2, 6⟩
      | _ => RamfsNode.zero
    globalFileTable := fun _ => ⟨none, 0, 0⟩ }

/-- A new inode of the given type for the resolved name, which both `ramfs_open` and `ramfs_mkdir`
make; `none` where they return -1. -/
def createInode (fs : Ramfs) (r : Resolved) (type : RamfsType) (content : Option (List UInt8)) :
    Option (ℕ × Ramfs) :=
  let parent := r.parentOut.getD (-1)
  if parent = -1 then none
  else
    fs.allocInode.map fun (i, fs) =>
      (i, fs.setNode i
        { fs.files i with
          name := r.nameOut.getD []
          type := type
          parentIdx := parent
          size := 0
          content := content })

/-- The inode of `ramfs_open`: found, or created on request. -/
def openInode (fs : Ramfs) (r : Resolved) (flags : BitVec 32) : Option (ℕ × Ramfs) :=
  if r.inode ≠ -1 then some (r.inode.toNat, fs)
  else if flags &&& oCreat = 0 then none
  else fs.createInode r .file (some (List.replicate 4096 0))

/-- The lowest free descriptor from 3 on. -/
def freeFd (cur : Pcb) : Option ℕ :=
  ((List.range maxFd).drop 3).find? fun i => cur.fdTable.getD i none = none

/-- `ramfs_open` from the file handle on. -/
def openFile (fs : Ramfs) (cur : Pcb) (inode : ℕ) : ℤ × Ramfs × Pcb :=
  match fs.allocFileHandle with
  | none => (-1, fs, cur)
  | some (f, fs) =>
    let fs := fs.setFile f { fs.globalFileTable f with node := some inode, offset := 0 }
    match freeFd cur with
    | some i => (i, fs, { cur with fdTable := cur.fdTable.set i (some f) })
    | none => (-1, fs.freeFileHandle f, cur)

/-- `mem` tells whether `kmalloc` has a page for the content of a new file: without it `memset`
follows the `NULL` pointer. -/
def ramfsOpen (fs : Ramfs) (cur : Pcb) (path : Option (List UInt8)) (flags : BitVec 32)
    (mem : Bool) : Option (ℤ × Ramfs × Pcb) :=
  (fs.resolvePath cur.cwdInode true path).bind fun r =>
    match fs.openInode r flags with
    | none => some (-1, fs, cur)
    | some (inode, fs) => if r.inode = -1 ∧ mem = false then none else some (fs.openFile cur inode)

def ramfsMkdir (fs : Ramfs) (cur : Pcb) (path : Option (List UInt8)) : Option (ℤ × Ramfs) :=
  (fs.resolvePath cur.cwdInode true path).map fun r =>
    if r.inode ≠ -1 then (-1, fs)
    else
      match fs.createInode r .dir none with
      | none => (-1, fs)
      | some (_, fs) => (0, fs)

def ramfsChdir (fs : Ramfs) (cur : Pcb) (path : Option (List UInt8)) : Option (ℤ × Pcb) :=
  (fs.resolvePath cur.cwdInode false path).map fun r =>
    if r.inode = -1 then (-1, cur)
    else if (fs.node r.inode).type ≠ .dir then (-1, cur)
    else (0, { cur with cwdInode := r.inode })

/-- The open file of a descriptor, if there is one. -/
def fdFile (cur : Pcb) (fd : ℤ) : Option ℕ :=
  if fd < 0 ∨ fd ≥ maxFd then none else cur.fdTable.getD fd.toNat none

/-- How much `ramfs_read` reads of a file of `size` bytes. -/
def readLen (size offset : ℕ) (count : BitVec 32) : ℤ :=
  if u64 (offset + (count.signExtend 64).toNat) > size then toInt32 (size - offset)
  else count.toInt

/-- How much `ramfs_write` writes: a file ends at 4096 bytes. -/
def writeLen (offset : ℕ) (count : BitVec 32) : ℤ :=
  if u64 (offset + (count.signExtend 64).toNat) > 4096 then
    (BitVec.ofNat 32 4096 - BitVec.ofNat 32 offset).toInt
  else count.toInt

/-- The bytes read, with the result. -/
def ramfsRead (fs : Ramfs) (cur : Pcb) (fd : ℤ) (count : BitVec 32) :
    Option (ℤ × List UInt8 × Ramfs) :=
  match fdFile cur fd with
  | none => some (-1, [], fs)
  | some i =>
    let f := fs.globalFileTable i
    f.node.bind fun n =>
      let node := fs.files n
      if node.type = .dir then some (-1, [], fs)
      else if f.offset ≥ node.size then some (0, [], fs)
      else
        let len := readLen node.size f.offset count
        if len > 0 then
          node.content.map fun bytes =>
            (len, (bytes.drop f.offset).take len.toNat,
              fs.setFile i { f with offset := u64 (f.offset + len.toNat) })
        else some (len, [], fs)

/-- `ramfs_write` of what stands at `buf`. -/
def ramfsWrite (fs : Ramfs) (cur : Pcb) (fd : ℤ) (buf : ℕ → UInt8) (count : BitVec 32) :
    Option (ℤ × Ramfs) :=
  match fdFile cur fd with
  | none => some (-1, fs)
  | some i =>
    let f := fs.globalFileTable i
    f.node.map fun n =>
      let node := fs.files n
      if node.type = .dir then (-1, fs)
      else
        let len := writeLen f.offset count
        match node.content with
        | none => (len, fs)
        | some bytes =>
          if len > 0 then
            let offset := u64 (f.offset + len.toNat)
            let data := (List.range len.toNat).map buf
            let fs := fs.setFile i { f with offset := offset }
            let fs := fs.setNode n
              { node with
                content := some (bytes.take f.offset ++ data ++ bytes.drop (f.offset + len.toNat))
                size := if offset > node.size then offset else node.size }
            (len, fs)
          else (len, fs)

def ramfsClose (fs : Ramfs) (cur : Pcb) (fd : ℤ) : Ramfs × Pcb :=
  match fdFile cur fd with
  | none => (fs, cur)
  | some i => (fs.freeFileHandle i, { cur with fdTable := cur.fdTable.set fd.toNat none })

/-- What `ramfs_stat` stores at `buf`: number, size and mode, at their offsets in its structure. -/
def storeStat (fs : Ramfs) (inode : ℤ) (buf : ℕ → UInt8) : ℕ → UInt8 :=
  let buf := Wire.store buf 8 (Wire.leBytes 8 (inode + 1).toNat)
  let buf := Wire.store buf 48 (Wire.leBytes 8 (fs.node inode).size)
  Wire.store buf 24 (Wire.leBytes 4 (if (fs.node inode).type = .dir then 0x41FF else 0x81FF))

/-- The result, and the memory from `buf` on. -/
def ramfsStat (fs : Ramfs) (cur : Pcb) (path : Option (List UInt8)) (buf : ℕ → UInt8) :
    Option (ℤ × (ℕ → UInt8)) :=
  (fs.resolvePath cur.cwdInode false path).map fun r =>
    if r.inode = -1 then (-1, buf) else (0, fs.storeStat r.inode buf)

/-- Of whatever the open file's name leads to. -/
def ramfsFstat (fs : Ramfs) (cur : Pcb) (fd : ℤ) (buf : ℕ → UInt8) : Option (ℤ × (ℕ → UInt8)) :=
  match fdFile cur fd with
  | none => some (-1, buf)
  | some i =>
    (fs.globalFileTable i).node.bind fun n =>
      fs.ramfsStat cur (some (fs.files n).name) buf

end Ramfs

end SudoOS
