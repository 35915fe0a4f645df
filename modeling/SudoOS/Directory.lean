import SudoOS.Ramfs
import SudoOS.Lib.Wire

/-!
# Directories as user programs see them

`ramfs_getdents64` packs the children of a directory into records of the caller's buffer, and
`cmd_ls` of `usr/shell.c` walks the records by their lengths. `ramfs_getcwd` climbs to the root
twice, first for the length and then to write the path from its end. A buffer is the memory from the
pointer on.
-/

namespace SudoOS

open Wire

/-- `sizeof(struct linux_dirent64)`, with the padding behind `d_type`. -/
def direntSize : ℕ := 24

/-- The offset of `d_name`, which the compiler places in that padding. -/
def direntName : ℕ := 19

/-- `DT_DIR`. -/
def dtDir : UInt8 := 4

/-- `DT_REG`. -/
def dtReg : UInt8 := 8

namespace Ramfs

def reclen (name : List UInt8) : ℕ := alignUp (direntSize + name.length + 1) 8

/-- The record of inode `idx`, written field by field at `bpos`. -/
def writeDirent (buf : ℕ → UInt8) (bpos idx : ℕ) (node : RamfsNode) : ℕ → UInt8 :=
  let buf := store buf bpos (leBytes 8 (idx + 1))
  let buf := store buf (bpos + 8) (leBytes 8 (bpos + reclen node.name))
  let buf := store buf (bpos + 16) (leBytes 2 (reclen node.name))
  let buf := store buf (bpos + 18) [if node.type = .dir then dtDir else dtReg]
  store buf (bpos + direntName) (node.name ++ [0])

/-- The loop of `ramfs_getdents64`: the index it stops at, the bytes used, and the buffer. -/
def getdentsLoop (fs : Ramfs) (target count : ℤ) :
    ℕ → ℕ → ℕ → (ℕ → UInt8) → ℕ × ℕ × (ℕ → UInt8)
  | 0, idx, bpos, buf => (idx, bpos, buf)
  | fuel + 1, idx, bpos, buf =>
    if idx ≥ maxFiles then (idx, bpos, buf)
    else if (fs.files idx).isUsed ∧ (fs.files idx).parentIdx = target then
      let reclen := reclen (fs.files idx).name
      if (bpos + reclen : ℤ) > count then (idx, bpos, buf)
      else getdentsLoop fs target count fuel (idx + 1) (bpos + reclen)
        (writeDirent buf bpos idx (fs.files idx))
    else getdentsLoop fs target count fuel (idx + 1) bpos buf

def ramfsGetdents64 (fs : Ramfs) (cur : Pcb) (fd : ℤ) (dirp : ℕ → UInt8) (count : BitVec 32) :
    Option (ℤ × (ℕ → UInt8) × Ramfs) :=
  match fdFile cur fd with
  | none => some (-1, dirp, fs)
  | some i =>
    let dirFile := fs.globalFileTable i
    dirFile.node.bind fun n =>
      if (fs.files n).type ≠ .dir then some (-1, dirp, fs)
      else
        let searchIdx := toInt32 dirFile.offset
        if searchIdx < 0 then none
        else
          let (idx, bpos, buf) :=
            fs.getdentsLoop (fs.files n).inodeIdx count.toInt maxFiles searchIdx.toNat 0 dirp
          some (bpos, buf, fs.setFile i { dirFile with offset := idx })

/-! ## The shell's listing -/

/-- What `cmd_ls` reads of a record. -/
structure Dirent where
  dIno : ℕ
  dReclen : ℕ
  dType : ℕ
  dName : List UInt8
  deriving Repr, DecidableEq

def readDirent (buf : ℕ → UInt8) (nread bpos : ℕ) : Dirent where
  dIno := readLe buf bpos 8
  dReclen := readLe buf (bpos + 16) 2
  dType := (buf (bpos + 18)).toNat
  dName := readStr buf nread (bpos + direntName)

/-- The walk of `cmd_ls` over the bytes one call returned, each record with its place; `none` if it
does not end. -/
def cmdLs (buf : ℕ → UInt8) (nread : ℕ) : ℕ → ℕ → Option (List (ℕ × Dirent))
  | 0, bpos => if bpos < nread then none else some []
  | fuel + 1, bpos =>
    if bpos < nread then
      let d := readDirent buf nread bpos
      (cmdLs buf nread fuel (bpos + d.dReclen)).map fun ds => (bpos, d) :: ds
    else some []

/-! ## The working directory -/

def validIdx (i : ℤ) : Bool := 0 ≤ i && i < maxFiles

/-- The first loop of `ramfs_getcwd`: the length of the path, or `NULL` when it does not fit. -/
def cwdLen (fs : Ramfs) (size : ℕ) : ℕ → ℤ → ℕ → Option (Option ℕ)
  | 0, _, _ => none
  | fuel + 1, temp, len =>
    if temp = 0 then some (some len)
    else if !validIdx temp then none
    else
      let len := len + (1 + (fs.node temp).name.length)
      let temp := (fs.node temp).parentIdx
      if temp = -1 then some (some len)
      else if len ≥ size then some none
      else cwdLen fs size fuel temp len

/-- The second loop, which writes the names in front of one another. -/
def cwdWrite (fs : Ramfs) : ℕ → ℤ → ℕ → (ℕ → UInt8) → Option (ℕ → UInt8)
  | 0, _, _, _ => none
  | fuel + 1, temp, writePos, buf =>
    if temp = 0 then some buf
    else if !validIdx temp then none
    else
      let name := (fs.node temp).name
      if writePos < name.length + 1 then none
      else
        let writePos := writePos - name.length
        let buf := store buf writePos name
        let writePos := writePos - 1
        let buf := store buf writePos [slash]
        cwdWrite fs fuel (fs.node temp).parentIdx writePos buf

/-- `ramfs_getcwd`: the buffer as it returns it, or `none` for `NULL`. A climb through the inodes
that does not end at the root in as many steps never does. -/
def ramfsGetcwd (fs : Ramfs) (cur : Pcb) (buf : Option (ℕ → UInt8)) (size : ℕ) :
    Option (Option (ℕ → UInt8)) :=
  match buf with
  | none => some none
  | some buf =>
    if size = 0 then some none
    else if cur.cwdInode = 0 then
      if size < 2 then some none else some (some (store buf 0 [slash, 0]))
    else
      (fs.cwdLen size (maxFiles + 1) cur.cwdInode 0).bind fun len =>
        match len with
        | none => some none
        | some len => (fs.cwdWrite (maxFiles + 1) cur.cwdInode len (store buf len [0])).map some

end Ramfs

end SudoOS
