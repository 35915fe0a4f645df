import SudoOS.Execve
import SudoOS.Proofs.MapSuccess
import SudoOS.Proofs.Sys

/-!
# What `execve` loads

`do_execve` takes the size of the file from eight bytes of its stack that `ramfs_fstat` never fills:
either it finds no file of that name in the working directory and stores nothing, or it stores a
longer structure, which has the size at offset 48. So the buffer for `load_elf` has as many of the
file's bytes as these eight bytes say, and is the file exactly if they happen to be its size
(`execve_buffer`).
-/

namespace SudoOS

open Ramfs

namespace Ramfs

variable {fs : Ramfs} {cur : Pcb} {st st' : ℕ → UInt8}

/-- `ramfs_stat` finds nothing under the name of inode `n`. -/
def NameMissing (fs : Ramfs) (cur : Pcb) (n : ℕ) : Prop :=
  (fs.resolvePath cur.cwdInode false (some (fs.files n).name)).map Resolved.inode = some (-1)

instance (fs : Ramfs) (cur : Pcb) (n : ℕ) : Decidable (fs.NameMissing cur n) :=
  inferInstanceAs (Decidable (_ = _))

/-- `ramfs_fstat` fails and stores nothing, or returns 0. -/
theorem ramfsFstat_cases {fd : ℤ} {f n : ℕ} (hI : TreeInv fs) (hc : fs.DirIdx cur.cwdInode)
    (hf : fdFile cur fd = some f) (hnode : (fs.globalFileTable f).node = some n)
    (hok : NodeOk (fs.files n)) (st : ℕ → UInt8) :
    (fs.NameMissing cur n ∧ fs.ramfsFstat cur fd st = some (-1, st))
      ∨ (¬ fs.NameMissing cur n ∧ ∃ st', fs.ramfsFstat cur fd st = some (0, st')) := by
  have hname : PathOk (cstr (fs.files n).name 0) := by
    have hshort : (cstr (fs.files n).name 0).length ≤ 31 :=
      ((List.takeWhile_prefix _).length_le.trans (by simp)).trans hok.short
    exact ⟨by omega, fun run hrun _ => hrun.length_le.trans hshort⟩
  obtain ⟨res, hres⟩ := Option.isSome_iff_exists.mp (resolvePath_isSome hI hc false hname)
  unfold NameMissing ramfsFstat ramfsStat
  rw [hf]
  simp only [hnode, Option.bind_some, hres, Option.map_some, Option.some.injEq]
  split_ifs with hi
  · exact .inl ⟨hi, rfl⟩
  · exact .inr ⟨hi, _, rfl⟩

/-- What `ramfs_read` returns at the start of a file is the count if the file has as many bytes. -/
theorem readLen_zero {sz size : ℕ} (hsz : sz ≤ 4096) (hsize : size < 2 ^ 64) :
    0 ≤ readLen sz 0 (BitVec.ofNat 32 size) ∧ readLen sz 0 (BitVec.ofNat 32 size) ≤ sz
      ∧ (readLen sz 0 (BitVec.ofNat 32 size) = size ↔ size ≤ sz) := by
  by_cases hpos : 0 ≤ (BitVec.ofNat 32 size).toInt
  · have hlow : (BitVec.ofNat 32 size).toInt.toNat = size % 2 ^ 32 := by
      rw [BitVec.toInt_eq_toNat_cond] at hpos ⊢
      split_ifs at hpos ⊢
      · rw [Int.toNat_natCast, BitVec.toNat_ofNat]
      · have := (BitVec.ofNat 32 size).isLt
        omega
    rw [readLen_of_nonneg hsz (Nat.zero_le _) hpos, hlow]
    omega
  · -- A negative count is more than any file has.
    have hlarge : 2 ^ 31 ≤ size % 2 ^ 32 := by
      rw [BitVec.toInt_eq_toNat_cond, BitVec.toNat_ofNat] at hpos
      split_ifs at hpos <;> omega
    have hext : ((BitVec.ofNat 32 size).signExtend 64).toNat = 2 ^ 64 - 2 ^ 32 + size % 2 ^ 32 := by
      have hmsb : (BitVec.ofNat 32 size).msb = true := by
        rw [BitVec.msb_eq_decide, BitVec.toNat_ofNat]
        exact decide_eq_true hlarge
      rw [BitVec.toNat_signExtend, hmsb, BitVec.toNat_setWidth, BitVec.toNat_ofNat, if_pos rfl]
      omega
    have hall : readLen sz 0 (BitVec.ofNat 32 size) = sz := by
      unfold readLen
      rw [hext, Nat.zero_add, u64_of_lt (by omega), if_pos (by omega), Nat.sub_zero,
        toInt32_of_lt (by omega)]
    rw [hall]
    omega

end Ramfs

namespace ExecState

/-- The contents of inode `n`. -/
def fileBytes (fs : Ramfs) (n : ℕ) : List UInt8 :=
  ((fs.files n).content.getD []).take (fs.files n).size

section Buffer

variable {s : ExecState} {path : Option (List UInt8)} {r : Resolved} {n : ℕ}

/-- What `ramfs_open` does for a path that leads somewhere. -/
theorem ramfsOpen_found (hr : s.fs.resolvePath s.cur.cwdInode true path = some r)
    (hn : r.inode = n) :
    (∃ f i fs', s.fs.allocFileHandle = some (f, fs') ∧ freeFd s.cur = some i
        ∧ s.fs.ramfsOpen s.cur path 0 false = some ((i : ℤ), s.fs.setFile f ⟨some n, 0, 1⟩,
          { s.cur with fdTable := s.cur.fdTable.set i (some f) }))
      ∨ ((s.fs.allocFileHandle = none ∨ freeFd s.cur = none)
        ∧ ∃ fs', s.fs.ramfsOpen s.cur path 0 false = some (-1, fs', s.cur)) := by
  have hopen : s.fs.openInode r 0 = some (n, s.fs) := by
    unfold openInode
    rw [if_pos (by omega), hn, Int.toNat_natCast]
  obtain ⟨⟨ret, fs', cur'⟩, ho⟩ :=
    Option.isSome_iff_exists.mp (ramfsOpen_isSome 0 false hr (.inl (by omega)))
  obtain ⟨r', hr', hends⟩ := ramfsOpen_ends ho
  obtain rfl := Option.some.inj (hr.symm.trans hr')
  cases hends with
  | noInode hno =>
    rw [hopen] at hno
    cases hno
  | noFile m fs₁ hm ha =>
    obtain ⟨rfl, rfl⟩ := Prod.mk.inj (Option.some.inj (hopen.symm.trans hm))
    exact .inr ⟨.inl ha, _, ho⟩
  | noFd m f fs₁ fs₂ hm ha hi =>
    obtain ⟨rfl, rfl⟩ := Prod.mk.inj (Option.some.inj (hopen.symm.trans hm))
    exact .inr ⟨.inr hi, _, ho⟩
  | opened m f i fs₁ fs₂ hm ha hi =>
    obtain ⟨rfl, rfl⟩ := Prod.mk.inj (Option.some.inj (hopen.symm.trans hm))
    exact .inl ⟨f, i, fs₂, ha, hi, ho⟩

/-- The opened file, read from its start: `size` bytes are what is wanted if the file has them. The
error that a directory gives passes for its 64-bit value. -/
def ReadFits (fs : Ramfs) (n size : ℕ) : Prop :=
  if (fs.files n).type = .dir then size = 2 ^ 64 - 1
  else size ≤ (fs.files n).size ∧ (size = 0 ∨ (fs.files n).content ≠ none)

/-- The memory from the new block on, with what has been read. -/
def image (fs : Ramfs) (n size : ℕ) (heap : ℕ → UInt8) : ℕ → UInt8 :=
  if (fs.files n).type = .dir then heap else Wire.store heap 0 ((fileBytes fs n).take size)

theorem ramfsRead_start {fs : Ramfs} {cur : Pcb} {fd : ℤ} {f : ℕ} (hf : fdFile cur fd = some f)
    (hnode : fs.globalFileTable f = ⟨some n, 0, 1⟩) (hok : NodeOk (fs.files n)) {size : ℕ}
    (hsize : size < 2 ^ 64) (heap : ℕ → UInt8) :
    (fs.ramfsRead cur fd (BitVec.ofNat 32 size) = none ∧ ¬ ReadFits fs n size)
      ∨ ∃ readBytes bytes fs', fs.ramfsRead cur fd (BitVec.ofNat 32 size)
          = some (readBytes, bytes, fs')
        ∧ ((BitVec.ofInt 64 readBytes).toNat = size ↔ ReadFits fs n size)
        ∧ (ReadFits fs n size → Wire.store heap 0 bytes = image fs n size heap) := by
  unfold ReadFits image ramfsRead
  rw [hf]
  simp only [hnode, Option.bind_some]
  by_cases hdir : (fs.files n).type = .dir
  · simp only [if_pos hdir]
    refine .inr ⟨-1, [], fs, rfl, ?_, fun _ => funext fun i => Wire.store_outside (by simp)⟩
    rw [eq_comm, show (BitVec.ofInt 64 (-1)).toNat = 2 ^ 64 - 1 by decide]
  simp only [if_neg hdir]
  obtain ⟨hnonneg, hle, hiff⟩ := readLen_zero hok.size_le hsize
  have hword : ∀ x : ℤ, 0 ≤ x → x ≤ (fs.files n).size →
      ((BitVec.ofInt 64 x).toNat = size ↔ x = size) := by
    intro x h0 h1
    have := hok.size_le
    rw [BitVec.toNat_ofInt]
    omega
  split_ifs with hempty hpos
  · have hz : (fs.files n).size = 0 := Nat.le_zero.mp hempty
    refine .inr ⟨0, [], fs, rfl, ?_, fun _ => by simp [fileBytes, hz]⟩
    rw [hword 0 le_rfl (by omega)]
    omega
  · rcases hb : (fs.files n).content with _ | bytes
    · refine .inl ⟨rfl, fun ⟨h1, h2⟩ => ?_⟩
      have := hiff.mpr h1
      have := h2.resolve_right (fun hc => hc rfl)
      omega
    · refine .inr ⟨_, _, _, rfl, ?_, fun hs => ?_⟩
      · rw [hword _ hnonneg hle, hiff]
        simp
      · rw [hiff.mpr hs.1, Int.toNat_natCast, List.drop_zero, fileBytes, hb, Option.getD_some,
          List.take_take, Nat.min_eq_left hs.1]
  · refine .inr ⟨_, _, _, rfl, ?_, fun hs => ?_⟩
    · rw [hword _ hnonneg hle, hiff]
      refine ⟨fun h => ⟨h, .inl ?_⟩, And.left⟩
      have := hiff.mpr h
      omega
    · have hlen := hiff.mpr hs.1
      have hz : size = 0 := by omega
      rw [hz, List.take_zero]

/-- From `kmalloc` on, for a file just opened. -/
theorem readElf_iff {fd : ℤ} {f size : ℕ} (hf : fdFile s.cur fd = some f)
    (hnode : s.fs.globalFileTable f = ⟨some n, 0, 1⟩) (hok : NodeOk (s.fs.files n))
    (hsize : size < 2 ^ 64) (heap : ℕ → UInt8) (b : ElfBuf) (k : Kernel) :
    (∃ s', s.readElf fd size heap = some (some b, s') ∧ s'.mem = k)
      ↔ ∃ elfBuf km, (elfBuf ≠ 0 ∧ s.mem.kmalloc size = some (elfBuf, km))
        ∧ ReadFits s.fs n size ∧ b = ⟨elfBuf, size, image s.fs n size heap⟩
        ∧ k = { s.mem with toKMem := km } := by
  unfold readElf
  rcases hkm : s.mem.kmalloc size with _ | ⟨a, km⟩
  · simp
  dsimp only
  split_ifs with h0
  · simp [h0]
  rcases ramfsRead_start hf hnode hok hsize heap with
    ⟨hnone, hs⟩ | ⟨readBytes, bytes, fs', hread, hiff, hdata⟩
  · rw [hnone]
    simp [hs]
  rw [hread]
  dsimp only
  rw [ite_not]
  by_cases hfits : ReadFits s.fs n size
  · rw [if_pos (hiff.mpr hfits), hdata hfits]
    constructor
    · rintro ⟨s', h, rfl⟩
      obtain ⟨hb, rfl⟩ := Prod.mk.inj (Option.some.inj h)
      exact ⟨a, km, ⟨h0, rfl⟩, hfits, (Option.some.inj hb).symm, rfl⟩
    · rintro ⟨a', km', ⟨-, heq⟩, -, rfl, rfl⟩
      obtain ⟨rfl, rfl⟩ := Prod.mk.inj (Option.some.inj heq)
      exact ⟨_, rfl, rfl⟩
  · rw [if_neg (hiff.not.mpr hfits)]
    simp [hfits]

/-- What `do_execve` needs before it comes to the file: a free descriptor, an open file for it and a
block of the size that the stack holds. -/
def Granted (s : ExecState) (size elfBuf : ℕ) : Prop :=
  (freeFd s.cur ≠ none ∧ s.fs.allocFileHandle ≠ none)
    ∧ elfBuf ≠ 0 ∧ ∃ km, s.mem.kmalloc size = some (elfBuf, km)

/-- `do_execve` comes to `load_elf` with what it has read of inode `n` in a block at `elfBuf`: the
path leads there, descriptor, open file and block are granted, `ramfs_fstat` stores nothing, and the
number on the stack is what `ramfs_read` returns. -/
structure Comes (s : ExecState) (path : Option (List UInt8)) (size n elfBuf : ℕ) (km : KMem) :
    Prop where
  leads : ∃ r, s.fs.resolvePath s.cur.cwdInode true path = some r ∧ r.inode = n
  free : freeFd s.cur ≠ none ∧ s.fs.allocFileHandle ≠ none
  block : elfBuf ≠ 0 ∧ s.mem.kmalloc size = some (elfBuf, km)
  missing : s.fs.NameMissing s.cur n
  fits : ReadFits s.fs n size

/-- The buffer that is handed over, if one is, and the memory by then. -/
theorem openElf_iff (hI : FsOk s.fs) (hc : s.fs.DirIdx s.cur.cwdInode)
    (hlen : s.cur.fdTable.length = maxFd) (st heap : ℕ → UInt8) (b : ElfBuf) (k : Kernel) :
    (∃ s', s.openElf path st heap = some (some b, s') ∧ s'.mem = k)
      ↔ ∃ n elfBuf km, s.Comes path (Wire.readLe st 0 8) n elfBuf km
        ∧ b = ⟨elfBuf, Wire.readLe st 0 8, image s.fs n (Wire.readLe st 0 8) heap⟩
        ∧ k = { s.mem with toKMem := km } := by
  rcases hr : s.fs.resolvePath s.cur.cwdInode true path with _ | r
  · have hnone : s.fs.ramfsOpen s.cur path 0 false = none := by
      rw [ramfsOpen, hr]
      rfl
    unfold openElf
    rw [hnone]
    refine ⟨fun ⟨_, h, _⟩ => (by cases h), fun ⟨n, a, km, h, _⟩ => ?_⟩
    obtain ⟨r, hr', -⟩ := h.leads
    rw [hr] at hr'
    cases hr'
  rcases eq_or_ne r.inode (-1) with hmiss | hfound
  · have hopen : s.fs.ramfsOpen s.cur path 0 false = some (-1, s.fs, s.cur) := by
      rw [ramfsOpen, hr, Option.bind_some, show s.fs.openInode r 0 = none by
        rw [openInode, if_neg (not_not.mpr hmiss), if_pos (by decide)]]
    unfold openElf
    rw [hopen]
    refine ⟨fun ⟨_, h, _⟩ => (by simp at h), fun ⟨n, a, km, h, _⟩ => ?_⟩
    obtain ⟨r', hr', hn⟩ := h.leads
    obtain rfl := Option.some.inj (hr.symm.trans hr')
    omega
  obtain ⟨n, hn, hused⟩ := (resolvePath_ok hI.toTreeInv hc true hr).found hfound
  have hinode : ∀ {n' a km}, s.Comes path (Wire.readLe st 0 8) n' a km → n' = n := fun h => by
    obtain ⟨r', hr', hn'⟩ := h.leads
    obtain rfl := Option.some.inj (hr.symm.trans hr')
    omega
  unfold openElf
  rcases ramfsOpen_found hr hn with ⟨f, i, fs', ha, hi, hopen⟩ | ⟨hnone, fs', hopen⟩
  swap
  · rw [hopen]
    refine ⟨fun ⟨_, h, _⟩ => (by simp at h), fun ⟨n, a, km, h, _⟩ => ?_⟩
    exact absurd hnone (not_or.mpr ⟨h.free.2, h.free.1⟩)
  obtain ⟨-, hlt, -⟩ := freeFd_cases hi
  obtain ⟨e, he⟩ : ∃ e : ExecState, e = ⟨s.fs.setFile f ⟨some n, 0, 1⟩,
    { s.cur with fdTable := s.cur.fdTable.set i (some f) }, s.mem, s.trapFrame⟩ := ⟨_, rfl⟩
  have hf : fdFile e.cur (i : ℤ) = some f := by
    rw [he]
    unfold fdFile
    rw [if_neg (by omega), Int.toNat_natCast, Sys.getD_set (by omega), if_pos rfl]
  have hnode : e.fs.globalFileTable f = ⟨some n, 0, 1⟩ := by
    rw [he]
    exact Function.update_self _ _ _
  have hfiles : e.fs.files = s.fs.files := by
    rw [he]
    rfl
  have hsame : SameTree s.fs e.fs := .rfl_of_files hfiles
  have hcwd : e.fs.DirIdx e.cur.cwdInode := by
    rw [he]
    exact hc
  have hok : NodeOk (e.fs.files n) := hfiles ▸ hI.nodes n hused
  have hstat := ramfsFstat_cases (hsame.treeInv hI.toTreeInv) hcwd hf
    (congrArg File.node hnode) hok st
  have hread := readElf_iff hf hnode hok (Wire.readLe_lt st 8 0) heap b k
  have hname : e.fs.NameMissing e.cur n ↔ s.fs.NameMissing s.cur n := by
    unfold NameMissing
    rw [hsame.resolvePath, hfiles, he]
  have hfits : ReadFits e.fs n = ReadFits s.fs n := by
    unfold ReadFits
    rw [hfiles]
  have himage : image e.fs n = image s.fs n := by
    unfold image fileBytes
    rw [hfiles]
  have hmem : e.mem = s.mem := by rw [he]
  rw [hname] at hstat
  rw [hfits, himage, hmem] at hread
  rw [he] at hstat hread
  rw [hopen]
  dsimp only at hstat ⊢
  rw [if_neg (by omega)]
  rcases hstat with ⟨hmissing, hstat⟩ | ⟨hno, st', hstat⟩ <;> rw [hstat] <;> dsimp only
  · rw [if_neg (by decide), hread]
    constructor
    · rintro ⟨a, km, hblock, hfit, rfl, rfl⟩
      exact ⟨n, a, km, ⟨⟨r, hr, hn⟩, ⟨by simp [hi], by simp [ha]⟩, hblock, hmissing, hfit⟩, rfl,
        rfl⟩
    · rintro ⟨n', a, km, h, rfl, rfl⟩
      obtain rfl := hinode h
      exact ⟨a, km, h.block, h.fits, rfl, rfl⟩
  · rw [if_pos rfl]
    refine ⟨fun ⟨_, h, _⟩ => (by cases h), fun ⟨n', a, km, h, _⟩ => ?_⟩
    obtain rfl := hinode h
    exact absurd h.missing hno

/-- A buffer that a file of its size has been read into. -/
theorem bytes_store {fs : Ramfs} (hok : NodeOk (fs.files n)) {size : ℕ}
    (hsize : size = (fs.files n).size) (hcontent : size = 0 ∨ (fs.files n).content ≠ none) (a : ℕ)
    (heap : ℕ → UInt8) :
    ElfBuf.bytes ⟨a, size, Wire.store heap 0 ((fileBytes fs n).take size)⟩ = fileBytes fs n := by
  have hlen : (fileBytes fs n).length = size := by
    unfold fileBytes
    rcases hcontent with h0 | hc
    · rw [← hsize, h0, List.take_zero, List.length_nil]
    · obtain ⟨bytes, hb⟩ := Option.ne_none_iff_exists'.mp hc
      rw [hb, Option.getD_some, List.length_take, hok.page bytes hb, ← hsize]
      have := hok.size_le
      omega
  have hall : (fileBytes fs n).take size = fileBytes fs n := List.take_of_length_le hlen.le
  have hat := Wire.at_store heap 0 (fileBytes fs n)
  obtain ⟨rest, hrest⟩ := Wire.range_map_of_at hat hlen.le
  have hnil : rest = [] := by
    have := congrArg List.length hrest
    rw [List.length_map, List.length_range, List.length_append] at this
    exact List.eq_nil_of_length_eq_zero (by omega)
  rw [ElfBuf.bytes, hall]
  rw [hnil, List.append_nil] at hrest
  exact hrest

end Buffer

open Sys in
/-- For a path that leads to a regular file, the buffer that `load_elf` is handed is that file
exactly if the eight bytes on the stack are its size and `ramfs_fstat` stores nothing; any smaller
number passes for it, too. -/
theorem execve_buffer (s₀ : Sched) (idle : ℕ) (ops : List (ℕ × SysOp)) {s₁ : Sched}
    {s : Sys} (hinit : s₀.procInit idle = some s₁) (h : Run.run step (start s₁) ops = some s)
    {p : ℕ} (hp : s.Runs p) {path : Option (List UInt8)} {r : Resolved} {n : ℕ}
    (hr : s.fs.resolvePath (s.pcb p).cwdInode true path = some r) (hn : r.inode = n)
    (hfile : (s.fs.files n).type = .file) (k : Kernel) (tf : Option TrapFrame)
    (st heap : ℕ → UInt8) :
    ((∃ b s', openElf ⟨s.fs, s.pcb p, k, tf⟩ path st heap = some (some b, s')
        ∧ b.size = (s.fs.files n).size ∧ b.bytes = fileBytes s.fs n)
      ↔ (∃ a, Granted ⟨s.fs, s.pcb p, k, tf⟩ (Wire.readLe st 0 8) a)
        ∧ s.fs.NameMissing (s.pcb p) n
        ∧ (Wire.readLe st 0 8 = 0 ∨ (s.fs.files n).content ≠ none)
        ∧ Wire.readLe st 0 8 = (s.fs.files n).size)
    ∧ ((∀ b s', openElf ⟨s.fs, s.pcb p, k, tf⟩ path st heap = some (some b, s') →
        b.size = (s.fs.files n).size ∧ b.bytes = fileBytes s.fs n)
      ↔ ¬ ((∃ a, Granted ⟨s.fs, s.pcb p, k, tf⟩ (Wire.readLe st 0 8) a)
        ∧ s.fs.NameMissing (s.pcb p) n
        ∧ (Wire.readLe st 0 8 = 0 ∨ (s.fs.files n).content ≠ none)
        ∧ Wire.readLe st 0 8 < (s.fs.files n).size)) := by
  have hI : SysInv s := Run.run_invariant step_inv (start_inv hinit) h
  have hused : s.fs.Used n := by
    obtain ⟨i, hi, hu⟩ :=
      (resolvePath_ok hI.fsOk.toTreeInv (hI.cwds p hp.1) true hr).found (by omega)
    obtain rfl : n = i := by omega
    exact hu
  have hok := hI.fsOk.nodes n hused
  have hiff : ∀ b, (∃ s', openElf ⟨s.fs, s.pcb p, k, tf⟩ path st heap = some (some b, s'))
      ↔ ∃ a, Granted ⟨s.fs, s.pcb p, k, tf⟩ (Wire.readLe st 0 8) a
        ∧ s.fs.NameMissing (s.pcb p) n ∧ Wire.readLe st 0 8 ≤ (s.fs.files n).size
        ∧ (Wire.readLe st 0 8 = 0 ∨ (s.fs.files n).content ≠ none)
        ∧ b = ⟨a, Wire.readLe st 0 8,
          Wire.store heap 0 ((fileBytes s.fs n).take (Wire.readLe st 0 8))⟩ := by
    have hopen : ∀ b k', (∃ s', openElf ⟨s.fs, s.pcb p, k, tf⟩ path st heap = some (some b, s')
        ∧ s'.mem = k') ↔ _ :=
      openElf_iff hI.fsOk (hI.cwds p hp.1) (hI.fdLen p hp.1) st heap
    have hdir : ¬ (s.fs.files n).type = .dir := by simp [hfile]
    intro b
    constructor
    · rintro ⟨s', hb⟩
      obtain ⟨n', a, km, h, rfl, -⟩ := (hopen b _).mp ⟨s', hb, rfl⟩
      obtain ⟨r', hr', hn'⟩ := h.leads
      obtain rfl := Option.some.inj (hr.symm.trans hr')
      obtain rfl : n = n' := by omega
      have hfits := h.fits
      rw [ReadFits, if_neg hdir] at hfits
      exact ⟨a, ⟨h.free, h.block.1, km, h.block.2⟩, h.missing, hfits.1, hfits.2, by
        rw [image, if_neg hdir]⟩
    · rintro ⟨a, ⟨hfree, ha, km, hkm⟩, hmissing, hle, hcontent, rfl⟩
      obtain ⟨s', hb, -⟩ := (hopen _ _).mpr ⟨n, a, km, ⟨⟨r, hr, hn⟩, hfree, ⟨ha, hkm⟩, hmissing, by
        rw [ReadFits, if_neg hdir]
        exact ⟨hle, hcontent⟩⟩, rfl, rfl⟩
      rw [image, if_neg hdir] at hb
      exact ⟨s', hb⟩
  constructor <;> constructor
  · rintro ⟨b, s', hb, hsize, -⟩
    obtain ⟨a, hg, hmissing, -, hcontent, rfl⟩ := (hiff b).mp ⟨s', hb⟩
    exact ⟨⟨a, hg⟩, hmissing, hcontent, hsize⟩
  · rintro ⟨⟨a, hg⟩, hmissing, hcontent, hsize⟩
    obtain ⟨s', hb⟩ := (hiff _).mpr ⟨a, hg, hmissing, hsize.le, hcontent, rfl⟩
    exact ⟨_, s', hb, hsize, bytes_store hok hsize hcontent a heap⟩
  · rintro hall ⟨⟨a, hg⟩, hmissing, hcontent, hlt⟩
    obtain ⟨s', hb⟩ := (hiff _).mpr ⟨a, hg, hmissing, hlt.le, hcontent, rfl⟩
    exact hlt.ne (hall _ s' hb).1
  · intro hno b s' hb
    obtain ⟨a, hg, hmissing, hle, hcontent, rfl⟩ := (hiff b).mp ⟨s', hb⟩
    have hsize : Wire.readLe st 0 8 = (s.fs.files n).size :=
      le_antisymm hle (not_lt.mp fun hlt => hno ⟨⟨a, hg⟩, hmissing, hcontent, hlt⟩)
    exact ⟨hsize, bytes_store hok hsize hcontent a heap⟩

/-- A user process. -/
def userProcess : List (ℕ × SysOp) := [(1, .createUserProcess [] (ProcSys.attemptAt 2))]

def shellPath : Option (List UInt8) := some (ascii "/usr/shell.c")

/-- A stack that begins with the given number. -/
def stackOf (size : ℕ) : ℕ → UInt8 := Wire.store (fun _ => 0) 0 (Wire.leBytes 8 size)

/-- The process, about to call `execve`. -/
def caller (s : Sys) : ExecState := ⟨s.fs, s.pcb 2, oneMmKernel (framesLeft 3), none⟩

/-- In a state that `userProcess` reaches, the path of the shell's source names a file of 39 bytes
that is not in the working directory, and with 16 on the stack the buffer for it has 16. -/
theorem shell_process :
    ∃ s₁ s r, Sched.boot.procInit 1 = some s₁
      ∧ Run.run Sys.step (Sys.start s₁) userProcess = some s ∧ s.Runs 2
      ∧ s.fs.resolvePath (s.pcb 2).cwdInode true shellPath = some r ∧ r.inode = (5 : ℕ)
      ∧ (s.fs.files 5).type = .file ∧ (s.fs.files 5).size = 39 ∧ s.fs.NameMissing (s.pcb 2) 5
      ∧ (s.fs.files 5).content ≠ none ∧ (freeFd (s.pcb 2) ≠ none ∧ s.fs.allocFileHandle ≠ none)
      ∧ ∃ b s', (caller s).openElf shellPath (stackOf 16) (fun _ => 0) = some (some b, s')
        ∧ b.size = 16 := by
  have h : ((Sched.boot.procInit 1).bind fun s =>
      Run.run Sys.step (Sys.start s) userProcess).map (fun s =>
        (decide (s.Runs 2 ∧ (s.fs.files 5).type = .file ∧ (s.fs.files 5).size = 39
          ∧ s.fs.NameMissing (s.pcb 2) 5 ∧ (s.fs.files 5).content ≠ none
          ∧ (freeFd (s.pcb 2) ≠ none ∧ s.fs.allocFileHandle.isSome)),
          (s.fs.resolvePath (s.pcb 2).cwdInode true shellPath).map Resolved.inode,
          ((caller s).openElf shellPath (stackOf 16) fun _ => 0).bind fun r => r.1.map ElfBuf.size))
        = some (true, some 5, some 16) := by
    decide +kernel
  obtain ⟨s₁, s, hinit, hrun, hfacts⟩ := Run.exists_of_eval h
  simp only [Prod.mk.injEq, decide_eq_true_eq] at hfacts
  obtain ⟨⟨hp, htype, hsize, hmissing, hcontent, hfd, hfile⟩, hpath, hbuf⟩ := hfacts
  obtain ⟨r, hr, hn⟩ := Option.map_eq_some_iff.mp hpath
  obtain ⟨⟨buf, s'⟩, hopen, hbuf⟩ := Option.bind_eq_some_iff.mp hbuf
  obtain ⟨b, rfl, hb⟩ : ∃ b, buf = some b ∧ b.size = 16 := Option.map_eq_some_iff.mp hbuf
  exact ⟨s₁, s, r, hinit, hrun, hp, hr, hn, htype, hsize, hmissing, hcontent,
    ⟨hfd, Option.isSome_iff_ne_none.mp hfile⟩, b, s', hopen, hb⟩

/-- With the file's size on the stack the buffer is the file. -/
theorem execve_buffer_userProcess :
    ∃ s b s', (caller s).openElf shellPath (stackOf 39) (fun _ => 0) = some (some b, s')
      ∧ b.size = 39 ∧ b.bytes = fileBytes s.fs 5 := by
  obtain ⟨s₁, s, r, hinit, hrun, hp, hr, hn, htype, hsize, hmissing, hcontent, hfree, -⟩ :=
    shell_process
  obtain ⟨b, s', hopen, hb, hbytes⟩ := (execve_buffer Sched.boot 1 userProcess hinit hrun hp hr hn
    htype (oneMmKernel (framesLeft 3)) none (stackOf 39) fun _ => 0).1.mpr
      ⟨⟨kernelHeapBase + 168, hfree, by decide, _, rfl⟩, hmissing, .inr hcontent, by
        rw [hsize]
        decide +kernel⟩
  exact ⟨s, b, s', hopen, hb.trans hsize, hbytes⟩

/-- A buffer of 16 bytes for a file of 39. -/
theorem execve_truncates :
    ¬ ∀ (s₀ : Sched) (idle : ℕ) (ops : List (ℕ × SysOp)) (s₁ : Sched) (s : Sys),
      s₀.procInit idle = some s₁ → Run.run Sys.step (Sys.start s₁) ops = some s →
      ∀ (p : ℕ), s.Runs p → ∀ (path : Option (List UInt8)) (r : Resolved) (n : ℕ),
      s.fs.resolvePath (s.pcb p).cwdInode true path = some r → r.inode = n →
      (s.fs.files n).type = .file →
      ∀ (k : Kernel) (tf : Option TrapFrame) (st heap : ℕ → UInt8) (b : ElfBuf) (s' : ExecState),
      openElf ⟨s.fs, s.pcb p, k, tf⟩ path st heap = some (some b, s') →
        b.size = (s.fs.files n).size ∧ b.bytes = fileBytes s.fs n := by
  intro h
  obtain ⟨s₁, s, r, hinit, hrun, hp, hr, hn, htype, hsize, -, -, -, b, s', hopen, hb⟩ :=
    shell_process
  have := (h _ _ _ s₁ s hinit hrun 2 hp _ r 5 hr hn htype _ _ _ _ b s' hopen).1
  omega

end ExecState

end SudoOS
