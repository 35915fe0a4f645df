import SudoOS.Directory
import SudoOS.Lib.ByteFile
import SudoOS.Proofs.Ramfs

/-!
# What a call on the file system does

What a call can do to the inodes (`NodesStep`) and to the open files (`HandlesStep`) is said once,
for each call, and the invariants of the two tables follow from it (`CallStep.fsOk`): a used inode
keeps its name, type and place, a file is at most a page, and no offset is behind the end of its
file.
-/

namespace SudoOS

namespace Ramfs

/-! ## What a call does -/

/-- The data of an inode: a name that fits, and a page of content at most. -/
structure NodeOk (node : RamfsNode) : Prop where
  noNul : (0 : UInt8) ∉ node.name
  short : node.name.length ≤ 31
  size_le : node.size ≤ 4096
  page : ∀ bytes ∈ node.content, bytes.length = 4096

/-- What a call can do to the inodes: nothing, new data in a file, or a new inode. -/
inductive NodesStep (fs fs' : Ramfs) : Prop
  | same (files : fs'.files = fs.files)
  | written (n : ℕ) (node : RamfsNode) (files : fs'.files = Function.update fs.files n node)
      (tree : SameTree fs fs') (file : (fs.files n).type ≠ .dir)
      (grows : (fs.files n).size ≤ node.size) (ok : NodeOk node)
  | made (k : ℕ) (node : RamfsNode) (files : fs'.files = Function.update fs.files k node)
      (lt : k < maxFiles) (free : (fs.files k).isUsed = false) (used : node.isUsed = true)
      (ok : NodeOk node)

/-- How far the offset of an open file on inode `n` can be. -/
def offsetBound (fs : Ramfs) (n : ℕ) : ℕ :=
  if (fs.files n).type = .dir then maxFiles else (fs.files n).size

/-- What `ramfs_open` can do to the open files and the caller's descriptors: nothing, take an entry
for a descriptor, or take one and give it back. -/
inductive OpenStep (fs fs' : Ramfs) (cur cur' : Pcb) : Prop
  | same (table : fs'.globalFileTable = fs.globalFileTable) (fds : cur'.fdTable = cur.fdTable)
  | opened (k f n : ℕ) (fd : freeFd cur = some k) (lt : f < maxSystemOpenFiles)
      (free : (fs.globalFileTable f).refCount = 0) (used : fs'.Used n)
      (table : fs'.globalFileTable = Function.update fs.globalFileTable f ⟨some n, 0, 1⟩)
      (fds : cur'.fdTable = cur.fdTable.set k (some f))
  | spoiled (f : ℕ) (free : (fs.globalFileTable f).refCount = 0)
      (table : fs'.globalFileTable = Function.update fs.globalFileTable f ⟨none, 0, 0⟩)
      (fds : cur'.fdTable = cur.fdTable)

/-- What a call can do to the open files and the caller's descriptors. -/
inductive HandlesStep (fs fs' : Ramfs) (cur cur' : Pcb) : Prop
  | opens (step : OpenStep fs fs' cur cur')
  | closed (fd : ℤ) (f : ℕ) (file : fdFile cur fd = some f)
      (table : fs'.globalFileTable = Function.update fs.globalFileTable f
        { fs.globalFileTable f with refCount := 0, node := none })
      (fds : cur'.fdTable = cur.fdTable.set fd.toNat none)
  | moved (fd : ℤ) (f n offset : ℕ) (file : fdFile cur fd = some f)
      (node : (fs.globalFileTable f).node = some n)
      (bound : offset ≤ fs'.offsetBound n)
      (table : fs'.globalFileTable = Function.update fs.globalFileTable f
        { fs.globalFileTable f with offset := offset })
      (fds : cur'.fdTable = cur.fdTable)

/-- What holds of the inodes and the open files in every reachable state. -/
structure FsOk (fs : Ramfs) : Prop extends TreeInv fs where
  rootIdx : (fs.files 0).inodeIdx = 0
  nodes : ∀ i, fs.Used i → NodeOk (fs.files i)
  handles : ∀ f n, (fs.globalFileTable f).node = some n →
    fs.Used n ∧ (fs.globalFileTable f).offset ≤ fs.offsetBound n

/-- The name `resolve_path` copies out fits its buffer. -/
theorem resolveLoop_name {fs : Ramfs} : ∀ (fuel : ℕ) {buf : List UInt8} {p : ℕ} {curr : ℤ}
    {r : Resolved}, resolveLoop fs true fuel buf p curr = some r →
      ∀ name ∈ r.nameOut, (0 : UInt8) ∉ name ∧ name.length ≤ 31
  | 0, buf, p, curr, r, h => by
    simp only [resolveLoop, Option.some.injEq] at h
    simp [← h]
  | fuel + 1, buf, p, curr, r, h => by
    unfold resolveLoop at h
    rcases hs : strtokR buf [slash] (some p) p with ⟨_ | pos, buf', p'⟩ <;> rw [hs] at h
    · simp only [Option.some.injEq] at h
      simp [← h]
    · dsimp only at h
      split_ifs at h with _ _ _ _ _ _ hlen
      · exact resolveLoop_name fuel h
      · exact resolveLoop_name fuel h
      · exact resolveLoop_name fuel h
      · exact resolveLoop_name fuel h
      · simp only [Option.some.injEq] at h
        simp [← h]
      · exact resolveLoop_name fuel h
      · simp only [Option.some.injEq] at h
        rw [← h]
        intro name hname
        obtain rfl := Option.some.inj hname
        refine ⟨zero_notMem_cstr buf' pos, ?_⟩
        simp only [true_and, not_le] at hlen
        omega

theorem resolvePath_name {fs : Ramfs} {cwd : ℤ} {path : Option (List UInt8)} {r : Resolved}
    (h : fs.resolvePath cwd true path = some r) :
    ∀ name ∈ r.nameOut, (0 : UInt8) ∉ name ∧ name.length ≤ 31 := by
  rcases path with _ | path
  · simp only [resolvePath, Option.some.injEq] at h
    simp [← h]
  · unfold resolvePath at h
    dsimp only at h
    split_ifs at h
    exact resolveLoop_name _ h

theorem createInode_step {fs fs' : Ramfs} {r : Resolved} {type : RamfsType}
    {content : Option (List UInt8)} {i : ℕ}
    (hname : ∀ name ∈ r.nameOut, (0 : UInt8) ∉ name ∧ name.length ≤ 31)
    (hpage : ∀ bytes ∈ content, bytes.length = 4096)
    (h : fs.createInode r type content = some (i, fs')) :
    NodesStep fs fs' ∧ fs'.globalFileTable = fs.globalFileTable ∧ fs'.Used i := by
  obtain ⟨-, hlt, hfree, -, rfl⟩ := createInode_cases h
  have hn : (0 : UInt8) ∉ r.nameOut.getD [] ∧ (r.nameOut.getD []).length ≤ 31 := by
    rcases hr : r.nameOut with _ | name
    · simp
    · exact hname name hr
  refine ⟨.made i _ rfl hlt hfree rfl ⟨hn.1, hn.2, Nat.zero_le _, hpage⟩, rfl, hlt, ?_⟩
  simp [setNode]

theorem openInode_step {fs fs' : Ramfs} {r : Resolved} (hr : ResolvedOk fs r)
    (hname : ∀ name ∈ r.nameOut, (0 : UInt8) ∉ name ∧ name.length ≤ 31) {flags : BitVec 32}
    {i : ℕ} (h : fs.openInode r flags = some (i, fs')) :
    NodesStep fs fs' ∧ fs'.globalFileTable = fs.globalFileTable ∧ fs'.Used i := by
  rcases openInode_cases h with ⟨hf, rfl, rfl⟩ | ⟨-, -, hcr⟩
  · obtain ⟨j, hj, hu⟩ := hr.found hf
    refine ⟨.same rfl, rfl, ?_⟩
    rw [hj, Int.toNat_natCast]
    exact hu
  · refine createInode_step hname (fun bytes hb => ?_) hcr
    rw [← Option.some.inj hb, List.length_replicate]

/-! ## Lengths -/

theorem signExtend_toNat {c : BitVec 32} (h : 0 ≤ c.toInt) :
    (c.signExtend 64).toNat = c.toInt.toNat := by
  have hmsb : c.msb = false := by
    by_contra hm
    have := BitVec.toInt_neg_of_msb_true (by simpa using hm : c.msb = true)
    omega
  rw [BitVec.signExtend_eq_setWidth_of_msb_false hmsb, BitVec.toNat_setWidth,
    BitVec.toInt_eq_toNat_of_msb hmsb, Int.toNat_natCast, Nat.mod_eq_of_lt (by omega)]

theorem toInt32_of_lt {n : ℕ} (h : n < 2 ^ 31) : toInt32 n = n := by
  unfold toInt32
  have hn : (BitVec.ofNat 32 n).toNat = n := by
    rw [BitVec.toNat_ofNat, Nat.mod_eq_of_lt (by omega)]
  rw [BitVec.toInt_eq_toNat_of_lt (by omega), hn]

theorem u64_offset {offset : ℕ} (ho : offset ≤ 4096) {c : BitVec 32} (h : 0 ≤ c.toInt) :
    u64 (offset + (c.signExtend 64).toNat) = offset + c.toInt.toNat := by
  rw [signExtend_toNat h, u64_of_lt]
  have := BitVec.toInt_lt (x := c)
  omega

/-- A read stops at the end of the file. -/
theorem readLen_of_nonneg {size offset : ℕ} (hs : size ≤ 4096) (ho : offset ≤ size) {c : BitVec 32}
    (h : 0 ≤ c.toInt) : readLen size offset c = min c.toInt.toNat (size - offset) := by
  unfold readLen
  rw [u64_offset (by omega) h]
  split_ifs with hlt
  · rw [toInt32_of_lt (by omega)]
    omega
  · omega

theorem readLen_le {size offset : ℕ} (hs : size ≤ 4096) (ho : offset ≤ size) (c : BitVec 32) :
    offset + (readLen size offset c).toNat ≤ size := by
  by_cases h : 0 ≤ c.toInt
  · rw [readLen_of_nonneg hs ho h]
    omega
  · unfold readLen
    split_ifs
    · rw [toInt32_of_lt (by omega)]
      omega
    · omega

/-- A write stops at the end of the page. -/
theorem writeLen_room {offset : ℕ} (ho : offset ≤ 4096) :
    (BitVec.ofNat 32 4096 - BitVec.ofNat 32 offset).toInt = 4096 - offset := by
  have hn : (BitVec.ofNat 32 4096 - BitVec.ofNat 32 offset).toNat = 4096 - offset := by
    rw [BitVec.toNat_sub, BitVec.toNat_ofNat, BitVec.toNat_ofNat]
    omega
  rw [BitVec.toInt_eq_toNat_of_lt (by omega), hn]
  omega

theorem writeLen_of_nonneg {offset : ℕ} (ho : offset ≤ 4096) {c : BitVec 32} (h : 0 ≤ c.toInt) :
    writeLen offset c = min c.toInt.toNat (4096 - offset) := by
  unfold writeLen
  rw [u64_offset ho h, writeLen_room ho]
  split_ifs <;> omega

theorem writeLen_le {offset : ℕ} (ho : offset ≤ 4096) (c : BitVec 32) :
    offset + (writeLen offset c).toNat ≤ 4096 := by
  by_cases h : 0 ≤ c.toInt
  · rw [writeLen_of_nonneg ho h]
    omega
  · unfold writeLen
    rw [writeLen_room ho]
    split_ifs <;> omega

/-- What every call does, to the file system and to the caller. -/
structure CallStep (fs fs' : Ramfs) (cur cur' : Pcb) : Prop where
  nodes : NodesStep fs fs'
  handles : HandlesStep fs fs' cur cur'
  caller : cur' = { cur with fdTable := cur'.fdTable, cwdInode := cur'.cwdInode }

theorem CallStep.refl (fs : Ramfs) (cur : Pcb) : CallStep fs fs cur cur :=
  ⟨.same rfl, .opens (.same rfl rfl), rfl⟩

section Calls

variable {fs fs' : Ramfs} {cur cur' : Pcb} (hI : FsOk fs) (hc : fs.DirIdx cur.cwdInode)

include hI hc in
/-- What an open does, and where it puts what it returns. -/
theorem ramfsOpen_opens {path : Option (List UInt8)} {flags : BitVec 32} {mem : Bool} {ret : ℤ}
    (h : fs.ramfsOpen cur path flags mem = some (ret, fs', cur')) :
    NodesStep fs fs' ∧ OpenStep fs fs' cur cur' ∧ cur' = { cur with fdTable := cur'.fdTable }
      ∧ (0 ≤ ret → ∃ f n, freeFd cur = some ret.toNat ∧ fs'.globalFileTable f = ⟨some n, 0, 1⟩
        ∧ cur'.fdTable = cur.fdTable.set ret.toNat (some f)) := by
  obtain ⟨r, hr, he⟩ := ramfsOpen_ends h
  have hinode : ∀ {n : ℕ} {fs₁ : Ramfs}, fs.openInode r flags = some (n, fs₁) →
      fs₁.globalFileTable = fs.globalFileTable ∧ fs₁.Used n
        ∧ ∀ f x, NodesStep fs (fs₁.setFile f x) := by
    intro n fs₁ hn
    obtain ⟨hs, htab, hu⟩ :=
      openInode_step (resolvePath_ok hI.toTreeInv hc true hr) (resolvePath_name hr) hn
    refine ⟨htab, hu, fun f x => ?_⟩
    rcases hs with hf | ⟨n, node, hf, ht, hd, hg, hok⟩ | ⟨k, node, hf, hk, hk', hk'', hok⟩
    · exact .same hf
    · exact .written n node hf ⟨ht.1, ht.2, ht.3, ht.4, ht.5⟩ hd hg hok
    · exact .made k node hf hk hk' hk'' hok
  cases he with
  | noInode hn => exact ⟨.same rfl, .same rfl rfl, rfl, fun h => absurd h (by decide)⟩
  | noFile n _ hn hf =>
    obtain ⟨htab, -, -⟩ := hinode hn
    obtain ⟨hs, -, -⟩ :=
      openInode_step (resolvePath_ok hI.toTreeInv hc true hr) (resolvePath_name hr) hn
    exact ⟨hs, .same htab rfl, rfl, fun h => absurd h (by decide)⟩
  | noFd n f fs₁ fs₂ hn hf hfd =>
    obtain ⟨htab, -, hs⟩ := hinode hn
    obtain ⟨hlt, hfree, -⟩ := allocFileHandle_cases hf
    refine ⟨hs f _, .spoiled f (htab ▸ hfree) ?_ rfl, rfl, fun h => absurd h (by decide)⟩
    rw [← htab]
    rfl
  | opened n f i fs₁ fs₂ hn hf hfd =>
    obtain ⟨htab, hu, hs⟩ := hinode hn
    obtain ⟨hlt, hfree, -⟩ := allocFileHandle_cases hf
    refine ⟨hs f _, .opened i f n hfd hlt (htab ▸ hfree) hu ?_ rfl, rfl, fun _ => ⟨f, n, ?_⟩⟩
    · rw [← htab]
      rfl
    · simp [hfd]

include hI hc in
theorem ramfsOpen_step {path : Option (List UInt8)} {flags : BitVec 32} {mem : Bool} {ret : ℤ}
    (h : fs.ramfsOpen cur path flags mem = some (ret, fs', cur')) : CallStep fs fs' cur cur' := by
  obtain ⟨hn, ho, hcur, -⟩ := ramfsOpen_opens hI hc h
  refine ⟨hn, .opens ho, ?_⟩
  rw [hcur]

theorem ramfsMkdir_step {path : Option (List UInt8)} {ret : ℤ}
    (h : fs.ramfsMkdir cur path = some (ret, fs')) :
    NodesStep fs fs' ∧ fs'.globalFileTable = fs.globalFileTable := by
  obtain ⟨r, hr, ⟨-, rfl⟩ | ⟨-, -, k, hcr⟩⟩ := ramfsMkdir_ends h
  · exact ⟨.same rfl, rfl⟩
  · obtain ⟨hn, htab, -⟩ := createInode_step (resolvePath_name hr) (by simp) hcr
    exact ⟨hn, htab⟩

theorem ramfsChdir_step {path : Option (List UInt8)} {ret : ℤ}
    (h : fs.ramfsChdir cur path = some (ret, cur')) : CallStep fs fs cur cur' := by
  unfold ramfsChdir at h
  obtain ⟨r, -, he⟩ := Option.map_eq_some_iff.mp h
  split_ifs at he <;> simp only [Prod.mk.injEq] at he <;> rw [← he.2] <;>
    exact ⟨.same rfl, .opens (.same rfl rfl), rfl⟩

theorem ramfsClose_step (fs : Ramfs) (cur : Pcb) (fd : ℤ) :
    CallStep fs (fs.ramfsClose cur fd).1 cur (fs.ramfsClose cur fd).2 := by
  unfold ramfsClose
  rcases hf : fdFile cur fd with _ | f
  · exact .refl _ _
  · exact ⟨.same rfl, .closed fd f hf rfl rfl, rfl⟩

include hI in
theorem ramfsRead_step {fd : ℤ} {count : BitVec 32} {ret : ℤ} {data : List UInt8}
    (h : fs.ramfsRead cur fd count = some (ret, data, fs')) : CallStep fs fs' cur cur := by
  cases ramfsRead_ends h with
  | noFile => exact .refl _ _
  | dir => exact .refl _ _
  | atEnd => exact .refl _ _
  | nothing => exact .refl _ _
  | read f n bytes hf hn hdir hin hlen hb =>
    obtain ⟨hu, ho⟩ := hI.handles f n hn
    have hsize := (hI.nodes n hu).size_le
    rw [offsetBound, if_neg hdir] at ho
    have hle := readLen_le hsize ho count
    rw [u64_of_lt (by omega)]
    refine ⟨.same rfl, .moved fd f n _ hf hn ?_ rfl rfl, rfl⟩
    simpa [offsetBound, setFile, hdir] using hle

include hI in
theorem ramfsWrite_step {fd : ℤ} {buf : ℕ → UInt8} {count : BitVec 32} {ret : ℤ}
    (h : fs.ramfsWrite cur fd buf count = some (ret, fs')) : CallStep fs fs' cur cur := by
  rcases ramfsWrite_ends h with rfl | ⟨f, n, bytes, hf, hn, hdir, hb, hpos, rfl⟩
  · exact .refl _ _
  · obtain ⟨hu, ho⟩ := hI.handles f n hn
    have hnode := hI.nodes n hu
    have hsize := hnode.size_le
    rw [offsetBound, if_neg hdir] at ho
    have hle := writeLen_le (ho.trans hsize) count
    have hpage := hnode.page bytes hb
    have hlen := ByteFile.length_overwrite
      ((List.range (writeLen (fs.globalFileTable f).offset count).toNat).map buf)
      ((ho.trans hsize).trans hpage.ge)
    simp only [ByteFile.overwrite, List.length_map, List.length_range, hpage,
      Nat.max_eq_left hle] at hlen
    rw [u64_of_lt (by omega)]
    split_ifs with hgrow
    · refine ⟨.written n _ rfl (sameTree_setNode ..) hdir hgrow.le ⟨hnode.noNul, hnode.short,
        hle, fun new hnew => Option.some.inj hnew ▸ hlen⟩,
        .moved fd f n _ hf hn ?_ rfl rfl, rfl⟩
      simp [offsetBound, setNode, hdir]
    · refine ⟨.written n _ rfl (sameTree_setNode ..) hdir le_rfl ⟨hnode.noNul, hnode.short,
        hsize, fun new hnew => Option.some.inj hnew ▸ hlen⟩,
        .moved fd f n _ hf hn ?_ rfl rfl, rfl⟩
      simp only [offsetBound, setNode, Function.update_self, if_neg hdir]
      omega

theorem getdentsLoop_le (fs : Ramfs) (target count : ℤ) : ∀ (fuel : ℕ) {idx : ℕ} (bpos : ℕ)
    (buf : ℕ → UInt8), idx ≤ maxFiles →
      (getdentsLoop fs target count fuel idx bpos buf).1 ≤ maxFiles
  | 0, _, _, _, h => h
  | fuel + 1, idx, bpos, buf, h => by
    unfold getdentsLoop
    dsimp only
    split_ifs with h1 h2 h3
    · exact h
    · exact h
    · exact getdentsLoop_le fs target count fuel _ _ (by omega)
    · exact getdentsLoop_le fs target count fuel _ _ (by omega)

theorem ramfsGetdents64_files {fd : ℤ} {dirp buf : ℕ → UInt8} {count : BitVec 32} {ret : ℤ}
    (h : fs.ramfsGetdents64 cur fd dirp count = some (ret, buf, fs')) : fs'.files = fs.files := by
  unfold ramfsGetdents64 at h
  rcases hf : fdFile cur fd with _ | f <;> rw [hf] at h
  · simp only [Option.some.injEq, Prod.mk.injEq] at h
    rw [h.2.2]
  · obtain ⟨n, -, h⟩ := Option.bind_eq_some_iff.mp h
    dsimp only at h
    split_ifs at h <;> simp only [Option.some.injEq, Prod.mk.injEq] at h <;> rw [← h.2.2]
    rfl

include hI in
theorem ramfsGetdents64_step {fd : ℤ} {dirp buf : ℕ → UInt8} {count : BitVec 32} {ret : ℤ}
    (h : fs.ramfsGetdents64 cur fd dirp count = some (ret, buf, fs')) :
    CallStep fs fs' cur cur := by
  unfold ramfsGetdents64 at h
  rcases hf : fdFile cur fd with _ | f <;> rw [hf] at h
  · simp only [Option.some.injEq, Prod.mk.injEq] at h
    exact h.2.2 ▸ .refl _ _
  · obtain ⟨n, hn, h⟩ := Option.bind_eq_some_iff.mp h
    obtain ⟨hu, ho⟩ := hI.handles f n hn
    dsimp only at h
    split_ifs at h with hdir hneg
    · simp only [Option.some.injEq, Prod.mk.injEq] at h
      exact h.2.2 ▸ .refl _ _
    · simp only [Option.some.injEq, Prod.mk.injEq] at h
      rw [not_not] at hdir
      rw [offsetBound, if_pos hdir] at ho
      have hidx : toInt32 (fs.globalFileTable f).offset = (fs.globalFileTable f).offset :=
        toInt32_of_lt (ho.trans_lt (by decide))
      rw [hidx, Int.toNat_natCast] at h
      rw [← h.2.2]
      refine ⟨.same rfl, .moved fd f n _ hf hn ?_ rfl rfl, rfl⟩
      have hle := getdentsLoop_le fs (fs.files n).inodeIdx count.toInt maxFiles 0 dirp ho
      simpa [offsetBound, setFile, hdir] using hle

include hI hc in
theorem perform_step {c : Call} (h : fs.perform cur c = some (fs', cur')) :
    CallStep fs fs' cur cur' := by
  cases c with
  | «open» path flags mem =>
    obtain ⟨⟨ret, r⟩, hr, he⟩ := Option.map_eq_some_iff.mp h
    exact ramfsOpen_step hI hc (hr.trans (by rw [← he]))
  | mkdir path =>
    obtain ⟨⟨ret, r⟩, hr, he⟩ := Option.map_eq_some_iff.mp h
    simp only [Prod.mk.injEq] at he
    obtain ⟨hn, htab⟩ := ramfsMkdir_step (he.1 ▸ hr)
    exact he.2 ▸ ⟨hn, .opens (.same htab rfl), rfl⟩
  | chdir path =>
    obtain ⟨⟨ret, r⟩, hr, he⟩ := Option.map_eq_some_iff.mp h
    simp only [Prod.mk.injEq] at he
    exact he.1 ▸ ramfsChdir_step (he.2 ▸ hr)
  | read fd count =>
    obtain ⟨⟨ret, data, r⟩, hr, he⟩ := Option.map_eq_some_iff.mp h
    simp only [Prod.mk.injEq] at he
    exact he.2 ▸ ramfsRead_step hI (he.1 ▸ hr)
  | write fd buf count =>
    obtain ⟨⟨ret, r⟩, hr, he⟩ := Option.map_eq_some_iff.mp h
    simp only [Prod.mk.injEq] at he
    exact he.2 ▸ ramfsWrite_step hI (he.1 ▸ hr)
  | close fd =>
    obtain ⟨rfl, rfl⟩ := Prod.mk.inj (Option.some.inj h)
    exact ramfsClose_step fs cur fd

/-- A call that may make an inode. -/
def Call.Makes : Call → Prop
  | .open .. | .mkdir _ => True
  | .chdir _ | .read .. | .write .. | .close _ => False

include hI hc in
theorem perform_opens {c : Call} (hm : c.Makes) (h : fs.perform cur c = some (fs', cur')) :
    OpenStep fs fs' cur cur' := by
  cases c with
  | «open» path flags mem =>
    obtain ⟨⟨ret, r⟩, hr, he⟩ := Option.map_eq_some_iff.mp h
    exact (ramfsOpen_opens hI hc (hr.trans (by rw [← he]))).2.1
  | mkdir path =>
    obtain ⟨⟨ret, r⟩, hr, he⟩ := Option.map_eq_some_iff.mp h
    simp only [Prod.mk.injEq] at he
    exact he.2 ▸ .same (ramfsMkdir_step (he.1 ▸ hr)).2 rfl
  | chdir path => exact hm.elim
  | read fd count => exact hm.elim
  | write fd buf count => exact hm.elim
  | close fd => exact hm.elim

end Calls

theorem freeFd_cases {cur : Pcb} {k : ℕ} (h : freeFd cur = some k) :
    3 ≤ k ∧ k < maxFd ∧ cur.fdTable.getD k none = none := by
  unfold freeFd at h
  have hm := List.mem_of_find?_eq_some h
  have hn := List.find?_some h
  rw [List.mem_drop_iff_getElem] at hm
  obtain ⟨i, hi, he⟩ := hm
  simp only [List.getElem_range] at he
  simp only [List.length_range] at hi
  exact ⟨by omega, by omega, by simpa using hn⟩

theorem fdFile_cases {cur : Pcb} {x : ℤ} {f : ℕ} (h : fdFile cur x = some f) :
    x.toNat < maxFd ∧ cur.fdTable.getD x.toNat none = some f := by
  unfold fdFile at h
  split_ifs at h with hx
  exact ⟨by omega, h⟩

theorem OpenStep.fdFile {fs fs' : Ramfs} {cur cur' : Pcb} (h : OpenStep fs fs' cur cur') {fd : ℤ}
    {f : ℕ} (hf : fdFile cur fd = some f) : fdFile cur' fd = some f := by
  rcases h with ⟨-, hfds⟩ | ⟨k, g, n, hk, -, -, -, -, hfds⟩ | ⟨g, -, -, hfds⟩
  · unfold Ramfs.fdFile at hf ⊢
    rw [hfds, hf]
  · have hne : k ≠ fd.toNat := by
      intro he
      have := (freeFd_cases hk).2.2
      rw [he, (fdFile_cases hf).2] at this
      cases this
    unfold Ramfs.fdFile at hf ⊢
    rw [hfds, List.getD_eq_getElem?_getD, List.getElem?_set_ne hne,
      ← List.getD_eq_getElem?_getD, hf]
  · unfold Ramfs.fdFile at hf ⊢
    rw [hfds, hf]

theorem OpenStep.table_eq {fs fs' : Ramfs} {cur cur' : Pcb} (h : OpenStep fs fs' cur cur') {g : ℕ}
    (hg : (fs.globalFileTable g).refCount ≠ 0) :
    fs'.globalFileTable g = fs.globalFileTable g := by
  rcases h with ⟨htab, -⟩ | ⟨k, f, n, -, -, hfree, -, htab, -⟩ | ⟨f, hfree, htab, -⟩
  · rw [htab]
  · rw [htab, Function.update_of_ne]
    exact fun he => hg (he ▸ hfree)
  · rw [htab, Function.update_of_ne]
    exact fun he => hg (he ▸ hfree)

/-! ## What every call keeps -/

section Kept

variable {fs fs' : Ramfs}

/-- A used inode keeps its place, name and type, and a file does not shrink. -/
structure Keeps (fs fs' : Ramfs) (n : ℕ) : Prop where
  used : fs'.Used n
  type : (fs'.files n).type = (fs.files n).type
  parentIdx : (fs'.files n).parentIdx = (fs.files n).parentIdx
  inodeIdx : (fs'.files n).inodeIdx = (fs.files n).inodeIdx
  name : (fs'.files n).name = (fs.files n).name
  size : (fs.files n).size ≤ (fs'.files n).size

theorem Keeps.trans {fs'' : Ramfs} {n : ℕ} (h : Keeps fs fs' n) (h' : Keeps fs' fs'' n) :
    Keeps fs fs'' n :=
  ⟨h'.used, h'.type.trans h.type, h'.parentIdx.trans h.parentIdx, h'.inodeIdx.trans h.inodeIdx,
    h'.name.trans h.name, h.size.trans h'.size⟩

theorem NodesStep.keeps (h : NodesStep fs fs') {n : ℕ} (hn : fs.Used n) : Keeps fs fs' n := by
  rcases h with hf | ⟨m, node, hf, ht, -, hg, -⟩ | ⟨k, node, hf, hlt, hfree, -, -⟩
  · refine ⟨?_, ?_, ?_, ?_, ?_, ?_⟩ <;> simp [Used, hf, hn.1, hn.2]
  · refine ⟨ht.used_iff.mpr hn, ht.type n, ht.parentIdx n, ht.inodeIdx n, ht.name n, ?_⟩
    by_cases hm : n = m
    · simpa [hf, hm] using hg
    · simp [hf, Function.update_of_ne hm]
  · have hk : n ≠ k := by
      intro he
      rw [← he, hn.2] at hfree
      cases hfree
    refine ⟨?_, ?_, ?_, ?_, ?_, ?_⟩ <;>
      simp [Used, hf, Function.update_of_ne hk, hn.1, hn.2]

theorem Keeps.offsetBound_le {n : ℕ} (h : Keeps fs fs' n) :
    fs.offsetBound n ≤ fs'.offsetBound n := by
  unfold offsetBound
  rw [h.type]
  split_ifs
  · exact le_rfl
  · exact h.size

theorem NodesStep.nodeOk (h : NodesStep fs fs') (hI : ∀ i, fs.Used i → NodeOk (fs.files i)) {i : ℕ}
    (hi : fs'.Used i) : NodeOk (fs'.files i) := by
  rcases h with hf | ⟨m, node, hf, ht, -, -, hok⟩ | ⟨k, node, hf, -, -, -, hok⟩
  · rw [hf]
    exact hI i (by simpa [Used, hf] using hi)
  · by_cases hm : i = m
    · simpa [hf, hm] using hok
    · rw [hf, Function.update_of_ne hm]
      exact hI i (ht.used_iff.mp hi)
  · by_cases hk : i = k
    · simpa [hf, hk] using hok
    · rw [hf, Function.update_of_ne hk]
      exact hI i (by simpa [Used, hf, Function.update_of_ne hk] using hi)

theorem CallStep.fsOk {cur cur' : Pcb} (h : CallStep fs fs' cur cur') (hI : FsOk fs)
    (ht : TreeInv fs') : FsOk fs' := by
  have hold : ∀ f n, (fs.globalFileTable f).node = some n →
      fs'.Used n ∧ (fs.globalFileTable f).offset ≤ fs'.offsetBound n := by
    intro f n hn
    obtain ⟨hu, ho⟩ := hI.handles f n hn
    have hk := h.nodes.keeps hu
    exact ⟨hk.used, ho.trans hk.offsetBound_le⟩
  have hother : ∀ {f : ℕ} {x : File},
      fs'.globalFileTable = Function.update fs.globalFileTable f x →
      (∀ n, x.node = some n → fs'.Used n ∧ x.offset ≤ fs'.offsetBound n) →
      ∀ g n, (fs'.globalFileTable g).node = some n →
        fs'.Used n ∧ (fs'.globalFileTable g).offset ≤ fs'.offsetBound n := by
    intro f x htab hx g n hn
    rw [htab] at hn ⊢
    by_cases hg : g = f
    · subst hg
      rw [Function.update_self] at hn ⊢
      exact hx n hn
    · rw [Function.update_of_ne hg] at hn ⊢
      exact hold g n hn
  refine ⟨ht, (h.nodes.keeps hI.root.1.1).inodeIdx.trans hI.rootIdx,
    fun i => h.nodes.nodeOk hI.nodes, ?_⟩
  rcases h.handles with (⟨htab, -⟩ | ⟨k, f, n, -, -, -, hu, htab, -⟩ | ⟨f, -, htab, -⟩)
    | ⟨fd, f, -, htab, -⟩ | ⟨fd, f, n, offset, -, hn, hb, htab, -⟩
  · rw [htab]
    exact hold
  · refine hother htab fun m hm => ?_
    obtain rfl := Option.some.inj hm
    exact ⟨hu, Nat.zero_le _⟩
  · exact hother htab fun m hm => by simp at hm
  · exact hother htab fun m hm => by simp at hm
  · refine hother htab fun m hm => ?_
    obtain rfl := Option.some.inj (hn.symm.trans hm)
    exact ⟨(hold f n hn).1, hb⟩

theorem ramfsInit_fsOk : FsOk (ramfsInit none 0) := by
  have hname : ∀ i < 7, (0 : UInt8) ∉ initNames.getD i [] ∧ (initNames.getD i []).length ≤ 31 := by
    decide
  have hpage : ∀ text : List UInt8, text.length ≤ 4096 → ∀ bytes ∈
      some (text ++ List.replicate (pageSize - text.length) 0), bytes.length = 4096 := by
    intro text ht bytes hb
    rw [← Option.some.inj hb, List.length_append, List.length_replicate]
    unfold pageSize
    omega
  refine ⟨ramfsInit_treeInv none 0, rfl, fun i hi => ?_, fun f n hn => by cases hn⟩
  have hi : i < 7 := by
    by_contra hge
    obtain ⟨j, rfl⟩ := Nat.exists_eq_add_of_le (not_lt.mp hge)
    have hu : ((ramfsInit none 0).files (7 + j)).isUsed = true := hi.2
    rw [Nat.add_comm] at hu
    simp [ramfsInit, RamfsNode.zero] at hu
  obtain ⟨h0, hlen⟩ := hname i hi
  interval_cases i
  · exact ⟨h0, hlen, Nat.zero_le _, by simp [ramfsInit]⟩
  · exact ⟨h0, hlen, Nat.zero_le _, by simp [ramfsInit]⟩
  · exact ⟨h0, hlen, Nat.zero_le _, by simp [ramfsInit]⟩
  · exact ⟨h0, hlen, Nat.zero_le _, by simp [ramfsInit]⟩
  · exact ⟨h0, hlen, Nat.zero_le _, by simp [ramfsInit]⟩
  · have hshell : (ascii "// This is SudoOS Shell Source Code...\n").length ≤ 4096 := by decide
    exact ⟨h0, hlen, hshell, hpage _ hshell⟩
  · have hmain : (ascii "// User Main Entry Point\n").length ≤ 4096 := by decide
    exact ⟨h0, hlen, hmain, hpage _ hmain⟩

end Kept

end Ramfs

end SudoOS
