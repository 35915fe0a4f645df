import SudoOS.Proofs.Sys

/-!
# Listing a directory

A call of `ramfs_getdents64` leaves in the buffer, one behind the other, the records of the children
between the index it resumes from and the one it stops at (`getdentsLoop_spec`), and the walk of
`cmd_ls` reads these records back (`cmdLs_packed`). With room for a record a call makes progress,
and one that returns 0 has come to the end of the inodes. Inodes are never given back and the offset
of a directory is moved by nobody else, so however the directory grows meanwhile the calls list the
children it had when it was opened, each once (`listing_exact`).
-/

namespace SudoOS

open Wire

namespace Ramfs

/-- Inode `i` is in directory `d`. -/
def Child (fs : Ramfs) (d i : ℕ) : Prop := fs.Used i ∧ (fs.files i).parentIdx = d

instance (fs : Ramfs) (d i : ℕ) : Decidable (fs.Child d i) := inferInstanceAs (Decidable (_ ∧ _))

theorem Keeps.child {fs fs' : Ramfs} {d i : ℕ} (h : Keeps fs fs' i) (hc : fs.Child d i) :
    fs'.Child d i :=
  ⟨h.used, h.parentIdx.trans hc.2⟩

/-- What a listing shows of an inode. -/
def direntOf (fs : Ramfs) (i : ℕ) : Dirent where
  dIno := i + 1
  dReclen := reclen (fs.files i).name
  dType := if (fs.files i).type = .dir then 4 else 8
  dName := (fs.files i).name

theorem Keeps.direntOf {fs fs' : Ramfs} {i : ℕ} (h : Keeps fs fs' i) :
    fs'.direntOf i = fs.direntOf i := by
  unfold Ramfs.direntOf
  rw [h.name, h.type]

/-! ## One record -/

theorem reclen_bounds {name : List UInt8} (h : name.length ≤ 31) :
    name.length + 25 ≤ reclen name ∧ reclen name ≤ 56 := by
  unfold reclen direntSize
  rw [alignUp_eight, u64_of_lt (by omega)]
  omega

/-- The record of inode `i` stands at `bpos`. -/
structure RecordAt (buf : ℕ → UInt8) (bpos i : ℕ) (node : RamfsNode) : Prop where
  ino : At buf bpos (leBytes 8 (i + 1))
  len : At buf (bpos + 16) (leBytes 2 (reclen node.name))
  type : buf (bpos + 18) = if node.type = .dir then dtDir else dtReg
  name : At buf (bpos + direntName) (node.name ++ [0])

theorem writeDirent_record (buf : ℕ → UInt8) (bpos i : ℕ) (node : RamfsNode) :
    RecordAt (writeDirent buf bpos i node) bpos i node := by
  unfold writeDirent
  dsimp only
  refine ⟨?_, ?_, ?_, at_store _ _ _⟩
  · refine ((((at_store _ _ _).store ?_).store ?_).store ?_).store ?_ <;> simp [direntName]
  · refine ((at_store _ _ _).store ?_).store ?_ <;> simp [direntName]
  · rw [store_outside (by simp [direntName])]
    exact (at_store _ (bpos + 18) _).head

theorem writeDirent_outside {buf : ℕ → UInt8} {bpos i j : ℕ} {node : RamfsNode} (h : j < bpos) :
    writeDirent buf bpos i node j = buf j := by
  unfold writeDirent
  rw [store_outside (by unfold direntName; omega), store_outside (by omega),
    store_outside (by omega), store_outside (by omega), store_outside (by omega)]

/-- A record stays where its bytes do. -/
theorem RecordAt.congr {buf buf' : ℕ → UInt8} {bpos i : ℕ} {node : RamfsNode}
    (h : RecordAt buf bpos i node) (hn : node.name.length ≤ 31)
    (hb : ∀ j < bpos + reclen node.name, buf' j = buf j) : RecordAt buf' bpos i node := by
  obtain ⟨hlo, -⟩ := reclen_bounds hn
  have hat : ∀ {pos : ℕ} {bytes : List UInt8}, pos + bytes.length ≤ bpos + reclen node.name →
      At buf pos bytes → At buf' pos bytes := by
    intro pos bytes hle hat k hk
    rw [hb _ (by omega), hat k hk]
  refine ⟨hat ?_ h.ino, hat ?_ h.len, (hb _ (by omega)).trans h.type, hat ?_ h.name⟩
  · rw [leBytes_length]
    omega
  · rw [leBytes_length]
    omega
  · simp only [direntName, List.length_append, List.length_singleton]
    omega

/-- `cmd_ls` reads the record back. -/
theorem RecordAt.readDirent {fs : Ramfs} {buf : ℕ → UInt8} {bpos i nread : ℕ}
    (h : RecordAt buf bpos i (fs.files i)) (hi : i < maxFiles) (hok : NodeOk (fs.files i))
    (hr : bpos + reclen (fs.files i).name ≤ nread) :
    readDirent buf nread bpos = fs.direntOf i
      ∧ buf (bpos + direntName + (fs.files i).name.length) = 0 := by
  obtain ⟨hlo, hhi⟩ := reclen_bounds hok.short
  have hino : readLe buf bpos 8 = i + 1 := by
    rw [readLe_of_at h.ino, Nat.mod_eq_of_lt]
    unfold maxFiles at hi
    omega
  have hlen : readLe buf (bpos + 16) 2 = reclen (fs.files i).name := by
    rw [readLe_of_at h.len, Nat.mod_eq_of_lt (by omega)]
  have hname : readStr buf nread (bpos + direntName) = (fs.files i).name :=
    readStr_of_at h.name hok.noNul (by omega)
  have htype : (buf (bpos + 18)).toNat = if (fs.files i).type = .dir then 4 else 8 := by
    rw [h.type]
    split_ifs <;> rfl
  refine ⟨?_, h.name.append_right.head⟩
  unfold Ramfs.readDirent direntOf
  rw [hino, hlen, hname, htype]

/-! ## One call -/

/-- The records of the inodes stand one behind the other from `bpos` to `stop`. -/
def Packed (fs : Ramfs) (buf : ℕ → UInt8) : ℕ → List ℕ → ℕ → Prop
  | bpos, [], stop => bpos = stop
  | bpos, i :: is, stop =>
    RecordAt buf bpos i (fs.files i) ∧ Packed fs buf (bpos + reclen (fs.files i).name) is stop

/-- The children of `d` from index `lo` up to `hi`. -/
def childrenIn (fs : Ramfs) (d lo hi : ℕ) : List ℕ :=
  (List.range' lo (hi - lo)).filter fun i => fs.Child d i

theorem mem_childrenIn {fs : Ramfs} {d lo hi i : ℕ} :
    i ∈ fs.childrenIn d lo hi ↔ (lo ≤ i ∧ i < hi) ∧ fs.Child d i := by
  simp only [childrenIn, List.mem_filter, List.mem_range'_1, decide_eq_true_eq]
  exact and_congr_left fun _ => by omega

theorem childrenIn_nodup (fs : Ramfs) (d lo hi : ℕ) : (fs.childrenIn d lo hi).Nodup :=
  (List.nodup_range' ..).filter _

theorem childrenIn_self (fs : Ramfs) (d lo : ℕ) : fs.childrenIn d lo lo = [] := by
  simp [childrenIn]

theorem childrenIn_succ (fs : Ramfs) (d : ℕ) {lo hi : ℕ} (h : lo < hi) :
    fs.childrenIn d lo hi
      = if fs.Child d lo then lo :: fs.childrenIn d (lo + 1) hi
        else fs.childrenIn d (lo + 1) hi := by
  have hsub : hi - lo = hi - (lo + 1) + 1 := by omega
  simp only [childrenIn, hsub, List.range'_succ, List.filter_cons, decide_eq_true_eq]

/-- How a call that starts at `idx` ends: at `stop`, with the records of the children before it from
`bpos` to `last`, and with the next child too large for the rest of the buffer. -/
structure Listed (fs : Ramfs) (d : ℕ) (count : ℤ) (idx bpos : ℕ) (buf : ℕ → UInt8) (stop last : ℕ)
    (buf' : ℕ → UInt8) : Prop where
  le : idx ≤ stop
  stop_le : stop ≤ maxFiles
  packed : Packed fs buf' bpos (fs.childrenIn d idx stop) last
  before : ∀ j < bpos, buf' j = buf j
  full : stop < maxFiles → fs.Child d stop ∧ count < (last + reclen (fs.files stop).name : ℤ)

theorem getdentsLoop_spec {fs : Ramfs} (hok : ∀ i, fs.Used i → NodeOk (fs.files i)) (d : ℕ)
    (count : ℤ) : ∀ (fuel : ℕ) {idx bpos stop last : ℕ} {buf buf' : ℕ → UInt8}, idx ≤ maxFiles →
      maxFiles ≤ idx + fuel → getdentsLoop fs d count fuel idx bpos buf = (stop, last, buf') →
        Listed fs d count idx bpos buf stop last buf'
  | 0, idx, bpos, stop, last, buf, buf', hle, hfuel, h => by
    simp only [getdentsLoop, Prod.mk.injEq] at h
    obtain ⟨rfl, rfl, rfl⟩ := h
    refine ⟨le_rfl, hle, ?_, fun _ _ => rfl, fun hlt => absurd hlt (by omega)⟩
    rw [childrenIn_self]
    exact rfl
  | fuel + 1, idx, bpos, stop, last, buf, buf', hle, hfuel, h => by
    unfold getdentsLoop at h
    dsimp only at h
    split_ifs at h with hend hchild hfull
    · simp only [Prod.mk.injEq] at h
      obtain ⟨rfl, rfl, rfl⟩ := h
      refine ⟨le_rfl, hle, ?_, fun _ _ => rfl, fun hlt => absurd hlt (by omega)⟩
      rw [childrenIn_self]
      exact rfl
    · simp only [Prod.mk.injEq] at h
      obtain ⟨rfl, rfl, rfl⟩ := h
      refine ⟨le_rfl, hle, ?_, fun _ _ => rfl, fun hlt => ⟨⟨⟨hlt, hchild.1⟩, hchild.2⟩, hfull⟩⟩
      rw [childrenIn_self]
      exact rfl
    · have hused : fs.Used idx := ⟨by omega, hchild.1⟩
      obtain ⟨h1, h2, h3, h4, h5⟩ := getdentsLoop_spec hok d count fuel (by omega) (by omega) h
      refine ⟨by omega, h2, ?_, fun j hj => ?_, h5⟩
      · rw [childrenIn_succ fs d (by omega), if_pos ⟨hused, hchild.2⟩]
        refine ⟨?_, h3⟩
        exact (writeDirent_record buf bpos idx _).congr (hok idx hused).short h4
      · rw [h4 j (by omega), writeDirent_outside hj]
    · obtain ⟨h1, h2, h3, h4, h5⟩ := getdentsLoop_spec hok d count fuel (by omega) (by omega) h
      have hno : ¬ fs.Child d idx := fun hc => hchild ⟨hc.1.2, hc.2⟩
      refine ⟨by omega, h2, ?_, h4, h5⟩
      rw [childrenIn_succ fs d (by omega), if_neg hno]
      exact h3

theorem Packed.le {fs : Ramfs} {buf : ℕ → UInt8} : ∀ {bpos : ℕ} {is : List ℕ} {stop : ℕ},
    Packed fs buf bpos is stop → bpos ≤ stop
  | _, [], _, h => Nat.le_of_eq h
  | _, _ :: _, _, h => (Nat.le_add_right _ _).trans h.2.le

/-- A record lies inside the bytes returned, its name with it. -/
def Inside (buf : ℕ → UInt8) (nread : ℕ) (r : ℕ × Dirent) : Prop :=
  r.1 + r.2.dReclen ≤ nread ∧ direntName + r.2.dName.length < r.2.dReclen
    ∧ buf (r.1 + direntName + r.2.dName.length) = 0

/-- The walk of `cmd_ls` reads packed records back, in as many steps as there are bytes. -/
theorem cmdLs_packed {fs : Ramfs} (hok : ∀ i, fs.Used i → NodeOk (fs.files i)) {buf : ℕ → UInt8}
    {nread : ℕ} : ∀ {fuel bpos : ℕ} {is : List ℕ}, (∀ i ∈ is, fs.Used i) →
      Packed fs buf bpos is nread → nread ≤ bpos + fuel →
        ∃ rs, cmdLs buf nread fuel bpos = some rs ∧ rs.map Prod.snd = is.map fs.direntOf
          ∧ ∀ r ∈ rs, Inside buf nread r
  | 0, bpos, [], _, h, _ => ⟨[], by simp [cmdLs, show bpos = nread from h], rfl, by simp⟩
  | fuel + 1, bpos, [], _, h, _ => ⟨[], by simp [cmdLs, show bpos = nread from h], rfl, by simp⟩
  | 0, bpos, i :: is, hall, h, hf => by
    have hle := h.2.le
    have := (reclen_bounds (hok i (hall i List.mem_cons_self)).short).1
    omega
  | fuel + 1, bpos, i :: is, hall, h, hf => by
    have hu := hall i List.mem_cons_self
    have hle := h.2.le
    have hlo := (reclen_bounds (hok i hu).short).1
    obtain ⟨hd, hnul⟩ := h.1.readDirent hu.1 (hok i hu) hle
    have hrec : (readDirent buf nread bpos).dReclen = reclen (fs.files i).name := by
      rw [hd]
      rfl
    obtain ⟨rs, hrs, hmap, hin⟩ := cmdLs_packed hok (fun j hj => hall j (List.mem_cons_of_mem _ hj))
      h.2 (by omega : nread ≤ bpos + reclen (fs.files i).name + fuel)
    refine ⟨(bpos, fs.direntOf i) :: rs, ?_, by simp [hmap], fun r hr => ?_⟩
    · rw [cmdLs, if_pos (by omega)]
      dsimp only
      rw [hrec, hrs, hd]
      rfl
    · rcases List.mem_cons.mp hr with rfl | hr
      · refine ⟨hle, ?_, hnul⟩
        simp only [direntOf, direntName]
        omega
      · exact hin r hr

theorem FsOk.inodeIdx {fs : Ramfs} (hI : FsOk fs) {d : ℕ} (hd : fs.Used d) :
    (fs.files d).inodeIdx = d := by
  by_cases h0 : d = 0
  · rw [h0]
    exact hI.rootIdx
  · exact (hI.node d h0 hd).1

/-- `ramfs_getdents64` on an open directory. -/
theorem ramfsGetdents64_spec {fs : Ramfs} (hI : FsOk fs) {cur : Pcb} {fd : ℤ} {f d : ℕ}
    (hf : fdFile cur fd = some f) (hn : (fs.globalFileTable f).node = some d)
    (hdir : (fs.files d).type = .dir) (dirp : ℕ → UInt8) (count : BitVec 32) :
    ∃ (stop last : ℕ) (buf : ℕ → UInt8), fs.ramfsGetdents64 cur fd dirp count
        = some ((last : ℤ), buf, fs.setFile f { fs.globalFileTable f with offset := stop })
      ∧ Listed fs d count.toInt (fs.globalFileTable f).offset 0 dirp stop last buf := by
  obtain ⟨hu, ho⟩ := hI.handles f d hn
  rw [offsetBound, if_pos hdir] at ho
  have hidx : toInt32 (fs.globalFileTable f).offset = (fs.globalFileTable f).offset :=
    toInt32_of_lt (ho.trans_lt (by decide))
  rcases hl : fs.getdentsLoop d count.toInt maxFiles (fs.globalFileTable f).offset 0 dirp
    with ⟨stop, last, buf⟩
  refine ⟨stop, last, buf, ?_,
    getdentsLoop_spec hI.nodes d count.toInt maxFiles ho (Nat.le_add_left ..) hl⟩
  unfold ramfsGetdents64
  rw [hf]
  simp only [hn, Option.bind_some, hdir, ne_eq, not_true_eq_false, if_false, hidx,
    Int.toNat_natCast, hI.inodeIdx hu, hl]
  rw [if_neg (by omega)]

end Ramfs

namespace Sys

/-! ## Listing while the directory grows -/

/-- While process `p` lists the directory of its descriptor `fd`, it or another process makes files
and directories. -/
inductive LsEvent
  | list (dirp : ℕ → UInt8) (count : BitVec 32)
  | make (q : ℕ) (c : Ramfs.Call)

/-- Room for any record in each call, and nothing made but files and directories. -/
def LsEvent.Ok : LsEvent → Prop
  | .list _ count => 56 ≤ count.toInt
  | .make _ c => c.Makes

/-- What the calls of `ramfs_getdents64` return, each with its buffer. -/
def lsRun (p : ℕ) (fd : ℤ) : Sys → List LsEvent → Option (List (ℤ × (ℕ → UInt8)) × Sys)
  | s, [] => some ([], s)
  | s, .list dirp count :: es =>
    (s.fs.ramfsGetdents64 (s.pcb p) fd dirp count).bind fun r =>
      (lsRun p fd (s.called p r.2.2 (s.pcb p)) es).map fun t => ((r.1, r.2.1) :: t.1, t.2)
  | s, .make q c :: es => (s.step (q, .call c)).bind fun s' => lsRun p fd s' es

/-- The children of `d` listed so far, `fs₀` being the file system when `d` was opened. -/
structure Lists (fs₀ : Ramfs) (p : ℕ) (fd : ℤ) (f d : ℕ) (s : Sys) (seen : List ℕ) : Prop where
  inv : SysInv s
  runs : s.Runs p
  fdFile : Ramfs.fdFile (s.pcb p) fd = some f
  node : (s.fs.globalFileTable f).node = some d
  dir : (s.fs.files d).type = .dir
  keeps : ∀ i, fs₀.Used i → Ramfs.Keeps fs₀ s.fs i
  nodup : seen.Nodup
  child : ∀ i ∈ seen, s.fs.Child d i ∧ i < (s.fs.globalFileTable f).offset
  all : ∀ i, fs₀.Child d i → i < (s.fs.globalFileTable f).offset → i ∈ seen

/-- A call of `ramfs_getdents64` lists the next children, and all the rest when it returns 0. -/
theorem Lists.list {fs₀ : Ramfs} {p : ℕ} {fd : ℤ} {f d : ℕ} {s : Sys} {seen : List ℕ}
    (h : Lists fs₀ p fd f d s seen) (dirp : ℕ → UInt8) {count : BitVec 32} (hc : 56 ≤ count.toInt) :
    ∃ (nread : ℕ) (buf : ℕ → UInt8) (fs' : Ramfs) (rs : List (ℕ × Ramfs.Dirent)) (new : List ℕ),
      s.fs.ramfsGetdents64 (s.pcb p) fd dirp count = some ((nread : ℤ), buf, fs')
        ∧ Ramfs.cmdLs buf nread nread 0 = some rs ∧ rs.map Prod.snd = new.map s.fs.direntOf
        ∧ (∀ r ∈ rs, Ramfs.Inside buf nread r) ∧ fs'.files = s.fs.files
        ∧ Lists fs₀ p fd f d (s.called p fs' (s.pcb p)) (seen ++ new)
        ∧ (s.fs.globalFileTable f).offset ≤ (fs'.globalFileTable f).offset
        ∧ (nread = 0 → (fs'.globalFileTable f).offset = maxFiles) := by
  obtain ⟨stop, last, buf, hcall, hl⟩ :=
    Ramfs.ramfsGetdents64_spec h.inv.fsOk h.fdFile h.node h.dir dirp count
  have hused : ∀ i ∈ s.fs.childrenIn d (s.fs.globalFileTable f).offset stop, s.fs.Used i :=
    fun i hi => (Ramfs.mem_childrenIn.mp hi).2.1
  obtain ⟨rs, hrs, hmap, hin⟩ := Ramfs.cmdLs_packed h.inv.fsOk.nodes hused hl.packed
    (by omega : last ≤ 0 + last)
  have hstep : s.step (p, .getdents64 fd dirp count) = some (s.called p
      (s.fs.setFile f { s.fs.globalFileTable f with offset := stop }) (s.pcb p)) := by
    simp only [step, if_pos h.runs, hcall, Option.map_some]
  have hoff : ((s.called p (s.fs.setFile f { s.fs.globalFileTable f with offset := stop })
      (s.pcb p)).fs.globalFileTable f).offset = stop := by
    simp [called, Ramfs.setFile]
  refine ⟨last, buf, _, rs, _, hcall, hrs, hmap, hin, rfl,
    ⟨step_inv _ _ _ h.inv hstep, ⟨h.runs.1, ?_⟩, ?_, ?_, h.dir, ?_, ?_, ?_, ?_⟩,
    hl.le.trans hoff.ge, fun h0 => hoff.trans ?_⟩
  · rw [called_pcb_self]
    exact h.runs.2
  · rw [called_pcb_self]
    exact h.fdFile
  · simpa [called, Ramfs.setFile] using h.node
  · exact fun i hi => ⟨(h.keeps i hi).used, (h.keeps i hi).type, (h.keeps i hi).parentIdx,
      (h.keeps i hi).inodeIdx, (h.keeps i hi).name, (h.keeps i hi).size⟩
  · refine h.nodup.append (Ramfs.childrenIn_nodup ..) fun i hi hi' => ?_
    have := (h.child i hi).2
    have := (Ramfs.mem_childrenIn.mp hi').1.1
    omega
  · intro i hi
    rw [hoff]
    rcases List.mem_append.mp hi with hi | hi
    · exact ⟨(h.child i hi).1, (h.child i hi).2.trans_le hl.le⟩
    · obtain ⟨hr, hch⟩ := Ramfs.mem_childrenIn.mp hi
      exact ⟨hch, hr.2⟩
  · intro i hi hlt
    rw [hoff] at hlt
    rcases Nat.lt_or_ge i (s.fs.globalFileTable f).offset with ho | ho
    · exact List.mem_append_left _ (h.all i hi ho)
    · exact List.mem_append_right _
        (Ramfs.mem_childrenIn.mpr ⟨⟨ho, hlt⟩, (h.keeps i hi.1).child hi⟩)
  · by_contra hne
    have hlt : stop < maxFiles := lt_of_le_of_ne hl.stop_le hne
    obtain ⟨hch, hfull⟩ := hl.full hlt
    have := (Ramfs.reclen_bounds (h.inv.fsOk.nodes stop hch.1).short).2
    omega

/-- What others make leaves the listing as it is. -/
theorem Lists.make {fs₀ : Ramfs} {p : ℕ} {fd : ℤ} {f d : ℕ} {s s' : Sys} {seen : List ℕ}
    (h : Lists fs₀ p fd f d s seen) {q : ℕ} {c : Ramfs.Call} (hm : c.Makes)
    (hstep : s.step (q, .call c) = some s') :
    Lists fs₀ p fd f d s' seen ∧ (∀ i, s.fs.Used i → Ramfs.Keeps s.fs s'.fs i)
      ∧ s'.fs.globalFileTable f = s.fs.globalFileTable f := by
  have hI' := step_inv _ _ _ h.inv hstep
  simp only [step] at hstep
  split_ifs at hstep with hq
  obtain ⟨⟨fs', cur'⟩, hp, rfl⟩ := Option.map_eq_some_iff.mp hstep
  have hcwd := h.inv.cwds q hq.1
  have hs := Ramfs.perform_step h.inv.fsOk hcwd hp
  have ho := Ramfs.perform_opens h.inv.fsOk hcwd hm hp
  have hkeep : ∀ i, s.fs.Used i → Ramfs.Keeps s.fs fs' i := fun i hi => hs.nodes.keeps hi
  have href : (s.fs.globalFileTable f).refCount ≠ 0 := by
    have := (h.inv.fds.opens p h.runs.1 fd.toNat f (Ramfs.fdFile_cases h.fdFile).2).2.2.1
    omega
  have htab : fs'.globalFileTable f = s.fs.globalFileTable f := ho.table_eq href
  have hd := (h.inv.fsOk.handles f d h.node).1
  refine ⟨⟨hI', called_runs hs h.runs, ?_, ?_, (hkeep d hd).type.trans h.dir, fun i hi => ?_,
    h.nodup, fun i hi => ⟨(hkeep i (h.child i hi).1.1).child (h.child i hi).1, ?_⟩,
    fun i hi hlt => ?_⟩, hkeep, htab⟩
  · rw [called_pcb]
    split_ifs with hpq
    · exact ho.fdFile (hpq ▸ h.fdFile)
    · exact h.fdFile
  · exact (congrArg File.node htab).trans h.node
  · exact (h.keeps i hi).trans (hkeep i (h.keeps i hi).used)
  · exact (h.child i hi).2.trans_eq (congrArg File.offset htab).symm
  · exact h.all i hi (hlt.trans_eq (congrArg File.offset htab))

/-- The walk of `cmd_ls` over each buffer gives the records, all inside the bytes returned. -/
def Decoded (outs : List (ℤ × (ℕ → UInt8))) (rss : List (List (ℕ × Ramfs.Dirent))) : Prop :=
  List.Forall₂ (fun out rs => ∃ nread : ℕ, out.1 = (nread : ℤ)
    ∧ Ramfs.cmdLs out.2 nread nread 0 = some rs ∧ ∀ r ∈ rs, Ramfs.Inside out.2 nread r) outs rss

theorem lsRun_lists {fs₀ : Ramfs} {p : ℕ} {fd : ℤ} {f d : ℕ} :
    ∀ (es : List LsEvent) {s s' : Sys} {seen : List ℕ} {outs : List (ℤ × (ℕ → UInt8))},
      Lists fs₀ p fd f d s seen → (∀ e ∈ es, e.Ok) → lsRun p fd s es = some (outs, s') →
        ∃ (rss : List (List (ℕ × Ramfs.Dirent))) (new : List ℕ), Decoded outs rss
          ∧ (rss.flatten.map Prod.snd) = new.map s'.fs.direntOf
          ∧ Lists fs₀ p fd f d s' (seen ++ new) ∧ (∀ i, s.fs.Used i → Ramfs.Keeps s.fs s'.fs i)
          ∧ (s.fs.globalFileTable f).offset ≤ (s'.fs.globalFileTable f).offset
          ∧ ((∃ buf, ((0 : ℤ), buf) ∈ outs) → (s'.fs.globalFileTable f).offset = maxFiles)
  | [], s, s', seen, outs, h, _, hrun => by
    simp only [lsRun, Option.some.injEq, Prod.mk.injEq] at hrun
    obtain ⟨rfl, rfl⟩ := hrun
    exact ⟨[], [], .nil, rfl, by simpa using h,
      fun i hi => ⟨hi, rfl, rfl, rfl, rfl, le_rfl⟩, le_rfl, by simp⟩
  | .list dirp count :: es, s, s', seen, outs, h, hok, hrun => by
    obtain ⟨nread, buf, fs', rs, new, hcall, hrs, hmap, hin, hfiles, h', hoff, hend⟩ :=
      h.list dirp (hok _ List.mem_cons_self)
    rw [lsRun, hcall, Option.bind_some] at hrun
    obtain ⟨⟨outs', s₂⟩, hrun', he⟩ := Option.map_eq_some_iff.mp hrun
    simp only [Prod.mk.injEq] at he
    obtain ⟨rfl, rfl⟩ := he
    obtain ⟨rss, new', hdec, hmap', h'', hkeep, hoff', hend'⟩ :=
      lsRun_lists es h' (fun e he => hok e (List.mem_cons_of_mem _ he)) hrun'
    have hkeep' : ∀ i, s.fs.Used i → Ramfs.Keeps s.fs s₂.fs i := by
      intro i hi
      have hi' : fs'.Used i := by simpa [Ramfs.Used, hfiles] using hi
      have hself : Ramfs.Keeps s.fs fs' i := by
        refine ⟨hi', ?_, ?_, ?_, ?_, ?_⟩ <;> simp [hfiles]
      exact hself.trans (hkeep i hi')
    refine ⟨rs :: rss, new ++ new', .cons ⟨nread, rfl, hrs, hin⟩ hdec, ?_, by simpa using h'',
      hkeep', hoff.trans hoff', fun hz => ?_⟩
    · rw [List.flatten_cons, List.map_append, List.map_append, hmap, hmap']
      congr 1
      refine List.map_congr_left fun i hi => ?_
      have hused := (h'.child i (List.mem_append_right _ hi)).1.1
      exact (hkeep' i (by simpa [Ramfs.Used, called, hfiles] using hused)).direntOf.symm
    · obtain ⟨b, hb⟩ := hz
      rcases List.mem_cons.mp hb with hb | hb
      · have h0 : nread = 0 := by
          have := (Prod.mk.inj hb).1
          omega
        have hmax := (h''.inv.fsOk.handles f d h''.node).2
        rw [Ramfs.offsetBound, if_pos h''.dir] at hmax
        exact le_antisymm hmax ((hend h0).ge.trans hoff')
      · exact hend' ⟨b, hb⟩
  | .make q c :: es, s, s', seen, outs, h, hok, hrun => by
    rw [lsRun] at hrun
    obtain ⟨s₁, hstep, hrun'⟩ := Option.bind_eq_some_iff.mp hrun
    obtain ⟨h', hkeep, htab⟩ := h.make (hok _ List.mem_cons_self) hstep
    obtain ⟨rss, new, hdec, hmap, h'', hkeep', hoff, hend⟩ :=
      lsRun_lists es h' (fun e he => hok e (List.mem_cons_of_mem _ he)) hrun'
    rw [htab] at hoff
    exact ⟨rss, new, hdec, hmap, h'', fun i hi => (hkeep i hi).trans (hkeep' i (hkeep i hi).used),
      hoff, hend⟩

/-- Calls of `ramfs_getdents64` on a freshly opened directory, until one returns 0, list every child
the directory had when it was opened, each once and with its own number, type and name, and no other
inode than children of the directory. -/
theorem listing_exact (s₀ : Sched) (idle : ℕ) (ops : List (ℕ × SysOp)) {s₁ : Sched}
    {s : Sys} (hinit : s₀.procInit idle = some s₁) (h : Run.run step (start s₁) ops = some s)
    {p : ℕ} (hp : s.Runs p) {path : Option (List UInt8)} {flags : BitVec 32} {page : Bool} {fd : ℤ}
    {fs' : Ramfs} {cur' : Pcb}
    (hopen : s.fs.ramfsOpen (s.pcb p) path flags page = some (fd, fs', cur')) (hfd : 0 ≤ fd)
    {f d : ℕ}
    (hf : Ramfs.fdFile cur' fd = some f) (hnode : (fs'.globalFileTable f).node = some d)
    (hdir : (fs'.files d).type = .dir) (es : List LsEvent) (hes : ∀ e ∈ es, e.Ok)
    {outs : List (ℤ × (ℕ → UInt8))} {last : ℕ → UInt8} {s' : Sys}
    (hrun : lsRun p fd (s.called p fs' cur') es = some (outs ++ [(0, last)], s')) :
    ∃ (rss : List (List (ℕ × Ramfs.Dirent))) (is : List ℕ), Decoded (outs ++ [(0, last)]) rss
      ∧ rss.flatten.map Prod.snd = is.map s'.fs.direntOf ∧ is.Nodup
      ∧ (∀ i ∈ is, s'.fs.Child d i) ∧ ∀ i, fs'.Child d i → i ∈ is := by
  have hI : SysInv s := Run.run_invariant step_inv (start_inv hinit) h
  have hcwd := hI.cwds p hp.1
  have hI' : SysInv (s.called p fs' cur') := called_inv hI hp.1
    (Ramfs.ramfsOpen_step hI.fsOk hcwd hopen) (Ramfs.ramfsOpen_ok hI.fsOk.toTreeInv hcwd hopen)
  obtain ⟨g, n, hfree, htab, hfds⟩ := (Ramfs.ramfsOpen_opens hI.fsOk hcwd hopen).2.2.2 hfd
  have hgf : f = g := by
    have hk := (Ramfs.freeFd_cases hfree).2.1
    have := (Ramfs.fdFile_cases hf).2
    rw [hfds, getD_set (by rw [hI.fdLen p hp.1]; exact hk), if_pos rfl] at this
    exact (Option.some.inj this).symm
  have hoff : (fs'.globalFileTable f).offset = 0 := by rw [hgf, htab]
  have hpcb : (s.called p fs' cur').pcb p = cur' := by rw [called_pcb, if_pos rfl]
  have hstart : Lists fs' p fd f d (s.called p fs' cur') [] := by
    refine ⟨hI', called_runs (Ramfs.ramfsOpen_step hI.fsOk hcwd hopen) hp, ?_, hnode, hdir,
      fun i hi => ⟨hi, rfl, rfl, rfl, rfl, le_rfl⟩, List.nodup_nil, by simp, fun i _ hlt => ?_⟩
    · rw [hpcb]
      exact hf
    · exact absurd (hlt.trans_eq hoff) (Nat.not_lt_zero i)
  obtain ⟨rss, is, hdec, hmap, hl, -, -, hend⟩ := lsRun_lists es hstart hes hrun
  have hlast := hend ⟨last, by simp⟩
  refine ⟨rss, is, hdec, hmap, hl.nodup, fun i hi => (hl.child i hi).1, fun i hi => ?_⟩
  exact hl.all i hi (hi.1.1.trans_eq hlast.symm)

/-- A process lists a directory in small pieces while another makes a directory in it. -/
def usrListing : List LsEvent :=
  [.list (fun _ => 0) 72#32, .make 1 (.mkdir (some (ascii "/usr/x"))), .list (fun _ => 1) 72#32,
    .list (fun _ => 2) 72#32, .list (fun _ => 3) 56#32]

theorem listing_exact_usrListing :
    ∃ s₁ s fs' cur' s' outs last, Sched.boot.procInit 1 = some s₁
      ∧ Run.run step (start s₁) [(1, .createUserProcess [] (ProcSys.attemptAt 2))] = some s
      ∧ s.fs.ramfsOpen (s.pcb 2) (some (ascii "/usr")) 0#32 true = some (3, fs', cur')
      ∧ lsRun 2 3 (s.called 2 fs' cur') usrListing = some (outs ++ [((0 : ℤ), last)], s')
      ∧ outs.map Prod.fst = [64, 72, 32]
      ∧ ∃ (rss : List (List (ℕ × Ramfs.Dirent))) (is : List ℕ), Decoded (outs ++ [(0, last)]) rss
        ∧ rss.flatten.map Prod.snd = is.map s'.fs.direntOf ∧ is.Nodup
        ∧ (∀ i ∈ is, s'.fs.Child 2 i) ∧ ∀ i, fs'.Child 2 i → i ∈ is := by
  have h : ((Sched.boot.procInit 1).bind fun s => Run.run step (start s)
      [(1, .createUserProcess [] (ProcSys.attemptAt 2))]).bind (fun s =>
        (s.fs.ramfsOpen (s.pcb 2) (some (ascii "/usr")) 0#32 true).bind fun r =>
          (lsRun 2 3 (s.called 2 r.2.1 r.2.2) usrListing).map fun t =>
            (decide (s.Runs 2 ∧ (r.2.1.files 2).type = .dir), r.1, Ramfs.fdFile r.2.2 3,
              (r.2.1.globalFileTable 0).node, t.1.map Prod.fst))
      = some (true, 3, some 0, some 2, [64, 72, 32] ++ [0]) := by
    decide +kernel
  obtain ⟨s, hs, h⟩ := Option.bind_eq_some_iff.mp h
  obtain ⟨s₁, h₁, hr⟩ := Option.bind_eq_some_iff.mp hs
  obtain ⟨⟨fd, fs', cur'⟩, hopen, h⟩ := Option.bind_eq_some_iff.mp h
  obtain ⟨⟨all, s'⟩, hrun, h⟩ := Option.map_eq_some_iff.mp h
  simp only [Prod.mk.injEq, decide_eq_true_eq] at h
  obtain ⟨⟨hp, hdir⟩, rfl, hf, hn, hall⟩ := h
  obtain ⟨outs, rest, rfl, houts, hrest⟩ := List.map_eq_append_iff.mp hall
  obtain ⟨⟨ret, last⟩, rfl, hret⟩ := List.map_eq_singleton_iff.mp hrest
  obtain rfl : ret = 0 := hret
  have hes : ∀ e ∈ usrListing, e.Ok := by
    simp only [usrListing, List.mem_cons, List.not_mem_nil, or_false, forall_eq_or_imp, forall_eq,
      LsEvent.Ok, Ramfs.Call.Makes]
    decide
  exact ⟨s₁, s, fs', cur', s', outs, last, h₁, hr, hopen, hrun, houts,
    listing_exact Sched.boot 1 _ h₁ hr hp hopen (by decide) hf hn hdir usrListing hes hrun⟩

end Sys

end SudoOS
