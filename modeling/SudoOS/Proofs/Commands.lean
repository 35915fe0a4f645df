import SudoOS.Proofs.Cwd
import SudoOS.Proofs.Names
import SudoOS.Proofs.Session

/-!
# The commands one by one

The loops of `cat` and `ls` come to the end of the open file and print what is in it
(`catLoop_spec`, `lsLoop_spec`). Every command whose paths fit the buffers of `resolve_path` comes
to its end, with its descriptor closed (`command_ends`).
-/

namespace SudoOS

namespace Ramfs

/-! ## Opening again -/

section Open

variable {fs fs' : Ramfs} {cur cur' : Pcb} (hok : CallerOk fs cur) {path : Option (List UInt8)}
  {flags : BitVec 32} {mem : Bool} {fd : ℤ}

/-- What an open that succeeds leaves: the path leads to inode `n`, which is as it was or new. -/
structure Found (fs fs' : Ramfs) (cur cur' : Pcb) (path : Option (List UInt8)) (fd : ℤ) (f n : ℕ) :
    Prop where
  opened : Opened fs fs' cur cur' fd f n
  handle : f < maxSystemOpenFiles
  offset : (fs'.globalFileTable f).offset = 0
  path : ∃ r, fs'.resolvePath cur.cwdInode true path = some r ∧ r.inode = n
  caller : cur' = { cur with fdTable := cur'.fdTable }
  node : fs'.files n = fs.files n ∨ ¬ fs.Used n ∧ (fs'.files n).type = .file
    ∧ (fs'.files n).size = 0
    ∧ (fs'.files n).content = some (List.replicate 4096 0)
  others : ∀ m, m ≠ n → fs'.files m = fs.files m

include hok in
theorem ramfsOpen_leads (h : fs.ramfsOpen cur path flags mem = some (fd, fs', cur'))
    (hfd : 0 ≤ fd) : ∃ f n, Found fs fs' cur cur' path fd f n := by
  obtain ⟨r, hr, hends⟩ := ramfsOpen_ends h
  cases hends with
  | noInode hn => exact absurd hfd (by decide)
  | noFile m _ hm hf => exact absurd hfd (by decide)
  | noFd m g fs₁ fs₂ hm hg hi => exact absurd hfd (by decide)
  | opened n f i fs₁ fs₂ hn hf hi =>
    obtain ⟨hlt, hfree, -⟩ := allocFileHandle_cases hf
    have hres := resolvePath_ok hok.fsOk.toTreeInv hok.cwd true hr
    have htab := (openInode_step hres (resolvePath_name hr) hn).2.1
    rw [htab] at hfree
    have hopened : Opened fs (fs₁.setFile f ⟨some n, 0, 1⟩) cur
        { cur with fdTable := cur.fdTable.set i (some f) } i f n := by
      refine ⟨⟨hi, by omega⟩, hfree, fun g hg => ?_, ?_, rfl⟩
      · simp [setFile, hg, htab]
      · simp [setFile]
    refine ⟨f, n, hopened, hlt, by simp [setFile], ?_, rfl, ?_, ?_⟩
    · rcases openInode_cases hn with ⟨hfound, rfl, rfl⟩ | ⟨hmiss, -, hcr⟩
      · obtain ⟨j, hj, -⟩ := hres.found hfound
        have hsame : SameTree fs₁ (fs₁.setFile f ⟨some r.inode.toNat, 0, 1⟩) := .rfl_of_files rfl
        exact ⟨r, (hsame.resolvePath ..).trans hr, by rw [hj, Int.toNat_natCast]⟩
      · obtain ⟨ha, hp, hk⟩ := createInode_adds hcr
        have hmade := madeAt_of_adds hok.fsOk.toTreeInv
          (ramfsOpen_ok hok.fsOk.toTreeInv hok.cwd h).tree hok.cwd hr hmiss hp
          ⟨ha.fresh, ha.used, ha.others⟩ hk
        obtain ⟨r', hr', hi'⟩ := Option.map_eq_some_iff.mp (hmade.found true)
        exact ⟨r', hr', hi'⟩
    · rcases openInode_cases hn with ⟨-, -, rfl⟩ | ⟨-, -, hcr⟩
      · exact .inl rfl
      · obtain ⟨ha, -, hk⟩ := createInode_adds hcr
        exact .inr ⟨ha.fresh.2, congrArg RamfsNode.type hk, congrArg RamfsNode.size hk,
          congrArg RamfsNode.content hk⟩
    · rcases openInode_cases hn with ⟨-, -, rfl⟩ | ⟨-, -, hcr⟩
      · exact fun m _ => rfl
      · exact (createInode_adds hcr).1.others

omit hok in
/-- An open of a path that leads to an inode succeeds as long as a descriptor and an open file are
free. -/
theorem ramfsOpen_reopens {r : Resolved} {n k f : ℕ} {fs₁ : Ramfs}
    (hr : fs.resolvePath cur.cwdInode true path = some r) (hi : r.inode = n)
    (hk : freeFd cur = some k) (hf : fs.allocFileHandle = some (f, fs₁)) :
    fs.ramfsOpen cur path flags mem
      = some ((k : ℤ), fs.setFile f ⟨some n, 0, 1⟩,
        { cur with fdTable := cur.fdTable.set k (some f) }) := by
  obtain ⟨-, -, rfl⟩ := allocFileHandle_cases hf
  have hopen : fs.openInode r flags = some (n, fs) := by
    unfold openInode
    rw [if_pos (by omega), hi, Int.toNat_natCast]
  unfold ramfsOpen openFile
  rw [hr, Option.bind_some, hopen]
  dsimp only
  rw [if_neg (by omega)]
  simp only [hf, hk, setFile_self, setFile_setFile]

end Open

end Ramfs

namespace Session

/-! ## Loops over an open file -/

/-- What `cat` prints of some bytes: it takes 127 at a time and stops at a NUL among them. -/
def catText (bytes : List UInt8) : List UInt8 :=
  if bytes = [] then [] else cstr (bytes.take 127 ++ [0]) 0 ++ catText (bytes.drop 127)
termination_by bytes.length
decreasing_by
  rw [List.length_drop]
  have := List.length_pos_of_ne_nil ‹_›
  omega

theorem printf_s (s : Session) (text : List UInt8) :
    s.printf "%s" [.str (some text)] = some (s.shows text) := by
  have h : s.printf "%s" [.str (some text)] = some (s.shows ([] ++ text ++ [])) :=
    printf_str [] [] rfl (by decide) (by decide) text
  rwa [List.nil_append, List.append_nil] at h

/-- A file has at most a page of bytes. -/
theorem length_fileBytes {fs : Ramfs} (hI : Ramfs.FsOk fs) {f n : ℕ}
    (hn : (fs.globalFileTable f).node = some n) : (fs.fileBytes n).length ≤ 4096 := by
  have hsize := (hI.nodes n (hI.handles f n hn).1).size_le
  unfold Ramfs.fileBytes
  split_ifs
  · exact Nat.zero_le _
  · rw [List.length_take]
    omega

/-- The bytes of an open file from its offset on. -/
def unread (s : Session) (f n : ℕ) : List UInt8 :=
  (s.fs.fileBytes n).drop (s.fs.globalFileTable f).offset

theorem drop_length_take (l : List UInt8) (k : ℕ) : l.drop (l.take k).length = l.drop k := by
  rw [List.length_take]
  rcases Nat.le_total k l.length with h | h
  · rw [Nat.min_eq_left h]
  · rw [Nat.min_eq_right h, List.drop_length, List.drop_eq_nil_of_le h]

/-- One read of `cat`. -/
theorem read_next {s₀ s : Session} (hlen : s₀.cur.fdTable.length = maxFd) {fd : ℤ} {f n : ℕ}
    (hok : s.Ok) (ho : Opened s₀ s fd f n) (hdir : (s.fs.files n).type ≠ .dir) :
    ∃ s₁ : Session, s.read fd 127
        = some ((((s.unread f n).take 127).length : ℤ), (s.unread f n).take 127, s₁)
      ∧ Calls s s₁ ∧ Opened s₀ s₁ fd f n ∧ s₁.fs.files = s.fs.files ∧ s₁.cur = s.cur
      ∧ s₁.dev = s.dev ∧ s₁.unread f n = (s.unread f n).drop 127 := by
  have h127 : (127 : BitVec 32).toInt.toNat = 127 := by decide
  have hread := Ramfs.ramfsRead_bytes hok ho hlen hdir (show 0 ≤ (127 : BitVec 32).toInt by decide)
    rfl
  obtain ⟨_, _, fs', hread', hcall, ho', hfiles⟩ := Ramfs.ramfsRead_opened hok ho hlen 127
  have heq := hread.symm.trans hread'
  simp only [Option.some.injEq, Prod.mk.injEq] at heq
  obtain ⟨-, -, hfs⟩ := heq
  rw [h127] at hread hfs
  refine ⟨{ s with fs := fs' }, ?_, .single hcall, ho', hfiles, rfl, rfl, ?_⟩
  · have hcount : ((s.unread f n).take 127).length ≤ 127 := by
      rw [List.length_take]
      omega
    rw [read_file ho.bounds, hread, Option.map_some, hfs]
    change some ((BitVec.ofInt 32 (((s.unread f n).take 127).length : ℤ)).toInt, _, _) = _
    rw [toInt_ofInt (by omega)]
    rfl
  · have hbytes : fs'.fileBytes n = s.fs.fileBytes n := by
      unfold Ramfs.fileBytes
      rw [hfiles]
    change (fs'.fileBytes n).drop (fs'.globalFileTable f).offset = _
    rw [hbytes, ← hfs, Ramfs.setFile_self, ← List.drop_drop]
    exact drop_length_take _ _

/-- The rest of the file is printed. -/
theorem catLoop_spec {s₀ : Session} (hlen : s₀.cur.fdTable.length = maxFd) {fd : ℤ} {f n : ℕ} :
    ∀ (fuel : ℕ) {s : Session}, s.Ok → Opened s₀ s fd f n → (s.unread f n).length < fuel →
      ∃ s', catLoop fd fuel s = some s' ∧ Calls s s' ∧ Opened s₀ s' fd f n
        ∧ s'.fs.files = s.fs.files ∧ s'.cur = s.cur
        ∧ s'.dev = (s.shows (catText (s.unread f n))).dev
  | 0, _, _, _, hfuel => absurd hfuel (by omega)
  | fuel + 1, s, hok, ho, hfuel => by
    unfold catLoop
    by_cases hdir : (s.fs.files n).type = .dir
    · have hread : s.fs.ramfsRead s.cur fd 127 = some (-1, [], s.fs) := by
        simp [Ramfs.ramfsRead, ho.fdFile hlen, ho.node, hdir]
      have hnil : s.unread f n = [] := by
        simp [unread, Ramfs.fileBytes, hdir]
      refine ⟨s, ?_, .refl, ho, rfl, rfl, ?_⟩
      · rw [read_file ho.bounds, hread]
        rfl
      · rw [hnil, catText]
        rfl
    · obtain ⟨s₁, hread, hcalls, ho₁, hfiles, hcur, hdev, hrest⟩ := read_next hlen hok ho hdir
      rw [hread, Option.bind_some]
      dsimp only
      by_cases hnil : s.unread f n = []
      · refine ⟨s₁, by rw [hnil]; rfl, hcalls, ho₁, hfiles, hcur, ?_⟩
        rw [hdev, hnil, catText]
        rfl
      · have hpos := List.length_pos_of_ne_nil hnil
        have hstep : (((s.unread f n).take 127).length : ℤ) > 0 := by
          rw [List.length_take]
          omega
        obtain ⟨s', hrun, hcalls', ho', hfiles', hcur', hdev'⟩ := catLoop_spec hlen fuel
          (s := s₁.shows (cstr ((s.unread f n).take 127 ++ [0]) 0)) (Ramfs.Calls.ok hcalls hok) ho₁
          (by change (s₁.unread f n).length < fuel; rw [hrest, List.length_drop]; omega)
        refine ⟨s', ?_, hcalls.trans hcalls', ho', hfiles'.trans hfiles, hcur'.trans hcur, ?_⟩
        · rw [if_pos hstep, printf_s, Option.bind_some]
          exact hrun
        · rw [hdev']
          change ((s₁.shows _).shows (catText (s₁.unread f n))).dev = _
          conv_rhs => rw [catText, if_neg hnil]
          rw [shows_shows, hrest]
          unfold shows
          rw [hdev]

/-! ### Listing -/

/-- What `ls` prints of an inode. -/
def entryText (fs : Ramfs) (i : ℕ) : List UInt8 :=
  if (fs.files i).type = .dir then ascii "[" ++ (fs.files i).name ++ ascii "]  "
  else (fs.files i).name ++ ascii "  "

theorem printDirent_eq (s : Session) (fs : Ramfs) (i : ℕ) :
    s.printDirent (fs.direntOf i) = some (s.shows (entryText fs i)) := by
  unfold printDirent entryText Ramfs.direntOf
  by_cases hdir : (fs.files i).type = .dir
  · simp only [hdir, if_true]
    exact printf_str (ascii "[") (ascii "]  ") rfl (by decide) (by decide) _
  · have h : s.printf "%s  " [.str (some (fs.files i).name)]
        = some (s.shows ([] ++ (fs.files i).name ++ ascii "  ")) :=
      printf_str [] _ rfl (by decide) (by decide) _
    simpa only [hdir, if_false, show ¬ (8 : ℕ) = 4 by omega, List.nil_append] using h

theorem printDirents_eq (fs : Ramfs) : ∀ (is : List ℕ) (s : Session),
    (is.map fs.direntOf).foldlM printDirent s = some (s.shows (is.flatMap (entryText fs)))
  | [], s => rfl
  | i :: is, s => by
    rw [List.map_cons, List.foldlM_cons, printDirent_eq, List.flatMap_cons, ← shows_shows]
    exact printDirents_eq fs is _

end Session

namespace Ramfs

theorem childrenIn_append (fs : Ramfs) (d : ℕ) {lo mid hi : ℕ} (h : lo ≤ mid) (h' : mid ≤ hi) :
    fs.childrenIn d lo hi = fs.childrenIn d lo mid ++ fs.childrenIn d mid hi := by
  induction mid, h using Nat.le_induction with
  | base => rw [Ramfs.childrenIn_self, List.nil_append]
  | succ mid hle ih =>
    have hlast : fs.childrenIn d lo (mid + 1)
        = fs.childrenIn d lo mid ++ if fs.Child d mid then [mid] else [] := by
      have hsub : mid + 1 - lo = mid - lo + 1 := by omega
      simp only [Ramfs.childrenIn, hsub, List.range'_concat, List.filter_append, one_mul,
        show lo + (mid - lo) = mid by omega, List.filter_cons, List.filter_nil, decide_eq_true_eq]
    have hnext : fs.childrenIn d mid hi
        = (if fs.Child d mid then [mid] else []) ++ fs.childrenIn d (mid + 1) hi := by
      rw [childrenIn_succ fs d (by omega)]
      split_ifs <;> rfl
    rw [ih (by omega), hlast, hnext, List.append_assoc]

theorem packed_pos {fs : Ramfs} (hok : ∀ i, fs.Used i → NodeOk (fs.files i)) {d lo hi last : ℕ}
    {buf : ℕ → UInt8} (h : Packed fs buf 0 (fs.childrenIn d lo hi) last)
    (hne : fs.childrenIn d lo hi ≠ []) : 0 < last := by
  obtain ⟨i, is, his⟩ := List.exists_cons_of_ne_nil hne
  have hi : i ∈ fs.childrenIn d lo hi := by
    rw [his]
    exact List.mem_cons_self
  rw [his] at h
  have hle := h.2.le
  have hlo := (reclen_bounds (hok i (mem_childrenIn.mp hi).2.1).short).1
  omega

end Ramfs

namespace Session

/-- One round of `ls` over the records of a call. -/
theorem printDirents_packed {s₀ : Session} {n lo hi last : ℕ} {buf : ℕ → UInt8}
    (hok : ∀ i, s₀.fs.Used i → Ramfs.NodeOk (s₀.fs.files i))
    (h : Ramfs.Packed s₀.fs buf 0 (s₀.fs.childrenIn n lo hi) last) (s : Session) :
    ∃ ds, Ramfs.cmdLs buf last last 0 = some ds ∧ ds.length = (s₀.fs.childrenIn n lo hi).length
      ∧ ds.foldlM (fun s d => printDirent s d.2) s
        = some (s.shows ((s₀.fs.childrenIn n lo hi).flatMap (entryText s₀.fs))) := by
  obtain ⟨ds, hds, hmap, -⟩ := Ramfs.cmdLs_packed hok
    (fun i hi => (Ramfs.mem_childrenIn.mp hi).2.1) h (by omega : last ≤ 0 + last)
  refine ⟨ds, hds, ?_, ?_⟩
  · rw [← List.length_map Prod.snd, hmap, List.length_map]
  · rw [← printDirents_eq, ← hmap, List.foldlM_map]

theorem childrenIn_congr {fs fs' : Ramfs} (h : fs'.files = fs.files) (d lo hi : ℕ) :
    fs'.childrenIn d lo hi = fs.childrenIn d lo hi := by
  unfold Ramfs.childrenIn
  congr 1
  funext i
  exact decide_eq_decide.mpr (by simp only [Ramfs.Child, Ramfs.Used, h])

/-- What is no directory has nothing to list. -/
theorem lsLoop_file {s₀ s : Session} (hlen : s₀.cur.fdTable.length = maxFd) {fd : ℤ} {f n : ℕ}
    (ho : Opened s₀ s fd f n) (hfile : (s.fs.files n).type ≠ .dir) (fuel : ℕ) (buf : ℕ → UInt8) :
    lsLoop fd (fuel + 1) s buf 0 = some (s, 0) := by
  have hcall : s.fs.ramfsGetdents64 s.cur fd buf 1024 = some (-1, buf, s.fs) := by
    simp [Ramfs.ramfsGetdents64, ho.fdFile hlen, ho.node, hfile]
  rw [lsLoop, getdents64, hcall]
  rfl

/-- The rest of the directory is printed. -/
theorem lsLoop_spec {s₀ : Session} (hlen : s₀.cur.fdTable.length = maxFd) {fd : ℤ} {f n : ℕ} :
    ∀ (fuel : ℕ) {s : Session} (buf : ℕ → UInt8) (count : ℕ), s.Ok → Opened s₀ s fd f n →
      (s.fs.files n).type = .dir → maxFiles - (s.fs.globalFileTable f).offset < fuel →
      ∃ s', lsLoop fd fuel s buf count = some (s', count
          + (s.fs.childrenIn n (s.fs.globalFileTable f).offset maxFiles).length)
        ∧ Calls s s' ∧ Opened s₀ s' fd f n ∧ s'.fs.files = s.fs.files ∧ s'.cur = s.cur
        ∧ s'.dev = (s.shows ((s.fs.childrenIn n (s.fs.globalFileTable f).offset maxFiles).flatMap
          (entryText s.fs))).dev
  | 0, _, _, _, _, _, _, hfuel => absurd hfuel (by omega)
  | fuel + 1, s, buf, count, hok, ho, hdir, hfuel => by
    obtain ⟨stop, last, buf', hcall, hl⟩ :=
      Ramfs.ramfsGetdents64_spec hok.fsOk (ho.fdFile hlen) ho.node hdir buf 1024
    have hsplit := Ramfs.childrenIn_append s.fs n hl.le hl.stop_le
    obtain ⟨s₁, hs₁⟩ : ∃ s₁ : Session, s₁ = { s with
      fs := s.fs.setFile f { s.fs.globalFileTable f with offset := stop } } := ⟨_, rfl⟩
    have hnext : s.getdents64 fd buf 1024 = some ((last : ℤ), buf', s₁) := by
      rw [getdents64, hcall, hs₁]
      rfl
    have hcalls : Calls s s₁ := by
      rw [hs₁]
      exact .single (.getdents64 _ _ _ _ _ hcall)
    have ho₁ : Opened s₀ s₁ fd f n := by
      rw [hs₁]
      exact ho.moves ⟨stop, rfl⟩
    have hoff₁ : (s₁.fs.globalFileTable f).offset = stop := by
      rw [hs₁]
      simp [Ramfs.setFile]
    have hfiles : s₁.fs.files = s.fs.files := by rw [hs₁]; rfl
    have hcur : s₁.cur = s.cur := by rw [hs₁]
    have hdev : s₁.dev = s.dev := by rw [hs₁]
    have hchild : ∀ lo, s₁.fs.childrenIn n lo maxFiles = s.fs.childrenIn n lo maxFiles :=
      fun lo => childrenIn_congr hfiles n lo maxFiles
    have hentry : entryText s₁.fs = entryText s.fs := by
      funext i
      simp only [entryText, hfiles]
    unfold lsLoop
    rw [hnext, Option.bind_some]
    dsimp only
    by_cases hnil : s.fs.childrenIn n (s.fs.globalFileTable f).offset stop = []
    · -- nothing fits, so nothing is left
      have hlast : last = 0 := by
        have hpack := hl.packed
        rw [hnil] at hpack
        exact hpack.symm
      have hend : stop = maxFiles := by
        by_contra hne
        obtain ⟨hch, hfull⟩ := hl.full (lt_of_le_of_ne hl.stop_le hne)
        have h56 := (Ramfs.reclen_bounds (hok.fsOk.nodes stop hch.1).short).2
        have h1024 : (1024 : BitVec 32).toInt = 1024 := by decide
        omega
      rw [hend, Ramfs.childrenIn_self, List.append_nil] at hsplit
      rw [hend] at hnil
      refine ⟨s₁, ?_, hcalls, ho₁, hfiles, hcur, ?_⟩
      · rw [if_neg (by omega), hnil]
        rfl
      · rw [hdev, hnil]
        rfl
    · have hpos := Ramfs.packed_pos hok.fsOk.nodes hl.packed hnil
      have hlt : (s.fs.globalFileTable f).offset < stop := by
        refine lt_of_le_of_ne hl.le fun he => hnil ?_
        rw [← he, Ramfs.childrenIn_self]
      obtain ⟨ds, hds, hcount, hprint⟩ := printDirents_packed hok.fsOk.nodes hl.packed s₁
      obtain ⟨s', hrun, hcalls', ho', hfiles', hcur', hdev'⟩ := lsLoop_spec hlen fuel
        (s := s₁.shows ((s.fs.childrenIn n (s.fs.globalFileTable f).offset stop).flatMap
          (entryText s.fs))) buf' (count + ds.length) (Ramfs.Calls.ok hcalls hok) ho₁
        (by rw [shows_fs, hfiles]; exact hdir)
        (by have := hl.stop_le; rw [shows_fs, hoff₁]; omega)
      rw [shows_fs, hoff₁, hchild] at hrun hdev'
      rw [hentry, shows_shows, ← List.flatMap_append, ← hsplit] at hdev'
      refine ⟨s', ?_, hcalls.trans hcalls', ho', hfiles'.trans hfiles, hcur'.trans hcur, ?_⟩
      · rw [if_pos (by omega), Int.toNat_natCast, hds, Option.bind_some, hprint, Option.bind_some,
          hrun, hcount, hsplit, List.length_append, Nat.add_assoc]
      · rw [hdev']
        unfold shows
        rw [hdev]

/-! ## The end of a command -/

/-- A command comes to its end. -/
def Ends (s : Session) (o : Option Session) : Prop := ∃ s', o = some s' ∧ Ran s s'

theorem ends_shows (s : Session) (text : List UInt8) : Ends s (some (s.shows text)) :=
  ⟨_, rfl, ran_shows s text⟩

theorem ends_self (s : Session) : Ends s (some s) := ⟨s, rfl, .refl s⟩

theorem Ends.of_ran {s s₁ : Session} {o : Option Session} (h : Ran s s₁) (h' : Ends s₁ o) :
    Ends s o := by
  obtain ⟨s', hs', hran⟩ := h'
  exact ⟨s', hs', h.trans hran⟩

/-- A command comes to its end if `P`, and whenever it does, it leaves things in order. -/
def EndsIf (P : Prop) (s : Session) (o : Option Session) : Prop :=
  (P → o.isSome) ∧ ∀ s' ∈ o, Ran s s'

theorem Ends.endsIf {s : Session} {o : Option Session} (h : Ends s o) (P : Prop) :
    EndsIf P s o := by
  obtain ⟨s', rfl, hran⟩ := h
  exact ⟨fun _ => rfl, fun t ht => Option.some.inj ht ▸ hran⟩

theorem EndsIf.mono {P Q : Prop} {s : Session} {o : Option Session} (h : EndsIf P s o)
    (hq : Q → P) : EndsIf Q s o := ⟨fun q => h.1 (hq q), h.2⟩

/-- A command that opens a file first. -/
theorem EndsIf.open {s : Session} (hok : s.Ok) {path : Option (List UInt8)} (hp : ShortArg path)
    {e : Env} {f : ℤ × Session → Option Session}
    (h : ∀ fd s₁, s.open path oCreat e.mem = some (fd, s₁) → Ends s (f (fd, s₁))) :
    EndsIf (e.mem = true) s ((s.open path oCreat e.mem).bind f) := by
  constructor
  · intro hmem
    obtain ⟨⟨fd, s₁⟩, hopen⟩ := Option.isSome_iff_exists.mp (open_isSome hok hp oCreat (.inr hmem))
    rw [hopen, Option.bind_some]
    exact ((h fd s₁ hopen).endsIf True).1 trivial
  · intro s' hs'
    obtain ⟨⟨fd, s₁⟩, hopen, hs'⟩ := Option.bind_eq_some_iff.mp hs'
    exact ((h fd s₁ hopen).endsIf True).2 s' hs'

/-- A loop that prints over an open file, and the close behind it. -/
theorem Opened.ran {s s₁ s₂ : Session} (hlen : s.cur.fdTable.length = maxFd) {fd : ℤ} {f n : ℕ}
    (hcalls : Calls s s₁) (hcalls' : Calls s₁ s₂) (ho : Opened s s₂ fd f n)
    (hkeys : s₂.dev.keyboard = s.dev.keyboard) : Ran s (s₂.close fd) :=
  ⟨(hcalls.trans hcalls').trans (close_calls s₂ fd), ho.close hlen, hkeys⟩

/-! ## Single commands -/

theorem shortArg_some (path : List UInt8) (h : (cstr (path ++ [0]) 0).length ≤ 31) :
    ShortArg (some path) := by
  intro p hp
  obtain rfl := Option.some.inj hp
  exact ⟨by omega, fun run hrun _ => hrun.length_le.trans h⟩

theorem ShortArg.getD {path : Option (List UInt8)} (h : ShortArg path) {other : List UInt8}
    (ho : ShortArg (some other)) : ShortArg (some (path.getD other)) := by
  rcases path with _ | path
  · exact ho
  · exact h

section Commands

variable {s : Session} (hok : s.Ok) (e : Env) {path : Option (List UInt8)} (hp : ShortArg path)

/-- The path of the working directory. -/
def cwdPath (s : Session) : List UInt8 := s.fs.absPath s.cur.cwdInode.toNat

include hok

theorem getcwd_eq (buf : ℕ → UInt8) :
    s.getcwd buf 128 = some (if s.cwdPath.length < 128 then some s.cwdPath else none) := by
  obtain ⟨i, hi, hdir⟩ := hok.cwd
  obtain ⟨r, hr, hnone, hsome⟩ := Ramfs.ramfsGetcwd_spec hok.fsOk.toTreeInv hi hdir.1 buf 128
  have hpath : s.cwdPath = s.fs.absPath i := by
    rw [cwdPath, hi, Int.toNat_natCast]
  rw [getcwd, if_neg (by omega), hr, Option.map_some, hpath]
  rcases r with _ | buf'
  · have hlong := hnone.mp rfl
    rw [if_neg (by omega), Option.map_none]
  · have hfits : ¬ 128 < (s.fs.absPath i).length + 1 := fun h => by simpa using hnone.mpr h
    have hat := (hsome buf' rfl).1
    rw [if_pos (by omega), Option.map_some,
      Wire.readStr_of_at hat (Ramfs.absPath_spec hok.fsOk hdir.1).1 (by omega)]

/-- The prompt names the working directory if its path fits. -/
theorem prompt_eq : s.prompt e = some (s.shows (ascii "root@SudoOS:"
    ++ (if s.cwdPath.length < 128 then s.cwdPath else ascii "?") ++ ascii "$ ")) := by
  rw [prompt, getcwd_eq hok, Option.bind_some]
  split_ifs
  · exact printf_str (ascii "root@SudoOS:") (ascii "$ ") rfl (by decide)
      (by decide) _
  · exact printf_plain (by decide) []

theorem cmdPwd_eq : s.cmdPwd e = some (s.shows
    (if s.cwdPath.length < 128 then s.cwdPath ++ ascii "\n" else [])) := by
  rw [cmdPwd, getcwd_eq hok, Option.bind_some]
  split_ifs
  · exact printf_str [] (ascii "\n") rfl (by decide) (by decide) _
  · rfl

include hp

theorem chdir_ends : ∃ ret s', s.chdir path = some (ret, s') ∧ Ran s s' := by
  rcases path with _ | path
  · exact ⟨-1, s, rfl, .refl s⟩
  · obtain ⟨r, hr⟩ := Option.isSome_iff_exists.mp
      (Ramfs.resolvePath_isSome hok.fsOk.toTreeInv hok.cwd false (hp path rfl))
    obtain ⟨⟨ret, cur'⟩, hcall⟩ : ∃ x, s.fs.ramfsChdir s.cur (some (path ++ [0])) = some x :=
      Option.isSome_iff_exists.mp (by rw [Ramfs.ramfsChdir, hr]; rfl)
    refine ⟨ret, { s with cur := cur' }, by simp [chdir, pathArg, hcall], ?_, ?_, rfl⟩
    · exact .single (.call (.chdir (some (path ++ [0]))) (by rw [Ramfs.perform, hcall]; rfl))
    · have hfds : cur'.fdTable = s.cur.fdTable := by
        rw [Ramfs.ramfsChdir, hr, Option.map_some, Option.some.injEq] at hcall
        split_ifs at hcall <;> simp only [Prod.mk.injEq] at hcall <;> rw [← hcall.2]
      exact ⟨hfds, fun _ _ => rfl, fun _ h => h⟩

theorem mkdir_ends : ∃ ret s', s.mkdir path = some (ret, s') ∧ Ran s s' := by
  rcases path with _ | path
  · exact ⟨-1, s, rfl, .refl s⟩
  · obtain ⟨r, hr⟩ := Option.isSome_iff_exists.mp
      (Ramfs.resolvePath_isSome hok.fsOk.toTreeInv hok.cwd true (hp path rfl))
    obtain ⟨⟨ret, fs'⟩, hcall⟩ : ∃ x, s.fs.ramfsMkdir s.cur (some (path ++ [0])) = some x :=
      Option.isSome_iff_exists.mp (by rw [Ramfs.ramfsMkdir, hr]; rfl)
    refine ⟨ret, { s with fs := fs' }, by simp [mkdir, pathArg, hcall], ?_, ?_, rfl⟩
    · exact .single (.call (.mkdir (some (path ++ [0]))) (by rw [Ramfs.perform, hcall]; rfl))
    · have htab : fs'.globalFileTable = s.fs.globalFileTable := by
        obtain ⟨_, -, ⟨-, rfl⟩ | ⟨-, -, k, hcr⟩⟩ := Ramfs.ramfsMkdir_ends hcall
        · rfl
        · obtain ⟨-, -, -, -, rfl⟩ := Ramfs.createInode_cases hcr
          rfl
      exact ⟨rfl, fun g _ => congrFun htab g, fun g hg => by rwa [htab]⟩

theorem cmdMkdir_ends : Ends s (s.cmdMkdir path) := by
  obtain ⟨ret, s₁, hcall, hran⟩ := mkdir_ends hok hp
  rw [cmdMkdir, hcall, Option.bind_some]
  refine .of_ran hran ?_
  dsimp only
  split_ifs
  · rw [printf_plain (by decide)]
    exact ends_shows _ _
  · exact ends_self s₁

theorem cmdTouch_ends : EndsIf (e.mem = true) s (s.cmdTouch e path) := by
  rw [cmdTouch, Option.map_eq_bind]
  refine .open hok hp fun fd s₁ hopen => ?_
  obtain ⟨hdev, hcalls, hends⟩ := open_ends hok hopen
  rcases hends with ⟨rfl, htidy⟩ | ⟨f, n, ho⟩
  · exact ⟨s₁, rfl, hcalls, htidy, by rw [hdev]⟩
  · refine ⟨s₁.close fd, ?_, Opened.ran hok.fdLen hcalls .refl ho (by rw [hdev])⟩
    simp only [Function.comp_apply, if_pos ho.lowest.2]

theorem cmdCat_ends : Ends s (s.cmdCat e path) := by
  obtain ⟨fd, s₁, hopen, hdev, hcalls, hends⟩ := open_cases hok hp 0 (.inl rfl)
  rw [cmdCat, hopen, Option.bind_some]
  dsimp only
  rcases hends with ⟨rfl, htidy⟩ | ⟨f, n, ho⟩
  · rw [if_neg (by decide), printf_plain (by decide)]
    exact .of_ran ⟨hcalls, htidy, by rw [hdev]⟩ (ends_shows _ _)
  · have hok₁ : s₁.Ok := Ramfs.Calls.ok hcalls hok
    obtain ⟨s₂, hloop, hcalls₂, ho₂, -, -, hdev₂⟩ := catLoop_spec hok.fdLen 4097 hok₁ ho (by
      have := length_fileBytes hok₁.fsOk ho.node
      rw [unread, List.length_drop]
      omega)
    rw [if_pos ho.lowest.2, hloop, Option.bind_some, printf_plain (by decide),
      Option.map_some]
    refine ⟨_, rfl, Opened.ran hok.fdLen hcalls hcalls₂ ho₂ ?_⟩
    change s₂.dev.keyboard = _
    rw [hdev₂, ← hdev]
    rfl

theorem cmdCd_ends : Ends s (s.cmdCd path) := by
  obtain ⟨ret, s₁, hcall, hran⟩ := chdir_ends hok (hp.getD (shortArg_some (ascii "/usr")
    (by decide)))
  rw [cmdCd, hcall, Option.bind_some]
  refine .of_ran hran ?_
  dsimp only
  split_ifs
  · rw [printf_str (ascii "cd: no such file or directory: ") (ascii "\n") rfl (by decide)
      (by decide)]
    exact ends_shows _ _
  · exact ends_self s₁

theorem cmdLs_ends : Ends s (s.cmdLs e path) := by
  have hdot := hp.getD (shortArg_some dot (by decide))
  obtain ⟨fd, s₁, hopen, hdev, hcalls, hends⟩ := open_cases hok hdot 0 (.inl rfl)
  rw [cmdLs, hopen, Option.bind_some]
  dsimp only
  rcases hends with ⟨rfl, htidy⟩ | ⟨f, n, ho⟩
  · rw [if_pos (by decide), printf_str (ascii "ls: cannot access '")
      (ascii "': No such file or directory\n") rfl (by decide) (by decide)]
    exact .of_ran ⟨hcalls, htidy, by rw [hdev]⟩ (ends_shows _ _)
  · have hok₁ : s₁.Ok := Ramfs.Calls.ok hcalls hok
    obtain ⟨s₂, count, hloop, hcalls₂, ho₂, hkeys⟩ : ∃ s₂ count,
        lsLoop fd (maxFiles + 1) s₁ e.stack 0 = some (s₂, count) ∧ Calls s₁ s₂ ∧ Opened s s₂ fd f n
          ∧ s₂.dev.keyboard = s₁.dev.keyboard := by
      by_cases hdir : (s₁.fs.files n).type = .dir
      · obtain ⟨s₂, hloop, hcalls₂, ho₂, -, -, hdev₂⟩ :=
          lsLoop_spec hok.fdLen (maxFiles + 1) e.stack 0 hok₁ ho hdir (by omega)
        exact ⟨s₂, _, hloop, hcalls₂, ho₂, by rw [hdev₂]; rfl⟩
      · exact ⟨s₁, 0, lsLoop_file hok.fdLen ho hdir maxFiles e.stack, .refl, ho, rfl⟩
    rw [if_neg (by have := ho.lowest.2; omega), hloop, Option.bind_some]
    dsimp only
    split_ifs
    · rw [printf_plain (by decide), Option.map_some]
      exact ⟨_, rfl, Opened.ran hok.fdLen hcalls hcalls₂ ho₂ (hkeys.trans (by rw [hdev]))⟩
    · exact ⟨_, rfl, Opened.ran hok.fdLen hcalls hcalls₂ ho₂ (hkeys.trans (by rw [hdev]))⟩

omit hp in
theorem writeText_opened {s₁ : Session} {fd : ℤ} {f n : ℕ} (hok₁ : s₁.Ok) (ho : Opened s s₁ fd f n)
    (text : List UInt8) : ∃ ret s₂, s₁.writeText fd text = some (ret, s₂) ∧ Calls s₁ s₂
      ∧ Opened s s₂ fd f n ∧ s₂.dev = s₁.dev := by
  obtain ⟨ret, fs', hcall, hrel, ho'⟩ := Ramfs.ramfsWrite_opened hok₁ ho hok.fdLen
    (fun i => (text ++ [0]).getD i 0) (BitVec.ofNat 32 text.length)
  exact ⟨_, { s₁ with fs := fs' }, by rw [writeText, write_file ho.bounds, hcall]; rfl,
    .single hrel, ho', rfl⟩

theorem echoTo_ends (text : List UInt8) :
    EndsIf (e.mem = true) s (s.echoTo e (some text) path) := by
  rw [echoTo]
  refine .open hok hp fun fd s₁ hopen => ?_
  obtain ⟨hdev, hcalls, hends⟩ := open_ends hok hopen
  dsimp only
  rcases hends with ⟨rfl, htidy⟩ | ⟨f, n, ho⟩
  · rw [if_neg (by decide)]
    exact ⟨s₁, rfl, hcalls, htidy, by rw [hdev]⟩
  · have hok₁ : s₁.Ok := Ramfs.Calls.ok hcalls hok
    obtain ⟨ret, s₂, hwrite, hcalls₂, ho₂, hdev₂⟩ := writeText_opened hok hok₁ ho text
    have hok₂ : s₂.Ok := Ramfs.Calls.ok hcalls₂ hok₁
    obtain ⟨ret', s₃, hwrite', hcalls₃, ho₃, hdev₃⟩ := writeText_opened hok hok₂ ho₂ (ascii "\n")
    rw [if_pos ho.lowest.2, Option.bind_some, hwrite, Option.bind_some, hwrite', Option.map_some]
    exact ⟨_, rfl, Opened.ran hok.fdLen hcalls (hcalls₂.trans hcalls₃) ho₃
      (by rw [hdev₃, hdev₂, hdev])⟩

end Commands

/-- Plain lines, one after the other. -/
theorem ends_lines : ∀ {lines : List String}, (∀ line ∈ lines, Plain (ascii line)) →
    ∀ s : Session, Ends s (lines.foldlM (fun s line => s.printf line []) s)
  | [], _, s => ends_self s
  | line :: lines, h, s => by
    rw [List.foldlM_cons, printf_plain (h line List.mem_cons_self)]
    exact .of_ran (ran_shows s _) (ends_lines (fun l hl => h l (List.mem_cons_of_mem _ hl)) _)

theorem cmdHelp_ends (s : Session) : Ends s s.cmdHelp := by
  refine ends_lines ?_ s
  simp only [List.forall_mem_cons, List.not_mem_nil, false_implies, implies_true, and_true]
  repeat' apply And.intro
  all_goals exact plain_ofList (by decide)

theorem clear_ends (s : Session) : Ends s s.clear := by
  refine ends_lines (fun line hline => ?_) s
  rw [List.eq_of_mem_replicate hline]
  decide

theorem echo_ends (s : Session) (text : Option (List UInt8)) : Ends s (s.echo text) := by
  rw [echo, printf_str [] (ascii "\n") rfl (by decide) (by decide)]
  exact ends_shows _ _

/-- The paths among the arguments of a command. -/
def paths (c : Call) : List (Option (List UInt8)) :=
  if c.word = ascii "echo" then c.args.drop 1 else c.args

/-- What the shell can be asked: not to leave or to run a system call by its number, and paths with
short components only. -/
structure Acceptable (c : Call) : Prop where
  stays : c.word ≠ ascii "exit" ∧ c.word ≠ ascii "run"
  short : ∀ path ∈ paths c, ShortArg path

/-- The commands that can make a file: `touch`, and `echo` into a file. -/
def Makes (c : Call) : Prop := c.word = ascii "touch" ∨ (c.word = ascii "echo" ∧ c.args.length = 2)

/-- Every command comes to its end, one that makes a file if there is memory for it. -/
theorem command_ends {s : Session} (hok : s.Ok) (e : Env) {c : Call} (hc : Acceptable c)
    (htext : ∀ path, c.args ≠ [none, path]) :
    EndsIf (Makes c → e.mem = true) s (s.command e c) := by
  have harg : c.word ≠ ascii "echo" → ShortArg (c.args.headD none) := by
    intro hword
    have hshort := hc.short
    rw [paths, if_neg hword] at hshort
    rcases hargs : c.args with _ | ⟨a, args⟩
    · exact fun p hp => absurd hp (by simp)
    · exact hshort a (by rw [hargs]; exact List.mem_cons_self)
  unfold command
  by_cases hhelp : c.word = ascii "help"
  · rw [if_pos hhelp]
    exact (cmdHelp_ends s).endsIf _
  rw [if_neg hhelp]
  by_cases hls : c.word = ascii "ls"
  · rw [if_pos hls]
    exact (cmdLs_ends hok e (harg (by rw [hls]; decide))).endsIf _
  rw [if_neg hls]
  by_cases hcd : c.word = ascii "cd"
  · rw [if_pos hcd]
    exact (cmdCd_ends hok (harg (by rw [hcd]; decide))).endsIf _
  rw [if_neg hcd]
  by_cases hpwd : c.word = ascii "pwd"
  · rw [if_pos hpwd, cmdPwd_eq hok]
    exact (ends_shows _ _).endsIf _
  rw [if_neg hpwd]
  by_cases hmkdir : c.word = ascii "mkdir"
  · rw [if_pos hmkdir]
    exact (cmdMkdir_ends hok (harg (by rw [hmkdir]; decide))).endsIf _
  rw [if_neg hmkdir]
  by_cases hcat : c.word = ascii "cat"
  · rw [if_pos hcat]
    exact (cmdCat_ends hok e (harg (by rw [hcat]; decide))).endsIf _
  rw [if_neg hcat]
  by_cases htouch : c.word = ascii "touch"
  · rw [if_pos htouch]
    exact (cmdTouch_ends hok e (harg (by rw [htouch]; decide))).mono fun h => h (.inl htouch)
  rw [if_neg htouch]
  by_cases hecho : c.word = ascii "echo"
  · rw [if_pos hecho]
    split
    · rename_i text path hargs
      rcases text with _ | text
      · exact absurd hargs (htext path)
      · have hshort := hc.short
        rw [paths, if_pos hecho, hargs] at hshort
        exact (echoTo_ends hok e (hshort path (by simp)) text).mono fun h =>
          h (.inr ⟨hecho, by rw [hargs]; rfl⟩)
    · exact (echo_ends s _).endsIf _
  rw [if_neg hecho]
  by_cases hclear : c.word = ascii "clear"
  · rw [if_pos hclear]
    exact (clear_ends s).endsIf _
  rw [if_neg hclear, if_neg (not_or.mpr hc.stays), printf_str (ascii "Unknown command: ")
    (ascii "\n") rfl (by decide) (by decide)]
  exact (ends_shows _ _).endsIf _

end Session

end SudoOS
