import SudoOS.Proofs.ShellMain

/-!
# What the shell shows of the files

`ls` prints the children of a directory in the order of their inodes and `cat` the bytes of a file,
127 at a time. What `echo` writes goes over the front of the file, so `cat` prints the line and then
whatever the file held behind it (`echo_cat`).
-/

namespace SudoOS

open ByteFile

namespace Session

/-! ## Opening for reading -/

/-- A descriptor and an open file are free. -/
def CanOpen (s : Session) : Prop := (Ramfs.freeFd s.cur).isSome ∧ s.fs.allocFileHandle.isSome

instance (s : Session) : Decidable s.CanOpen := inferInstanceAs (Decidable (_ ∧ _))

section Open

variable {s : Session} (hok : s.Ok) {path : List UInt8} {r : Ramfs.Resolved}
  (hr : s.fs.resolvePath s.cur.cwdInode true (some (path ++ [0])) = some r)

include hok hr

/-- An open that creates nothing. -/
theorem open_reads (mem : Bool) :
    ∃ fd s₁, s.open (some path) 0 mem = some (fd, s₁) ∧ s₁.fs.files = s.fs.files ∧ s₁.dev = s.dev
      ∧ Calls s s₁
      ∧ ((fd = -1 ∧ Tidy s s₁ ∧ ¬ (r.inode ≠ -1 ∧ s.CanOpen))
        ∨ (r.inode ≠ -1 ∧ s.CanOpen) ∧ ∃ f n : ℕ, r.inode = n ∧ Opened s s₁ fd f n
          ∧ (s₁.fs.globalFileTable f).offset = 0) := by
  obtain ⟨⟨fd, fs', cur'⟩, hopen⟩ :=
    Option.isSome_iff_exists.mp (Ramfs.ramfsOpen_isSome 0 mem hr (.inr (.inl rfl)))
  have hcalls : Calls s ⟨fs', cur', s.dev⟩ :=
    .single (.call (.open (some (path ++ [0])) 0 mem) (by rw [Ramfs.perform, hopen]; rfl))
  have hcall : s.open (some path) 0 mem = some (fd, ⟨fs', cur', s.dev⟩) := by
    rw [«open», pathArg, Option.map_some, hopen]
    rfl
  refine ⟨fd, ⟨fs', cur', s.dev⟩, hcall, ?_⟩
  by_cases hcan : r.inode ≠ -1 ∧ s.CanOpen
  · obtain ⟨hne, hfd, hf⟩ := hcan
    obtain ⟨k, hk⟩ := Option.isSome_iff_exists.mp hfd
    obtain ⟨⟨f, fs₁⟩, hf'⟩ := Option.isSome_iff_exists.mp hf
    obtain ⟨n, hn, -⟩ := (Ramfs.resolvePath_ok hok.fsOk.toTreeInv hok.cwd true hr).found hne
    have heq := hopen.symm.trans (Ramfs.ramfsOpen_reopens hr hn hk hf')
    obtain ⟨-, hfree, -⟩ := Ramfs.allocFileHandle_cases hf'
    simp only [Option.some.injEq, Prod.mk.injEq] at heq
    obtain ⟨rfl, rfl, rfl⟩ := heq
    refine ⟨rfl, rfl, hcalls, .inr ⟨⟨hne, hfd, hf⟩, f, n, hn,
      ⟨⟨hk, by omega⟩, hfree, fun g hg => Function.update_of_ne hg .., ?_, rfl⟩, ?_⟩⟩
    · simp [Ramfs.setFile]
    · simp [Ramfs.setFile]
  · obtain ⟨r', hr', hends⟩ := Ramfs.ramfsOpen_ends hopen
    obtain rfl := Option.some.inj (hr.symm.trans hr')
    have hfound : ∀ {n fs₁}, s.fs.openInode r 0 = some (n, fs₁) →
        r.inode ≠ -1 ∧ fs₁ = s.fs := by
      intro n fs₁ hn
      rcases Ramfs.openInode_cases hn with ⟨hne, -, rfl⟩ | ⟨-, hflags, -⟩
      · exact ⟨hne, rfl⟩
      · exact absurd rfl hflags
    have hends : fd = -1 ∧ fs'.files = s.fs.files := by
      cases hends with
      | noInode hn => exact ⟨rfl, rfl⟩
      | noFile n _ hn hf => exact ⟨rfl, congrArg Ramfs.files (hfound hn).2⟩
      | noFd n f fs₁ fs₂ hn hf hfd =>
        obtain ⟨-, rfl⟩ := hfound hn
        exact ⟨rfl, rfl⟩
      | opened n f i fs₁ fs₂ hn hf hfd =>
        obtain ⟨hne, rfl⟩ := hfound hn
        exact absurd ⟨hne, by rw [hfd]; rfl, by rw [hf]; rfl⟩ hcan
    obtain ⟨rfl, hfiles⟩ := hends
    have htidy : Tidy s ⟨fs', cur', s.dev⟩ := by
      rcases Ramfs.ramfsOpen_tidy hok hopen with ⟨-, htidy⟩ | ⟨f, n, ho⟩
      · exact htidy
      · exact absurd ho.lowest.2 (by decide)
    exact ⟨hfiles, rfl, hcalls, .inl ⟨rfl, htidy, hcan⟩⟩

end Open

/-! ## Listing and printing -/

/-- What `ls` prints of a directory. -/
def listing (fs : Ramfs) (n : ℕ) : List UInt8 :=
  (fs.childrenIn n 0 maxFiles).flatMap (entryText fs)
    ++ if fs.childrenIn n 0 maxFiles = [] then [] else ascii "\n"

/-- What `ls` prints when the path leads to `r`. -/
def lsText (s : Session) (path : List UInt8) (r : Ramfs.Resolved) : List UInt8 :=
  if r.inode ≠ -1 ∧ s.CanOpen then
    if (s.fs.node r.inode).type = .dir then listing s.fs r.inode.toNat else []
  else ascii "ls: cannot access '" ++ path ++ ascii "': No such file or directory\n"

/-- What `cat` prints when the path leads to `r`. -/
def fileText (s : Session) (r : Ramfs.Resolved) : List UInt8 :=
  if r.inode ≠ -1 ∧ s.CanOpen then catText (s.fs.fileBytes r.inode.toNat) ++ ascii "\n"
  else ascii "File not found.\n"

/-- The text is shown and the files are as before. -/
structure Shows (s : Session) (text : List UInt8) (s' : Session) : Prop where
  ran : Ran s s'
  files : s'.fs.files = s.fs.files
  dev : s'.dev = (s.shows text).dev

theorem shows_dev {s s' : Session} (text text' : List UInt8) (h : s'.dev = (s.shows text).dev) :
    (s'.shows text').dev = (s.shows (text ++ text')).dev := by
  rw [← shows_shows]
  unfold shows
  rw [h]
  rfl

/-- A command that has only printed. -/
theorem Tidy.shows {s s₁ : Session} (hcalls : Calls s s₁) (htidy : Tidy s s₁)
    (hfiles : s₁.fs.files = s.fs.files) (hdev : s₁.dev = s.dev) (text : List UInt8) :
    Shows s text (s₁.shows text) :=
  ⟨.trans ⟨hcalls, htidy, by rw [hdev]⟩ (ran_shows s₁ text), hfiles,
    shows_dev [] text hdev⟩

/-- A command that has printed over an open file, and closes it. -/
theorem Opened.shows {s t : Session} (hlen : s.cur.fdTable.length = maxFd) {fd : ℤ} {f n : ℕ}
    (hcalls : Calls s t) (ho : Opened s t fd f n) (hfiles : t.fs.files = s.fs.files)
    {text : List UInt8} (hdev : t.dev = (s.shows text).dev) : Shows s text (t.close fd) :=
  ⟨Opened.ran hlen hcalls .refl ho (by rw [hdev]; rfl),
    (Ramfs.ramfsClose_files ..).trans hfiles, hdev⟩

section Prints

variable {s : Session} (hok : s.Ok) (e : Env)

include hok

theorem cmdCat_shows {path : List UInt8} {r : Ramfs.Resolved}
    (hr : s.fs.resolvePath s.cur.cwdInode true (some (path ++ [0])) = some r) :
    ∃ s', s.cmdCat e (some path) = some s' ∧ Shows s (fileText s r) s' := by
  obtain ⟨fd, s₁, hopen, hfiles, hdev, hcalls, hends⟩ := open_reads hok hr e.mem
  rw [cmdCat, hopen, Option.bind_some]
  dsimp only
  rcases hends with ⟨rfl, htidy, hcan⟩ | ⟨hcan, f, n, hn, ho, hoff⟩
  · rw [if_neg (by decide), printf_plain (by decide), fileText, if_neg hcan]
    exact ⟨_, rfl, Tidy.shows hcalls htidy hfiles hdev _⟩
  · have hok₁ : s₁.Ok := Ramfs.Calls.ok hcalls hok
    have hunread : s₁.unread f n = s.fs.fileBytes n := by
      rw [unread, hoff, List.drop_zero, Ramfs.fileBytes, Ramfs.fileBytes, hfiles]
    obtain ⟨s₂, hloop, hcalls₂, ho₂, hfiles₂, -, hdev₂⟩ := catLoop_spec hok.fdLen 4097 hok₁ ho (by
      have := length_fileBytes hok₁.fsOk ho.node
      rw [unread, List.length_drop]
      omega)
    rw [if_pos ho.lowest.2, hloop, Option.bind_some, printf_plain (by decide),
      Option.map_some]
    rw [hunread, shows_dev [] _ hdev, List.nil_append] at hdev₂
    rw [fileText, if_pos hcan, hn, Int.toNat_natCast]
    exact ⟨_, rfl, Opened.shows (t := s₂.shows _) hok.fdLen (hcalls.trans hcalls₂) ho₂
      (hfiles₂.trans hfiles) (shows_dev _ _ hdev₂)⟩

theorem cmdLs_shows {path : Option (List UInt8)} {r : Ramfs.Resolved}
    (hr : s.fs.resolvePath s.cur.cwdInode true (some (path.getD dot ++ [0])) = some r) :
    ∃ s', s.cmdLs e path = some s' ∧ Shows s (lsText s (path.getD dot) r) s' := by
  obtain ⟨fd, s₁, hopen, hfiles, hdev, hcalls, hends⟩ := open_reads hok hr e.mem
  rw [cmdLs, hopen, Option.bind_some]
  dsimp only
  rcases hends with ⟨rfl, htidy, hcan⟩ | ⟨hcan, f, n, hn, ho, hoff⟩
  · rw [if_pos (by decide), printf_str (ascii "ls: cannot access '")
      (ascii "': No such file or directory\n") rfl (by decide) (by decide), lsText,
      if_neg hcan]
    exact ⟨_, rfl, Tidy.shows hcalls htidy hfiles hdev _⟩
  · have hok₁ : s₁.Ok := Ramfs.Calls.ok hcalls hok
    have hnode : s.fs.node r.inode = s.fs.files n := by
      rw [hn]
      rfl
    rw [if_neg (by have := ho.lowest.2; omega), lsText, if_pos hcan, hnode, hn, Int.toNat_natCast]
    by_cases hdir : (s.fs.files n).type = .dir
    · obtain ⟨s₂, hloop, hcalls₂, ho₂, hfiles₂, -, hdev₂⟩ :=
        lsLoop_spec hok.fdLen (maxFiles + 1) e.stack 0 hok₁ ho (by rwa [hfiles]) (by omega)
      have hchildren : s₁.fs.childrenIn n 0 maxFiles = s.fs.childrenIn n 0 maxFiles :=
        childrenIn_congr hfiles n 0 maxFiles
      have hentry : entryText s₁.fs = entryText s.fs := by
        funext i
        simp only [entryText, hfiles]
      rw [hoff, hchildren, hentry, shows_dev [] _ hdev, List.nil_append] at hdev₂
      rw [hoff, hchildren, Nat.zero_add] at hloop
      rw [hloop, Option.bind_some, if_pos hdir, listing]
      dsimp only
      by_cases hnil : s.fs.childrenIn n 0 maxFiles = []
      · rw [hnil] at hdev₂ ⊢
        exact ⟨_, rfl, Opened.shows hok.fdLen (hcalls.trans hcalls₂) ho₂ (hfiles₂.trans hfiles)
          hdev₂⟩
      · rw [if_pos (List.length_pos_of_ne_nil hnil), printf_plain (by decide),
          Option.map_some, if_neg hnil]
        exact ⟨_, rfl, Opened.shows (t := s₂.shows _) hok.fdLen (hcalls.trans hcalls₂) ho₂
          (hfiles₂.trans hfiles) (shows_dev _ _ hdev₂)⟩
    · rw [lsLoop_file hok.fdLen ho (by rwa [hfiles]), Option.bind_some, if_neg hdir]
      exact ⟨_, rfl, Opened.shows hok.fdLen hcalls ho hfiles hdev⟩

end Prints

/-! ## Writing -/

theorem range_map_text (text : List UInt8) :
    text = (List.range text.length).map fun i => (text ++ [0]).getD i 0 := by
  refine List.ext_getElem (by simp) fun i hi _ => ?_
  simp [List.getD_eq_getElem?_getD, List.getElem?_append_left hi, List.getElem?_eq_getElem hi]

theorem toInt_ofNat {n : ℕ} (h : n < 2 ^ 31) : (BitVec.ofNat 32 n).toInt = n := by
  have hnat : (BitVec.ofNat 32 n).toNat = n := by
    rw [BitVec.toNat_ofNat, Nat.mod_eq_of_lt (by omega)]
  rw [BitVec.toInt_eq_toNat_of_lt (by omega), hnat]

/-- A text that goes into an open file. -/
theorem writeText_spec {s₀ s : Session} (hlen : s₀.cur.fdTable.length = maxFd) (hok : s.Ok) {fd : ℤ}
    {f n : ℕ} (ho : Opened s₀ s fd f n) (text : List UInt8) (ht : text.length < 2 ^ 31) :
    ∃ ret s', s.writeText fd text = some (ret, s') ∧ Calls s s' ∧ Opened s₀ s' fd f n
      ∧ s'.dev = s.dev ∧ s'.cur = s.cur ∧ Ramfs.SameTree s.fs s'.fs
      ∧ (∀ m, m ≠ n → s'.fs.files m = s.fs.files m)
      ∧ ((s.fs.files n).content = none → (s'.fs.files n).content = none)
      ∧ ∀ b, Ramfs.Represents s.fs n b → Ramfs.Represents s'.fs n (b.write f text).2 := by
  obtain ⟨ret, fs', hcall, hrel, ho'⟩ := Ramfs.ramfsWrite_opened hok ho hlen
    (fun i => (text ++ [0]).getD i 0) (BitVec.ofNat 32 text.length)
  have hfile := ho.fdFile hlen
  have hends : Ramfs.SameTree s.fs fs' ∧ (∀ m, m ≠ n → fs'.files m = s.fs.files m)
      ∧ ((s.fs.files n).content = none → (fs'.files n).content = none) := by
    rcases Ramfs.ramfsWrite_ends hcall with rfl | ⟨g, m, bytes, hg, hm, -, hb, -, rfl⟩
    · exact ⟨.rfl_of_files rfl, fun m _ => rfl, id⟩
    · obtain rfl := Option.some.inj (hfile.symm.trans hg)
      obtain rfl := Option.some.inj (ho.node.symm.trans hm)
      refine ⟨?_, fun m hm => by simp [Ramfs.setNode, Ramfs.setFile, hm],
        fun h => by simp [hb] at h⟩
      constructor <;> intro i <;> by_cases hi : i = n <;> simp [Ramfs.setNode, Ramfs.setFile, hi]
  refine ⟨_, { s with fs := fs' }, by rw [writeText, write_file ho.bounds, hcall]; rfl,
    .single hrel, ho', rfl, rfl, hends.1, hends.2.1, hends.2.2, fun b hb => ?_⟩
  obtain ⟨fs'', hcall', hb', -⟩ := Ramfs.ramfsWrite_refines hb hok.fsOk hfile ho.node
    (by rw [toInt_ofNat ht]; exact Int.natCast_nonneg _) (fun i => (text ++ [0]).getD i 0)
    (show text = _ by rw [toInt_ofNat ht, Int.toNat_natCast]; exact range_map_text text)
  simp only [hcall, Option.some.injEq, Prod.mk.injEq] at hcall'
  rw [← hcall'.2] at hb'
  exact hb'

/-- Two writes from the front of a file on, a line and its end. -/
theorem write_write_bytes {b : ByteFile ℕ UInt8 4096} {f : ℕ} (h0 : b.offset f = 0)
    (text : List UInt8) (c : UInt8) :
    ((b.write f text).2.write f [c]).2.bytes
      = (text ++ [c]).take 4096 ++ b.bytes.drop (text.length + 1) := by
  have hshort := b.short
  have hfirst : (b.write f text).2.bytes = text.take 4096 ++ b.bytes.drop text.length := by
    simp only [ByteFile.write, room, h0, overwrite, List.take_zero, List.nil_append, Nat.zero_add,
      List.length_take, Nat.sub_zero]
    rcases Nat.le_total text.length 4096 with hle | hle
    · simp [List.take_of_length_le hle, hle]
    · rw [Nat.min_eq_right hle, List.drop_eq_nil_of_le (by omega),
        List.drop_eq_nil_of_le (by omega)]
  have hoff : (b.write f text).2.offset f = min text.length 4096 := by
    simp [ByteFile.write, room, h0]
  generalize (b.write f text).2 = b' at hfirst hoff ⊢
  rcases Nat.lt_or_ge text.length 4096 with hlt | hge
  · rw [Nat.min_eq_left hlt.le] at hoff
    rw [List.take_of_length_le hlt.le] at hfirst
    have hroom : min 1 (4096 - text.length) = 1 := by omega
    simp only [ByteFile.write, room, hoff, hfirst, overwrite, List.length_singleton, hroom]
    rw [List.take_of_length_le (show (text ++ [c]).length ≤ 4096 by simp; omega),
      List.take_left' rfl, List.take_of_length_le (by simp), List.length_singleton,
      ← List.drop_drop, List.drop_left' rfl, List.drop_drop]
  · rw [Nat.min_eq_right hge] at hoff
    rw [List.drop_eq_nil_of_le (by omega), List.append_nil] at hfirst
    simp only [ByteFile.write, room, hoff, hfirst, overwrite, List.length_singleton]
    have hnil : b.bytes.drop (text.length + 1) = [] := List.drop_eq_nil_of_le (by omega)
    simp [List.take_append_of_le_length hge, hnil]

/-- The bytes of a file are those of the byte file it represents. -/
theorem fileBytes_eq {fs : Ramfs} {n : ℕ} {b : ByteFile ℕ UInt8 4096} (h : fs.Represents n b) :
    fs.fileBytes n = b.bytes := by
  obtain ⟨bytes, hb, heq⟩ := h.page
  rw [Ramfs.fileBytes, if_neg h.file, hb, heq, Option.getD_some]

/-- What is in a file, if there is one. -/
def contents (fs : Ramfs) (n : ℕ) : List UInt8 := if fs.Used n then fs.fileBytes n else []

/-- What is in inode `n` after `echo`: the line over the front of what was there; a directory, and a
file without a page, stay empty. -/
def echoed (fs fs' : Ramfs) (n : ℕ) (text : List UInt8) : List UInt8 :=
  if (fs'.files n).type = .dir ∨ (fs'.files n).content = none then []
  else (text ++ ascii "\n").take 4096 ++ (contents fs n).drop (text.length + 1)

theorem fileBytes_eq_contents {fs fs' : Ramfs} {cur cur' : Pcb} {path : Option (List UInt8)}
    {fd : ℤ} {f n : ℕ} (h : Ramfs.Found fs fs' cur cur' path fd f n) (hu : fs'.Used n) :
    fs'.fileBytes n = contents fs n := by
  unfold contents
  rcases h.node with hsame | ⟨hfresh, htype, hsize, -⟩
  · rw [if_pos (show fs.Used n from ⟨hu.1, hsame ▸ hu.2⟩), Ramfs.fileBytes, Ramfs.fileBytes, hsame]
  · rw [if_neg hfresh, Ramfs.fileBytes, hsize, List.take_zero, ite_self]

theorem close_cwd (s : Session) (fd : ℤ) : (s.close fd).cur.cwdInode = s.cur.cwdInode := by
  unfold close Ramfs.ramfsClose
  cases Ramfs.fdFile s.cur fd <;> rfl

section Echo

variable {s s₁ : Session} (hok : s.Ok) (e : Env) {path text : List UInt8}
  (ht : text.length < 2 ^ 31) {fd : ℤ}
  (hopen : s.open (some path) oCreat e.mem = some (fd, s₁)) (hfd : 0 ≤ fd)

include hok ht hopen hfd

/-- `echo` into a file that can be opened. -/
theorem echoTo_spec :
    ∃ (n : ℕ) (r : Ramfs.Resolved) (s' : Session), s.echoTo e (some text) (some path) = some s'
      ∧ Ran s s' ∧ s'.dev = s.dev ∧ s'.CanOpen
      ∧ s'.fs.resolvePath s'.cur.cwdInode true (some (path ++ [0])) = some r ∧ r.inode = n
      ∧ (∀ m, m ≠ n → s'.fs.files m = s.fs.files m)
      ∧ s'.fs.fileBytes n = echoed s.fs s'.fs n text := by
  obtain ⟨⟨fd', fs', cur'⟩, hcall, he⟩ := Option.map_eq_some_iff.mp hopen
  obtain ⟨rfl, rfl⟩ := Prod.mk.inj he
  obtain ⟨f, n, hfound⟩ := Ramfs.ramfsOpen_leads hok hcall hfd
  have ho : Opened s ⟨fs', cur', s.dev⟩ fd' f n := hfound.opened
  have hcalls : Calls s ⟨fs', cur', s.dev⟩ :=
    .single (.call (.open (some (path ++ [0])) oCreat e.mem) (by
      rw [Ramfs.perform, show s.fs.ramfsOpen s.cur (some (path ++ [0])) oCreat e.mem = _ from hcall]
      rfl))
  have hok₁ : Ok ⟨fs', cur', s.dev⟩ := Ramfs.Calls.ok hcalls hok
  obtain ⟨ret₂, s₂, hwrite₂, hcalls₂, ho₂, hdev₂, hcur₂, hsame₂, hothers₂, hnone₂, hbytes₂⟩ :=
    writeText_spec hok.fdLen hok₁ ho text ht
  have hok₂ : s₂.Ok := Ramfs.Calls.ok hcalls₂ hok₁
  obtain ⟨ret₃, s₃, hwrite₃, hcalls₃, ho₃, hdev₃, hcur₃, hsame₃, hothers₃, hnone₃, hbytes₃⟩ :=
    writeText_spec hok.fdLen hok₂ ho₂ (ascii "\n") (by decide)
  have hran := Opened.ran hok.fdLen hcalls (hcalls₂.trans hcalls₃) ho₃ (by rw [hdev₃, hdev₂])
  have hfiles : (s₃.close fd').fs.files = s₃.fs.files := Ramfs.ramfsClose_files ..
  obtain ⟨r, hr, hn⟩ := hfound.path
  refine ⟨n, r, s₃.close fd', ?_, hran, hdev₃.trans hdev₂, ?_, ?_, hn, fun m hm => ?_, ?_⟩
  · rw [echoTo, hopen, Option.bind_some]
    dsimp only
    rw [if_pos hfd, Option.bind_some, hwrite₂, Option.bind_some, hwrite₃, Option.map_some]
  · have hfd : Ramfs.freeFd (s₃.close fd').cur = Ramfs.freeFd s.cur := by
      unfold Ramfs.freeFd
      rw [hran.tidy.fds]
    refine ⟨by rw [hfd, ho.lowest.1]; rfl, ?_⟩
    rw [Ramfs.allocFileHandle, Option.isSome_map, List.find?_isSome]
    exact ⟨f, List.mem_range.mpr hfound.handle, by simpa using hran.tidy.free f ho.free⟩
  · have hcwd : (s₃.close fd').cur.cwdInode = s.cur.cwdInode := by
      rw [close_cwd, hcur₃, hcur₂]
      exact (congrArg Pcb.cwdInode hfound.caller).trans rfl
    rw [hcwd, (Ramfs.SameTree.rfl_of_files hfiles).resolvePath, hsame₃.resolvePath,
      hsame₂.resolvePath]
    exact hr
  · rw [hfiles, hothers₃ m hm, hothers₂ m hm]
    exact hfound.others m hm
  · have hkeep : (s₃.close fd').fs.fileBytes n = s₃.fs.fileBytes n := by
      rw [Ramfs.fileBytes, Ramfs.fileBytes, hfiles]
    rw [hkeep, echoed, hfiles]
    split_ifs with hempty
    · unfold Ramfs.fileBytes
      rcases hempty with hdir | hnone
      · rw [if_pos hdir]
      · simp [hnone]
    · obtain ⟨hdir, hcontent⟩ := not_or.mp hempty
      have hfile : (fs'.files n).type ≠ .dir := by
        rwa [hsame₃.type, hsame₂.type] at hdir
      obtain ⟨b, hb⟩ := Ramfs.exists_represents hok₁.fsOk (hok₁.fsOk.handles f n ho.node).1 hfile
        fun h => hcontent (hnone₃ (hnone₂ h))
      have hoff : b.offset f = 0 := (hb.offset f ho.node).trans hfound.offset
      rw [fileBytes_eq (hbytes₃ _ (hbytes₂ b hb)),
        ← fileBytes_eq_contents hfound (hok₁.fsOk.handles f n ho.node).1, fileBytes_eq hb]
      exact write_write_bytes hoff text 10

/-- What `echo` has put into a file `cat` prints. -/
theorem echoTo_cat (e' : Env) :
    ∃ (n : ℕ) (s' s'' : Session), s.echoTo e (some text) (some path) = some s'
      ∧ s'.cmdCat e' (some path) = some s'' ∧ s'.dev = s.dev
      ∧ s''.dev = (s.shows (catText (echoed s.fs s'.fs n text) ++ ascii "\n")).dev
      ∧ s''.fs.files = s'.fs.files ∧ (∀ m, m ≠ n → s'.fs.files m = s.fs.files m)
      ∧ s'.fs.fileBytes n = echoed s.fs s'.fs n text ∧ Ran s s'' := by
  obtain ⟨n, r, s', hecho, hran, hdev, hcan, hr, hn, hothers, hbytes⟩ :=
    echoTo_spec hok e ht hopen hfd
  obtain ⟨s'', hcat, hshows⟩ := cmdCat_shows (hran.ok hok) e' hr
  refine ⟨n, s', s'', hecho, hcat, hdev, ?_, hshows.files, hothers, hbytes, hran.trans hshows.ran⟩
  have hne : r.inode ≠ -1 := by omega
  rw [hshows.dev, fileText, if_pos ⟨hne, hcan⟩, hn, Int.toNat_natCast, hbytes]
  unfold shows
  rw [hdev]

end Echo

/-- Without a NUL among the bytes `cat` prints them all. -/
theorem catText_eq : ∀ (n : ℕ) {bytes : List UInt8}, bytes.length ≤ n → (0 : UInt8) ∉ bytes →
    catText bytes = bytes
  | n, [], _, _ => by
    rw [catText, if_pos rfl]
  | n + 1, c :: bytes, hn, h0 => by
    have hcut : cstr ([] ++ ((c :: bytes).take 127 ++ [0])) 0 = (c :: bytes).take 127 :=
      cstr_append [] [] fun h => h0 (List.mem_of_mem_take h)
    rw [List.nil_append] at hcut
    have hrest : catText ((c :: bytes).drop 127) = (c :: bytes).drop 127 := by
      refine catText_eq n ?_ fun h => h0 (List.mem_of_mem_drop h)
      rw [List.length_drop]
      omega
    rw [catText, if_neg (List.cons_ne_nil _ _), hcut, hrest, List.take_append_drop]

/-! ## From any reachable state -/

section Reached

variable {s₀ s₁ : Sched} {idle : ℕ} {ops : List (ℕ × SysOp)} {s : Sys} {p : ℕ}
  (hinit : s₀.procInit idle = some s₁) (hrun : Run.run Sys.step (Sys.start s₁) ops = some s)
  (hp : s.Runs p)

include hinit hrun hp

/-- `ls` prints the children of a directory in the order of their inodes and nothing else, a
directory in brackets; it changes no inode and leaves nothing open. -/
theorem ls_lists (dev : Devices) (e : Env) {path : Option (List UInt8)} (hshort : ShortArg path) :
    ∃ r s', s.fs.resolvePath (s.pcb p).cwdInode true (some (path.getD dot ++ [0])) = some r
      ∧ (⟨s.fs, s.pcb p, dev⟩ : Session).cmdLs e path = some s'
      ∧ Shows ⟨s.fs, s.pcb p, dev⟩ (lsText ⟨s.fs, s.pcb p, dev⟩ (path.getD dot) r) s' := by
  obtain ⟨-, hok⟩ := Sys.reached_ok hinit hrun hp
  have hdot := hshort.getD (shortArg_some dot (by decide))
  obtain ⟨r, hr⟩ := Option.isSome_iff_exists.mp
    (Ramfs.resolvePath_isSome hok.fsOk.toTreeInv hok.cwd true (hdot _ rfl))
  obtain ⟨s', hls, hshows⟩ := cmdLs_shows (s := ⟨s.fs, s.pcb p, dev⟩) hok e hr
  exact ⟨r, s', hr, hls, hshows⟩

omit hinit hrun hp in
theorem ls_lists_root :
    ∃ s₁ s r s', Sched.boot.procInit 1 = some s₁
      ∧ Run.run Sys.step (Sys.start s₁) [] = some s
      ∧ (⟨s.fs, s.pcb 1, blankDevices⟩ : Session).cmdLs ⟨true, fun _ => 0⟩ none = some s'
      ∧ Shows ⟨s.fs, s.pcb 1, blankDevices⟩ (lsText ⟨s.fs, s.pcb 1, blankDevices⟩ dot r) s' := by
  have h : ((Sched.boot.procInit 1).bind fun s => Run.run Sys.step (Sys.start s) []).map
      (fun s => decide (s.Runs 1)) = some true := by
    decide +kernel
  obtain ⟨s₁, s, h₁, hr, he⟩ := Run.exists_of_eval h
  obtain ⟨r, s', -, hls, hshows⟩ := ls_lists h₁ hr (of_decide_eq_true he) blankDevices
    ⟨true, fun _ => 0⟩ (show ShortArg none from fun _ h => absurd h (by simp))
  exact ⟨s₁, s, r, s', h₁, hr, hls, hshows⟩

/-- If `echo` can open its file, then `cat` of the same path prints the line and behind it what the
file held beyond the line's length, all of it when there is no NUL; no other file changes. -/
theorem echo_cat (dev : Devices) (e e' : Env) {path text : List UInt8} (ht : text.length < 2 ^ 31)
    {fd : ℤ} {t : Session}
    (hopen : (⟨s.fs, s.pcb p, dev⟩ : Session).open (some path) oCreat e.mem = some (fd, t))
    (hfd : 0 ≤ fd) :
    ∃ (n : ℕ) (s' s'' : Session) (shown : List UInt8),
      (⟨s.fs, s.pcb p, dev⟩ : Session).echoTo e (some text) (some path) = some s'
        ∧ s'.cmdCat e' (some path) = some s'' ∧ s'.dev = dev
        ∧ s''.dev = (s'.shows (shown ++ ascii "\n")).dev
        ∧ shown = catText (echoed s.fs s'.fs n text)
        ∧ ((0 : UInt8) ∉ echoed s.fs s'.fs n text → shown = echoed s.fs s'.fs n text)
        ∧ s''.fs.files = s'.fs.files ∧ (∀ m, m ≠ n → s'.fs.files m = s.fs.files m)
        ∧ s'.fs.fileBytes n = echoed s.fs s'.fs n text ∧ s''.cur.fdTable = (s.pcb p).fdTable := by
  obtain ⟨-, hok⟩ := Sys.reached_ok hinit hrun hp
  obtain ⟨n, s', s'', hecho, hcat, hdev, hshown, hfiles, hothers, hbytes, hran⟩ :=
    echoTo_cat (s := ⟨s.fs, s.pcb p, dev⟩) hok e ht hopen hfd e'
  refine ⟨n, s', s'', _, hecho, hcat, hdev, ?_, rfl, fun h0 => catText_eq _ le_rfl h0, hfiles,
    hothers, hbytes, hran.tidy.fds⟩
  rw [hshown]
  unfold shows
  rw [hdev]

end Reached

/-- A short line over the front of a source file. -/
theorem echo_cat_shell :
    ∃ (s₁ : Sched) (s : Sys) (n : ℕ) (s' s'' : Session) (shown : List UInt8),
      Sched.boot.procInit 1 = some s₁ ∧ Run.run Sys.step (Sys.start s₁) [] = some s
        ∧ (⟨s.fs, s.pcb 1, blankDevices⟩ : Session).echoTo ⟨true, fun _ => 0⟩ (some (ascii "hi"))
          (some (ascii "/usr/shell.c")) = some s'
        ∧ s'.cmdCat ⟨true, fun _ => 0⟩ (some (ascii "/usr/shell.c")) = some s''
        ∧ s''.dev = (s'.shows (shown ++ ascii "\n")).dev
        ∧ shown = catText (echoed s.fs s'.fs n (ascii "hi")) := by
  have h : ((Sched.boot.procInit 1).bind fun s => Run.run Sys.step (Sys.start s) []).map
      (fun s => (decide (s.Runs 1), ((⟨s.fs, s.pcb 1, blankDevices⟩ : Session).open
        (some (ascii "/usr/shell.c")) oCreat true).map Prod.fst)) = some (true, some 3) := by
    decide +kernel
  obtain ⟨s₁, s, h₁, hr, he⟩ := Run.exists_of_eval h
  simp only [Prod.mk.injEq, decide_eq_true_eq] at he
  obtain ⟨⟨fd, t⟩, hopen, rfl⟩ := Option.map_eq_some_iff.mp he.2
  obtain ⟨n, s', s'', shown, hecho, hcat, -, hdev, hshown, -⟩ := echo_cat h₁ hr he.1 blankDevices
    ⟨true, fun _ => 0⟩ ⟨true, fun _ => 0⟩ (show (ascii "hi").length < 2 ^ 31 by decide) hopen
    (by decide)
  exact ⟨s₁, s, n, s', s'', shown, h₁, hr, hecho, hcat, hdev, hshown⟩

end Session

end SudoOS
