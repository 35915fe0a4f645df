import SudoOS.Proofs.Printf
import SudoOS.Proofs.FileData
import SudoOS.Proofs.Listing
import SudoOS.Session

/-!
# What the shell's commands leave behind

A call of the process keeps what holds for any caller (`Calls.ok`). A command is a row of calls
after which the descriptors and the open files are what they were (`Ran`); in between, one
descriptor more is open, on one inode (`Opened`), and `printf` only prints (`printf_spell`).
-/

namespace SudoOS

open Format

namespace Session

/-! ## Printing -/

/-- The session with a text on its console. -/
def shows (s : Session) (text : List UInt8) : Session :=
  { s with dev := { s.dev with console := text.foldl Console.kprintChar s.dev.console } }

@[simp] theorem shows_fs (s : Session) (text : List UInt8) : (s.shows text).fs = s.fs := rfl

@[simp] theorem shows_cur (s : Session) (text : List UInt8) : (s.shows text).cur = s.cur := rfl

@[simp] theorem shows_nil (s : Session) : s.shows [] = s := rfl

theorem shows_shows (s : Session) (text text' : List UInt8) :
    (s.shows text).shows text' = s.shows (text ++ text') := by
  simp [shows]

theorem putchar_eq (s : Session) (c : UInt8) : s.putchar c = some (s.shows [c]) := rfl

theorem foldlM_putchar : ∀ (text : List UInt8) (s : Session),
    text.foldlM putchar s = some (s.shows text)
  | [], _ => rfl
  | c :: text, s => by
    rw [List.foldlM_cons, putchar_eq]
    exact (foldlM_putchar text (s.shows [c])).trans (by rw [shows_shows]; rfl)

/-- A text without directives. -/
def Plain (text : List UInt8) : Prop := ∀ c ∈ text, c ≠ 0 ∧ c ≠ percent

instance (text : List UInt8) : Decidable (Plain text) :=
  List.decidableBAll (fun c => c ≠ 0 ∧ c ≠ percent) text

/-- The bytes of a literal are those of the characters it stands for. -/
theorem plain_ofList {cs : List Char} (h : Plain (cs.map fun c => UInt8.ofNat c.toNat)) :
    Plain (ascii (String.ofList cs)) := by
  rwa [ascii, String.toList_ofList]

theorem spell_char (text : List UInt8) : spell percent (text.map Piece.char) = text := by
  induction text with
  | nil => rfl
  | cons c text ih => exact congrArg (c :: ·) ih

theorem prints_append {D : List UInt8 → List VaArg → List UInt8 → List VaArg → Prop}
    {ps : List (Piece UInt8)} {ap ap' : List VaArg} {out : List UInt8} (h : Prints D ps ap out ap')
    (text : List UInt8) : Prints D (text.map Piece.char ++ ps) ap (text ++ out) ap' := by
  induction text with
  | nil => exact h
  | cons c text ih => exact .char c ih

theorem Plain.ok {text : List UInt8} (h : Plain text) {width : UInt8 → ℕ} :
    ∀ p ∈ text.map Piece.char, p.Ok 0 percent width := by
  intro p hp
  obtain ⟨c, hc, rfl⟩ := List.mem_map.mp hp
  exact h c hc

theorem length_ascii (text : String) : (ascii text).length = text.length := by
  rw [ascii, List.length_map, String.length_toList]

/-- A format that is spelled by pieces. -/
theorem printf_spell {s : Session} {format : String} {ap ap' : List VaArg} {out : List UInt8}
    {ps : List (Piece UInt8)} (hf : ascii format = spell percent ps)
    (hps : ∀ p ∈ ps, p.Ok 0 percent fun _ => 1) (hlen : ps.length ≤ format.length)
    (hout : Prints User.Converts ps ap out ap') : s.printf format ap = some (s.shows out) := by
  have hrun := (run_text (by decide) (User.printfSwitch_meets fun _ _ => 0) hps
    (format.length - ps.length) (fun _ => 0) ap out).mpr ⟨ap', hout⟩
  have hfuel : ps.length + (format.length - ps.length + 1) = format.length + 1 := by omega
  rw [hfuel, ← hf] at hrun
  unfold printf User.printf
  rw [hrun]
  exact foldlM_putchar out s

theorem printf_plain {s : Session} {format : String} (h : Plain (ascii format))
    (ap : List VaArg) : s.printf format ap = some (s.shows (ascii format)) := by
  have hprints := prints_append (D := User.Converts) (.nil ap) (ascii format)
  rw [List.append_nil, List.append_nil] at hprints
  refine printf_spell (spell_char _).symm h.ok ?_ hprints
  rw [List.length_map, length_ascii]

/-- A format of plain text around one directive. -/
theorem printf_directive (pre post : List UInt8) {s : Session} {format : String} {a : VaArg}
    {out : List UInt8} {c : UInt8} (hf : ascii format = pre ++ percent :: c :: post)
    (hpre : Plain pre) (hpost : Plain post) (hc : c ≠ 0) (hout : User.Converts [c] [a] out []) :
    s.printf format [a] = some (s.shows (pre ++ out ++ post)) := by
  have hpost' := prints_append (D := User.Converts) (.nil []) post
  have hprints := prints_append (.directive hout hpost') pre
  have hlen := congrArg List.length hf
  simp only [length_ascii, List.length_append, List.length_cons] at hlen
  rw [List.append_nil, List.append_nil, ← List.append_assoc] at hprints
  refine printf_spell ?_ ?_ ?_ hprints
  · change _ = List.flatMap _ _
    rw [hf, List.flatMap_append, List.flatMap_cons]
    change _ = spell percent _ ++ (_ ++ spell percent _)
    rw [spell_char, spell_char]
    rfl
  · intro p hp
    rcases List.mem_append.mp hp with hp | hp
    · exact hpre.ok p hp
    rcases List.mem_cons.mp hp with rfl | hp
    · exact ⟨by simpa using hc.symm, c, [], rfl, rfl⟩
    · exact hpost.ok p hp
  · simp only [List.length_append, List.length_cons, List.length_map]
    omega

/-- The formats with one string. -/
theorem printf_str (pre post : List UInt8) {s : Session} {format : String}
    (hf : ascii format = pre ++ percent :: 's'.toUInt8 :: post) (hpre : Plain pre)
    (hpost : Plain post) (text : List UInt8) :
    s.printf format [.str (some text)] = some (s.shows (pre ++ text ++ post)) :=
  printf_directive pre post hf hpre hpost (by decide) (.s text [])

end Session

/-! ## Calls -/

namespace Ramfs

/-- Without content there is nothing to read. -/
def Backed (fs : Ramfs) : Prop := ∀ i, (fs.files i).content = none → (fs.files i).size = 0

/-- What holds for a process that calls. -/
structure CallerOk (fs : Ramfs) (cur : Pcb) : Prop where
  fsOk : FsOk fs
  backed : fs.Backed
  cwd : fs.DirIdx cur.cwdInode
  fdLen : cur.fdTable.length = maxFd

/-- A call of the process. -/
inductive CallRel : Ramfs × Pcb → Ramfs × Pcb → Prop
  | call {fs fs' : Ramfs} {cur cur' : Pcb} (c : Call) (h : fs.perform cur c = some (fs', cur')) :
    CallRel (fs, cur) (fs', cur')
  | getdents64 {fs fs' : Ramfs} {cur : Pcb} (fd : ℤ) (dirp buf : ℕ → UInt8) (count : BitVec 32)
    (n : ℤ) (h : fs.ramfsGetdents64 cur fd dirp count = some (n, buf, fs')) :
    CallRel (fs, cur) (fs', cur)

/-- Calls of the process, one after the other. -/
abbrev Calls : Ramfs × Pcb → Ramfs × Pcb → Prop := Relation.ReflTransGen CallRel

section

variable {fs fs' : Ramfs} {cur cur' : Pcb}

theorem createInode_backed {r : Resolved} {type : RamfsType} {content : Option (List UInt8)} {k : ℕ}
    (h : fs.createInode r type content = some (k, fs')) (hb : fs.Backed) : fs'.Backed := by
  obtain ⟨-, -, -, -, rfl⟩ := createInode_cases h
  intro i hi
  by_cases hik : i = k
  · simp [setNode, hik]
  · simp only [setNode, Function.update_of_ne hik] at hi ⊢
    exact hb i hi

theorem perform_backed {c : Call} (h : fs.perform cur c = some (fs', cur')) (hb : fs.Backed) :
    fs'.Backed := by
  cases c with
  | «open» path flags mem =>
    obtain ⟨⟨ret, fs₁, cur₁⟩, hr, he⟩ := Option.map_eq_some_iff.mp h
    obtain ⟨rfl, rfl⟩ := Prod.mk.inj he
    obtain ⟨r, -, hends⟩ := ramfsOpen_ends hr
    have hopen : ∀ {n : ℕ} {fs₁ : Ramfs}, fs.openInode r flags = some (n, fs₁) →
        fs₁.Backed := by
      intro n fs₁ hn
      rcases openInode_cases hn with ⟨-, -, rfl⟩ | ⟨-, -, hcr⟩
      · exact hb
      · exact createInode_backed hcr hb
    cases hends with
    | noInode => exact hb
    | noFile n _ hn => exact hopen hn
    | noFd n f fs₁ fs₂ hn => exact (hopen hn : fs₁.Backed)
    | opened n f i fs₁ fs₂ hn => exact (hopen hn : fs₁.Backed)
  | mkdir path =>
    obtain ⟨⟨ret, fs₁⟩, hr, he⟩ := Option.map_eq_some_iff.mp h
    obtain ⟨rfl, -⟩ := Prod.mk.inj he
    obtain ⟨r, -, ⟨-, rfl⟩ | ⟨-, -, k, hcr⟩⟩ := ramfsMkdir_ends hr
    · exact hb
    · exact createInode_backed hcr hb
  | chdir path =>
    obtain ⟨⟨ret, cur₁⟩, hr, he⟩ := Option.map_eq_some_iff.mp h
    obtain ⟨rfl, -⟩ := Prod.mk.inj he
    exact hb
  | read fd count =>
    obtain ⟨⟨ret, data, fs₁⟩, hr, he⟩ := Option.map_eq_some_iff.mp h
    obtain ⟨rfl, -⟩ := Prod.mk.inj he
    cases ramfsRead_ends hr with
    | noFile => exact hb
    | dir => exact hb
    | atEnd => exact hb
    | nothing => exact hb
    | read => exact hb
  | write fd buf count =>
    obtain ⟨⟨ret, fs₁⟩, hr, he⟩ := Option.map_eq_some_iff.mp h
    obtain ⟨rfl, -⟩ := Prod.mk.inj he
    rcases ramfsWrite_ends hr with rfl | ⟨f, n, bytes, -, -, -, -, -, rfl⟩
    · exact hb
    · intro i hi
      by_cases hin : i = n
      · simp [setNode, hin] at hi
      · simp only [setNode, setFile, Function.update_of_ne hin] at hi ⊢
        exact hb i hi
  | close fd =>
    obtain ⟨rfl, -⟩ := Prod.mk.inj (Option.some.inj h)
    cases fdFile cur fd <;> exact hb

theorem HandlesStep.length (h : HandlesStep fs fs' cur cur') :
    cur'.fdTable.length = cur.fdTable.length := by
  rcases h with (⟨-, hf⟩ | ⟨k, f, n, -, -, -, -, -, hf⟩ | ⟨f, -, -, hf⟩) | ⟨fd, f, -, -, hf⟩
    | ⟨fd, f, n, o, -, -, -, -, hf⟩ <;> rw [hf] <;> simp

theorem CallRel.ok {a b : Ramfs × Pcb} (h : CallRel a b) (ha : CallerOk a.1 a.2) :
    CallerOk b.1 b.2 := by
  cases h with
  | call c h =>
    have hstep := perform_step ha.fsOk ha.cwd h
    have hok := perform_ok ha.fsOk.toTreeInv ha.cwd h
    exact ⟨hstep.fsOk ha.fsOk hok.tree, perform_backed h ha.backed, hok.cwd,
      hstep.handles.length.trans ha.fdLen⟩
  | @getdents64 fs fs' cur fd dirp buf count n h =>
    have hfiles := ramfsGetdents64_files h
    have hsame := SameTree.rfl_of_files hfiles
    have hstep := ramfsGetdents64_step ha.fsOk h
    refine ⟨hstep.fsOk ha.fsOk (hsame.treeInv ha.fsOk.toTreeInv), fun i => ?_,
      hsame.keepsDirs.dirIdx ha.cwd, ha.fdLen⟩
    rw [hfiles]
    exact ha.backed i

theorem Calls.ok {a b : Ramfs × Pcb} (h : Calls a b) (ha : CallerOk a.1 a.2) :
    CallerOk b.1 b.2 := by
  induction h with
  | refl => exact ha
  | tail _ h ih => exact h.ok ih

/-- The same descriptors as before, on the same open files, and no others taken. -/
structure Tidy (fs fs' : Ramfs) (cur cur' : Pcb) : Prop where
  fds : cur'.fdTable = cur.fdTable
  kept : ∀ g, (fs.globalFileTable g).refCount ≠ 0 → fs'.globalFileTable g = fs.globalFileTable g
  free : ∀ g, (fs.globalFileTable g).refCount = 0 → (fs'.globalFileTable g).refCount = 0

theorem Tidy.refl (fs : Ramfs) (cur : Pcb) : Tidy fs fs cur cur :=
  ⟨rfl, fun _ _ => rfl, fun _ h => h⟩

theorem Tidy.trans {fs'' : Ramfs} {cur'' : Pcb} (h : Tidy fs fs' cur cur')
    (h' : Tidy fs' fs'' cur' cur'') : Tidy fs fs'' cur cur'' := by
  refine ⟨h'.fds.trans h.fds, fun g hg => ?_, fun g hg => h'.free g (h.free g hg)⟩
  have hsame := h.kept g hg
  exact (h'.kept g (by rwa [hsame])).trans hsame

/-- Since `fs` and `cur` the process has opened `fd` on inode `n`, through the open file `f`, and
nothing else. -/
structure Opened (fs fs' : Ramfs) (cur cur' : Pcb) (fd : ℤ) (f n : ℕ) : Prop where
  lowest : freeFd cur = some fd.toNat ∧ 0 ≤ fd
  free : (fs.globalFileTable f).refCount = 0
  table : ∀ g, g ≠ f → fs'.globalFileTable g = fs.globalFileTable g
  node : (fs'.globalFileTable f).node = some n
  fds : cur'.fdTable = cur.fdTable.set fd.toNat (some f)

/-- Only the offset of the open file has changed. -/
def Moves (fs fs' : Ramfs) (f : ℕ) : Prop :=
  ∃ offset, fs'.globalFileTable = Function.update fs.globalFileTable f
    { fs.globalFileTable f with offset := offset }

theorem Moves.refl (fs : Ramfs) (f : ℕ) : Moves fs fs f :=
  ⟨(fs.globalFileTable f).offset, (Function.update_eq_self ..).symm⟩

section Opened

variable {fd : ℤ} {f n : ℕ} (h : Opened fs fs' cur cur' fd f n)

include h

theorem Opened.bounds : 3 ≤ fd ∧ fd < 16 := by
  have := freeFd_cases h.lowest.1
  have := h.lowest.2
  unfold maxFd at *
  omega

theorem Opened.fdFile (hlen : cur.fdTable.length = maxFd) : fdFile cur' fd = some f := by
  obtain ⟨h3, h16⟩ := h.bounds
  have hin : fd.toNat < cur.fdTable.length := by
    rw [hlen]
    unfold maxFd
    omega
  unfold Ramfs.fdFile
  rw [if_neg (by unfold maxFd; omega), h.fds]
  simp [hin]

theorem Opened.moves {fs'' : Ramfs} (hm : Moves fs' fs'' f) : Opened fs fs'' cur cur' fd f n := by
  obtain ⟨offset, htab⟩ := hm
  refine ⟨h.lowest, h.free, fun g hg => ?_, ?_, h.fds⟩
  · rw [htab, Function.update_of_ne hg, h.table g hg]
  · rw [htab, Function.update_self]
    exact h.node

theorem Opened.close (hlen : cur.fdTable.length = maxFd) :
    Tidy fs (fs'.ramfsClose cur' fd).1 cur (fs'.ramfsClose cur' fd).2 := by
  obtain ⟨-, -, hnone⟩ := freeFd_cases h.lowest.1
  unfold ramfsClose
  rw [h.fdFile hlen]
  refine ⟨?_, fun g hg => ?_, fun g hg => ?_⟩
  · dsimp only
    rw [h.fds, List.set_set]
    have hin : fd.toNat < cur.fdTable.length := by
      obtain ⟨h3, h16⟩ := h.bounds
      rw [hlen]
      unfold maxFd
      omega
    rw [List.getD_eq_getElem _ _ hin] at hnone
    rw [← hnone, List.set_getElem_self]
  · have hgf : g ≠ f := fun he => hg (he ▸ h.free)
    simp [freeFileHandle, setFile, hgf, h.table g hgf]
  · by_cases hgf : g = f
    · simp [freeFileHandle, setFile, hgf]
    · simpa [freeFileHandle, setFile, hgf, h.table g hgf] using hg

end Opened

/-! ### Single calls -/

/-- A null pointer is not opened. -/
theorem ramfsOpen_null (fs : Ramfs) (cur : Pcb) (flags : BitVec 32) (mem : Bool) :
    fs.ramfsOpen cur none flags mem = some (-1, fs, cur) := by
  have hno : fs.openInode ⟨-1, none, none⟩ flags = none := by
    unfold openInode
    rw [if_neg (by simp)]
    split_ifs <;> rfl
  unfold ramfsOpen
  simp only [resolvePath, Option.bind_some, hno]

section Single

variable (hok : CallerOk fs cur)

include hok

/-- An open leaves the caller without a new descriptor, or with one. -/
theorem ramfsOpen_tidy {path : Option (List UInt8)} {flags : BitVec 32} {mem : Bool} {ret : ℤ}
    (h : fs.ramfsOpen cur path flags mem = some (ret, fs', cur')) :
    (ret = -1 ∧ Tidy fs fs' cur cur') ∨ ∃ f n, Opened fs fs' cur cur' ret f n := by
  obtain ⟨r, hr, hends⟩ := ramfsOpen_ends h
  have hres := resolvePath_ok hok.fsOk.toTreeInv hok.cwd true hr
  have htable : ∀ {n : ℕ} {fs₁ : Ramfs}, fs.openInode r flags = some (n, fs₁) →
      fs₁.globalFileTable = fs.globalFileTable :=
    fun hn => (openInode_step hres (resolvePath_name hr) hn).2.1
  cases hends with
  | noInode => exact .inl ⟨rfl, .refl _ _⟩
  | noFile n _ hn =>
    have htab := htable hn
    exact .inl ⟨rfl, rfl, fun g _ => congrFun htab g, fun g hg => by rwa [htab]⟩
  | noFd n f fs₁ fs₂ hn hf =>
    obtain ⟨-, hfree, -⟩ := allocFileHandle_cases hf
    have htab := htable hn
    rw [htab] at hfree
    refine .inl ⟨rfl, rfl, fun g hg => ?_, fun g hg => ?_⟩
    · have hgf : g ≠ f := fun he => hg (he ▸ hfree)
      simp [setFile, hgf, htab]
    · by_cases hgf : g = f
      · simp [setFile, hgf]
      · simpa [setFile, hgf, htab] using hg
  | opened n f i fs₁ fs₂ hn hf hfd =>
    obtain ⟨-, hfree, -⟩ := allocFileHandle_cases hf
    have htab := htable hn
    rw [htab] at hfree
    refine .inr ⟨f, n, ⟨hfd, by omega⟩, hfree, fun g hg => ?_, ?_, rfl⟩
    · simp [setFile, hg, htab]
    · simp [setFile]

/-- A read from an open file. -/
theorem ramfsRead_opened {fs₀ : Ramfs} {cur₀ : Pcb} {fd : ℤ} {f n : ℕ}
    (h : Opened fs₀ fs cur₀ cur fd f n) (hlen : cur₀.fdTable.length = maxFd) (count : BitVec 32) :
    ∃ ret data fs', fs.ramfsRead cur fd count = some (ret, data, fs')
      ∧ CallRel (fs, cur) (fs', cur) ∧ Opened fs₀ fs' cur₀ cur fd f n ∧ fs'.files = fs.files := by
  obtain ⟨⟨ret, data, fs'⟩, hread⟩ : ∃ x, fs.ramfsRead cur fd count = some x := by
    unfold ramfsRead
    rw [h.fdFile hlen]
    simp only [h.node, Option.bind_some]
    rcases hc : (fs.files n).content with _ | bytes
    · rw [if_pos (show (fs.globalFileTable f).offset ≥ (fs.files n).size from
        (hok.backed n hc).trans_le (Nat.zero_le _))]
      split_ifs <;> exact ⟨_, rfl⟩
    · split_ifs <;> exact ⟨_, rfl⟩
  refine ⟨ret, data, fs', hread, .call (.read fd count) (by rw [perform, hread]; rfl), ?_⟩
  have hfile := h.fdFile hlen
  cases ramfsRead_ends hread with
  | noFile hf => exact ⟨h, rfl⟩
  | dir => exact ⟨h, rfl⟩
  | atEnd => exact ⟨h, rfl⟩
  | nothing => exact ⟨h, rfl⟩
  | read g m bytes hf =>
    obtain rfl := Option.some.inj (hfile.symm.trans hf)
    exact ⟨h.moves ⟨_, rfl⟩, rfl⟩

/-- A write to an open file. -/
theorem ramfsWrite_opened {fs₀ : Ramfs} {cur₀ : Pcb} {fd : ℤ} {f n : ℕ}
    (h : Opened fs₀ fs cur₀ cur fd f n) (hlen : cur₀.fdTable.length = maxFd) (buf : ℕ → UInt8)
    (count : BitVec 32) :
    ∃ ret fs', fs.ramfsWrite cur fd buf count = some (ret, fs')
      ∧ CallRel (fs, cur) (fs', cur) ∧ Opened fs₀ fs' cur₀ cur fd f n := by
  obtain ⟨⟨ret, fs'⟩, hwrite⟩ : ∃ x, fs.ramfsWrite cur fd buf count = some x := by
    unfold ramfsWrite
    rw [h.fdFile hlen]
    simp only [h.node, Option.map_some]
    exact ⟨_, rfl⟩
  refine ⟨ret, fs', hwrite, .call (.write fd buf count) (by rw [perform, hwrite]; rfl), ?_⟩
  rcases ramfsWrite_ends hwrite with rfl | ⟨g, m, bytes, hf, -, -, -, -, rfl⟩
  · exact h
  · obtain rfl := Option.some.inj ((h.fdFile hlen).symm.trans hf)
    exact h.moves ⟨_, rfl⟩

/-- The bytes of a file; a directory has none. -/
def fileBytes (fs : Ramfs) (n : ℕ) : List UInt8 :=
  if (fs.files n).type = .dir then [] else ((fs.files n).content.getD []).take (fs.files n).size

/-- A read from an open file takes what is there from the offset on. -/
theorem ramfsRead_bytes {fs₀ : Ramfs} {cur₀ : Pcb} {fd : ℤ} {f n : ℕ}
    (h : Opened fs₀ fs cur₀ cur fd f n) (hlen : cur₀.fdTable.length = maxFd)
    (hfile : (fs.files n).type ≠ .dir) {count : BitVec 32} (hc : 0 ≤ count.toInt) {l : List UInt8}
    (hl : (fs.fileBytes n).drop (fs.globalFileTable f).offset = l) :
    fs.ramfsRead cur fd count = some (((l.take count.toInt.toNat).length : ℤ),
      l.take count.toInt.toNat, fs.setFile f { fs.globalFileTable f with
        offset := (fs.globalFileTable f).offset + (l.take count.toInt.toNat).length }) := by
  have hfd := h.fdFile hlen
  obtain ⟨hu, ho⟩ := hok.fsOk.handles f n h.node
  rw [offsetBound, if_neg hfile] at ho
  rw [fileBytes, if_neg hfile] at hl
  rcases hcontent : (fs.files n).content with _ | bytes
  · have h0 := hok.backed n hcontent
    rw [hcontent, h0] at hl
    have hnil : l = [] := by rw [← hl]; simp
    have hself := setFile_eq_self fs f
    have hzero : (fs.globalFileTable f).offset = 0 := by omega
    simp only [hnil, List.take_nil, List.length_nil, Nat.add_zero, Nat.cast_zero]
    rw [hself]
    simp [ramfsRead, hfd, h.node, hfile, h0]
  · obtain ⟨b, hb⟩ := exists_represents hok.fsOk hu hfile (by simp [hcontent])
    have hbytes : b.bytes = bytes.take (fs.files n).size := by
      obtain ⟨bytes', hb', heq⟩ := hb.page
      rw [hcontent] at hb'
      rw [heq, Option.some.inj hb']
    have hoff := hb.offset f h.node
    have hdata : (b.read f count.toInt.toNat).1 = l.take count.toInt.toNat := by
      rw [← hl, hcontent, Option.getD_some, ← hbytes, ← hoff]
      rfl
    have hread := ramfsRead_eq hb hok.fsOk hfd h.node hc
    have hnew : (b.read f count.toInt.toNat).2.offset f
        = (fs.globalFileTable f).offset + (l.take count.toInt.toNat).length := by
      rw [← hdata, ← hoff]
      simp [ByteFile.read]
    rw [hread, hnew, hdata]

end Single

end

end Ramfs

namespace Session

/-- What holds of a session between the commands. -/
abbrev Ok (s : Session) : Prop := Ramfs.CallerOk s.fs s.cur

/-- The calls that lead from one session to another. -/
abbrev Calls (s s' : Session) : Prop := Ramfs.Calls (s.fs, s.cur) (s'.fs, s'.cur)

abbrev Tidy (s s' : Session) : Prop := Ramfs.Tidy s.fs s'.fs s.cur s'.cur

abbrev Opened (s s' : Session) : ℤ → ℕ → ℕ → Prop := Ramfs.Opened s.fs s'.fs s.cur s'.cur

/-- What a command does: calls that leave nothing open, and no key is read. -/
structure Ran (s s' : Session) : Prop where
  calls : Calls s s'
  tidy : Tidy s s'
  keys : s'.dev.keyboard = s.dev.keyboard

theorem Ran.refl (s : Session) : Ran s s := ⟨.refl, .refl _ _, rfl⟩

theorem Ran.trans {s s' s'' : Session} (h : Ran s s') (h' : Ran s' s'') : Ran s s'' :=
  ⟨h.calls.trans h'.calls, h.tidy.trans h'.tidy, h'.keys.trans h.keys⟩

theorem Ran.ok {s s' : Session} (h : Ran s s') (hok : s.Ok) : s'.Ok :=
  Ramfs.Calls.ok h.calls hok

/-- A command that only prints. -/
theorem ran_shows (s : Session) (text : List UInt8) : Ran s (s.shows text) :=
  ⟨.refl, .refl _ _, rfl⟩

/-! ## The calls of the library -/

theorem intArg_signExtend (n : BitVec 32) : intArg (n.signExtend 64) = n := by
  unfold intArg
  ext i hi
  rw [BitVec.getElem_setWidth, BitVec.getLsbD_eq_getElem (by omega), BitVec.getElem_signExtend,
    dif_pos hi]

theorem intArg_ofInt (n : ℤ) : intArg (BitVec.ofInt 64 n) = BitVec.ofInt 32 n := by
  unfold intArg
  apply BitVec.eq_of_toNat_eq
  rw [BitVec.toNat_setWidth, BitVec.toNat_ofInt, BitVec.toNat_ofInt]
  omega

theorem toInt_ofInt {n : ℤ} (h : -2 ^ 31 ≤ n ∧ n < 2 ^ 31) : (BitVec.ofInt 32 n).toInt = n := by
  rw [BitVec.toInt_ofInt]
  exact Int.bmod_eq_of_le (by omega) (by omega)

theorem ofInt_fd_ne {fd : ℤ} (h : 3 ≤ fd ∧ fd < 16) {n : ℕ} (hn : n < 3) :
    BitVec.ofInt 64 fd ≠ BitVec.ofNat 64 n := by
  intro h0
  have := congrArg BitVec.toNat h0
  rw [BitVec.toNat_ofInt, BitVec.toNat_ofNat] at this
  omega

/-- `read` of a descriptor that is a file. -/
theorem read_file {s : Session} {fd : ℤ} (h : 3 ≤ fd ∧ fd < 16) (count : BitVec 32) :
    s.read fd count = (s.fs.ramfsRead s.cur fd count).map fun r =>
      ((BitVec.ofInt 32 r.1).toInt, r.2.1, { s with fs := r.2.2 }) := by
  have hne : BitVec.ofInt 64 fd ≠ 0 := ofInt_fd_ne (n := 0) h (by omega)
  have hfd : (intArg (BitVec.ofInt 64 fd)).toInt = fd := by
    rw [intArg_ofInt, toInt_ofInt (by omega)]
  unfold read sysRead
  rw [if_neg hne, hfd, intArg_signExtend, Option.map_map]
  congr 1
  funext r
  simp [intArg_ofInt]

/-- `write` to a descriptor that is a file. -/
theorem write_file {s : Session} {fd : ℤ} (h : 3 ≤ fd ∧ fd < 16) (buf : ℕ → UInt8)
    (count : BitVec 32) :
    s.write fd buf count = (s.fs.ramfsWrite s.cur fd buf count).map fun r =>
      ((BitVec.ofInt 32 r.1).toInt, { s with fs := r.2 }) := by
  have hne : ¬ (BitVec.ofInt 64 fd = 1 ∨ BitVec.ofInt 64 fd = 2) :=
    not_or.mpr ⟨ofInt_fd_ne (n := 1) h (by omega), ofInt_fd_ne (n := 2) h (by omega)⟩
  have hfd : (intArg (BitVec.ofInt 64 fd)).toInt = fd := by
    rw [intArg_ofInt, toInt_ofInt (by omega)]
  unfold write sysWrite
  rw [if_neg hne, hfd, intArg_signExtend,
    Option.map_map]
  congr 1
  funext r
  simp [intArg_ofInt]

/-- A path whose components fit the buffers of `resolve_path`. -/
def ShortArg (path : Option (List UInt8)) : Prop := ∀ p ∈ path, Ramfs.PathOk (cstr (p ++ [0]) 0)

theorem open_ends {s s' : Session} (hok : s.Ok) {path : Option (List UInt8)} {flags : BitVec 32}
    {mem : Bool} {fd : ℤ} (h : s.open path flags mem = some (fd, s')) :
    s'.dev = s.dev ∧ Calls s s' ∧ ((fd = -1 ∧ Tidy s s') ∨ ∃ f n, Opened s s' fd f n) := by
  obtain ⟨⟨fd₁, fs', cur'⟩, hopen, he⟩ := Option.map_eq_some_iff.mp h
  obtain ⟨rfl, rfl⟩ := Prod.mk.inj he
  rcases path with _ | path
  · rw [pathArg, Option.map_none, Ramfs.ramfsOpen_null] at hopen
    simp only [Option.some.injEq, Prod.mk.injEq] at hopen
    obtain ⟨rfl, rfl, rfl⟩ := hopen
    exact ⟨rfl, .refl, .inl ⟨rfl, .refl _ _⟩⟩
  · exact ⟨rfl, .single (.call (.open (some (path ++ [0])) flags mem) (by
      rw [Ramfs.perform, show s.fs.ramfsOpen s.cur (some (path ++ [0])) flags mem = _ from hopen]
      rfl)), Ramfs.ramfsOpen_tidy hok hopen⟩

/-- An open that has the memory for a new file comes to its end. -/
theorem open_isSome {s : Session} (hok : s.Ok) {path : Option (List UInt8)} (hp : ShortArg path)
    (flags : BitVec 32) {mem : Bool} (hmem : flags &&& oCreat = 0 ∨ mem = true) :
    (s.open path flags mem).isSome := by
  rw [«open», Option.isSome_map]
  rcases path with _ | path
  · rw [pathArg, Option.map_none, Ramfs.ramfsOpen_null]
    rfl
  · obtain ⟨r, hr⟩ := Option.isSome_iff_exists.mp
      (Ramfs.resolvePath_isSome hok.fsOk.toTreeInv hok.cwd true (hp path rfl))
    exact Ramfs.ramfsOpen_isSome flags mem hr (.inr hmem)

theorem open_cases {s : Session} (hok : s.Ok) {path : Option (List UInt8)} (hp : ShortArg path)
    (flags : BitVec 32) {mem : Bool} (hmem : flags &&& oCreat = 0 ∨ mem = true) :
    ∃ fd s', s.open path flags mem = some (fd, s')
      ∧ s'.dev = s.dev ∧ Calls s s' ∧ ((fd = -1 ∧ Tidy s s') ∨ ∃ f n, Opened s s' fd f n) := by
  obtain ⟨⟨fd, s'⟩, h⟩ := Option.isSome_iff_exists.mp (open_isSome hok hp flags hmem)
  exact ⟨fd, s', h, open_ends hok h⟩

theorem close_calls (s : Session) (fd : ℤ) : Calls s (s.close fd) :=
  .single (.call (.close fd) rfl)

end Session

end SudoOS
