import Mathlib.Data.List.TakeWhile
import SudoOS.Ramfs
import SudoOS.Proofs.Proc
import SudoOS.Proofs.Str

/-!
# The tree of the RAM file system

Inodes are never given back, so the used ones are an initial part of the table and a new one comes
after its directory. `resolve_path` walks from directory to directory, and where it reports a
missing last component it stands in a directory that has no entry of that name, with a name that is
neither empty nor `.` or `..` and holds no slash (`resolvePath_ok`). So whatever is created hangs
below an older directory under a name of its own (`ramfs_tree`).
-/

namespace SudoOS

namespace Ramfs

def Used (fs : Ramfs) (i : ℕ) : Prop := i < maxFiles ∧ (fs.files i).isUsed = true

instance (fs : Ramfs) (i : ℕ) : Decidable (fs.Used i) := inferInstanceAs (Decidable (_ ∧ _))

def IsDir (fs : Ramfs) (i : ℕ) : Prop := fs.Used i ∧ (fs.files i).type = .dir

/-- An `int` that indexes a directory. -/
def DirIdx (fs : Ramfs) (c : ℤ) : Prop := ∃ i : ℕ, c = i ∧ fs.IsDir i

/-- A name a file or directory can have. -/
structure NameOk (name : List UInt8) : Prop where
  nonempty : name ≠ []
  noSlash : slash ∉ name
  notDot : name ≠ dot
  notDotDot : name ≠ dotDot

structure TreeOk (fs : Ramfs) : Prop where
  root : fs.IsDir 0 ∧ (fs.files 0).parentIdx = -1
  node : ∀ i, i ≠ 0 → fs.Used i → (fs.files i).inodeIdx = i ∧ NameOk (fs.files i).name
    ∧ ∃ p : ℕ, (fs.files i).parentIdx = p ∧ p < i ∧ fs.IsDir p
  unique : ∀ i j, fs.Used i → fs.Used j → (fs.files i).parentIdx = (fs.files j).parentIdx →
    (fs.files i).name = (fs.files j).name → i = j

structure TreeInv (fs : Ramfs) : Prop extends TreeOk fs where
  packed : ∀ i j, fs.Used i → j ≤ i → fs.Used j

/-! ## Resolving a path -/

theorem TreeInv.parent_dir {fs : Ramfs} (h : TreeInv fs) {c : ℤ} (hc : fs.DirIdx c)
    (hp : (fs.node c).parentIdx ≠ -1) : fs.DirIdx (fs.node c).parentIdx := by
  obtain ⟨i, rfl, hi⟩ := hc
  have hnode : fs.node (i : ℤ) = fs.files i := rfl
  rw [hnode] at hp ⊢
  by_cases h0 : i = 0
  · rw [h0] at hp
    exact absurd h.root.2 hp
  · obtain ⟨-, -, p, hpi, -, hdir⟩ := h.node i h0 hi.1
    exact ⟨p, hpi, hdir⟩

theorem lookup_cases (fs : Ramfs) (curr : ℤ) (name : List UInt8) :
    (fs.lookup curr name = -1
        ∧ ∀ i, fs.Used i → (fs.files i).parentIdx = curr → (fs.files i).name ≠ name)
      ∨ ∃ i : ℕ, fs.lookup curr name = i ∧ fs.Used i := by
  unfold lookup
  rcases hf : (List.range maxFiles).find? (fun i =>
    (fs.files i).isUsed && (fs.files i).parentIdx == curr && (fs.files i).name == name) with _ | i
  · refine .inl ⟨rfl, fun i hi hp hn => ?_⟩
    have := List.find?_eq_none.mp hf i (List.mem_range.mpr hi.1)
    simp [hi.2, hp, hn] at this
  · have hi := List.find?_some hf
    simp only [Bool.and_eq_true] at hi
    exact .inr ⟨i, rfl, List.mem_range.mp (List.mem_of_find?_eq_some hf), hi.1.1⟩

/-- An inode found, or a place for a new one. -/
structure ResolvedOk (fs : Ramfs) (r : Resolved) : Prop where
  found : r.inode ≠ -1 → ∃ i : ℕ, r.inode = i ∧ fs.Used i
  missing : r.inode = -1 → r.parentOut = none ∨ ∃ (p : ℕ) (name : List UInt8),
    r.parentOut = some (p : ℤ) ∧ r.nameOut = some name ∧ fs.IsDir p ∧ NameOk name
      ∧ ∀ i, fs.Used i → (fs.files i).parentIdx = p → (fs.files i).name ≠ name

theorem ResolvedOk.of_dir {fs : Ramfs} {c : ℤ} (hc : fs.DirIdx c) (po : Option ℤ)
    (no : Option (List UInt8)) : ResolvedOk fs ⟨c, po, no⟩ := by
  obtain ⟨i, rfl, hi⟩ := hc
  exact ⟨fun _ => ⟨i, rfl, hi.1⟩, fun h => by simp at h⟩

theorem resolveLoop_ok {fs : Ramfs} (h : TreeInv fs) (w : Bool) :
    ∀ (fuel : ℕ) (pre : List UInt8) {r : List UInt8} {curr : ℤ} {res : Resolved}, (0 : UInt8) ∉ r →
      fs.DirIdx curr → resolveLoop fs w fuel (pre ++ (r ++ [0])) pre.length curr = some res →
        ResolvedOk fs res
  | 0, pre, r, curr, res, _, hc, he => by
    simp only [resolveLoop, Option.some.injEq] at he
    subst he
    exact .of_dir hc _ _
  | fuel + 1, pre, r, curr, res, hr, hc, he => by
    unfold resolveLoop at he
    rcases strtokR_cases pre.length (by decide : slash ≠ 0) hr
      with ⟨-, q, hs⟩ | ⟨pos, pre', token, r', hs, htok, ht⟩
    · rw [hs] at he
      simp only [Option.some.injEq] at he
      subst he
      exact .of_dir hc _ _
    · have hr' : (0 : UInt8) ∉ r' := fun h0 => hr (ht.suffix.subset h0)
      rw [hs] at he
      simp only [htok, if_neg ht.nonempty] at he
      by_cases hdot : token = dot
      · rw [if_pos hdot] at he
        exact resolveLoop_ok h w fuel pre' hr' hc he
      rw [if_neg hdot] at he
      by_cases hdd : token = dotDot
      · rw [if_pos hdd] at he
        refine resolveLoop_ok h w fuel pre' hr' ?_ he
        split_ifs with hup
        · exact h.parent_dir hc hup
        · exact hc
      rw [if_neg hdd] at he
      have hname : NameOk token := ⟨ht.nonempty, ht.noDelim, hdot, hdd⟩
      rcases lookup_cases fs curr token with ⟨hl, hfresh⟩ | ⟨i, hl, hi⟩
      · rw [hl] at he
        split_ifs at he with h1 h2 h3
        · simp only [Option.some.injEq] at he
          subst he
          exact ⟨fun hc => absurd rfl hc, fun _ => .inl rfl⟩
        · exact absurd (Or.inl rfl) h2
        · simp only [Option.some.injEq] at he
          subst he
          obtain ⟨c, rfl, hdir⟩ := hc
          exact ⟨fun hc => absurd rfl hc, fun _ => .inr ⟨c, token, rfl, rfl, hdir, hname, hfresh⟩⟩
      · rw [hl] at he
        split_ifs at he with h1 h2 h3
        · simp only [Option.some.injEq] at he
          subst he
          exact ⟨fun hc => absurd rfl hc, fun _ => .inl rfl⟩
        · refine resolveLoop_ok h w fuel pre' hr' ⟨i, rfl, hi, ?_⟩ he
          by_contra htype
          exact h2 (.inr htype)
        · simp only [Option.some.injEq] at he
          subst he
          refine ⟨fun _ => ⟨i, rfl, hi⟩, fun hm => ?_⟩
          have : (i : ℤ) = -1 := hm
          omega

/-- A token takes at least a byte, so more fuel than bytes left changes nothing. -/
theorem resolveLoop_fuel (fs : Ramfs) (w : Bool) :
    ∀ {f g : ℕ} {pre r : List UInt8} {curr : ℤ}, (0 : UInt8) ∉ r → r.length < f → r.length < g →
      resolveLoop fs w f (pre ++ (r ++ [0])) pre.length curr
        = resolveLoop fs w g (pre ++ (r ++ [0])) pre.length curr
  | 0, _, _, _, _, _, hf, _ => by omega
  | _ + 1, 0, _, _, _, _, _, hg => by omega
  | f + 1, g + 1, pre, r, curr, hr, hf, hg => by
    unfold resolveLoop
    rcases strtokR_cases pre.length (by decide : slash ≠ 0) hr
      with ⟨-, q, hs⟩ | ⟨pos, pre', token, r', hs, htok, ht⟩
    · rw [hs]
    · have hr' : (0 : UInt8) ∉ r' := fun h0 => hr (ht.suffix.subset h0)
      have hlen := ht.length_lt
      have ih : ∀ c, resolveLoop fs w f (pre' ++ (r' ++ [0])) pre'.length c
          = resolveLoop fs w g (pre' ++ (r' ++ [0])) pre'.length c := fun c =>
        resolveLoop_fuel fs w hr' (by omega) (by omega)
      rw [hs]
      simp only [ih]

/-- The components of a path are at most 31 bytes long. -/
def PathOk (path : List UInt8) : Prop :=
  path.length < 2 ^ 31 ∧ ∀ run, run <:+: path → slash ∉ run → run.length ≤ 31

theorem resolveLoop_isSome (fs : Ramfs) (w : Bool) :
    ∀ (fuel : ℕ) (pre : List UInt8) {r : List UInt8} {curr : ℤ}, (0 : UInt8) ∉ r →
      (∀ run, run <:+: r → slash ∉ run → run.length ≤ 31) →
        (resolveLoop fs w fuel (pre ++ (r ++ [0])) pre.length curr).isSome
  | 0, _, _, _, _, _ => rfl
  | fuel + 1, pre, r, curr, hr, hshort => by
    unfold resolveLoop
    rcases strtokR_cases pre.length (by decide : slash ≠ 0) hr
      with ⟨-, q, hs⟩ | ⟨pos, pre', token, r', hs, htok, ht⟩
    · rw [hs]
      rfl
    · have hr' : (0 : UInt8) ∉ r' := fun h0 => hr (ht.suffix.subset h0)
      have ih : ∀ c, (resolveLoop fs w fuel (pre' ++ (r' ++ [0])) pre'.length c).isSome := fun c =>
        resolveLoop_isSome fs w fuel pre' hr' fun run hrun =>
          hshort run (hrun.trans ht.suffix.isInfix)
      have hfits : ¬ (w ∧ token.length ≥ 32) := by
        have := hshort token ht.infix ht.noDelim
        omega
      rw [hs]
      simp only [htok, if_neg hfits]
      split_ifs
      · exact ih _
      · exact ih _
      · exact ih _
      · exact ih _
      · rfl
      · exact ih _
      · rfl

theorem pathStart_spec {fs : Ramfs} (h : TreeInv fs) {cwd : ℤ} (hc : fs.DirIdx cwd)
    (path : List UInt8) :
    fs.DirIdx (pathStart cwd path).1 ∧ (pathStart cwd path).2 <:+ path := by
  unfold pathStart
  split_ifs
  · exact ⟨⟨0, rfl, h.root.1⟩, List.tail_suffix path⟩
  · exact ⟨hc, List.suffix_rfl⟩

theorem zero_notMem_cstr (buf : List UInt8) (pos : ℕ) : (0 : UInt8) ∉ cstr buf pos := by
  intro h
  have := List.mem_takeWhile_imp h
  simp at this

theorem resolvePath_ok {fs : Ramfs} (h : TreeInv fs) {cwd : ℤ} (hc : fs.DirIdx cwd) (w : Bool)
    {path : Option (List UInt8)} {res : Resolved} (he : fs.resolvePath cwd w path = some res) :
    ResolvedOk fs res := by
  rcases path with _ | path
  · simp only [resolvePath, Option.some.injEq] at he
    subst he
    exact ⟨fun hc => absurd rfl hc, fun _ => .inl rfl⟩
  · obtain ⟨hdir, hsuf⟩ := pathStart_spec h hc (cstr path 0)
    unfold resolvePath at he
    dsimp only at he
    split_ifs at he
    · refine resolveLoop_ok h w _ [] ?_ hdir he
      exact fun hm => zero_notMem_cstr path 0 (hsuf.subset (List.mem_of_mem_take hm))

/-- No buffer is overrun on a path with short components. -/
theorem resolvePath_isSome {fs : Ramfs} (h : TreeInv fs) {cwd : ℤ} (hc : fs.DirIdx cwd) (w : Bool)
    {path : List UInt8} (hp : PathOk (cstr path 0)) :
    (fs.resolvePath cwd w (some path)).isSome := by
  obtain ⟨-, hsuf⟩ := pathStart_spec h hc (cstr path 0)
  have hlt : (pathStart cwd (cstr path 0)).2.length < 2 ^ 31 := hsuf.length_le.trans_lt hp.1
  have hlen : toInt32 (pathStart cwd (cstr path 0)).2.length
      = (pathStart cwd (cstr path 0)).2.length := by
    unfold toInt32
    have hn : (BitVec.ofNat 32 (pathStart cwd (cstr path 0)).2.length).toNat
        = (pathStart cwd (cstr path 0)).2.length := by
      rw [BitVec.toNat_ofNat, Nat.mod_eq_of_lt (by omega)]
    rw [BitVec.toInt_eq_toNat_of_lt (by omega), hn]
  unfold resolvePath
  dsimp only
  rw [hlen, if_neg (by omega)]
  refine resolveLoop_isSome fs w _ [] ?_ ?_
  · exact fun hm => zero_notMem_cstr path 0 (hsuf.subset (List.mem_of_mem_take hm))
  · exact fun run hrun => hp.2 run
      (hrun.trans ((List.take_prefix _ _).isInfix.trans hsuf.isInfix))

/-! ## What a call changes -/

/-- The inodes differ at most in content and size. -/
structure SameTree (fs fs' : Ramfs) : Prop where
  isUsed : ∀ i, (fs'.files i).isUsed = (fs.files i).isUsed
  type : ∀ i, (fs'.files i).type = (fs.files i).type
  parentIdx : ∀ i, (fs'.files i).parentIdx = (fs.files i).parentIdx
  inodeIdx : ∀ i, (fs'.files i).inodeIdx = (fs.files i).inodeIdx
  name : ∀ i, (fs'.files i).name = (fs.files i).name

theorem SameTree.rfl_of_files {fs fs' : Ramfs} (h : fs'.files = fs.files) : SameTree fs fs' := by
  constructor <;> simp [h]

theorem SameTree.used_iff {fs fs' : Ramfs} (h : SameTree fs fs') {i : ℕ} :
    fs'.Used i ↔ fs.Used i := by
  unfold Used
  rw [h.isUsed]

theorem SameTree.isDir_iff {fs fs' : Ramfs} (h : SameTree fs fs') {i : ℕ} :
    fs'.IsDir i ↔ fs.IsDir i := by
  unfold IsDir
  rw [h.used_iff, h.type]

theorem SameTree.lookup {fs fs' : Ramfs} (h : SameTree fs fs') (curr : ℤ) (name : List UInt8) :
    fs'.lookup curr name = fs.lookup curr name := by
  unfold Ramfs.lookup
  simp only [h.isUsed, h.parentIdx, h.name]

theorem SameTree.resolveLoop {fs fs' : Ramfs} (h : SameTree fs fs') (w : Bool) :
    ∀ (fuel : ℕ) (buf : List UInt8) (p : ℕ) (curr : ℤ),
      Ramfs.resolveLoop fs' w fuel buf p curr = Ramfs.resolveLoop fs w fuel buf p curr
  | 0, _, _, _ => by
    simp only [Ramfs.resolveLoop, node, h.parentIdx]
  | fuel + 1, buf, p, curr => by
    unfold Ramfs.resolveLoop
    rcases strtokR buf [slash] (some p) p with ⟨_ | pos, buf', p'⟩
    · simp only [node, h.parentIdx]
    · simp only [node, h.parentIdx, h.lookup, h.type, h.resolveLoop w fuel]
      rfl

theorem SameTree.resolvePath {fs fs' : Ramfs} (h : SameTree fs fs') (cwd : ℤ) (w : Bool)
    (path : Option (List UInt8)) : fs'.resolvePath cwd w path = fs.resolvePath cwd w path := by
  unfold Ramfs.resolvePath
  simp only [h.resolveLoop]

theorem SameTree.treeInv {fs fs' : Ramfs} (h : SameTree fs fs') (hI : TreeInv fs) :
    TreeInv fs' := by
  refine ⟨⟨⟨h.isDir_iff.mpr hI.root.1, (h.parentIdx 0).trans hI.root.2⟩, ?_, ?_⟩, ?_⟩
  · intro i h0 hi
    rw [h.used_iff] at hi
    rw [h.inodeIdx, h.name, h.parentIdx]
    simp only [h.isDir_iff]
    exact hI.node i h0 hi
  · intro i j hi hj
    rw [h.used_iff] at hi hj
    rw [h.parentIdx, h.parentIdx, h.name, h.name]
    exact hI.unique i j hi hj
  · intro i j hi hji
    rw [h.used_iff] at hi ⊢
    exact hI.packed i j hi hji

/-- No directory is lost. -/
def KeepsDirs (fs fs' : Ramfs) : Prop := ∀ i, fs.IsDir i → fs'.IsDir i

theorem KeepsDirs.dirIdx {fs fs' : Ramfs} (h : KeepsDirs fs fs') {c : ℤ} (hc : fs.DirIdx c) :
    fs'.DirIdx c := by
  obtain ⟨i, rfl, hi⟩ := hc
  exact ⟨i, rfl, h i hi⟩

theorem SameTree.keepsDirs {fs fs' : Ramfs} (h : SameTree fs fs') : KeepsDirs fs fs' :=
  fun _ => h.isDir_iff.mpr

theorem allocInode_cases {fs : Ramfs} {i : ℕ} {fs' : Ramfs} (h : fs.allocInode = some (i, fs')) :
    i < maxFiles ∧ (fs.files i).isUsed = false ∧ (∀ j < i, (fs.files j).isUsed = true)
      ∧ fs' = fs.setNode i { RamfsNode.zero with isUsed := true, inodeIdx := i } := by
  unfold allocInode at h
  obtain ⟨k, hk, he⟩ := Option.map_eq_some_iff.mp h
  simp only [Prod.mk.injEq] at he
  obtain ⟨rfl, rfl⟩ := he
  obtain ⟨hu, hlt, hall⟩ := List.find?_range_eq_some.mp hk
  exact ⟨List.mem_range.mp hlt, by simpa using hu, by simpa using hall, rfl⟩

theorem allocInode_eq_none_iff {fs : Ramfs} :
    fs.allocInode = none ↔ ∀ i < maxFiles, (fs.files i).isUsed = true := by
  unfold allocInode
  rw [Option.map_eq_none_iff, List.find?_eq_none]
  simp

theorem createInode_cases {fs fs' : Ramfs} {r : Resolved} {type : RamfsType}
    {content : Option (List UInt8)} {k : ℕ} (h : fs.createInode r type content = some (k, fs')) :
    r.parentOut.getD (-1) ≠ -1 ∧ k < maxFiles ∧ (fs.files k).isUsed = false
      ∧ (∀ j < k, (fs.files j).isUsed = true)
      ∧ fs' = fs.setNode k
        ⟨r.nameOut.getD [], content, 0, true, type, r.parentOut.getD (-1), k⟩ := by
  unfold createInode at h
  dsimp only at h
  split_ifs at h with hp
  obtain ⟨⟨i, fs₁⟩, hi, he⟩ := Option.map_eq_some_iff.mp h
  obtain ⟨rfl, rfl⟩ := Prod.mk.inj he
  obtain ⟨hlt, hfree, hbefore, rfl⟩ := allocInode_cases hi
  exact ⟨hp, hlt, hfree, hbefore, by simp [setNode]⟩

/-- A new inode under a fresh name hangs below an older directory. -/
theorem TreeInv.insert {fs fs' : Ramfs} (h : TreeInv fs) {k p : ℕ} (node : RamfsNode)
    (hlt : k < maxFiles) (hfree : (fs.files k).isUsed = false)
    (hbefore : ∀ j < k, (fs.files j).isUsed = true) (hk : fs'.files k = node)
    (hj : ∀ j, j ≠ k → fs'.files j = fs.files j) (hu : node.isUsed = true)
    (hidx : node.inodeIdx = k) (hpar : node.parentIdx = p) (hdir : fs.IsDir p)
    (hname : NameOk node.name)
    (hfresh : ∀ i, fs.Used i → (fs.files i).parentIdx = p → (fs.files i).name ≠ node.name) :
    TreeInv fs' ∧ KeepsDirs fs fs' := by
  have hnk : ∀ j, fs.Used j → j ≠ k := by
    rintro j hu' rfl
    rw [hu'.2] at hfree
    cases hfree
  have hused : ∀ j, fs'.Used j ↔ fs.Used j ∨ j = k := by
    intro j
    by_cases hjk : j = k
    · subst hjk
      simp [Used, hk, hlt, hu]
    · simp [Used, hj j hjk, hjk]
  have hkeep : KeepsDirs fs fs' := by
    intro j hdj
    exact ⟨(hused j).mpr (.inl hdj.1), by rw [hj j (hnk j hdj.1)]; exact hdj.2⟩
  have hpk : p < k := by
    by_contra hge
    exact hnk k (h.packed p k hdir.1 (by omega)) rfl
  have hroot : (fs'.files 0).parentIdx = -1 := by
    rw [hj 0 (hnk 0 h.root.1.1)]
    exact h.root.2
  refine ⟨⟨⟨⟨hkeep 0 h.root.1, hroot⟩, ?_, ?_⟩, ?_⟩, hkeep⟩
  · intro i h0 hi
    rcases (hused i).mp hi with hi | rfl
    · rw [hj i (hnk i hi)]
      obtain ⟨h1, h2, q, h3, h4, h5⟩ := h.node i h0 hi
      exact ⟨h1, h2, q, h3, h4, hkeep q h5⟩
    · rw [hk]
      exact ⟨hidx, hname, p, hpar, hpk, hkeep p hdir⟩
  · intro a b ha hb hab hnm
    rcases (hused a).mp ha with ha | rfl <;> rcases (hused b).mp hb with hb | rfl
    · rw [hj a (hnk a ha), hj b (hnk b hb)] at hab hnm
      exact h.unique a b ha hb hab hnm
    · rw [hj a (hnk a ha), hk] at hab hnm
      exact absurd hnm (hfresh a ha (hab.trans hpar))
    · rw [hj b (hnk b hb), hk] at hab hnm
      exact absurd hnm.symm (hfresh b hb (hab.symm.trans hpar))
    · rfl
  · intro a b ha hba
    refine (hused b).mpr ?_
    rcases (hused a).mp ha with ha | rfl
    · exact .inl (h.packed a b ha hba)
    · rcases Nat.lt_or_eq_of_le hba with hlt' | rfl
      · exact .inl ⟨hlt'.trans hlt, hbefore b hlt'⟩
      · exact .inr rfl

theorem createInode_ok {fs : Ramfs} (h : TreeInv fs) {r : Resolved} (hr : ResolvedOk fs r)
    (hm : r.inode = -1) {type : RamfsType} {content : Option (List UInt8)} {i : ℕ} {fs' : Ramfs}
    (hc : fs.createInode r type content = some (i, fs')) : TreeInv fs' ∧ KeepsDirs fs fs' := by
  obtain ⟨hp, hlt, hfree, hbefore, rfl⟩ := createInode_cases hc
  rcases hr.missing hm with hnone | ⟨p, name, hpo, hno, hdir, hname, hfresh⟩
  · rw [hnone] at hp
    exact absurd rfl hp
  · refine h.insert ⟨name, content, 0, true, type, p, i⟩ hlt hfree hbefore ?_ (fun j hj => ?_) rfl
      rfl rfl hdir hname hfresh
    · simp [setNode, hpo, hno]
    · simp [setNode, Function.update_of_ne hj]

/-! ## Calls -/

inductive Call
  | open (path : Option (List UInt8)) (flags : BitVec 32) (mem : Bool)
  | mkdir (path : Option (List UInt8))
  | chdir (path : Option (List UInt8))
  | read (fd : ℤ) (count : BitVec 32)
  | write (fd : ℤ) (buf : ℕ → UInt8) (count : BitVec 32)
  | close (fd : ℤ)

/-- The file system and the caller after a call. -/
def perform (fs : Ramfs) (cur : Pcb) : Call → Option (Ramfs × Pcb)
  | .open path flags mem => (fs.ramfsOpen cur path flags mem).map Prod.snd
  | .mkdir path => (fs.ramfsMkdir cur path).map fun r => (r.2, cur)
  | .chdir path => (fs.ramfsChdir cur path).map fun r => (fs, r.2)
  | .read fd count => (fs.ramfsRead cur fd count).map fun r => (r.2.2, cur)
  | .write fd buf count => (fs.ramfsWrite cur fd buf count).map fun r => (r.2, cur)
  | .close fd => some (fs.ramfsClose cur fd)

/-- What every call keeps: the tree, its directories, and the caller's place in it. -/
structure CallOk (fs : Ramfs) (fs' : Ramfs) (cur' : Pcb) : Prop where
  tree : TreeInv fs'
  dirs : KeepsDirs fs fs'
  cwd : fs'.DirIdx cur'.cwdInode

theorem SameTree.callOk {fs fs' : Ramfs} (h : SameTree fs fs') (hI : TreeInv fs) {cur : Pcb}
    (hc : fs.DirIdx cur.cwdInode) : CallOk fs fs' cur :=
  ⟨h.treeInv hI, h.keepsDirs, h.keepsDirs.dirIdx hc⟩

/-- The inode of an open was there, or it is made on request. -/
theorem openInode_cases {fs fs' : Ramfs} {r : Resolved} {flags : BitVec 32} {i : ℕ}
    (h : fs.openInode r flags = some (i, fs')) :
    (r.inode ≠ -1 ∧ i = r.inode.toNat ∧ fs' = fs) ∨ (r.inode = -1 ∧ flags &&& oCreat ≠ 0
      ∧ fs.createInode r .file (some (List.replicate 4096 0))
        = some (i, fs')) := by
  unfold openInode at h
  by_cases hr : r.inode ≠ -1
  · rw [if_pos hr] at h
    obtain ⟨rfl, rfl⟩ := Prod.mk.inj (Option.some.inj h)
    exact .inl ⟨hr, rfl, rfl⟩
  · rw [if_neg hr] at h
    by_cases hflags : flags &&& oCreat = 0
    · rw [if_pos hflags] at h
      cases h
    · rw [if_neg hflags] at h
      exact .inr ⟨not_not.mp hr, hflags, h⟩

/-- An open comes to an end if it finds the path, makes nothing or has the memory for a file. -/
theorem ramfsOpen_isSome {fs : Ramfs} {cur : Pcb} {path : Option (List UInt8)}
    (flags : BitVec 32) (mem : Bool) {r : Resolved}
    (hr : fs.resolvePath cur.cwdInode true path = some r)
    (hmem : r.inode ≠ -1 ∨ flags &&& oCreat = 0 ∨ mem = true) :
    (fs.ramfsOpen cur path flags mem).isSome := by
  unfold ramfsOpen
  rw [hr, Option.bind_some]
  rcases hn : fs.openInode r flags with _ | ⟨n, fs₁⟩
  · rfl
  dsimp only
  rw [if_neg]
  · rfl
  rintro ⟨hmiss, hno⟩
  rcases openInode_cases hn with ⟨hfound, -⟩ | ⟨-, hflags, -⟩
  · exact hfound hmiss
  · rcases hmem with h | h | h
    · exact h hmiss
    · exact hflags h
    · exact absurd (hno.symm.trans h) (by decide)

theorem openInode_ok {fs fs' : Ramfs} (hI : TreeInv fs) {r : Resolved} (hr : ResolvedOk fs r)
    {flags : BitVec 32} {i : ℕ}
    (h : fs.openInode r flags = some (i, fs')) : TreeInv fs' ∧ KeepsDirs fs fs' := by
  rcases openInode_cases h with ⟨-, -, rfl⟩ | ⟨hmiss, -, hcr⟩
  · exact ⟨hI, fun _ => id⟩
  · exact createInode_ok hI hr hmiss hcr

theorem allocFileHandle_cases {fs fs' : Ramfs} {f : ℕ} (h : fs.allocFileHandle = some (f, fs')) :
    f < maxSystemOpenFiles ∧ (fs.globalFileTable f).refCount = 0
      ∧ fs' = fs.setFile f ⟨none, 0, 1⟩ := by
  unfold allocFileHandle at h
  obtain ⟨k, hk, he⟩ := Option.map_eq_some_iff.mp h
  simp only [Prod.mk.injEq] at he
  obtain ⟨rfl, rfl⟩ := he
  exact ⟨List.mem_range.mp (List.mem_of_find?_eq_some hk), by simpa using List.find?_some hk, rfl⟩

theorem setFile_setFile (fs : Ramfs) (f : ℕ) (x y : File) :
    (fs.setFile f x).setFile f y = fs.setFile f y := by
  simp [setFile]

@[simp] theorem setFile_self (fs : Ramfs) (f : ℕ) (x : File) :
    (fs.setFile f x).globalFileTable f = x := by
  simp [setFile]

/-- How `ramfs_open` ends once the path is resolved: with its result, the file system and the
caller. -/
inductive OpenEnds (fs : Ramfs) (cur : Pcb) (r : Resolved) (flags : BitVec 32) :
    ℤ → Ramfs → Pcb → Prop
  | noInode (hn : fs.openInode r flags = none) : OpenEnds fs cur r flags (-1) fs cur
  | noFile (n : ℕ) (fs₁ : Ramfs) (hn : fs.openInode r flags = some (n, fs₁))
      (hf : fs₁.allocFileHandle = none) : OpenEnds fs cur r flags (-1) fs₁ cur
  | noFd (n f : ℕ) (fs₁ fs₂ : Ramfs) (hn : fs.openInode r flags = some (n, fs₁))
      (hf : fs₁.allocFileHandle = some (f, fs₂)) (hfd : freeFd cur = none) :
      OpenEnds fs cur r flags (-1) (fs₁.setFile f ⟨none, 0, 0⟩) cur
  | opened (n f i : ℕ) (fs₁ fs₂ : Ramfs) (hn : fs.openInode r flags = some (n, fs₁))
      (hf : fs₁.allocFileHandle = some (f, fs₂)) (hfd : freeFd cur = some i) :
      OpenEnds fs cur r flags i (fs₁.setFile f ⟨some n, 0, 1⟩)
        { cur with fdTable := cur.fdTable.set i (some f) }

theorem ramfsOpen_ends {fs fs' : Ramfs} {cur cur' : Pcb} {path : Option (List UInt8)}
    {flags : BitVec 32} {mem : Bool} {ret : ℤ}
    (h : fs.ramfsOpen cur path flags mem = some (ret, fs', cur')) :
    ∃ r, fs.resolvePath cur.cwdInode true path = some r
      ∧ OpenEnds fs cur r flags ret fs' cur' := by
  unfold ramfsOpen at h
  obtain ⟨r, hr, he⟩ := Option.bind_eq_some_iff.mp h
  refine ⟨r, hr, ?_⟩
  rcases hn : fs.openInode r flags with _ | ⟨n, fs₁⟩ <;> rw [hn] at he
  · simp only [Option.some.injEq, Prod.mk.injEq] at he
    obtain ⟨rfl, rfl, rfl⟩ := he
    exact .noInode hn
  dsimp only at he
  split_ifs at he
  replace he := Option.some.inj he
  unfold openFile at he
  rcases hf : fs₁.allocFileHandle with _ | ⟨f, fs₂⟩ <;> rw [hf] at he
  · simp only [Prod.mk.injEq] at he
    obtain ⟨rfl, rfl, rfl⟩ := he
    exact .noFile n _ hn hf
  obtain ⟨-, -, hfs₂⟩ := allocFileHandle_cases hf
  subst hfs₂
  dsimp only at he
  rw [setFile_setFile, setFile_self] at he
  rcases hfd : freeFd cur with _ | i <;> rw [hfd] at he <;> simp only [Prod.mk.injEq] at he <;>
    obtain ⟨rfl, rfl, rfl⟩ := he
  · unfold freeFileHandle
    rw [setFile_setFile, setFile_self]
    exact .noFd n f _ _ hn hf hfd
  · exact .opened n f i _ _ hn hf hfd

theorem sameTree_setNode (fs : Ramfs) (f n : ℕ) (file : File) (content : Option (List UInt8))
    (size : ℕ) :
    SameTree fs ((fs.setFile f file).setNode n
      { fs.files n with content := content, size := size }) := by
  constructor <;> intro i <;> by_cases hi : i = n <;>
    simp [setNode, setFile, hi, Function.update_of_ne]

/-- How `ramfs_write` ends: with nothing stored, or with its bytes in the file and the offset behind
them. -/
theorem ramfsWrite_ends {fs fs' : Ramfs} {cur : Pcb} {fd : ℤ} {buf : ℕ → UInt8}
    {count : BitVec 32} {ret : ℤ} (h : fs.ramfsWrite cur fd buf count = some (ret, fs')) :
    fs' = fs ∨ ∃ f n bytes, fdFile cur fd = some f ∧ (fs.globalFileTable f).node = some n
      ∧ (fs.files n).type ≠ .dir ∧ (fs.files n).content = some bytes
      ∧ 0 < writeLen (fs.globalFileTable f).offset count
      ∧ fs' = (fs.setFile f { fs.globalFileTable f with
          offset := u64 ((fs.globalFileTable f).offset
            + (writeLen (fs.globalFileTable f).offset count).toNat) }).setNode n
        { fs.files n with
          content := some (bytes.take (fs.globalFileTable f).offset
            ++ (List.range (writeLen (fs.globalFileTable f).offset count).toNat).map buf
            ++ bytes.drop ((fs.globalFileTable f).offset
              + (writeLen (fs.globalFileTable f).offset count).toNat))
          size := if u64 ((fs.globalFileTable f).offset
              + (writeLen (fs.globalFileTable f).offset count).toNat) > (fs.files n).size
            then u64 ((fs.globalFileTable f).offset
              + (writeLen (fs.globalFileTable f).offset count).toNat)
            else (fs.files n).size } := by
  unfold ramfsWrite at h
  rcases hf : fdFile cur fd with _ | f <;> rw [hf] at h
  · exact .inl (Prod.mk.inj (Option.some.inj h)).2.symm
  obtain ⟨n, hn, h⟩ := Option.map_eq_some_iff.mp h
  dsimp only at h
  by_cases hdir : (fs.files n).type = .dir
  · rw [if_pos hdir] at h
    exact .inl (Prod.mk.inj h).2.symm
  rw [if_neg hdir] at h
  rcases hb : (fs.files n).content with _ | bytes <;> rw [hb] at h
  · exact .inl (Prod.mk.inj h).2.symm
  dsimp only at h
  by_cases hpos : writeLen (fs.globalFileTable f).offset count > 0
  · rw [if_pos hpos] at h
    exact .inr ⟨f, n, bytes, rfl, hn, hdir, hb, hpos, (Prod.mk.inj h).2.symm⟩
  · rw [if_neg hpos] at h
    exact .inl (Prod.mk.inj h).2.symm

/-- How `ramfs_mkdir` ends: with nothing done, or with a new inode. -/
theorem ramfsMkdir_ends {fs fs' : Ramfs} {cur : Pcb} {path : Option (List UInt8)} {ret : ℤ}
    (h : fs.ramfsMkdir cur path = some (ret, fs')) :
    ∃ r, fs.resolvePath cur.cwdInode true path = some r ∧ ((ret = -1 ∧ fs' = fs)
      ∨ (ret = 0 ∧ r.inode = -1 ∧ ∃ k, fs.createInode r .dir none = some (k, fs'))) := by
  unfold ramfsMkdir at h
  obtain ⟨r, hr, he⟩ := Option.map_eq_some_iff.mp h
  refine ⟨r, hr, ?_⟩
  split_ifs at he with hi
  · obtain ⟨rfl, rfl⟩ := Prod.mk.inj he
    exact .inl ⟨rfl, rfl⟩
  · rcases hcr : fs.createInode r .dir none with _ | ⟨k, fs₁⟩ <;> rw [hcr] at he <;>
      obtain ⟨rfl, rfl⟩ := Prod.mk.inj he
    · exact .inl ⟨rfl, rfl⟩
    · exact .inr ⟨rfl, not_not.mp hi, k, rfl⟩

/-- How `ramfs_read` ends: with its result, what it read and the file system. -/
inductive ReadEnds (fs : Ramfs) (cur : Pcb) (fd : ℤ) (count : BitVec 32) :
    ℤ → List UInt8 → Ramfs → Prop
  | noFile (hf : fdFile cur fd = none) : ReadEnds fs cur fd count (-1) [] fs
  | dir (f n : ℕ) (hf : fdFile cur fd = some f) (hn : (fs.globalFileTable f).node = some n)
      (hdir : (fs.files n).type = .dir) : ReadEnds fs cur fd count (-1) [] fs
  | atEnd (f n : ℕ) (hf : fdFile cur fd = some f) (hn : (fs.globalFileTable f).node = some n)
      (hdir : (fs.files n).type ≠ .dir)
      (hend : (fs.files n).size ≤ (fs.globalFileTable f).offset) :
      ReadEnds fs cur fd count 0 [] fs
  | nothing (f n : ℕ) (hf : fdFile cur fd = some f) (hn : (fs.globalFileTable f).node = some n)
      (hdir : (fs.files n).type ≠ .dir)
      (hin : (fs.globalFileTable f).offset < (fs.files n).size)
      (hlen : readLen (fs.files n).size (fs.globalFileTable f).offset count ≤ 0) :
      ReadEnds fs cur fd count (readLen (fs.files n).size (fs.globalFileTable f).offset count) [] fs
  | read (f n : ℕ) (bytes : List UInt8) (hf : fdFile cur fd = some f)
      (hn : (fs.globalFileTable f).node = some n) (hdir : (fs.files n).type ≠ .dir)
      (hin : (fs.globalFileTable f).offset < (fs.files n).size)
      (hlen : 0 < readLen (fs.files n).size (fs.globalFileTable f).offset count)
      (hb : (fs.files n).content = some bytes) :
      ReadEnds fs cur fd count (readLen (fs.files n).size (fs.globalFileTable f).offset count)
        ((bytes.drop (fs.globalFileTable f).offset).take
          (readLen (fs.files n).size (fs.globalFileTable f).offset count).toNat)
        (fs.setFile f { fs.globalFileTable f with
          offset := u64 ((fs.globalFileTable f).offset
            + (readLen (fs.files n).size (fs.globalFileTable f).offset count).toNat) })

theorem ramfsRead_ends {fs fs' : Ramfs} {cur : Pcb} {fd : ℤ} {count : BitVec 32} {ret : ℤ}
    {data : List UInt8} (h : fs.ramfsRead cur fd count = some (ret, data, fs')) :
    ReadEnds fs cur fd count ret data fs' := by
  unfold ramfsRead at h
  rcases hf : fdFile cur fd with _ | f <;> rw [hf] at h
  · simp only [Option.some.injEq, Prod.mk.injEq] at h
    obtain ⟨rfl, rfl, rfl⟩ := h
    exact .noFile hf
  obtain ⟨n, hn, h⟩ := Option.bind_eq_some_iff.mp h
  dsimp only at h
  split_ifs at h with hdir hend hlen
  · simp only [Option.some.injEq, Prod.mk.injEq] at h
    obtain ⟨rfl, rfl, rfl⟩ := h
    exact .dir f n hf hn hdir
  · simp only [Option.some.injEq, Prod.mk.injEq] at h
    obtain ⟨rfl, rfl, rfl⟩ := h
    exact .atEnd f n hf hn hdir hend
  · obtain ⟨bytes, hb, h⟩ := Option.map_eq_some_iff.mp h
    simp only [Prod.mk.injEq] at h
    obtain ⟨rfl, rfl, rfl⟩ := h
    exact .read f n bytes hf hn hdir (not_le.mp hend) hlen hb
  · simp only [Option.some.injEq, Prod.mk.injEq] at h
    obtain ⟨rfl, rfl, rfl⟩ := h
    exact .nothing f n hf hn hdir (not_le.mp hend) (not_lt.mp hlen)

theorem ramfsRead_files {fs fs' : Ramfs} {cur : Pcb} {fd : ℤ} {count : BitVec 32} {ret : ℤ}
    {data : List UInt8} (h : fs.ramfsRead cur fd count = some (ret, data, fs')) :
    fs'.files = fs.files := by
  cases ramfsRead_ends h with
  | noFile => rfl
  | dir => rfl
  | atEnd => rfl
  | nothing => rfl
  | read => rfl

theorem ramfsClose_files (fs : Ramfs) (cur : Pcb) (fd : ℤ) :
    (fs.ramfsClose cur fd).1.files = fs.files := by
  unfold ramfsClose
  cases fdFile cur fd <;> rfl

section Calls

variable {fs fs' : Ramfs} {cur cur' : Pcb} (hI : TreeInv fs) (hc : fs.DirIdx cur.cwdInode)

include hI hc

theorem ramfsOpen_ok {path : Option (List UInt8)} {flags : BitVec 32} {mem : Bool} {ret : ℤ}
    (h : fs.ramfsOpen cur path flags mem = some (ret, fs', cur')) : CallOk fs fs' cur' := by
  obtain ⟨r, hr, he⟩ := ramfsOpen_ends h
  have hres := resolvePath_ok hI hc true hr
  have hfiles : ∀ {n : ℕ} {fs₁ : Ramfs}, fs.openInode r flags = some (n, fs₁) →
      ∀ (fs₂ : Ramfs) (cur₂ : Pcb), fs₂.files = fs₁.files → cur₂.cwdInode = cur.cwdInode →
        CallOk fs fs₂ cur₂ := by
    intro n fs₁ hn fs₂ cur₂ hf hcwd
    obtain ⟨hI₁, hk₁⟩ := openInode_ok hI hres hn
    have hs := SameTree.rfl_of_files hf
    have hdirs : KeepsDirs fs fs₂ := fun i hi => hs.keepsDirs i (hk₁ i hi)
    exact ⟨hs.treeInv hI₁, hdirs, hcwd ▸ hdirs.dirIdx hc⟩
  cases he with
  | noInode hn => exact ⟨hI, fun _ => id, hc⟩
  | noFile n fs₁ hn hf => exact hfiles hn _ _ rfl rfl
  | noFd n f fs₁ fs₂ hn hf hfd => exact hfiles hn _ _ rfl rfl
  | opened n f i fs₁ fs₂ hn hf hfd => exact hfiles hn _ _ rfl rfl

theorem ramfsMkdir_ok {path : Option (List UInt8)} {ret : ℤ}
    (h : fs.ramfsMkdir cur path = some (ret, fs')) : CallOk fs fs' cur := by
  obtain ⟨r, hr, ⟨-, rfl⟩ | ⟨-, hmiss, k, hcr⟩⟩ := ramfsMkdir_ends h
  · exact ⟨hI, fun _ => id, hc⟩
  · obtain ⟨hI₁, hk₁⟩ := createInode_ok hI (resolvePath_ok hI hc true hr) hmiss hcr
    exact ⟨hI₁, hk₁, hk₁.dirIdx hc⟩

theorem ramfsChdir_ok {path : Option (List UInt8)} {ret : ℤ}
    (h : fs.ramfsChdir cur path = some (ret, cur')) : CallOk fs fs cur' := by
  unfold ramfsChdir at h
  obtain ⟨r, hr, he⟩ := Option.map_eq_some_iff.mp h
  have hres := resolvePath_ok hI hc false hr
  refine ⟨hI, fun _ => id, ?_⟩
  split_ifs at he with h1 h2 <;> simp only [Prod.mk.injEq] at he <;> rw [← he.2]
  · exact hc
  · exact hc
  · obtain ⟨i, hi, hu⟩ := hres.found h1
    rw [hi] at h2
    exact ⟨i, hi, hu, not_not.mp h2⟩

theorem ramfsRead_ok {fd : ℤ} {count : BitVec 32} {ret : ℤ} {data : List UInt8}
    (h : fs.ramfsRead cur fd count = some (ret, data, fs')) : CallOk fs fs' cur :=
  (SameTree.rfl_of_files (ramfsRead_files h)).callOk hI hc

theorem ramfsWrite_ok {fd : ℤ} {buf : ℕ → UInt8} {count : BitVec 32} {ret : ℤ}
    (h : fs.ramfsWrite cur fd buf count = some (ret, fs')) : CallOk fs fs' cur := by
  rcases ramfsWrite_ends h with rfl | ⟨f, n, bytes, -, -, -, -, -, rfl⟩
  · exact ⟨hI, fun _ => id, hc⟩
  · exact (sameTree_setNode ..).callOk hI hc

theorem ramfsClose_ok (fd : ℤ) : CallOk fs (fs.ramfsClose cur fd).1 (fs.ramfsClose cur fd).2 := by
  unfold ramfsClose
  rcases fdFile cur fd with _ | i
  · exact ⟨hI, fun _ => id, hc⟩
  · have hs : SameTree fs (fs.freeFileHandle i) := .rfl_of_files rfl
    exact ⟨hs.treeInv hI, hs.keepsDirs, hs.keepsDirs.dirIdx hc⟩

theorem perform_ok {c : Call} (h : fs.perform cur c = some (fs', cur')) : CallOk fs fs' cur' := by
  cases c with
  | «open» path flags mem =>
    obtain ⟨⟨ret, r⟩, hr, he⟩ := Option.map_eq_some_iff.mp h
    exact ramfsOpen_ok hI hc (hr.trans (by rw [← he]))
  | mkdir path =>
    obtain ⟨⟨ret, r⟩, hr, he⟩ := Option.map_eq_some_iff.mp h
    simp only [Prod.mk.injEq] at he
    exact he.2 ▸ ramfsMkdir_ok hI hc (he.1 ▸ hr)
  | chdir path =>
    obtain ⟨⟨ret, r⟩, hr, he⟩ := Option.map_eq_some_iff.mp h
    simp only [Prod.mk.injEq] at he
    exact he.1 ▸ ramfsChdir_ok hI hc (he.2 ▸ hr)
  | read fd count =>
    obtain ⟨⟨ret, data, r⟩, hr, he⟩ := Option.map_eq_some_iff.mp h
    simp only [Prod.mk.injEq] at he
    exact he.2 ▸ ramfsRead_ok hI hc (he.1 ▸ hr)
  | write fd buf count =>
    obtain ⟨⟨ret, r⟩, hr, he⟩ := Option.map_eq_some_iff.mp h
    simp only [Prod.mk.injEq] at he
    exact he.2 ▸ ramfsWrite_ok hI hc (he.1 ▸ hr)
  | close fd =>
    obtain ⟨rfl, rfl⟩ := Prod.mk.inj (Option.some.inj h)
    exact ramfsClose_ok hI hc fd

end Calls

end Ramfs

/-! ## Processes and their directories -/

namespace Sched

/-- A process is where one was before, or in the root. -/
def CwdsFrom (s s' : Sched) : Prop :=
  ∀ p ∈ s'.procList, (s'.pcbs p).cwdInode = 0
    ∨ ∃ q ∈ s.procList, (s'.pcbs p).cwdInode = (s.pcbs q).cwdInode

theorem Moves.cwdsFrom {s s' : Sched} (h : Moves s s') : CwdsFrom s s' :=
  fun p hp => .inr ⟨p, h.list ▸ hp, (h.pcb p).cwdInode⟩

theorem enlist_cwdsFrom {s : Sched} {addr : ℕ} (hnew : addr ∉ s.procList) {f : Pcb → Pcb}
    (hf : (f s.allocNewPcb).cwdInode = 0
      ∨ ∃ q ∈ s.procList, (f s.allocNewPcb).cwdInode = (s.pcbs q).cwdInode) :
    CwdsFrom s ((s.newPcb addr f).enlist addr) := by
  intro p hp
  have hself : ((s.newPcb addr f).enlist addr).pcbs addr = f s.allocNewPcb :=
    Function.update_self ..
  rcases List.mem_cons.mp hp with rfl | hp
  · rw [hself]
    exact hf
  · have hne : p ≠ addr := by
      rintro rfl
      exact hnew hp
    exact .inr ⟨p, hp, congrArg Pcb.cwdInode (Function.update_of_ne hne _ _)⟩

theorem step_cwdsFrom {s s' : Sched} {op : Op} (hc : s.currentProc ∈ s.procList)
    (h : s.step op = some s') : CwdsFrom s s' := by
  unfold step at h
  cases op with
  | kthreadCreate parent name g =>
    dsimp only at h
    split_ifs at h with hf
    exact Option.some.inj h ▸ enlist_cwdsFrom hf.2 (.inl rfl)
  | createUserProcess name g =>
    dsimp only at h
    split_ifs at h with hf
    exact Option.some.inj h ▸ enlist_cwdsFrom (s := s.addMm g) hf.2 (.inl rfl)
  | sysFork g =>
    dsimp only at h
    split_ifs at h with hf
    exact Option.some.inj h ▸ enlist_cwdsFrom (s := s.addMm g) hf.2 (.inr ⟨_, hc, rfl⟩)
  | tick => exact Option.some.inj h ▸ (timerCallback_moves s).cwdsFrom
  | yield => exact Option.some.inj h ▸ (schedule_moves s).cwdsFrom
  | exit code =>
    dsimp only at h
    split_ifs at h with hi
    exact Option.some.inj h ▸ (exit_moves s code).cwdsFrom

end Sched

/-! ## Runs -/

namespace Ramfs

structure FsState where
  fs : Ramfs
  sched : Sched

/-- A call on the file system, or a step of the process system. -/
inductive FsOp
  | call (c : Call)
  | sched (op : Sched.Op)

/-- A step taken by the process `e.1`, which is the current one then. -/
def fsStep (s : FsState) (e : ℕ × FsOp) : Option FsState :=
  if e.1 ∈ s.sched.procList then
    match e.2 with
    | .call c =>
      (s.fs.perform (s.sched.pcbs e.1) c).map fun r =>
        ⟨r.1, { s.sched with
          pcbs := Function.update s.sched.pcbs e.1 r.2
          currentProc := e.1 }⟩
    | .sched op => (Sched.step { s.sched with currentProc := e.1 } op).map fun t => ⟨s.fs, t⟩
  else none

structure FsInv (s : FsState) : Prop where
  tree : TreeInv s.fs
  cwds : ∀ p ∈ s.sched.procList, s.fs.DirIdx (s.sched.pcbs p).cwdInode

theorem fsStep_inv (s : FsState) (e : ℕ × FsOp) (s' : FsState) (hI : FsInv s)
    (h : fsStep s e = some s') : FsInv s' := by
  obtain ⟨p, op⟩ := e
  unfold fsStep at h
  split_ifs at h with hp
  dsimp only at h hp
  cases op with
  | call c =>
    obtain ⟨⟨fs', cur'⟩, hr, rfl⟩ := Option.map_eq_some_iff.mp h
    have hok := perform_ok hI.tree (hI.cwds p hp) hr
    refine ⟨hok.tree, fun q hq => ?_⟩
    dsimp only
    by_cases hqp : q = p
    · rw [hqp, Function.update_self]
      exact hok.cwd
    · rw [Function.update_of_ne hqp]
      exact hok.dirs.dirIdx (hI.cwds q hq)
  | sched op =>
    obtain ⟨t, hr, rfl⟩ := Option.map_eq_some_iff.mp h
    refine ⟨hI.tree, fun q hq => ?_⟩
    rcases Sched.step_cwdsFrom (s := { s.sched with currentProc := p }) hp hr q hq
      with h0 | ⟨q', hq', he⟩
    · rw [h0]
      exact ⟨0, rfl, hI.tree.root.1⟩
    · rw [he]
      exact hI.cwds q' hq'

/-- The names of the first inodes. -/
def initNames : List (List UInt8) :=
  [[], ascii "init", ascii "usr", ascii "bin", ascii "lib", ascii "shell.c", ascii "usrmain.c"]

theorem initNames_ok : ∀ i < 7, i ≠ 0 → NameOk (initNames.getD i []) := by
  have h : ∀ i < 7, i ≠ 0 → initNames.getD i [] ≠ [] ∧ slash ∉ initNames.getD i []
      ∧ initNames.getD i [] ≠ dot ∧ initNames.getD i [] ≠ dotDot := by decide
  intro i hi h0
  obtain ⟨h1, h2, h3, h4⟩ := h i hi h0
  exact ⟨h1, h2, h3, h4⟩

theorem initNames_inj :
    ∀ i < 7, ∀ j < 7, initNames.getD i [] = initNames.getD j [] → i = j := by
  decide

theorem ramfsInit_treeInv (init : Option (List UInt8)) (size : ℕ) :
    TreeInv (ramfsInit init size) := by
  have hused : ∀ i, (ramfsInit init size).Used i ↔ i < 7 := by
    intro i
    unfold Used ramfsInit maxFiles
    dsimp only
    rcases i with _ | _ | _ | _ | _ | _ | _ | i <;> simp [RamfsNode.zero]
  have hname : ∀ i < 7, ((ramfsInit init size).files i).name = initNames.getD i [] := by
    intro i hi
    interval_cases i <;> rfl
  have hdir : ∀ p, p < 7 → ((ramfsInit init size).files p).type = .dir →
      (ramfsInit init size).IsDir p := fun p hp ht => ⟨(hused p).mpr hp, ht⟩
  refine ⟨⟨⟨hdir 0 (by decide) rfl, rfl⟩, fun i h0 hi => ?_, fun i j hi hj _ hn => ?_⟩,
    fun i j hi hji => ?_⟩
  · rw [hused] at hi
    refine ⟨?_, hname i hi ▸ initNames_ok i hi h0, ?_⟩
    · interval_cases i <;> rfl
    · interval_cases i
      · exact absurd rfl h0
      · exact ⟨0, rfl, by decide, hdir 0 (by decide) rfl⟩
      · exact ⟨0, rfl, by decide, hdir 0 (by decide) rfl⟩
      all_goals exact ⟨2, rfl, by decide, hdir 2 (by decide) rfl⟩
  · rw [hused] at hi hj
    rw [hname i hi, hname j hj] at hn
    exact initNames_inj i hi j hj hn
  · rw [hused] at hi ⊢
    omega

/-- The index one step up, the root's own at the root. -/
def up (fs : Ramfs) (i : ℕ) : ℕ := ((fs.files i).parentIdx).toNat

/-- Going up ends at the root. -/
theorem TreeInv.up_root {fs : Ramfs} (h : TreeInv fs) : ∀ (n i : ℕ), i ≤ n → fs.Used i →
    ∃ k, fs.up^[k] i = 0
  | 0, i, hi, _ => ⟨0, by simpa using hi⟩
  | n + 1, i, hi, hu => by
    by_cases h0 : i = 0
    · exact ⟨0, h0⟩
    · obtain ⟨-, -, p, hp, hlt, hdir⟩ := h.node i h0 hu
      obtain ⟨k, hk⟩ := h.up_root n p (by omega) hdir.1
      have hup : fs.up i = p := by
        unfold up
        rw [hp]
        rfl
      exact ⟨k + 1, by rw [Function.iterate_succ_apply, hup, hk]⟩

/-- In every reachable state the inodes are a tree below the root, every process stands in one of
its directories, and no path with components of at most 31 bytes overruns a buffer. -/
theorem ramfs_tree (s₀ : Sched) (idle : ℕ) (ops : List (ℕ × FsOp)) {s₁ : Sched}
    {s : FsState} (hinit : s₀.procInit idle = some s₁)
    (h : Run.run fsStep ⟨ramfsInit none 0, s₁⟩ ops = some s) :
    TreeOk s.fs ∧ (∀ p ∈ s.sched.procList, s.fs.DirIdx (s.sched.pcbs p).cwdInode)
      ∧ (∀ i, s.fs.Used i → ∃ k, s.fs.up^[k] i = 0)
      ∧ ∀ p ∈ s.sched.procList, ∀ path, PathOk (cstr path 0) →
        (s.fs.resolvePath (s.sched.pcbs p).cwdInode true (some path)).isSome := by
  have hcwd : (s₁.pcbs idle).cwdInode = 0 := by
    unfold Sched.procInit at hinit
    split_ifs at hinit
    rw [← Option.some.inj hinit]
    simp [Sched.newPcb, Pcb.setProcName, Sched.allocNewPcb]
  have hlist : s₁.procList = [idle] := (Sched.procInit_queueInv hinit).2.1
  have htree := ramfsInit_treeInv none 0
  have hI : FsInv ⟨ramfsInit none 0, s₁⟩ := by
    refine ⟨htree, fun p hp => ?_⟩
    dsimp only at hp ⊢
    rw [hlist, List.mem_singleton] at hp
    rw [hp, hcwd]
    exact ⟨0, rfl, htree.root.1⟩
  have hs : FsInv s := Run.run_invariant fsStep_inv hI h
  exact ⟨hs.tree.toTreeOk, hs.cwds, fun i hi => hs.tree.up_root i i le_rfl hi,
    fun p hp path hpath => resolvePath_isSome hs.tree (hs.cwds p hp) true hpath⟩

/-- Directories and a file made by two processes. -/
def smallFsOps : List (ℕ × FsOp) :=
  [(1, .sched (.createUserProcess [] (Sched.grantAt 2))),
    (2, .call (.mkdir (some (ascii "/usr/../tmp/")))),
    (2, .call (.chdir (some (ascii "tmp//.")))),
    (2, .sched (.sysFork (Sched.grantAt 3))),
    (3, .call (.open (some (ascii "./a")) 64#32 true))]

theorem ramfs_tree_smallFsOps :
    ∃ s₁ s, Sched.boot.procInit 1 = some s₁
      ∧ Run.run fsStep ⟨ramfsInit none 0, s₁⟩ smallFsOps = some s ∧ TreeOk s.fs := by
  have h : ((Sched.boot.procInit 1).bind fun s =>
      Run.run fsStep ⟨ramfsInit none 0, s⟩ smallFsOps).map (fun s => (s.fs.files 8).parentIdx)
        = some 7 := by
    decide +kernel
  obtain ⟨s₁, s, h₁, hr, -⟩ := Run.exists_of_eval h
  exact ⟨s₁, s, h₁, hr, (ramfs_tree Sched.boot 1 smallFsOps h₁ hr).1⟩

end Ramfs

end SudoOS
