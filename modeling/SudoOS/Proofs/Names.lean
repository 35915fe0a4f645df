import SudoOS.Proofs.LongPath

/-!
# New names

`resolve_path` copies the last component of a missing path into its caller's `name[32]` with
`strcpy`, and nothing stops a longer one (`names_fit`). Where it fits, the name goes into an inode
that was unused, and every walk that led to an inode still does: the inodes on its way are as they
were, and no two siblings have one name (`create_then_lookup`).
-/

namespace SudoOS

open Pieces

namespace Ramfs

/-! ## Names that fit -/

/-- The name `resolve_path` copies for a caller that wants it, whatever its length. -/
def copiedName (fs : Ramfs) (cwd : ℤ) (path : Option (List UInt8)) : Option (List UInt8) :=
  (fs.resolvePath cwd false path).bind (·.nameOut)

/-- Every stored name ends inside its array. -/
def NamesStored (fs : Ramfs) : Prop :=
  ∀ i, fs.Used i → (0 : UInt8) ∉ (fs.files i).name ∧ (fs.files i).name.length ≤ 31

/-- The name of the path in `buf` fits wherever it is copied to; an open that finds a page for a new
file has no other way to fault. -/
structure NamesFit (fs : Ramfs) (cur : Pcb) (buf : List UInt8) : Prop where
  copied : ∀ name ∈ fs.copiedName cur.cwdInode (some buf), name.length ≤ 31
  mkdir : ∃ ret fs', fs.ramfsMkdir cur (some buf) = some (ret, fs') ∧ NamesStored fs'
  «open» : ∀ flags, (fs.ramfsOpen cur (some buf) flags true).isSome
    ∧ ∀ mem ret fs' cur', fs.ramfsOpen cur (some buf) flags mem = some (ret, fs', cur')
      → NamesStored fs'

/-- The last component has at most 31 bytes, or the walk ends before it. -/
def LastFits (fs : Ramfs) (d : ℕ) (names : List (List UInt8)) : Prop :=
  ∀ ds name e, names = ds ++ [name] → fs.walkDirs d ds = some e → name.length ≤ 31

/-- The copy overruns the buffer on longer names only. -/
theorem resolveLoop_filter (fs : Ramfs) : ∀ (fuel : ℕ) (buf : List UInt8) (p : ℕ) (curr : ℤ),
    resolveLoop fs true fuel buf p curr
      = (resolveLoop fs false fuel buf p curr).filter fun r => (r.nameOut.getD []).length ≤ 31
  | 0, buf, p, curr => rfl
  | fuel + 1, buf, p, curr => by
    have ih := resolveLoop_filter fs fuel
    unfold resolveLoop
    rcases strtokR buf [slash] (some p) p with ⟨_ | pos, buf', p'⟩
    · rfl
    · simp only [ih, true_and, Bool.false_eq_true, false_and, if_false]
      split_ifs with _ _ _ _ _ _ hlong
      any_goals rfl
      · rw [Option.filter_some, if_neg]
        simp only [Option.getD_some, decide_eq_true_eq]
        omega
      · rw [Option.filter_some, if_pos]
        simp only [Option.getD_some, decide_eq_true_eq]
        omega

theorem resolvePath_filter (fs : Ramfs) (cwd : ℤ) (path : Option (List UInt8)) :
    fs.resolvePath cwd true path
      = (fs.resolvePath cwd false path).filter fun r => (r.nameOut.getD []).length ≤ 31 := by
  rcases path with _ | path
  · rfl
  · unfold resolvePath
    dsimp only
    split_ifs
    · rfl
    · exact resolveLoop_filter fs _ _ _ _

theorem resolved_isSome (fs : Ramfs) (d : ℕ) (names : List (List UInt8)) :
    ∃ r, fs.resolved false d names = some r := by
  have hfits : false = true → ∀ name ∈ names, name.length ≤ 31 := by simp
  obtain ⟨r, hr, -⟩ := resolved_walkedTo fs d hfits
  exact ⟨r, hr⟩

theorem lastFits_iff {fs : Ramfs} {d : ℕ} {names : List (List UInt8)} {r : Resolved}
    (h : fs.resolved false d names = some r) :
    LastFits fs d names ↔ ∀ name ∈ r.nameOut, name.length ≤ 31 := by
  rcases List.eq_nil_or_concat names with rfl | ⟨ds, name, rfl⟩
  · obtain rfl := Option.some.inj h
    exact ⟨fun _ name hn => by simp at hn, fun _ ds => by simp⟩
  · rw [List.concat_eq_append] at h ⊢
    have hlast : LastFits fs d (ds ++ [name])
        ↔ ∀ e, fs.walkDirs d ds = some e → name.length ≤ 31 := by
      refine ⟨fun hl e => hl ds name e rfl, fun hl ds' name' e heq hw => ?_⟩
      obtain ⟨rfl, hn⟩ := List.append_inj' heq rfl
      obtain rfl : name = name' := by simpa using hn
      exact hl e hw
    rw [hlast]
    rw [resolved_concat] at h
    rcases hw : fs.walkDirs d ds with _ | e <;> rw [hw] at h <;> dsimp only at h
    · obtain rfl := Option.some.inj h
      simp
    · by_cases hdots : name = dot ∨ name = dotDot
      · rw [if_pos hdots] at h
        obtain rfl := Option.some.inj h
        refine ⟨fun _ name hn => by simp at hn, fun _ _ _ => ?_⟩
        rcases hdots with rfl | rfl
        · decide
        · decide
      · rw [if_neg hdots, if_neg (by simp)] at h
        obtain rfl := Option.some.inj h
        simp

theorem namesStored {fs : Ramfs} (h : ∀ i, fs.Used i → NodeOk (fs.files i)) : NamesStored fs :=
  fun i hi => ⟨(h i hi).noNul, (h i hi).short⟩

theorem namesFit_iff {fs : Ramfs} (hI : FsOk fs) {cur : Pcb} (hc : fs.DirIdx cur.cwdInode)
    {path : List UInt8} {d : ℕ} (hstart : (pathStart cur.cwdInode path).1 = d) (hd : fs.IsDir d)
    (hnul : (0 : UInt8) ∉ path) (rest : List UInt8) :
    NamesFit fs cur (path ++ 0 :: rest)
      ↔ 0 ≤ copyLen (relPath path) ∧ LastFits fs d (heard path) := by
  have hres := resolvePath_eq hI.toTreeInv hstart hd false hnul rest
  have hfilter := resolvePath_filter fs cur.cwdInode (some (path ++ 0 :: rest))
  obtain ⟨r, hr⟩ := resolved_isSome fs d (heard path)
  by_cases hneg : copyLen (relPath path) < 0
  · rw [if_pos hneg] at hres
    rw [hres] at hfilter
    refine ⟨fun h => ?_, fun h => absurd h.1 (by omega)⟩
    obtain ⟨ret, fs', hm, -⟩ := h.mkdir
    rw [ramfsMkdir, hfilter] at hm
    cases hm
  · rw [if_neg hneg] at hres
    have hres := hres.trans hr
    have hcopied : fs.copiedName cur.cwdInode (some (path ++ 0 :: rest)) = r.nameOut := by
      rw [copiedName, hres, Option.bind_some]
    refine ⟨fun h => ⟨by omega, (lastFits_iff hr).mpr fun name hn => ?_⟩, fun h => ?_⟩
    · exact h.copied name (hcopied ▸ hn)
    · have hfits := (lastFits_iff hr).mp h.2
      have hshort : (r.nameOut.getD []).length ≤ 31 := by
        rcases hn : r.nameOut with _ | name
        · simp
        · exact hfits name hn
      rw [hres, Option.filter_some, if_pos (decide_eq_true hshort)] at hfilter
      refine ⟨fun name hn => hfits name (hcopied ▸ hn), ?_, fun flags => ⟨?_, ?_⟩⟩
      · rcases hm : fs.ramfsMkdir cur (some (path ++ 0 :: rest)) with _ | ⟨ret, fs'⟩
        · rw [ramfsMkdir, hfilter] at hm
          cases hm
        · exact ⟨ret, fs', rfl, namesStored fun _ => (ramfsMkdir_step hm).1.nodeOk hI.nodes⟩
      · exact ramfsOpen_isSome flags true hfilter (.inr (.inr rfl))
      · intro mem ret fs' cur' ho
        exact namesStored fun _ => (ramfsOpen_opens hI hc ho).1.nodeOk hI.nodes

/-! ## New inodes -/

/-- What one new inode does to the table. -/
structure Adds (fs fs' : Ramfs) (k : ℕ) : Prop where
  fresh : k < maxFiles ∧ ¬ fs.Used k
  used : fs'.Used k
  others : ∀ j, j ≠ k → fs'.files j = fs.files j

/-- Every path that leads to an inode leads there afterwards. -/
def KeepsPaths (fs fs' : Ramfs) : Prop :=
  ∀ (cwd : ℤ) (w : Bool) (path : Option (List UInt8)) (r : Resolved), fs.DirIdx cwd →
    fs.resolvePath cwd w path = some r → r.inode ≠ -1 → fs'.resolvePath cwd w path = some r

section Stable

variable {fs fs' : Ramfs} {k : ℕ} (hI : TreeInv fs) (hI' : TreeInv fs') (ha : Adds fs fs' k)

include ha in
theorem Adds.files_eq {i : ℕ} (hi : fs.Used i) : fs'.files i = fs.files i := by
  refine ha.others i ?_
  rintro rfl
  exact ha.fresh.2 hi

include ha in
theorem Adds.usedOf {i : ℕ} (hi : fs.Used i) : fs'.Used i :=
  ⟨hi.1, by rw [ha.files_eq hi]; exact hi.2⟩

include ha in
theorem Adds.isDir {i : ℕ} (hi : fs.IsDir i) : fs'.IsDir i :=
  ⟨ha.usedOf hi.1, by rw [ha.files_eq hi.1]; exact hi.2⟩

include hI hI' ha

/-- An entry that is found is still the first of its name. -/
theorem Adds.follow {d i : ℕ} {name : List UInt8} (hd : fs.IsDir d)
    (h : fs.follow d name = some i) : fs.Used i ∧ fs'.follow d name = some i := by
  unfold Ramfs.follow at h ⊢
  split_ifs at h ⊢ with hdot hdd h0
  · obtain rfl := Option.some.inj h
    exact ⟨hd.1, rfl⟩
  · obtain rfl := Option.some.inj h
    exact ⟨hI.root.1.1, rfl⟩
  · obtain rfl := Option.some.inj h
    refine ⟨(hI.up_spec h0 hd.1).2.2.1, ?_⟩
    unfold up
    rw [ha.files_eq hd.1]
  · obtain ⟨hc, hn⟩ := (childNamed_eq_some hI).mp h
    refine ⟨hc.1, (childNamed_eq_some hI').mpr ⟨⟨ha.usedOf hc.1, ?_⟩, ?_⟩⟩
    · rw [ha.files_eq hc.1]
      exact hc.2
    · rw [ha.files_eq hc.1]
      exact hn

theorem Adds.walkDirs : ∀ (names : List (List UInt8)) {d e : ℕ}, fs.IsDir d →
    fs.walkDirs d names = some e → fs.IsDir e ∧ fs'.walkDirs d names = some e
  | [], d, e, hd, h => by
    obtain rfl := Option.some.inj h
    exact ⟨hd, rfl⟩
  | name :: names, d, e, hd, h => by
    obtain ⟨x, hx, hrest⟩ := Option.bind_eq_some_iff.mp h
    obtain ⟨hf, hdir⟩ := Option.filter_eq_some_iff.mp hx
    have hdir := of_decide_eq_true hdir
    have henter := enter_of_dir (ha.follow hI hI' hd hf).2 (ha.isDir hdir)
    rw [Ramfs.walkDirs, henter, Option.bind_some]
    exact Adds.walkDirs names hdir hrest

theorem Adds.resolved {w : Bool} {d : ℕ} (hd : fs.IsDir d) {names : List (List UInt8)}
    {r : Resolved} (h : fs.resolved w d names = some r) (hr : r.inode ≠ -1) :
    fs'.resolved w d names = some r := by
  have hnode : ∀ i, fs.Used i → fs'.node (i : ℤ) = fs.node (i : ℤ) := fun i hi => ha.files_eq hi
  rcases List.eq_nil_or_concat names with rfl | ⟨ds, name, rfl⟩
  · rw [← h]
    unfold Ramfs.resolved
    rw [List.getLast?_nil]
    dsimp only
    rw [hnode d hd.1]
  · rw [List.concat_eq_append] at h ⊢
    rw [resolved_concat] at h ⊢
    rcases hw : fs.walkDirs d ds with _ | e
    · rw [hw] at h
      obtain rfl := Option.some.inj h
      exact absurd rfl hr
    · obtain ⟨he, hw'⟩ := ha.walkDirs hI hI' ds hd hw
      rw [hw] at h
      rw [hw']
      dsimp only at h ⊢
      rcases hf : fs.follow e name with _ | i
      · rw [hf] at h
        split_ifs at h
        · obtain rfl := Option.some.inj h
          exact absurd rfl hr
        · obtain rfl := Option.some.inj h
          exact absurd rfl hr
      · obtain ⟨hi, hf'⟩ := ha.follow hI hI' he hf
        rw [hf] at h
        rw [hf', ← h, index, hnode i hi]

end Stable

theorem resolvePath_cstr (fs : Ramfs) (cwd : ℤ) (w : Bool) (buf : List UInt8) :
    fs.resolvePath cwd w (some (cstr buf 0 ++ 0 :: [])) = fs.resolvePath cwd w (some buf) := by
  have hcstr : cstr (cstr buf 0 ++ 0 :: []) 0 = cstr buf 0 :=
    cstr_append [] [] (zero_notMem_cstr buf 0)
  unfold resolvePath
  dsimp only
  rw [hcstr]

theorem resolvePath_buf {fs : Ramfs} (hI : TreeInv fs) {cwd : ℕ} (hc : fs.IsDir cwd) (w : Bool)
    (buf : List UInt8) :
    fs.resolvePath cwd w (some buf) = if copyLen (relPath (cstr buf 0)) < 0 then none
      else fs.resolved w (startDir cwd (cstr buf 0)) (heard (cstr buf 0)) := by
  rw [← resolvePath_cstr]
  exact resolvePath_eq hI (pathStart_fst cwd _) (startDir_isDir hI hc _) w
    (zero_notMem_cstr buf 0) []

theorem Adds.keepsPaths {fs fs' : Ramfs} {k : ℕ} (hI : TreeInv fs) (hI' : TreeInv fs')
    (ha : Adds fs fs' k) : KeepsPaths fs fs' := by
  rintro _ w path r ⟨cwd, rfl, hc⟩ h hr
  rcases path with _ | buf
  · obtain rfl := Option.some.inj h
    exact absurd rfl hr
  · rw [resolvePath_buf hI hc] at h
    rw [resolvePath_buf hI' (ha.isDir hc)]
    split_ifs at h ⊢
    exact ha.resolved hI hI' (startDir_isDir hI hc _) h hr

/-- The path at `path` has become the one of a new inode, and no other path has changed. -/
structure MadeAt (fs fs' : Ramfs) (cwd : ℤ) (path : Option (List UInt8)) (type : RamfsType)
    (k : ℕ) : Prop where
  adds : Adds fs fs' k
  found : ∀ w, (fs'.resolvePath cwd w path).map (·.inode) = some (k : ℤ)
  type : (fs'.files k).type = type
  empty : (fs'.files k).size = 0
  keeps : KeepsPaths fs fs'

theorem createInode_adds {fs fs' : Ramfs} {r : Resolved} {type : RamfsType}
    {content : Option (List UInt8)} {k : ℕ} (h : fs.createInode r type content = some (k, fs')) :
    Adds fs fs' k ∧ r.parentOut.getD (-1) ≠ -1
      ∧ fs'.files k = ⟨r.nameOut.getD [], content, 0, true, type, r.parentOut.getD (-1), k⟩ := by
  obtain ⟨hp, hlt, hfree, -, rfl⟩ := createInode_cases h
  refine ⟨⟨⟨hlt, fun hu => by simp [hu.2] at hfree⟩, ⟨hlt, ?_⟩, fun j hj => ?_⟩, hp, ?_⟩
  · simp [setNode]
  · simp [setNode, Function.update_of_ne hj]
  · simp [setNode]

/-- A place for a new inode is behind a walk through directories, under a name that is missing. -/
theorem resolved_place {fs : Ramfs} {w : Bool} {d : ℕ} {names : List (List UInt8)} {r : Resolved}
    (h : fs.resolved w d names = some r) (hr : r.inode = -1) (hp : r.parentOut.getD (-1) ≠ -1) :
    ∃ ds name e, names = ds ++ [name] ∧ fs.walkDirs d ds = some e ∧ fs.follow e name = none
      ∧ r = ⟨-1, some (e : ℤ), some name⟩ ∧ ¬ (w ∧ name.length ≥ 32) := by
  rcases List.eq_nil_or_concat names with rfl | ⟨ds, name, rfl⟩
  · obtain rfl := Option.some.inj h
    have : (d : ℤ) = -1 := hr
    omega
  · rw [List.concat_eq_append, resolved_concat] at h
    rw [List.concat_eq_append]
    rcases hw : fs.walkDirs d ds with _ | e <;> rw [hw] at h <;> dsimp only at h
    · obtain rfl := Option.some.inj h
      exact absurd rfl hp
    · rcases hf : fs.follow e name with _ | i <;> rw [hf] at h
      · have hdots : ¬ (name = dot ∨ name = dotDot) := by
          rintro (rfl | rfl)
          · cases hf
          · cases hf
        rw [if_neg hdots] at h
        split_ifs at h with hlong
        exact ⟨ds, name, e, rfl, hw, hf, (Option.some.inj h).symm, hlong⟩
      · have hi : r.inode = i := by
          split_ifs at h
          · rw [← Option.some.inj h]
            rfl
          · rw [← Option.some.inj h]
            rfl
        omega

theorem madeAt_of_adds {fs fs' : Ramfs} (hI : TreeInv fs) (hI' : TreeInv fs') {cwd : ℤ}
    (hc : fs.DirIdx cwd) {path : Option (List UInt8)} {r : Resolved}
    (hres : fs.resolvePath cwd true path = some r) (hr : r.inode = -1)
    (hp : r.parentOut.getD (-1) ≠ -1) {k : ℕ} (ha : Adds fs fs' k) {type : RamfsType}
    {content : Option (List UInt8)}
    (hk : fs'.files k = ⟨r.nameOut.getD [], content, 0, true, type, r.parentOut.getD (-1), k⟩) :
    MadeAt fs fs' cwd path type k := by
  refine ⟨ha, fun w => ?_, by rw [hk], by rw [hk], ha.keepsPaths hI hI'⟩
  obtain ⟨cwd, rfl, hdir⟩ := hc
  rcases path with _ | buf
  · obtain rfl := Option.some.inj hres
    exact absurd rfl hp
  · have hstart := startDir_isDir hI hdir (cstr buf 0)
    rw [resolvePath_buf hI hdir] at hres
    rw [resolvePath_buf hI' (ha.isDir hdir)]
    split_ifs at hres ⊢
    obtain ⟨ds, name, e, hnames, hw, hf, rfl, hlong⟩ := resolved_place hres hr hp
    obtain ⟨he, hw'⟩ := ha.walkDirs hI hI' ds hstart hw
    have hdots : ¬ (name = dot ∨ name = dotDot) := by
      rintro (rfl | rfl)
      · cases hf
      · cases hf
    have hchild : fs'.childNamed e name = some k :=
      (childNamed_eq_some hI').mpr ⟨⟨ha.used, by rw [hk]; rfl⟩, by rw [hk]; rfl⟩
    have hf' : fs'.follow e name = some k := by
      rw [not_or] at hdots
      rw [follow, if_neg hdots.1, if_neg hdots.2, hchild]
    rw [hnames, resolved_concat, hw']
    dsimp only
    rw [if_neg hdots, if_neg (by simp at hlong; omega), hf']
    rfl

section Calls

variable {fs fs' : Ramfs} {cur cur' : Pcb} (hI : TreeInv fs) (hc : fs.DirIdx cur.cwdInode)
  {path : Option (List UInt8)} {ret : ℤ}

include hI hc

theorem ramfsMkdir_madeAt (h : fs.ramfsMkdir cur path = some (0, fs')) :
    ∃ k, MadeAt fs fs' cur.cwdInode path .dir k := by
  have hI' := (ramfsMkdir_ok hI hc h).tree
  obtain ⟨r, hres, ⟨hret, -⟩ | ⟨-, hr, k, hcr⟩⟩ := ramfsMkdir_ends h
  · cases hret
  · obtain ⟨ha, hp, hk⟩ := createInode_adds hcr
    exact ⟨k, madeAt_of_adds hI hI' hc hres hr hp ha hk⟩

theorem ramfsOpen_madeAt {flags : BitVec 32} {mem : Bool}
    (h : fs.ramfsOpen cur path flags mem = some (ret, fs', cur'))
    (hnew : ∃ i, fs'.Used i ∧ ¬ fs.Used i) : ∃ k, MadeAt fs fs' cur.cwdInode path .file k := by
  have hI' := (ramfsOpen_ok hI hc h).tree
  obtain ⟨r, hres, he⟩ := ramfsOpen_ends h
  obtain ⟨i, hi, hni⟩ := hnew
  have hopen : ∀ {n : ℕ} {fs₁ : Ramfs}, fs.openInode r flags = some (n, fs₁) →
      fs'.files = fs₁.files → ∃ k, MadeAt fs fs' cur.cwdInode path .file k := by
    intro n fs₁ hn hfiles
    rcases openInode_cases hn with ⟨-, -, rfl⟩ | ⟨hr, -, hcr⟩
    · exact absurd (by simpa [Used, hfiles] using hi) hni
    · obtain ⟨ha, hp, hk⟩ := createInode_adds hcr
      have ha' : Adds fs fs' n :=
        ⟨ha.fresh, by simpa [Used, hfiles] using ha.used, by rw [hfiles]; exact ha.others⟩
      exact ⟨n, madeAt_of_adds hI hI' hc hres hr hp ha' (hfiles ▸ hk)⟩
  cases he with
  | noInode hn => exact absurd hi hni
  | noFile n _ hn hf => exact hopen hn rfl
  | noFd n f fs₁ fs₂ hn hf hfd => exact hopen hn rfl
  | opened n f i fs₁ fs₂ hn hf hfd => exact hopen hn rfl

end Calls

end Ramfs

namespace Sys

/-- In every reachable state the stored names end inside their arrays, and the name of a path fits
wherever it is copied to exactly when the length of the path fits an `int` and its last component,
if the walk gets there, has at most 31 bytes. -/
theorem names_fit (s₀ : Sched) (idle : ℕ) (ops : List (ℕ × SysOp)) {s₁ : Sched}
    {s : Sys} (hinit : s₀.procInit idle = some s₁) (h : Run.run step (start s₁) ops = some s)
    {p : ℕ} (hp : p ∈ s.procList) :
    Ramfs.NamesStored s.fs ∧ ∃ cwd : ℕ, (s.pcb p).cwdInode = cwd ∧ s.fs.IsDir cwd
      ∧ ∀ (path rest : List UInt8), (0 : UInt8) ∉ path →
        (Ramfs.NamesFit s.fs (s.pcb p) (path ++ 0 :: rest)
          ↔ 0 ≤ Ramfs.copyLen (Ramfs.relPath path)
            ∧ Ramfs.LastFits s.fs (Ramfs.startDir cwd path) (Ramfs.heard path)) := by
  have hI : SysInv s := Run.run_invariant step_inv (start_inv hinit) h
  obtain ⟨cwd, hcwd, hdir⟩ := hI.cwds p hp
  refine ⟨Ramfs.namesStored hI.fsOk.nodes, cwd, hcwd, hdir, fun path rest hnul => ?_⟩
  exact Ramfs.namesFit_iff hI.fsOk (hI.cwds p hp) (hcwd ▸ Ramfs.pathStart_fst cwd path)
    (Ramfs.startDir_isDir hI.fsOk.toTreeInv hdir path) hnul rest

theorem names_fit_deepOps :
    ∃ s₁ s, Sched.boot.procInit 1 = some s₁ ∧ Run.run step (start s₁) deepOps = some s
      ∧ Ramfs.NamesFit s.fs (s.pcb 2) (List.replicate 40 97 ++ ascii "/y" ++ [0]) := by
  have h : ((Sched.boot.procInit 1).bind fun s => Run.run step (start s) deepOps).map
      (fun s => (s.procList, (s.pcb 2).cwdInode)) = some ([2, 1], 7) := by
    decide +kernel
  obtain ⟨s₁, s, h₁, hr, he⟩ := Run.exists_of_eval h
  obtain ⟨hl, hc⟩ := Prod.mk.inj he
  obtain ⟨-, cwd, hcwd, -, hfit⟩ := names_fit Sched.boot 1 deepOps h₁ hr
    (by simp [hl] : 2 ∈ s.procList)
  have hheard : Ramfs.heard (List.replicate 40 97 ++ ascii "/y")
      = [List.replicate 40 97] ++ [ascii "y"] := by
    decide +kernel
  refine ⟨s₁, s, h₁, hr, (hfit _ [] (by decide +kernel)).mpr ⟨by decide +kernel, ?_⟩⟩
  intro ds name e hpart _
  rw [hheard] at hpart
  obtain ⟨-, hn⟩ := List.append_inj' hpart rfl
  obtain rfl : ascii "y" = name := by simpa using hn
  decide

/-- A name of 40 bytes is copied into an array of 32. -/
theorem names_overrun :
    ∃ s₁ s, Sched.boot.procInit 1 = some s₁ ∧ Run.run step (start s₁) deepOps = some s
      ∧ 2 ∈ s.procList
      ∧ s.fs.copiedName (s.pcb 2).cwdInode (some (List.replicate 40 97 ++ [0]))
        = some (List.replicate 40 97)
      ∧ ¬ Ramfs.NamesFit s.fs (s.pcb 2) (List.replicate 40 97 ++ [0]) := by
  have h : ((Sched.boot.procInit 1).bind fun s => Run.run step (start s) deepOps).map
      (fun s => decide (2 ∈ s.procList
        ∧ s.fs.copiedName (s.pcb 2).cwdInode (some (List.replicate 40 97 ++ [0]))
          = some (List.replicate 40 97))) = some true := by
    decide +kernel
  obtain ⟨s₁, s, h₁, hr, he⟩ := Run.exists_of_eval h
  obtain ⟨hp, hcopied⟩ := of_decide_eq_true he
  refine ⟨s₁, s, h₁, hr, hp, hcopied, fun hfit => ?_⟩
  have := hfit.copied _ hcopied
  simp at this

/-- In every reachable state a call that makes a directory or a file takes one unused inode, the
path leads to it afterwards, and every path that led to an inode, from any directory, still does. -/
theorem create_then_lookup (s₀ : Sched) (idle : ℕ) (ops : List (ℕ × SysOp))
    {s₁ : Sched} {s : Sys} (hinit : s₀.procInit idle = some s₁)
    (h : Run.run step (start s₁) ops = some s) {p : ℕ} (hp : p ∈ s.procList)
    (path : Option (List UInt8)) :
    (∀ fs', s.fs.ramfsMkdir (s.pcb p) path = some (0, fs') →
        ∃ k, Ramfs.MadeAt s.fs fs' (s.pcb p).cwdInode path .dir k)
      ∧ ∀ flags mem' ret fs' cur',
        s.fs.ramfsOpen (s.pcb p) path flags mem' = some (ret, fs', cur') →
        (∃ i, fs'.Used i ∧ ¬ s.fs.Used i) →
          ∃ k, Ramfs.MadeAt s.fs fs' (s.pcb p).cwdInode path .file k := by
  have hI : SysInv s := Run.run_invariant step_inv (start_inv hinit) h
  exact ⟨fun _ => Ramfs.ramfsMkdir_madeAt hI.fsOk.toTreeInv (hI.cwds p hp),
    fun _ _ _ _ _ => Ramfs.ramfsOpen_madeAt hI.fsOk.toTreeInv (hI.cwds p hp)⟩

theorem create_then_lookup_deepOps :
    ∃ s₁ s fs' k, Sched.boot.procInit 1 = some s₁ ∧ Run.run step (start s₁) deepOps = some s
      ∧ s.fs.ramfsMkdir (s.pcb 2) (some (ascii "../lib//./y/" ++ [0])) = some (0, fs')
      ∧ Ramfs.MadeAt s.fs fs' (s.pcb 2).cwdInode (some (ascii "../lib//./y/" ++ [0])) .dir k := by
  have h : ((Sched.boot.procInit 1).bind fun s => Run.run step (start s) deepOps).map
      (fun s => (s.procList,
        (s.fs.ramfsMkdir (s.pcb 2) (some (ascii "../lib//./y/" ++ [0]))).map Prod.fst))
        = some ([2, 1], some 0) := by
    decide +kernel
  obtain ⟨s₁, s, h₁, hr, he⟩ := Run.exists_of_eval h
  obtain ⟨hl, hm⟩ := Prod.mk.inj he
  obtain ⟨⟨ret, fs'⟩, hm, rfl⟩ := Option.map_eq_some_iff.mp hm
  obtain ⟨k, hk⟩ := (create_then_lookup Sched.boot 1 deepOps h₁ hr
    (by simp [hl] : 2 ∈ s.procList) _).1 fs' hm
  exact ⟨s₁, s, fs', k, h₁, hr, hm, hk⟩

end Sys

end SudoOS
