import SudoOS.Lib.FileTree
import SudoOS.Proofs.Names

/-!
# Paths and the inodes behind them

The used inodes are the nodes of a tree of paths (`Shows`): an inode stands at the names on the way
down to it and no two stand at one path, so what `resolve_path` reports of a path is where the walk
along its components ends in the tree (`resolvePath_reports`). `mkdir` and `open` make the node the
walk has missed while an inode is left, and `chdir` goes where the walk leads.
-/

namespace SudoOS

open FileTree

/-- The paths of files, by their components. -/
abbrev NameTree : Type := FileTree (List UInt8)

namespace Ramfs

def kindOf (node : RamfsNode) : FileKind := if node.type = .dir then .dir else .file

/-- A component as `resolve_path` takes it. -/
def component (name : List UInt8) : Component (List UInt8) :=
  if name = dot then .here else if name = dotDot then .up else .name name

/-- Inode `i` stands at the path. -/
def Stands (fs : Ramfs) (i : ℕ) (path : List (List UInt8)) : Prop :=
  fs.Used i ∧ fs.components maxFiles i = path

/-- The used inodes are the nodes of the tree. -/
structure Shows (fs : Ramfs) (t : NameTree) : Prop where
  kinds : ∀ i path, fs.Stands i path → t.kind path = some (kindOf (fs.files i))
  covers : ∀ path, t.kind path ≠ none → ∃ i, fs.Stands i path

section Paths

variable {fs : Ramfs} {t : NameTree} (hI : FsOk fs)

include hI

/-- Two inodes have two paths. -/
theorem Stands.unique {i j : ℕ} {path : List (List UInt8)} (hi : fs.Stands i path)
    (hj : fs.Stands j path) : i = j := by
  have hwi := walk_leads hI (leads_components hI.toTreeInv i le_rfl hi.1)
  have hwj := walk_leads hI (leads_components hI.toTreeInv j le_rfl hj.1)
  rw [hi.2] at hwi
  rw [hj.2] at hwj
  exact Option.some.inj (hwi.symm.trans hwj)

theorem stands_root : fs.Stands 0 [] := ⟨hI.root.1.1, by simp [components, maxFiles]⟩

theorem Stands.up {i : ℕ} {path : List (List UInt8)} (h : fs.Stands i path) (h0 : i ≠ 0) :
    fs.Stands (fs.up i) path.dropLast ∧ path = path.dropLast ++ [(fs.files i).name] := by
  obtain ⟨-, -, hdir⟩ := hI.toTreeInv.up_spec h0 h.1
  have hpath := (components_succ hI.toTreeInv h0 h.1).symm.trans h.2
  rw [← hpath, List.dropLast_concat]
  exact ⟨⟨hdir.1, rfl⟩, rfl⟩

/-- The entries of a directory stand one name below it. -/
theorem child_iff {d i : ℕ} {dir : List (List UInt8)} (hd : fs.Stands d dir) (name : List UInt8) :
    fs.childNamed d name = some i ↔ fs.Stands i (dir ++ [name]) := by
  rw [childNamed_eq_some hI.toTreeInv]
  refine ⟨fun ⟨hc, hn⟩ => ⟨hc.1, ?_⟩, fun h => ?_⟩
  · have h0 : i ≠ 0 := by
      rintro rfl
      have := hI.root.2.symm.trans hc.2
      omega
    obtain ⟨hp, -, -⟩ := hI.toTreeInv.up_spec h0 hc.1
    have hup : fs.up i = d := by
      have := hp.symm.trans hc.2
      omega
    rw [components_succ hI.toTreeInv h0 hc.1, hup, hd.2, hn]
  · have h0 : i ≠ 0 := by
      rintro rfl
      have := h.2.symm.trans (stands_root hI).2
      simp at this
    obtain ⟨hup, hpath⟩ := Stands.up hI h h0
    rw [List.dropLast_concat] at hup hpath
    obtain ⟨hp, -, -⟩ := hI.toTreeInv.up_spec h0 h.1
    refine ⟨⟨h.1, ?_⟩, ?_⟩
    · rw [hp, Stands.unique hI hup hd]
    · simpa using (List.append_cancel_left hpath).symm

omit hI in
theorem kind_dir_iff (ht : Shows fs t) {i : ℕ} {path : List (List UInt8)} (h : fs.Stands i path) :
    t.kind path = some .dir ↔ fs.IsDir i := by
  rw [ht.kinds i path h, kindOf]
  split_ifs with hd
  · exact ⟨fun _ => ⟨h.1, hd⟩, fun _ => rfl⟩
  · exact ⟨nofun, fun hk => absurd hk.2 hd⟩

/-- A component that leads somewhere in the file system leads to the same place in the tree. -/
theorem follow_stands {d i : ℕ} {dir : List (List UInt8)} (hd : fs.Stands d dir)
    {name : List UInt8} (h : fs.follow d name = some i) :
    fs.Stands i ((component name).next dir) := by
  unfold follow at h
  unfold component
  by_cases hdot : name = dot
  · rw [if_pos hdot] at h ⊢
    exact Option.some.inj h ▸ hd
  rw [if_neg hdot] at h ⊢
  by_cases hdd : name = dotDot
  · rw [if_pos hdd] at h ⊢
    obtain rfl := Option.some.inj h
    by_cases h0 : d = 0
    · subst h0
      rw [if_pos rfl, ← hd.2, (stands_root hI).2]
      exact stands_root hI
    · rw [if_neg h0]
      exact (Stands.up hI hd h0).1
  rw [if_neg hdd] at h ⊢
  exact (child_iff hI hd name).mp h

/-- Where nothing is found, there is no name of the tree. -/
theorem follow_none (ht : Shows fs t) {d : ℕ} {dir : List (List UInt8)} (hd : fs.Stands d dir)
    {name : List UInt8} (h : fs.follow d name = none) :
    component name = .name name ∧ t.kind (dir ++ [name]) = none := by
  unfold follow at h
  split_ifs at h with hdot hdd
  refine ⟨by rw [component, if_neg hdot, if_neg hdd], ?_⟩
  by_contra hk
  obtain ⟨i, hi⟩ := ht.covers _ hk
  rw [(child_iff hI hd name).mpr hi] at h
  cases h

omit hI in
/-- What `resolve_path` reports at the end of a walk. -/
def Reports (fs : Ramfs) (r : Resolved) : Target (List UInt8) → Prop
  | .found path => ∃ i : ℕ, r.inode = i ∧ fs.Stands i path
  | .missing dir name => r.inode = -1 ∧ r.nameOut = some name
    ∧ ∃ d : ℕ, r.parentOut = some (d : ℤ) ∧ fs.IsDir d ∧ fs.Stands d dir
  | .lost => r.inode = -1 ∧ r.parentOut = none

/-- The last component. -/
theorem arrive_reports (ht : Shows fs t) {d : ℕ} {dir : List (List UInt8)} (hdir : fs.IsDir d)
    (hd : fs.Stands d dir) {w : Bool} {name : List UInt8} {r : Resolved}
    (h : fs.resolved w d [name] = some r) : Reports fs r (t.arrive dir (component name)) := by
  have hone := resolved_concat fs w d [] name
  rw [List.nil_append, h] at hone
  simp only [walkDirs] at hone
  rcases hf : fs.follow d name with _ | i
  · obtain ⟨hcomp, hk⟩ := follow_none hI ht hd hf
    have hdots : ¬ (name = dot ∨ name = dotDot) := by
      rintro (rfl | rfl)
      · cases hf
      · cases hf
    rw [if_neg hdots, hf] at hone
    split_ifs at hone
    rw [hcomp, arrive, if_pos hk, Option.some.inj hone]
    exact ⟨rfl, rfl, d, rfl, hdir, hd⟩
  · have hi := follow_stands hI hd hf
    have hinode : r.inode = i := by
      rw [hf] at hone
      split_ifs at hone
      · rw [Option.some.inj hone]
        rfl
      · rw [Option.some.inj hone]
        rfl
    have harrive : t.arrive dir (component name) = .found ((component name).next dir) := by
      have hk : t.kind ((component name).next dir) ≠ none := by
        rw [ht.kinds i _ hi]
        simp
      rcases hc : component name with _ | _ | n
      · rfl
      · rfl
      · rw [hc] at hk
        exact if_neg hk
    rw [harrive]
    exact ⟨i, hinode, hi⟩

/-- The walk of `resolve_path` is the walk in the tree. -/
theorem resolved_reports (ht : Shows fs t) (w : Bool) : ∀ (names : List (List UInt8)) {d : ℕ}
    {dir : List (List UInt8)} {r : Resolved}, fs.IsDir d → fs.Stands d dir →
      fs.resolved w d names = some r → Reports fs r (t.target dir (names.map component))
  | [], d, dir, r, _, hd, h => by
    obtain rfl := Option.some.inj h
    exact ⟨d, rfl, hd⟩
  | [name], d, dir, r, hdir, hd, h => arrive_reports hI ht hdir hd h
  | name :: next :: names, d, dir, r, hdir, hd, h => by
    rw [resolved_cons fs w d name (by simp)] at h
    rw [List.map_cons, List.map_cons, target]
    rcases he : fs.enter d name with _ | e
    · rw [he] at h
      obtain rfl := Option.some.inj h
      rw [if_neg]
      · exact ⟨rfl, rfl⟩
      · intro hk
        rcases hf : fs.follow d name with _ | i
        · obtain ⟨hcomp, hnone⟩ := follow_none hI ht hd hf
          rw [hcomp] at hk
          exact absurd (hnone.symm.trans hk) (by simp)
        · have hi := follow_stands hI hd hf
          rw [enter_of_dir hf ((kind_dir_iff ht hi).mp hk)] at he
          cases he
    · rw [he] at h
      obtain ⟨hf, hdir'⟩ := Option.filter_eq_some_iff.mp he
      have hdir' := of_decide_eq_true hdir'
      have hi := follow_stands hI hd hf
      rw [if_pos ((kind_dir_iff ht hi).mpr hdir')]
      exact resolved_reports ht w (next :: names) hdir' hi h

end Paths

/-- Where the walk along the string at a pointer ends, from directory `dir`. -/
def pathTarget (t : NameTree) (dir : List (List UInt8)) :
    Option (List UInt8) → Target (List UInt8)
  | none => .lost
  | some buf =>
    t.target (if (cstr buf 0).head? = some slash then [] else dir)
      ((heard (cstr buf 0)).map component)

section Resolve

variable {fs : Ramfs} {t : NameTree} (hI : FsOk fs) (ht : Shows fs t) {d : ℕ}
  {dir : List (List UInt8)} (hdir : fs.IsDir d) (hd : fs.Stands d dir)
  (path : Option (List UInt8))

include hI ht hdir hd

omit ht hdir in
theorem start_stands (p : List UInt8) :
    fs.Stands (startDir d p) (if p.head? = some slash then [] else dir) := by
  unfold startDir
  split_ifs
  · exact stands_root hI
  · exact hd

theorem pathTarget_sound : (pathTarget t dir path).Sound t := by
  rcases path with _ | buf
  · trivial
  · exact target_sound _ ((kind_dir_iff ht (start_stands hI hd _)).mpr
      (startDir_isDir hI.toTreeInv hdir _))

theorem resolvePath_reports {w : Bool} {r : Resolved}
    (h : fs.resolvePath d w path = some r) : Reports fs r (pathTarget t dir path) := by
  rcases path with _ | buf
  · obtain rfl := Option.some.inj h
    exact ⟨rfl, rfl⟩
  · rw [resolvePath_buf hI.toTreeInv hdir] at h
    split_ifs at h
    exact resolved_reports hI ht w _ (startDir_isDir hI.toTreeInv hdir _)
      (start_stands hI hd _) h

end Resolve

/-! ## New inodes -/

/-- What stands at a path stays there. -/
def StandsKept (fs fs' : Ramfs) : Prop := ∀ i path, fs.Stands i path → fs'.Stands i path

theorem SameTree.components {fs fs' : Ramfs} (h : SameTree fs fs') : ∀ (fuel i : ℕ),
    fs'.components fuel i = fs.components fuel i
  | 0, _ => rfl
  | fuel + 1, i => by
    have hup : fs'.up i = fs.up i := by
      unfold up
      rw [h.parentIdx]
    unfold Ramfs.components
    rw [hup, h.name, h.components fuel]

theorem SameTree.stands_iff {fs fs' : Ramfs} (h : SameTree fs fs') {i : ℕ}
    {path : List (List UInt8)} : fs'.Stands i path ↔ fs.Stands i path := by
  unfold Stands
  rw [h.used_iff, h.components]

theorem SameTree.shows {fs fs' : Ramfs} (h : SameTree fs fs') {t : NameTree} (ht : Shows fs t) :
    Shows fs' t := by
  refine ⟨fun i path hi => ?_, fun path hk => ?_⟩
  · rw [ht.kinds i path (h.stands_iff.mp hi), kindOf, kindOf, h.type]
  · obtain ⟨i, hi⟩ := ht.covers path hk
    exact ⟨i, h.stands_iff.mpr hi⟩

section Adds

variable {fs fs' : Ramfs} {k : ℕ} (hI : TreeInv fs) (hI' : TreeInv fs') (ha : Adds fs fs' k)

include hI hI' ha

theorem Adds.components : ∀ (n : ℕ) {i : ℕ}, i ≤ n → fs.Used i →
    fs'.components maxFiles i = fs.components maxFiles i
  | n, i, hn, hu => by
    by_cases h0 : i = 0
    · subst h0
      simp [Ramfs.components, maxFiles]
    · obtain ⟨-, hlt, hdir⟩ := hI.up_spec h0 hu
      cases n with
      | zero => omega
      | succ n =>
        have hup : fs'.up i = fs.up i := by
          unfold up
          rw [ha.files_eq hu]
        rw [components_succ hI' h0 (ha.usedOf hu), components_succ hI h0 hu, hup, ha.files_eq hu,
          Adds.components n (by omega) hdir.1]

theorem Adds.stands : StandsKept fs fs' :=
  fun i _ h => ⟨ha.usedOf h.1, (ha.components hI hI' i le_rfl h.1).trans h.2⟩

/-- The new inode stands under its name in its directory. -/
theorem Adds.shows {t : NameTree} (ht : Shows fs t) {d : ℕ} {dir : List (List UInt8)}
    (hd : fs.Stands d dir) {name : List UInt8} (hname : (fs'.files k).name = name)
    (hparent : (fs'.files k).parentIdx = d) (kind : FileKind) (hkind : kindOf (fs'.files k) = kind)
    (hdir : t.kind dir = some .dir) (hfree : t.kind (dir ++ [name]) = none) :
    fs'.Stands k (dir ++ [name]) ∧ Shows fs' (t.insert dir name kind hdir hfree) := by
  have h0 : k ≠ 0 := by
    rintro rfl
    exact ha.fresh.2 hI.root.1.1
  have hup : fs'.up k = d := by
    unfold up
    rw [hparent]
    rfl
  have hself : fs'.Stands k (dir ++ [name]) := by
    refine ⟨ha.used, ?_⟩
    rw [components_succ hI' h0 ha.used, hup, hname, (ha.stands hI hI' d dir hd).2]
  have hold : ∀ i, i ≠ k → fs'.Used i → fs.Used i := by
    intro i hi hu
    exact ⟨hu.1, by rw [← ha.others i hi]; exact hu.2⟩
  refine ⟨hself, fun i path hi => ?_, fun path hk => ?_⟩
  · by_cases hik : i = k
    · subst hik
      rw [← hself.2.symm.trans hi.2, hkind]
      exact Function.update_self ..
    · have hu := hold i hik hi.1
      have hs : fs.Stands i path := ⟨hu, (ha.components hI hI' i le_rfl hu).symm.trans hi.2⟩
      have hpath := ht.kinds i path hs
      have hne : path ≠ dir ++ [name] := by
        rintro rfl
        rw [hfree] at hpath
        cases hpath
      rw [ha.others i hik, ← hpath]
      exact Function.update_of_ne hne _ _
  · by_cases hne : path = dir ++ [name]
    · exact ⟨k, hne ▸ hself⟩
    · have hk' : t.kind path ≠ none := by
        rwa [← show (t.insert dir name kind hdir hfree).kind path = t.kind path from
          Function.update_of_ne hne _ _]
      obtain ⟨i, hi⟩ := ht.covers path hk'
      exact ⟨i, ha.stands hI hI' i path hi⟩

end Adds

section Room

variable {fs : Ramfs} {t : NameTree} (hI : FsOk fs) (ht : Shows fs t)

include hI ht

/-- The table of inodes is full when the tree has as many nodes. -/
theorem room_iff : t.nodes.ncard < maxFiles ↔ ∃ i < maxFiles, (fs.files i).isUsed = false := by
  have himage : t.nodes = (fun i => fs.components maxFiles i) '' {i | fs.Used i} := by
    ext path
    refine ⟨fun hk => ?_, ?_⟩
    · obtain ⟨i, hi⟩ := ht.covers path hk
      exact ⟨i, hi.1, hi.2⟩
    · rintro ⟨i, hi, rfl⟩
      have := ht.kinds i _ ⟨hi, rfl⟩
      simp [nodes, this]
  have hinj : Set.InjOn (fun i => fs.components maxFiles i) {i | fs.Used i} :=
    fun i hi j hj hij => Stands.unique hI ⟨hi, rfl⟩ ⟨hj, hij.symm⟩
  have hcard : t.nodes.ncard = {i | fs.Used i}.ncard := by
    rw [himage, hinj.ncard_image]
  have hall : (Finset.range maxFiles : Set ℕ).ncard = maxFiles := by
    rw [Set.ncard_coe_finset, Finset.card_range]
  have hsub : {i | fs.Used i} ⊆ (Finset.range maxFiles : Set ℕ) := by
    intro i hi
    exact Finset.mem_coe.mpr (Finset.mem_range.mpr hi.1)
  rw [hcard]
  refine ⟨fun hlt => ?_, fun ⟨i, hi, hfree⟩ => ?_⟩
  · by_contra hfull
    push Not at hfull
    have heq : {i | fs.Used i} = (Finset.range maxFiles : Set ℕ) := by
      refine hsub.antisymm fun i hi => ?_
      have hi := Finset.mem_range.mp (Finset.mem_coe.mp hi)
      exact ⟨hi, by simpa using hfull i hi⟩
    rw [heq, hall] at hlt
    omega
  · rw [← hall]
    refine Set.ncard_lt_ncard (hsub.ssubset_of_not_subset fun hsup => ?_) (Finset.finite_toSet _)
    have hu : fs.Used i := hsup (Finset.mem_coe.mpr (Finset.mem_range.mpr hi))
    rw [hu.2] at hfree
    cases hfree

/-- In a directory only the lack of an inode keeps one from being made. -/
theorem full_of_createInode_none {r : Resolved} {type : RamfsType} {content : Option (List UInt8)}
    {d : ℕ} (hp : r.parentOut = some (d : ℤ)) (hc : fs.createInode r type content = none) :
    ¬ t.nodes.ncard < maxFiles := by
  intro hroom
  obtain ⟨i, hi, hfree⟩ := (room_iff hI ht).mp hroom
  unfold createInode at hc
  dsimp only at hc
  rw [hp, Option.getD_some, if_neg (by omega), Option.map_eq_none_iff,
    allocInode_eq_none_iff] at hc
  rw [hc i hi] at hfree
  cases hfree

variable {r : Resolved} {e : Target (List UInt8)} (hr : ResolvedOk fs r) (hrep : Reports fs r e)
  (hsound : e.Sound t) (hmiss : r.inode = -1) {type : RamfsType} {content : Option (List UInt8)}

include hrep

/-- Where no inode is made, the tree has no place for one. -/
theorem grow_of_createInode_none (hc : fs.createInode r type content = none) (kind : FileKind) :
    t.grow maxFiles kind e = t := by
  rcases e with path | ⟨dir, name⟩ | _
  · exact t.grow_found maxFiles kind path
  · obtain ⟨-, -, d, hp, -, -⟩ := hrep
    exact t.grow_of_full (full_of_createInode_none hI ht hp hc) kind _
  · exact t.grow_lost maxFiles kind

include hmiss hr hsound

/-- A new inode is the new node of the tree. -/
theorem createInode_shows {k : ℕ} {fs' : Ramfs}
    (hc : fs.createInode r type content = some (k, fs')) (kind : FileKind)
    (hkind : kind = if type = .dir then .dir else .file) :
    Shows fs' (t.grow maxFiles kind e) ∧ StandsKept fs fs'
      ∧ (∃ path, e.path = some path ∧ fs'.Stands k path)
      ∧ (∃ dir name, e = .missing dir name) ∧ t.nodes.ncard < maxFiles := by
  obtain ⟨ha, hp, hk⟩ := createInode_adds hc
  obtain ⟨hI', -⟩ := createInode_ok hI.toTreeInv hr hmiss hc
  obtain ⟨-, hlt, hfree, -, -⟩ := createInode_cases hc
  have hroom : t.nodes.ncard < maxFiles := (room_iff hI ht).mpr ⟨k, hlt, hfree⟩
  rcases e with path | ⟨dir, name⟩ | _
  · obtain ⟨i, hi, -⟩ := hrep
    omega
  · obtain ⟨-, hname, d, hpar, hdir, hd⟩ := hrep
    obtain ⟨hkdir, hkfree⟩ := hsound
    rw [hname, hpar] at hk
    obtain ⟨hself, hshows⟩ := ha.shows hI.toTreeInv hI' ht hd (by rw [hk]; rfl) (by rw [hk]; rfl)
      kind (by rw [hk, hkind]; rfl) hkdir hkfree
    rw [t.grow_missing kind hroom hkdir hkfree]
    exact ⟨hshows, ha.stands hI.toTreeInv hI', ⟨_, rfl, hself⟩, ⟨dir, name, rfl⟩, hroom⟩
  · rw [hrep.2] at hp
    exact absurd rfl hp

end Room

/-! ## Calls -/

section Calls

variable {fs fs' : Ramfs} {t : NameTree} {cur cur' : Pcb} (hI : FsOk fs) (ht : Shows fs t) {d : ℕ}
  {dir : List (List UInt8)} (hcur : cur.cwdInode = d) (hdir : fs.IsDir d) (hd : fs.Stands d dir)
  {path : Option (List UInt8)} {ret : ℤ}

include hI ht hcur hdir hd

theorem ramfsMkdir_shows (h : fs.ramfsMkdir cur path = some (ret, fs')) :
    Shows fs' (t.grow maxFiles .dir (pathTarget t dir path)) ∧ StandsKept fs fs'
      ∧ (ret = 0 ↔ (∃ ds name, pathTarget t dir path = .missing ds name)
        ∧ t.nodes.ncard < maxFiles) := by
  have hsound := pathTarget_sound hI ht hdir hd path
  obtain ⟨r, hres, hends⟩ := ramfsMkdir_ends h
  rw [hcur] at hres
  have hrep := resolvePath_reports hI ht hdir hd path hres
  have hrok := resolvePath_ok hI.toTreeInv ⟨d, rfl, hdir⟩ true hres
  by_cases hmiss : r.inode = -1
  · rcases hc : fs.createInode r .dir none with _ | ⟨k, fs₁⟩
    · rcases hends with ⟨rfl, rfl⟩ | ⟨-, -, k, hk⟩
      · rw [grow_of_createInode_none hI ht hrep hc]
        refine ⟨ht, fun _ _ => id, by simp, ?_⟩
        rintro ⟨⟨ds, name, he⟩, hroom⟩
        rw [he] at hrep hsound
        obtain ⟨-, -, e, hp, -, -⟩ := hrep
        exact absurd hroom (full_of_createInode_none hI ht hp hc)
      · rw [hc] at hk
        cases hk
    · obtain ⟨hshows, hkept, -, hmissing, hroom⟩ :=
        createInode_shows hI ht hrok hrep hsound hmiss hc .dir rfl
      rcases hends with ⟨rfl, rfl⟩ | ⟨rfl, -, k', hk⟩
      · unfold ramfsMkdir at h
        rw [hcur, hres, Option.map_some, if_neg (not_not.mpr hmiss), hc] at h
        simp at h
      · rw [hc] at hk
        obtain ⟨-, rfl⟩ := Prod.mk.inj (Option.some.inj hk)
        exact ⟨hshows, hkept, fun _ => ⟨hmissing, hroom⟩, fun _ => rfl⟩
  · rcases hends with ⟨rfl, rfl⟩ | ⟨-, hr, -⟩
    · rcases he : pathTarget t dir path with q | ⟨ds, name⟩ | _ <;> rw [he] at hrep
      · rw [grow_found]
        exact ⟨ht, fun _ _ => id, by simp, by simp⟩
      · exact absurd hrep.1 hmiss
      · exact absurd hrep.1 hmiss
    · exact absurd hr hmiss

/-- What an open does to the names, and what it opens. -/
theorem ramfsOpen_shows {flags : BitVec 32} {mem : Bool}
    (h : fs.ramfsOpen cur path flags mem = some (ret, fs', cur')) :
    Shows fs' (if flags &&& oCreat = 0 then t
        else t.grow maxFiles .file (pathTarget t dir path)) ∧ StandsKept fs fs'
      ∧ cur'.cwdInode = cur.cwdInode
      ∧ (0 ≤ ret → ∃ f n q, freeFd cur = some ret.toNat
        ∧ cur'.fdTable = cur.fdTable.set ret.toNat (some f)
        ∧ fs'.globalFileTable f = ⟨some n, 0, 1⟩
        ∧ (pathTarget t dir path).path = some q ∧ fs'.Stands n q) := by
  have hsound := pathTarget_sound hI ht hdir hd path
  obtain ⟨r, hres, hends⟩ := ramfsOpen_ends h
  rw [hcur] at hres
  have hrep := resolvePath_reports hI ht hdir hd path hres
  have hrok := resolvePath_ok hI.toTreeInv ⟨d, rfl, hdir⟩ true hres
  have hfound : r.inode ≠ -1 → ∃ q, pathTarget t dir path = .found q := by
    intro hr
    rcases he : pathTarget t dir path with q | ⟨ds, name⟩ | _ <;> rw [he] at hrep
    · exact ⟨q, rfl⟩
    · exact absurd hrep.1 hr
    · exact absurd hrep.1 hr
  have hopen : ∀ {n : ℕ} {fs₁ : Ramfs}, fs.openInode r flags = some (n, fs₁) →
      Shows fs₁ (if flags &&& oCreat = 0 then t else t.grow maxFiles .file (pathTarget t dir path))
        ∧ StandsKept fs fs₁ ∧ ∃ q, (pathTarget t dir path).path = some q ∧ fs₁.Stands n q := by
    intro n fs₁ hn
    rcases openInode_cases hn with ⟨hr, rfl, rfl⟩ | ⟨hmiss, hflags, hc⟩
    · obtain ⟨q, he⟩ := hfound hr
      rw [he] at hrep ⊢
      obtain ⟨i, hi, hs⟩ := hrep
      rw [grow_found, ite_self, hi]
      exact ⟨ht, fun _ _ => id, q, rfl, hs⟩
    · obtain ⟨hshows, hkept, hpath, -⟩ :=
        createInode_shows hI ht hrok hrep hsound hmiss hc .file rfl
      rw [if_neg hflags]
      exact ⟨hshows, hkept, hpath⟩
  have hset : ∀ {fs₁ : Ramfs} (f : ℕ) (x : File), SameTree fs₁ (fs₁.setFile f x) :=
    fun f x => .rfl_of_files rfl
  cases hends with
  | noInode hn =>
    refine ⟨?_, fun _ _ => id, rfl, fun h => absurd h (by decide)⟩
    split_ifs with hflags
    · exact ht
    · unfold openInode at hn
      by_cases hr : r.inode ≠ -1
      · rw [if_pos hr] at hn
        cases hn
      · rw [if_neg hr, if_neg hflags] at hn
        rw [grow_of_createInode_none hI ht hrep hn]
        exact ht
  | noFile n _ hn hf =>
    obtain ⟨hshows, hkept, -⟩ := hopen hn
    exact ⟨hshows, hkept, rfl, fun h => absurd h (by decide)⟩
  | noFd n f fs₁ fs₂ hn hf hfd =>
    obtain ⟨hshows, hkept, -⟩ := hopen hn
    exact ⟨(hset f _).shows hshows, fun i q hi => (hset f _).stands_iff.mpr (hkept i q hi), rfl,
      fun h => absurd h (by decide)⟩
  | opened n f i fs₁ fs₂ hn hf hfd =>
    obtain ⟨hshows, hkept, q, hq, hs⟩ := hopen hn
    refine ⟨(hset f _).shows hshows, fun i q hi => (hset f _).stands_iff.mpr (hkept i q hi), rfl,
      fun _ => ⟨f, n, q, hfd, rfl, ?_, hq, (hset f _).stands_iff.mpr hs⟩⟩
    simp [setFile]

/-- Changing the directory. -/
theorem ramfsChdir_stands (h : fs.ramfsChdir cur path = some (ret, cur')) :
    (ret = 0 ∧ ∃ q i, pathTarget t dir path = .found q ∧ t.kind q = some .dir
        ∧ cur'.cwdInode = (i : ℕ) ∧ fs.IsDir i ∧ fs.Stands i q)
      ∨ ret = -1 ∧ cur' = cur
        ∧ ∀ q, pathTarget t dir path = .found q → t.kind q ≠ some .dir := by
  unfold ramfsChdir at h
  obtain ⟨r, hres, he⟩ := Option.map_eq_some_iff.mp h
  rw [hcur] at hres
  have hrep := resolvePath_reports hI ht hdir hd path hres
  split_ifs at he with hmiss htype <;> obtain ⟨rfl, rfl⟩ := Prod.mk.inj he
  · refine .inr ⟨rfl, rfl, fun q hq => ?_⟩
    rw [hq] at hrep
    obtain ⟨i, hi, -⟩ := hrep
    omega
  · refine .inr ⟨rfl, rfl, fun q hq hk => htype ?_⟩
    rw [hq] at hrep
    obtain ⟨i, hi, hs⟩ := hrep
    rw [hi]
    exact ((kind_dir_iff ht hs).mp hk).2
  · rcases hq : pathTarget t dir path with q | ⟨ds, name⟩ | _ <;> rw [hq] at hrep
    · obtain ⟨i, hi, hs⟩ := hrep
      have hidir : fs.IsDir i := by
        refine ⟨hs.1, ?_⟩
        rw [hi] at htype
        exact not_not.mp htype
      exact .inl ⟨rfl, q, i, rfl, (kind_dir_iff ht hs).mpr hidir, hi, hidir, hs⟩
    · exact absurd hrep.1 hmiss
    · exact absurd hrep.1 hmiss

end Calls

/-! ## The first names -/

/-- The directories and files `ramfs_init` makes. -/
def startDirs : List (List (List UInt8)) :=
  [[], [ascii "usr"], [ascii "usr", ascii "bin"], [ascii "usr", ascii "lib"]]

def startFiles : List (List (List UInt8)) :=
  [[ascii "init"], [ascii "usr", ascii "shell.c"], [ascii "usr", ascii "usrmain.c"]]

def startKind (path : List (List UInt8)) : Option FileKind :=
  if path ∈ startDirs then some .dir else if path ∈ startFiles then some .file else none

theorem mem_start {path : List (List UInt8)} (h : startKind path ≠ none) :
    path ∈ startDirs ++ startFiles := by
  unfold startKind at h
  rw [List.mem_append]
  split_ifs at h with hd hf
  · exact .inl hd
  · exact .inr hf
  · exact absurd rfl h

def startTree : NameTree where
  kind := startKind
  root := by decide
  closed path name h := by
    have hall : ∀ path ∈ startDirs ++ startFiles, startKind path.dropLast = some .dir := by decide
    have hpath := hall _ (mem_start h)
    rwa [List.dropLast_concat] at hpath

theorem ramfsInit_shows : Shows (ramfsInit none 0) startTree := by
  have hused : ∀ i, (ramfsInit none 0).Used i ↔ i < 7 := by
    intro i
    unfold Used ramfsInit maxFiles
    dsimp only
    rcases i with _ | _ | _ | _ | _ | _ | _ | i <;> simp [RamfsNode.zero]
  have hkinds : ∀ i < 7, startKind ((ramfsInit none 0).components maxFiles i)
      = some (kindOf ((ramfsInit none 0).files i)) := by
    decide
  have hcovers : ∀ path ∈ startDirs ++ startFiles,
      ∃ i < 7, (ramfsInit none 0).components maxFiles i = path := by
    decide
  refine ⟨fun i path hi => ?_, fun path hk => ?_⟩
  · rw [← hi.2]
    exact hkinds i ((hused i).mp hi.1)
  · obtain ⟨i, hi, hpath⟩ := hcovers path (mem_start hk)
    exact ⟨i, (hused i).mpr hi, hpath⟩

/-- The text of an absolute path. -/
def pathText (path : List (List UInt8)) : List UInt8 :=
  if path = [] then [slash] else joined path

theorem Stands.absPath {fs : Ramfs} (hI : FsOk fs) {i : ℕ} {path : List (List UInt8)}
    (h : fs.Stands i path) : fs.absPath i = pathText path := by
  unfold Ramfs.absPath pathText
  by_cases h0 : i = 0
  · subst h0
    rw [if_pos rfl, if_pos (h.2.symm.trans (stands_root hI).2)]
  · rw [if_neg h0, h.2, if_neg]
    rintro rfl
    exact h0 (Stands.unique hI h (stands_root hI))

end Ramfs

end SudoOS
