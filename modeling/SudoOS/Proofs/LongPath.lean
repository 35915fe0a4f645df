import SudoOS.Proofs.Cwd

/-!
# Paths that do not fit

`resolve_path` copies at most 127 bytes and goes on with what it copied, where `ramfs_getcwd`
returns `NULL` rather than cut a path. What it does with the part is what the part means as a path,
so nothing is lost exactly when the part means the same, or fails without a node being made
(`notCut_iff`).
-/

namespace SudoOS

open Wire Pieces

namespace Ramfs

/-- The components left of a path after it has been copied. -/
def heard (path : List UInt8) : List (List UInt8) :=
  tokens ((relPath path).take (copyLen (relPath path)).toNat)

/-- Every inode that is new in `fs'` is the last of the components, in the directory the others lead
to. -/
def Made (fs fs' : Ramfs) (d : ℕ) (full : List (List UInt8)) : Prop :=
  ∀ i, fs'.Used i → ¬ fs.Used i → ∃ ds name e, full = ds ++ [name] ∧ fs.walkDirs d ds = some e
    ∧ fs'.Child e i ∧ (fs'.files i).name = name

/-- The components `full` of the path in `buf` are not cut: it is found at the inode they lead to or
not at all, and nothing is made for a part of them. -/
structure NotCut (fs : Ramfs) (cur : Pcb) (buf : List UInt8) (d : ℕ) (full : List (List UInt8)) :
    Prop where
  found : ∃ r, fs.resolvePath cur.cwdInode false (some buf) = some r
    ∧ (r.inode = -1 ∨ r.inode = index (fs.walk d full))
  mkdir : ∃ ret fs', fs.ramfsMkdir cur (some buf) = some (ret, fs') ∧ Made fs fs' d full
  create : ∀ flags mem, flags &&& oCreat ≠ 0 →
    (mem = true → (fs.ramfsOpen cur (some buf) flags mem).isSome) ∧ ∀ ret fs' cur',
      fs.ramfsOpen cur (some buf) flags mem = some (ret, fs', cur') → Made fs fs' d full

/-- What the part left of a path has to come to. -/
inductive Uncut (fs : Ramfs) (d : ℕ) (part full : List (List UInt8)) : Prop
  /-- The part leads to the same inode. -/
  | same (i : ℕ) (hpart : fs.walk d part = some i) (hfull : fs.walk d full = some i)
  /-- A component of the part before its last is no directory. -/
  | stopped (ds : List (List UInt8)) (name : List UInt8) (hpart : part = ds ++ [name])
    (hdirs : fs.walkDirs d ds = none)
  /-- The last component of the part is missing, and there is no inode for it or it is the last one
  of the path too. -/
  | missing (ds : List (List UInt8)) (name : List UInt8) (e : ℕ) (hpart : part = ds ++ [name])
    (hdirs : fs.walkDirs d ds = some e) (hmiss : fs.follow e name = none)
    (hshort : name.length ≤ 31)
    (hlast : (∀ i < maxFiles, fs.Used i)
      ∨ ∃ ds', full = ds' ++ [name] ∧ fs.walkDirs d ds' = some e)

/-! ## What a walk comes to -/

theorem walk_cases (fs : Ramfs) (d : ℕ) (names : List (List UInt8)) :
    (∃ i, fs.walk d names = some i)
      ∨ (∃ ds name, names = ds ++ [name] ∧ fs.walkDirs d ds = none)
      ∨ ∃ ds name e, names = ds ++ [name] ∧ fs.walkDirs d ds = some e
        ∧ fs.follow e name = none := by
  rcases List.eq_nil_or_concat names with rfl | ⟨ds, name, rfl⟩
  · exact .inl ⟨d, rfl⟩
  · rw [List.concat_eq_append, walk_concat]
    rcases hd : fs.walkDirs d ds with _ | e
    · exact .inr (.inl ⟨ds, name, rfl, hd⟩)
    · rcases hf : fs.follow e name with _ | i
      · exact .inr (.inr ⟨ds, name, e, rfl, hd, hf⟩)
      · exact .inl ⟨i, hf⟩

theorem resolved_stopped {fs : Ramfs} (w : Bool) {d : ℕ} {ds : List (List UInt8)}
    (name : List UInt8) (h : fs.walkDirs d ds = none) :
    fs.resolved w d (ds ++ [name]) = some ⟨-1, none, none⟩ := by
  rw [resolved_concat, h]

theorem resolved_missing {fs : Ramfs} (w : Bool) {d e : ℕ} {ds : List (List UInt8)}
    {name : List UInt8} (h : fs.walkDirs d ds = some e) (hf : fs.follow e name = none) :
    fs.resolved w d (ds ++ [name])
      = if w ∧ name.length ≥ 32 then none else some ⟨-1, some e, some name⟩ := by
  have hdots : ¬ (name = dot ∨ name = dotDot) := by
    rintro (rfl | rfl)
    · cases hf
    · cases hf
  rw [resolved_concat, h]
  dsimp only
  rw [if_neg hdots, hf]
  rfl

/-- A name that is found fits the caller's buffer. -/
theorem resolved_found {fs : Ramfs} (hI : FsOk fs) (w : Bool) {d i : ℕ}
    {names : List (List UInt8)} (h : fs.walk d names = some i) :
    ∃ r, fs.resolved w d names = some r ∧ r.inode = i := by
  rcases List.eq_nil_or_concat names with rfl | ⟨ds, name, rfl⟩
  · obtain rfl := Option.some.inj h
    exact ⟨_, rfl, rfl⟩
  · rw [List.concat_eq_append, walk_concat] at h
    obtain ⟨e, hd, hf⟩ := Option.bind_eq_some_iff.mp h
    rw [List.concat_eq_append, resolved_concat, hd]
    dsimp only
    rw [hf]
    by_cases hdots : name = dot ∨ name = dotDot
    · rw [if_pos hdots]
      exact ⟨_, rfl, rfl⟩
    · have hchild : fs.childNamed e name = some i := by
        rw [not_or] at hdots
        rwa [follow, if_neg hdots.1, if_neg hdots.2] at hf
      obtain ⟨hc, hn⟩ := (childNamed_eq_some hI.toTreeInv).mp hchild
      have hshort := (hI.nodes i hc.1).short
      rw [hn] at hshort
      rw [if_neg hdots, if_neg (by omega)]
      exact ⟨_, rfl, rfl⟩

/-! ## What a call makes -/

theorem made_refl (fs : Ramfs) (d : ℕ) (full : List (List UInt8)) : Made fs fs d full :=
  fun _ h hn => absurd h hn

theorem made_congr {fs fs₁ fs₂ : Ramfs} (h : fs₂.files = fs₁.files) {d : ℕ}
    {full : List (List UInt8)} : Made fs fs₂ d full ↔ Made fs fs₁ d full := by
  unfold Made Child Used
  rw [h]

/-- The file system after `create_inode` has been tried. -/
def created (fs : Ramfs) (r : Resolved) (type : RamfsType) (content : Option (List UInt8)) :
    Ramfs :=
  ((fs.createInode r type content).map Prod.snd).getD fs

theorem made_created_iff (fs : Ramfs) (d e : ℕ) (name : List UInt8) (type : RamfsType)
    (content : Option (List UInt8)) (full : List (List UInt8)) :
    Made fs (fs.created ⟨-1, some e, some name⟩ type content) d full
      ↔ (∀ i < maxFiles, fs.Used i) ∨ ∃ ds, full = ds ++ [name] ∧ fs.walkDirs d ds = some e := by
  have he : ¬ (e : ℤ) = -1 := by omega
  unfold created createInode
  dsimp only [Option.getD_some]
  rw [if_neg he]
  rcases ha : fs.allocInode with _ | ⟨i, fs'⟩
  · exact ⟨fun _ => .inl fun i hi => ⟨hi, allocInode_eq_none_iff.mp ha i hi⟩,
      fun _ => made_refl fs d full⟩
  · obtain ⟨hlt, hfree, -, rfl⟩ := allocInode_cases ha
    have hnew : ¬ fs.Used i := fun hu => by simp [hu.2] at hfree
    simp only [Option.map_some, Option.getD_some]
    constructor
    · intro hm
      obtain ⟨ds, name', e', hfull, hdirs, hc, hn⟩ := hm i
        ⟨hlt, by simp [setNode]⟩ hnew
      have hpar := hc.2
      simp only [setNode, Function.update_self] at hpar hn
      obtain rfl : e = e' := by omega
      exact .inr ⟨ds, by rw [hfull, hn], hdirs⟩
    · rintro (hall | ⟨ds, hfull, hdirs⟩) j hj hnj
      · exact absurd (hall i hlt) hnew
      · by_cases hji : j = i
        · subst hji
          exact ⟨ds, name, e, hfull, hdirs, ⟨hj, by simp [setNode]⟩, by simp [setNode]⟩
        · refine absurd ?_ hnj
          simpa [Used, setNode, Function.update_of_ne hji] using hj

theorem ramfsMkdir_made {fs : Ramfs} {cur : Pcb} {buf : List UInt8} {r : Resolved}
    (h : fs.resolvePath cur.cwdInode true (some buf) = some r) :
    ∃ ret, fs.ramfsMkdir cur (some buf)
      = some (ret, if r.inode = -1 then fs.created r .dir none else fs) := by
  unfold ramfsMkdir created
  rw [h, Option.map_some]
  by_cases hi : r.inode = -1
  · rw [if_neg (not_not.mpr hi), if_pos hi]
    rcases fs.createInode r .dir none with _ | ⟨i, fs'⟩
    · exact ⟨-1, rfl⟩
    · exact ⟨0, rfl⟩
  · rw [if_pos hi, if_neg hi]
    exact ⟨-1, rfl⟩

theorem ramfsOpen_made {fs : Ramfs} {cur : Pcb} {buf : List UInt8} {r : Resolved}
    (h : fs.resolvePath cur.cwdInode true (some buf) = some r) {flags : BitVec 32}
    (hflags : flags &&& oCreat ≠ 0) (mem : Bool) :
    (mem = true → (fs.ramfsOpen cur (some buf) flags mem).isSome) ∧ ∀ ret fs' cur',
      fs.ramfsOpen cur (some buf) flags mem = some (ret, fs', cur') →
        fs'.files = (if r.inode = -1 then
            fs.created r .file (some (List.replicate 4096 0))
          else fs).files := by
  have hopen : ∀ o, fs.openInode r flags = o → ((o.map Prod.snd).getD fs).files
      = (if r.inode = -1 then
          fs.created r .file (some (List.replicate 4096 0))
        else fs).files := by
    rintro o rfl
    unfold openInode created
    by_cases hi : r.inode = -1
    · rw [if_neg (not_not.mpr hi), if_neg hflags, if_pos hi]
    · rw [if_pos hi, if_neg hi]
      rfl
  refine ⟨fun hmem => ?_, fun ret fs' cur' ho => ?_⟩
  · exact ramfsOpen_isSome flags mem h (.inr (.inr hmem))
  obtain ⟨r', hr', hends⟩ := ramfsOpen_ends ho
  obtain rfl := Option.some.inj (h.symm.trans hr')
  -- The table of open files is all that changes once there is an inode.
  cases hends with
  | noInode hn => exact hopen none hn
  | noFile n _ hn _ => exact hopen _ hn
  | noFd n f _ _ hn _ _ => exact hopen _ hn
  | opened n f i _ _ hn _ _ => exact hopen _ hn

/-! ## Both together -/

section Cut

variable {fs : Ramfs} (hI : FsOk fs) {cur : Pcb} {buf : List UInt8} {d : ℕ}
  {part full : List (List UInt8)}
  (hres : ∀ w, fs.resolvePath cur.cwdInode w (some buf) = fs.resolved w d part)

include hI hres

omit hI in
/-- A path that is found, or fails before its last component, makes nothing. -/
theorem notCut_of_untouched {r r' : Resolved} (hf : fs.resolved false d part = some r)
    (ht : fs.resolved true d part = some r')
    (hmade : r'.inode = -1 → r'.parentOut = none)
    (hfound : r.inode = -1 ∨ r.inode = index (fs.walk d full)) : NotCut fs cur buf d full := by
  have hsame : ∀ (type : RamfsType) (content : Option (List UInt8)),
      (if r'.inode = -1 then fs.created r' type content else fs) = fs := by
    intro type content
    split_ifs with hi
    · unfold created createInode
      rw [hmade hi]
      rfl
    · rfl
  refine ⟨⟨r, (hres false).trans hf, hfound⟩, ?_, fun flags mem hflags => ?_⟩
  · obtain ⟨ret, hm⟩ := ramfsMkdir_made ((hres true).trans ht)
    rw [hsame] at hm
    exact ⟨ret, fs, hm, made_refl fs d full⟩
  · obtain ⟨hsome, hfiles⟩ := ramfsOpen_made ((hres true).trans ht) hflags mem
    rw [hsame] at hfiles
    exact ⟨hsome, fun ret fs' cur' ho =>
      (made_congr (hfiles ret fs' cur' ho)).mpr (made_refl fs d full)⟩

theorem notCut_of_uncut (h : Uncut fs d part full) : NotCut fs cur buf d full := by
  cases h with
  | same i hpart hfull =>
    obtain ⟨r, hr, hi⟩ := resolved_found hI false hpart
    obtain ⟨r', hr', hi'⟩ := resolved_found hI true hpart
    refine notCut_of_untouched hres hr hr' (fun hm => by omega) (.inr ?_)
    rw [hi, hfull]
    rfl
  | stopped ds name hpart hdirs =>
    subst hpart
    exact notCut_of_untouched hres (resolved_stopped false name hdirs)
      (resolved_stopped true name hdirs) (fun _ => rfl) (.inl rfl)
  | missing ds name e hpart hdirs hmiss hshort hlast =>
    subst hpart
    have hf := (hres false).trans (resolved_missing false hdirs hmiss)
    have ht := (hres true).trans (resolved_missing true hdirs hmiss)
    rw [if_neg (by simp)] at hf
    rw [if_neg (by omega)] at ht
    refine ⟨⟨_, hf, .inl rfl⟩, ?_, fun flags mem hflags => ?_⟩
    · obtain ⟨ret, hm⟩ := ramfsMkdir_made ht
      rw [if_pos rfl] at hm
      exact ⟨ret, _, hm, (made_created_iff fs d e name .dir none full).mpr hlast⟩
    · obtain ⟨hsome, hfiles⟩ := ramfsOpen_made ht hflags mem
      rw [if_pos rfl] at hfiles
      refine ⟨hsome, fun ret fs' cur' ho => (made_congr (hfiles ret fs' cur' ho)).mpr ?_⟩
      exact (made_created_iff fs d e name .file _ full).mpr hlast

theorem uncut_of_notCut (h : NotCut fs cur buf d full) : Uncut fs d part full := by
  rcases walk_cases fs d part with ⟨i, hi⟩ | ⟨ds, name, hpart, hdirs⟩
    | ⟨ds, name, e, hpart, hdirs, hmiss⟩
  · obtain ⟨r, hr, hor⟩ := h.found
    obtain ⟨r', hr', hi'⟩ := resolved_found hI false hi
    rw [hres, hr'] at hr
    obtain rfl := Option.some.inj hr
    rcases hor with hm | hm
    · omega
    · rcases hfull : fs.walk d full with _ | j
      · rw [hfull, hi'] at hm
        cases hm
      · rw [hfull, hi'] at hm
        obtain rfl : i = j := Int.ofNat.inj hm
        exact .same i hi hfull
  · exact .stopped ds name hpart hdirs
  · subst hpart
    obtain ⟨ret, fs', hm, hmade⟩ := h.mkdir
    have ht := (hres true).trans (resolved_missing true hdirs hmiss)
    by_cases hlong : name.length ≥ 32
    · rw [if_pos ⟨rfl, hlong⟩] at ht
      unfold ramfsMkdir at hm
      rw [ht] at hm
      cases hm
    · rw [if_neg (by omega)] at ht
      obtain ⟨ret', hm'⟩ := ramfsMkdir_made ht
      rw [if_pos rfl, hm] at hm'
      obtain ⟨-, rfl⟩ := Prod.mk.inj (Option.some.inj hm')
      exact .missing ds name e rfl hdirs hmiss (by omega)
        ((made_created_iff fs d e name .dir none full).mp hmade)

end Cut

theorem notCut_iff {fs : Ramfs} (hI : FsOk fs) {cur : Pcb} {path : List UInt8} {d : ℕ}
    (hstart : (pathStart cur.cwdInode path).1 = d) (hd : fs.IsDir d) (hnul : (0 : UInt8) ∉ path)
    (rest : List UInt8) (full : List (List UInt8)) :
    NotCut fs cur (path ++ 0 :: rest) d full
      ↔ 0 ≤ copyLen (relPath path) ∧ Uncut fs d (heard path) full := by
  have hres := fun w => resolvePath_eq hI.toTreeInv hstart hd w hnul rest
  by_cases hneg : copyLen (relPath path) < 0
  · refine ⟨fun h => ?_, fun h => absurd h.1 (by omega)⟩
    obtain ⟨r, hr, -⟩ := h.found
    rw [hres, if_pos hneg] at hr
    cases hr
  · simp only [if_neg hneg] at hres
    exact ⟨fun h => ⟨by omega, uncut_of_notCut hI hres h⟩, fun h => notCut_of_uncut hI hres h.2⟩

/-! ## The path of the working directory -/

theorem joined_length (names : List (List UInt8)) :
    (joined names).length = (names.map fun name => name.length + 1).sum := by
  induction names with
  | nil => rfl
  | cons name names ih =>
    rw [List.map_cons, List.sum_cons, ← ih]
    simp [joined, Nat.add_comm]
    omega

theorem joined_tokens (r : List UInt8) : (joined (tokens r)).length ≤ r.length + 1 := by
  unfold tokens
  split_ifs with hs
  · obtain ⟨xs, rfl⟩ := hs
    have hx := pieces_length slash xs
    have hpieces : pieces slash (xs ++ [slash, slash]) = pieces slash xs := by
      rw [pieces_append, pieces_cons_self, pieces_nil, List.append_nil]
    rw [hpieces, joined_append, List.length_append, List.length_append, joined_length]
    have hdot : (slash :: dot).length = 2 := rfl
    have htwo : [slash, slash].length = 2 := rfl
    omega
  · rw [List.append_nil, joined_length]
    exact pieces_length slash r

section Depth

variable {fs : Ramfs} (hI : FsOk fs)

include hI

/-- How long the absolute path of an inode is. -/
theorem follow_length {d j : ℕ} {name : List UInt8} (hd : fs.IsDir d)
    (h : fs.follow d name = some j) : fs.Used j ∧ (joined (fs.components maxFiles j)).length
      ≤ (joined (fs.components maxFiles d)).length + (name.length + 1) := by
  unfold follow at h
  split_ifs at h with hdot hdd h0
  · obtain rfl := Option.some.inj h
    exact ⟨hd.1, by omega⟩
  · obtain rfl := Option.some.inj h
    exact ⟨h0 ▸ hd.1, by rw [h0]; omega⟩
  · obtain rfl := Option.some.inj h
    have hj := joined_components hI.toTreeInv h0 hd.1
    obtain ⟨-, -, hup⟩ := hI.toTreeInv.up_spec h0 hd.1
    rw [hj, List.length_append]
    exact ⟨hup.1, by omega⟩
  · obtain ⟨hc, hn⟩ := (childNamed_eq_some hI.toTreeInv).mp h
    have h0 : j ≠ 0 := by
      rintro rfl
      have := hc.2.symm.trans hI.root.2
      omega
    obtain ⟨hp, -, -⟩ := hI.toTreeInv.up_spec h0 hc.1
    have hup : fs.up j = d := by
      have := hp.symm.trans hc.2
      omega
    rw [joined_components hI.toTreeInv h0 hc.1, hup, hn]
    simp [hc.1]

theorem walk_used : ∀ {names : List (List UInt8)} {d j : ℕ}, fs.IsDir d →
    fs.walk d names = some j → fs.Used j
  | [], d, j, hd, h => Option.some.inj h ▸ hd.1
  | [name], d, j, hd, h => (follow_length hI hd h).1
  | name :: next :: names, d, j, hd, h => by
    rw [walk] at h
    obtain ⟨e, he, hw⟩ := Option.bind_eq_some_iff.mp h
    obtain ⟨-, hdir⟩ := Option.filter_eq_some_iff.mp he
    exact walk_used (of_decide_eq_true hdir) hw

theorem walk_length : ∀ {names : List (List UInt8)} {d j : ℕ}, fs.IsDir d →
    fs.walk d names = some j → (joined (fs.components maxFiles j)).length
      ≤ (joined (fs.components maxFiles d)).length + (joined names).length
  | [], d, j, _, h => by
    obtain rfl := Option.some.inj h
    omega
  | [name], d, j, hd, h => by
    have := (follow_length hI hd h).2
    simpa [joined] using this
  | name :: next :: names, d, j, hd, h => by
    rw [walk] at h
    obtain ⟨e, he, hw⟩ := Option.bind_eq_some_iff.mp h
    obtain ⟨hf, hdir⟩ := Option.filter_eq_some_iff.mp he
    have hstep := (follow_length hI hd hf).2
    have hrest := walk_length (of_decide_eq_true hdir) hw
    rw [joined_length (name :: _), List.map_cons, List.sum_cons, ← joined_length]
    omega

/-- A path longer than the buffer does not lead back to its directory. -/
theorem walk_heard_ne {i j : ℕ} (hlen : 128 < (fs.absPath i).length)
    (h : fs.walk 0 (heard (fs.absPath i)) = some j) : j ≠ i := by
  rintro rfl
  have h0 : j ≠ 0 := by
    rintro rfl
    simp [absPath] at hlen
  have hw := walk_length hI hI.root.1 h
  have hroot : (joined (fs.components maxFiles 0)).length = 0 := by
    simp [components, joined, maxFiles]
  have ht := joined_tokens ((relPath (fs.absPath j)).take (copyLen (relPath (fs.absPath j))).toNat)
  have hcopy : (copyLen (relPath (fs.absPath j))).toNat ≤ 127 := by
    unfold copyLen
    omega
  unfold absPath at hlen
  rw [if_neg h0] at hlen
  rw [List.length_take] at ht
  unfold heard at hw
  omega

theorem absPath_length {i : ℕ} (hu : fs.Used i) : (fs.absPath i).length < 2 ^ 31 := by
  have hbound : ∀ (fuel : ℕ) {i : ℕ}, fs.Used i →
      (joined (fs.components fuel i)).length ≤ 32 * fuel := by
    intro fuel
    induction fuel with
    | zero => simp [components, joined]
    | succ fuel ih =>
      intro i hu
      unfold components
      split_ifs with h0
      · simp [joined]
      · obtain ⟨-, -, hdir⟩ := hI.toTreeInv.up_spec h0 hu
        have hshort := (hI.nodes i hu).short
        have := ih hdir.1
        rw [joined_append, List.length_append, List.length_cons]
        omega
  unfold absPath
  split_ifs
  · simp
  · have := hbound maxFiles hu
    have hmax : 32 * maxFiles = 2048 := rfl
    omega

/-- A path that fits leads to its inode, and a longer one does not. -/
theorem walk_heard_iff {i : ℕ} (hu : fs.Used i) :
    fs.walk 0 (heard (fs.absPath i)) = some i ↔ (fs.absPath i).length ≤ 128 := by
  refine ⟨fun h => ?_, fun hlen => ?_⟩
  · by_contra hlen
    exact walk_heard_ne hI (by omega) h rfl
  · obtain ⟨-, -, htail, hpieces, hlast⟩ := absPath_spec hI hu
    have hcopy : copyLen (relPath (fs.absPath i)) = (relPath (fs.absPath i)).length := by
      unfold copyLen
      rw [toInt32_of_lt (by omega)]
      omega
    unfold heard
    rw [hcopy, Int.toNat_natCast, List.take_length, tokens_eq_pieces hlast, hpieces]
    exact walk_leads hI (leads_components hI.toTreeInv i le_rfl hu)

theorem resolvePath_absPath {i : ℕ} (hu : fs.Used i) (cwd : ℤ) (rest : List UInt8) :
    ∃ r, fs.resolvePath cwd false (some (fs.absPath i ++ 0 :: rest)) = some r
      ∧ r.inode = index (fs.walk 0 (heard (fs.absPath i)))
      ∧ ∀ j ∈ fs.walk 0 (heard (fs.absPath i)), fs.Used j := by
  obtain ⟨hno, hstart, htail, -, -⟩ := absPath_spec hI hu
  have hcopy : 0 ≤ copyLen (relPath (fs.absPath i)) := by
    have hlt := absPath_length hI hu
    unfold copyLen
    rw [toInt32_of_lt (by omega)]
    omega
  have hres := resolvePath_eq hI.toTreeInv (hstart cwd) hI.root.1 false hno rest
  rw [if_neg (by omega)] at hres
  have hfits : false = true → ∀ name ∈ heard (fs.absPath i), name.length ≤ 31 := by simp
  obtain ⟨r, hr, hwalk⟩ := resolved_walkedTo fs 0 hfits
  refine ⟨r, hres.trans hr, hwalk.inode, fun j hj => ?_⟩
  exact walk_used hI hI.root.1 hj

/-- Changing to one's own directory by its absolute path. -/
theorem chdir_absPath_iff {i : ℕ} (hdir : fs.IsDir i) {cur : Pcb} (hcur : cur.cwdInode = i)
    (rest : List UInt8) :
    (∃ ret cur', fs.ramfsChdir cur (some (fs.absPath i ++ 0 :: rest)) = some (ret, cur')
        ∧ cur'.cwdInode = i)
      ↔ (fs.absPath i).length ≤ 128
        ∨ ∀ j, fs.walk 0 (heard (fs.absPath i)) = some j → ¬ fs.IsDir j := by
  obtain ⟨r, hr, hinode, hused⟩ := resolvePath_absPath hI hdir.1 cur.cwdInode rest
  have hiff := walk_heard_iff hI hdir.1
  unfold ramfsChdir
  rw [hr, Option.map_some, hinode]
  rcases hw : fs.walk 0 (heard (fs.absPath i)) with _ | j
  · simp [index, hcur]
  · have hj : ¬ (j : ℤ) = -1 := by omega
    rw [hw, Option.some.injEq] at hiff
    rw [index, if_neg hj, ← hiff]
    by_cases hd : fs.IsDir j
    · have htype : (fs.node (j : ℤ)).type = .dir := hd.2
      rw [if_neg (by simp [htype])]
      refine ⟨?_, ?_⟩
      · rintro ⟨ret, cur', he, hc⟩
        obtain ⟨-, rfl⟩ := Prod.mk.inj (Option.some.inj he)
        exact .inl (Int.ofNat.inj hc)
      · rintro (rfl | hno)
        · exact ⟨_, _, rfl, rfl⟩
        · exact absurd hd (hno j rfl)
    · have htype : (fs.node (j : ℤ)).type ≠ .dir := fun h => hd ⟨hused j hw, h⟩
      rw [if_pos htype]
      refine ⟨fun _ => .inr fun k hk => ?_, fun _ => ⟨_, _, rfl, hcur⟩⟩
      obtain rfl := Option.some.inj hk
      exact hd

end Depth

end Ramfs

namespace Sys

/-- In every reachable state a path is not cut exactly when its length fits an `int` and what
`resolve_path` copies of it comes to the same, and changing to the path `ramfs_getcwd` writes stays
where it is exactly when the path fits or what is left of it leads to no directory. -/
theorem long_path (s₀ : Sched) (idle : ℕ) (ops : List (ℕ × SysOp)) {s₁ : Sched}
    {s : Sys} (hinit : s₀.procInit idle = some s₁) (h : Run.run step (start s₁) ops = some s)
    {p : ℕ} (hp : p ∈ s.procList) :
    ∃ cwd : ℕ, (s.pcb p).cwdInode = cwd ∧ s.fs.IsDir cwd
      ∧ (∀ (path rest : List UInt8), (0 : UInt8) ∉ path →
        (Ramfs.NotCut s.fs (s.pcb p) (path ++ 0 :: rest) (Ramfs.startDir cwd path)
            (pieces slash (Ramfs.relPath path))
          ↔ 0 ≤ Ramfs.copyLen (Ramfs.relPath path)
            ∧ Ramfs.Uncut s.fs (Ramfs.startDir cwd path) (Ramfs.heard path)
              (pieces slash (Ramfs.relPath path))))
      ∧ ∀ (buf buf' : ℕ → UInt8) (size : ℕ),
        s.fs.ramfsGetcwd (s.pcb p) (some buf) size = some (some buf') →
          ((∃ ret cur', s.fs.ramfsChdir (s.pcb p) (some ((List.range size).map buf'))
              = some (ret, cur') ∧ cur'.cwdInode = cwd)
            ↔ (s.fs.absPath cwd).length ≤ 128
              ∨ ∀ j, s.fs.walk 0 (Ramfs.heard (s.fs.absPath cwd)) = some j → ¬ s.fs.IsDir j) := by
  have hI : SysInv s := Run.run_invariant step_inv (start_inv hinit) h
  obtain ⟨cwd, hcwd, hdir⟩ := hI.cwds p hp
  have hT := hI.fsOk.toTreeInv
  refine ⟨cwd, hcwd, hdir, fun path rest hnul => ?_, fun buf buf' size hget => ?_⟩
  · exact Ramfs.notCut_iff hI.fsOk (hcwd ▸ Ramfs.pathStart_fst cwd path)
      (Ramfs.startDir_isDir hT hdir path) hnul rest _
  · obtain ⟨r, hr, hfit, hat⟩ := Ramfs.ramfsGetcwd_spec hT hcwd hdir.1 buf size
    rw [hget] at hr
    obtain rfl := Option.some.inj hr
    have hsize : (s.fs.absPath cwd).length + 1 ≤ size := by
      by_contra hlt
      exact Option.some_ne_none buf' (hfit.mpr (by omega))
    obtain ⟨rest, hrest⟩ := range_map_of_at (hat buf' rfl).1 (by simpa using hsize)
    rw [hrest, List.append_assoc]
    exact Ramfs.chdir_absPath_iff hI.fsOk hdir hcwd rest

/-- Five directories inside one another, each with a name of 31 bytes. -/
def nestedOps : List (ℕ × SysOp) :=
  let name := some (List.replicate 31 97 ++ [0])
  (1, .createUserProcess [] (ProcSys.attemptAt 2)) ::
    (List.replicate 5 [(2, SysOp.call (.mkdir name)), (2, SysOp.call (.chdir name))]).flatten

def dottedPath (name : List UInt8) : List UInt8 := (List.replicate 63 [46, 47]).flatten ++ name

theorem long_path_nestedOps :
    ∃ s₁ s, Sched.boot.procInit 1 = some s₁ ∧ Run.run step (start s₁) nestedOps = some s
      ∧ (dottedPath (ascii "./.")).length = 129
      ∧ Ramfs.NotCut s.fs (s.pcb 2) (dottedPath (ascii "./.") ++ [0]) 11
        (pieces slash (dottedPath (ascii "./."))) := by
  have h : ((Sched.boot.procInit 1).bind fun s => Run.run step (start s) nestedOps).map
      (fun s => decide (2 ∈ s.procList ∧ (s.pcb 2).cwdInode = 11
        ∧ s.fs.walk 11 (Ramfs.heard (dottedPath (ascii "./."))) = some 11
        ∧ s.fs.walk 11 (pieces slash (dottedPath (ascii "./."))) = some 11)) = some true := by
    decide +kernel
  obtain ⟨s₁, s, h₁, hr, he⟩ := Run.exists_of_eval h
  obtain ⟨hp, hc, hpart, hfull⟩ := of_decide_eq_true he
  obtain ⟨cwd, hcwd, -, hcut, -⟩ := long_path Sched.boot 1 nestedOps h₁ hr hp
  obtain rfl : cwd = 11 := by omega
  refine ⟨s₁, s, h₁, hr, by decide +kernel, ?_⟩
  exact (hcut (dottedPath (ascii "./.")) [] (by decide +kernel)).mpr
    ⟨by decide +kernel, .same 11 hpart hfull⟩

/-- The path of the innermost directory is cut to that of the directory around it, and a long path
to a missing name makes a node for a part of the name. -/
theorem long_path_cut :
    ∃ s₁ s, Sched.boot.procInit 1 = some s₁ ∧ Run.run step (start s₁) nestedOps = some s
      ∧ 2 ∈ s.procList ∧ (s.pcb 2).cwdInode = 11 ∧ (s.fs.absPath 11).length = 160
      ∧ ¬ Ramfs.NotCut s.fs (s.pcb 2) (s.fs.absPath 11 ++ [0]) 0
        (pieces slash (Ramfs.relPath (s.fs.absPath 11)))
      ∧ (∃ fs', s.fs.ramfsMkdir (s.pcb 2) (some (dottedPath (ascii "ab") ++ [0])) = some (0, fs')
        ∧ ¬ Ramfs.Made s.fs fs' 11 (pieces slash (dottedPath (ascii "ab"))))
      ∧ ∃ cur', s.fs.ramfsChdir (s.pcb 2) (some (s.fs.absPath 11 ++ [0])) = some (0, cur')
        ∧ cur'.cwdInode = 10 := by
  have h : ((Sched.boot.procInit 1).bind fun s => Run.run step (start s) nestedOps).map
      (fun s => decide (2 ∈ s.procList ∧ (s.pcb 2).cwdInode = 11 ∧ (s.fs.absPath 11).length = 160
        ∧ (s.fs.resolvePath 11 false (some (s.fs.absPath 11 ++ [0]))).map (·.inode) = some 10
        ∧ s.fs.walk 0 (pieces slash (Ramfs.relPath (s.fs.absPath 11))) = some 11
        ∧ (s.fs.ramfsMkdir (s.pcb 2) (some (dottedPath (ascii "ab") ++ [0]))).map
            (fun r => (r.1, (r.2.files 12).isUsed, (r.2.files 12).name)) = some (0, true, ascii "a")
        ∧ (s.fs.files 12).isUsed = false
        ∧ (s.fs.ramfsChdir (s.pcb 2) (some (s.fs.absPath 11 ++ [0]))).map
            (fun r => (r.1, r.2.cwdInode)) = some (0, 10))) = some true := by
    decide +kernel
  obtain ⟨s₁, s, h₁, hr, he⟩ := Run.exists_of_eval h
  obtain ⟨hp, hc, hlen, hres, hwalk, hmk, hfree, hch⟩ := of_decide_eq_true he
  have hlast : (pieces slash (dottedPath (ascii "ab"))).getLast? = some (ascii "ab") := by
    decide +kernel
  refine ⟨s₁, s, h₁, hr, hp, hc, hlen, fun hcut => ?_, ?_, ?_⟩
  · obtain ⟨r, hr, hor⟩ := hcut.found
    rw [hc] at hr
    rw [hr, Option.map_some, Option.some.injEq] at hres
    rw [hwalk, hres] at hor
    exact absurd hor (by decide)
  · obtain ⟨⟨ret, fs'⟩, hm, he⟩ := Option.map_eq_some_iff.mp hmk
    simp only [Prod.mk.injEq] at he
    obtain ⟨rfl, hu, hn⟩ := he
    refine ⟨fs', hm, fun hmade => ?_⟩
    obtain ⟨ds, name, e, hfull, -, -, hname⟩ :=
      hmade 12 ⟨by decide, hu⟩ (by simp [Ramfs.Used, hfree])
    rw [hfull, List.getLast?_concat, ← hname, hn] at hlast
    exact absurd hlast (by decide)
  · obtain ⟨⟨ret, cur'⟩, hm, he⟩ := Option.map_eq_some_iff.mp hch
    simp only [Prod.mk.injEq] at he
    obtain ⟨rfl, hcwd⟩ := he
    exact ⟨cur', hm, hcwd⟩

end Sys

end SudoOS
