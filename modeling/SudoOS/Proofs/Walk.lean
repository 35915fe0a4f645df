import SudoOS.Lib.Pieces
import SudoOS.Proofs.Listing

/-!
# Walking along a path

What a path means is said on the list of its components (`walk`): each leads from a directory to the
next inode, and all but the last have to be directories. `resolve_path` finds the components while
it walks, and takes a component for the last one when its slash is the end of the buffer. So a
buffer that ends in two slashes has a last component that has to be a directory, just as if it
ended in a `.` (`tokens`), and on these components the loop is the plain walk (`resolveLoop_eq`).
-/

namespace SudoOS

open Pieces

namespace Ramfs

instance (fs : Ramfs) (i : ℕ) : Decidable (fs.IsDir i) := inferInstanceAs (Decidable (_ ∧ _))

section Reference

variable (fs : Ramfs)

def childNamed (d : ℕ) (name : List UInt8) : Option ℕ :=
  (List.range maxFiles).find? fun i => fs.Child d i ∧ (fs.files i).name = name

/-- Where a component leads from directory `d`. -/
def follow (d : ℕ) (name : List UInt8) : Option ℕ :=
  if name = dot then some d
  else if name = dotDot then some (if d = 0 then 0 else fs.up d)
  else fs.childNamed d name

/-- The directory a component leads to. -/
def enter (d : ℕ) (name : List UInt8) : Option ℕ :=
  (fs.follow d name).filter fun i => fs.IsDir i

/-- Where components lead that all are directories. -/
def walkDirs : ℕ → List (List UInt8) → Option ℕ
  | d, [] => some d
  | d, name :: names => (fs.enter d name).bind fun e => walkDirs e names

/-- Where a path leads from directory `d`, given its components. -/
def walk : ℕ → List (List UInt8) → Option ℕ
  | d, [] => some d
  | d, [name] => fs.follow d name
  | d, name :: next :: names => (fs.enter d name).bind fun e => walk e (next :: names)

/-- An inode as an `int`, -1 for none. -/
def index : Option ℕ → ℤ
  | some i => i
  | none => -1

/-- What `resolve_path` makes of these components. -/
def resolved (w : Bool) (d : ℕ) (names : List (List UInt8)) : Option Resolved :=
  match names.getLast? with
  | none => some ⟨d, some (fs.node d).parentIdx, none⟩
  | some name =>
    match fs.walkDirs d names.dropLast with
    | none => some ⟨-1, none, none⟩
    | some e =>
      if name = dot ∨ name = dotDot then
        let i := index (fs.follow e name)
        some ⟨i, some (fs.node i).parentIdx, none⟩
      else if w ∧ name.length ≥ 32 then none
      else some ⟨index (fs.follow e name), some e, some name⟩

theorem walk_concat : ∀ (d : ℕ) (names : List (List UInt8)) (name : List UInt8),
    fs.walk d (names ++ [name]) = (fs.walkDirs d names).bind fun e => fs.follow e name
  | d, [], name => rfl
  | d, [c], name => by
    rw [List.singleton_append, walk, walkDirs, Option.bind_assoc]
    rfl
  | d, c :: c' :: cs, name => by
    rw [List.cons_append, List.cons_append, walk, walkDirs, Option.bind_assoc]
    refine congrArg _ (funext fun e => ?_)
    exact walk_concat e (c' :: cs) name

theorem resolved_concat (w : Bool) (d : ℕ) (names : List (List UInt8)) (name : List UInt8) :
    fs.resolved w d (names ++ [name]) = match fs.walkDirs d names with
      | none => some ⟨-1, none, none⟩
      | some e =>
        if name = dot ∨ name = dotDot then
          let i := index (fs.follow e name)
          some ⟨i, some (fs.node i).parentIdx, none⟩
        else if w ∧ name.length ≥ 32 then none
        else some ⟨index (fs.follow e name), some e, some name⟩ := by
  unfold resolved
  rw [List.getLast?_concat, List.dropLast_concat]

theorem resolved_cons (w : Bool) (d : ℕ) (name : List UInt8) {names : List (List UInt8)}
    (h : names ≠ []) :
    fs.resolved w d (name :: names) = match fs.enter d name with
      | none => some ⟨-1, none, none⟩
      | some e => fs.resolved w e names := by
  obtain ⟨c, cs, rfl⟩ := List.exists_cons_of_ne_nil h
  unfold resolved
  rw [List.getLast?_cons_cons, List.dropLast_cons_cons, walkDirs]
  rcases fs.enter d name with _ | e
  · rw [List.getLast?_eq_getLast_of_ne_nil (List.cons_ne_nil c cs)]
    rfl
  · rfl

theorem resolved_dot (w : Bool) (d : ℕ) : fs.resolved w d [dot] = fs.resolved w d [] := by
  simp [resolved, walkDirs, follow, index]

end Reference

/-! ## The components of a path -/

/-- The components as `resolve_path` finds them. -/
def tokens (r : List UInt8) : List (List UInt8) :=
  pieces slash r ++ if [slash, slash] <:+ r then [dot] else []

theorem tokens_eq_pieces {r : List UInt8} (h : r.getLast? ≠ some slash) :
    tokens r = pieces slash r := by
  unfold tokens
  rw [if_neg, List.append_nil]
  rintro ⟨xs, rfl⟩
  simp at h

theorem pieces_token {r token r' : List UInt8} (h : Token slash r token r') :
    pieces slash r = token :: pieces slash r' := by
  have htoken := pieces_of_notMem h.noDelim h.nonempty
  obtain ⟨ds, hds, ⟨rfl, rfl⟩ | rfl⟩ := h.split
  · rw [pieces_skip hds, htoken, pieces_nil]
  · rw [pieces_skip hds, pieces_append, htoken]
    rfl

/-- A slash behind the token does not end two slashes. -/
theorem tokens_last {r token : List UInt8} (h : Token slash r token []) : tokens r = [token] := by
  unfold tokens
  rw [pieces_token h, pieces_nil, if_neg, List.append_nil]
  intro hs
  obtain ⟨ts, c, rfl⟩ := List.eq_nil_or_concat token |>.resolve_left h.nonempty
  have hc : slash ≠ c := by
    rintro rfl
    exact h.noDelim (by simp)
  obtain ⟨ds, -, ⟨rfl, -⟩ | rfl⟩ := h.split
  · have hone : [slash] <:+ [slash, slash] := List.suffix_cons slash [slash]
    have := List.suffix_of_suffix_length_le (hone.trans hs) ⟨ds ++ ts, by simp⟩
      (le_refl ([c] : List UInt8).length)
    exact hc (List.cons.inj (this.eq_of_length rfl)).1
  · have := List.suffix_of_suffix_length_le hs ⟨ds ++ ts, by simp⟩
      (le_refl ([c, slash] : List UInt8).length)
    exact hc (List.cons.inj (this.eq_of_length rfl)).1

/-- Bytes behind the token's slash make it one of the components before the last. -/
theorem tokens_more {r token r' : List UInt8} (h : Token slash r token r') (hr : r' ≠ []) :
    ∃ names, tokens r = token :: names ∧ names ≠ []
      ∧ (names = tokens r' ∨ names = [dot] ∧ tokens r' = []) := by
  have hend : [slash, slash] <:+ r ↔ r' = [slash] ∨ [slash, slash] <:+ r' := by
    obtain ⟨ds, -, ⟨-, rfl⟩ | rfl⟩ := h.split
    · exact absurd rfl hr
    · have hlen : 1 ≤ r'.length := List.length_pos_of_ne_nil hr
      rw [← List.append_assoc]
      refine Iff.trans ⟨fun hs => ?_, fun hs => hs.trans (List.suffix_append _ _)⟩
        (List.suffix_cons_iff.trans (by simp [eq_comm]))
      exact List.suffix_of_suffix_length_le hs (List.suffix_append _ _)
        (by simpa using hlen)
  unfold tokens
  rw [pieces_token h, List.cons_append]
  refine ⟨_, rfl, ?_⟩
  by_cases hs : [slash, slash] <:+ r'
  · rw [if_pos (hend.mpr (.inr hs)), if_pos hs]
    exact ⟨by simp, .inl rfl⟩
  · by_cases hone : r' = [slash]
    · rw [if_pos (hend.mpr (.inl hone)), if_neg hs, hone]
      exact ⟨by simp, .inr ⟨rfl, rfl⟩⟩
    · rw [if_neg fun he => (hend.mp he).elim hone hs, if_neg hs, List.append_nil]
      refine ⟨fun hnil => ?_, .inl rfl⟩
      -- Two slashes or more would end in two.
      have hall := pieces_eq_nil_iff.mp hnil
      obtain ⟨k, rfl⟩ : ∃ k, r' = List.replicate k slash :=
        ⟨_, List.eq_replicate_of_mem hall⟩
      match k, hr, hs, hone with
      | 0, hr, _, _ => exact hr rfl
      | 1, _, _, hone => exact hone rfl
      | k + 2, _, hs, _ =>
        refine hs ⟨List.replicate k slash, ?_⟩
        rw [← List.replicate_append_replicate]
        rfl

/-! ## The loop -/

theorem lookup_eq (fs : Ramfs) (d : ℕ) (name : List UInt8) :
    fs.lookup d name = index (fs.childNamed d name) := by
  have hfind : (List.range maxFiles).find? (fun i =>
        (fs.files i).isUsed && (fs.files i).parentIdx == d && (fs.files i).name == name)
      = fs.childNamed d name := by
    refine List.find?_congr fun i hi => ?_
    rw [Bool.eq_iff_iff]
    simp [Child, Used, List.mem_range.mp hi]
  unfold lookup
  rw [hfind]
  rcases fs.childNamed d name with _ | i <;> rfl

section Loop

variable {fs : Ramfs} (hI : TreeInv fs)

include hI

/-- One step up from an inode other than the root. -/
theorem TreeInv.up_spec {i : ℕ} (h0 : i ≠ 0) (hu : fs.Used i) :
    (fs.files i).parentIdx = fs.up i ∧ fs.up i < i ∧ fs.IsDir (fs.up i) := by
  obtain ⟨-, -, p, hp, hlt, hdir⟩ := hI.node i h0 hu
  have hup : fs.up i = p := by
    unfold up
    rw [hp]
    rfl
  rw [hup]
  exact ⟨hp, hlt, hdir⟩

theorem childNamed_eq_some {d i : ℕ} {name : List UInt8} :
    fs.childNamed d name = some i ↔ fs.Child d i ∧ (fs.files i).name = name := by
  unfold childNamed
  refine ⟨fun h => by simpa using List.find?_some h, fun ⟨hc, hn⟩ => ?_⟩
  rcases hf : (List.range maxFiles).find? (fun i => fs.Child d i ∧ (fs.files i).name = name)
    with _ | k
  · have := List.find?_eq_none.mp hf i (List.mem_range.mpr hc.1.1)
    simp [hc, hn] at this
  · have hk : fs.Child d k ∧ (fs.files k).name = name := by simpa using List.find?_some hf
    rw [hI.unique k i hk.1.1 hc.1 (hk.1.2.trans hc.2.symm) (hk.2.trans hn.symm)]

omit hI in
theorem enter_of_dir {d e : ℕ} {name : List UInt8} (h : fs.follow d name = some e)
    (he : fs.IsDir e) : fs.enter d name = some e := by
  unfold enter
  rw [h, Option.filter_some, if_pos (decide_eq_true he)]

/-- The test `resolve_path` makes before it enters a directory. -/
theorem enter_cases (d : ℕ) {name : List UInt8} (hdot : name ≠ dot) (hdd : name ≠ dotDot) :
    (fs.enter d name = none ∧ (index (fs.childNamed d name) = -1
        ∨ (fs.node (index (fs.childNamed d name))).type ≠ .dir))
      ∨ ∃ e, fs.enter d name = some e ∧ fs.IsDir e ∧ fs.childNamed d name = some e := by
  unfold enter follow
  rw [if_neg hdot, if_neg hdd]
  rcases hc : fs.childNamed d name with _ | i
  · exact .inl ⟨rfl, .inl rfl⟩
  · by_cases he : fs.IsDir i
    · exact .inr ⟨i, by rw [Option.filter_some, if_pos (decide_eq_true he)], he, rfl⟩
    · have hused := ((childNamed_eq_some hI).mp hc).1.1
      refine .inl ⟨by rw [Option.filter_some, if_neg (by simpa using he)], .inr fun ht => ?_⟩
      exact he ⟨hused, ht⟩

/-- What `resolve_path` does at a `..`. -/
theorem TreeInv.dotDot_spec {d : ℕ} (hd : fs.IsDir d) :
    ∃ e : ℕ, fs.follow d dotDot = some e ∧ fs.IsDir e
      ∧ (if (fs.node d).parentIdx ≠ -1 then (fs.node d).parentIdx else (d : ℤ)) = e := by
  have hnode : fs.node (d : ℤ) = fs.files d := rfl
  have hne : dotDot ≠ dot := by decide
  unfold follow
  rw [if_neg hne, if_pos rfl, hnode]
  by_cases h0 : d = 0
  · subst h0
    exact ⟨0, rfl, hd, by simp [hI.root.2]⟩
  · obtain ⟨hp, -, hdir⟩ := hI.up_spec h0 hd.1
    refine ⟨fs.up d, by rw [if_neg h0], hdir, ?_⟩
    rw [hp, if_pos (by omega)]

theorem resolveLoop_eq (w : Bool) : ∀ (fuel : ℕ) (pre : List UInt8) {r : List UInt8} {d : ℕ},
    (0 : UInt8) ∉ r → r.length < fuel → fs.IsDir d →
      resolveLoop fs w fuel (pre ++ (r ++ [0])) pre.length d = fs.resolved w d (tokens r)
  | 0, _, _, _, _, h, _ => by omega
  | fuel + 1, pre, r, d, hr, hfuel, hd => by
    unfold resolveLoop
    rcases strtokR_cases pre.length (by decide : slash ≠ 0) hr
      with ⟨hall, q, hs⟩ | ⟨pos, pre', token, r', hs, htok, ht⟩
    · rw [hs]
      unfold tokens
      rw [pieces_of_forall hall, List.nil_append]
      split_ifs
      · exact (resolved_dot fs w d).symm
      · rfl
    · have hr' : (0 : UInt8) ∉ r' := fun h0 => hr (ht.suffix.subset h0)
      have ih : ∀ {e : ℕ}, fs.IsDir e → resolveLoop fs w fuel (pre' ++ (r' ++ [0])) pre'.length e
          = fs.resolved w e (tokens r') := by
        have := ht.length_lt
        exact fun {e} he => resolveLoop_eq w fuel pre' hr' (by omega) he
      obtain ⟨up, hup, hupd, hupe⟩ := hI.dotDot_spec hd
      rw [hs]
      simp only [htok, if_neg ht.nonempty, lookup_eq, hupe]
      by_cases hlast : r' = []
      · subst hlast
        have hend : (pre' ++ ([] ++ [0])).getD pre'.length 0 = (0 : UInt8) := by
          rw [getD_append_length]
          rfl
        rw [tokens_last ht, hend]
        by_cases hdot : token = dot
        · subst hdot
          rw [if_pos rfl, ih hd]
          exact (resolved_dot fs w d).symm
        by_cases hdd : token = dotDot
        · subst hdd
          rw [if_neg hdot, if_pos rfl, ih hupd]
          simp [resolved, walkDirs, hup, index, tokens]
        rw [if_neg hdot, if_neg hdd]
        simp [resolved, walkDirs, follow, hdot, hdd]
      · obtain ⟨names, hnames, hne, hsame⟩ := tokens_more ht hlast
        have hrest : ∀ {e : ℕ}, fs.IsDir e →
            resolveLoop fs w fuel (pre' ++ (r' ++ [0])) pre'.length e = fs.resolved w e names := by
          intro e he
          rw [ih he]
          rcases hsame with rfl | ⟨rfl, hnil⟩
          · rfl
          · rw [hnil, resolved_dot]
        have hmore : (pre' ++ (r' ++ [0])).getD pre'.length 0 ≠ (0 : UInt8) := by
          obtain ⟨c, cs, rfl⟩ := List.exists_cons_of_ne_nil hlast
          rw [getD_append_length]
          rintro (rfl : c = 0)
          exact hr' List.mem_cons_self
        rw [hnames, resolved_cons fs w d token hne]
        by_cases hdot : token = dot
        · subst hdot
          rw [if_pos rfl, hrest hd, enter_of_dir (by simp [follow]) hd]
        by_cases hdd : token = dotDot
        · subst hdd
          rw [if_neg hdot, if_pos rfl, hrest hupd, enter_of_dir hup hupd]
        rw [if_neg hdot, if_neg hdd, if_pos hmore]
        rcases enter_cases hI d hdot hdd with ⟨hent, hno⟩ | ⟨e, hent, he, hfound⟩
        · rw [hent, if_pos hno]
        · have htype : (fs.node (e : ℤ)).type = .dir := he.2
          rw [hent, hfound, index, if_neg (by simp [htype]), hrest he]

/-- Where `resolve_path` starts. -/
def startDir (cwd : ℕ) (path : List UInt8) : ℕ := if path.head? = some slash then 0 else cwd

/-- The path behind an optional leading slash. -/
def relPath (path : List UInt8) : List UInt8 := if path.head? = some slash then path.tail else path

/-- How much of a path `resolve_path` copies. -/
def copyLen (path : List UInt8) : ℤ := min (toInt32 path.length) 127

omit hI in
theorem pathStart_snd (cwd : ℤ) (path : List UInt8) : (pathStart cwd path).2 = relPath path := by
  unfold pathStart relPath
  split_ifs <;> rfl

omit hI in
theorem pathStart_fst (cwd : ℕ) (path : List UInt8) :
    (pathStart cwd path).1 = startDir cwd path := by
  unfold pathStart startDir
  split_ifs <;> rfl

theorem startDir_isDir {cwd : ℕ} (hd : fs.IsDir cwd) (path : List UInt8) :
    fs.IsDir (startDir cwd path) := by
  unfold startDir
  split_ifs
  · exact hI.root.1
  · exact hd

theorem resolvePath_eq {cwd : ℤ} {path : List UInt8} {d : ℕ} (hstart : (pathStart cwd path).1 = d)
    (hd : fs.IsDir d) (w : Bool) (hnul : (0 : UInt8) ∉ path) (rest : List UInt8) :
    fs.resolvePath cwd w (some (path ++ 0 :: rest))
      = if copyLen (relPath path) < 0 then none
        else fs.resolved w d (tokens ((relPath path).take (copyLen (relPath path)).toNat)) := by
  have hcstr : cstr (path ++ 0 :: rest) 0 = path := cstr_append [] rest hnul
  have hsuf : relPath path <:+ path := by
    unfold relPath
    split_ifs
    · exact List.tail_suffix path
    · exact List.suffix_rfl
  unfold resolvePath
  dsimp only
  rw [hcstr, pathStart_snd, hstart]
  refine if_congr Iff.rfl rfl ?_
  refine resolveLoop_eq hI w _ [] ?_ (by simp) hd
  exact fun h0 => hnul (hsuf.subset (List.mem_of_mem_take h0))

/-- A path that fits is copied whole. -/
theorem resolvePath_short {cwd : ℤ} {path : List UInt8} {d : ℕ}
    (hstart : (pathStart cwd path).1 = d) (hd : fs.IsDir d) (w : Bool)
    (hnul : (0 : UInt8) ∉ path) (hlen : (relPath path).length ≤ 127)
    (hend : (relPath path).getLast? ≠ some slash) (rest : List UInt8) :
    fs.resolvePath cwd w (some (path ++ 0 :: rest))
      = fs.resolved w d (pieces slash (relPath path)) := by
  have hcopy : copyLen (relPath path) = (relPath path).length := by
    unfold copyLen
    rw [toInt32_of_lt (by omega)]
    omega
  rw [resolvePath_eq hI hstart hd w hnul, hcopy, if_neg (by omega), Int.toNat_natCast,
    List.take_length, tokens_eq_pieces hend]

end Loop

/-- `resolve_path` came out as the walk along the components. -/
structure WalkedTo (fs : Ramfs) (d : ℕ) (names : List (List UInt8)) (r : Resolved) : Prop where
  inode : r.inode = index (fs.walk d names)
  parent : ∀ ds name e, names = ds ++ [name] → name ≠ dot → name ≠ dotDot →
    fs.walkDirs d ds = some e → r.parentOut = some (e : ℤ) ∧ r.nameOut = some name
  untouched : ∀ ds name, names = ds ++ [name] → fs.walkDirs d ds = none →
    r.parentOut = none ∧ r.nameOut = none

theorem resolved_walkedTo (fs : Ramfs) {w : Bool} (d : ℕ) {names : List (List UInt8)}
    (hshort : w = true → ∀ name ∈ names, name.length ≤ 31) :
    ∃ r, fs.resolved w d names = some r ∧ WalkedTo fs d names r := by
  rcases List.eq_nil_or_concat names with rfl | ⟨ds, name, rfl⟩
  · exact ⟨_, rfl, rfl, fun ds => by simp, fun ds => by simp⟩
  · have hlast : ∀ ds' name', ds ++ [name] = ds' ++ [name'] → ds' = ds ∧ name' = name := by
      intro ds' name' he
      exact ⟨(List.append_inj_left' he rfl).symm,
        by simpa using (List.append_inj_right' he rfl).symm⟩
    have hfits : ¬ (w ∧ name.length ≥ 32) := by
      rintro ⟨hw, hlong⟩
      have := hshort hw name (by simp)
      omega
    rw [List.concat_eq_append, resolved_concat]
    rcases hw : fs.walkDirs d ds with _ | e
    · refine ⟨_, rfl, ?_, fun ds' name' e he _ _ hw' => ?_, fun _ _ _ _ => ⟨rfl, rfl⟩⟩
      · rw [walk_concat, hw]
        rfl
      · rw [(hlast ds' name' he).1, hw] at hw'
        cases hw'
    · have hwalk : fs.walk d (ds ++ [name]) = fs.follow e name := by
        rw [walk_concat, hw]
        rfl
      have hgo : ∀ ds' name', ds ++ [name] = ds' ++ [name'] → fs.walkDirs d ds' ≠ none := by
        intro ds' name' he
        rw [(hlast ds' name' he).1, hw]
        exact Option.some_ne_none e
      dsimp only
      by_cases hdots : name = dot ∨ name = dotDot
      · rw [if_pos hdots]
        refine ⟨_, rfl, congrArg index hwalk.symm, fun ds' name' _ he hdot hdd => ?_,
          fun ds' name' he hw' => absurd hw' (hgo ds' name' he)⟩
        rw [(hlast ds' name' he).2] at hdot hdd
        exact absurd hdots (not_or.mpr ⟨hdot, hdd⟩)
      · rw [if_neg hdots, if_neg hfits]
        refine ⟨_, rfl, congrArg index hwalk.symm, fun ds' name' e' he _ _ hw' => ?_,
          fun ds' name' he hw' => absurd hw' (hgo ds' name' he)⟩
        obtain ⟨rfl, rfl⟩ := hlast ds' name' he
        rw [hw] at hw'
        obtain rfl := Option.some.inj hw'
        exact ⟨rfl, rfl⟩

end Ramfs

namespace Sys

/-- In every reachable state `resolve_path` walks along the components of a path that fits its
buffer. -/
theorem resolvePath_walk (s₀ : Sched) (idle : ℕ) (ops : List (ℕ × SysOp)) {s₁ : Sched}
    {s : Sys} (hinit : s₀.procInit idle = some s₁) (h : Run.run step (start s₁) ops = some s)
    {p : ℕ} (hp : p ∈ s.procList) {path : List UInt8} (hnul : (0 : UInt8) ∉ path)
    (hlen : (Ramfs.relPath path).length ≤ 127)
    (hshort : ∀ name ∈ pieces slash (Ramfs.relPath path), name.length ≤ 31)
    (hend : (Ramfs.relPath path).getLast? ≠ some slash) (w : Bool) (rest : List UInt8) :
    ∃ (cwd : ℕ) (r : Ramfs.Resolved), (s.pcb p).cwdInode = cwd ∧ s.fs.IsDir cwd
      ∧ s.fs.resolvePath (s.pcb p).cwdInode w (some (path ++ 0 :: rest)) = some r
      ∧ Ramfs.WalkedTo s.fs (Ramfs.startDir cwd path) (pieces slash (Ramfs.relPath path)) r := by
  have hI : SysInv s := Run.run_invariant step_inv (start_inv hinit) h
  obtain ⟨cwd, hcwd, hdir⟩ := hI.cwds p hp
  obtain ⟨r, hr, hwalk⟩ :=
    Ramfs.resolved_walkedTo s.fs (Ramfs.startDir cwd path) fun _ : w = true => hshort
  refine ⟨cwd, r, hcwd, hdir, ?_, hwalk⟩
  rw [hcwd, Ramfs.resolvePath_short hI.fsOk.toTreeInv (Ramfs.pathStart_fst cwd path)
    (Ramfs.startDir_isDir hI.fsOk.toTreeInv hdir path) w hnul hlen hend, hr]

/-- A process in a directory of its own. -/
def deepOps : List (ℕ × SysOp) :=
  [(1, .createUserProcess [] (ProcSys.attemptAt 2)), (2, .call (.mkdir (some (ascii "/usr/x")))),
    (2, .call (.chdir (some (ascii "usr//x"))))]

theorem resolvePath_walk_deepOps :
    ∃ s₁ s, Sched.boot.procInit 1 = some s₁ ∧ Run.run step (start s₁) deepOps = some s
      ∧ s.fs.resolvePath 7 true (some (ascii "..//./x/../y" ++ [0]))
        = some ⟨-1, some 2, some (ascii "y")⟩ := by
  have hpieces : pieces slash (Ramfs.relPath (ascii "..//./x/../y"))
      = [dotDot, dot, ascii "x", dotDot] ++ [ascii "y"] := by
    decide
  have hstart : Ramfs.startDir 7 (ascii "..//./x/../y") = 7 := by decide
  have h : ((Sched.boot.procInit 1).bind fun s => Run.run step (start s) deepOps).map
      (fun s => (s.procList, (s.pcb 2).cwdInode, s.fs.follow 2 (ascii "y"),
        s.fs.walkDirs 7 [dotDot, dot, ascii "x", dotDot]))
        = some ([2, 1], 7, none, some 2) := by
    decide +kernel
  obtain ⟨s₁, s, h₁, hr, he⟩ := Run.exists_of_eval h
  simp only [Prod.mk.injEq] at he
  obtain ⟨hl, hc, hnone, hdirs⟩ := he
  obtain ⟨cwd, r, hcwd, -, hres, hinode, hparent, -⟩ := resolvePath_walk Sched.boot 1 deepOps
    h₁ hr (by simp [hl] : 2 ∈ s.procList) (by decide : (0 : UInt8) ∉ ascii "..//./x/../y")
    (by decide) (by decide) (by decide) true []
  obtain rfl : cwd = 7 := by omega
  rw [hpieces, hstart] at hinode hparent
  obtain ⟨hp, hn⟩ := hparent _ _ 2 rfl (by decide) (by decide) hdirs
  have hi : r.inode = -1 := by
    rw [hinode, Ramfs.walk_concat, hdirs, Option.bind_some, hnone]
    rfl
  have hp2 : r.parentOut = some 2 := hp
  refine ⟨s₁, s, h₁, hr, ?_⟩
  rw [← hc, hres, ← hi, ← hp2, ← hn]

end Sys

end SudoOS
