import SudoOS.Proofs.LongPath

/-!
# Trailing slashes

`resolve_path` takes a component for the last one when nothing is left behind the slash that ended
it. One slash at the end of a path leaves nothing, and any more of them leave a slash, so the
component has to be a directory and its name is not handed over (`alike_iff`).
-/

namespace SudoOS

open Pieces

namespace Ramfs

/-- Both results name the same inode, or the same place for a missing one. -/
structure SameTarget (r r' : Resolved) : Prop where
  inode : r.inode = r'.inode
  missing : r.inode = -1 → r.parentOut = r'.parentOut ∧ r.nameOut = r'.nameOut

/-- The paths in `buf` and `buf'` are treated alike. -/
structure Alike (fs : Ramfs) (cur : Pcb) (buf buf' : List UInt8) : Prop where
  target : ∀ w, ∃ r r', fs.resolvePath cur.cwdInode w (some buf) = some r
    ∧ fs.resolvePath cur.cwdInode w (some buf') = some r' ∧ SameTarget r r'
  opened : ∀ flags mem,
    fs.ramfsOpen cur (some buf) flags mem = fs.ramfsOpen cur (some buf') flags mem
  made : fs.ramfsMkdir cur (some buf) = fs.ramfsMkdir cur (some buf')

/-- The components lead to a directory, or those before the last one do not. -/
def DirEnd (fs : Ramfs) (d : ℕ) (names : List (List UInt8)) : Prop :=
  fs.walkDirs d names ≠ none ∨ fs.walkDirs d names.dropLast = none

/-! ## What the callers make of a result -/

theorem SameTarget.createInode {r r' : Resolved} (h : SameTarget r r') (hi : r.inode = -1)
    (fs : Ramfs) (type : RamfsType) (content : Option (List UInt8)) :
    fs.createInode r type content = fs.createInode r' type content := by
  obtain ⟨hp, hn⟩ := h.missing hi
  unfold Ramfs.createInode
  rw [hp, hn]

theorem SameTarget.openInode {r r' : Resolved} (h : SameTarget r r') (fs : Ramfs)
    (flags : BitVec 32) :
    fs.openInode r flags = fs.openInode r' flags := by
  unfold Ramfs.openInode
  by_cases hi : r.inode = -1
  · rw [h.createInode hi, h.inode]
  · rw [← h.inode, if_pos hi, if_pos hi]

theorem alike_of_target {fs : Ramfs} {cur : Pcb} {buf buf' : List UInt8}
    (h : ∀ w, ∃ r r', fs.resolvePath cur.cwdInode w (some buf) = some r
      ∧ fs.resolvePath cur.cwdInode w (some buf') = some r' ∧ SameTarget r r') :
    Alike fs cur buf buf' := by
  obtain ⟨r, r', hr, hr', hsame⟩ := h true
  refine ⟨h, fun flags mem => ?_, ?_⟩
  · unfold ramfsOpen
    rw [hr, hr', Option.bind_some, Option.bind_some, hsame.openInode, hsame.inode]
  · unfold ramfsMkdir
    rw [hr, hr', Option.map_some, Option.map_some]
    by_cases hi : r.inode = -1
    · rw [hsame.createInode hi, hsame.inode]
    · rw [← hsame.inode, if_pos hi, if_pos hi]

/-! ## What is left of the slashes -/

theorem tokens_slash {r : List UInt8} (hr : r.getLast? ≠ some slash) :
    tokens (r ++ [slash]) = pieces slash r := by
  unfold tokens
  rw [pieces_append, pieces_nil, List.append_nil, if_neg, List.append_nil]
  rintro ⟨xs, hx⟩
  have : xs ++ [slash] = r := by simpa using (List.append_inj_left' (by simpa using hx) rfl)
  exact hr (by simp [← this])

theorem tokens_slashes (r : List UInt8) {k : ℕ} (hk : 2 ≤ k) :
    tokens (r ++ List.replicate k slash) = pieces slash r ++ [dot] := by
  obtain ⟨k, rfl⟩ := Nat.exists_eq_add_of_le hk
  have hall : pieces slash (List.replicate (1 + k) slash) = [] :=
    pieces_of_forall fun c hc => List.eq_of_mem_replicate hc
  have hsuffix : [slash, slash] <:+ r ++ List.replicate (2 + k) slash :=
    ⟨r ++ List.replicate k slash, by
      rw [List.append_assoc, Nat.add_comm, ← List.replicate_append_replicate]
      rfl⟩
  unfold tokens
  rw [if_pos hsuffix, show 2 + k = 1 + k + 1 by omega, List.replicate_succ, pieces_append, hall,
    List.append_nil]

theorem relPath_append {path : List UInt8} (hne : path ≠ []) (rest : List UInt8) :
    relPath (path ++ rest) = relPath path ++ rest := by
  obtain ⟨c, path, rfl⟩ := List.exists_cons_of_ne_nil hne
  have hhead : (c :: path ++ rest).head? = (c :: path).head? := rfl
  unfold relPath
  rw [hhead]
  by_cases hc : (c :: path).head? = some slash
  · rw [if_pos hc, if_pos hc]
    rfl
  · rw [if_neg hc, if_neg hc]

theorem startDir_append (cwd : ℕ) {path : List UInt8} (hne : path ≠ []) (rest : List UInt8) :
    startDir cwd (path ++ rest) = startDir cwd path := by
  obtain ⟨c, path, rfl⟩ := List.exists_cons_of_ne_nil hne
  rfl

theorem relPath_end {path : List UInt8} (hend : path.getLast? ≠ some slash) :
    (relPath path).getLast? ≠ some slash := by
  rcases path with _ | ⟨c, path⟩
  · exact hend
  unfold relPath
  split_ifs
  · intro h
    rw [List.tail_cons] at h
    exact hend (by rw [List.getLast?_cons, h, Option.getD_some])
  · exact hend

theorem length_relPath_le (path : List UInt8) : (relPath path).length ≤ path.length := by
  unfold relPath
  split_ifs <;> simp

theorem copyLen_of_lt {r : List UInt8} (h : r.length < 2 ^ 31) :
    copyLen r = min (r.length : ℤ) 127 := by
  unfold copyLen
  rw [toInt32_of_lt h]

/-- The slashes that the copy keeps. -/
theorem heard_append {path : List UInt8} (hne : path ≠ []) (hlen : path.length ≤ 120) {k : ℕ}
    (hk : path.length + k < 2 ^ 31) :
    heard (path ++ List.replicate k slash)
      = tokens (relPath path ++ List.replicate (min k (127 - (relPath path).length)) slash) := by
  have hle := length_relPath_le path
  have hcopy : (copyLen (relPath path ++ List.replicate k slash)).toNat
      = min ((relPath path).length + k) 127 := by
    rw [copyLen_of_lt (by simp; omega), List.length_append, List.length_replicate]
    omega
  unfold heard
  rw [relPath_append hne, hcopy, List.take_append, List.take_of_length_le (by omega),
    List.take_replicate]
  congr 3
  omega

theorem heard_slash {path : List UInt8} (hne : path ≠ []) (hlen : path.length ≤ 120)
    (hend : path.getLast? ≠ some slash) :
    heard (path ++ [slash]) = pieces slash (relPath path) := by
  have hle := length_relPath_le path
  have hmin : min 1 (127 - (relPath path).length) = 1 := by omega
  rw [← tokens_slash (relPath_end hend)]
  have := heard_append hne hlen (k := 1) (by omega)
  rwa [hmin] at this

theorem heard_slashes {path : List UInt8} (hne : path ≠ []) (hlen : path.length ≤ 120) {k : ℕ}
    (hk : 2 ≤ k) (hfit : path.length + k < 2 ^ 31) :
    heard (path ++ List.replicate k slash) = pieces slash (relPath path) ++ [dot] := by
  have hle := length_relPath_le path
  rw [heard_append hne hlen hfit, tokens_slashes _ (by omega)]

/-- Slashes alone are the root. -/
theorem resolved_only_slashes (fs : Ramfs) (w : Bool) (d k : ℕ) :
    fs.resolved w d (heard (List.replicate k slash)) = fs.resolved w d [] := by
  have hrel : relPath (List.replicate k slash) = List.replicate (k - 1) slash := by
    rcases k with _ | k
    · rfl
    · simp [relPath, List.replicate_succ]
  have hall : ∀ n, pieces slash (List.replicate n slash) = [] :=
    fun n => pieces_of_forall fun c hc => List.eq_of_mem_replicate hc
  unfold heard tokens
  rw [hrel, List.take_replicate, hall, List.nil_append]
  split_ifs
  · exact resolved_dot fs w d
  · rfl

/-! ## Both results -/

section Results

variable {fs : Ramfs} (hI : FsOk fs) {d : ℕ} {names : List (List UInt8)}

theorem walkDirs_concat (fs : Ramfs) : ∀ (d : ℕ) (names : List (List UInt8)) (name : List UInt8),
    fs.walkDirs d (names ++ [name]) = (fs.walkDirs d names).bind fun e => fs.enter e name
  | d, [], name => by simp [walkDirs]
  | d, c :: cs, name => by
    rw [List.cons_append, walkDirs, walkDirs, Option.bind_assoc]
    exact congrArg _ (funext fun e => walkDirs_concat fs e cs name)

/-- With a `.` behind them all components are directories. -/
theorem resolved_append_dot (fs : Ramfs) (w : Bool) (d : ℕ) (names : List (List UInt8)) :
    fs.resolved w d (names ++ [dot]) = some (match fs.walkDirs d names with
      | none => ⟨-1, none, none⟩
      | some e => ⟨e, some (fs.node e).parentIdx, none⟩) := by
  rw [resolved_concat]
  rcases fs.walkDirs d names with _ | e
  · rfl
  · simp [follow, index]

theorem walk_of_walkDirs {e : ℕ} (h : fs.walkDirs d names = some e) : fs.walk d names = some e := by
  rcases List.eq_nil_or_concat names with rfl | ⟨ds, name, rfl⟩
  · exact h
  · rw [List.concat_eq_append, walkDirs_concat] at h
    obtain ⟨p, hp, he⟩ := Option.bind_eq_some_iff.mp h
    rw [List.concat_eq_append, walk_concat, hp]
    exact (Option.filter_eq_some_iff.mp he).1

include hI

theorem sameTarget_of_dirEnd (h : DirEnd fs d names) (w : Bool) :
    ∃ r r', fs.resolved w d names = some r ∧ fs.resolved w d (names ++ [dot]) = some r'
      ∧ SameTarget r r' := by
  rw [resolved_append_dot]
  rcases hdirs : fs.walkDirs d names with _ | e
  · have hstop := h.resolve_left (not_not.mpr hdirs)
    rcases List.eq_nil_or_concat names with rfl | ⟨ds, name, rfl⟩
    · cases hdirs
    · rw [List.concat_eq_append] at hstop ⊢
      rw [List.dropLast_concat] at hstop
      exact ⟨_, _, resolved_stopped w name hstop, rfl, rfl, fun _ => ⟨rfl, rfl⟩⟩
  · obtain ⟨r, hr, hi⟩ := resolved_found hI w (walk_of_walkDirs hdirs)
    exact ⟨r, _, hr, rfl, hi, fun hm => by omega⟩

theorem dirEnd_of_sameTarget {r r' : Resolved} (hr : fs.resolved true d names = some r)
    (hr' : fs.resolved true d (names ++ [dot]) = some r') (h : SameTarget r r') :
    DirEnd fs d names := by
  by_contra hno
  unfold DirEnd at hno
  simp only [not_or, not_not] at hno
  obtain ⟨hnone, hdirs⟩ := hno
  rw [resolved_append_dot, hnone] at hr'
  obtain rfl := Option.some.inj hr'
  rcases walk_cases fs d names with ⟨i, hi⟩ | ⟨ds, name, rfl, hstop⟩ | ⟨ds, name, e, rfl, he, hmiss⟩
  · -- A file is found in one way only.
    obtain ⟨s, hs, hfound⟩ := resolved_found hI true hi
    obtain rfl := Option.some.inj (hr.symm.trans hs)
    have hnone : r.inode = -1 := h.inode
    omega
  · rw [List.dropLast_concat] at hdirs
    exact hdirs hstop
  · rw [resolved_missing true he hmiss] at hr
    split_ifs at hr
    obtain rfl := Option.some.inj hr
    exact Option.some_ne_none _ (h.missing rfl).1

end Results

section Paths

variable {fs : Ramfs} (hI : FsOk fs) {cur : Pcb} {cwd : ℕ} (hcwd : cur.cwdInode = cwd)
  (hdir : fs.IsDir cwd) {path : List UInt8} (hnul : (0 : UInt8) ∉ path)

include hI hcwd hdir hnul

theorem resolvePath_append {k : ℕ} (hfit : path.length + k < 2 ^ 31) (w : Bool)
    (rest : List UInt8) :
    fs.resolvePath cur.cwdInode w (some (path ++ List.replicate k slash ++ 0 :: rest))
      = fs.resolved w (startDir cwd (path ++ List.replicate k slash))
        (heard (path ++ List.replicate k slash)) := by
  have hno : (0 : UInt8) ∉ path ++ List.replicate k slash := by
    simp only [List.mem_append, List.mem_replicate, not_or]
    exact ⟨hnul, fun h => absurd h.2 (by decide)⟩
  have hle := length_relPath_le (path ++ List.replicate k slash)
  rw [List.length_append, List.length_replicate] at hle
  rw [resolvePath_eq hI.toTreeInv (hcwd ▸ pathStart_fst cwd _)
    (startDir_isDir hI.toTreeInv hdir _) w hno, copyLen_of_lt (by omega), if_neg (by omega),
    ← copyLen_of_lt (by omega)]
  rfl

theorem alike_iff (hlen : path.length ≤ 120) (hend : path.getLast? ≠ some slash) {k : ℕ}
    (hk : 2 ≤ k) (hfit : path.length + k < 2 ^ 31) (rest rest' : List UInt8) :
    Alike fs cur (path ++ [slash] ++ 0 :: rest) (path ++ List.replicate k slash ++ 0 :: rest')
      ↔ DirEnd fs (startDir cwd path) (pieces slash (relPath path)) := by
  have hone := fun w => resolvePath_append hI hcwd hdir hnul (k := 1) (by omega) w rest
  have hmany := fun w => resolvePath_append hI hcwd hdir hnul hfit w rest'
  by_cases hne : path = []
  · -- The root, however many slashes there are.
    obtain rfl := hne
    have hstart : startDir cwd (List.replicate k slash) = 0 := by
      obtain ⟨k, rfl⟩ := Nat.exists_eq_add_of_le' hk
      rfl
    simp only [List.nil_append, resolved_only_slashes] at hone hmany
    rw [hstart] at hmany
    refine ⟨fun _ => .inl (Option.some_ne_none _), fun _ => alike_of_target fun w => ?_⟩
    exact ⟨_, _, hone w, hmany w, rfl, fun _ => ⟨rfl, rfl⟩⟩
  · rw [startDir_append cwd hne, heard_slashes hne hlen hk hfit] at hmany
    simp only [startDir_append cwd hne, List.replicate_one, heard_slash hne hlen hend] at hone
    refine ⟨fun h => ?_, fun h => alike_of_target fun w => ?_⟩
    · obtain ⟨r, r', hr, hr', hsame⟩ := h.target true
      exact dirEnd_of_sameTarget hI ((hone true).symm.trans hr) ((hmany true).symm.trans hr') hsame
    · obtain ⟨r, r', hr, hr', hsame⟩ := sameTarget_of_dirEnd hI h w
      exact ⟨r, r', (hone w).trans hr, (hmany w).trans hr', hsame⟩

end Paths

end Ramfs

namespace Sys

/-- In every reachable state a path with one slash behind it and the same path with more of them are
treated alike if and only if the path leads to a directory or does not get to its last component. -/
theorem trailing_slashes (s₀ : Sched) (idle : ℕ) (ops : List (ℕ × SysOp)) {s₁ : Sched}
    {s : Sys} (hinit : s₀.procInit idle = some s₁) (h : Run.run step (start s₁) ops = some s)
    {p : ℕ} (hp : p ∈ s.procList) {path : List UInt8} (hnul : (0 : UInt8) ∉ path)
    (hlen : path.length ≤ 120) (hend : path.getLast? ≠ some slash) {k : ℕ} (hk : 2 ≤ k)
    (hfit : path.length + k < 2 ^ 31) (rest rest' : List UInt8) :
    ∃ cwd : ℕ, (s.pcb p).cwdInode = cwd ∧ s.fs.IsDir cwd
      ∧ (Ramfs.Alike s.fs (s.pcb p) (path ++ [slash] ++ 0 :: rest)
          (path ++ List.replicate k slash ++ 0 :: rest')
        ↔ s.fs.DirEnd (Ramfs.startDir cwd path) (pieces slash (Ramfs.relPath path))) := by
  have hI : SysInv s := Run.run_invariant step_inv (start_inv hinit) h
  obtain ⟨cwd, hcwd, hdir⟩ := hI.cwds p hp
  exact ⟨cwd, hcwd, hdir, Ramfs.alike_iff hI.fsOk hcwd hdir hnul hlen hend hk hfit rest rest'⟩

theorem trailing_slashes_deepOps :
    ∃ s₁ s, Sched.boot.procInit 1 = some s₁ ∧ Run.run step (start s₁) deepOps = some s
      ∧ Ramfs.Alike s.fs (s.pcb 2) (ascii "../x" ++ [slash] ++ [0])
        (ascii "../x" ++ List.replicate 3 slash ++ [0]) := by
  have h : ((Sched.boot.procInit 1).bind fun s => Run.run step (start s) deepOps).map
      (fun s => decide (2 ∈ s.procList ∧ (s.pcb 2).cwdInode = 7
        ∧ s.fs.walkDirs 7 [dotDot, ascii "x"] = some 7)) = some true := by
    decide +kernel
  obtain ⟨s₁, s, h₁, hr, he⟩ := Run.exists_of_eval h
  obtain ⟨hp, hc, hdirs⟩ := of_decide_eq_true he
  have hpieces : pieces slash (Ramfs.relPath (ascii "../x")) = [dotDot, ascii "x"] := by decide
  obtain ⟨cwd, hcwd, -, halike⟩ := trailing_slashes Sched.boot 1 deepOps h₁ hr hp
    (by decide : (0 : UInt8) ∉ ascii "../x") (by decide) (by decide) (by decide : 2 ≤ 3) (by decide)
    [] []
  obtain rfl : cwd = 7 := by omega
  have hstart : Ramfs.startDir 7 (ascii "../x") = 7 := by decide
  refine ⟨s₁, s, h₁, hr, halike.mpr (.inl ?_)⟩
  rw [hpieces, hstart, hdirs]
  exact Option.some_ne_none 7

/-- A file is found behind one slash and not behind two, and a new directory is made in the one case
only. -/
theorem trailing_slashes_differ :
    ∃ s₁ s, Sched.boot.procInit 1 = some s₁ ∧ Run.run step (start s₁) deepOps = some s
      ∧ 2 ∈ s.procList
      ∧ (∃ r r', s.fs.resolvePath 7 true (some (ascii "/init/" ++ [0])) = some r
        ∧ s.fs.resolvePath 7 true (some (ascii "/init//" ++ [0])) = some r'
        ∧ r.inode = 1 ∧ r'.inode = -1)
      ∧ (∃ fs', s.fs.ramfsMkdir (s.pcb 2) (some (ascii "y/" ++ [0])) = some (0, fs'))
      ∧ (∃ fs', s.fs.ramfsMkdir (s.pcb 2) (some (ascii "y//" ++ [0])) = some (-1, fs'))
      ∧ ¬ Ramfs.Alike s.fs (s.pcb 2) (ascii "/init/" ++ [0]) (ascii "/init//" ++ [0]) := by
  have h : ((Sched.boot.procInit 1).bind fun s => Run.run step (start s) deepOps).map
      (fun s => decide (2 ∈ s.procList ∧ (s.pcb 2).cwdInode = 7
        ∧ (s.fs.resolvePath 7 true (some (ascii "/init/" ++ [0]))).map (·.inode) = some 1
        ∧ (s.fs.resolvePath 7 true (some (ascii "/init//" ++ [0]))).map (·.inode) = some (-1)
        ∧ (s.fs.ramfsMkdir (s.pcb 2) (some (ascii "y/" ++ [0]))).map Prod.fst = some 0
        ∧ (s.fs.ramfsMkdir (s.pcb 2) (some (ascii "y//" ++ [0]))).map Prod.fst = some (-1)))
        = some true := by
    decide +kernel
  obtain ⟨s₁, s, h₁, hr, he⟩ := Run.exists_of_eval h
  obtain ⟨hp, hc, hone, htwo, hmk, hmk'⟩ := of_decide_eq_true he
  obtain ⟨r, hres, hi⟩ := Option.map_eq_some_iff.mp hone
  obtain ⟨r', hres', hi'⟩ := Option.map_eq_some_iff.mp htwo
  obtain ⟨⟨ret, fs'⟩, hm, rfl⟩ := Option.map_eq_some_iff.mp hmk
  obtain ⟨⟨ret', fs''⟩, hm', rfl⟩ := Option.map_eq_some_iff.mp hmk'
  refine ⟨s₁, s, h₁, hr, hp, ⟨r, r', hres, hres', hi, hi'⟩, ⟨fs', hm⟩, ⟨fs'', hm'⟩, ?_⟩
  intro halike
  obtain ⟨t, t', ht, ht', hsame⟩ := halike.target true
  rw [hc] at ht ht'
  obtain rfl := Option.some.inj (hres.symm.trans ht)
  obtain rfl := Option.some.inj (hres'.symm.trans ht')
  have hinode := hsame.inode
  omega

end Sys

end SudoOS
