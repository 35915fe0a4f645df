import SudoOS.Proofs.Walk

/-!
# The working directory and its path

`ramfs_getcwd` climbs from the working directory to the root, and the path it writes is the names on
the way down (`ramfsGetcwd_spec`). Walking down these names finds the same inodes again, for
siblings have different names, so changing to that path leads back to the directory from anywhere as
long as `resolve_path` can hold it (`getcwd_chdir`).
-/

namespace SudoOS

open Wire Pieces

namespace Ramfs

/-- The names from the root down to inode `i`. -/
def components (fs : Ramfs) : ℕ → ℕ → List (List UInt8)
  | 0, _ => []
  | fuel + 1, i => if i = 0 then [] else components fs fuel (fs.up i) ++ [(fs.files i).name]

/-- Names, each behind a slash. -/
def joined (names : List (List UInt8)) : List UInt8 := names.flatMap fun name => slash :: name

/-- The absolute path of inode `i`. -/
def absPath (fs : Ramfs) (i : ℕ) : List UInt8 :=
  if i = 0 then [slash] else joined (fs.components maxFiles i)

theorem joined_append (names : List (List UInt8)) (name : List UInt8) :
    joined (names ++ [name]) = joined names ++ slash :: name := by
  simp [joined]

theorem validIdx_of_used {fs : Ramfs} {i : ℕ} (h : fs.Used i) : validIdx (i : ℤ) = true := by
  have := h.1
  simp only [validIdx, Bool.and_eq_true, decide_eq_true_eq]
  omega

section Climb

variable {fs : Ramfs} (hI : TreeInv fs)

include hI

/-- More fuel than the index changes nothing. -/
theorem components_fuel : ∀ {f g i : ℕ}, fs.Used i → i < f → i < g →
    fs.components f i = fs.components g i
  | 0, _, _, _, hf, _ => by omega
  | _ + 1, 0, _, _, _, hg => by omega
  | f + 1, g + 1, i, hu, hf, hg => by
    unfold components
    split_ifs with h0
    · rfl
    · obtain ⟨-, hlt, hdir⟩ := hI.up_spec h0 hu
      rw [components_fuel hdir.1 (by omega : fs.up i < f) (by omega : fs.up i < g)]

theorem components_succ {i : ℕ} (h0 : i ≠ 0) (hu : fs.Used i) :
    fs.components maxFiles i = fs.components maxFiles (fs.up i) ++ [(fs.files i).name] := by
  obtain ⟨-, hlt, hdir⟩ := hI.up_spec h0 hu
  have hi := hu.1
  have hsucc : maxFiles = maxFiles - 1 + 1 := rfl
  rw [hsucc, components, if_neg h0, ← hsucc,
    components_fuel hI hdir.1 (by omega : fs.up i < maxFiles - 1) (by omega : fs.up i < maxFiles)]

theorem joined_components {i : ℕ} (h0 : i ≠ 0) (hu : fs.Used i) :
    joined (fs.components maxFiles i)
      = joined (fs.components maxFiles (fs.up i)) ++ slash :: (fs.files i).name := by
  rw [components_succ hI h0 hu, joined_append]

/-- The first climb gives the length of the path, unless that is too long. -/
theorem cwdLen_spec (size : ℕ) : ∀ (fuel : ℕ) {i len : ℕ}, fs.Used i → i < fuel →
    fs.cwdLen size fuel i len = some
      (if i ≠ 0 ∧ size ≤ len + (joined (fs.components maxFiles i)).length then none
        else some (len + (joined (fs.components maxFiles i)).length))
  | 0, _, _, _, h => by omega
  | fuel + 1, i, len, hu, h => by
    by_cases h0 : i = 0
    · subst h0
      simp [cwdLen, components, joined, maxFiles]
    · obtain ⟨hp, hlt, hdir⟩ := hI.up_spec h0 hu
      have hnode : fs.node (i : ℤ) = fs.files i := rfl
      have hvalid := validIdx_of_used hu
      have hj := congrArg List.length (joined_components hI h0 hu)
      simp only [List.length_append, List.length_cons] at hj
      unfold cwdLen
      rw [if_neg (by omega : ¬ (i : ℤ) = 0), hvalid]
      simp only [Bool.not_true, Bool.false_eq_true, if_false, hnode, hp]
      rw [if_neg (by omega : ¬ (fs.up i : ℤ) = -1)]
      by_cases hlen : len + (1 + (fs.files i).name.length) ≥ size
      · rw [if_pos hlen, if_pos ⟨h0, by omega⟩]
      · rw [if_neg hlen, cwdLen_spec size fuel hdir.1 (by omega)]
        by_cases hup : fs.up i = 0
        · rw [hup] at hj ⊢
          have hroot : (joined (fs.components maxFiles 0)).length = 0 := by
            simp [components, joined, maxFiles]
          rw [if_neg (by simp), if_neg (by omega)]
          congr 2
          omega
        · simp only [ne_eq, hup, not_false_eq_true, true_and, h0]
          split_ifs with h1 h2 h2
          · rfl
          · omega
          · omega
          · congr 2
            omega

/-- The second climb writes the path in front of where it starts. -/
theorem cwdWrite_spec : ∀ (fuel : ℕ) {i pos : ℕ} (buf : ℕ → UInt8), fs.Used i → i < fuel →
    pos = (joined (fs.components maxFiles i)).length →
      ∃ buf', fs.cwdWrite fuel i pos buf = some buf'
        ∧ At buf' 0 (joined (fs.components maxFiles i)) ∧ ∀ j, pos ≤ j → buf' j = buf j
  | 0, _, _, _, _, h, _ => by omega
  | fuel + 1, i, pos, buf, hu, h, hpos => by
    by_cases h0 : i = 0
    · subst h0
      refine ⟨buf, by simp [cwdWrite], ?_, fun _ _ => rfl⟩
      intro k hk
      simp [components, joined, maxFiles] at hk
    · obtain ⟨hp, hlt, hdir⟩ := hI.up_spec h0 hu
      have hnode : fs.node (i : ℤ) = fs.files i := rfl
      have hvalid := validIdx_of_used hu
      have hj := joined_components hI h0 hu
      have hlen := congrArg List.length hj
      simp only [List.length_append, List.length_cons] at hlen
      have hstart : pos - (fs.files i).name.length - 1
          = (joined (fs.components maxFiles (fs.up i))).length := by omega
      obtain ⟨buf', hw, hat, hout⟩ := cwdWrite_spec fuel
        (store (store buf (pos - (fs.files i).name.length) (fs.files i).name)
          (pos - (fs.files i).name.length - 1) [slash]) hdir.1 (by omega : fs.up i < fuel) hstart
      refine ⟨buf', ?_, ?_, fun j hpj => ?_⟩
      · unfold cwdWrite
        rw [if_neg (by omega : ¬ (i : ℤ) = 0), hvalid]
        simp only [Bool.not_true, Bool.false_eq_true, if_false, hnode, hp]
        rw [if_neg (by omega)]
        exact hw
      · rw [hj]
        refine at_append hat fun k hk => ?_
        rw [hout _ (by omega), Nat.zero_add, ← hstart]
        have hname : At (store (store buf (pos - (fs.files i).name.length) (fs.files i).name)
            (pos - (fs.files i).name.length - 1) [slash])
            (pos - (fs.files i).name.length - 1 + 1) (fs.files i).name := by
          have hadd : pos - (fs.files i).name.length - 1 + 1 = pos - (fs.files i).name.length := by
            omega
          rw [hadd]
          exact (at_store _ _ _).store (by simp only [List.length_singleton]; omega)
        have hall := at_append (at_store (store buf (pos - (fs.files i).name.length)
          (fs.files i).name) (pos - (fs.files i).name.length - 1) [slash]) hname
        exact hall k hk
      · rw [hout j (by omega), store_outside (by simp only [List.length_singleton]; omega),
          store_outside (by omega)]

/-- `ramfs_getcwd` returns `NULL` exactly when the path does not fit, and else writes the path and
its NUL and nothing behind it. -/
theorem ramfsGetcwd_spec {cur : Pcb} {i : ℕ} (hc : cur.cwdInode = i) (hu : fs.Used i)
    (buf : ℕ → UInt8) (size : ℕ) :
    ∃ r, fs.ramfsGetcwd cur (some buf) size = some r
      ∧ (r = none ↔ size < (fs.absPath i).length + 1)
      ∧ ∀ buf' ∈ r, At buf' 0 (fs.absPath i ++ [0])
        ∧ ∀ j, (fs.absPath i).length + 1 ≤ j → buf' j = buf j := by
  have hi := hu.1
  unfold ramfsGetcwd absPath
  rw [hc]
  dsimp only
  by_cases hs : size = 0
  · rw [if_pos hs]
    exact ⟨none, rfl, by simp [hs], by simp⟩
  rw [if_neg hs]
  by_cases h0 : i = 0
  · subst h0
    simp only [Nat.cast_zero, if_true, List.length_singleton]
    split_ifs with h2
    · exact ⟨none, rfl, by simpa using h2, by simp⟩
    · refine ⟨_, rfl, by simpa using h2, fun buf' hb => ?_⟩
      obtain rfl := Option.some.inj hb
      exact ⟨at_store _ _ _, fun j hj => store_outside (.inr (by simpa using hj))⟩
  · rw [if_neg (by omega : ¬ (i : ℤ) = 0), if_neg h0,
      cwdLen_spec hI size (maxFiles + 1) hu (by omega), Option.bind_some, Nat.zero_add]
    split_ifs with hlong
    · exact ⟨none, rfl, by simpa using Nat.lt_succ_of_le hlong.2, by simp⟩
    · have hfit : ¬ size < (joined (fs.components maxFiles i)).length + 1 :=
        fun hlt => hlong ⟨h0, Nat.le_of_lt_succ hlt⟩
      obtain ⟨buf', hw, hat, hout⟩ := cwdWrite_spec hI (maxFiles + 1)
        (store buf (joined (fs.components maxFiles i)).length [0]) hu (by omega) rfl
      dsimp only
      rw [hw]
      refine ⟨_, rfl, by simpa using hfit, fun b hb => ?_⟩
      obtain rfl := Option.some.inj hb
      refine ⟨at_append hat fun k hk => ?_, fun j hj => ?_⟩
      · rw [hout _ (by omega), Nat.zero_add]
        exact at_store buf _ [0] k hk
      · rw [hout _ (by omega), store_outside (by simp only [List.length_singleton]; omega)]

end Climb

/-! ## Walking down -/

/-- From directory `d` the names lead to inode `i`. -/
def Leads (fs : Ramfs) : ℕ → List (List UInt8) → ℕ → Prop
  | d, [], i => d = i
  | d, name :: names, i => ∃ j, j ≠ 0 ∧ fs.Child d j ∧ (fs.files j).name = name ∧ Leads fs j names i

theorem Leads.append {fs : Ramfs} : ∀ {names : List (List UInt8)} {d p i : ℕ}, Leads fs d names p →
    i ≠ 0 → fs.Child p i → Leads fs d (names ++ [(fs.files i).name]) i
  | [], d, p, i, h, h0, hc => by
    obtain rfl : d = p := h
    exact ⟨i, h0, hc, rfl, rfl⟩
  | name :: names, d, p, i, ⟨j, hj0, hj, hn, hl⟩, h0, hc => ⟨j, hj0, hj, hn, hl.append h0 hc⟩

theorem leads_components {fs : Ramfs} (hI : TreeInv fs) : ∀ (n : ℕ) {i : ℕ}, i ≤ n → fs.Used i →
    Leads fs 0 (fs.components maxFiles i) i
  | n, i, hn, hu => by
    by_cases h0 : i = 0
    · subst h0
      simp [components, maxFiles, Leads]
    · obtain ⟨hp, hlt, hdir⟩ := hI.up_spec h0 hu
      cases n with
      | zero => omega
      | succ n =>
        rw [components_succ hI h0 hu]
        exact (leads_components hI n (by omega) hdir.1).append h0 ⟨hu, hp⟩

section Path

variable {fs : Ramfs} (hI : FsOk fs)

include hI

/-- Names that lead to an inode are a walk there. -/
theorem walk_leads : ∀ {names : List (List UInt8)} {d i : ℕ}, Leads fs d names i →
    fs.walk d names = some i
  | [], _, _, h => congrArg some h
  | name :: names, d, i, ⟨j, hj0, hc, hn, hl⟩ => by
    have hname := hn ▸ (hI.node j hj0 hc.1).2.1
    have hfollow : fs.follow d name = some j := by
      unfold follow
      rw [if_neg hname.notDot, if_neg hname.notDotDot]
      exact (childNamed_eq_some hI.toTreeInv).mpr ⟨hc, hn⟩
    cases names with
    | nil =>
      obtain rfl : j = i := hl
      exact hfollow
    | cons next rest =>
      obtain ⟨k, hk0, hck, -, -⟩ := id hl
      -- An inode with a child is a directory.
      have hdir : fs.IsDir j := by
        obtain ⟨hp, -, hd⟩ := hI.toTreeInv.up_spec hk0 hck.1
        have hup : fs.up k = j := by
          have := hp.symm.trans hck.2
          omega
        exact hup ▸ hd
      rw [walk, enter_of_dir hfollow hdir]
      exact walk_leads hl

theorem components_ok : ∀ (fuel : ℕ) {i : ℕ}, fs.Used i → ∀ name ∈ fs.components fuel i,
    (0 : UInt8) ∉ name ∧ name ≠ [] ∧ slash ∉ name
  | 0, _, _, _, h => by simp [components] at h
  | fuel + 1, i, hu, name, h => by
    unfold components at h
    split_ifs at h with h0
    · simp at h
    · obtain ⟨-, -, hdir⟩ := hI.toTreeInv.up_spec h0 hu
      rcases List.mem_append.mp h with h | h
      · exact components_ok fuel hdir.1 name h
      · have hname := (hI.node i h0 hu).2.1
        rw [List.mem_singleton.mp h]
        exact ⟨(hI.nodes i hu).noNul, hname.nonempty, hname.noSlash⟩

omit hI in
theorem pieces_joined : ∀ {names : List (List UInt8)},
    (∀ name ∈ names, name ≠ [] ∧ slash ∉ name) → pieces slash (joined names) = names
  | [], _ => rfl
  | name :: names, h => by
    obtain ⟨hne, hslash⟩ := h name List.mem_cons_self
    have ih := pieces_joined fun n hn => h n (List.mem_cons_of_mem name hn)
    have hpiece := pieces_of_notMem hslash hne
    have hcons : joined (name :: names) = slash :: (name ++ joined names) := rfl
    rw [hcons, pieces_cons_self]
    cases names with
    | nil => exact (congrArg _ (List.append_nil name)).trans hpiece
    | cons next rest =>
      have hjoin : joined (next :: rest) = slash :: (next ++ joined rest) := rfl
      rw [hjoin, pieces_append, hpiece, ← pieces_cons_self slash (next ++ joined rest), ← hjoin, ih]
      rfl

omit hI in
theorem joined_getLast? {names : List (List UInt8)}
    (h : ∀ name ∈ names, name ≠ [] ∧ slash ∉ name) : (joined names).getLast? ≠ some slash := by
  rcases List.eq_nil_or_concat names with rfl | ⟨ns, name, rfl⟩
  · simp [joined]
  · obtain ⟨hne, hslash⟩ := h name (by simp)
    rw [List.concat_eq_append, joined_append, List.getLast?_append_of_ne_nil _ (by simp),
      List.getLast?_cons, List.getLast?_eq_some_getLast hne]
    rintro hs
    exact hslash (Option.some.inj hs ▸ List.getLast_mem hne)

/-- The part of the absolute path behind the leading slash. -/
theorem absPath_eq_cons {i : ℕ} (hu : fs.Used i) :
    ∃ tail, fs.absPath i = slash :: tail ∧ (0 : UInt8) ∉ tail
      ∧ pieces slash tail = fs.components maxFiles i ∧ tail.getLast? ≠ some slash := by
  have hok := components_ok hI maxFiles hu
  have hpieces := pieces_joined fun name hn => (hok name hn).2
  have hlast := joined_getLast? fun name hn => (hok name hn).2
  unfold absPath
  split_ifs with h0
  · subst h0
    exact ⟨[], rfl, by simp, rfl, by simp⟩
  · rcases hcs : fs.components maxFiles i with _ | ⟨name, names⟩
    · have hl := leads_components hI.toTreeInv i le_rfl hu
      rw [hcs] at hl
      exact absurd (show 0 = i from hl).symm h0
    · rw [hcs] at hok hpieces hlast
      have hcons : joined (name :: names) = slash :: (name ++ joined names) := rfl
      rw [hcons] at hpieces hlast
      rw [pieces_cons_self] at hpieces
      refine ⟨name ++ joined names, hcons, ?_, hpieces, fun he => hlast ?_⟩
      · simp only [joined, List.mem_append, List.mem_flatMap, List.mem_cons, not_or, not_exists,
          not_and]
        exact ⟨(hok name List.mem_cons_self).1, fun n hn =>
          ⟨by decide, (hok n (List.mem_cons_of_mem _ hn)).1⟩⟩
      · rw [List.getLast?_cons, he]
        rfl

/-- The absolute path as `resolve_path` reads it. -/
theorem absPath_spec {i : ℕ} (hu : fs.Used i) :
    (0 : UInt8) ∉ fs.absPath i ∧ (∀ cwd, (pathStart cwd (fs.absPath i)).1 = (0 : ℕ))
      ∧ (relPath (fs.absPath i)).length + 1 = (fs.absPath i).length
      ∧ pieces slash (relPath (fs.absPath i)) = fs.components maxFiles i
      ∧ (relPath (fs.absPath i)).getLast? ≠ some slash := by
  obtain ⟨tail, hpath, hnul, hpieces, hlast⟩ := absPath_eq_cons hI hu
  have hrel : relPath (fs.absPath i) = tail := by rw [hpath]; rfl
  have hstart : ∀ cwd, (pathStart cwd (fs.absPath i)).1 = (0 : ℕ) := by
    intro cwd
    rw [hpath]
    rfl
  rw [hrel]
  refine ⟨?_, hstart, by rw [hpath, List.length_cons], hpieces, hlast⟩
  rw [hpath]
  simpa using ⟨by decide, hnul⟩

/-- Changing to the absolute path of a directory leads there from anywhere. -/
theorem ramfsChdir_absPath {i : ℕ} (hdir : fs.IsDir i) (hlen : (fs.absPath i).length ≤ 128)
    (cur : Pcb) (rest : List UInt8) :
    fs.ramfsChdir cur (some (fs.absPath i ++ 0 :: rest))
      = some (0, { cur with cwdInode := (i : ℤ) }) := by
  obtain ⟨hno, hstart, htail, hpieces, hlast⟩ := absPath_spec hI hdir.1
  have hres := resolvePath_short hI.toTreeInv (hstart cur.cwdInode) hI.root.1 false hno (by omega)
    hlast rest
  have hfits : false = true → ∀ name ∈ fs.components maxFiles i, name.length ≤ 31 := by simp
  obtain ⟨r, hr, hwalk⟩ := resolved_walkedTo fs 0 hfits
  have hinode : r.inode = i := by
    rw [hwalk.inode, walk_leads hI (leads_components hI.toTreeInv i le_rfl hdir.1)]
    rfl
  rw [hpieces, hr] at hres
  unfold ramfsChdir
  have htype : (fs.node (i : ℤ)).type = .dir := hdir.2
  rw [hres, Option.map_some, hinode, if_neg (by omega), if_neg (by simp [htype])]

end Path

end Ramfs

namespace Sys

/-- In every reachable state `ramfs_getcwd` writes the absolute path of the working directory, or
returns `NULL` exactly when it does not fit, and changing to a path of at most 128 bytes that it
wrote leads any process back to that directory. -/
theorem getcwd_chdir (s₀ : Sched) (idle : ℕ) (ops : List (ℕ × SysOp)) {s₁ : Sched}
    {s : Sys} (hinit : s₀.procInit idle = some s₁) (h : Run.run step (start s₁) ops = some s)
    {p : ℕ} (hp : p ∈ s.procList) :
    ∃ i : ℕ, (s.pcb p).cwdInode = i ∧ s.fs.IsDir i
      ∧ (∀ (buf : ℕ → UInt8) (size : ℕ), ∃ r, s.fs.ramfsGetcwd (s.pcb p) (some buf) size = some r
        ∧ (r = none ↔ size < (s.fs.absPath i).length + 1)
        ∧ ∀ buf' ∈ r, At buf' 0 (s.fs.absPath i ++ [0])
          ∧ ∀ j, (s.fs.absPath i).length + 1 ≤ j → buf' j = buf j)
      ∧ ((s.fs.absPath i).length ≤ 128 → ∀ (q : ℕ) (rest : List UInt8),
        s.fs.ramfsChdir (s.pcb q) (some (s.fs.absPath i ++ 0 :: rest))
          = some (0, { s.pcb q with cwdInode := (i : ℤ) })) := by
  have hI : SysInv s := Run.run_invariant step_inv (start_inv hinit) h
  obtain ⟨i, hi, hdir⟩ := hI.cwds p hp
  exact ⟨i, hi, hdir, Ramfs.ramfsGetcwd_spec hI.fsOk.toTreeInv hi hdir.1,
    fun hlen q rest => Ramfs.ramfsChdir_absPath hI.fsOk hdir hlen (s.pcb q) rest⟩

theorem getcwd_chdir_deepOps :
    ∃ s₁ s, Sched.boot.procInit 1 = some s₁ ∧ Run.run step (start s₁) deepOps = some s
      ∧ s.fs.absPath 7 = ascii "/usr/x"
      ∧ (∃ r, s.fs.ramfsGetcwd (s.pcb 2) (some fun _ => 1) 7 = some r ∧ r ≠ none)
      ∧ s.fs.ramfsChdir (s.pcb 1) (some (ascii "/usr/x" ++ [0]))
        = some (0, { s.pcb 1 with cwdInode := 7 }) := by
  have h : ((Sched.boot.procInit 1).bind fun s => Run.run step (start s) deepOps).map
      (fun s => (s.procList, (s.pcb 2).cwdInode, s.fs.absPath 7))
        = some ([2, 1], 7, ascii "/usr/x") := by
    decide +kernel
  obtain ⟨s₁, s, h₁, hr, he⟩ := Run.exists_of_eval h
  simp only [Prod.mk.injEq] at he
  obtain ⟨hl, hc, hpath⟩ := he
  obtain ⟨i, hi, -, hcwd, hch⟩ := getcwd_chdir Sched.boot 1 deepOps h₁ hr
    (by simp [hl] : 2 ∈ s.procList)
  obtain rfl : i = 7 := by omega
  have hlen : (s.fs.absPath 7).length = 6 := by
    rw [hpath]
    decide
  obtain ⟨r, hget, hnone, -⟩ := hcwd (fun _ => 1) 7
  refine ⟨s₁, s, h₁, hr, hpath, ⟨r, hget, fun hn => ?_⟩, ?_⟩
  · have := hnone.mp hn
    omega
  · rw [← hpath]
    exact hch (by omega) 1 []

end Sys

end SudoOS
