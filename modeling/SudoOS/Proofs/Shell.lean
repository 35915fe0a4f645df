import SudoOS.Proofs.Strtok
import SudoOS.Shell

/-!
# Arguments of earlier commands

`shell_main` does not clear `args`, and several commands read `args[1]` whether or not the line has
a second token. A line with the name alone is then handed over with whatever the last line with an
argument, or the stack, has left there (`shell_call_iff`).
-/

namespace SudoOS

open Pieces

/-! ## Lines -/

/-- The loop sees only what it has written itself. -/
theorem getlineLoop_congr {maxLen : ℕ} : ∀ (keys buf buf' : List UInt8) (i : ℕ),
    buf.length = maxLen → buf'.length = maxLen → i < maxLen →
    (∀ j < i, buf.getD j 0 = buf'.getD j 0) →
    (getlineLoop maxLen buf i keys).2 = (getlineLoop maxLen buf' i keys).2
      ∧ (getlineLoop maxLen buf i keys).2 < maxLen
      ∧ ∀ j < (getlineLoop maxLen buf i keys).2,
        (getlineLoop maxLen buf i keys).1.getD j 0 = (getlineLoop maxLen buf' i keys).1.getD j 0
  | [], buf, buf', i, _, _, hi, hsame => ⟨rfl, hi, hsame⟩
  | c :: keys, buf, buf', i, h, h', hi, hsame => by
    rw [getlineLoop, getlineLoop]
    split_ifs with hfull hend hback
    · exact ⟨rfl, hi, hsame⟩
    · exact getlineLoop_congr keys buf buf' (i - 1) h h' (by omega) fun j hj => hsame j (by omega)
    · refine getlineLoop_congr keys _ _ (i + 1) (by simpa using h) (by simpa using h') (by omega) ?_
      intro j hj
      by_cases hji : j = i
      · subst hji
        rw [List.getD_eq_getElem?_getD, List.getD_eq_getElem?_getD,
          List.getElem?_set_self (by omega), List.getElem?_set_self (by omega)]
      · simp only [List.getD_eq_getElem?_getD, List.getElem?_set_ne (Ne.symm hji)]
        simpa only [List.getD_eq_getElem?_getD] using hsame j (by omega)
    · exact ⟨rfl, hi, hsame⟩

/-- The line that the keys give. -/
def lineOf (keys : List UInt8) : List UInt8 :=
  cstr (getline maxCmdLen (List.replicate maxCmdLen 0) keys) 0

theorem length_cstr_le {buf : List UInt8} : ∀ {n p : ℕ}, buf.getD (p + n) 0 = 0 →
    (cstr buf p).length ≤ n
  | 0, p, h => by
    rw [Nat.add_zero] at h
    rw [cstr_eq, if_pos h]
    exact le_rfl
  | n + 1, p, h => by
    rw [cstr_eq]
    split_ifs
    · exact Nat.zero_le _
    · have htail : (cstr buf (p + 1)).length ≤ n :=
        length_cstr_le (by rwa [Nat.add_right_comm])
      simpa using htail

theorem terminator (buf : List UInt8) (n : ℕ) : (buf.set n 0).getD (0 + n) 0 = 0 := by
  rw [Nat.zero_add, getD_set_zero, if_pos rfl]

theorem cstr_getline {buf : List UInt8} (h : buf.length = maxCmdLen) (keys : List UInt8) :
    cstr (getline maxCmdLen buf keys) 0 = lineOf keys := by
  have h0 : (List.replicate maxCmdLen (0 : UInt8)).length = maxCmdLen := List.length_replicate
  obtain ⟨hi, -, hsame⟩ := getlineLoop_congr keys (List.replicate maxCmdLen 0) buf 0 h0 h
    (by decide) (fun j hj => absurd hj (Nat.not_lt_zero j))
  unfold lineOf getline
  dsimp only
  rw [← hi]
  refine cstr_congr rfl fun j _ hj => ?_
  have hlen := length_cstr_le (terminator (getlineLoop maxCmdLen (List.replicate maxCmdLen 0) 0
    keys).1 (getlineLoop maxCmdLen (List.replicate maxCmdLen 0) 0 keys).2)
  rw [getD_set_zero, getD_set_zero]
  split_ifs with hji
  · rfl
  · exact (hsame j (by omega)).symm

/-! ## Tokens -/

section Parse

variable {buf : List UInt8} {p : ℕ}

/-- The tokens that go to `args`, and what is left of the buffer in front of the line. -/
structure Parsed (slots : ℕ) (buf : List UInt8) (p : ℕ) (toks : List ℕ) (buf' : List UInt8) :
    Prop where
  texts : toks.map (cstr buf') = (runs [32].contains (cstr buf p)).take slots
  below : ∀ i < p, buf'.getD i 0 = buf.getD i 0

theorem parseArgs_nil (slots : ℕ) (buf : List UInt8) :
    parseArgs slots buf none none = ([], buf) := by
  rcases slots with _ | slots <;> rfl

/-- What is in front of the line stays when a token is cut off. -/
theorem strtok_below {str backup : Option ℕ} (hp : str.or backup = some p) :
    ∀ i < p, (strtok buf [32] str backup).2.1.getD i 0 = buf.getD i 0 := by
  intro i hi
  obtain ⟨ds, ts, rs, h⟩ := exists_cut [32] (cstr buf p)
  by_cases hne : ts = []
  · obtain rfl := hne
    obtain rfl := h.nonempty rfl
    rw [(call_none h p hp).2]
  · rw [(call_some h hne p hp).2]
    split_ifs
    · rfl
    · exact (getD_set_zero _ _ _).trans (if_neg (by omega))

theorem parseArgs_parsed : ∀ (slots : ℕ) (buf : List UInt8) (p : ℕ) (str backup : Option ℕ),
    str.or backup = some p → Parsed slots buf p (parseArgs slots buf str backup).1
      (parseArgs slots buf str backup).2 := by
  intro slots
  induction slots with
  | zero => exact fun buf p str backup hp => ⟨rfl, strtok_below hp⟩
  | succ slots ih =>
    intro buf p str backup hp
    obtain ⟨ds, ts, rs, h⟩ := exists_cut [32] (cstr buf p)
    by_cases hne : ts = []
    · obtain rfl := hne
      obtain rfl := h.nonempty rfl
      rw [parseArgs, (call_none h p hp).2]
      refine ⟨?_, fun _ _ => rfl⟩
      rw [← (splits_none h).runs]
      rfl
    have htok := cstr_append_add h.split
    rw [parseArgs, (call_some h hne p hp).2]
    rcases rs with _ | ⟨c, rs⟩
    · -- The last token; the next call returns `NULL`.
      simp only [if_true, parseArgs_nil]
      refine ⟨?_, fun _ _ => rfl⟩
      rw [runs_cut h hne]
      simp [htok, runs]
    · simp only [if_neg (List.cons_ne_nil c rs)]
      obtain ⟨hcut, hrest⟩ := cstr_set htok
      obtain ⟨htexts, hbelow⟩ := ih (buf.set (p + ds.length + ts.length) 0)
        (p + ds.length + ts.length + 1) none _ rfl
      refine ⟨?_, fun i hi => ?_⟩
      · rw [runs_cut h hne, List.map_cons, htexts, hrest, List.take_succ_cons]
        refine congrArg (· :: _) (cstr_congr hcut fun i _ hi => hbelow i (by omega))
      · rw [hbelow i (by omega), getD_set_zero, if_neg (by omega)]

end Parse

/-- The arguments that a line has itself. -/
def words (line : List UInt8) : List (List UInt8) := (runs [32].contains line).take maxArgs

/-- What is handed over for a line by itself: an argument it does not have is `NULL`. -/
def callOf (line : List UInt8) : Option Call :=
  if words line = [] then none
  else some (dispatch (words line).length fun i => (words line)[i]?)

namespace Shell

/-- A line fills the front of `args` and leaves the other entries. -/
structure Reads (s s' : Shell) (argc : ℕ) (line : List UInt8) : Prop where
  count : argc = (words line).length
  text : ∀ stray, ∀ i < argc, s'.argText stray (s'.args i) = (words line)[i]?
  kept : ∀ i, argc ≤ i → s'.args i = s.args i

theorem readLine_reads (s : Shell) (keys : List UInt8) :
    s.Reads (s.readLine keys).1 (s.readLine keys).2 (lineOf keys) := by
  have hline := cstr_getline s.size keys
  unfold readLine
  dsimp only
  split_ifs with h0
  · rw [cstr_eq, if_pos h0] at hline
    have hnil : words (lineOf keys) = [] := by rw [← hline]; rfl
    exact ⟨by rw [hnil]; rfl, fun _ i hi => absurd hi (Nat.not_lt_zero i), fun _ _ => rfl⟩
  · have htexts := (parseArgs_parsed maxArgs (getline maxCmdLen s.input keys) 0 (some 0) none
      rfl).texts
    rw [hline] at htexts
    refine ⟨?_, fun stray i hi => ?_, fun i hi => ?_⟩
    · rw [words, ← htexts, List.length_map]
    · dsimp only at hi ⊢
      rw [words, ← htexts, List.getElem?_map, List.getElem?_eq_getElem hi]
      rfl
    · dsimp only at hi ⊢
      rw [List.getElem?_eq_none hi]
      rfl

/-- What the handlers see: the line's own words, and behind them what was there before. -/
theorem call_eq (s : Shell) (stray : ℕ → List UInt8) (keys : List UInt8) :
    s.call stray keys = if words (lineOf keys) = [] then none
      else some (dispatch (words (lineOf keys)).length fun i =>
        (s.readLine keys).1.argText stray ((s.readLine keys).1.args i)) := by
  have hcount := (s.readLine_reads keys).count
  unfold call
  simp only [hcount, List.length_eq_zero_iff]

end Shell

/-! ## What the handlers read -/

/-- The commands that read `args[1]` without a look at `argc`. -/
def TakesArg (word : List UInt8) : Prop :=
  word ∈ [ascii "ls", ascii "cd", ascii "mkdir", ascii "cat", ascii "touch", ascii "run",
    ascii "echo"]

/-- Two arrays with the same words differ for a handler only in `args[1]`. -/
theorem dispatch_eq_iff {argc : ℕ} {f g : ℕ → Option (List UInt8)} (hpos : 0 < argc)
    (h : ∀ i < argc, f i = g i) :
    dispatch argc f = dispatch argc g ↔ (argc = 1 → TakesArg ((g 0).getD []) → f 1 = g 1) := by
  have h1 : (f 1 = g 1) ↔ (argc = 1 → f 1 = g 1) := by
    by_cases hargc : argc = 1
    · simp [hargc]
    · simp [hargc, h 1 (by omega)]
  unfold dispatch TakesArg
  rw [h 0 hpos]
  generalize (g 0).getD [] = word
  dsimp only
  by_cases hlist : word ∈ [ascii "ls", ascii "cd", ascii "mkdir", ascii "cat", ascii "touch",
      ascii "run"]
  · have htakes : word ∈ [ascii "ls", ascii "cd", ascii "mkdir", ascii "cat", ascii "touch",
        ascii "run", ascii "echo"] := List.mem_append_left [ascii "echo"] hlist
    rw [if_pos hlist, if_pos hlist]
    simpa [htakes] using h1
  · rw [if_neg hlist, if_neg hlist]
    by_cases hecho : word = ascii "echo"
    · have htakes : word ∈ [ascii "ls", ascii "cd", ascii "mkdir", ascii "cat", ascii "touch",
          ascii "run", ascii "echo"] := by simp [hecho]
      rw [if_pos hecho, if_pos hecho]
      by_cases hargc : argc ≥ 4
      · simp [h 1 (by omega), h 2 (by omega), h 3 (by omega)]
      · simpa [hargc, htakes] using h1
    · have htakes : word ∉ [ascii "ls", ascii "cd", ascii "mkdir", ascii "cat", ascii "touch",
          ascii "run", ascii "echo"] :=
        fun h => (List.mem_append.mp h).elim hlist (hecho ∘ List.mem_singleton.mp)
      simp [hecho, htakes]

/-- No command that takes an argument stands alone on the line. -/
def OwnArgs (line : List UInt8) : Prop := ∀ word, words line = [word] → ¬TakesArg word

namespace Shell

@[simp] theorem argText_eq_none {s : Shell} {stray : ℕ → List UInt8} {a : Arg} :
    s.argText stray a = none ↔ a = .null := by
  rcases a with _ | _ | _ <;> simp [argText]

/-- One run: the next command is the line's own. -/
theorem call_own_iff (s : Shell) (stray : ℕ → List UInt8) (keys : List UInt8) :
    s.call stray keys = callOf (lineOf keys) ↔ OwnArgs (lineOf keys) ∨ s.args 1 = .null := by
  obtain ⟨hcount, htext, hkept⟩ := s.readLine_reads keys
  rw [hcount] at htext hkept
  rw [call_eq, callOf]
  unfold OwnArgs
  rcases hw : words (lineOf keys) with _ | ⟨word, rest⟩
  · simp
  rw [hw] at htext hkept
  rw [if_neg (List.cons_ne_nil _ _), if_neg (List.cons_ne_nil _ _), Option.some_inj,
    dispatch_eq_iff (List.length_pos_of_ne_nil (List.cons_ne_nil word rest)) (htext stray)]
  rcases rest with _ | ⟨arg, rest⟩
  · -- The name alone: `args[1]` is what it was.
    have hstale : (s.readLine keys).1.args 1 = s.args 1 := hkept 1 le_rfl
    simpa [hstale] using imp_iff_not_or
  · simp

/-- `args[1]` is `NULL` at the start and no line sets it. -/
def Unset (s : Shell) (lines : List (List UInt8)) : Prop :=
  s.args 1 = .null ∧ ∀ keys ∈ lines, (words (lineOf keys)).length ≤ 1

theorem readLine_null_iff (s : Shell) (keys : List UInt8) :
    (s.readLine keys).1.args 1 = .null ↔
      s.args 1 = .null ∧ (words (lineOf keys)).length ≤ 1 := by
  obtain ⟨hcount, htext, hkept⟩ := s.readLine_reads keys
  rw [hcount] at htext hkept
  by_cases hlen : (words (lineOf keys)).length ≤ 1
  · simp [hkept 1 hlen, hlen]
  · -- The line's second word is there.
    have hset := htext (fun _ => []) 1 (by omega)
    rw [List.getElem?_eq_getElem (by omega)] at hset
    simp only [hlen, and_false, iff_false]
    intro hnull
    rw [hnull] at hset
    cases hset

/-- Every run: `args[1]` is `NULL` after the lines if it was and none of them has set it. -/
theorem after_null_iff : ∀ (lines : List (List UInt8)) (s : Shell),
    (s.after lines).args 1 = .null ↔ s.Unset lines
  | [], s => by simp [after, Unset]
  | keys :: lines, s => by
    have ih := after_null_iff lines (s.readLine keys).1
    rw [Unset, readLine_null_iff] at ih
    exact ih.trans (by simp [Unset, and_assoc])

end Shell

/-- After two histories the next line is handed over as its own words and `NULL` for the rest, in
both shells, if and only if it is not the bare name of a command that takes an argument or both
shells have never had a second word in `args`. -/
theorem shell_call_iff (s₁ s₂ : Shell) (stray₁ stray₂ : ℕ → List UInt8)
    (lines₁ lines₂ : List (List UInt8)) (keys : List UInt8) :
    ((s₁.after lines₁).call stray₁ keys = callOf (lineOf keys)
      ∧ (s₂.after lines₂).call stray₂ keys = callOf (lineOf keys))
    ↔ OwnArgs (lineOf keys) ∨ (s₁.Unset lines₁ ∧ s₂.Unset lines₂) := by
  rw [Shell.call_own_iff, Shell.call_own_iff, Shell.after_null_iff, Shell.after_null_iff]
  tauto

/-- A shell with empty `args`. -/
def Shell.start : Shell := ⟨List.replicate maxCmdLen 0, fun _ => .null, List.length_replicate⟩

/-- `ls` after `ls usr` lists `usr` again, where the first line of a shell gives `NULL`. -/
theorem ls_after_ls_usr :
    ¬∀ (s₁ s₂ : Shell) (stray : ℕ → List UInt8) (lines₁ lines₂ : List (List UInt8))
      (keys : List UInt8), (s₁.after lines₁).call stray keys = callOf (lineOf keys)
        ∧ (s₂.after lines₂).call stray keys = callOf (lineOf keys) := by
  intro h
  have hcall := (h Shell.start Shell.start (fun _ => []) [ascii "ls usr"] [] (ascii "ls")).1
  revert hcall
  decide +kernel

end SudoOS
