import SudoOS.Proofs.Commands
import SudoOS.Proofs.Keyboard
import SudoOS.Proofs.Shell

/-!
# The shell from line to line

Whatever scancodes come in and whenever they do, `getline` reads the characters of the keyboard's
queue in their order (`getlineLoop_reads`). The rounds of `shell_main` are calls of its process that
leave nothing open (`shell_session`), and each character read belongs to one line
(`shell_keys_in_order`).
-/

namespace SudoOS

namespace Session

/-! ## Typing -/

/-- The scancodes before each read of the keyboard, and the reads. -/
def keyOps (polls : List (List UInt8)) : List KeyOp :=
  polls.flatMap fun codes => codes.map .scancode ++ [.getChar]

/-- The keyboard holds what waits in the queue. -/
abbrev Keys (s : Session) (q : KeyQueue) : Prop := Typing.Represents ⟨s.dev, q.results⟩ q

theorem keyOps_cons (codes : List UInt8) (polls : List (List UInt8)) :
    keyOps (codes :: polls) = keyOps [codes] ++ keyOps polls := by
  simp [keyOps]

theorem foldl_scancodes (codes : List UInt8) (t : Typing) :
    (codes.map KeyOp.scancode).foldl Typing.step t
      = ⟨codes.foldl Devices.keyboardHandler t.dev, t.results⟩ := by
  induction codes generalizing t with
  | nil => rfl
  | cons code codes ih => exact ih _

theorem Keys.shows {s : Session} {q : KeyQueue} (h : s.Keys q) (text : List UInt8) :
    (s.shows text).Keys q :=
  ⟨h.inside, h.shift, h.waiting, h.results⟩

/-- A command leaves the keys alone. -/
theorem Ran.keeps {s s' : Session} {q : KeyQueue} (h : Ran s s') (hk : s.Keys q) : s'.Keys q :=
  ⟨(congrArg Keyboard.Inside h.keys).mpr hk.inside,
    (congrArg Keyboard.gShift h.keys).trans hk.shift,
    (congrArg Keyboard.waiting h.keys).trans hk.waiting, rfl⟩

/-- A read of the keyboard. -/
theorem read_key (s : Session) :
    ∃ s' : Session, s'.fs = s.fs ∧ s'.cur = s.cur
      ∧ s'.dev = { s.dev with keyboard := s.dev.keyboard.getChar.2 }
      ∧ s.read 0 1 = some (if s.dev.keyboard.getChar.1 ≠ 0 then (1, [s.dev.keyboard.getChar.1], s')
        else (0, [], s')) := by
  refine ⟨{ s with dev := { s.dev with keyboard := s.dev.keyboard.getChar.2 } }, rfl, rfl, rfl, ?_⟩
  unfold read sysRead
  rw [if_pos (by rfl)]
  dsimp only
  split_ifs <;> rfl

/-- What is read after some scancodes, and what the queue does meanwhile. -/
theorem poll_spec {s : Session} {q : KeyQueue} (hk : s.Keys q) (ho : q.Ordered)
    (codes : List UInt8) :
    ∃ (s' : Session) (q' : KeyQueue) (c : UInt8), q' = (keyOps [codes]).foldl KeyQueue.step q
      ∧ s'.Keys q' ∧ q'.Ordered ∧ s'.fs = s.fs ∧ s'.cur = s.cur ∧ q'.results = q.results ++ [c]
      ∧ (s.interrupts codes).read 0 1 = some (if c ≠ 0 then (1, [c], s') else (0, [], s')) := by
  obtain ⟨hk', ho'⟩ := run_represents (keyOps [codes]) hk ho
  have hops : keyOps [codes] = codes.map .scancode ++ [.getChar] := by simp [keyOps]
  obtain ⟨s', hfs, hcur, hdev, hread⟩ := read_key (s.interrupts codes)
  have htyping : (keyOps [codes]).foldl Typing.step ⟨s.dev, q.results⟩
      = ⟨s'.dev, q.results ++ [(s.interrupts codes).dev.keyboard.getChar.1]⟩ := by
    rw [hops, List.foldl_append, foldl_scancodes, hdev]
    rfl
  rw [htyping] at hk'
  exact ⟨s', _, _, rfl, ⟨hk'.inside, hk'.shift, hk'.waiting, rfl⟩, ho', hfs, hcur, hk'.results.symm,
    hread⟩

/-- A character that is echoed. -/
theorem printf_char (s : Session) (c : UInt8) :
    s.printf "%c" [.word (c.toBitVec.signExtend 64)] = some (s.shows [c]) := by
  have hbyte : lowByte ((c.toBitVec.signExtend 64).setWidth 32) = c := by
    apply UInt8.toBitVec_inj.mp
    rw [lowByte, UInt8.toBitVec_ofNat', BitVec.ofNat_toNat]
    ext i hi
    simp [BitVec.getElem_signExtend, hi, show i < 64 by omega]
  have h := User.Converts.c (c.toBitVec.signExtend 64) []
  rw [hbyte] at h
  exact printf_directive [] [] rfl (by decide) (by decide) (by decide) h

/-- The keys of a line of which `i` characters have been read: no key but the last ends it, and
without one that does the buffer is full. -/
def LineFrom (maxLen i : ℕ) (keys : List UInt8) : Prop :=
  ∃ body last, keys = body ++ last ∧ (∀ c ∈ body, ¬ (c = 10 ∨ c = 13))
    ∧ ((last = [] ∧ maxLen - 1 ≤ i + body.length) ∨ ∃ c, last = [c] ∧ (c = 10 ∨ c = 13))

theorem LineFrom.cons {maxLen i i' : ℕ} {keys : List UInt8} (h : LineFrom maxLen i' keys)
    (hi : i' ≤ i + 1) {c : UInt8} (hc : ¬ (c = 10 ∨ c = 13)) : LineFrom maxLen i (c :: keys) := by
  obtain ⟨body, last, rfl, hbody, hlast⟩ := h
  refine ⟨c :: body, last, rfl, List.forall_mem_cons.mpr ⟨hc, hbody⟩, hlast.imp_left ?_⟩
  rintro ⟨rfl, hfull⟩
  exact ⟨rfl, by rw [List.length_cons]; omega⟩

/-- What `getline` reads from a session: characters of the queue in their order, from the first of
the polls on, and a line as they give it. -/
structure Reads (maxLen : ℕ) (s : Session) (q : KeyQueue) (buf : List UInt8) (i : ℕ)
    (polls : List (List UInt8)) (t : Typed) (q' : KeyQueue) : Prop where
  used : ∃ used, used <+: polls ∧ q' = (keyOps used).foldl KeyQueue.step q
  keys : t.session.Keys q'
  ordered : q'.Ordered
  fs : t.session.fs = s.fs
  cur : t.session.cur = s.cur
  read : ∃ read, q'.results = q.results ++ read ∧ read.filter (· ≠ 0) = t.keys
  line : SudoOS.getlineLoop maxLen buf i t.keys = (t.buf, t.i)
  ends : LineFrom maxLen i t.keys

/-- A poll that finds nothing. -/
theorem Reads.idle {maxLen : ℕ} {s r : Session} {q q₁ q' : KeyQueue} {buf : List UInt8} {i : ℕ}
    {polls : List (List UInt8)} {t : Typed} {codes : List UInt8}
    (hq : q₁ = (keyOps [codes]).foldl KeyQueue.step q) (hfs : r.fs = s.fs) (hcur : r.cur = s.cur)
    (hres : q₁.results = q.results ++ [0]) (h : Reads maxLen r q₁ buf i polls t q') :
    Reads maxLen s q buf i (codes :: polls) t q' := by
  obtain ⟨used, hused, hq'⟩ := h.used
  obtain ⟨read, hread, hkeys⟩ := h.read
  refine ⟨⟨codes :: used, List.prefix_cons_inj codes |>.mpr hused, ?_⟩, h.keys, h.ordered,
    h.fs.trans hfs, h.cur.trans hcur, ⟨0 :: read, ?_, by simpa using hkeys⟩, h.line, h.ends⟩
  · rw [hq', hq, ← List.foldl_append, keyOps_cons codes used]
  · rw [hread, hres, List.append_assoc]
    rfl

/-- A poll that finds a character, which does not end the line. -/
theorem Reads.key {maxLen : ℕ} {s r : Session} {q q₁ q' : KeyQueue} {buf buf' : List UInt8}
    {i i' : ℕ} {polls : List (List UInt8)} {t : Typed} {codes : List UInt8} {c : UInt8}
    (hq : q₁ = (keyOps [codes]).foldl KeyQueue.step q) (hfs : r.fs = s.fs) (hcur : r.cur = s.cur)
    (hres : q₁.results = q.results ++ [c]) (hc : c ≠ 0) (hend : ¬ (c = 10 ∨ c = 13))
    (hi : i' ≤ i + 1)
    (hstep : ∀ keys, SudoOS.getlineLoop maxLen buf i (c :: keys)
      = SudoOS.getlineLoop maxLen buf' i' keys) (h : Reads maxLen r q₁ buf' i' polls t q') :
    Reads maxLen s q buf i (codes :: polls) { t with keys := c :: t.keys } q' := by
  obtain ⟨used, hused, hq'⟩ := h.used
  obtain ⟨read, hread, hkeys⟩ := h.read
  refine ⟨⟨codes :: used, List.prefix_cons_inj codes |>.mpr hused, ?_⟩, h.keys, h.ordered,
    h.fs.trans hfs, h.cur.trans hcur, ⟨c :: read, ?_, by simpa [hc] using hkeys⟩,
    (hstep _).trans h.line, h.ends.cons hi hend⟩
  · rw [hq', hq, ← List.foldl_append, keyOps_cons codes used]
  · rw [hread, hres, List.append_assoc]
    rfl

theorem getlineLoop_reads {maxLen : ℕ} :
    ∀ (polls : List (List UInt8)) {s : Session} {q : KeyQueue} {buf : List UInt8} {i : ℕ}
      {t : Typed}, s.Keys q → q.Ordered → getlineLoop maxLen polls s buf i = some t →
        ∃ q', Reads maxLen s q buf i polls t q'
  | [], s, q, buf, i, t, hk, ho, h => by
    unfold getlineLoop at h
    split_ifs at h with hfull
    obtain rfl := Option.some.inj h
    exact ⟨q, ⟨[], List.prefix_rfl, rfl⟩, hk, ho, rfl, rfl, ⟨[], by simp⟩, rfl, [], [], rfl,
      by simp, .inl ⟨rfl, by simpa using hfull⟩⟩
  | codes :: polls, s, q, buf, i, t, hk, ho, h => by
    unfold getlineLoop at h
    by_cases hfull : i < maxLen - 1
    · obtain ⟨s₁, q₁, c, hq₁, hk₁, ho₁, hfs, hcur, hres, hread⟩ := poll_spec hk ho codes
      rw [if_pos hfull, hread, Option.bind_some] at h
      by_cases hc : c = 0
      · -- no character waits
        subst hc
        simp only [ne_eq, not_true_eq_false, if_false, gt_iff_lt, lt_self_iff_false] at h
        obtain ⟨q', hreads⟩ := getlineLoop_reads polls hk₁ ho₁ h
        exact ⟨q', hreads.idle hq₁ hfs hcur hres⟩
      simp only [ne_eq, hc, not_false_eq_true, if_true, gt_iff_lt, zero_lt_one,
        List.headD_cons] at h
      by_cases hend : c = 10 ∨ c = 13
      · rw [if_pos hend, printf_plain (by decide)] at h
        obtain rfl := Option.some.inj h
        refine ⟨q₁, ⟨[codes], ⟨polls, rfl⟩, hq₁⟩, hk₁.shows _, ho₁, hfs, hcur,
          ⟨[c], hres, by simp [hc]⟩, ?_, [], [c], rfl, by simp, .inr ⟨c, rfl, hend⟩⟩
        simp [SudoOS.getlineLoop, hfull, hend]
      rw [if_neg hend] at h
      obtain ⟨t', ht', rfl⟩ := Option.map_eq_some_iff.mp h
      by_cases hback : c = 8 ∨ c = 127
      · rw [if_pos hback] at ht'
        have hstep : ∀ keys, SudoOS.getlineLoop maxLen buf i (c :: keys)
            = SudoOS.getlineLoop maxLen buf (i - 1) keys := fun keys => by
          rw [SudoOS.getlineLoop, if_pos hfull, if_neg hend, if_pos hback]
        by_cases hi : i > 0
        · rw [if_pos hi, printf_plain (by decide), Option.bind_some] at ht'
          obtain ⟨q', hreads⟩ := getlineLoop_reads polls (hk₁.shows _) ho₁ ht'
          exact ⟨q', .key (r := s₁.shows _) hq₁ hfs hcur hres hc hend (by omega) hstep hreads⟩
        · obtain rfl : i = 0 := by omega
          rw [if_neg hi] at ht'
          obtain ⟨q', hreads⟩ := getlineLoop_reads polls hk₁ ho₁ ht'
          exact ⟨q', hreads.key hq₁ hfs hcur hres hc hend (by omega) hstep⟩
      · have hstep : ∀ keys, SudoOS.getlineLoop maxLen buf i (c :: keys)
            = SudoOS.getlineLoop maxLen (buf.set i c) (i + 1) keys := fun keys => by
          rw [SudoOS.getlineLoop, if_pos hfull, if_neg hend, if_neg hback]
        rw [if_neg hback, printf_char, Option.bind_some] at ht'
        obtain ⟨q', hreads⟩ := getlineLoop_reads polls (hk₁.shows _) ho₁ ht'
        exact ⟨q', .key (r := s₁.shows _) hq₁ hfs hcur hres hc hend (by omega) hstep hreads⟩
    · rw [if_neg hfull] at h
      obtain rfl := Option.some.inj h
      exact ⟨q, ⟨[], List.nil_prefix, rfl⟩, hk, ho, rfl, rfl, ⟨[], by simp⟩, rfl, [], [], rfl,
        by simp, .inl ⟨rfl, by simpa using hfull⟩⟩

/-! ## Lines and commands -/

/-- A token of the line is no null pointer. -/
theorem readLine_arg {sh sh' : Shell} {keys : List UInt8} {argc i : ℕ}
    (h : sh.readLine keys = (sh', argc)) (hi : i < argc) : ∃ pos, sh'.args i = .input pos := by
  unfold Shell.readLine at h
  dsimp only at h
  split_ifs at h
  · obtain ⟨-, rfl⟩ := Prod.mk.inj h
    exact absurd hi (Nat.not_lt_zero i)
  · obtain ⟨rfl, rfl⟩ := Prod.mk.inj h
    refine ⟨(parseArgs maxArgs (getline maxCmdLen sh.input keys) (some 0) none).1[i], ?_⟩
    simp [List.getElem?_eq_getElem hi]

/-- The text of `echo` into a file is a token of its line. -/
theorem call_text {sh : Shell} {stray : ℕ → List UInt8} {keys : List UInt8} {c : Call}
    (h : sh.call stray keys = some c) (path : Option (List UInt8)) : c.args ≠ [none, path] := by
  intro hargs
  rcases hline : sh.readLine keys with ⟨sh', argc⟩
  simp only [Shell.call, hline] at h
  split_ifs at h with hargc
  obtain rfl := Option.some.inj h
  unfold dispatch at hargs
  dsimp only at hargs
  split_ifs at hargs with h1 h2 hto
  · simp at hargs
  · obtain ⟨pos, hpos⟩ := readLine_arg hline (show 1 < argc by omega)
    simp [hpos, Shell.argText] at hargs
  · simp at hargs

theorem answer_ends {s : Session} (hok : s.Ok) {sh : Shell} {stray : ℕ → List UInt8}
    {keys : List UInt8} (e : Env) (hgood : ∀ c ∈ sh.call stray keys, Acceptable c) :
    EndsIf (∀ c ∈ sh.call stray keys, Makes c → e.mem = true) s
      (s.answer e (sh.call stray keys)) := by
  rcases hcall : sh.call stray keys with _ | c
  · exact (ends_self s).endsIf _
  · exact (command_ends hok e (hgood c (by rw [hcall]; rfl)) (call_text hcall)).mono
      fun h => h c rfl

theorem readLine_reads {s : Session} (hok : s.Ok) {q : KeyQueue} (hk : s.Keys q) (ho : q.Ordered)
    {sh : Shell} {r : Round} {t : Typed} (h : s.readLine sh r = some t) :
    ∃ q', Reads maxCmdLen s q sh.input 0 r.polls t q' := by
  rw [readLine, prompt_eq hok, Option.bind_some] at h
  obtain ⟨q', hreads⟩ := getlineLoop_reads r.polls (hk.shows _) ho h
  exact ⟨q', hreads.used, hreads.keys, hreads.ordered, hreads.fs, hreads.cur, hreads.read,
    hreads.line, hreads.ends⟩

/-- Some rounds of the shell: calls that leave nothing open, and the keys of the lines are the
characters that the queue has given out. -/
structure Played (s : Session) (q : KeyQueue) (rounds : List Round) (turns : List Turn)
    (s' : Session) (q' : KeyQueue) : Prop where
  calls : Calls s s'
  tidy : Tidy s s'
  keys : s'.Keys q'
  ordered : q'.Ordered
  used : ∃ used, List.Forall₂ (fun polls r => polls <+: r.polls) used rounds
    ∧ q' = (keyOps used.flatten).foldl KeyQueue.step q
  read : ∃ read, q'.results = q.results ++ read
    ∧ read.filter (· ≠ 0) = (turns.map Turn.keys).flatten
  lines : ∀ u ∈ turns, LineFrom maxCmdLen 0 u.keys

theorem keyOps_append (polls polls' : List (List UInt8)) :
    keyOps (polls ++ polls') = keyOps polls ++ keyOps polls' := by
  simp [keyOps]

theorem shellMain_played : ∀ (rounds : List Round) {sh sh' : Shell} {s s' : Session} {q : KeyQueue}
    {turns : List Turn}, s.Ok → s.Keys q → q.Ordered →
      shellMain sh s rounds = some (turns, sh', s') →
      (∀ u ∈ turns, ∀ c ∈ u.call, Acceptable c) → ∃ q', Played s q rounds turns s' q'
  | [], sh, sh', s, s', q, turns, hok, hk, ho, h, _ => by
    simp only [shellMain, Option.some.injEq, Prod.mk.injEq] at h
    obtain ⟨rfl, rfl, rfl⟩ := h
    exact ⟨q, .refl, .refl _ _, hk, ho, ⟨[], .nil, rfl⟩, ⟨[], by simp⟩, by simp⟩
  | r :: rounds, sh, sh', s, s', q, turns, hok, hk, ho, h, hgood => by
    rw [shellMain] at h
    obtain ⟨t, hline, h⟩ := Option.bind_eq_some_iff.mp h
    obtain ⟨s₁, hans, h⟩ := Option.bind_eq_some_iff.mp h
    obtain ⟨⟨turns', sh₁, s₂⟩, hrest, he⟩ := Option.map_eq_some_iff.mp h
    simp only [Prod.mk.injEq] at he
    obtain ⟨rfl, rfl, rfl⟩ := he
    obtain ⟨q₁, hreads⟩ := readLine_reads hok hk ho hline
    have hok₁ : t.session.Ok := by
      rw [Ok, hreads.fs, hreads.cur]
      exact hok
    have hran := (answer_ends hok₁ r.env
      (hgood _ List.mem_cons_self : ∀ c ∈ sh.call r.stray t.keys, Acceptable c)).2 s₁ hans
    obtain ⟨q₂, hp⟩ := shellMain_played rounds (hran.ok hok₁) (hran.keeps hreads.keys)
      hreads.ordered hrest fun u hu => hgood u (List.mem_cons_of_mem _ hu)
    have hcalls := hran.calls
    have htidy := hran.tidy
    rw [Calls, hreads.fs, hreads.cur] at hcalls
    rw [Tidy, hreads.fs, hreads.cur] at htidy
    obtain ⟨used, hused, hq₁⟩ := hreads.used
    obtain ⟨used', hused', hq₂⟩ := hp.used
    obtain ⟨read, hread, hkeys⟩ := hreads.read
    obtain ⟨read', hread', hkeys'⟩ := hp.read
    refine ⟨q₂, hcalls.trans hp.calls, htidy.trans hp.tidy, hp.keys, hp.ordered,
      ⟨used :: used', .cons hused hused', ?_⟩, ⟨read ++ read', ?_, ?_⟩,
      List.forall_mem_cons.mpr ⟨hreads.ends, hp.lines⟩⟩
    · rw [hq₂, hq₁, List.flatten_cons, keyOps_append, List.foldl_append]
    · rw [hread', hread, List.append_assoc]
    · rw [List.filter_append, hkeys, hkeys', List.map_cons, List.flatten_cons]

/-! ## Before the first line -/

/-- The shell comes to its first prompt. -/
theorem welcome_ends {s : Session} (hok : s.Ok) : Ends s s.welcome := by
  rw [welcome, printf_plain (plain_ofList (by decide)), Option.bind_some,
    printf_plain (plain_ofList (by decide)), Option.bind_some, shows_shows]
  generalize ascii _ ++ ascii _ = text
  refine .of_ran (ran_shows s text) ?_
  obtain ⟨ret, s₁, hcall, hran⟩ := chdir_ends (s := s.shows text) hok
    (shortArg_some (ascii "/usr") (by decide))
  rw [hcall, Option.bind_some]
  refine .of_ran hran ?_
  dsimp only
  split_ifs
  · rw [printf_plain (by decide), Option.bind_some]
    generalize ascii _ = warning
    refine .of_ran (ran_shows s₁ warning) ?_
    obtain ⟨ret', s₂, hcall', hran'⟩ := chdir_ends (s := s₁.shows warning) (hran.ok hok)
      (shortArg_some [slash] (by decide))
    rw [hcall', Option.map_some]
    exact ⟨s₂, rfl, hran'⟩
  · exact ends_self s₁

end Session

/-! ## The shell in the system -/

namespace Sys

theorem step_backed {s s' : Sys} {e : ℕ × SysOp} (h : s.step e = some s') (hb : s.fs.Backed) :
    s'.fs.Backed := by
  obtain ⟨p, op⟩ := e
  unfold step at h
  by_cases hp : s.Runs p
  swap
  · rw [if_neg hp] at h
    cases h
  rw [if_pos hp] at h
  cases op with
  | call c =>
    obtain ⟨⟨fs', cur'⟩, hc, rfl⟩ := Option.map_eq_some_iff.mp h
    exact Ramfs.perform_backed hc hb
  | getdents64 fd dirp count =>
    obtain ⟨⟨ret, buf, fs'⟩, hc, rfl⟩ := Option.map_eq_some_iff.mp h
    intro i
    change (fs'.files i).content = none → (fs'.files i).size = 0
    rw [Ramfs.ramfsGetdents64_files hc]
    exact hb i
  | kthreadCreate parent name a =>
    obtain ⟨t, -, rfl⟩ := Option.map_eq_some_iff.mp h
    exact hb
  | createUserProcess name a =>
    obtain ⟨t, -, rfl⟩ := Option.map_eq_some_iff.mp h
    exact hb
  | sysFork a =>
    obtain ⟨t, -, rfl⟩ := Option.map_eq_some_iff.mp h
    exact hb
  | exit code =>
    dsimp only at h
    split_ifs at h
    obtain rfl := Option.some.inj h
    exact hb
  | freeProc q =>
    obtain ⟨t, -, rfl⟩ := Option.map_eq_some_iff.mp h
    exact hb

theorem start_backed (s₁ : Sched) : (start s₁).fs.Backed := by
  intro i
  change ((Ramfs.ramfsInit none 0).files i).content = none → _
  rcases i with _ | _ | _ | _ | _ | _ | _ | i <;> intro h <;>
    first | rfl | simp [Ramfs.ramfsInit] at h

/-- A process of a reachable state, and what it needs to call. -/
theorem reached_ok {s₁ : Sched} {s₀ : Sched} {idle : ℕ} {ops : List (ℕ × SysOp)} {s : Sys} {p : ℕ}
    (hinit : s₀.procInit idle = some s₁) (hrun : Run.run step (start s₁) ops = some s)
    (hp : s.Runs p) : SysInv s ∧ Ramfs.CallerOk s.fs (s.pcb p) := by
  have hI : SysInv s := Run.run_invariant step_inv (start_inv hinit) hrun
  have hb : s.fs.Backed := Run.run_invariant (I := fun s => s.fs.Backed)
    (fun _ _ _ hb h => step_backed h hb) (start_backed s₁) hrun
  exact ⟨hI, hI.fsOk, hb, hI.cwds p hp.1, hI.fdLen p hp.1⟩

/-- The calls of a process are steps of the system. -/
theorem calls_run {s : Sys} {p : ℕ} (hI : SysInv s) (hp : s.Runs p) {b : Ramfs × Pcb}
    (h : Ramfs.Calls (s.fs, s.pcb p) b) :
    ∃ (calls : List SysOp) (t : Sys), Run.run step s (calls.map fun c => (p, c)) = some t
      ∧ (∀ c ∈ calls, (∃ d, c = .call d) ∨ ∃ fd dirp count, c = .getdents64 fd dirp count)
      ∧ SysInv t ∧ t.Runs p ∧ (t.fs, t.pcb p) = b ∧ ∀ q, q ≠ p → t.pcb q = s.pcb q := by
  induction h with
  | refl => exact ⟨[], s, rfl, by simp, hI, hp, rfl, fun _ _ => rfl⟩
  | @tail b c _ hcall ih =>
    obtain ⟨calls, t, hrun, hall, hIt, hpt, rfl, hothers⟩ := ih
    have hstep : ∃ op, t.step (p, op) = some (t.called p c.1 c.2)
        ∧ ((∃ d, op = .call d) ∨ ∃ fd dirp count, op = .getdents64 fd dirp count)
        ∧ Ramfs.CallStep t.fs c.1 (t.pcb p) c.2 := by
      cases hcall with
      | call d h =>
        exact ⟨.call d, by simp [step, hpt, h], .inl ⟨d, rfl⟩,
          Ramfs.perform_step hIt.fsOk (hIt.cwds p hpt.1) h⟩
      | getdents64 fd dirp buf count n h =>
        exact ⟨.getdents64 fd dirp count, by simp [step, hpt, h], .inr ⟨_, _, _, rfl⟩,
          Ramfs.ramfsGetdents64_step hIt.fsOk h⟩
    obtain ⟨op, hop, hkind, hcs⟩ := hstep
    refine ⟨calls ++ [op], t.called p c.1 c.2, ?_, ?_, step_inv _ _ _ hIt hop,
      called_runs hcs hpt, ?_, fun q hq => ?_⟩
    · rw [List.map_append, Run.run_append, hrun]
      simp [Run.run, hop]
    · intro d hd
      rcases List.mem_append.mp hd with hd | hd
      · exact hall d hd
      · exact List.mem_singleton.mp hd ▸ hkind
    · rw [called_pcb, if_pos rfl]
      rfl
    · rw [called_pcb, if_neg hq, hothers q hq]

end Sys

namespace Session

section Reached

variable {s₀ s₁ : Sched} {idle : ℕ} {ops : List (ℕ × SysOp)} {s : Sys} {p : ℕ}

/-- The devices after some typing. -/
def typedOn (d : Devices) (ops : List KeyOp) : Devices :=
  (ops.foldl Typing.step ⟨d.initKeyboard, []⟩).dev

theorem typedOn_keys (d : Devices) (ops : List KeyOp) (fs : Ramfs) (cur : Pcb) :
    (⟨fs, cur, typedOn d ops⟩ : Session).Keys (ops.foldl KeyQueue.step (.empty d.keyboard.gShift))
      ∧ (ops.foldl KeyQueue.step (.empty d.keyboard.gShift)).Ordered := by
  obtain ⟨t, q, rfl, rfl, hrep, ho, -⟩ := keyboard_fifo d ops
  exact ⟨⟨hrep.inside, hrep.shift, hrep.waiting, rfl⟩, ho⟩

/-- From any reachable state the shell comes to its first prompt, and all its commands are system
calls of its process that leave its descriptors and the table of open files as they were and no
other process touched; whatever line is read next, its command comes to its end, if there is memory
for the file that it may make. -/
theorem shell_session (hinit : s₀.procInit idle = some s₁)
    (hrun : Run.run Sys.step (Sys.start s₁) ops = some s) (hp : s.Runs p) (d : Devices)
    (keys : List KeyOp) (sh : Shell) :
    ∃ s₂, (⟨s.fs, s.pcb p, typedOn d keys⟩ : Session).welcome = some s₂
      ∧ ∀ rounds turns sh' s', shellMain sh s₂ rounds = some (turns, sh', s') →
        (∀ u ∈ turns, ∀ c ∈ u.call, Acceptable c) →
        (∃ (calls : List SysOp) (t : Sys),
          Run.run Sys.step s (calls.map fun c => (p, c)) = some t ∧ t.fs = s'.fs ∧ t.pcb p = s'.cur
            ∧ ∀ q, q ≠ p → t.pcb q = s.pcb q)
        ∧ s'.cur.fdTable = (s.pcb p).fdTable
        ∧ (∀ f, (s.fs.globalFileTable f).refCount ≠ 0 →
          s'.fs.globalFileTable f = s.fs.globalFileTable f)
        ∧ (∀ f, (s.fs.globalFileTable f).refCount = 0 → (s'.fs.globalFileTable f).refCount = 0)
        ∧ ∀ r t, s'.readLine sh' r = some t → (∀ c ∈ sh'.call r.stray t.keys, Acceptable c) →
          (∀ c ∈ sh'.call r.stray t.keys, Makes c → r.env.mem = true) →
          (t.session.answer r.env (sh'.call r.stray t.keys)).isSome := by
  obtain ⟨hI, hok⟩ := Sys.reached_ok hinit hrun hp
  obtain ⟨hkeys, hordered⟩ := typedOn_keys d keys s.fs (s.pcb p)
  obtain ⟨s₂, hwelcome, hran⟩ := welcome_ends (s := ⟨s.fs, s.pcb p, typedOn d keys⟩) hok
  have hok₂ : s₂.Ok := hran.ok hok
  have hkeys₂ := hran.keeps hkeys
  refine ⟨s₂, hwelcome, fun rounds turns sh' s' hmain hgood => ?_⟩
  obtain ⟨q, hplayed⟩ := shellMain_played rounds hok₂ hkeys₂ hordered hmain hgood
  have hok' : s'.Ok := Ramfs.Calls.ok hplayed.calls hok₂
  obtain ⟨calls, t, hcalls, -, -, -, ht, hothers⟩ :=
    Sys.calls_run hI hp (hran.calls.trans hplayed.calls)
  obtain ⟨htfs, htpcb⟩ := Prod.mk.inj ht
  have htidy := hran.tidy.trans hplayed.tidy
  refine ⟨⟨calls, t, hcalls, htfs, htpcb, hothers⟩, htidy.fds, htidy.kept, htidy.free, ?_⟩
  intro r t hline hacc hmem
  obtain ⟨q', hreads⟩ := readLine_reads hok' hplayed.keys hplayed.ordered hline
  have hokt : t.session.Ok := by
    rw [Ok, hreads.fs, hreads.cur]
    exact hok'
  exact (answer_ends hokt r.env hacc).1 hmem

/-- A console of 25 rows and 80 columns, and nothing typed. -/
def blankDevices : Devices := ⟨Keyboard.init, ⟨fun _ _ => 0, 0, 0, 0, 25, 80, fun _ _ => 32⟩⟩

/-- `mkdir a` comes in one by one, `cd a` while the shell is busy, with a poll in vain. -/
def mkdirRounds : List Round :=
  [⟨[[0x32], [0x25], [], [0x20], [0x17], [0x13], [0x39], [0x1E], [0x1C]], ⟨true, fun _ => 0⟩,
      fun _ => []⟩,
    ⟨[[0x2E, 0x20, 0x39, 0x1E, 0x1C], [], [], [], []], ⟨true, fun _ => 0⟩, fun _ => []⟩]

def mkdirTurns : List Turn :=
  [⟨ascii "mkdir a\n", some ⟨ascii "mkdir", [some (ascii "a")]⟩⟩,
    ⟨ascii "cd a\n", some ⟨ascii "cd", [some (ascii "a")]⟩⟩]

theorem mkdirTurns_acceptable : ∀ u ∈ mkdirTurns, ∀ c ∈ u.call, Acceptable c := by
  have hshort : ShortArg (some (ascii "a")) := shortArg_some _ (by decide)
  intro u hu c hc
  rcases List.mem_pair.mp hu with rfl | rfl <;> obtain rfl := Option.some.inj hc
  · exact ⟨by decide, List.forall_mem_singleton.mpr hshort⟩
  · exact ⟨by decide, List.forall_mem_singleton.mpr hshort⟩

theorem mkdirSession_eval :
    ∃ s₁ s s₂ sh' s', Sched.boot.procInit 1 = some s₁
      ∧ Run.run Sys.step (Sys.start s₁)
        [(1, .createUserProcess [] (ProcSys.attemptAt 2))] = some s ∧ s.Runs 2
      ∧ (⟨s.fs, s.pcb 2, typedOn blankDevices []⟩ : Session).welcome = some s₂
      ∧ shellMain Shell.start s₂ mkdirRounds = some (mkdirTurns, sh', s')
      ∧ s'.cur.cwdInode = 7 := by
  have h : ((Sched.boot.procInit 1).bind fun s => Run.run Sys.step (Sys.start s)
      [(1, .createUserProcess [] (ProcSys.attemptAt 2))]).map (fun s => (decide (s.Runs 2),
        ((⟨s.fs, s.pcb 2, typedOn blankDevices []⟩ : Session).welcome.bind fun s =>
          shellMain Shell.start s mkdirRounds).map fun r => (r.1, r.2.2.cur.cwdInode)))
      = some (true, some (mkdirTurns, 7)) := by
    decide +kernel
  obtain ⟨s₁, s, h₁, hr, he⟩ := Run.exists_of_eval h
  simp only [Prod.mk.injEq, decide_eq_true_eq] at he
  obtain ⟨hp, hmain⟩ := he
  obtain ⟨⟨turns, sh', s'⟩, hmain, he⟩ := Option.map_eq_some_iff.mp hmain
  obtain ⟨s₂, hwelcome, hmain⟩ := Option.bind_eq_some_iff.mp hmain
  obtain ⟨rfl, hcwd⟩ := Prod.mk.inj he
  exact ⟨s₁, s, s₂, sh', s', h₁, hr, hp, hwelcome, hmain, hcwd⟩

theorem shell_session_mkdir :
    ∃ s₁ s s₂ s', Sched.boot.procInit 1 = some s₁
      ∧ Run.run Sys.step (Sys.start s₁)
        [(1, .createUserProcess [] (ProcSys.attemptAt 2))] = some s
      ∧ (∃ sh', shellMain Shell.start s₂ mkdirRounds = some (mkdirTurns, sh', s'))
      ∧ s'.cur.cwdInode = 7 ∧ s'.cur.fdTable = (s.pcb 2).fdTable
      ∧ ∃ (calls : List SysOp) (t : Sys),
        Run.run Sys.step s (calls.map fun c => (2, c)) = some t ∧ t.fs = s'.fs
          ∧ t.pcb 2 = s'.cur := by
  obtain ⟨s₁, s, s₂, sh', s', h₁, hr, hp, hwelcome, hmain, hcwd⟩ := mkdirSession_eval
  obtain ⟨s₃, hs₃, hall⟩ := shell_session h₁ hr hp blankDevices [] Shell.start
  obtain rfl := Option.some.inj (hwelcome.symm.trans hs₃)
  obtain ⟨⟨calls, t, hcalls, hfs, hpcb, -⟩, hfds, -⟩ :=
    hall mkdirRounds mkdirTurns sh' s' hmain mkdirTurns_acceptable
  exact ⟨s₁, s, s₂, s', h₁, hr, ⟨sh', hmain⟩, hcwd, hfds, calls, t, hcalls, hfs, hpcb⟩

/-- Between the lines no key is lost, read twice or given to another line: the characters accepted
since the boot are those read before the shell, the keys of its lines one behind the other, and
those that wait. -/
theorem shell_keys_in_order (hinit : s₀.procInit idle = some s₁)
    (hrun : Run.run Sys.step (Sys.start s₁) ops = some s) (hp : s.Runs p) (d : Devices)
    (keys : List KeyOp) (sh sh' : Shell) {s₂ s' : Session} {rounds : List Round} {turns : List Turn}
    (hwelcome : (⟨s.fs, s.pcb p, typedOn d keys⟩ : Session).welcome = some s₂)
    (hmain : shellMain sh s₂ rounds = some (turns, sh', s'))
    (hgood : ∀ u ∈ turns, ∀ c ∈ u.call, Acceptable c) :
    ∃ (used : List (List (List UInt8))) (q q' : KeyQueue),
      List.Forall₂ (fun polls r => polls <+: r.polls) used rounds
        ∧ q = keys.foldl KeyQueue.step (.empty d.keyboard.gShift)
        ∧ q' = (keyOps used.flatten).foldl KeyQueue.step q
        ∧ q'.accepted = q.results.filter (· ≠ 0) ++ (turns.map Turn.keys).flatten ++ q'.waiting
        ∧ s'.dev.keyboard.waiting = q'.waiting
        ∧ ∀ u ∈ turns, LineFrom maxCmdLen 0 u.keys := by
  obtain ⟨hI, hok⟩ := Sys.reached_ok hinit hrun hp
  obtain ⟨hkeys, hordered⟩ := typedOn_keys d keys s.fs (s.pcb p)
  obtain ⟨s₂', hwelcome', hran⟩ := welcome_ends (s := ⟨s.fs, s.pcb p, typedOn d keys⟩) hok
  obtain rfl := Option.some.inj (hwelcome.symm.trans hwelcome')
  obtain ⟨q', hplayed⟩ :=
    shellMain_played rounds (hran.ok hok) (hran.keeps hkeys) hordered hmain hgood
  obtain ⟨used, hused, hq'⟩ := hplayed.used
  obtain ⟨read, hread, hlines⟩ := hplayed.read
  refine ⟨used, _, q', hused, rfl, hq', ?_, hplayed.keys.waiting, hplayed.lines⟩
  rw [hplayed.ordered.accepted, hread, List.filter_append, hlines]

theorem shell_keys_in_order_mkdir :
    ∃ (used : List (List (List UInt8))) (q' : KeyQueue),
      List.Forall₂ (fun polls r => polls <+: r.polls) used mkdirRounds
        ∧ q' = (keyOps used.flatten).foldl KeyQueue.step (.empty false)
        ∧ q'.accepted = ascii "mkdir a\ncd a\n" ++ q'.waiting := by
  obtain ⟨s₁, s, s₂, sh', s', h₁, hr, hp, hwelcome, hmain, -⟩ := mkdirSession_eval
  obtain ⟨used, q, q', hused, rfl, rfl, hacc, -⟩ := shell_keys_in_order h₁ hr hp blankDevices []
    Shell.start sh' hwelcome hmain mkdirTurns_acceptable
  exact ⟨used, _, hused, rfl, hacc⟩

end Reached

end Session

end SudoOS
