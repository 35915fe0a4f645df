import SudoOS.Proofs.Proc

/-!
# Taking turns

The current process and the ready queue form a line along which the processor is passed: a step
leaves it with the current process or gives it to the head of the queue, and whoever becomes ready
stands behind the others (`step_passes`). With every tick the process that waits comes nearer, so
it is dispatched, after those in front of it and before all others, within a slice for each of them
(`dispatched_in_turn`).
-/

namespace SudoOS

namespace Sched

/-- The processor has been passed along the line, and others may have come behind it. -/
def InLine (line : List ℕ) (s : Sched) : Prop :=
  ∃ gone rest new, line = gone ++ s.currentProc :: rest ∧ s.readyQueue = rest ++ new

def tickOf (op : Op) : ℤ := if op = .tick then 1 else 0

/-- The head of the queue has the processor, with a full slice. -/
def Passed (s s' : Sched) : Prop :=
  ∃ q rest new, s.readyQueue = q :: rest ∧ s'.currentProc = q ∧ s'.readyQueue = rest ++ new
    ∧ s'.slice q = timeSliceDefault

/-- The current process has kept the processor, and `n` ticks of its slice are gone. -/
def Stayed (n : ℤ) (s s' : Sched) : Prop :=
  s'.currentProc = s.currentProc ∧ (∃ new, s'.readyQueue = s.readyQueue ++ new)
    ∧ s'.slice s.currentProc = s.slice s.currentProc - n

theorem Hands.passed {s s' t : Sched} {q : ℕ} {rest new : List ℕ} (h : Hands t s' q (rest ++ new))
    (hq : s.readyQueue = q :: rest) : s'.state s'.currentProc = .running ∧ Passed s s' :=
  ⟨h.current ▸ h.running, q, rest, new, hq, h.current, h.queue, h.slice⟩

theorem schedule_passes {s : Sched} (h : Queued s) (hq : s.readyQueue ≠ []) :
    (s.schedule = s ∧ s.state s.currentProc = .running)
      ∨ (s.schedule.state s.schedule.currentProc = .running ∧ Passed s s.schedule) := by
  rcases schedule_cases h.current with ⟨hr, -, ⟨-, he⟩ | ⟨-, hnil, -⟩ | ⟨-, q, rest, hqr, hh⟩⟩
    | ⟨-, ⟨hnil, -⟩ | ⟨q, rest, hqr, hh⟩⟩
  · exact .inl ⟨he, hr⟩
  · exact absurd hnil hq
  · exact .inr (hh.passed hqr)
  · exact absurd hnil hq
  · exact .inr (@Hands.passed s _ s q rest [] (by simpa using hh) hqr)

theorem step_passes {s s' : Sched} {op : Op} (hI : QueueInv s)
    (hr : s.state s.currentProc = .running) (hq : s.readyQueue ≠ []) (h : s.step op = some s') :
    s'.state s'.currentProc = .running ∧ (Stayed (tickOf op) s s' ∨ Passed s s') := by
  rcases step_cases h with
    ⟨t, addr, f, ht, hf, -, rfl, hop⟩ | ⟨rfl, rfl⟩ | ⟨rfl, rfl⟩ | ⟨code, rfl, hi, rfl⟩
  · have hne : s.currentProc ≠ addr := by
      rintro rfl
      exact hf.2 hI.currentListed
    have hpcb : ((t.newPcb addr f).enlist addr).pcbs s.currentProc = s.pcbs s.currentProc := by
      rcases ht with rfl | ⟨g, rfl⟩ <;> exact Function.update_of_ne hne _ _
    have hcur : t.currentProc = s.currentProc ∧ t.readyQueue = s.readyQueue := by
      rcases ht with rfl | ⟨g, rfl⟩ <;> exact ⟨rfl, rfl⟩
    refine ⟨?_, .inl ⟨hcur.1, ⟨[addr], congrArg (· ++ [addr]) hcur.2⟩, ?_⟩⟩
    · show (((t.newPcb addr f).enlist addr).pcbs t.currentProc).procState = .running
      rw [hcur.1, hpcb]
      exact hr
    · simp only [Sched.slice, hpcb, tickOf, if_neg hop, sub_zero]
  · have hcs := charge_slice s
    have hcr : s.charge.state s.currentProc = .running := (charge_state s _).trans hr
    rcases timerCallback_cases (hI.nonzero _ hI.currentListed)
      with ⟨hn, -⟩ | ⟨-, -, he⟩ | ⟨-, -, he⟩
    · exact absurd hr hn
    · rw [he]
      exact ⟨hcr, .inl ⟨rfl, ⟨[], (List.append_nil _).symm⟩, hcs⟩⟩
    · rw [he]
      rcases schedule_passes hI.charge hq with ⟨hs, -⟩ | ⟨hrun, hp⟩
      · rw [hs]
        exact ⟨hcr, .inl ⟨rfl, ⟨[], (List.append_nil _).symm⟩, hcs⟩⟩
      · exact ⟨hrun, .inr hp⟩
  · rcases schedule_passes hI.toQueued hq with ⟨hs, -⟩ | ⟨hrun, hp⟩
    · rw [hs]
      exact ⟨hr, .inl ⟨rfl, ⟨[], (List.append_nil _).symm⟩, by simp [tickOf]⟩⟩
    · exact ⟨hrun, .inr hp⟩
  · rcases schedule_passes (hI.exited hi code) hq with ⟨-, hz⟩ | ⟨hrun, hp⟩
    · have := (exited_state_current s code).symm.trans hz
      cases this
    · exact ⟨hrun, .inr hp⟩

/-! ## Waiting -/

/-- `p` stands in the line and waits for at most `n` ticks. -/
structure Waiting (line : List ℕ) (p : ℕ) (n : ℤ) (s : Sched) : Prop extends QueueInv s where
  running : s.state s.currentProc = .running
  place : ∃ gone pre post new, line = gone ++ s.currentProc :: (pre ++ p :: post)
    ∧ s.readyQueue = pre ++ p :: post ++ new
    ∧ s.slice s.currentProc + timeSliceDefault * pre.length ≤ n

theorem Waiting.inLine {line : List ℕ} {p : ℕ} {n : ℤ} {s : Sched} (h : Waiting line p n s) :
    InLine line s := by
  obtain ⟨gone, pre, post, new, hline, hqueue, -⟩ := h.place
  exact ⟨gone, pre ++ p :: post, new, hline, hqueue⟩

theorem Waiting.pos {line : List ℕ} {p : ℕ} {n : ℤ} {s : Sched} (h : Waiting line p n s) :
    0 < n := by
  obtain ⟨gone, pre, post, new, -, -, hn⟩ := h.place
  have := h.slice_pos
  unfold timeSliceDefault at hn
  omega

theorem Waiting.step {line : List ℕ} {p : ℕ} {n : ℤ} {s s' : Sched} {op : Op}
    (h : Waiting line p n s) (hs : s.step op = some s') :
    (s'.currentProc = p ∧ InLine line s') ∨ Waiting line p (n - tickOf op) s' := by
  have hI' := step_queueInv s op s' h.toQueueInv hs
  have hpos := h.slice_pos
  have htick : tickOf op ≤ 1 := by
    unfold tickOf
    split_ifs <;> decide
  obtain ⟨gone, pre, post, new, hline, hqueue, hn⟩ := h.place
  obtain ⟨hr, ⟨hcur, ⟨new', hq'⟩, hsl⟩ | ⟨q, rest, new', hq, hcur, hq', hsl⟩⟩ :=
    step_passes h.toQueueInv h.running (by simp [hqueue]) hs
  · refine .inr ⟨hI', hr, gone, pre, post, new ++ new', ?_, ?_, ?_⟩
    · rw [hcur, hline]
    · rw [hq', hqueue, List.append_assoc]
    · rw [hcur, hsl]
      omega
  · rw [hqueue] at hq
    rcases pre with _ | ⟨q₀, pre⟩
    · simp only [List.nil_append, List.cons_append, List.cons.injEq] at hq
      obtain ⟨rfl, rfl⟩ := hq
      refine .inl ⟨hcur, gone ++ [s.currentProc], post, new ++ new', ?_, ?_⟩
      · simp [hline, hcur]
      · rw [hq', List.append_assoc]
    · simp only [List.cons_append, List.cons.injEq] at hq
      obtain ⟨rfl, rfl⟩ := hq
      refine .inr ⟨hI', hr, gone ++ [s.currentProc], pre, post, new ++ new', ?_, ?_, ?_⟩
      · simp [hline, hcur]
      · rw [hq']
        simp
      · rw [hcur, hsl]
        simp only [List.length_cons, timeSliceDefault] at hn ⊢
        push_cast at hn
        omega

/-- By induction on the steps; each tick takes one from what is left to wait. -/
theorem Waiting.run {line : List ℕ} {p : ℕ} : ∀ {ops : List Op} {n : ℤ} {s t : Sched},
    Waiting line p n s → Run.run Sched.step s ops = some t → n ≤ ops.count .tick →
      ∃ before after u, ops = before ++ after ∧ Run.run Sched.step s before = some u
        ∧ u.currentProc = p
        ∧ ∀ pre v, pre <+: before → Run.run Sched.step s pre = some v → InLine line v
  | [], n, s, t, h, _, hn => by
    have := h.pos
    simp at hn
    omega
  | op :: ops, n, s, t, h, hrun, hn => by
    obtain ⟨s', hs, hrun'⟩ := Run.run_cons hrun
    -- The states passed on the way are `s` and those passed from `s'` on.
    have hfrom : ∀ {before : List Op}, (∀ pre v, pre <+: before →
        Run.run Sched.step s' pre = some v → InLine line v) →
        ∀ pre v, pre <+: op :: before → Run.run Sched.step s pre = some v → InLine line v := by
      intro before hall pre v hpre hv
      rcases pre with _ | ⟨op', pre⟩
      · exact Option.some.inj hv ▸ h.inLine
      · obtain ⟨rfl, hpre'⟩ := List.cons_prefix_cons.mp hpre
        obtain ⟨s'', hs'', hv'⟩ := Run.run_cons hv
        obtain rfl := Option.some.inj (hs.symm.trans hs'')
        exact hall pre v hpre' hv'
    rcases h.step hs with ⟨hp, hl⟩ | hw
    · refine ⟨[op], ops, s', rfl, by simp [Run.run, hs], hp, hfrom fun pre v hpre hv => ?_⟩
      obtain rfl := List.prefix_nil.mp hpre
      exact Option.some.inj hv ▸ hl
    · have hn' : n - tickOf op ≤ ops.count .tick := by
        rw [List.count_cons] at hn
        unfold tickOf
        by_cases hop : op = .tick <;> simp [hop] at hn ⊢ <;> omega
      obtain ⟨before, after, u, rfl, hu, hp, hall⟩ := Waiting.run hw hrun' hn'
      exact ⟨op :: before, after, u, rfl, by simp [Run.run, hs, hu], hp, hfrom hall⟩

/-- A process with `pre` in front of it in the queue is dispatched within the rest of the current
slice and a full one for each of them, whatever else is created, yields or exits on the way; until
then the processor is passed along the line. -/
theorem dispatched_in_turn (s₀ : Sched) (idle : ℕ) (ops more : List Op) {s₁ s t : Sched}
    (hinit : s₀.procInit idle = some s₁) (h : Run.run step s₁ ops = some s)
    (hr : s.state s.currentProc = .running) {p : ℕ} {pre post : List ℕ}
    (hq : s.readyQueue = pre ++ p :: post) (hmore : Run.run step s more = some t)
    (hticks : s.slice s.currentProc + timeSliceDefault * pre.length ≤ more.count .tick) :
    ∃ before after u, more = before ++ after ∧ Run.run step s before = some u
      ∧ u.currentProc = p
      ∧ ∀ c v, c <+: before → Run.run step s c = some v →
        InLine (s.currentProc :: s.readyQueue) v := by
  have hI : QueueInv s := Run.run_invariant step_queueInv (procInit_queueInv hinit).1 h
  have hw : Waiting (s.currentProc :: s.readyQueue) p
      (s.slice s.currentProc + timeSliceDefault * pre.length) s :=
    ⟨hI, hr, [], pre, post, [], by rw [hq, List.nil_append], by rw [hq, List.append_nil], le_rfl⟩
  exact hw.run hmore hticks

/-- Two processes wait while a third one runs. -/
theorem dispatched_in_turn_boot :
    ∃ s₁ s, boot.procInit 1 = some s₁
      ∧ Run.run step s₁ [.createUserProcess [] (grantAt 2), .yield, .sysFork (grantAt 3),
        .sysFork (grantAt 4)] = some s
      ∧ ∃ before after u, List.replicate 20 Op.tick = before ++ after
        ∧ Run.run step s before = some u ∧ u.currentProc = 4 := by
  refine ⟨_, _, rfl, rfl, ?_⟩
  obtain ⟨before, after, u, hm, hu, hp, -⟩ := dispatched_in_turn boot 1
    [.createUserProcess [] (grantAt 2), .yield, .sysFork (grantAt 3), .sysFork (grantAt 4)]
    (List.replicate 20 .tick) rfl rfl (by decide) (show _ = [3] ++ 4 :: [] from rfl) rfl (by decide)
  exact ⟨before, after, u, hm, hu, hp⟩

end Sched

end SudoOS
