import SudoOS.Proofs.Proc

/-!
# Giving up the processor

`SYS_YIELD` is a plain call of `schedule`, which turns the ready queue only when the caller's slice
has run out (`schedule_yields_iff`). A step never ends with the slice of the current process run
out: the timer callback calls the scheduler itself at that moment, and a process is dispatched with
a full slice. So a process that asks for the next one to run is always told to go on
(`yield_keeps_running`).
-/

namespace SudoOS

namespace Sched

/-- From `s`, the current process gave way to `q` and went behind the others in the queue. -/
structure Yields (s s' : Sched) (q : ℕ) (rest : List ℕ) : Prop where
  current : s'.currentProc = q
  running : s'.state q = .running
  queue : s'.readyQueue = rest ++ [s.currentProc]
  ready : s'.state s.currentProc = .ready

section Queue

variable {s : Sched} {q : ℕ} {rest : List ℕ}

/-- Whoever yields is no longer the current process. -/
theorem Yields.moves {s' : Sched} (h : Yields s s' q rest) (hc : s.currentProc ∉ s.readyQueue)
    (hq : s.readyQueue = q :: rest) : s'.currentProc ≠ s.currentProc := by
  rw [h.current]
  rintro rfl
  exact hc (hq ▸ List.mem_cons_self)

/-- The rotation takes place exactly when nothing of the slice remains. -/
theorem schedule_yields_iff (hc : s.currentProc ∉ s.readyQueue)
    (hrun : s.state s.currentProc = .running) (hi : s.currentProc ≠ s.idleProc)
    (hq : s.readyQueue = q :: rest) :
    Yields s s.schedule q rest ↔ s.slice s.currentProc ≤ 0 := by
  rcases schedule_cases hc with
    ⟨-, -, ⟨hpos, he⟩ | ⟨-, hnil, -⟩ | ⟨hs, q', rest', hq', hh⟩⟩ | ⟨hst, -⟩
  · refine ⟨fun h => absurd (congrArg currentProc he) (h.moves hc hq), fun hs => ?_⟩
    omega
  · simp [hq] at hnil
  · rw [hq, List.cons.injEq] at hq'
    obtain ⟨rfl, rfl⟩ := hq'
    have hne : s.currentProc ≠ q := by
      rintro rfl
      exact hc (hq ▸ List.mem_cons_self)
    refine ⟨fun _ => hs, fun _ => ⟨hh.current, hh.running, hh.queue, ?_⟩⟩
    calc s.schedule.state s.currentProc
        = (s.restart .ready).state s.currentProc :=
          congrArg Pcb.procState (hh.others _ hne)
      _ = .ready := restart_state_current s .ready
  · exact absurd hst (by simp [hrun, hi])

end Queue

/-- In every reachable state, the yield of a running process other than the idle one changes
nothing, whoever waits. -/
theorem yield_keeps_running (s₀ : Sched) (idle : ℕ) (ops : List Op) {s₁ s : Sched}
    (hinit : s₀.procInit idle = some s₁) (h : Run.run step s₁ ops = some s)
    (hrun : s.state s.currentProc = .running) (hi : s.currentProc ≠ s.idleProc)
    {q : ℕ} {rest : List ℕ} (hq : s.readyQueue = q :: rest) :
    s.step .yield = some s ∧ ¬ Yields s s.schedule q rest := by
  have hI : QueueInv s := Run.run_invariant step_queueInv (procInit_queueInv hinit).1 h
  have hpos := hI.slice_pos
  refine ⟨?_, ?_⟩
  · rcases schedule_cases hI.current with ⟨-, -, ⟨-, he⟩ | ⟨hs, -⟩ | ⟨hs, -⟩⟩ | ⟨hst, -⟩
    · exact congrArg some he
    · omega
    · omega
    · exact absurd hst (by simp [hrun, hi])
  · rw [schedule_yields_iff hI.current hrun hi hq]
    omega

theorem yield_keeps_running_boot :
    ∃ s₁ s, boot.procInit 1 = some s₁ ∧ Run.run step s₁ forkOps = some s
      ∧ s.step .yield = some s ∧ ¬ Yields s s.schedule 3 [] :=
  ⟨_, _, rfl, rfl, yield_keeps_running boot 1 forkOps rfl rfl (by decide) (by decide) rfl⟩

/-- The child of a first process waits, the parent yields with nine tenths of its slice left and
goes on. -/
theorem yield_not_rotating :
    ¬ ∀ (s₀ : Sched) (idle : ℕ) (ops : List Op) (s₁ s : Sched),
      s₀.procInit idle = some s₁ → Run.run step s₁ ops = some s →
      s.state s.currentProc = .running → s.currentProc ≠ s.idleProc →
      ∀ q rest, s.readyQueue = q :: rest → Yields s s.schedule q rest := by
  intro hall
  have h := hall boot 1 forkOps _ _ rfl rfl (by decide) (by decide) 3 [] rfl
  have hcur : (3 : ℕ) = 2 := h.current.symm
  exact absurd hcur (by decide)

end Sched

end SudoOS
