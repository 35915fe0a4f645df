import SudoOS.Proc
import SudoOS.Lib.Run

/-!
# What the scheduler keeps

`schedule` does one of four things (`schedule_cases`): it leaves a process with a slice left alone,
puts an expired one behind the others and runs the head of the queue, moves on from one that no
longer runs, or, when the expired process is alone, takes it off the queue again without marking it
as running. The ready queue is sound after each of them (`ready_queue_sound`). The last one leaves
a current process that the timer no longer counts and that the next yield drops: no process is lost
in exactly the runs that never take it (`no_process_lost`), and a running process is preempted
within its slice (`preempted_within_slice`).
-/

namespace SudoOS

namespace Sched

section Modify

variable (s : Sched) (p : ℕ) (f : Pcb → Pcb)

@[simp] theorem modify_procList : (s.modify p f).procList = s.procList := rfl

@[simp] theorem modify_readyQueue : (s.modify p f).readyQueue = s.readyQueue := rfl

@[simp] theorem modify_currentProc : (s.modify p f).currentProc = s.currentProc := rfl

@[simp] theorem modify_idleProc : (s.modify p f).idleProc = s.idleProc := rfl

@[simp] theorem modify_pcbs_self : (s.modify p f).pcbs p = f (s.pcbs p) :=
  Function.update_self ..

theorem modify_pcbs_of_ne {q : ℕ} (h : q ≠ p) : (s.modify p f).pcbs q = s.pcbs q :=
  Function.update_of_ne h ..

end Modify

/-! ## What a call to the scheduler does -/

/-- From `s`, `next` was made the current process and `rest` the ready queue. -/
structure Hands (s s' : Sched) (next : ℕ) (rest : List ℕ) : Prop where
  current : s'.currentProc = next
  queue : s'.readyQueue = rest
  list : s'.procList = s.procList
  idle : s'.idleProc = s.idleProc
  running : s'.state next = .running
  slice : s'.slice next = timeSliceDefault
  others : ∀ p, p ≠ next → s'.pcbs p = s.pcbs p

theorem switchTo_self {s : Sched} {next : ℕ} (h : s.currentProc = next) : s.switchTo next = s :=
  if_pos h

theorem switchTo_hands {s : Sched} {next : ℕ} (h : s.currentProc ≠ next) :
    Hands s (s.switchTo next) next s.readyQueue := by
  unfold switchTo
  rw [if_neg h]
  exact ⟨rfl, rfl, rfl, rfl, by simp [state], by simp [Sched.slice],
    fun p hp => Function.update_of_ne hp _ _⟩

theorem dispatch_nil {s : Sched} (h : s.readyQueue = []) :
    Hands s s.dispatch s.idleProc [] := by
  unfold dispatch
  rw [h]
  dsimp only
  by_cases hc : s.currentProc = s.idleProc
  · rw [switchTo_self (by exact hc)]
    exact ⟨hc, h, rfl, rfl, by simp [state], by simp [Sched.slice],
      fun p hp => modify_pcbs_of_ne s _ _ hp⟩
  · obtain ⟨h1, h2, h3, h4, h5, h6, h7⟩ := switchTo_hands (s := s.modify s.idleProc fun p =>
      { p with procState := .running, timeSlice := timeSliceDefault }) hc
    exact ⟨h1, h2.trans h, h3, h4, h5, h6,
      fun p hp => (h7 p hp).trans (modify_pcbs_of_ne s _ _ hp)⟩

theorem dispatch_cons {s : Sched} {q : ℕ} {rest : List ℕ} (h : s.readyQueue = q :: rest)
    (hq : s.currentProc ≠ q) : Hands s s.dispatch q rest := by
  unfold dispatch
  rw [h]
  obtain ⟨h1, h2, h3, h4, h5, h6, h7⟩ := switchTo_hands (s := { s with readyQueue := rest }) hq
  exact ⟨h1, h2, h3, h4, h5, h6, h7⟩

/-- The current process given a full slice and marked as `st`. -/
def restart (s : Sched) (st : ProcState) : Sched :=
  s.modify s.currentProc fun p => { p with procState := st, timeSlice := timeSliceDefault }

/-- What `schedule` can do with a current process that is not in the queue. -/
theorem schedule_cases {s : Sched} (hc : s.currentProc ∉ s.readyQueue) :
    (s.state s.currentProc = .running ∧ s.currentProc ≠ s.idleProc
        ∧ ((0 < s.slice s.currentProc ∧ s.schedule = s)
          ∨ (s.slice s.currentProc ≤ 0 ∧ s.readyQueue = [] ∧ s.schedule = s.restart .ready)
          ∨ (s.slice s.currentProc ≤ 0 ∧ ∃ q rest, s.readyQueue = q :: rest
            ∧ Hands (s.restart .ready) s.schedule q (rest ++ [s.currentProc]))))
      ∨ ((s.state s.currentProc ≠ .running ∨ s.currentProc = s.idleProc)
        ∧ ((s.readyQueue = [] ∧ Hands s s.schedule s.idleProc [])
          ∨ ∃ q rest, s.readyQueue = q :: rest ∧ Hands s s.schedule q rest)) := by
  by_cases hr : s.state s.currentProc = .running ∧ s.currentProc ≠ s.idleProc
  · refine .inl ⟨hr.1, hr.2, ?_⟩
    unfold schedule
    rw [if_pos hr]
    by_cases hs : s.slice s.currentProc ≤ 0
    · rw [if_pos hs]
      rcases hq : s.readyQueue with _ | ⟨q, rest⟩
      · refine .inr (.inl ⟨hs, rfl, ?_⟩)
        have hreq : s.requeue.readyQueue = [s.currentProc] := by simp [requeue, hq]
        unfold dispatch
        rw [hreq]
        unfold switchTo
        simp only [requeue, restart, modify_currentProc, ↓reduceIte, modify_readyQueue, hq,
          List.nil_append]
        simp only [modify, hq]
      · refine .inr (.inr ⟨hs, q, rest, rfl, ?_⟩)
        have hreq : s.requeue.readyQueue = q :: (rest ++ [s.currentProc]) := by simp [requeue, hq]
        have hne : s.requeue.currentProc ≠ q := by
          rintro rfl
          exact hc (hq ▸ List.mem_cons_self)
        obtain ⟨h1, h2, h3, h4, h5, h6, h7⟩ := dispatch_cons hreq hne
        exact ⟨h1, h2, h3, h4, h5, h6, h7⟩
    · rw [if_neg hs]
      exact .inl ⟨not_le.mp hs, rfl⟩
  · refine .inr ⟨by tauto, ?_⟩
    unfold schedule
    rw [if_neg hr]
    rcases hq : s.readyQueue with _ | ⟨q, rest⟩
    · exact .inl ⟨rfl, dispatch_nil hq⟩
    · refine .inr ⟨q, rest, rfl, dispatch_cons hq ?_⟩
      rintro rfl
      exact hc (hq ▸ List.mem_cons_self)

/-! ## The ready queue -/

/-- What `schedule` may assume: the queue is sound, and the slice is at most a full one. -/
structure Queued (s : Sched) : Prop where
  nodup : s.readyQueue.Nodup
  current : s.currentProc ∉ s.readyQueue
  idle : s.idleProc ∉ s.readyQueue
  ready : ∀ p ∈ s.readyQueue, s.state p = .ready
  listed : ∀ p ∈ s.readyQueue, p ∈ s.procList
  currentListed : s.currentProc ∈ s.procList
  idleListed : s.idleProc ∈ s.procList
  idleRunning : s.state s.idleProc = .running
  nonzero : ∀ p ∈ s.procList, p ≠ 0
  slice_le : s.slice s.currentProc ≤ timeSliceDefault

/-- The invariant between steps: besides, the current process lives and has a slice left. -/
structure QueueInv (s : Sched) : Prop extends Queued s where
  alive : s.state s.currentProc ≠ .zombie
  slice_pos : 0 < s.slice s.currentProc

theorem Hands.queueInv {s s' : Sched} {next : ℕ} {rest : List ℕ} (h : Hands s s' next rest)
    (hnodup : (next :: rest).Nodup) (hlisted : ∀ p ∈ next :: rest, p ∈ s.procList)
    (hidle : s.idleProc ∉ rest) (hready : ∀ p ∈ rest, s.state p = .ready)
    (hil : s.idleProc ∈ s.procList) (hir : s.state s.idleProc = .running)
    (hnz : ∀ p ∈ s.procList, p ≠ 0) : QueueInv s' := by
  have hne : ∀ p ∈ rest, p ≠ next := by
    rintro p hp rfl
    exact (List.nodup_cons.mp hnodup).1 hp
  have hst : ∀ p, p ≠ next → s'.state p = s.state p := fun p hp =>
    congrArg Pcb.procState (h.others p hp)
  refine ⟨⟨?_, ?_, ?_, ?_, ?_, ?_, ?_, ?_, ?_, ?_⟩, ?_, ?_⟩
  · rw [h.queue]
    exact (List.nodup_cons.mp hnodup).2
  · rw [h.current, h.queue]
    exact (List.nodup_cons.mp hnodup).1
  · rw [h.idle, h.queue]
    exact hidle
  · rw [h.queue]
    exact fun p hp => (hst p (hne p hp)).trans (hready p hp)
  · rw [h.queue, h.list]
    exact fun p hp => hlisted p (List.mem_cons_of_mem _ hp)
  · rw [h.current, h.list]
    exact hlisted next List.mem_cons_self
  · rw [h.idle, h.list]
    exact hil
  · rw [h.idle]
    by_cases hc : s.idleProc = next
    · rw [hc]
      exact h.running
    · exact (hst _ hc).trans hir
  · rw [h.list]
    exact hnz
  · rw [h.current, h.slice]
  · rw [h.current, h.running]
    simp
  · rw [h.current, h.slice]
    decide

theorem restart_state_of_ne (s : Sched) (st : ProcState) {p : ℕ} (h : p ≠ s.currentProc) :
    (s.restart st).state p = s.state p :=
  congrArg Pcb.procState (modify_pcbs_of_ne s _ _ h)

theorem restart_state_current (s : Sched) (st : ProcState) :
    (s.restart st).state s.currentProc = st := by
  simp [restart, state]

theorem schedule_queueInv {s : Sched} (h : Queued s) : QueueInv s.schedule := by
  rcases schedule_cases h.current with ⟨hrun, hni, h1 | h1 | h1⟩ | ⟨hst, h1 | h1⟩
  · obtain ⟨hpos, he⟩ := h1
    rw [he]
    exact ⟨h, by rw [hrun]; simp, hpos⟩
  · obtain ⟨-, hq, he⟩ := h1
    have hne : s.idleProc ≠ s.currentProc := Ne.symm hni
    rw [he]
    refine ⟨⟨?_, ?_, ?_, ?_, ?_, h.currentListed, h.idleListed, ?_, h.nonzero, ?_⟩, ?_, ?_⟩
    · simp [restart, hq]
    · simp [restart, hq]
    · simp [restart, hq]
    · simp [restart, hq]
    · simp [restart, hq]
    · exact (restart_state_of_ne s _ hne).trans h.idleRunning
    · simp [restart, slice]
    · simp [restart, state]
    · simp [restart, slice, timeSliceDefault]
  · obtain ⟨-, q, rest, hq, hh⟩ := h1
    have hnd := h.nodup
    have hcur := h.current
    have hidle := h.idle
    rw [hq] at hnd hcur hidle
    simp only [List.mem_cons, not_or] at hcur hidle
    have hsub : ∀ p ∈ rest, p ∈ s.readyQueue := fun p hp => hq ▸ List.mem_cons_of_mem _ hp
    refine hh.queueInv ?_ ?_ ?_ ?_ h.idleListed ?_ h.nonzero
    · rw [← List.cons_append, List.nodup_append]
      refine ⟨hnd, List.nodup_singleton _, fun a ha b hb => ?_⟩
      obtain rfl := List.mem_singleton.mp hb
      rintro rfl
      exact h.current (hq ▸ ha)
    · intro p hp
      rw [← List.cons_append, List.mem_append, List.mem_singleton] at hp
      rcases hp with hp | rfl
      · exact h.listed p (hq ▸ hp)
      · exact h.currentListed
    · rw [List.mem_append, List.mem_singleton]
      rintro (hc | hc)
      · exact hidle.2 hc
      · exact hni hc.symm
    · intro p hp
      rw [List.mem_append, List.mem_singleton] at hp
      rcases hp with hp | rfl
      · refine (restart_state_of_ne s _ ?_).trans (h.ready p (hsub p hp))
        rintro rfl
        exact hcur.2 hp
      · exact restart_state_current s _
    · exact (restart_state_of_ne s _ (Ne.symm hni)).trans h.idleRunning
  · obtain ⟨-, hh⟩ := h1
    exact hh.queueInv (by simp) (by simpa using h.idleListed) (by simp) (by simp) h.idleListed
      h.idleRunning h.nonzero
  · obtain ⟨q, rest, hq, hh⟩ := h1
    have hsub : ∀ p ∈ rest, p ∈ s.readyQueue := fun p hp => hq ▸ List.mem_cons_of_mem _ hp
    exact hh.queueInv (hq ▸ h.nodup) (fun p hp => h.listed p (hq ▸ hp))
      (fun hc => h.idle (hsub _ hc)) (fun p hp => h.ready p (hsub p hp)) h.idleListed
      h.idleRunning h.nonzero

theorem enlist_queueInv {s : Sched} (h : QueueInv s) {addr : ℕ} (h0 : addr ≠ 0)
    (hnew : addr ∉ s.procList) {f : Pcb → Pcb} (hf : (f s.allocNewPcb).procState = .ready) :
    QueueInv ((s.newPcb addr f).enlist addr) := by
  have hne : ∀ p ∈ s.procList, p ≠ addr := by
    rintro p hp rfl
    exact hnew hp
  have hpcb : ∀ p ∈ s.procList, ((s.newPcb addr f).enlist addr).pcbs p = s.pcbs p := fun p hp =>
    Function.update_of_ne (hne p hp) _ _
  have hst : ∀ p ∈ s.procList, ((s.newPcb addr f).enlist addr).state p = s.state p := fun p hp =>
    congrArg Pcb.procState (hpcb p hp)
  have hsl : ((s.newPcb addr f).enlist addr).slice s.currentProc = s.slice s.currentProc :=
    congrArg Pcb.timeSlice (hpcb _ h.currentListed)
  have hmem : ∀ p,
      p ∈ ((s.newPcb addr f).enlist addr).readyQueue ↔ p ∈ s.readyQueue ∨ p = addr := by
    simp [enlist, newPcb]
  refine ⟨⟨?_, ?_, ?_, ?_, ?_, ?_, ?_, ?_, ?_, ?_⟩, ?_, ?_⟩
  · refine h.nodup.append (List.nodup_singleton _) fun p hp hp' => ?_
    exact hne p (h.listed p hp) (List.mem_singleton.mp hp')
  · rw [hmem]
    exact not_or.mpr ⟨h.current, hne _ h.currentListed⟩
  · rw [hmem]
    exact not_or.mpr ⟨h.idle, hne _ h.idleListed⟩
  · intro p hp
    rcases (hmem p).mp hp with hp | rfl
    · exact (hst p (h.listed p hp)).trans (h.ready p hp)
    · exact (congrArg Pcb.procState (Function.update_self _ _ _)).trans hf
  · intro p hp
    rcases (hmem p).mp hp with hp | rfl
    · exact List.mem_cons_of_mem _ (h.listed p hp)
    · exact List.mem_cons_self
  · exact List.mem_cons_of_mem _ h.currentListed
  · exact List.mem_cons_of_mem _ h.idleListed
  · exact (hst _ h.idleListed).trans h.idleRunning
  · intro p hp
    rcases List.mem_cons.mp hp with rfl | hp
    · exact h0
    · exact h.nonzero p hp
  · exact hsl.trans_le h.slice_le
  · exact fun hz => h.alive ((hst _ h.currentListed).symm.trans hz)
  · exact h.slice_pos.trans_eq hsl.symm

/-- The state after a counted tick. -/
def charge (s : Sched) : Sched :=
  modify { s with ticks := u64 (s.ticks + 1) } s.currentProc fun p =>
    { p with totalRuntime := u64 (p.totalRuntime + 1), timeSlice := p.timeSlice - 1 }

theorem charge_state (s : Sched) (p : ℕ) : s.charge.state p = s.state p := by
  by_cases hp : p = s.currentProc
  · subst hp
    simp [charge, state]
  · exact congrArg Pcb.procState (modify_pcbs_of_ne _ _ _ hp)

theorem charge_slice (s : Sched) : s.charge.slice s.currentProc = s.slice s.currentProc - 1 := by
  simp [charge, slice]

theorem timerCallback_cases {s : Sched} (h0 : s.currentProc ≠ 0) :
    (s.state s.currentProc ≠ .running
        ∧ s.timerCallback = { s with ticks := u64 (s.ticks + 1) })
      ∨ (s.state s.currentProc = .running ∧ 1 < s.slice s.currentProc
        ∧ s.timerCallback = s.charge)
      ∨ (s.state s.currentProc = .running ∧ s.slice s.currentProc ≤ 1
        ∧ s.timerCallback = s.charge.schedule) := by
  have hsl := charge_slice s
  unfold timerCallback
  by_cases hr : s.state s.currentProc = .running
  · have hcond : s.currentProc ≠ 0 ∧ s.state s.currentProc = .running := ⟨h0, hr⟩
    by_cases hs : s.slice s.currentProc ≤ 1
    · refine .inr (.inr ⟨hr, hs, ?_⟩)
      refine (if_pos hcond).trans (if_pos ?_)
      exact (show s.charge.slice s.currentProc ≤ 0 by omega)
    · refine .inr (.inl ⟨hr, by omega, ?_⟩)
      refine (if_pos hcond).trans (if_neg ?_)
      exact (show ¬ s.charge.slice s.currentProc ≤ 0 by omega)
  · exact .inl ⟨hr, if_neg fun hc => hr hc.2⟩

theorem QueueInv.ticked {s : Sched} (h : QueueInv s) (n : ℕ) : QueueInv { s with ticks := n } :=
  ⟨⟨h.nodup, h.current, h.idle, h.ready, h.listed, h.currentListed, h.idleListed, h.idleRunning,
    h.nonzero, h.slice_le⟩, h.alive, h.slice_pos⟩

theorem QueueInv.addMm {s : Sched} (h : QueueInv s) (g : Grant) : QueueInv (s.addMm g) :=
  ⟨⟨h.nodup, h.current, h.idle, h.ready, h.listed, h.currentListed, h.idleListed, h.idleRunning,
    h.nonzero, h.slice_le⟩, h.alive, h.slice_pos⟩

theorem QueueInv.charge {s : Sched} (h : QueueInv s) : Queued s.charge where
  nodup := h.nodup
  current := h.current
  idle := h.idle
  ready p hp := (charge_state s p).trans (h.ready p hp)
  listed := h.listed
  currentListed := h.currentListed
  idleListed := h.idleListed
  idleRunning := (charge_state s _).trans h.idleRunning
  nonzero := h.nonzero
  slice_le := by
    have := h.slice_le
    have : s.charge.slice s.currentProc = s.slice s.currentProc - 1 := charge_slice s
    show s.charge.slice s.currentProc ≤ _
    omega

theorem timerCallback_queueInv {s : Sched} (h : QueueInv s) : QueueInv s.timerCallback := by
  rcases timerCallback_cases (h.nonzero _ h.currentListed) with ⟨-, he⟩ | ⟨-, hs, he⟩ | ⟨-, -, he⟩
  · rw [he]
    exact h.ticked _
  · rw [he]
    refine ⟨h.charge, ?_, ?_⟩
    · exact fun hz => h.alive ((charge_state s _).symm.trans hz)
    · have : s.charge.slice s.currentProc = s.slice s.currentProc - 1 := charge_slice s
      show 0 < s.charge.slice s.currentProc
      omega
  · rw [he]
    exact schedule_queueInv h.charge

/-- The current process marked as exited. -/
def exited (s : Sched) (code : ℤ) : Sched :=
  s.modify s.currentProc fun p => { p with procState := .zombie, exitCode := code }

theorem exited_state_of_ne (s : Sched) (code : ℤ) {p : ℕ} (h : p ≠ s.currentProc) :
    (s.exited code).state p = s.state p :=
  congrArg Pcb.procState (modify_pcbs_of_ne s _ _ h)

theorem exited_state_current (s : Sched) (code : ℤ) :
    (s.exited code).state s.currentProc = .zombie := by
  simp [exited, state]

theorem QueueInv.exited {s : Sched} (h : QueueInv s) (hi : s.currentProc ≠ s.idleProc) (code : ℤ) :
    Queued (s.exited code) where
  nodup := h.nodup
  current := h.current
  idle := h.idle
  ready p hp := by
    refine (exited_state_of_ne s code ?_).trans (h.ready p hp)
    rintro rfl
    exact h.current hp
  listed := h.listed
  currentListed := h.currentListed
  idleListed := h.idleListed
  idleRunning := (exited_state_of_ne s code (Ne.symm hi)).trans h.idleRunning
  nonzero := h.nonzero
  slice_le := by
    have : (s.exited code).slice s.currentProc = s.slice s.currentProc := by
      simp [Sched.exited, slice]
    exact this.trans_le h.slice_le

/-! ## Runs -/

/-- The steps of the system. -/
inductive Op
  | kthreadCreate (parent : ℕ) (name : List UInt8) (g : Grant)
  | createUserProcess (name : List UInt8) (g : Grant)
  | sysFork (g : Grant)
  | tick
  | yield
  | exit (code : ℤ)
  deriving Repr, DecidableEq

/-- A PCB that `kmalloc` can return: not one that is in use. -/
def Fresh (s : Sched) (pcb : ℕ) : Prop := pcb ≠ 0 ∧ pcb ∉ s.procList

instance (s : Sched) (pcb : ℕ) : Decidable (s.Fresh pcb) :=
  inferInstanceAs (Decidable (_ ∧ _))

/-- One step. The idle process is `kmain`, which never exits. -/
def step (s : Sched) : Op → Option Sched
  | .kthreadCreate parent name g =>
    if s.Fresh g.pcb then some (s.kthreadCreate parent name g) else none
  | .createUserProcess name g => if s.Fresh g.pcb then some (s.createUserProcess name g) else none
  | .sysFork g => if s.Fresh g.pcb then some (s.sysFork g) else none
  | .tick => some s.timerCallback
  | .yield => some s.schedule
  | .exit code => if s.currentProc ≠ s.idleProc then some (s.exit code) else none

/-- Every creating step enlists a fresh PCB that is ready. -/
theorem step_cases {s s' : Sched} {op : Op} (h : s.step op = some s') :
    (∃ t addr f, (t = s ∨ ∃ g, t = s.addMm g) ∧ s.Fresh addr
        ∧ (f t.allocNewPcb).procState = .ready ∧ s' = (t.newPcb addr f).enlist addr
        ∧ op ≠ .tick)
      ∨ (op = .tick ∧ s' = s.timerCallback)
      ∨ (op = .yield ∧ s' = s.schedule)
      ∨ ∃ code, op = .exit code ∧ s.currentProc ≠ s.idleProc ∧ s' = (s.exited code).schedule := by
  unfold step at h
  cases op with
  | kthreadCreate parent name g =>
    dsimp only at h
    split_ifs at h with hf
    exact .inl ⟨s, g.pcb, _, .inl rfl, hf, rfl, (Option.some.inj h).symm, by simp⟩
  | createUserProcess name g =>
    dsimp only at h
    split_ifs at h with hf
    exact .inl ⟨s.addMm g, g.pcb, _, .inr ⟨g, rfl⟩, hf, rfl, (Option.some.inj h).symm, by simp⟩
  | sysFork g =>
    dsimp only at h
    split_ifs at h with hf
    exact .inl ⟨s.addMm g, g.pcb, _, .inr ⟨g, rfl⟩, hf, rfl, (Option.some.inj h).symm, by simp⟩
  | tick => exact .inr (.inl ⟨rfl, (Option.some.inj h).symm⟩)
  | yield => exact .inr (.inr (.inl ⟨rfl, (Option.some.inj h).symm⟩))
  | exit code =>
    dsimp only at h
    split_ifs at h with hi
    exact .inr (.inr (.inr ⟨code, rfl, hi, (Option.some.inj h).symm⟩))

theorem step_queueInv (s : Sched) (op : Op) (s' : Sched) (hI : QueueInv s)
    (h : s.step op = some s') : QueueInv s' := by
  rcases step_cases h with
    ⟨t, addr, f, ht, hf, hr, rfl, -⟩ | ⟨-, rfl⟩ | ⟨-, rfl⟩ | ⟨code, -, hi, rfl⟩
  · rcases ht with rfl | ⟨g, rfl⟩
    · exact enlist_queueInv hI hf.1 hf.2 hr
    · exact enlist_queueInv (hI.addMm g) hf.1 hf.2 hr
  · exact timerCallback_queueInv hI
  · exact schedule_queueInv hI.toQueued
  · exact schedule_queueInv (hI.exited hi code)

theorem procInit_queueInv {s₀ s : Sched} {idle : ℕ} (h : s₀.procInit idle = some s) :
    QueueInv s ∧ s.procList = [idle] ∧ s.currentProc = idle ∧ s.idleProc = idle
      ∧ s.state idle = .running := by
  unfold procInit at h
  split_ifs at h with h0
  simp only [Option.some.injEq] at h
  subst h
  refine ⟨⟨⟨?_, ?_, ?_, ?_, ?_, ?_, ?_, ?_, ?_, ?_⟩, ?_, ?_⟩, rfl, rfl, rfl, ?_⟩ <;>
    simp [state, slice, newPcb, Pcb.setProcName, allocNewPcb, h0, timeSliceDefault]

/-- The state before `proc_init`. -/
def boot : Sched where
  pcbs _ := ⟨0, 0, 0, 0, 0, 0, .running, [], [], 0, 0⟩
  procList := []
  readyQueue := []
  currentProc := 0
  idleProc := 0
  nextPid := 0
  ticks := 0
  rsp0 := 0
  cr3 := 0
  pml4Pa _ := 0

/-- What the allocators return for the process with its PCB at `pcb`. -/
def grantAt (pcb : ℕ) : Grant := ⟨pcb, pcb + 8, 0x1000, 0x8000⟩

/-- A first process forks. -/
def forkOps : List Op := [.createUserProcess [] (grantAt 2), .yield, .tick, .sysFork (grantAt 3)]

theorem schedule_procList {s : Sched} (hc : s.currentProc ∉ s.readyQueue) :
    s.schedule.procList = s.procList ∧ s.schedule.idleProc = s.idleProc := by
  rcases schedule_cases hc with ⟨-, -, ⟨-, he⟩ | ⟨-, -, he⟩ | ⟨-, q, rest, -, hh⟩⟩
    | ⟨-, ⟨-, hh⟩ | ⟨q, rest, -, hh⟩⟩
  · rw [he]
    exact ⟨rfl, rfl⟩
  · rw [he]
    exact ⟨rfl, rfl⟩
  · exact ⟨hh.list, hh.idle⟩
  · exact ⟨hh.list, hh.idle⟩
  · exact ⟨hh.list, hh.idle⟩

/-- The scheduler does not wake the dead. -/
theorem schedule_zombie {s : Sched} (h : Queued s) {p : ℕ} (hz : s.state p = .zombie) :
    s.schedule.state p = .zombie := by
  have hidle : p ≠ s.idleProc := by
    rintro rfl
    rw [h.idleRunning] at hz
    cases hz
  have hq : p ∉ s.readyQueue := by
    intro hp
    rw [h.ready p hp] at hz
    cases hz
  have hcur : s.state s.currentProc = .running → p ≠ s.currentProc := by
    rintro hr rfl
    rw [hr] at hz
    cases hz
  have hothers : ∀ {t : Sched} {next : ℕ} {rest : List ℕ}, Hands t s.schedule next rest →
      p ≠ next → t.state p = .zombie → s.schedule.state p = .zombie := fun hh hne ht =>
    (congrArg Pcb.procState (hh.others p hne)).trans ht
  rcases schedule_cases h.current with ⟨hr, -, ⟨-, he⟩ | ⟨-, -, he⟩ | ⟨-, q, rest, heq, hh⟩⟩
    | ⟨-, ⟨-, hh⟩ | ⟨q, rest, heq, hh⟩⟩
  · rwa [he]
  · rw [he]
    exact (restart_state_of_ne s _ (hcur hr)).trans hz
  · refine hothers hh ?_ ((restart_state_of_ne s _ (hcur hr)).trans hz)
    rintro rfl
    exact hq (heq ▸ List.mem_cons_self)
  · exact hothers hh hidle hz
  · refine hothers hh ?_ hz
    rintro rfl
    exact hq (heq ▸ List.mem_cons_self)

/-- A process that has exited. -/
def Exited (s : Sched) (p : ℕ) : Prop := p ∈ s.procList ∧ s.state p = .zombie

theorem step_exited {p : ℕ} (s : Sched) (op : Op) (s' : Sched) (hI : QueueInv s ∧ s.Exited p)
    (h : s.step op = some s') : QueueInv s' ∧ s'.Exited p := by
  obtain ⟨hI, hp, hz⟩ := hI
  refine ⟨step_queueInv s op s' hI h, ?_⟩
  rcases step_cases h with
    ⟨t, addr, f, ht, hf, -, rfl, -⟩ | ⟨-, rfl⟩ | ⟨-, rfl⟩ | ⟨code, -, hi, rfl⟩
  · have hne : p ≠ addr := by
      rintro rfl
      exact hf.2 hp
    have htz : t.state p = .zombie ∧ p ∈ t.procList := by
      rcases ht with rfl | ⟨g, rfl⟩
      · exact ⟨hz, hp⟩
      · exact ⟨hz, hp⟩
    exact ⟨List.mem_cons_of_mem _ htz.2,
      (congrArg Pcb.procState (Function.update_of_ne hne _ _)).trans htz.1⟩
  · have hzc : s.charge.state p = .zombie := (charge_state s p).trans hz
    rcases timerCallback_cases (hI.nonzero _ hI.currentListed)
      with ⟨-, he⟩ | ⟨-, -, he⟩ | ⟨-, -, he⟩ <;> rw [he]
    · exact ⟨hp, hz⟩
    · exact ⟨hp, hzc⟩
    · exact ⟨(schedule_procList hI.charge.current).1 ▸ hp, schedule_zombie hI.charge hzc⟩
  · exact ⟨(schedule_procList hI.current).1 ▸ hp, schedule_zombie hI.toQueued hz⟩
  · have hq := hI.exited hi code
    refine ⟨(schedule_procList hq.current).1 ▸ hp, schedule_zombie hq ?_⟩
    refine (exited_state_of_ne s code ?_).trans hz
    rintro rfl
    exact hI.alive hz

structure QueueSound (s : Sched) : Prop where
  nodup : s.readyQueue.Nodup
  current : s.currentProc ∉ s.readyQueue
  idle : s.idleProc ∉ s.readyQueue
  zombies : ∀ p, s.state p = .zombie → p ∉ s.readyQueue
  ready : ∀ p ∈ s.readyQueue, s.state p = .ready

theorem QueueInv.sound {s : Sched} (h : QueueInv s) : QueueSound s := by
  refine ⟨h.nodup, h.current, h.idle, fun p hz hp => ?_, h.ready⟩
  rw [h.ready p hp] at hz
  cases hz

/-- The ready queue is sound in every reachable state, and the current process of a later state is
never one that has exited by then. -/
theorem ready_queue_sound (s₀ : Sched) (idle : ℕ) (ops : List Op) {s₁ s : Sched}
    (hinit : s₀.procInit idle = some s₁) (h : Run.run step s₁ ops = some s) :
    QueueSound s ∧ ∀ p, s.Exited p → ∀ more s', Run.run step s more = some s' →
      s'.Exited p ∧ s'.currentProc ≠ p := by
  have hI : QueueInv s := Run.run_invariant step_queueInv (procInit_queueInv hinit).1 h
  refine ⟨hI.sound, fun p hp more s' hm => ?_⟩
  obtain ⟨hI', hp'⟩ := Run.run_invariant step_exited ⟨hI, hp⟩ hm
  refine ⟨hp', ?_⟩
  rintro rfl
  exact hI'.alive hp'.2

theorem ready_queue_sound_boot :
    ∃ s₁ s, boot.procInit 1 = some s₁
      ∧ Run.run step s₁ (forkOps ++ [.exit 0]) = some s ∧ QueueSound s ∧ s.Exited 2 :=
  ⟨_, _, rfl, rfl, (ready_queue_sound boot 1 (forkOps ++ [.exit 0]) rfl rfl).1, by decide,
    by decide⟩

/-! ## No process is lost -/

/-- The slice of a process that is alone on the processor is about to end. -/
def LastSlice (s : Sched) : Prop :=
  s.state s.currentProc = .running ∧ s.currentProc ≠ s.idleProc ∧ s.slice s.currentProc ≤ 1
    ∧ s.readyQueue = []

instance (s : Sched) : Decidable s.LastSlice := inferInstanceAs (Decidable (_ ∧ _))

/-- No tick ends the slice of a process while no other one is ready. -/
def SliceOk (s : Sched) : Op → Prop
  | .tick => ¬ s.LastSlice
  | _ => True

instance (s : Sched) : (op : Op) → Decidable (SliceOk s op)
  | .tick => inferInstanceAs (Decidable (¬ _))
  | .kthreadCreate .. | .createUserProcess .. | .sysFork _ | .yield | .exit _ => isTrue trivial

structure NoneLost (s : Sched) : Prop where
  running : s.state s.currentProc = .running
  queued : ∀ p ∈ s.procList, p ≠ s.idleProc → p ≠ s.currentProc → s.state p ≠ .zombie →
    s.state p = .ready ∧ s.readyQueue.count p = 1

/-- Every other process is queued or has exited. -/
def OthersQueued (s : Sched) : Prop :=
  ∀ p ∈ s.procList, p ≠ s.idleProc → p ≠ s.currentProc → s.state p = .zombie ∨ p ∈ s.readyQueue

structure KeptInv (s : Sched) : Prop extends QueueInv s where
  running : s.state s.currentProc = .running
  others : OthersQueued s

theorem KeptInv.noneLost {s : Sched} (h : KeptInv s) : NoneLost s := by
  refine ⟨h.running, fun p hp hi hc hz => ?_⟩
  have hq : p ∈ s.readyQueue := (h.others p hp hi hc).resolve_left hz
  exact ⟨h.ready p hq, List.count_eq_one_of_mem h.nodup hq⟩

theorem Hands.othersQueued {s s' : Sched} {next : ℕ} {rest : List ℕ} (h : Hands s s' next rest)
    (hall : ∀ p ∈ s.procList, p ≠ s.idleProc → p ≠ next → s.state p = .zombie ∨ p ∈ rest) :
    s'.state s'.currentProc = .running ∧ OthersQueued s' := by
  refine ⟨by rw [h.current]; exact h.running, fun p hp hi hc => ?_⟩
  rw [h.list] at hp
  rw [h.idle] at hi
  rw [h.current] at hc
  rw [h.queue]
  exact (hall p hp hi hc).imp_left (congrArg Pcb.procState (h.others p hc)).trans

theorem schedule_keptInv {s : Sched} (h : Queued s) (ho : OthersQueued s)
    (hz : s.state s.currentProc = .running ∨ s.state s.currentProc = .zombie)
    (hnl : ¬ (s.state s.currentProc = .running ∧ s.currentProc ≠ s.idleProc
      ∧ s.slice s.currentProc ≤ 0 ∧ s.readyQueue = [])) : KeptInv s.schedule := by
  suffices hk : s.schedule.state s.schedule.currentProc = .running ∧ OthersQueued s.schedule from
    ⟨schedule_queueInv h, hk.1, hk.2⟩
  rcases schedule_cases h.current with ⟨hr, hi, ⟨-, he⟩ | ⟨hs, hq, -⟩ | ⟨-, q, rest, hq, hh⟩⟩
    | ⟨hst, hh⟩
  · rw [he]
    exact ⟨hr, ho⟩
  · exact absurd ⟨hr, hi, hs, hq⟩ hnl
  · refine hh.othersQueued fun p hp hpi hpq => ?_
    rw [List.mem_append, List.mem_singleton]
    by_cases hcur : p = s.currentProc
    · exact .inr (.inr hcur)
    · rcases ho p hp hpi hcur with hzp | hin
      · exact .inl ((restart_state_of_ne s _ hcur).trans hzp)
      · rw [hq, List.mem_cons] at hin
        exact .inr (.inl (hin.resolve_left hpq))
  · have hgone : ∀ p ∈ s.procList, p ≠ s.idleProc → s.state p = .zombie ∨ p ∈ s.readyQueue := by
      intro p hp hpi
      by_cases hcur : p = s.currentProc
      · subst hcur
        exact .inl ((hz.resolve_left (hst.resolve_right hpi)))
      · exact ho p hp hpi hcur
    rcases hh with ⟨hq, hh⟩ | ⟨q, rest, hq, hh⟩
    · exact hh.othersQueued fun p hp hpi _ => hq ▸ hgone p hp hpi
    · refine hh.othersQueued fun p hp hpi hpq => (hgone p hp hpi).imp_right fun hin => ?_
      rw [hq, List.mem_cons] at hin
      exact hin.resolve_left hpq

theorem enlist_keptInv {s : Sched} (h : KeptInv s) {addr : ℕ} (h0 : addr ≠ 0)
    (hnew : addr ∉ s.procList) {f : Pcb → Pcb} (hf : (f s.allocNewPcb).procState = .ready) :
    KeptInv ((s.newPcb addr f).enlist addr) := by
  have hst : ∀ p ∈ s.procList, ((s.newPcb addr f).enlist addr).state p = s.state p := by
    intro p hp
    refine congrArg Pcb.procState (Function.update_of_ne ?_ _ _)
    rintro rfl
    exact hnew hp
  refine ⟨enlist_queueInv h.toQueueInv h0 hnew hf, (hst _ h.currentListed).trans h.running, ?_⟩
  intro p hp hi hc
  rcases List.mem_cons.mp hp with rfl | hp
  · exact .inr (List.mem_append_right _ List.mem_cons_self)
  · exact (h.others p hp hi hc).imp (hst p hp).trans (List.mem_append_left _)

theorem KeptInv.addMm {s : Sched} (h : KeptInv s) (g : Grant) : KeptInv (s.addMm g) :=
  ⟨h.toQueueInv.addMm g, h.running, h.others⟩

theorem KeptInv.charge_others {s : Sched} (h : KeptInv s) : OthersQueued s.charge := by
  intro p hp hi hc
  exact (h.others p hp hi hc).imp_left (charge_state s p).trans

theorem step_keptInv (s : Sched) (op : Op) (s' : Sched) (hI : KeptInv s) (hok : SliceOk s op)
    (h : s.step op = some s') : KeptInv s' := by
  rcases step_cases h with
    ⟨t, addr, f, ht, hf, hr, rfl, -⟩ | ⟨rfl, rfl⟩ | ⟨-, rfl⟩ | ⟨code, -, hi, rfl⟩
  · rcases ht with rfl | ⟨g, rfl⟩
    · exact enlist_keptInv hI hf.1 hf.2 hr
    · exact enlist_keptInv (hI.addMm g) hf.1 hf.2 hr
  · have hcs := charge_slice s
    rcases timerCallback_cases (hI.nonzero _ hI.currentListed)
      with ⟨hr, -⟩ | ⟨-, -, he⟩ | ⟨-, hs, he⟩
    · exact absurd hI.running hr
    · refine ⟨timerCallback_queueInv hI.toQueueInv, ?_, ?_⟩ <;> rw [he]
      · exact (charge_state s _).trans hI.running
      · exact hI.charge_others
    · rw [he]
      refine schedule_keptInv hI.charge hI.charge_others
        (.inl ((charge_state s _).trans hI.running)) ?_
      rintro ⟨-, hi, -, hq⟩
      exact hok ⟨hI.running, hi, hs, hq⟩
  · refine schedule_keptInv hI.toQueued hI.others (.inl hI.running) ?_
    rintro ⟨-, -, hs, -⟩
    have := hI.slice_pos
    omega
  · refine schedule_keptInv (hI.exited hi code) ?_ (.inr (exited_state_current s code)) ?_
    · intro p hp hpi hpc
      exact (hI.others p hp hpi hpc).imp_left (exited_state_of_ne s code hpc).trans
    · rintro ⟨hr, -⟩
      have := (exited_state_current s code).symm.trans hr
      cases this

theorem tick_lastSlice {s : Sched} (hI : QueueInv s) (h : s.LastSlice) :
    s.timerCallback.state s.timerCallback.currentProc = .ready := by
  obtain ⟨hr, hi, hs, hq⟩ := h
  have hcs := charge_slice s
  rcases timerCallback_cases (hI.nonzero _ hI.currentListed)
    with ⟨hn, -⟩ | ⟨-, hgt, -⟩ | ⟨-, -, he⟩
  · exact absurd hr hn
  · omega
  · rw [he]
    have hq' : s.charge.readyQueue = [] := hq
    rcases schedule_cases hI.charge.current
      with ⟨-, -, ⟨hpos, -⟩ | ⟨-, -, he'⟩ | ⟨-, q, rest, hc, -⟩⟩ | ⟨hst, -⟩
    · have : 0 < s.charge.slice s.currentProc := hpos
      omega
    · rw [he']
      exact restart_state_current s.charge _
    · rw [hq'] at hc
      cases hc
    · rcases hst with hst | hst
      · exact absurd ((charge_state s _).trans hr) hst
      · exact absurd hst hi

theorem procInit_keptInv {s₀ s : Sched} {idle : ℕ} (h : s₀.procInit idle = some s) :
    KeptInv s := by
  obtain ⟨hQ, hlist, hcur, hidle, hrun⟩ := procInit_queueInv h
  refine ⟨hQ, by rw [hcur]; exact hrun, fun p hp hpi _ => ?_⟩
  rw [hlist, List.mem_singleton] at hp
  exact absurd (hp.trans hidle.symm) hpi

/-- No process is lost in exactly the runs whose ticks never end the slice of a process while no
other one is ready. -/
theorem no_process_lost (s₀ : Sched) (idle : ℕ) (ops : List Op) {s₁ s : Sched}
    (hinit : s₀.procInit idle = some s₁) (h : Run.run step s₁ ops = some s) :
    (∀ pre t, pre <+: ops → Run.run step s₁ pre = some t → NoneLost t)
      ↔ Run.Meets step SliceOk s₁ ops := by
  refine (Run.meets_iff_forall_run step_keptInv (fun s hs => hs.noneLost) ?_
    (procInit_keptInv hinit) h).symm
  intro s op s' hs hno hstep hlost
  cases op with
  | tick =>
    simp only [SliceOk, not_not] at hno
    obtain rfl : s.timerCallback = s' := Option.some.inj hstep
    have := (tick_lastSlice hs.toQueueInv hno).symm.trans hlost.running
    cases this
  | _ => exact hno trivial

theorem no_process_lost_boot :
    ∃ s₁ s, boot.procInit 1 = some s₁ ∧ Run.run step s₁ forkOps = some s ∧ NoneLost s :=
  ⟨_, _, rfl, rfl,
    (no_process_lost boot 1 forkOps rfl rfl).mpr (by decide) forkOps _ List.prefix_rfl rfl⟩

/-- A process that runs alone for `n` ticks. -/
def loneOps (n : ℕ) : List Op :=
  [.createUserProcess [] (grantAt 2), .yield] ++ List.replicate n .tick

def loneRun (ops : List Op) : Option Sched := (boot.procInit 1).bind fun s => Run.run step s ops

/-- A process alone at the end of its slice is no longer running, and a yield then drops it. -/
theorem lone_process_lost :
    ∃ s₁ s, boot.procInit 1 = some s₁ ∧ Run.run step s₁ (loneOps 10 ++ [.yield]) = some s
      ∧ ¬ NoneLost s := by
  have h : (loneRun (loneOps 10 ++ [.yield])).map
      (fun s => (s.procList, s.currentProc, s.idleProc, s.state 2, s.readyQueue))
        = some ([2, 1], 1, 1, .ready, []) := by
    decide +kernel
  obtain ⟨s₁, s, h₁, hr, he⟩ := Run.exists_of_eval h
  simp only [Prod.mk.injEq] at he
  obtain ⟨hl, hc, hi, hst, hq⟩ := he
  refine ⟨s₁, s, h₁, hr, fun hn => ?_⟩
  have := (hn.queued 2 (by simp [hl]) (by simp [hi]) (by simp [hc]) (by simp [hst])).2
  simp [hq] at this

/-! ## Preemption -/

theorem tick_counts : ∀ (n : ℕ) {s : Sched}, s.currentProc ≠ 0 → s.currentProc ≠ s.idleProc →
    s.currentProc ∉ s.readyQueue → s.readyQueue ≠ [] → s.state s.currentProc = .running →
      s.slice s.currentProc = n + 1 →
        (timerCallback^[n + 1] s).currentProc ≠ s.currentProc
  | 0, s, h0, hi, hc, hq, hr, hs => by
    have hcs := charge_slice s
    rcases timerCallback_cases h0 with ⟨hn, -⟩ | ⟨-, hgt, -⟩ | ⟨-, -, he⟩
    · exact absurd hr hn
    · omega
    · rw [Function.iterate_one, he]
      rcases schedule_cases (s := s.charge) hc
        with ⟨-, -, ⟨hpos, -⟩ | ⟨-, hnil, -⟩ | ⟨-, q, rest, hq', hh⟩⟩ | ⟨hst, -⟩
      · have : 0 < s.charge.slice s.currentProc := hpos
        omega
      · exact absurd hnil hq
      · rw [hh.current]
        rintro rfl
        have : s.currentProc ∈ s.charge.readyQueue := hq' ▸ List.mem_cons_self
        exact hc this
      · rcases hst with hst | hst
        · exact absurd ((charge_state s _).trans hr) hst
        · exact absurd hst hi
  | n + 1, s, h0, hi, hc, hq, hr, hs => by
    rcases timerCallback_cases h0 with ⟨hn, -⟩ | ⟨-, -, he⟩ | ⟨-, hle, -⟩
    · exact absurd hr hn
    · rw [Function.iterate_succ_apply, he]
      refine tick_counts n (s := s.charge) h0 hi hc hq ((charge_state s _).trans hr) ?_
      have : s.charge.slice s.currentProc = s.slice s.currentProc - 1 := charge_slice s
      show s.charge.slice s.currentProc = n + 1
      push_cast at hs
      omega
    · push_cast at hs
      omega

theorem tick_ignores : ∀ (n : ℕ) {s : Sched}, s.state s.currentProc ≠ .running →
    (timerCallback^[n] s).currentProc = s.currentProc
  | 0, _, _ => rfl
  | n + 1, s, h => by
    have he : s.timerCallback = { s with ticks := u64 (s.ticks + 1) } := if_neg fun hc => h hc.2
    rw [Function.iterate_succ_apply, he]
    exact tick_ignores n (s := { s with ticks := u64 (s.ticks + 1) }) h

/-- With others ready, the current process is preempted within a full slice exactly when its state
says that it is running, as it does in every run whose ticks never end the slice of a process while
no other one is ready. -/
theorem preempted_within_slice (s₀ : Sched) (idle : ℕ) (ops : List Op) {s₁ s : Sched}
    (hinit : s₀.procInit idle = some s₁) (h : Run.run step s₁ ops = some s)
    (hidle : s.currentProc ≠ s.idleProc) (hq : s.readyQueue ≠ []) :
    ((∃ n ≤ 10, (timerCallback^[n] s).currentProc ≠ s.currentProc)
        ↔ s.state s.currentProc = .running)
      ∧ (Run.Meets step SliceOk s₁ ops →
        ∃ n ≤ 10, (timerCallback^[n] s).currentProc ≠ s.currentProc) := by
  have hI : QueueInv s := Run.run_invariant step_queueInv (procInit_queueInv hinit).1 h
  have hiff : (∃ n ≤ 10, (timerCallback^[n] s).currentProc ≠ s.currentProc)
      ↔ s.state s.currentProc = .running := by
    constructor
    · rintro ⟨n, -, hn⟩
      by_contra hr
      exact hn (tick_ignores n hr)
    · intro hr
      have hpos := hI.slice_pos
      have hle := hI.slice_le
      unfold timeSliceDefault at hle
      refine ⟨(s.slice s.currentProc).toNat - 1 + 1, by omega, ?_⟩
      exact tick_counts _ (hI.nonzero _ hI.currentListed) hidle hI.current hq hr (by omega)
  refine ⟨hiff, fun hm => hiff.mpr ?_⟩
  exact (Run.run_invariant_of_meets step_keptInv (procInit_keptInv hinit) hm h).running

theorem preempted_within_slice_boot :
    ∃ s₁ s, boot.procInit 1 = some s₁ ∧ Run.run step s₁ forkOps = some s
      ∧ ∃ n ≤ 10, (timerCallback^[n] s).currentProc ≠ s.currentProc :=
  ⟨_, _, rfl, rfl,
    (preempted_within_slice boot 1 forkOps rfl rfl (by decide) (by decide)).2 (by decide)⟩

/-- A process that ran alone to the end of its slice keeps the processor for good. -/
theorem lone_process_not_preempted :
    ∃ s₁ s, boot.procInit 1 = some s₁
      ∧ Run.run step s₁ (loneOps 10 ++ [.sysFork (grantAt 3)]) = some s
      ∧ s.currentProc ≠ s.idleProc ∧ s.readyQueue ≠ []
      ∧ ¬ ∃ n ≤ 10, (timerCallback^[n] s).currentProc ≠ s.currentProc := by
  have h : (loneRun (loneOps 10 ++ [.sysFork (grantAt 3)])).map
      (fun s => (s.currentProc, s.idleProc, s.state s.currentProc, s.readyQueue))
        = some (2, 1, .ready, [3]) := by
    decide +kernel
  obtain ⟨s₁, s, h₁, hr, he⟩ := Run.exists_of_eval h
  simp only [Prod.mk.injEq] at he
  obtain ⟨hc, hi, hst, hq⟩ := he
  refine ⟨s₁, s, h₁, hr, by simp [hc, hi], by simp [hq], ?_⟩
  rintro ⟨n, -, hn⟩
  exact hn (tick_ignores n (by simp [hst]))

/-! ## What the scheduler leaves alone -/

/-- The registers hold what the current process needs: its address space if it has one, and its
kernel stack if it is not the idle process. -/
structure Loaded (s : Sched) : Prop where
  cr3 : (s.pcbs s.currentProc).mm ≠ 0 → s.cr3 = s.pml4Pa (s.pcbs s.currentProc).mm
  rsp0 : s.currentProc ≠ s.idleProc → s.rsp0 = (s.pcbs s.currentProc).kstackBase + kstackSize

/-- The PCBs differ at most in what scheduling writes. -/
structure SamePcb (p q : Pcb) : Prop where
  kstackBase : q.kstackBase = p.kstackBase
  mm : q.mm = p.mm
  parent : q.parent = p.parent
  fdTable : q.fdTable = p.fdTable
  cwdInode : q.cwdInode = p.cwdInode

/-- The processes are the same, and loaded registers stay so. -/
structure Moves (s s' : Sched) : Prop where
  list : s'.procList = s.procList
  idle : s'.idleProc = s.idleProc
  pml4Pa : s'.pml4Pa = s.pml4Pa
  pcb : ∀ p, SamePcb (s.pcbs p) (s'.pcbs p)
  loaded : Loaded s → Loaded s'

theorem Moves.trans {s s' s'' : Sched} (h : Moves s s') (h' : Moves s' s'') : Moves s s'' where
  list := h'.list.trans h.list
  idle := h'.idle.trans h.idle
  pml4Pa := h'.pml4Pa.trans h.pml4Pa
  pcb p := ⟨(h'.pcb p).1.trans (h.pcb p).1, (h'.pcb p).2.trans (h.pcb p).2,
    (h'.pcb p).3.trans (h.pcb p).3, (h'.pcb p).4.trans (h.pcb p).4,
    (h'.pcb p).5.trans (h.pcb p).5⟩
  loaded hl := h'.loaded (h.loaded hl)

/-- Whoever runs, its PCB is the same as before in what the registers depend on. -/
theorem Loaded.of_same {s s' : Sched} (h : Loaded s) (hc : s'.currentProc = s.currentProc)
    (hi : s'.idleProc = s.idleProc) (h3 : s'.cr3 = s.cr3) (h0 : s'.rsp0 = s.rsp0)
    (hp : s'.pml4Pa = s.pml4Pa) (hs : ∀ p, SamePcb (s.pcbs p) (s'.pcbs p)) : Loaded s' := by
  refine ⟨fun hmm => ?_, fun hne => ?_⟩
  · rw [hc, (hs _).mm] at hmm ⊢
    rw [h3, hp]
    exact h.cr3 hmm
  · rw [hc, hi] at hne
    rw [h0, hc, (hs _).kstackBase]
    exact h.rsp0 hne

theorem samePcb_refl (p : Pcb) : SamePcb p p := ⟨rfl, rfl, rfl, rfl, rfl⟩

theorem samePcb_update {pcbs : ℕ → Pcb} {p : ℕ} {x : Pcb} (h : SamePcb (pcbs p) x) (q : ℕ) :
    SamePcb (pcbs q) (Function.update pcbs p x q) := by
  by_cases hq : q = p
  · rw [hq, Function.update_self]
    exact h
  · rw [Function.update_of_ne hq]
    exact samePcb_refl _

theorem modify_moves (s : Sched) (p : ℕ) {f : Pcb → Pcb} (hf : ∀ x, SamePcb x (f x)) :
    Moves s (s.modify p f) where
  list := rfl
  idle := rfl
  pml4Pa := rfl
  pcb := samePcb_update (hf _)
  loaded h := h.of_same rfl rfl rfl rfl rfl (samePcb_update (hf _))

theorem queue_moves (s : Sched) (queue : List ℕ) (n : ℕ) :
    Moves s { s with readyQueue := queue, ticks := n } :=
  ⟨rfl, rfl, rfl, fun _ => samePcb_refl _, fun h => ⟨h.cr3, h.rsp0⟩⟩

/-- The context switch loads what the next process needs, unless it shares the address space of
the previous one. -/
theorem switchTo_moves (s : Sched) (next : ℕ) : Moves s (s.switchTo next) := by
  unfold switchTo
  split_ifs with hc
  · exact ⟨rfl, rfl, rfl, fun _ => samePcb_refl _, id⟩
  · have hsame : ∀ q, SamePcb (s.pcbs q)
        ((s.modify next fun p =>
          { p with procState := .running, timeSlice := timeSliceDefault }).pcbs q) :=
      samePcb_update ⟨rfl, rfl, rfl, rfl, rfl⟩
    refine ⟨rfl, rfl, rfl, hsame, fun hl => ⟨fun hmm => ?_, fun _ => rfl⟩⟩
    dsimp only at hmm ⊢
    by_cases hprev : (s.pcbs s.currentProc).mm = 0
        ∨ (s.pcbs s.currentProc).mm ≠ ((s.modify next fun p =>
          { p with procState := .running, timeSlice := timeSliceDefault }).pcbs next).mm
    · rw [if_pos ⟨hmm, hprev⟩]
    · rw [if_neg (fun h => hprev h.2)]
      push Not at hprev
      rw [← hprev.2]
      exact hl.cr3 hprev.1

theorem dispatch_moves (s : Sched) : Moves s s.dispatch := by
  unfold dispatch
  split
  · have hm := modify_moves s s.idleProc (f := fun p =>
      { p with procState := .running, timeSlice := timeSliceDefault })
      fun x => ⟨rfl, rfl, rfl, rfl, rfl⟩
    exact hm.trans (switchTo_moves _ _)
  · next q rest _ => exact (queue_moves s rest s.ticks).trans (switchTo_moves _ q)

theorem requeue_moves (s : Sched) : Moves s s.requeue := by
  have hm := modify_moves s s.currentProc (f := fun p =>
    { p with procState := .ready, timeSlice := timeSliceDefault })
    fun x => ⟨rfl, rfl, rfl, rfl, rfl⟩
  exact hm.trans (queue_moves _ _ s.ticks)

theorem schedule_moves (s : Sched) : Moves s s.schedule := by
  unfold schedule
  split_ifs
  · exact (requeue_moves s).trans (dispatch_moves _)
  · exact queue_moves s s.readyQueue s.ticks
  · exact dispatch_moves s

theorem charge_moves (s : Sched) : Moves s s.charge := by
  have hm := modify_moves { s with ticks := u64 (s.ticks + 1) } s.currentProc (f := fun p =>
    { p with totalRuntime := u64 (p.totalRuntime + 1), timeSlice := p.timeSlice - 1 })
      fun x => ⟨rfl, rfl, rfl, rfl, rfl⟩
  exact (queue_moves s s.readyQueue _).trans hm

theorem timerCallback_moves (s : Sched) : Moves s s.timerCallback := by
  unfold timerCallback
  dsimp only
  split_ifs
  · exact (charge_moves s).trans (schedule_moves _)
  · exact charge_moves s
  · exact queue_moves s s.readyQueue _

theorem exit_moves (s : Sched) (code : ℤ) : Moves s (s.exit code) := by
  have hm := modify_moves s s.currentProc (f := fun p =>
    { p with procState := .zombie, exitCode := code }) fun x => ⟨rfl, rfl, rfl, rfl, rfl⟩
  exact hm.trans (schedule_moves _)

end Sched

end SudoOS
