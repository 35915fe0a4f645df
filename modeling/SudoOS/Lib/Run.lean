import Mathlib.Tactic

/-!
# Runs of a transition function

A system is a partial step function on states and events; `run` takes a list of events and is
`none` as soon as one of them is refused. An invariant of the step is an invariant of every run
(`run_invariant`), and where the step keeps it only under a condition on the state before and the
event, of every run that meets the condition throughout (`run_invariant_of_meets`). Where a step is
a relation, a run is a `Trace`, and a simulation of the steps is one of the traces, event by event
(`Trace.simulate`).
-/

namespace Run

variable {σ ε : Type*}

def run (step : σ → ε → Option σ) : σ → List ε → Option σ
  | s, [] => some s
  | s, e :: es => (step s e).bind fun s' => run step s' es

/-- Every step of the run is taken from a state that meets the condition. -/
def Meets (step : σ → ε → Option σ) (ok : σ → ε → Prop) : σ → List ε → Prop
  | _, [] => True
  | s, e :: es => ok s e ∧ ∀ s', step s e = some s' → Meets step ok s' es

variable {step : σ → ε → Option σ} {ok : σ → ε → Prop}

theorem run_cons {s s' : σ} {e : ε} {es : List ε} (h : run step s (e :: es) = some s') :
    ∃ t, step s e = some t ∧ run step t es = some s' := by
  simpa [run, Option.bind_eq_some_iff] using h

theorem run_append : ∀ (es es' : List ε) (s : σ),
    run step s (es ++ es') = (run step s es).bind fun t => run step t es'
  | [], _, _ => rfl
  | e :: es, es', s => by
    simp only [List.cons_append, run, run_append es es', Option.bind_assoc]

theorem meets_cons {s : σ} {e : ε} {es : List ε} :
    Meets step ok s (e :: es) ↔ ok s e ∧ ∀ t ∈ step s e, Meets step ok t es := Iff.rfl

instance Meets.decidable [∀ s e, Decidable (ok s e)] :
    (s : σ) → (es : List ε) → Decidable (Meets step ok s es)
  | _, [] => isTrue trivial
  | s, e :: es =>
    match h : step s e with
    | none => decidable_of_iff (ok s e) (by simp [meets_cons, h])
    | some t =>
      have := Meets.decidable t es
      decidable_of_iff (ok s e ∧ Meets step ok t es) (by simp [meets_cons, h])

/-- A run from a computed initial state, and what has been evaluated of its last state. -/
theorem exists_of_eval {ι γ : Type*} {init : Option ι} {start : ι → σ} {es : List ε} {f : σ → γ}
    {c : γ} (h : (init.bind fun i => run step (start i) es).map f = some c) :
    ∃ i s, init = some i ∧ run step (start i) es = some s ∧ f s = c := by
  obtain ⟨s, hs, hc⟩ := Option.map_eq_some_iff.mp h
  obtain ⟨i, hi, hr⟩ := Option.bind_eq_some_iff.mp hs
  exact ⟨i, s, hi, hr, hc⟩

theorem run_invariant_of_meets {I : σ → Prop}
    (hstep : ∀ s e s', I s → ok s e → step s e = some s' → I s') :
    ∀ {es : List ε} {s s' : σ}, I s → Meets step ok s es → run step s es = some s' → I s'
  | [], s, s', hI, _, h => by
    simp only [run, Option.some.injEq] at h
    exact h ▸ hI
  | e :: es, s, s', hI, hm, h => by
    obtain ⟨t, ht, h'⟩ := run_cons h
    exact run_invariant_of_meets hstep (hstep s e t hI hm.1 ht) (hm.2 t ht) h'

theorem run_invariant {I : σ → Prop} (hstep : ∀ s e s', I s → step s e = some s' → I s')
    {es : List ε} {s s' : σ} (hI : I s) (h : run step s es = some s') : I s' := by
  have hm : ∀ (es : List ε) (s : σ), Meets step (fun _ _ => True) s es := by
    intro es
    induction es with
    | nil => exact fun _ => trivial
    | cons e es ih => exact fun s => ⟨trivial, fun s' _ => ih s'⟩
  exact run_invariant_of_meets (fun s e s' hI _ h => hstep s e s' hI h) hI (hm es s) h

/-- Where a step that does not meet the condition breaks `P` at once, the runs that meet it are
exactly those in which `P` holds of every state passed. -/
theorem meets_iff_forall_run {I P : σ → Prop}
    (hstep : ∀ s e s', I s → ok s e → step s e = some s' → I s') (hP : ∀ s, I s → P s)
    (hbad : ∀ s e s', I s → ¬ ok s e → step s e = some s' → ¬ P s') :
    ∀ {es : List ε} {s s' : σ}, I s → run step s es = some s' →
      (Meets step ok s es ↔ ∀ pre t, pre <+: es → run step s pre = some t → P t)
  | [], s, s', hI, _ => by
    refine ⟨fun _ pre t hpre ht => ?_, fun _ => trivial⟩
    obtain rfl := List.prefix_nil.mp hpre
    exact Option.some.inj ht ▸ hP s hI
  | e :: es, s, s', hI, h => by
    obtain ⟨t, ht, h'⟩ := run_cons h
    constructor
    · intro hm pre u hpre hu
      rcases pre with _ | ⟨e', pre⟩
      · exact Option.some.inj hu ▸ hP s hI
      · obtain ⟨rfl, hpre'⟩ := List.cons_prefix_cons.mp hpre
        obtain ⟨t', ht', hu'⟩ := run_cons hu
        obtain rfl := Option.some.inj (ht.symm.trans ht')
        exact (meets_iff_forall_run hstep hP hbad (hstep s e' t hI hm.1 ht) h').mp (hm.2 t ht)
          pre u hpre' hu'
    · intro hall
      have hok : ok s e := by
        by_contra hno
        exact hbad s e t hI hno ht (hall [e] t ⟨es, rfl⟩ (by simp [run, ht]))
      refine ⟨hok, fun t' ht' => ?_⟩
      obtain rfl := Option.some.inj (ht.symm.trans ht')
      refine (meets_iff_forall_run hstep hP hbad (hstep s e t hI hok ht) h').mpr ?_
      intro pre u hpre hu
      exact hall (e :: pre) u (List.cons_prefix_cons.mpr ⟨rfl, hpre⟩) (by simpa [run, ht] using hu)

/-! ## Relations -/

/-- A run of a relation, with the events of its steps. -/
inductive Trace (step : σ → ε → σ → Prop) : σ → List ε → σ → Prop
  | nil (s : σ) : Trace step s [] s
  | cons {s s' s'' : σ} {e : ε} {es : List ε} (h : step s e s') (h' : Trace step s' es s'') :
    Trace step s (e :: es) s''

/-- Two systems take a step for the same event, after which `R` holds between them. -/
def InStep {τ : Type*} (step : σ → ε → σ → Prop) (step' : τ → ε → τ → Prop) (R : σ → τ → Prop)
    (x : σ × τ) (e : ε) (y : σ × τ) : Prop :=
  step x.1 e y.1 ∧ step' x.2 e y.2 ∧ R y.1 y.2

theorem Trace.simulate {τ : Type*} {step : σ → ε → σ → Prop} {step' : τ → ε → τ → Prop}
    {R I : σ → τ → Prop}
    (hstep : ∀ s t e s', I s t → step s e s' → ∃ t', step' t e t' ∧ R s' t' ∧ I s' t')
    {s s' : σ} {es : List ε} (h : Trace step s es s') :
    ∀ {t : τ}, I s t → ∃ t', Trace (InStep step step' R) (s, t) es (s', t') ∧ I s' t' := by
  induction h with
  | nil s => exact fun {t} hI => ⟨t, .nil (s, t), hI⟩
  | cons hs _ ih =>
    intro t hI
    obtain ⟨t₁, ht₁, hR, hI₁⟩ := hstep _ _ _ _ hI hs
    obtain ⟨t', htr, hI'⟩ := ih hI₁
    exact ⟨t', .cons ⟨hs, ht₁, hR⟩ htr, hI'⟩

end Run
