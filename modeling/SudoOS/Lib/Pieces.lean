import Mathlib.Tactic

/-!
# Pieces between separators

The parts of a list between the occurrences of a separator, the empty ones left out. A separator
joins the pieces on both sides of it (`pieces_append`), so separators in front count for nothing.
`runs` is the same for several separators, given by a predicate.
-/

namespace Pieces

variable {α : Type*} [DecidableEq α] {a : α} {l : List α}

def pieces (a : α) (l : List α) : List (List α) := (l.splitOn a).filter (· ≠ [])

@[simp] theorem pieces_nil (a : α) : pieces a [] = [] := rfl

theorem pieces_append (a : α) (xs ys : List α) :
    pieces a (xs ++ a :: ys) = pieces a xs ++ pieces a ys := by
  rw [pieces, List.splitOn_append_cons_self, List.filter_append]
  rfl

@[simp] theorem pieces_cons_self (a : α) (l : List α) : pieces a (a :: l) = pieces a l :=
  pieces_append a [] l

theorem pieces_of_notMem (h : a ∉ l) (hne : l ≠ []) : pieces a l = [l] := by
  rw [pieces, List.splitOn_eq_singleton h]
  simp [hne]

/-- Separators in front. -/
theorem pieces_skip {ds : List α} (h : ∀ c ∈ ds, c = a) (l : List α) :
    pieces a (ds ++ l) = pieces a l := by
  induction ds with
  | nil => rfl
  | cons c ds ih =>
    obtain rfl := h c List.mem_cons_self
    rw [List.cons_append, pieces_cons_self]
    exact ih fun b hb => h b (List.mem_cons_of_mem c hb)

theorem pieces_of_forall (h : ∀ c ∈ l, c = a) : pieces a l = [] := by
  have := pieces_skip h []
  rwa [List.append_nil, pieces_nil] at this

/-- What holds of a piece and of two parts around a separator holds of every list. -/
theorem induction {P : List α → Prop} (nil : P []) (piece : ∀ l, a ∉ l → l ≠ [] → P l)
    (append : ∀ xs ys, P xs → P ys → P (xs ++ a :: ys)) (l : List α) : P l := by
  suffices h : ∀ (n : ℕ) (l : List α), l.length ≤ n → P l from h _ l le_rfl
  intro n
  induction n with
  | zero =>
    intro l hn
    rw [List.length_eq_zero_iff.mp (Nat.le_zero.mp hn)]
    exact nil
  | succ n ih =>
    intro l hn
    by_cases ha : a ∈ l
    · obtain ⟨xs, ys, rfl⟩ := List.append_of_mem ha
      rw [List.length_append, List.length_cons] at hn
      exact append xs ys (ih xs (by omega)) (ih ys (by omega))
    · by_cases hne : l = []
      · exact hne ▸ nil
      · exact piece l ha hne

/-- The pieces and their separators are no longer than the list. -/
theorem pieces_length (a : α) (l : List α) :
    ((pieces a l).map fun p => p.length + 1).sum ≤ l.length + 1 := by
  induction l using induction (a := a) with
  | nil => simp
  | piece l ha hne => simp [pieces_of_notMem ha hne]
  | append xs ys hx hy =>
    rw [pieces_append, List.map_append, List.sum_append, List.length_append, List.length_cons]
    omega

theorem pieces_eq_nil_iff : pieces a l = [] ↔ ∀ c ∈ l, c = a := by
  refine ⟨fun h => ?_, pieces_of_forall⟩
  induction l with
  | nil => exact fun c hc => absurd hc List.not_mem_nil
  | cons b l ih =>
    by_cases hb : b = a
    · subst hb
      rw [pieces_cons_self] at h
      exact List.forall_mem_cons.mpr ⟨rfl, ih h⟩
    · -- A first piece starts here.
      exfalso
      obtain ⟨ts, us, hts, hl⟩ : ∃ ts us, a ∉ ts ∧ (l = ts ∨ l = ts ++ a :: us) := by
        by_cases ha : a ∈ l
        · obtain ⟨ts, us, hl, hts⟩ := List.eq_append_cons_of_mem ha
          exact ⟨ts, us, hts, .inr hl⟩
        · exact ⟨l, [], ha, .inl rfl⟩
      have hbt : a ∉ b :: ts := by simpa [Ne.symm hb] using hts
      have hpiece := pieces_of_notMem hbt (List.cons_ne_nil b ts)
      rcases hl with rfl | rfl
      · rw [hpiece] at h
        cases h
      · rw [← List.cons_append, pieces_append, hpiece] at h
        cases h

/-! ## Several separators -/

section Runs

variable {β : Type*} {p : β → Bool} {ds ts : List β}

/-- The longest parts without a separator, in order. -/
def runs (p : β → Bool) (l : List β) : List (List β) :=
  (l.splitOnP p).filter (!·.isEmpty)

theorem runs_append {c : β} (hc : p c = true) (xs ys : List β) :
    runs p (xs ++ c :: ys) = runs p xs ++ runs p ys := by
  rw [runs, List.splitOnP_append_cons xs ys hc, List.filter_append]
  rfl

theorem runs_skip (hds : ∀ c ∈ ds, p c = true) (l : List β) : runs p (ds ++ l) = runs p l := by
  induction ds with
  | nil => rfl
  | cons c ds ih =>
    rw [List.cons_append, ← List.nil_append (c :: (ds ++ l)),
      runs_append (hds c List.mem_cons_self), ih fun b hb => hds b (List.mem_cons_of_mem c hb)]
    rfl

theorem runs_of_forall (hts : ∀ c ∈ ts, p c = false) (hne : ts ≠ []) : runs p ts = [ts] := by
  rw [runs, List.splitOnP_eq_singleton hts]
  simp [hne]

end Runs

end Pieces
