import Mathlib.Tactic

/-!
# Packed bit arrays

A list of bytes read as an array of bits, bit `i` being bit `i % 8` of byte `i / 8`. Setting or
clearing a bit that lies inside the array changes that bit and no other (`test_set`,
`test_unset`), so the number of clear bits below a bound moves by one (`countClear_set`,
`countClear_unset`). `scan` looks for the first clear bit of a range.
-/

namespace ByteMap

/-- Bit `i` of the array; bits past its end read as clear. -/
def test (bm : List (BitVec 8)) (i : ℕ) : Bool :=
  (bm.getD (i / 8) 0 &&& (1#8 <<< (i % 8))) != 0#8

def set (bm : List (BitVec 8)) (i : ℕ) : List (BitVec 8) :=
  bm.modify (i / 8) (· ||| (1#8 <<< (i % 8)))

def unset (bm : List (BitVec 8)) (i : ℕ) : List (BitVec 8) :=
  bm.modify (i / 8) (· &&& ~~~(1#8 <<< (i % 8)))

/-- The number of clear bits below `n`. -/
def countClear (bm : List (BitVec 8)) (n : ℕ) : ℕ :=
  (List.range n).countP fun i => !test bm i

/-- The first clear bit among the `n` bits from `i` on. -/
def scan (bm : List (BitVec 8)) : ℕ → ℕ → Option ℕ
  | 0, _ => none
  | n + 1, i => if !test bm i then some i else scan bm n (i + 1)

theorem getLsbD_one_shiftLeft (w k j : ℕ) :
    (1#w <<< k).getLsbD j = (decide (j < w) && decide (j = k)) := by
  rw [BitVec.getLsbD_shiftLeft, BitVec.getLsbD_one]
  by_cases hj : j = k
  · subst hj
    by_cases hw : j < w
    · simp [hw, show 0 < w by omega]
    · simp [hw]
  · by_cases hlt : j < k
    · simp [hlt, hj]
    · have : j - k ≠ 0 := by omega
      simp [hj, this]

/-- Testing against a one-bit mask. -/
theorem and_one_shiftLeft_ne {w : ℕ} (b : BitVec w) {k : ℕ} (hk : k < w) :
    ((b &&& (1#w <<< k)) != 0#w) = b.getLsbD k := by
  rcases hb : b.getLsbD k with _ | _
  · have : b &&& (1#w <<< k) = 0#w := by
      apply BitVec.eq_of_getLsbD_eq
      intro j hj
      rw [BitVec.getLsbD_and, getLsbD_one_shiftLeft]
      by_cases h : j = k
      · simp only [h, hb, Bool.false_and, BitVec.getLsbD_zero]
      · simp [h]
    simp only [this, bne_self_eq_false]
  · simp only [bne_iff_ne, ne_eq]
    intro h
    have := congrArg (BitVec.getLsbD · k) h
    simp only [BitVec.getLsbD_and, getLsbD_one_shiftLeft, hb] at this
    simp [hk] at this

theorem test_eq (bm : List (BitVec 8)) (i : ℕ) :
    test bm i = (bm.getD (i / 8) 0).getLsbD (i % 8) :=
  and_one_shiftLeft_ne _ (Nat.mod_lt _ (by omega))

@[simp] theorem length_set (bm : List (BitVec 8)) (i : ℕ) : (set bm i).length = bm.length := by
  simp [set]

@[simp] theorem length_unset (bm : List (BitVec 8)) (i : ℕ) :
    (unset bm i).length = bm.length := by
  simp [unset]

theorem getD_modify (bm : List (BitVec 8)) (f : BitVec 8 → BitVec 8) {k : ℕ} (j : ℕ)
    (hk : k < bm.length) :
    (bm.modify k f).getD j 0 = if k = j then f (bm.getD j 0) else bm.getD j 0 := by
  simp only [List.getD_eq_getElem?_getD, List.getElem?_modify]
  split_ifs with h
  · subst h
    simp [List.getElem?_eq_getElem hk]
  · simp

theorem test_set (bm : List (BitVec 8)) {i : ℕ} (j : ℕ) (hi : i / 8 < bm.length) :
    test (set bm i) j = (decide (i = j) || test bm j) := by
  rw [test_eq, test_eq, set, getD_modify _ _ _ hi]
  split_ifs with h
  · rw [BitVec.getLsbD_or, getLsbD_one_shiftLeft, Bool.or_comm]
    have : (j % 8 = i % 8) ↔ i = j := by omega
    simp [this, Nat.mod_lt]
  · have : i ≠ j := by rintro rfl; exact h rfl
    simp [this]

theorem test_unset (bm : List (BitVec 8)) {i : ℕ} (j : ℕ) (hi : i / 8 < bm.length) :
    test (unset bm i) j = (!decide (i = j) && test bm j) := by
  rw [test_eq, test_eq, unset, getD_modify _ _ _ hi]
  split_ifs with h
  · rw [BitVec.getLsbD_and, BitVec.getLsbD_not, getLsbD_one_shiftLeft, Bool.and_comm]
    have : (j % 8 = i % 8) ↔ i = j := by omega
    simp [this, Nat.mod_lt]
  · have : i ≠ j := by rintro rfl; exact h rfl
    simp [this]

theorem test_replicate {n i : ℕ} (h : i / 8 < n) :
    test (List.replicate n 0xFF#8) i = true := by
  rw [test_eq, List.getD_eq_getElem?_getD, List.getElem?_replicate, if_pos h]
  have : i % 8 < 8 := Nat.mod_lt _ (by omega)
  interval_cases i % 8 <;> decide

/-! ## Counting clear bits -/

theorem countClear_congr {bm bm' : List (BitVec 8)} {n : ℕ}
    (h : ∀ i < n, test bm i = test bm' i) : countClear bm n = countClear bm' n := by
  refine List.countP_congr fun i hi => ?_
  rw [h i (List.mem_range.mp hi)]

/-- Two arrays that differ at `i` only, clear in one and set in the other. -/
theorem countClear_succ {bm bm' : List (BitVec 8)} {i : ℕ} (hi : test bm i = false)
    (hi' : test bm' i = true) (h : ∀ j, j ≠ i → test bm j = test bm' j) :
    ∀ {n : ℕ}, i < n → countClear bm n = countClear bm' n + 1
  | 0, hn => absurd hn (Nat.not_lt_zero _)
  | n + 1, hn => by
    simp only [countClear, List.range_succ, List.countP_append, List.countP_singleton]
    by_cases hin : i = n
    · subst hin
      have : countClear bm i = countClear bm' i := countClear_congr fun j hj => h j (by omega)
      simp only [countClear] at this
      simp [this, hi, hi']
    · have ih := countClear_succ hi hi' h (n := n) (by omega)
      simp only [countClear] at ih
      rw [ih, h n (Ne.symm hin)]
      omega

theorem countClear_set {bm : List (BitVec 8)} {i n : ℕ} (hi : i / 8 < bm.length) (hin : i < n)
    (hc : test bm i = false) : countClear bm n = countClear (set bm i) n + 1 := by
  refine countClear_succ hc ?_ (fun j hj => ?_) hin
  · simp [test_set bm i hi]
  · simp [test_set bm j hi, Ne.symm hj]

theorem countClear_unset {bm : List (BitVec 8)} {i n : ℕ} (hi : i / 8 < bm.length)
    (hin : i < n) (hc : test bm i = true) :
    countClear (unset bm i) n = countClear bm n + 1 := by
  refine countClear_succ ?_ hc (fun j hj => ?_) hin
  · simp [test_unset bm i hi]
  · simp [test_unset bm j hi, Ne.symm hj]

theorem countClear_eq_zero {bm : List (BitVec 8)} {n : ℕ} :
    countClear bm n = 0 ↔ ∀ i < n, test bm i = true := by
  simp [countClear, List.countP_eq_zero]

/-! ## Scanning for a clear bit -/

theorem scan_eq_none (bm : List (BitVec 8)) :
    ∀ (n i : ℕ), scan bm n i = none ↔ ∀ j, i ≤ j → j < i + n → test bm j = true
  | 0, i => by
    simp only [scan, true_iff]
    intro j h1 h2
    omega
  | n + 1, i => by
    simp only [scan]
    rcases hi : test bm i with _ | _
    · simp only [Bool.not_false, ↓reduceIte, reduceCtorEq, false_iff, not_forall]
      exact ⟨i, le_rfl, by omega, by simp [hi]⟩
    · simp only [Bool.not_true, Bool.false_eq_true, ↓reduceIte, scan_eq_none bm n (i + 1)]
      refine ⟨fun h j h1 h2 => ?_, fun h j h1 h2 => h j (by omega) (by omega)⟩
      rcases Nat.eq_or_lt_of_le h1 with rfl | hlt
      · exact hi
      · exact h j hlt (by omega)

/-- What a scan finds is clear, lies in the range, and is the lowest such bit. -/
theorem scan_eq_some (bm : List (BitVec 8)) :
    ∀ {n i k : ℕ}, scan bm n i = some k →
      test bm k = false ∧ i ≤ k ∧ k < i + n ∧ ∀ j, i ≤ j → j < k → test bm j = true
  | 0, i, k, h => by simp [scan] at h
  | n + 1, i, k, h => by
    simp only [scan] at h
    rcases hi : test bm i with _ | _ <;> rw [hi] at h
    · simp only [Bool.not_false, ↓reduceIte, Option.some.injEq] at h
      subst h
      exact ⟨hi, le_rfl, by omega, fun j h1 h2 => by omega⟩
    · simp only [Bool.not_true, Bool.false_eq_true, ↓reduceIte] at h
      obtain ⟨h1, h2, h3, h4⟩ := scan_eq_some bm h
      refine ⟨h1, by omega, by omega, fun j hj1 hj2 => ?_⟩
      rcases Nat.eq_or_lt_of_le hj1 with rfl | hlt
      · exact hi
      · exact h4 j hlt hj2

end ByteMap
