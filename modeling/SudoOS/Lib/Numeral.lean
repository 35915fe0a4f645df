import Mathlib.Data.Nat.Digits.Lemmas

/-!
# Positional numerals

Numerals as lists of digits, the most significant one first. `numeral b n` has the value `n` and no
leading zero, and zero is the digit zero (`value_numeral`, `canonical_numeral`).
-/

namespace Numeral

variable {b n : ℕ}

/-- The digits of a number, the least significant first; zero has one digit. -/
def digits (b n : ℕ) : List ℕ := if n = 0 then [0] else Nat.digits b n

def numeral (b n : ℕ) : List ℕ := (digits b n).reverse

def value (b : ℕ) (ds : List ℕ) : ℕ := ds.foldl (fun v d => v * b + d) 0

structure Canonical (b : ℕ) (ds : List ℕ) : Prop where
  digit : ∀ d ∈ ds, d < b
  lead : ds = [0] ∨ ∃ d ds', d ≠ 0 ∧ ds = d :: ds'

theorem digits_of_lt (h : n < b) : digits b n = [n] := by
  unfold digits
  split_ifs with h0
  · rw [h0]
  · exact Nat.digits_of_lt b n h0 h

theorem digits_of_le (hb : 1 < b) (h : b ≤ n) : digits b n = n % b :: digits b (n / b) := by
  have hn : n / b ≠ 0 := (Nat.div_pos h (by omega)).ne'
  rw [digits, if_neg (by omega), digits, if_neg hn, Nat.digits_eq_cons_digits_div hb (by omega)]

theorem lt_of_mem_digits (hb : 1 < b) {d : ℕ} (h : d ∈ digits b n) : d < b := by
  unfold digits at h
  split_ifs at h
  · rw [List.mem_singleton.mp h]
    omega
  · exact Nat.digits_lt_base hb h

theorem ofDigits_digits (b n : ℕ) : Nat.ofDigits b (digits b n) = n := by
  unfold digits
  split_ifs with h
  · simp [h]
  · exact Nat.ofDigits_digits b n

theorem value_reverse (b : ℕ) (ds : List ℕ) : value b ds.reverse = Nat.ofDigits b ds := by
  induction ds with
  | nil => rfl
  | cons d ds ih =>
    rw [List.reverse_cons, value, List.foldl_append, Nat.ofDigits_cons, ← ih, Nat.mul_comm,
      Nat.add_comm]
    rfl

theorem value_numeral (b n : ℕ) : value b (numeral b n) = n := by
  rw [numeral, value_reverse, ofDigits_digits]

theorem numeral_injective (b : ℕ) : Function.Injective (numeral b) := fun m n h => by
  rw [← value_numeral b m, h, value_numeral]

theorem canonical_numeral (hb : 1 < b) (n : ℕ) : Canonical b (numeral b n) where
  digit d hd := lt_of_mem_digits hb (List.mem_reverse.mp hd)
  lead := by
    by_cases hn : n = 0
    · exact .inl (by simp [numeral, digits, hn])
    · have hne : Nat.digits b n ≠ [] := Nat.digits_ne_nil_iff_ne_zero.mpr hn
      refine .inr ⟨_, (Nat.digits b n).dropLast.reverse, Nat.getLast_digit_ne_zero b hn, ?_⟩
      rw [numeral, digits, if_neg hn, ← List.reverse_concat, List.dropLast_concat_getLast hne]

end Numeral
