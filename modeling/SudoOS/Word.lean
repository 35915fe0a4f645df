import Mathlib.Tactic

/-!
# Machine words and pages

Addresses and sizes are naturals; `u64` marks the places where the kernel's 64-bit arithmetic can
wrap. `alignUp` and `alignDown` are the masks of `pmm.h`, and for a power of two they round to a
multiple (`alignUp_eq`, `alignDown_eq`).
-/

namespace SudoOS

/-- The value a `uint64_t` keeps. -/
def u64 (n : ℕ) : ℕ := n % 2 ^ 64

/-- The difference of two `uint64_t`. -/
def u64Sub (a b : ℕ) : ℕ := if b ≤ a then a - b else 2 ^ 64 - (b - a)

/-- `PAGE_SIZE`. -/
def pageSize : ℕ := 4096

/-- `ALIGN_UP`: the complement of `align - 1` in 64 bits is `2 ^ 64 - align`. -/
def alignUp (addr align : ℕ) : ℕ := u64 (addr + align - 1) &&& (2 ^ 64 - align)

/-- `ALIGN_DOWN`. -/
def alignDown (addr align : ℕ) : ℕ := addr &&& (2 ^ 64 - align)

theorem u64_of_lt {n : ℕ} (h : n < 2 ^ 64) : u64 n = n := Nat.mod_eq_of_lt h

theorem u64_lt (n : ℕ) : u64 n < 2 ^ 64 := Nat.mod_lt _ (by positivity)

/-- Page by page, wrapping each time or once. -/
theorem u64_add_mul (v i : ℕ) :
    u64 (u64 (v + pageSize) + i * pageSize) = u64 (v + (i + 1) * pageSize) := by
  unfold u64
  rw [Nat.mod_add_mod]
  congr 1
  ring

theorem u64Sub_of_le {a b : ℕ} (h : b ≤ a) : u64Sub a b = a - b := if_pos h

theorem and_two_pow_sub {x n k : ℕ} (hx : x < 2 ^ n) (hk : k ≤ n) :
    x &&& (2 ^ n - 2 ^ k) = x / 2 ^ k * 2 ^ k := by
  have hle : 2 ^ k ≤ 2 ^ n := Nat.pow_le_pow_right (by omega) hk
  have hpos : 0 < 2 ^ k := by positivity
  have hsub : 2 ^ n - 2 ^ k = 2 ^ n - (2 ^ k - 1 + 1) := by omega
  apply Nat.eq_of_testBit_eq
  intro i
  rw [← Nat.shiftRight_eq_div_pow, ← Nat.shiftLeft_eq, Nat.testBit_and, hsub,
    Nat.testBit_two_pow_sub_succ (by omega), Nat.testBit_two_pow_sub_one,
    Nat.testBit_shiftLeft, Nat.testBit_shiftRight]
  by_cases hik : k ≤ i
  · rw [show k + (i - k) = i by omega]
    by_cases hi : i < n
    · simp [hik, hi]
    · have : x.testBit i = false := by
        apply Nat.testBit_lt_two_pow
        exact hx.trans_le (Nat.pow_le_pow_right (by omega) (by omega))
      simp [this]
  · simp [hik, show i < k by omega]

theorem alignDown_eq {a : ℕ} (ha : a < 2 ^ 64) : alignDown a pageSize = a / 4096 * 4096 :=
  and_two_pow_sub (n := 64) (k := 12) ha (by omega)

theorem alignUp_eq (a : ℕ) : alignUp a pageSize = u64 (a + 4095) / 4096 * 4096 :=
  and_two_pow_sub (n := 64) (k := 12) (u64_lt _) (by omega)

theorem alignUp_eight (a : ℕ) : alignUp a 8 = u64 (a + 7) / 8 * 8 :=
  and_two_pow_sub (n := 64) (k := 3) (u64_lt _) (by omega)

theorem alignUp_of_dvd {a : ℕ} (ha : a < 2 ^ 64) (hd : 4096 ∣ a) : alignUp a pageSize = a := by
  obtain ⟨k, rfl⟩ := hd
  rw [alignUp_eq, u64_of_lt (by omega)]
  omega

theorem alignDown_of_dvd {a : ℕ} (ha : a < 2 ^ 64) (hd : 4096 ∣ a) :
    alignDown a pageSize = a := by
  obtain ⟨k, rfl⟩ := hd
  rw [alignDown_eq ha]
  omega

end SudoOS
