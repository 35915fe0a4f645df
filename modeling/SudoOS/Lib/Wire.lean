import Mathlib.Tactic
import Mathlib.Data.List.GetD

/-!
# Bytes in memory

A memory is a function from addresses to bytes. `store` writes a list of bytes at an address;
`readLe` reads a little-endian number and `readStr` a string up to its NUL. What is read where the
bytes are known is what they spell (`readLe_of_at`, `readStr_of_at`), and a store leaves every byte
outside its range alone.
-/

namespace Wire

/-- The bytes stand at `pos`. -/
def At (mem : ℕ → UInt8) (pos : ℕ) (bytes : List UInt8) : Prop :=
  ∀ i < bytes.length, mem (pos + i) = bytes.getD i 0

def store (mem : ℕ → UInt8) (pos : ℕ) (bytes : List UInt8) : ℕ → UInt8 := fun i =>
  if pos ≤ i ∧ i < pos + bytes.length then bytes.getD (i - pos) 0 else mem i

def leBytes : ℕ → ℕ → List UInt8
  | 0, _ => []
  | k + 1, n => UInt8.ofNat n :: leBytes k (n / 256)

def readLe (mem : ℕ → UInt8) : ℕ → ℕ → ℕ
  | _, 0 => 0
  | pos, k + 1 => (mem pos).toNat + 256 * readLe mem (pos + 1) k

/-- The string at `pos`, of which at most `fuel` bytes are read. -/
def readStr (mem : ℕ → UInt8) : ℕ → ℕ → List UInt8
  | 0, _ => []
  | fuel + 1, pos => if mem pos = 0 then [] else mem pos :: readStr mem fuel (pos + 1)

variable {mem : ℕ → UInt8} {pos : ℕ} {bytes : List UInt8}

@[simp] theorem leBytes_length : ∀ (k n : ℕ), (leBytes k n).length = k
  | 0, _ => rfl
  | k + 1, n => by simp [leBytes, leBytes_length k]

theorem At.head {b : UInt8} (h : At mem pos (b :: bytes)) : mem pos = b := by
  simpa using h 0 (by simp)

theorem At.tail {b : UInt8} (h : At mem pos (b :: bytes)) : At mem (pos + 1) bytes := by
  intro i hi
  have := h (i + 1) (by simpa using hi)
  simpa [Nat.add_assoc, Nat.add_comm 1 i] using this

theorem At.append_right {more : List UInt8} (h : At mem pos (bytes ++ more)) :
    At mem (pos + bytes.length) more := by
  intro i hi
  rw [Nat.add_assoc, h _ (by simp; omega), List.getD_append_right _ _ _ _ (by omega)]
  congr 1
  omega

theorem at_append {more : List UInt8} (h : At mem pos bytes)
    (h' : At mem (pos + bytes.length) more) : At mem pos (bytes ++ more) := by
  intro i hi
  rw [List.length_append] at hi
  by_cases hlt : i < bytes.length
  · rw [h i hlt, List.getD_append _ _ _ _ hlt]
  · have := h' (i - bytes.length) (by omega)
    rw [List.getD_append_right _ _ _ _ (by omega), ← this]
    congr 1
    omega

/-- A buffer that holds the bytes starts with them. -/
theorem range_map_of_at {size : ℕ} (h : At mem 0 bytes) (hsize : bytes.length ≤ size) :
    ∃ rest, (List.range size).map mem = bytes ++ rest := by
  refine ⟨((List.range size).map mem).drop bytes.length, ?_⟩
  have htake : ((List.range size).map mem).take bytes.length = bytes := by
    refine List.ext_getElem (by simpa using hsize) fun i h₁ h₂ => ?_
    have := h i h₂
    rw [Nat.zero_add, List.getD_eq_getElem _ _ h₂] at this
    simpa using this
  rw [← htake, List.length_take, List.length_map, List.length_range, Nat.min_eq_left hsize]
  exact (List.take_append_drop _ _).symm

/-! ## Stores -/

theorem at_store (mem : ℕ → UInt8) (pos : ℕ) (bytes : List UInt8) :
    At (store mem pos bytes) pos bytes := by
  intro i hi
  unfold store
  rw [if_pos ⟨by omega, by omega⟩, Nat.add_sub_cancel_left]

theorem store_outside {i : ℕ} (h : i < pos ∨ pos + bytes.length ≤ i) :
    store mem pos bytes i = mem i := by
  unfold store
  rw [if_neg (by omega)]

/-- What stands outside the range written stays. -/
theorem At.store {pos' : ℕ} {bytes' : List UInt8} (h : At mem pos bytes)
    (hd : pos + bytes.length ≤ pos' ∨ pos' + bytes'.length ≤ pos) :
    At (store mem pos' bytes') pos bytes := by
  intro i hi
  rw [store_outside (by omega), h i hi]

/-! ## Reads -/

theorem readLe_of_at : ∀ {k n pos : ℕ}, At mem pos (leBytes k n) → readLe mem pos k = n % 256 ^ k
  | 0, n, pos, _ => by simp [readLe, Nat.mod_one]
  | k + 1, n, pos, h => by
    have hb : (UInt8.ofNat n).toNat = n % 256 := by simp
    rw [readLe, h.head, readLe_of_at h.tail, hb, pow_succ, mul_comm (256 ^ k) 256, Nat.mod_mul]

/-- A number depends on its own bytes, wherever they stand. -/
theorem readLe_shift {mem' : ℕ → UInt8} : ∀ {k pos pos' : ℕ},
    (∀ i < k, mem' (pos' + i) = mem (pos + i)) → readLe mem' pos' k = readLe mem pos k
  | 0, _, _, _ => rfl
  | k + 1, pos, pos', h => by
    have hrest : ∀ i < k, mem' (pos' + 1 + i) = mem (pos + 1 + i) := fun i hi => by
      rw [Nat.add_assoc, Nat.add_assoc, Nat.add_comm 1 i]
      exact h (i + 1) (by omega)
    have hfirst : mem' pos' = mem pos := h 0 (by omega)
    rw [readLe, readLe, readLe_shift hrest, hfirst]

theorem readLe_zero : ∀ {k pos : ℕ}, (∀ i < k, mem (pos + i) = 0) → readLe mem pos k = 0
  | 0, _, _ => rfl
  | k + 1, pos, h => by
    have hhead : mem pos = 0 := h 0 (by omega)
    have htail : readLe mem (pos + 1) k = 0 := readLe_zero fun i hi => by
      rw [Nat.add_assoc]
      exact h _ (by omega)
    simp [readLe, hhead, htail]

theorem readLe_congr {mem' : ℕ → UInt8} {k pos : ℕ} (h : ∀ i < k, mem' (pos + i) = mem (pos + i)) :
    readLe mem' pos k = readLe mem pos k :=
  readLe_shift h

theorem readLe_lt (mem : ℕ → UInt8) : ∀ (k pos : ℕ), readLe mem pos k < 256 ^ k
  | 0, _ => by simp [readLe]
  | k + 1, pos => by
    have hb := (mem pos).toNat_lt
    have hrest := readLe_lt mem k (pos + 1)
    rw [readLe, pow_succ]
    omega

theorem readStr_of_at : ∀ {fuel pos : ℕ} {s : List UInt8}, At mem pos (s ++ [0]) → (0 : UInt8) ∉ s →
    s.length < fuel → readStr mem fuel pos = s
  | 0, _, _, _, _, hf => by omega
  | fuel + 1, pos, [], h, _, _ => by simp [readStr, h.head]
  | fuel + 1, pos, c :: s, h, h0, hf => by
    simp only [List.mem_cons, not_or] at h0
    rw [List.cons_append] at h
    have hc := h.head
    have hs := h.tail
    rw [readStr, hc, if_neg (Ne.symm h0.1), readStr_of_at hs h0.2 (by simpa using hf)]

end Wire
