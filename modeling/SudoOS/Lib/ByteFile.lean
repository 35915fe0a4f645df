import Mathlib.Tactic

/-!
# Bounded files

A file is a sequence of at most `cap` items with an offset for each handle, none of them behind the
end. `read` takes what there is from the handle's offset on; `write` puts items over those at the
offset, as many as there is room for, and the file grows when they reach behind its end.
-/

structure ByteFile (ι α : Type*) (cap : ℕ) where
  bytes : List α
  offset : ι → ℕ
  short : bytes.length ≤ cap
  inside : ∀ h, offset h ≤ bytes.length

namespace ByteFile

variable {ι α : Type*} {cap : ℕ}

/-- The items `data` over those of `xs` from `offset` on. -/
def overwrite (xs data : List α) (offset : ℕ) : List α :=
  xs.take offset ++ data ++ xs.drop (offset + data.length)

section Overwrite

variable {xs : List α} {offset : ℕ}

/-- An overwritten sequence is as long as before, or ends with the data. -/
theorem length_overwrite (data : List α) (h : offset ≤ xs.length) :
    (overwrite xs data offset).length = max xs.length (offset + data.length) := by
  simp only [overwrite, List.length_append, List.length_take, List.length_drop]
  omega

/-- The front of an overwritten sequence is the front overwritten. -/
theorem take_overwrite (data : List α) {size : ℕ} (ho : offset ≤ size) (hs : size ≤ xs.length) :
    (overwrite xs data offset).take (max size (offset + data.length))
      = overwrite (xs.take size) data offset := by
  have hlen : (xs.take offset ++ data).length = offset + data.length := by
    simp only [List.length_append, List.length_take]
    omega
  have htake : (xs.take size).take offset = xs.take offset := by
    rw [List.take_take, Nat.min_eq_left ho]
  rw [overwrite, overwrite, List.take_append, hlen, htake, List.take_of_length_le (by omega),
    List.drop_take]
  congr 2
  omega

/-- The data can be read back where it has been put. -/
theorem drop_take_overwrite (data : List α) (h : offset ≤ xs.length) :
    ((overwrite xs data offset).drop offset).take data.length = data := by
  have hlen : (xs.take offset).length = offset := by
    rw [List.length_take, Nat.min_eq_left h]
  rw [overwrite, List.append_assoc, List.drop_left' hlen, List.take_left]

end Overwrite

variable [DecidableEq ι]

/-- The items from the offset on, `count` at most; the offset moves behind them. -/
def read (b : ByteFile ι α cap) (h : ι) (count : ℕ) : List α × ByteFile ι α cap :=
  let data := (b.bytes.drop (b.offset h)).take count
  (data,
    { b with
      offset := Function.update b.offset h (b.offset h + data.length)
      inside := by
        intro g
        have hin := b.inside h
        by_cases hg : g = h
        · simp only [hg, Function.update_self, data, List.length_take, List.length_drop]
          omega
        · simpa [Function.update_of_ne hg] using b.inside g })

/-- How many of `count` items there is room for at the handle's offset. -/
def room (b : ByteFile ι α cap) (h : ι) (count : ℕ) : ℕ := min count (cap - b.offset h)

/-- The items that fit, over those at the offset; the offset moves behind them. -/
def write (b : ByteFile ι α cap) (h : ι) (data : List α) : ℕ × ByteFile ι α cap :=
  let n := b.room h data.length
  (n,
    { bytes := overwrite b.bytes (data.take n) (b.offset h)
      offset := Function.update b.offset h (b.offset h + n)
      short := by
        have hs := b.short
        have hin := b.inside h
        rw [length_overwrite _ hin, List.length_take]
        simp only [n, room]
        omega
      inside := by
        intro g
        rw [length_overwrite _ (b.inside h), List.length_take]
        by_cases hg : g = h
        · simp only [hg, Function.update_self, n, room]
          omega
        · have := b.inside g
          rw [Function.update_of_ne hg]
          omega })

inductive Op (α : Type*)
  | read (count : ℕ)
  | write (data : List α)

/-- One operation: the number it returns, the items read, and the file. -/
def apply (b : ByteFile ι α cap) (h : ι) : Op α → (ℤ × List α) × ByteFile ι α cap
  | .read count => (((b.read h count).1.length, (b.read h count).1), (b.read h count).2)
  | .write data => (((b.write h data).1, []), (b.write h data).2)

def run (b : ByteFile ι α cap) : List (ι × Op α) → List (ℤ × List α) × ByteFile ι α cap
  | [] => ([], b)
  | (h, op) :: ops =>
    let r := b.apply h op
    (r.1 :: (r.2.run ops).1, (r.2.run ops).2)

end ByteFile
