import Mathlib.Tactic

/-!
# Ring buffers

An array of `n` cells with a position to read from and one to write to. Equal positions mean that it
is empty, so one cell stays unused: what is in the ring is a queue of at most `n - 1` items
(`contents_put`, `contents_get`, `full_iff`).
-/

namespace Ring

variable {α : Type*} {n r w : ℕ}

/-- The position after `i`. -/
def next (n i : ℕ) : ℕ := (i + 1) % n

/-- The cell `i` places behind `r`. -/
def index (n r i : ℕ) : ℕ := if r + i < n then r + i else r + i - n

def count (n r w : ℕ) : ℕ := if r ≤ w then w - r else w + n - r

/-- What waits in the ring, the oldest first. -/
def contents (buf : ℕ → α) (n r w : ℕ) : List α :=
  (List.range (count n r w)).map fun i => buf (index n r i)

@[simp] theorem length_contents (buf : ℕ → α) (n r w : ℕ) :
    (contents buf n r w).length = count n r w := by
  simp [contents]

theorem next_eq {i : ℕ} (h : i < n) : next n i = if i + 1 = n then 0 else i + 1 := by
  unfold next
  split_ifs with hi
  · rw [hi, Nat.mod_self]
  · exact Nat.mod_eq_of_lt (by omega)

theorem next_lt {i : ℕ} (h : i < n) : next n i < n := Nat.mod_lt _ (by omega)

theorem count_le (hw : w < n) : count n r w ≤ n - 1 := by
  unfold count
  split_ifs <;> omega

theorem contents_eq_nil_iff (buf : ℕ → α) (hr : r < n) : contents buf n r w = [] ↔ r = w := by
  rw [← List.length_eq_zero_iff, length_contents]
  unfold count
  split_ifs <;> omega

/-- The next position to write to is the one to read from when `n - 1` items wait. -/
theorem full_iff (hr : r < n) (hw : w < n) : next n w = r ↔ count n r w = n - 1 := by
  rw [next_eq hw]
  unfold count
  split_ifs <;> omega

theorem contents_put (buf : ℕ → α) (c : α) (hr : r < n) (hw : w < n) (h : next n w ≠ r) :
    contents (Function.update buf w c) n r (next n w) = contents buf n r w ++ [c] := by
  have hcount : count n r (next n w) = count n r w + 1 := by
    rw [next_eq hw] at h ⊢
    unfold count
    split_ifs at h ⊢ <;> omega
  have hlast : index n r (count n r w) = w := by
    unfold index count
    split_ifs <;> omega
  rw [contents, hcount, List.range_succ, List.map_append, List.map_singleton, hlast,
    Function.update_self]
  congr 1
  refine List.map_congr_left fun i hi => Function.update_of_ne ?_ _ _
  have hi := List.mem_range.mp hi
  unfold index
  unfold count at hi
  split_ifs at hi ⊢ <;> omega

theorem contents_get (buf : ℕ → α) (hr : r < n) (hw : w < n) (h : r ≠ w) :
    contents buf n r w = buf r :: contents buf n (next n r) w := by
  have hcount : count n r w = count n (next n r) w + 1 := by
    rw [next_eq hr]
    unfold count
    split_ifs <;> omega
  have hfirst : index n r 0 = r := if_pos hr
  rw [contents, hcount, List.range_succ_eq_map, List.map_cons, hfirst, List.map_map]
  congr 1
  refine List.map_congr_left fun i hi => congrArg buf ?_
  have hi := List.mem_range.mp hi
  rw [Nat.succ_eq_add_one]
  rw [next_eq hr] at hi ⊢
  unfold index
  unfold count at hi
  split_ifs at hi ⊢ <;> omega

end Ring
