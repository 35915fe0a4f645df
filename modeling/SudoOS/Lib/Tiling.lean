import Mathlib.Tactic

/-!
# Tilings of an interval

A list of pieces, each with a start and a length, tiles an interval of the naturals when every
piece starts where the one before it ends. Pieces of positive length then have distinct starts and
lie apart (`Tiles.apart`), and a piece is found again by its start (`Tiles.takeWhile_ne`,
`Tiles.dropWhile_ne`), which is how a linked list of blocks is searched for a header.
-/

namespace Tiling

variable {β : Type*} {start len : β → ℕ}

def Tiles (start len : β → ℕ) : ℕ → List β → ℕ → Prop
  | lo, [], hi => lo = hi
  | lo, b :: bs, hi => start b = lo ∧ Tiles start len (lo + len b) bs hi

theorem tiles_append : ∀ {lo hi : ℕ} {xs ys : List β},
    Tiles start len lo (xs ++ ys) hi
      ↔ ∃ mid, Tiles start len lo xs mid ∧ Tiles start len mid ys hi
  | lo, hi, [], ys => by simp [Tiles]
  | lo, hi, x :: xs, ys => by
    simp only [List.cons_append, Tiles, tiles_append, and_assoc, exists_and_left]

theorem Tiles.le : ∀ {lo hi : ℕ} {bs : List β}, Tiles start len lo bs hi → lo ≤ hi
  | _, _, [], h => le_of_eq h
  | lo, _, b :: _, h => (Nat.le_add_right lo (len b)).trans h.2.le

theorem Tiles.bounds {lo hi : ℕ} {pre post : List β} {b : β}
    (h : Tiles start len lo (pre ++ b :: post) hi) :
    Tiles start len lo pre (start b) ∧ Tiles start len (start b + len b) post hi := by
  obtain ⟨mid, hpre, hb, hpost⟩ := tiles_append.mp h
  subst hb
  exact ⟨hpre, hpost⟩

theorem tiles_insert {lo hi : ℕ} {pre mid post : List β} {a c : ℕ}
    (hpre : Tiles start len lo pre a) (hmid : Tiles start len a mid c)
    (hpost : Tiles start len c post hi) : Tiles start len lo (pre ++ mid ++ post) hi :=
  tiles_append.mpr ⟨c, tiles_append.mpr ⟨a, hpre, hmid⟩, hpost⟩

theorem Tiles.within {lo hi : ℕ} {bs : List β} (h : Tiles start len lo bs hi) {b : β}
    (hb : b ∈ bs) : lo ≤ start b ∧ start b + len b ≤ hi := by
  obtain ⟨pre, post, rfl⟩ := List.append_of_mem hb
  exact ⟨h.bounds.1.le, h.bounds.2.le⟩

theorem Tiles.congr {len' : β → ℕ} : ∀ {lo hi : ℕ} {bs : List β}, Tiles start len lo bs hi →
    (∀ b ∈ bs, len' b = len b) → Tiles start len' lo bs hi
  | _, _, [], h, _ => h
  | _, _, b :: _, h, hlen => by
    refine ⟨h.1, ?_⟩
    rw [hlen b List.mem_cons_self]
    exact h.2.congr fun c hc => hlen c (List.mem_cons_of_mem _ hc)

/-- Two pieces are one piece or lie apart. -/
theorem Tiles.apart : ∀ {lo hi : ℕ} {bs : List β}, Tiles start len lo bs hi →
    ∀ {a b : β}, a ∈ bs → b ∈ bs →
      a = b ∨ start a + len a ≤ start b ∨ start b + len b ≤ start a
  | _, _, [], _, _, _, ha, _ => by cases ha
  | lo, hi, c :: bs, h, a, b, ha, hb => by
    obtain ⟨hc, h'⟩ := h
    rcases List.mem_cons.mp ha with rfl | ha' <;> rcases List.mem_cons.mp hb with rfl | hb'
    · exact .inl rfl
    · have := (h'.within hb').1
      omega
    · have := (h'.within ha').1
      omega
    · exact h'.apart ha' hb'

section Positive

variable (hpos : ∀ b, 0 < len b)
include hpos

theorem Tiles.start_lt {lo hi : ℕ} {bs : List β} (h : Tiles start len lo bs hi) {b : β}
    (hb : b ∈ bs) : start b < hi := by
  have := (h.within hb).2
  have := hpos b
  omega

theorem Tiles.pairwise_lt : ∀ {lo hi : ℕ} {bs : List β}, Tiles start len lo bs hi →
    bs.Pairwise fun a b => start a < start b
  | _, _, [], _ => List.Pairwise.nil
  | _, _, b :: _, h => by
    refine List.pairwise_cons.mpr ⟨fun c hc => ?_, h.2.pairwise_lt⟩
    have := (h.2.within hc).1
    have := h.1
    have := hpos b
    omega

theorem Tiles.length_le : ∀ {lo hi : ℕ} {bs : List β}, Tiles start len lo bs hi →
    lo + bs.length ≤ hi
  | _, _, [], h => h.le
  | _, _, b :: bs, h => by
    have := h.2.length_le
    have := hpos b
    rw [List.length_cons]
    omega

theorem Tiles.eq_of_start {lo hi : ℕ} {bs : List β} (h : Tiles start len lo bs hi) {a b : β}
    (ha : a ∈ bs) (hb : b ∈ bs) (hab : start a = start b) : a = b := by
  have := hpos a
  have := hpos b
  rcases h.apart ha hb with h' | h' | h'
  · exact h'
  · omega
  · omega

theorem Tiles.takeWhile_ne {lo hi : ℕ} {pre post : List β} {b : β}
    (h : Tiles start len lo (pre ++ b :: post) hi) :
    (pre ++ b :: post).takeWhile (fun c => start c != start b) = pre := by
  have hne : ∀ c ∈ pre, (start c != start b) = true := fun c hc =>
    bne_iff_ne.mpr (h.bounds.1.start_lt hpos hc).ne
  rw [List.takeWhile_append_of_pos hne]
  simp

theorem Tiles.dropWhile_ne {lo hi : ℕ} {pre post : List β} {b : β}
    (h : Tiles start len lo (pre ++ b :: post) hi) :
    (pre ++ b :: post).dropWhile (fun c => start c != start b) = b :: post := by
  have hne : ∀ c ∈ pre, (start c != start b) = true := fun c hc =>
    bne_iff_ne.mpr (h.bounds.1.start_lt hpos hc).ne
  rw [List.dropWhile_append_of_pos hne]
  simp

end Positive

end Tiling
