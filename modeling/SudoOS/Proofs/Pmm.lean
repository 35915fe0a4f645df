import SudoOS.Pmm
import SudoOS.Lib.Run

/-!
# The page allocator's invariant

`Pmm.Inv` ties the counter and the cursor to the bitmap: `free_pages` counts the clear bits, and
every bit below the cursor is set. `pmm_init` establishes it and every allocation and release
keeps it, so the first loop of `pmm_alloc_page` finds the lowest clear bit and the second loop is
never reached.

Started from a memory map of disjoint entries, the bits `pmm_init` leaves clear are pages of
usable entries that are neither page zero nor the bitmap's own (`pmmInit_clear`); pages handed out
were clear once, and stay set while they are held.
-/

namespace SudoOS

namespace Pmm

/-- The bitmap covers all pages, and the counter counts its clear bits. -/
structure Counted (p : Pmm) : Prop where
  size : p.totalPages ≤ 8 * p.bitmap.length
  count : p.freePages = ByteMap.countClear p.bitmap p.totalPages

structure Inv (p : Pmm) : Prop extends Counted p where
  width : p.totalPages ≤ 2 ^ 52
  cursor : p.lastFreeIndex ≤ p.totalPages
  below : ∀ i < p.lastFreeIndex, p.bitTest i = true

theorem byte_lt {p : Pmm} (h : p.Counted) {i : ℕ} (hi : i < p.totalPages) :
    i / 8 < p.bitmap.length := by
  have := h.size
  omega

/-! ## Marking runs of pages -/

/-- One round of a marking loop: bit `i` becomes `b`, and nothing else changes but the counter. -/
def Marks (b : Bool) (f : Pmm → ℕ → Pmm) : Prop :=
  ∀ (p : Pmm) (i : ℕ), p.Counted → i < p.totalPages →
    (f p i).Counted ∧ (f p i).totalPages = p.totalPages
      ∧ (f p i).lastFreeIndex = p.lastFreeIndex
      ∧ ∀ j, (f p i).bitTest j = if i = j then b else p.bitTest j

theorem marks_freeBit : Marks false freeBit := by
  intro p i h hi
  unfold freeBit
  split_ifs with hb
  · refine ⟨⟨by simpa [bitUnset] using h.size, ?_⟩, rfl, rfl, fun j => ?_⟩
    · simp only [bitUnset]
      rw [ByteMap.countClear_unset (byte_lt h hi) hi hb, h.count]
    · refine (ByteMap.test_unset _ _ (byte_lt h hi)).trans ?_
      split_ifs with hij <;> simp [hij, bitTest]
  · refine ⟨h, rfl, rfl, fun j => ?_⟩
    split_ifs with hij
    · subst hij
      simpa using hb
    · rfl

theorem marks_busyBit : Marks true busyBit := by
  intro p i h hi
  unfold busyBit
  split_ifs with hb
  · have hc : ByteMap.test p.bitmap i = false := by simpa [bitTest] using hb
    refine ⟨⟨by simpa [bitSet] using h.size, ?_⟩, rfl, rfl, fun j => ?_⟩
    · have := ByteMap.countClear_set (byte_lt h hi) hi hc
      simp only [bitSet, h.count]
      omega
    · refine (ByteMap.test_set _ _ (byte_lt h hi)).trans ?_
      split_ifs with hij <;> simp [hij, bitTest]
  · refine ⟨h, rfl, rfl, fun j => ?_⟩
    split_ifs with hij
    · subst hij
      simpa using hb
    · rfl

theorem foldl_marks {b : Bool} {f : Pmm → ℕ → Pmm} (hf : Marks b f) (p : Pmm) (k : ℕ)
    (h : p.Counted) : ∀ n, k + n < p.totalPages →
      let q := (List.range n).foldl (fun p i => f p (k + i)) p
      q.Counted ∧ q.totalPages = p.totalPages ∧ q.lastFreeIndex = p.lastFreeIndex
        ∧ ∀ j, q.bitTest j = if k ≤ j ∧ j < k + n then b else p.bitTest j
  | 0, _ => by
    refine ⟨h, rfl, rfl, fun j => ?_⟩
    rw [if_neg (by omega)]
    rfl
  | n + 1, hn => by
    obtain ⟨hc, ht, hl, hb⟩ := foldl_marks hf p k h n (by omega)
    simp only [List.range_succ, List.foldl_append, List.foldl_cons, List.foldl_nil]
    obtain ⟨hc', ht', hl', hb'⟩ := hf _ (k + n) hc (by omega)
    refine ⟨hc', ht'.trans ht, hl'.trans hl, fun j => ?_⟩
    rw [hb', hb]
    by_cases hj : k + n = j
    · rw [if_pos hj, if_pos (by omega)]
    · rw [if_neg hj]
      exact if_congr (by omega) rfl rfl

/-- A marking call treats its whole range, or nothing when the range reaches the last page. -/
theorem markRange_spec {b : Bool} {f : Pmm → ℕ → Pmm} (hf : Marks b f) {p : Pmm}
    (h : p.Counted) (k n : ℕ) :
    let q := if k + n ≥ p.totalPages then p else (List.range n).foldl (fun p i => f p (k + i)) p
    q.Counted ∧ q.totalPages = p.totalPages ∧ q.lastFreeIndex = p.lastFreeIndex
      ∧ ∀ j, q.bitTest j
        = if k + n < p.totalPages ∧ k ≤ j ∧ j < k + n then b else p.bitTest j := by
  intro q
  by_cases hn : k + n ≥ p.totalPages
  · have hq : q = p := if_pos hn
    rw [hq]
    refine ⟨h, rfl, rfl, fun j => ?_⟩
    rw [if_neg (by omega)]
  · have hq : q = (List.range n).foldl (fun p i => f p (k + i)) p := if_neg hn
    obtain ⟨hc, ht, hl, hb⟩ := foldl_marks hf p k h n (by omega)
    rw [hq]
    refine ⟨hc, ht, hl, fun j => ?_⟩
    rw [hb]
    exact if_congr (by omega) rfl rfl

theorem pmmSetFree_spec {p : Pmm} (h : p.Counted) (pa n : ℕ) :
    (p.pmmSetFree pa n).Counted ∧ (p.pmmSetFree pa n).totalPages = p.totalPages
      ∧ (p.pmmSetFree pa n).lastFreeIndex = p.lastFreeIndex
      ∧ ∀ j, (p.pmmSetFree pa n).bitTest j
        = if pa2pgidx pa + n < p.totalPages ∧ pa2pgidx pa ≤ j ∧ j < pa2pgidx pa + n then false
          else p.bitTest j :=
  markRange_spec marks_freeBit h (pa2pgidx pa) n

theorem pmmSetBusy_spec {p : Pmm} (h : p.Counted) (pa n : ℕ) :
    (p.pmmSetBusy pa n).Counted ∧ (p.pmmSetBusy pa n).totalPages = p.totalPages
      ∧ (p.pmmSetBusy pa n).lastFreeIndex = p.lastFreeIndex
      ∧ ∀ j, (p.pmmSetBusy pa n).bitTest j
        = if pa2pgidx pa + n < p.totalPages ∧ pa2pgidx pa ≤ j ∧ j < pa2pgidx pa + n then true
          else p.bitTest j :=
  markRange_spec marks_busyBit h (pa2pgidx pa) n

/-! ## Allocation and release -/

theorem pgidx2pa_eq {p : Pmm} (h : p.Inv) {i : ℕ} (hi : i < p.totalPages) :
    pgidx2pa i = 4096 * i := by
  have := h.width
  rw [pgidx2pa, pageSize, u64_of_lt (by omega)]
  omega

/-- Under the invariant only two exits of `pmm_alloc_page` are left. -/
theorem allocExit_cases {p : Pmm} (h : p.Inv) :
    (p.allocExit = .noFreePages ∧ ∀ i < p.totalPages, p.bitTest i = true)
      ∨ ∃ i, p.allocExit = .firstRound i ∧ i < p.totalPages ∧ p.bitTest i = false
        ∧ ∀ j < i, p.bitTest j = true := by
  unfold allocExit
  split_ifs with h0
  · left
    refine ⟨rfl, ?_⟩
    exact ByteMap.countClear_eq_zero.mp (h.count ▸ h0)
  · right
    rcases hs : ByteMap.scan p.bitmap (p.totalPages - p.lastFreeIndex) p.lastFreeIndex with _ | i
    · exfalso
      apply h0
      rw [h.count, ByteMap.countClear_eq_zero]
      intro i hi
      by_cases hl : i < p.lastFreeIndex
      · exact h.below i hl
      · exact (ByteMap.scan_eq_none _ _ _).mp hs i (by omega) (by omega)
    · obtain ⟨h1, h2, h3, h4⟩ := ByteMap.scan_eq_some _ hs
      have := h.cursor
      refine ⟨i, rfl, by omega, h1, fun j hj => ?_⟩
      by_cases hl : j < p.lastFreeIndex
      · exact h.below j hl
      · exact h4 j (by omega) hj

theorem takePage_bitTest {p : Pmm} (h : p.Counted) {i : ℕ} (hi : i < p.totalPages) (j : ℕ) :
    (p.takePage i).bitTest j = (decide (i = j) || p.bitTest j) :=
  ByteMap.test_set _ _ (byte_lt h hi)

theorem takePage_inv {p : Pmm} (h : p.Inv) {i : ℕ} (hi : i < p.totalPages)
    (hc : p.bitTest i = false) (hlow : ∀ j < i, p.bitTest j = true) : (p.takePage i).Inv := by
  refine ⟨⟨by simpa [takePage, bitSet] using h.size, ?_⟩, h.width, hi, fun j hj => ?_⟩
  · have := ByteMap.countClear_set (byte_lt h.toCounted hi) hi hc
    simp only [takePage, bitSet, h.count]
    omega
  · rw [takePage_bitTest h.toCounted hi]
    rcases Nat.eq_or_lt_of_le (Nat.le_of_lt_succ hj) with rfl | hlt
    · simp
    · simp [hlow j hlt]

/-- What `pmm_alloc_page` returns and does. -/
theorem pmmAllocPage_cases {p : Pmm} (h : p.Inv) :
    (p.pmmAllocPage = (0, p) ∧ ∀ i < p.totalPages, p.bitTest i = true)
      ∨ ∃ i, p.pmmAllocPage = (4096 * i, p.takePage i) ∧ i < p.totalPages
        ∧ p.bitTest i = false ∧ ∀ j < i, p.bitTest j = true := by
  unfold pmmAllocPage
  rcases allocExit_cases h with ⟨he, hall⟩ | ⟨i, he, hi, hc, hlow⟩ <;> rw [he]
  · exact .inl ⟨rfl, hall⟩
  · exact .inr ⟨i, by simp only [pgidx2pa_eq h hi], hi, hc, hlow⟩

theorem pmmAllocPage_freePages (p : Pmm) :
    (p.pmmAllocPage).2.freePages ≤ p.freePages
      ∧ ((p.pmmAllocPage).1 ≠ 0 → (p.pmmAllocPage).2.freePages < p.freePages) := by
  have htake : ∀ i, p.freePages ≠ 0 → (p.takePage i).freePages < p.freePages := fun i h =>
    Nat.sub_lt (Nat.pos_of_ne_zero h) one_pos
  by_cases h0 : p.freePages = 0
  · have : p.allocExit = .noFreePages := if_pos h0
    simp [pmmAllocPage, this]
  · unfold pmmAllocPage
    rcases p.allocExit with _ | i | i | _
    · simp
    · exact ⟨(htake i h0).le, fun _ => htake i h0⟩
    · exact ⟨(htake i h0).le, fun _ => htake i h0⟩
    · simp

theorem pmmAllocPage_inv {p : Pmm} (h : p.Inv) : (p.pmmAllocPage).2.Inv := by
  rcases pmmAllocPage_cases h with ⟨he, -⟩ | ⟨i, he, hi, hc, hlow⟩ <;> rw [he]
  · exact h
  · exact takePage_inv h hi hc hlow

theorem givePage_bitTest {p : Pmm} (h : p.Counted) {i : ℕ} (hi : i < p.totalPages) (j : ℕ) :
    (p.givePage i).bitTest j = (!decide (i = j) && p.bitTest j) :=
  ByteMap.test_unset _ _ (byte_lt h hi)

theorem givePage_inv {p : Pmm} (h : p.Inv) {i : ℕ} (hi : i < p.totalPages)
    (hs : p.bitTest i = true) : (p.givePage i).Inv := by
  have hcur := h.cursor
  have hl : (p.givePage i).lastFreeIndex = if i < p.lastFreeIndex then i else p.lastFreeIndex :=
    rfl
  refine ⟨⟨by simpa [givePage, bitUnset] using h.size, ?_⟩, h.width, ?_, fun j hj => ?_⟩
  · have := ByteMap.countClear_unset (byte_lt h.toCounted hi) hi hs
    simp only [givePage, bitUnset, h.count]
    omega
  · show (p.givePage i).lastFreeIndex ≤ p.totalPages
    rw [hl]
    split_ifs <;> omega
  · rw [hl] at hj
    have hji : i ≠ j ∧ j < p.lastFreeIndex := by
      split_ifs at hj <;> omega
    rw [givePage_bitTest h.toCounted hi]
    simp [hji.1, h.below j hji.2]

/-- `pmm_free_page` releases a page that exists and is taken, and ignores any other address. -/
theorem pmmFreePage_cases (p : Pmm) (pa : ℕ) :
    (p.pmmFreePage pa = p ∧ (pa2pgidx pa < p.totalPages → p.bitTest (pa2pgidx pa) = false))
      ∨ (p.pmmFreePage pa = p.givePage (pa2pgidx pa) ∧ pa2pgidx pa < p.totalPages
        ∧ p.bitTest (pa2pgidx pa) = true) := by
  unfold pmmFreePage
  by_cases h1 : pa2pgidx pa ≥ p.totalPages
  · exact .inl ⟨if_pos h1, fun h => by omega⟩
  rw [if_neg h1]
  rcases h2 : p.bitTest (pa2pgidx pa) with _ | _
  · exact .inl ⟨rfl, fun _ => rfl⟩
  · exact .inr ⟨rfl, by omega, rfl⟩

theorem pmmFreePage_inv {p : Pmm} (h : p.Inv) (pa : ℕ) : (p.pmmFreePage pa).Inv := by
  rcases pmmFreePage_cases p pa with ⟨he, -⟩ | ⟨he, hi, hs⟩ <;> rw [he]
  · exact h
  · exact givePage_inv h hi hs

/-- A page-aligned frame below the end of memory whose bit is set. -/
structure Busy (p : Pmm) (pa : ℕ) : Prop where
  aligned : 4096 ∣ pa
  lt : pa / 4096 < p.totalPages
  bit : p.bitTest (pa / 4096) = true

instance (p : Pmm) (pa : ℕ) : Decidable (p.Busy pa) :=
  decidable_of_iff (4096 ∣ pa ∧ pa / 4096 < p.totalPages ∧ p.bitTest (pa / 4096) = true)
    ⟨fun h => ⟨h.1, h.2.1, h.2.2⟩, fun h => ⟨h.aligned, h.lt, h.bit⟩⟩

/-- A frame as `pmm_alloc_page` picks it: not yet taken. -/
structure Vacant (p : Pmm) (pa : ℕ) : Prop where
  aligned : 4096 ∣ pa
  lt : pa / 4096 < p.totalPages
  bit : p.bitTest (pa / 4096) = false

theorem Vacant.not_busy {p : Pmm} {pa : ℕ} (h : p.Vacant pa) : ¬ p.Busy pa := by
  intro hb
  have := h.bit
  rw [hb.bit] at this
  exact absurd this (by simp)

theorem takePage_busy {p : Pmm} (h : p.Inv) {i : ℕ} (hi : i < p.totalPages) {pa : ℕ} :
    (p.takePage i).Busy pa ↔ p.Busy pa ∨ pa = 4096 * i := by
  have hb := takePage_bitTest h.toCounted hi
  constructor
  · rintro ⟨⟨c, rfl⟩, hlt, hbit⟩
    rw [hb] at hbit
    simp only [Bool.or_eq_true, decide_eq_true_eq] at hbit
    rcases hbit with hic | hbit
    · right
      omega
    · exact .inl ⟨⟨c, rfl⟩, hlt, hbit⟩
  · rintro (⟨hal, hlt, hbit⟩ | rfl)
    · exact ⟨hal, hlt, by simp [hb, hbit]⟩
    · refine ⟨⟨i, rfl⟩, ?_, ?_⟩
      · show 4096 * i / 4096 < p.totalPages
        omega
      · rw [hb]
        simp

theorem pmmFreePage_totalPages (p : Pmm) (pa : ℕ) :
    (p.pmmFreePage pa).totalPages = p.totalPages := by
  rcases pmmFreePage_cases p pa with ⟨he, -⟩ | ⟨he, -, -⟩ <;> rw [he]
  rfl

/-- A release takes one frame out of those in use, if it is one of them. -/
theorem pmmFreePage_busy {p : Pmm} (h : p.Inv) {pa : ℕ} (hal : 4096 ∣ pa) (n : ℕ) :
    (p.pmmFreePage pa).Busy n ↔ p.Busy n ∧ n ≠ pa := by
  rcases pmmFreePage_cases p pa with ⟨he, hc⟩ | ⟨he, hi, -⟩ <;> rw [he]
  · refine ⟨fun hn => ⟨hn, ?_⟩, fun hn => hn.1⟩
    rintro rfl
    have hbit := hc hn.lt
    rw [pa2pgidx, pageSize, hn.bit] at hbit
    exact absurd hbit (by simp)
  · have hb := givePage_bitTest h.toCounted hi
    constructor
    · rintro ⟨hn, hlt, hbit⟩
      rw [hb] at hbit
      simp only [Bool.and_eq_true, Bool.not_eq_true', decide_eq_false_iff_not] at hbit
      refine ⟨⟨hn, hlt, hbit.2⟩, ?_⟩
      rintro rfl
      exact hbit.1 rfl
    · rintro ⟨⟨hn, hlt, hbit⟩, hne⟩
      refine ⟨hn, hlt, ?_⟩
      rw [hb, hbit]
      have : pa2pgidx pa ≠ n / 4096 := by
        unfold pa2pgidx pageSize
        omega
      simp [this]

/-- What a caller of `pmm_alloc_page` relies on: taken pages stay taken, and a page it gets was
vacant and is the only one taken in addition. -/
theorem pmmAllocPage_spec {p : Pmm} (h : p.Inv) :
    (p.pmmAllocPage).2.Inv ∧ (p.pmmAllocPage).2.totalPages = p.totalPages
      ∧ (∀ pa, p.Busy pa → (p.pmmAllocPage).2.Busy pa)
      ∧ ((p.pmmAllocPage).1 ≠ 0 → p.Vacant (p.pmmAllocPage).1
        ∧ ∀ pa, (p.pmmAllocPage).2.Busy pa ↔ p.Busy pa ∨ pa = (p.pmmAllocPage).1) := by
  refine ⟨pmmAllocPage_inv h, ?_⟩
  rcases pmmAllocPage_cases h with ⟨he, -⟩ | ⟨i, he, hi, hc, -⟩ <;> rw [he]
  · exact ⟨rfl, fun _ hb => hb, fun hne => absurd rfl hne⟩
  · refine ⟨rfl, fun pa hb => (takePage_busy h hi).mpr (.inl hb), fun _ => ⟨?_, ?_⟩⟩
    · refine ⟨⟨i, rfl⟩, ?_, ?_⟩
      · show 4096 * i / 4096 < p.totalPages
        omega
      · show p.bitTest (4096 * i / 4096) = false
        rw [Nat.mul_div_cancel_left _ (by omega)]
        exact hc
    · exact fun pa => takePage_busy h hi

/-- Pages are handed out from the lowest on, so page zero is taken before any other. -/
theorem pmmAllocPage_busy_zero {p : Pmm} (h : p.Inv) (h0 : (p.pmmAllocPage).1 ≠ 0) :
    p.Busy 0 := by
  rcases pmmAllocPage_cases h with ⟨he, -⟩ | ⟨i, he, hi, -, hlow⟩ <;> rw [he] at h0
  · exact absurd rfl h0
  · have hpos : 0 < i := Nat.pos_of_ne_zero fun hc => h0 (by simp [hc])
    exact ⟨by simp, by simpa using hpos.trans hi, hlow 0 hpos⟩

/-- Once page zero is taken, a failure finds no page at all and leaves everything as it is. -/
theorem pmmAllocPage_of_eq_zero {p : Pmm} (h : p.Inv) (hz : p.Busy 0)
    (h0 : (p.pmmAllocPage).1 = 0) : p.pmmAllocPage = (0, p) := by
  rcases pmmAllocPage_cases h with ⟨he, -⟩ | ⟨i, he, hi, hc, -⟩
  · exact he
  · rw [he] at h0
    obtain rfl : i = 0 := by simpa using h0
    have hbit : p.bitTest 0 = true := hz.bit
    rw [hbit] at hc
    cases hc

/-- Distinct frames in use leave that many fewer to hand out. -/
theorem Inv.length_add_freePages {p : Pmm} (h : p.Inv) {l : List ℕ} (hnd : l.Nodup)
    (hb : ∀ n ∈ l, p.Busy n) : l.length + p.freePages ≤ p.totalPages := by
  have hinj : (l.map (· / 4096)).Nodup := by
    refine hnd.map_on fun a ha b hb' hab => ?_
    obtain ⟨c, rfl⟩ := (hb a ha).aligned
    obtain ⟨d, rfl⟩ := (hb b hb').aligned
    omega
  have hsub : l.map (· / 4096) ⊆ (List.range p.totalPages).filter fun i => p.bitTest i := by
    intro i hi
    obtain ⟨n, hn, rfl⟩ := List.mem_map.mp hi
    exact List.mem_filter.mpr ⟨List.mem_range.mpr (hb n hn).lt, (hb n hn).bit⟩
  have hle : l.length ≤ ((List.range p.totalPages).filter fun i => p.bitTest i).length := by
    have := (hinj.subperm hsub).length_le
    rwa [List.length_map] at this
  have hsplit := List.length_eq_countP_add_countP (fun i => p.bitTest i)
    (l := List.range p.totalPages)
  rw [List.length_range, List.countP_eq_length_filter] at hsplit
  have hclear : p.freePages = (List.range p.totalPages).countP fun a => !p.bitTest a := h.count
  simp only [Bool.not_eq_true, Bool.decide_eq_false] at hsplit
  omega

end Pmm

/-! ## After `pmm_init` -/

theorem bitmapSize_le (n : ℕ) : n ≤ 8 * bitmapSize n := by
  unfold bitmapSize
  split_ifs <;> omega

theorem highestPa_le {mmap : List MemmapEntry} {n : ℕ}
    (h : ∀ e ∈ mmap, u64 (e.base + e.length) ≤ n) : highestPa mmap ≤ n := by
  unfold highestPa
  suffices hall : ∀ (es : List MemmapEntry) (a : ℕ), a ≤ n → (∀ e ∈ es, u64 (e.base + e.length) ≤ n)
      → es.foldl (fun h e =>
        if u64 (e.base + e.length) > h then u64 (e.base + e.length) else h) a ≤ n from
    hall mmap 0 (Nat.zero_le n) h
  intro es
  induction es with
  | nil => exact fun a ha _ => ha
  | cons e es ih =>
    intro a ha hes
    simp only [List.foldl_cons]
    refine ih _ ?_ fun d hd => hes d (List.mem_cons_of_mem e hd)
    split_ifs
    · exact hes e List.mem_cons_self
    · exact ha

theorem highestPa_lt (mmap : List MemmapEntry) : highestPa mmap < 2 ^ 64 :=
  Nat.lt_of_le_pred (by positivity) (highestPa_le fun e _ => Nat.le_pred_of_lt (u64_lt _))

theorem pmmBlank_bitTest {total i : ℕ} (hi : i < total) : (pmmBlank total).bitTest i = true := by
  apply ByteMap.test_replicate
  have := bitmapSize_le total
  omega

theorem pmmBlank_counted (total : ℕ) : (pmmBlank total).Counted := by
  refine ⟨?_, ?_⟩
  · simpa [pmmBlank] using bitmapSize_le total
  · symm
    show ByteMap.countClear _ total = 0
    rw [ByteMap.countClear_eq_zero]
    exact fun i hi => pmmBlank_bitTest hi

theorem freeEntry_spec {p : Pmm} (h : p.Counted) (e : MemmapEntry) :
    (p.freeEntry e).Counted ∧ (p.freeEntry e).totalPages = p.totalPages
      ∧ (p.freeEntry e).lastFreeIndex = p.lastFreeIndex := by
  unfold Pmm.freeEntry
  simp only
  split_ifs
  · exact ⟨h, rfl, rfl⟩
  · obtain ⟨h1, h2, h3, -⟩ := Pmm.pmmSetFree_spec h (alignUp e.base pageSize)
      ((alignDown (u64 (e.base + e.length)) pageSize - alignUp e.base pageSize) / pageSize)
    exact ⟨h1, h2, h3⟩
  · exact ⟨h, rfl, rfl⟩

theorem foldl_freeEntry_spec : ∀ (es : List MemmapEntry) {p : Pmm}, p.Counted →
    (es.foldl Pmm.freeEntry p).Counted ∧ (es.foldl Pmm.freeEntry p).totalPages = p.totalPages
      ∧ (es.foldl Pmm.freeEntry p).lastFreeIndex = p.lastFreeIndex
  | [], p, h => ⟨h, rfl, rfl⟩
  | e :: es, p, h => by
    obtain ⟨h1, h2, h3⟩ := freeEntry_spec h e
    obtain ⟨k1, k2, k3⟩ := foldl_freeEntry_spec es h1
    exact ⟨k1, k2.trans h2, k3.trans h3⟩

/-- `pmm_init` in its stages. -/
theorem pmmInit_eq {mmap : List MemmapEntry} {p : Pmm} (h : pmmInit mmap = some p) :
    let total := highestPa mmap / 4096
    let bitmapPa := bitmapPlace (bitmapSize total) mmap
    bitmapPa ≠ 0 ∧ p = ((mmap.foldl Pmm.freeEntry (pmmBlank total)).pmmSetBusy bitmapPa
      (bitmapPages (bitmapSize total))).pmmSetBusy 0 1 := by
  unfold pmmInit at h
  simp only at h
  split_ifs at h with h0
  simp only [Option.some.injEq] at h
  exact ⟨h0, h.symm⟩

theorem pmmInit_inv {mmap : List MemmapEntry} {p : Pmm} (h : pmmInit mmap = some p) :
    p.Inv ∧ p.lastFreeIndex = 0 ∧ p.totalPages = highestPa mmap / 4096 := by
  obtain ⟨-, rfl⟩ := pmmInit_eq h
  obtain ⟨h1, h2, h3⟩ := foldl_freeEntry_spec mmap (pmmBlank_counted (highestPa mmap / 4096))
  obtain ⟨k1, k2, k3, -⟩ := Pmm.pmmSetBusy_spec h1
    (bitmapPlace (bitmapSize (highestPa mmap / 4096)) mmap)
    (bitmapPages (bitmapSize (highestPa mmap / 4096)))
  obtain ⟨l1, l2, l3, -⟩ := Pmm.pmmSetBusy_spec k1 0 1
  have hl := l3.trans (k3.trans h3)
  have ht := l2.trans (k2.trans h2)
  have hw := highestPa_lt mmap
  refine ⟨⟨l1, ?_, ?_, ?_⟩, hl, ht⟩
  · rw [ht]
    show highestPa mmap / 4096 ≤ 2 ^ 52
    omega
  · rw [hl]
    exact Nat.zero_le _
  · rw [hl]
    exact fun i hi => absurd hi (Nat.not_lt_zero i)

/-! ## Runs of the allocator -/

inductive PmmOp
  | alloc
  | free (pa : ℕ)
  deriving Repr, DecidableEq

def pmmStep (p : Pmm) : PmmOp → Option Pmm
  | .alloc => some (p.pmmAllocPage).2
  | .free pa => some (p.pmmFreePage pa)

theorem pmmStep_inv (p : Pmm) (op : PmmOp) (p' : Pmm) (h : p.Inv)
    (hs : pmmStep p op = some p') : p'.Inv := by
  cases op <;> simp only [pmmStep, Option.some.injEq] at hs <;> subst hs
  · exact Pmm.pmmAllocPage_inv h
  · exact Pmm.pmmFreePage_inv h _

/-- In every state the allocator reaches, the counter and the cursor agree with the bitmap, and
allocation is an exact first fit: it fails only when no page is free, and otherwise takes the
lowest free page in its first loop. -/
theorem pmm_exact_first_fit (mmap : List MemmapEntry) (ops : List PmmOp) {p₀ p : Pmm}
    (h₀ : pmmInit mmap = some p₀) (hr : Run.run pmmStep p₀ ops = some p) :
    (p.freePages = ((List.range p.totalPages).filter fun i => !p.bitTest i).length
      ∧ p.lastFreeIndex ≤ p.totalPages ∧ ∀ i < p.lastFreeIndex, p.bitTest i = true)
    ∧ (p.allocExit = .noFreePages ↔ ∀ i < p.totalPages, p.bitTest i = true)
    ∧ (p.allocExit = .noFreePages → p.pmmAllocPage = (0, p))
    ∧ (∀ i, p.allocExit ≠ .wrapped i) ∧ p.allocExit ≠ .loopFailed
    ∧ ∀ i < p.totalPages, p.bitTest i = false → (∀ j < i, p.bitTest j = true) →
      p.allocExit = .firstRound i ∧ (p.pmmAllocPage).1 = 4096 * i
        ∧ ∀ j, (p.pmmAllocPage).2.bitTest j = if j = i then true else p.bitTest j := by
  have hI : p.Inv := Run.run_invariant pmmStep_inv (pmmInit_inv h₀).1 hr
  refine ⟨⟨?_, hI.cursor, hI.below⟩, ?_, ?_, ?_, ?_, ?_⟩
  · rw [hI.count, ByteMap.countClear, List.countP_eq_length_filter]
    rfl
  · rcases Pmm.allocExit_cases hI with ⟨he, hall⟩ | ⟨i, he, hi, hc, -⟩ <;> rw [he]
    · exact ⟨fun _ => hall, fun _ => rfl⟩
    · refine ⟨fun h => by simp at h, fun h => ?_⟩
      rw [h i hi] at hc
      exact absurd hc (by simp)
  · intro he
    simp only [Pmm.pmmAllocPage, he]
  · rcases Pmm.allocExit_cases hI with ⟨he, -⟩ | ⟨i, he, -⟩ <;> rw [he] <;> simp
  · rcases Pmm.allocExit_cases hI with ⟨he, -⟩ | ⟨i, he, -⟩ <;> rw [he] <;> simp
  · intro i hi hc hlow
    rcases Pmm.allocExit_cases hI with ⟨-, hall⟩ | ⟨k, he, hk, hkc, hklow⟩
    · rw [hall i hi] at hc
      exact absurd hc (by simp)
    · have hik : k = i := by
        rcases Nat.lt_trichotomy k i with hlt | heq | hgt
        · rw [hlow k hlt] at hkc
          exact absurd hkc (by simp)
        · exact heq
        · rw [hklow i hgt] at hc
          exact absurd hc (by simp)
      subst hik
      refine ⟨he, ?_, fun j => ?_⟩
      · simp only [Pmm.pmmAllocPage, he, Pmm.pgidx2pa_eq hI hk]
      · simp only [Pmm.pmmAllocPage, he]
        rw [Pmm.takePage_bitTest hI.toCounted hk]
        split_ifs with hj
        · simp [hj]
        · simp [Ne.symm hj]

/-- Seven usable pages, the bitmap in the first, below a reserved one. -/
def smallMmap : List MemmapEntry :=
  [⟨0x1000, 0x7000, .usable⟩, ⟨0x8000, 0x1000, .reserved⟩]

theorem pmm_exact_first_fit_smallMmap :
    ∃ p₀ p, pmmInit smallMmap = some p₀
      ∧ Run.run pmmStep p₀ [.alloc, .alloc, .free 0x2000, .free 0x123456] = some p
      ∧ p.allocExit = .firstRound 2 ∧ (p.pmmAllocPage).1 = 4096 * 2 := by
  refine ⟨_, _, rfl, rfl, ?_⟩
  obtain ⟨-, -, -, -, -, h⟩ := pmm_exact_first_fit smallMmap
    [.alloc, .alloc, .free 0x2000, .free 0x123456] rfl rfl
  obtain ⟨h1, h2, -⟩ := h 2 (by decide) (by decide) (by decide)
  exact ⟨h1, h2⟩

/-! ## Allocation from boot -/

/-- What the boot protocol promises of a memory map. -/
structure MemmapOk (mmap : List MemmapEntry) : Prop where
  disjoint : mmap.Pairwise fun a b =>
    ∀ x, a.base ≤ x → x < a.base + a.length → b.base ≤ x → x < b.base + b.length → False
  fits : ∀ e ∈ mmap, e.base < 2 ^ 64 ∧ e.base + e.length ≤ 2 ^ 64
  aligned : ∀ e ∈ mmap, e.type = .usable → 4096 ∣ e.base ∧ 4096 ∣ e.length

theorem MemmapOk.eq_of_mem {mmap : List MemmapEntry} (h : MemmapOk mmap) {a b : MemmapEntry}
    (ha : a ∈ mmap) (hb : b ∈ mmap) {x : ℕ} (h1 : a.base ≤ x) (h2 : x < a.base + a.length)
    (h3 : b.base ≤ x) (h4 : x < b.base + b.length) : a = b := by
  by_contra hne
  have : Std.Symm fun a b : MemmapEntry =>
      ∀ x, a.base ≤ x → x < a.base + a.length → b.base ≤ x → x < b.base + b.length → False :=
    ⟨fun a b hab x h1 h2 h3 h4 => hab x h3 h4 h1 h2⟩
  exact h.disjoint.forall ha hb hne x h1 h2 h3 h4

/-- The pages `pmm_init`'s free-marking pass clears for an entry. -/
def FreedBy (total : ℕ) (e : MemmapEntry) (i : ℕ) : Prop :=
  e.type = .usable ∧ e.base ≤ 4096 * i ∧ 4096 * i + 4096 ≤ e.base + e.length
    ∧ (e.base + e.length) / 4096 < total

theorem freeEntry_bitTest {p : Pmm} (h : p.Counted) (hw : p.totalPages ≤ 2 ^ 52) {e : MemmapEntry}
    (hfit : e.base < 2 ^ 64 ∧ e.base + e.length ≤ 2 ^ 64)
    (hal : e.type = .usable → 4096 ∣ e.base ∧ 4096 ∣ e.length) (i : ℕ) :
    (p.freeEntry e).bitTest i = false ↔ p.bitTest i = false ∨ FreedBy p.totalPages e i := by
  unfold Pmm.freeEntry FreedBy
  by_cases hu : e.type = .usable
  · obtain ⟨⟨b, hb⟩, ⟨l, hl⟩⟩ := hal hu
    have hstart : alignUp e.base pageSize = e.base := alignUp_of_dvd hfit.1 ⟨b, hb⟩
    rw [if_pos hu, hstart]
    rcases Nat.lt_or_eq_of_le hfit.2 with hlt | heq
    · have hstop : alignDown (u64 (e.base + e.length)) pageSize = e.base + e.length := by
        rw [u64_of_lt hlt]
        exact alignDown_of_dvd hlt ⟨b + l, by omega⟩
      rw [hstop]
      dsimp only
      split_ifs with hse
      · refine ⟨.inl, fun hc => hc.resolve_right fun hf => ?_⟩
        omega
      · rw [(Pmm.pmmSetFree_spec h _ _).2.2.2]
        unfold pa2pgidx pageSize
        split_ifs with hr
        · refine ⟨fun _ => .inr ⟨hu, ?_⟩, fun _ => rfl⟩
          omega
        · refine ⟨.inl, fun hc => hc.resolve_right fun hf => hr ?_⟩
          omega
    · -- The end of the last page of all wraps to zero.
      have hstop : alignDown (u64 (e.base + e.length)) pageSize = 0 := by
        rw [heq]
        decide
      rw [hstop]
      dsimp only
      rw [if_pos (Nat.zero_le _)]
      refine ⟨.inl, fun hc => hc.resolve_right fun hf => ?_⟩
      omega
  · rw [if_neg hu]
    exact ⟨.inl, fun hc => hc.resolve_right fun hf => hu hf.1⟩

theorem foldl_freeEntry_bitTest : ∀ (es : List MemmapEntry) {p : Pmm}, p.Counted →
    p.totalPages ≤ 2 ^ 52 → (∀ e ∈ es, e.base < 2 ^ 64 ∧ e.base + e.length ≤ 2 ^ 64) →
    (∀ e ∈ es, e.type = .usable → 4096 ∣ e.base ∧ 4096 ∣ e.length) → ∀ i : ℕ,
    ((es.foldl Pmm.freeEntry p).bitTest i = false ↔
      p.bitTest i = false ∨ ∃ e ∈ es, FreedBy p.totalPages e i)
  | [], p, _, _, _, _, i => by simp
  | e :: es, p, h, hw, hfit, hal, i => by
    obtain ⟨h1, h2, -⟩ := freeEntry_spec h e
    rw [List.foldl_cons, foldl_freeEntry_bitTest es h1 (h2.trans_le hw)
      (fun e he => hfit e (List.mem_cons_of_mem _ he))
      (fun e he => hal e (List.mem_cons_of_mem _ he)), h2,
      freeEntry_bitTest h hw (hfit e List.mem_cons_self) (hal e List.mem_cons_self),
      or_assoc]
    simp only [List.mem_cons, exists_eq_or_imp]

theorem bitmapPlace_mem {size : ℕ} : ∀ {mmap : List MemmapEntry}, bitmapPlace size mmap ≠ 0 →
    ∃ e ∈ mmap, e.type = .usable ∧ bitmapPages size * 4096 ≤ e.length
      ∧ bitmapPlace size mmap = e.base
  | [], h => absurd rfl h
  | e :: es, h => by
    simp only [bitmapPlace] at h ⊢
    split_ifs at h ⊢ with he
    · exact ⟨e, List.mem_cons_self, he.1, he.2.2, rfl⟩
    · obtain ⟨e', he', h'⟩ := bitmapPlace_mem h
      exact ⟨e', List.mem_cons_of_mem _ he', h'⟩

theorem bitmapPages_ge {size : ℕ} (h : size ≤ 2 ^ 60) : size ≤ bitmapPages size * 4096 := by
  rw [bitmapPages, alignUp_eq, u64_of_lt (by omega), pageSize]
  omega

/-- A page the allocator may hand out: inside a usable entry, not page zero, and clear of the
bitmap. -/
structure PageOk (mmap : List MemmapEntry) (pa : ℕ) : Prop where
  usable : ∃ e ∈ mmap, e.type = .usable ∧ e.base ≤ pa ∧ pa + 4096 ≤ e.base + e.length
  nonzero : 4096 ≤ pa
  bitmap : pa + 4096 ≤ bitmapPlace (bitmapSize (highestPa mmap / 4096)) mmap
    ∨ bitmapPlace (bitmapSize (highestPa mmap / 4096)) mmap
        + bitmapSize (highestPa mmap / 4096) ≤ pa

/-- The pages `pmm_init` keeps: page zero, and those of the bitmap. -/
def Reserved (mmap : List MemmapEntry) (i : ℕ) : Prop :=
  let size := bitmapSize (highestPa mmap / 4096)
  i = 0 ∨ (pa2pgidx (bitmapPlace size mmap) ≤ i
    ∧ i < pa2pgidx (bitmapPlace size mmap) + bitmapPages size)

/-- Which pages `pmm_init` leaves clear. The bitmap of a map with its first room at the very end is
not marked, but then no page there has been cleared. -/
theorem pmmInit_bitTest {mmap : List MemmapEntry} {p : Pmm} (hok : MemmapOk mmap)
    (h : pmmInit mmap = some p) {i : ℕ} (hi : i < p.totalPages) :
    p.bitTest i = false ↔ (∃ e ∈ mmap, FreedBy p.totalPages e i) ∧ ¬ Reserved mmap i := by
  have hT := (pmmInit_inv h).2.2
  have hw := highestPa_lt mmap
  obtain ⟨hne, rfl⟩ := pmmInit_eq h
  rw [hT] at hi ⊢
  unfold Reserved
  dsimp only
  set total := highestPa mmap / 4096 with htot
  set size := bitmapSize total with hsize
  obtain ⟨h1, h2, -⟩ := foldl_freeEntry_spec mmap (pmmBlank_counted total)
  obtain ⟨k1, k2, -, k4⟩ := Pmm.pmmSetBusy_spec h1 (bitmapPlace size mmap) (bitmapPages size)
  obtain ⟨-, -, -, l4⟩ := Pmm.pmmSetBusy_spec k1 0 1
  have hbt : (mmap.foldl Pmm.freeEntry (pmmBlank total)).totalPages = total := h2
  have hblank : (pmmBlank total).totalPages = total := rfl
  have hclear := foldl_freeEntry_bitTest mmap (pmmBlank_counted total)
    (show total ≤ 2 ^ 52 by omega) hok.fits hok.aligned i
  rw [pmmBlank_bitTest hi, hblank] at hclear
  rw [l4, k2, hbt, k4, hbt]
  have hzero : pa2pgidx 0 = 0 := rfl
  rw [hzero]
  obtain ⟨b, hbm, hbu, hbl, hbp⟩ := bitmapPlace_mem hne
  constructor
  · intro hc
    split_ifs at hc with hz hb
    obtain ⟨e, he, hu, hlo, hhi, htop⟩ := (hclear.mp hc).resolve_left (by simp)
    refine ⟨⟨e, he, hu, hlo, hhi, htop⟩, ?_⟩
    rintro (rfl | hr)
    · omega
    · -- The page would lie in the entry of the bitmap, which has not been cleared.
      refine hb ⟨?_, hr⟩
      obtain ⟨⟨q, hq⟩, -⟩ := hok.aligned b hbm hbu
      unfold pa2pgidx pageSize at hr ⊢
      have heb : e = b := hok.eq_of_mem he hbm (x := 4096 * i) hlo (by omega) (by omega)
        (by omega)
      subst heb
      omega
  · rintro ⟨hf, hr⟩
    rw [not_or] at hr
    rw [if_neg (by omega), if_neg fun hc => hr.2 hc.2]
    exact hclear.mpr (.inr hf)

/-- `pmm_init` leaves clear only pages that may be handed out. -/
theorem pmmInit_clear {mmap : List MemmapEntry} {p : Pmm} (hok : MemmapOk mmap)
    (h : pmmInit mmap = some p) {i : ℕ} (hi : i < p.totalPages) (hc : p.bitTest i = false) :
    PageOk mmap (4096 * i) := by
  have hw := highestPa_lt mmap
  obtain ⟨⟨e, he, hu, hlo, hhi, -⟩, hr⟩ := (pmmInit_bitTest hok h hi).mp hc
  obtain ⟨hne, -⟩ := pmmInit_eq h
  obtain ⟨b, hbm, hbu, hbl, hbp⟩ := bitmapPlace_mem hne
  obtain ⟨⟨q, hq⟩, -⟩ := hok.aligned b hbm hbu
  have hsz : bitmapSize (highestPa mmap / 4096)
      ≤ bitmapPages (bitmapSize (highestPa mmap / 4096)) * 4096 := by
    apply bitmapPages_ge
    have : bitmapSize (highestPa mmap / 4096) ≤ highestPa mmap / 4096 := by
      unfold bitmapSize
      split_ifs <;> omega
    omega
  unfold Reserved pa2pgidx pageSize at hr
  dsimp only at hr
  refine ⟨⟨e, he, hu, hlo, hhi⟩, ?_, ?_⟩ <;> omega

/-- The allocator together with the pages it has handed out. -/
structure HeldState where
  pmm : Pmm
  held : List ℕ
  deriving Repr, DecidableEq

/-- An allocation adds the page it returns, unless it is zero; a release is of a held page. -/
def heldStep (s : HeldState) : PmmOp → Option HeldState
  | .alloc =>
    let r := s.pmm.pmmAllocPage
    some ⟨r.2, if r.1 = 0 then s.held else r.1 :: s.held⟩
  | .free pa => if pa ∈ s.held then some ⟨s.pmm.pmmFreePage pa, s.held.erase pa⟩ else none

structure HeldInv (mmap : List MemmapEntry) (s : HeldState) : Prop where
  pmm : s.pmm.Inv
  nodup : s.held.Nodup
  held : ∀ pa ∈ s.held, ∃ i < s.pmm.totalPages, pa = 4096 * i ∧ s.pmm.bitTest i = true
    ∧ PageOk mmap pa
  clear : ∀ i < s.pmm.totalPages, s.pmm.bitTest i = false → PageOk mmap (4096 * i)

theorem heldStep_inv {mmap : List MemmapEntry} (s : HeldState) (op : PmmOp) (s' : HeldState)
    (h : HeldInv mmap s) (hs : heldStep s op = some s') : HeldInv mmap s' := by
  cases op with
  | alloc =>
    simp only [heldStep, Option.some.injEq] at hs
    rcases Pmm.pmmAllocPage_cases h.pmm with ⟨he, -⟩ | ⟨i, he, hi, hc, hlow⟩ <;> rw [he] at hs
    · simp only [↓reduceIte] at hs
      exact hs ▸ h
    · have hok := h.clear i hi hc
      have hne : 4096 * i ≠ 0 := by have := hok.nonzero; omega
      simp only [hne, ↓reduceIte] at hs
      subst hs
      have hbit := Pmm.takePage_bitTest h.pmm.toCounted hi
      refine ⟨Pmm.takePage_inv h.pmm hi hc hlow, ?_, ?_, ?_⟩
      · refine List.nodup_cons.mpr ⟨fun hm => ?_, h.nodup⟩
        obtain ⟨k, -, hk, hks, -⟩ := h.held _ hm
        have : k = i := by omega
        subst this
        rw [hks] at hc
        exact absurd hc (by simp)
      · intro pa hpa
        rcases List.mem_cons.mp hpa with rfl | hpa
        · exact ⟨i, hi, rfl, by simp [hbit], hok⟩
        · obtain ⟨k, hk, hpk, hks, hkok⟩ := h.held pa hpa
          exact ⟨k, hk, hpk, by simp [hbit, hks], hkok⟩
      · intro k hk hkc
        rw [hbit] at hkc
        simp only [Bool.or_eq_false_iff] at hkc
        exact h.clear k hk hkc.2
  | free pa =>
    simp only [heldStep] at hs
    split_ifs at hs with hm
    simp only [Option.some.injEq] at hs
    subst hs
    obtain ⟨i, hi, hpi, his, hiok⟩ := h.held pa hm
    have hidx : pa2pgidx pa = i := by simp only [pa2pgidx, pageSize]; omega
    have hfree : s.pmm.pmmFreePage pa = s.pmm.givePage i := by
      rcases Pmm.pmmFreePage_cases s.pmm pa with ⟨-, hf⟩ | ⟨he, -⟩
      · rw [hidx] at hf
        rw [hf hi] at his
        exact absurd his (by simp)
      · rw [he, hidx]
    rw [hfree]
    have hbit := Pmm.givePage_bitTest h.pmm.toCounted hi
    refine ⟨Pmm.givePage_inv h.pmm hi his, h.nodup.erase _, ?_, ?_⟩
    · intro pb hpb
      obtain ⟨hne, hmem⟩ := (h.nodup.mem_erase_iff).mp hpb
      obtain ⟨k, hk, hpk, hks, hkok⟩ := h.held pb hmem
      have hik : i ≠ k := by rintro rfl; exact hne (hpk.trans hpi.symm)
      exact ⟨k, hk, hpk, by simp [hbit, hks, hik], hkok⟩
    · intro k hk hkc
      rw [hbit] at hkc
      by_cases hik : i = k
      · rw [← hik, ← hpi]
        exact hiok
      · simp only [hik, decide_false, Bool.not_false, Bool.true_and] at hkc
        exact h.clear k hk hkc

/-- From boot on, the pages handed out and not yet returned are distinct, lie inside usable
entries, and are neither page zero nor part of the bitmap. -/
theorem handed_out_pages_safe (mmap : List MemmapEntry) (ops : List PmmOp) {p₀ : Pmm}
    {s : HeldState} (hok : MemmapOk mmap) (h₀ : pmmInit mmap = some p₀)
    (hr : Run.run heldStep ⟨p₀, []⟩ ops = some s) :
    s.held.Nodup ∧ ∀ pa ∈ s.held, PageOk mmap pa := by
  have hI : HeldInv mmap s := by
    refine Run.run_invariant heldStep_inv ?_ hr
    exact ⟨(pmmInit_inv h₀).1, List.nodup_nil, by simp, fun i hi hc => pmmInit_clear hok h₀ hi hc⟩
  refine ⟨hI.nodup, fun pa hpa => ?_⟩
  obtain ⟨-, -, -, -, hpok⟩ := hI.held pa hpa
  exact hpok

theorem smallMmap_ok : MemmapOk smallMmap := by
  refine ⟨?_, ?_, ?_⟩
  · simp only [smallMmap, List.pairwise_cons, List.mem_singleton, forall_eq,
      List.not_mem_nil, false_imp_iff, implies_true, List.Pairwise.nil, and_true]
    omega
  · decide
  · decide

theorem handed_out_pages_safe_smallMmap :
    ∃ p₀ s, pmmInit smallMmap = some p₀
      ∧ Run.run heldStep ⟨p₀, []⟩ [.alloc, .alloc, .free 0x2000, .alloc] = some s
      ∧ s.held = [0x2000, 0x3000] ∧ ∀ pa ∈ s.held, PageOk smallMmap pa := by
  refine ⟨_, _, rfl, rfl, by decide, ?_⟩
  exact (handed_out_pages_safe smallMmap [.alloc, .alloc, .free 0x2000, .alloc] smallMmap_ok rfl
    rfl).2

end SudoOS
