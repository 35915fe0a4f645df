import SudoOS.Console
import SudoOS.Lib.Run

/-!
# Incremental drawing and full redraws

In the live view the screen is what a full redraw would paint, whatever was printed, erased, wrapped
or scrolled before, with two exceptions: a line feed that ends a view of older lines while the
screen is not yet full redraws nothing, so what was printed meanwhile stays unpainted, and what
`kclear` has left of a padded framebuffer stays until something is painted there. The runs whose
line feeds find the text as it was when the view was scrolled, and whose first call paints what is
left, are exactly those in which the two agree throughout.
-/

namespace SudoOS

@[simp]
theorem drawCharOnScreen_apply {c : UInt8} (hc : c ≤ 127) (screen : Grid) (col row i j : ℕ) :
    drawCharOnScreen screen col row c i j = if i = row ∧ j = col then c else screen i j := by
  unfold drawCharOnScreen
  rw [if_neg (by simpa using hc)]
  by_cases hi : i = row
  · subst hi
    by_cases hj : j = col <;> simp [hj]
  · simp [hi]

theorem drawLine_apply {line : ℕ → UInt8} (hline : ∀ j, line j ≤ 127) (screen : Grid)
    (row i j : ℕ) : ∀ cols : ℕ, drawLine screen cols row line i j
      = if i = row ∧ j < cols then line j else screen i j
  | 0 => by simp [drawLine]
  | cols + 1 => by
    have ih := drawLine_apply hline screen row i j cols
    unfold drawLine at ih ⊢
    rw [List.range_succ, List.foldl_append, List.foldl_cons, List.foldl_nil,
      drawCharOnScreen_apply (hline cols), ih]
    by_cases hi : i = row
    · by_cases hj : j = cols
      · simp [hi, hj]
      · simp [hi, hj, show j < cols + 1 ↔ j < cols by omega]
    · simp [hi]

theorem foldl_drawLine_apply {text : ℕ → ℕ → UInt8} (htext : ∀ i j, text i j ≤ 127) (screen : Grid)
    (cols i j : ℕ) : ∀ rows : ℕ,
      (List.range rows).foldl (fun screen i => drawLine screen cols i (text i)) screen i j
        = if i < rows ∧ j < cols then text i j else screen i j
  | 0 => by simp
  | rows + 1 => by
    rw [List.range_succ, List.foldl_append, List.foldl_cons, List.foldl_nil,
      drawLine_apply (htext rows), foldl_drawLine_apply htext screen cols i j rows]
    by_cases hi : i = rows
    · simp [hi]
    · simp [hi, show i < rows + 1 ↔ i < rows by omega]

namespace Console

variable {s : Console}

/-- What a full redraw paints in row `i` and column `j`. -/
def painted (s : Console) (i j : ℕ) : UInt8 := s.lineText (s.topRow + i) j

theorem lineText_le (hs : ∀ i j, s.history i j ≤ 127) (i j : ℕ) : s.lineText i j ≤ 127 := by
  unfold lineText
  split_ifs
  · decide
  · decide
  · exact hs i j

theorem consoleRefresh_screen (hs : ∀ i j, s.history i j ≤ 127) (i j : ℕ) :
    s.consoleRefresh.screen i j
      = if i < s.screenRows ∧ j < s.screenCols then s.painted i j else s.screen i j := by
  have h := foldl_drawLine_apply (fun i j => lineText_le hs (s.topRow + i) j) s.screen
    s.screenCols.toNat i j s.screenRows.toNat
  simp only [Int.lt_toNat] at h
  exact h

theorem redrawn_iff (hs : ∀ i j, s.history i j ≤ 127) : s.Redrawn ↔
    ∀ i j : ℕ, i < s.screenRows → j < s.screenCols → s.screen i j = s.painted i j := by
  unfold Redrawn
  refine forall₄_congr fun i j hi hj => ?_
  rw [consoleRefresh_screen hs, if_pos ⟨hi, hj⟩]

theorem topRow_of_lt (hoff : 0 ≤ s.viewOffset) (h : s.cursorY < s.screenRows) : s.topRow = 0 := by
  unfold topRow
  omega

theorem painted_of_lt {i j : ℕ} (htop : s.topRow = 0) (hi : s.cursorY < i) :
    s.painted i j = 32 := by
  simp only [painted, lineText, htop, Nat.zero_add]
  rw [if_pos (Or.inl hi)]

/-! ## The invariant -/

/-- Nothing is stored and nothing is shown from line `n` on. -/
structure Ok (s : Console) (n : ℕ) : Prop where
  rows : 1 ≤ s.screenRows
  cols : 1 ≤ s.screenCols
  cursorX : s.cursorX < s.screenCols
  offset : 0 ≤ s.viewOffset
  ascii : ∀ i j, s.history i j ≤ 127
  unused : ∀ i j, n ≤ i → s.history i j = 0
  below : ∀ i j : ℕ, n ≤ i → i < s.screenRows → j < s.screenCols → s.screen i j = 32

/-- What holds between calls: the cursor's line is the last one, and in the live view all is
painted. -/
structure Inv (s : Console) : Prop extends Ok s (s.cursorY + 1) where
  cursorY : s.cursorY < maxHistory
  live : s.viewOffset = 0 → ∀ i j : ℕ, i < s.screenRows → j < s.screenCols →
    s.screen i j = s.painted i j

theorem Ok.mono {m n : ℕ} (h : Ok s m) (hmn : m ≤ n) : Ok s n where
  __ := h
  unused := fun i j hi => h.unused i j (hmn.trans hi)
  below := fun i j hi => h.below i j (hmn.trans hi)

/-- After a redraw it does not matter what was on the screen. -/
theorem refresh_inv (hrows : 1 ≤ s.screenRows) (hcols : 1 ≤ s.screenCols)
    (hx : s.cursorX < s.screenCols) (hoff : 0 ≤ s.viewOffset)
    (hascii : ∀ i j, s.history i j ≤ 127)
    (hunused : ∀ i j, s.cursorY + 1 ≤ i → s.history i j = 0) (hy : s.cursorY < maxHistory) :
    Inv s.consoleRefresh where
  rows := hrows
  cols := hcols
  cursorX := hx
  offset := hoff
  ascii := hascii
  unused := hunused
  cursorY := hy
  below := by
    intro i j hi hr hc
    change s.cursorY < i at hi
    change (i : ℤ) < s.screenRows at hr
    rw [consoleRefresh_screen hascii, if_pos ⟨hr, hc⟩]
    exact painted_of_lt (topRow_of_lt hoff (by omega)) hi
  live := by
    intro _ i j hr hc
    rw [consoleRefresh_screen hascii, if_pos ⟨hr, hc⟩]
    rfl

theorem Ok.refresh (h : Ok s (s.cursorY + 1)) (hy : s.cursorY < maxHistory) :
    Inv s.consoleRefresh :=
  refresh_inv h.rows h.cols h.cursorX h.offset h.ascii h.unused hy

theorem Ok.scrollHistory (h : Ok s s.cursorY) (hy : s.cursorY = maxHistory) :
    Ok { s with
      history := fun i => if i + 1 < maxHistory then s.history (i + 1) else fun _ => 0
      cursorY := maxHistory - 1 } maxHistory where
  rows := h.rows
  cols := h.cols
  cursorX := h.cursorX
  offset := h.offset
  ascii := by
    intro i j
    dsimp only
    split_ifs
    · exact h.ascii (i + 1) j
    · simp
  unused := by
    intro i j hi
    dsimp only
    rw [if_neg (by omega)]
  below := fun i j hi => h.below i j (hy ▸ hi)

/-- Ending a line: the lines above must be painted where no redraw follows. -/
theorem newLine_inv (h : Ok s s.cursorY) (hy : s.cursorY ≤ maxHistory)
    (hlive : s.viewOffset = 0 → s.cursorY < maxHistory → s.cursorY < s.screenRows →
      ∀ i j : ℕ, i < s.cursorY → j < s.screenCols → s.screen i j = s.lineText i j) :
    Inv s.newLine := by
  unfold newLine checkHistoryScroll
  by_cases hfull : s.cursorY ≥ maxHistory
  · have hinv := Ok.refresh (h.scrollHistory (by omega)) (by simp [maxHistory])
    simp only [if_pos hfull]
    split_ifs
    · exact hinv.toOk.refresh hinv.cursorY
    · exact hinv
  · simp only [if_neg hfull]
    have hok : Ok s (s.cursorY + 1) := h.mono (by omega)
    split_ifs with hrow
    · exact hok.refresh (by omega)
    · refine ⟨hok, by omega, fun hoff i j hi hj => ?_⟩
      have htop : s.topRow = 0 := topRow_of_lt h.offset (by omega)
      rcases lt_trichotomy i s.cursorY with hlt | rfl | hgt
      · rw [hlive hoff (by omega) (by omega) i j hlt hj]
        simp [painted, htop]
      · rw [h.below _ j le_rfl hi hj]
        simp [painted, lineText, htop, h.unused]
      · rw [h.below i j hgt.le hi hj, painted_of_lt htop hgt]

/-! ## Calls -/

theorem putCell_lineText {y : ℕ} {c : UInt8} (h : Inv s) (hc0 : c ≠ 0) (i j : ℕ) :
    (s.putCell y c).lineText i j
      = if i = s.cursorY ∧ j = s.cursorX then c else s.lineText i j := by
  have hy := h.cursorY
  simp only [lineText, putCell]
  by_cases hi : i = s.cursorY
  · subst hi
    by_cases hj : j = s.cursorX
    · simp [hj, hc0, hy]
    · simp [hj]
  · simp [hi]

theorem putCell_ascii {y : ℕ} {c : UInt8} (hs : ∀ i j, s.history i j ≤ 127) (hc : c ≤ 127)
    (i j : ℕ) : (s.putCell y c).history i j ≤ 127 := by
  simp only [putCell, Function.update_apply]
  split_ifs
  · rw [Function.update_apply]
    split_ifs
    · exact hc
    · exact hs _ _
  · exact hs _ _

theorem putCell_inv (h : Inv s) {y : ℕ} {c : UInt8} (hc : c ≤ 127) (hc0 : c ≠ 0)
    (hy : s.viewOffset = 0 → s.topRow + y = s.cursorY) : Inv (s.putCell y c) where
  rows := h.rows
  cols := h.cols
  cursorX := h.cursorX
  offset := h.offset
  cursorY := h.cursorY
  ascii := putCell_ascii h.ascii hc
  unused := by
    intro i j hi
    change s.cursorY < i at hi
    simp only [putCell, Function.update_apply]
    rw [if_neg (by omega)]
    exact h.unused i j hi
  below := by
    intro i j hi hr hj
    change s.cursorY < i at hi
    simp only [putCell]
    split_ifs with hoff
    · have := hy hoff
      rw [drawCharOnScreen_apply hc, if_neg (by omega)]
      exact h.below i j hi hr hj
    · exact h.below i j hi hr hj
  live := by
    intro hoff i j hr hj
    change s.viewOffset = 0 at hoff
    have hy := hy hoff
    have hscreen : (s.putCell y c).screen i j
        = if i = y ∧ j = s.cursorX then c else s.screen i j := by
      simp only [putCell, if_pos hoff]
      exact drawCharOnScreen_apply hc _ _ _ _ _
    have htop : (s.putCell y c).topRow = s.topRow := rfl
    rw [hscreen, painted, putCell_lineText h hc0, htop, h.live hoff i j hr hj]
    simp only [painted, show s.topRow + i = s.cursorY ↔ i = y by omega]

theorem Inv.moveX (h : Inv s) {x : ℕ} (hx : x < s.screenCols) : Inv { s with cursorX := x } where
  rows := h.rows
  cols := h.cols
  cursorX := hx
  offset := h.offset
  ascii := h.ascii
  unused := h.unused
  below := h.below
  cursorY := h.cursorY
  live := h.live

theorem painted_onScreen (s : Console) (screen : Grid) (i j : ℕ) :
    { s with screen := screen }.painted i j = s.painted i j := rfl

/-- Only what is in view counts. -/
theorem Inv.onScreen (h : Inv s) {screen : Grid}
    (hs : ∀ i j : ℕ, i < s.screenRows → j < s.screenCols → screen i j = s.screen i j) :
    Inv { s with screen := screen } where
  rows := h.rows
  cols := h.cols
  cursorX := h.cursorX
  offset := h.offset
  ascii := h.ascii
  unused := h.unused
  below := fun i j hi hr hj => (hs i j hr hj).trans (h.below i j hi hr hj)
  cursorY := h.cursorY
  live := fun hoff i j hi hj => (hs i j hi hj).trans (h.live hoff i j hi hj)

/-- The screen row of the cursor's line in the live view. -/
theorem topRow_add_screenY (h : Inv s) (hoff : s.viewOffset = 0) :
    s.topRow + (if s.cursorY ≥ s.screenRows then (s.screenRows - 1).toNat else s.cursorY)
      = s.cursorY := by
  have := h.rows
  unfold topRow
  split_ifs <;> omega

/-- The lines painted in the live view while the screen is not full. -/
theorem Inv.live_lineText (h : Inv s) (hoff : s.viewOffset = 0) (hy : s.cursorY + 1 < s.screenRows)
    {i j : ℕ} (hi : i ≤ s.cursorY) (hj : j < s.screenCols) : s.screen i j = s.lineText i j := by
  rw [h.live hoff i j (by omega) hj, painted, topRow_of_lt h.offset (by omega), Nat.zero_add]

/-- The next line, in the view `offset`. -/
theorem nextLine_inv (h : Inv s) {offset : ℤ} (hoff : 0 ≤ offset)
    (hlive : offset = 0 → s.cursorY + 1 < maxHistory → s.cursorY + 1 < s.screenRows →
      ∀ i ≤ s.cursorY, ∀ j < s.screenCols.toNat, s.screen i j = s.lineText i j) :
    Inv { s with cursorX := 0, cursorY := s.cursorY + 1, viewOffset := offset }.newLine := by
  refine newLine_inv ⟨h.rows, h.cols, ?_, hoff, h.ascii, h.unused, h.below⟩ h.cursorY ?_
  · have := h.cols
    simp only [Nat.cast_zero]
    omega
  · intro hzero hmax hr i j hi hj
    have hi : i ≤ s.cursorY := Nat.lt_succ_iff.mp hi
    have hsame := hlive hzero hmax (by simpa using hr) i hi j (Int.lt_toNat.mpr hj)
    rw [hsame]
    simp [lineText, show ¬ s.cursorY < i by omega, show ¬ s.cursorY + 1 < i by omega]

theorem feed_inv (h : Inv s) (hlive : 0 < s.viewOffset → s.cursorY + 1 < maxHistory →
    s.cursorY + 1 < s.screenRows →
      ∀ i ≤ s.cursorY, ∀ j < s.screenCols.toNat, s.screen i j = s.lineText i j) :
    Inv (s.kprintChar 10) := by
  refine nextLine_inv h le_rfl fun _ hmax hr i hi j hj => ?_
  by_cases hoff : s.viewOffset = 0
  · exact h.live_lineText hoff hr hi (Int.lt_toNat.mp hj)
  · exact hlive (lt_of_le_of_ne h.offset (Ne.symm hoff)) hmax hr i hi j hj

theorem backspace_inv (h : Inv s) : Inv (s.kprintChar 8) := by
  have hrows := h.rows
  have hx := h.cursorX
  change Inv (if s.cursorX > 0 then _ else s)
  by_cases hpos : s.cursorX > 0
  · have hmove := h.moveX (x := s.cursorX - 1) (by omega)
    rw [if_pos hpos]
    refine putCell_inv hmove (by decide) (by decide) fun hoff => ?_
    simp only [show s.screenRows > 0 by omega, true_and]
    exact topRow_add_screenY hmove hoff
  · rw [if_neg hpos]
    exact h

theorem printable_inv (h : Inv s) {c : UInt8} (hc : 32 ≤ c ∧ c ≤ 126) : Inv (s.kprintChar c) := by
  have hput := putCell_inv (c := c) h (UInt8.le_trans hc.2 (by decide))
    (fun hz => absurd hc.1 (by simp [hz])) (topRow_add_screenY h)
  have hnl : c ≠ 10 := fun hz => absurd hc.1 (by simp [hz])
  have hbs : c ≠ 8 := fun hz => absurd hc.1 (by simp [hz])
  unfold kprintChar
  rw [if_neg hnl, if_neg hbs, if_pos hc,
    if_neg (show ¬ s.cursorY ≥ maxHistory from not_le.mpr h.cursorY)]
  dsimp only
  generalize s.putCell _ c = t at hput ⊢
  split_ifs with hcol
  · refine nextLine_inv hput hput.offset fun hoff _ hr i hi j hj => ?_
    exact hput.live_lineText hoff hr hi (Int.lt_toNat.mp hj)
  · exact hput.moveX (by push_cast; exact not_le.mp hcol)

theorem kprintChar_inv (h : Inv s) {c : UInt8} (hnl : c ≠ 10) : Inv (s.kprintChar c) := by
  by_cases hbs : c = 8
  · subst hbs
    exact backspace_inv h
  · by_cases hc : 32 ≤ c ∧ c ≤ 126
    · exact printable_inv h hc
    · simpa only [kprintChar, if_neg hnl, if_neg hbs, if_neg hc] using h

theorem consoleScroll_inv (hrows : 1 ≤ s.screenRows) (hcols : 1 ≤ s.screenCols)
    (hx : s.cursorX < s.screenCols) (hascii : ∀ i j, s.history i j ≤ 127)
    (hunused : ∀ i j, s.cursorY + 1 ≤ i → s.history i j = 0) (hy : s.cursorY < maxHistory)
    (lines : BitVec 32) : Inv (s.consoleScroll lines) := by
  unfold consoleScroll
  refine refresh_inv hrows hcols hx ?_ hascii hunused hy
  dsimp only
  split_ifs <;> omega

theorem Inv.scroll (h : Inv s) (lines : BitVec 32) : Inv (s.consoleScroll lines) :=
  consoleScroll_inv h.rows h.cols h.cursorX h.ascii h.unused h.cursorY lines

theorem consoleScroll_screen (hs : ∀ i j, s.history i j ≤ 127) (lines : BitVec 32) (i j : ℕ) :
    (s.consoleScroll lines).screen i j = if i < s.screenRows ∧ j < s.screenCols then
      (s.consoleScroll lines).painted i j else s.screen i j := by
  unfold consoleScroll
  refine consoleRefresh_screen ?_ i j
  exact hs

/-- A new line that redraws nothing. -/
theorem newLine_of_lt (hmax : s.cursorY < maxHistory) (hr : s.cursorY < s.screenRows) :
    s.newLine = s := by
  unfold newLine checkHistoryScroll
  rw [if_neg (not_le.mpr hmax)]
  exact if_neg (not_le.mpr hr)

theorem newLine_fields (s : Console) : s.newLine.viewOffset = s.viewOffset
    ∧ s.newLine.screenRows = s.screenRows ∧ s.newLine.screenCols = s.screenCols
    ∧ s.newLine.cursorY = if s.cursorY ≥ maxHistory then maxHistory - 1 else s.cursorY := by
  unfold newLine checkHistoryScroll
  dsimp only
  split_ifs
  · exact ⟨rfl, rfl, rfl, rfl⟩
  · exact ⟨rfl, rfl, rfl, rfl⟩
  · exact ⟨rfl, rfl, rfl, rfl⟩
  · exact ⟨rfl, rfl, rfl, rfl⟩

theorem kprintChar_fields (s : Console) (c : UInt8) :
    (s.viewOffset = 0 → (s.kprintChar c).viewOffset = 0)
      ∧ (s.kprintChar c).screenRows = s.screenRows
      ∧ (s.kprintChar c).screenCols = s.screenCols := by
  have hnew : ∀ t : Console, t.newLine.viewOffset = t.viewOffset
      ∧ t.newLine.screenRows = t.screenRows ∧ t.newLine.screenCols = t.screenCols := fun t =>
    ⟨(newLine_fields t).1, (newLine_fields t).2.1, (newLine_fields t).2.2.1⟩
  unfold kprintChar
  dsimp only
  split_ifs
  · exact ⟨fun _ => (hnew _).1, (hnew _).2⟩
  · exact ⟨id, rfl, rfl⟩
  · exact ⟨id, rfl, rfl⟩
  all_goals first
    | exact ⟨fun hoff => (hnew _).1.trans hoff, (hnew _).2⟩
    | exact ⟨id, rfl, rfl⟩

/-- A line feed that redraws nothing. -/
theorem feed_of_lt (hmax : s.cursorY + 1 < maxHistory) (hr : s.cursorY + 1 < s.screenRows) :
    s.kprintChar 10 = { s with cursorX := 0, cursorY := s.cursorY + 1, viewOffset := 0 } :=
  newLine_of_lt hmax (by push_cast; exact hr)

/-- What is printed into an older view of a screen not yet full paints nothing. -/
theorem kprintChar_back {c : UInt8} (hy : s.cursorY < maxHistory) (hnl : c ≠ 10)
    (hoff : 0 < (s.kprintChar c).viewOffset) (hmax : (s.kprintChar c).cursorY + 1 < maxHistory)
    (hr : (s.kprintChar c).cursorY + 1 < (s.kprintChar c).screenRows) :
    (0 < s.viewOffset ∧ s.cursorY + 1 < maxHistory ∧ s.cursorY + 1 < s.screenRows)
      ∧ (s.kprintChar c).screen = s.screen := by
  have hput : ∀ (u : Console) (y : ℕ) (d : UInt8), 0 < u.viewOffset →
      (u.putCell y d).screen = u.screen := fun u y d hu => if_neg hu.ne'
  unfold kprintChar at *
  rw [if_neg hnl] at *
  by_cases hbs : c = 8
  · rw [if_pos hbs] at *
    by_cases hx : s.cursorX > 0
    · rw [if_pos hx] at *
      exact ⟨⟨hoff, hmax, hr⟩, hput _ _ _ hoff⟩
    · rw [if_neg hx] at *
      exact ⟨⟨hoff, hmax, hr⟩, rfl⟩
  rw [if_neg hbs] at *
  by_cases hc : 32 ≤ c ∧ c ≤ 126
  · simp only [if_pos hc, if_neg (not_le.mpr hy)] at *
    generalize hput' : s.putCell _ c = t at *
    have ht : 0 < s.viewOffset → t.screen = s.screen := fun hs => hput' ▸ hput s _ c hs
    obtain ⟨hx, hys, hvs, hrs, hcs⟩ : t.cursorX = s.cursorX ∧ t.cursorY = s.cursorY
        ∧ t.viewOffset = s.viewOffset ∧ t.screenRows = s.screenRows
        ∧ t.screenCols = s.screenCols := by
      subst hput'
      exact ⟨rfl, rfl, rfl, rfl, rfl⟩
    by_cases hwrap : (t.cursorX : ℤ) + 1 ≥ t.screenCols
    · rw [if_pos hwrap] at *
      obtain ⟨hv, hrows, -, hcur⟩ :=
        newLine_fields { t with cursorX := 0, cursorY := t.cursorY + 1 }
      rw [hv] at hoff
      rw [hrows, hcur] at hr
      rw [hcur] at hmax
      dsimp only at hoff hmax hr
      have hlt : t.cursorY + 1 < maxHistory := by
        by_contra hge
        rw [if_pos (not_lt.mp hge)] at hmax
        simp [maxHistory] at hmax
      rw [if_neg (not_le.mpr hlt)] at hr
      rw [newLine_of_lt hlt (by push_cast at hr ⊢; omega)]
      exact ⟨⟨by omega, by omega, by push_cast at hr; omega⟩, ht (by omega)⟩
    · rw [if_neg hwrap] at *
      dsimp only at hoff hmax hr ⊢
      exact ⟨⟨by omega, by omega, by omega⟩, ht (by omega)⟩
  · rw [if_neg hc] at *
    exact ⟨⟨hoff, hmax, hr⟩, rfl⟩

/-! ## What is printed in a view of older lines -/

/-- The history as it is painted, a zero byte as a blank. -/
def text (s : Console) : Grid := fun i j => if s.history i j = 0 then 32 else s.history i j

/-- The console beside the text it had at the last `console_scroll`. -/
structure Watched where
  console : Console
  seen : Grid

namespace Watched

def start (fb : Framebuffer) : Watched := ⟨consoleInit fb, (consoleInit fb).text⟩

def step (w : Watched) (op : Op) : Option Watched :=
  (w.console.step op).map fun s =>
    match op with
    | .kprintChar _ => ⟨s, w.seen⟩
    | .consoleScroll _ => ⟨s, s.text⟩

/-- A line feed that ends a view of older lines and redraws nothing comes when the text is again
what it was at the last `console_scroll`. -/
def FeedOk (w : Watched) : Op → Prop
  | .kprintChar c => c = 10 → 0 < w.console.viewOffset → w.console.cursorY + 1 < maxHistory →
      w.console.cursorY + 1 < w.console.screenRows →
      ∀ i ≤ w.console.cursorY, ∀ j < w.console.screenCols.toNat, w.console.text i j = w.seen i j
  | .consoleScroll _ => True

instance (w : Watched) : (op : Op) → Decidable (w.FeedOk op)
  | .kprintChar c => inferInstanceAs (Decidable (c = 10 → _))
  | .consoleScroll _ => inferInstanceAs (Decidable True)

/-- An older view of a screen not yet full shows the text of the last `console_scroll`. -/
structure Inv (w : Watched) : Prop where
  console : w.console.Inv
  back : 0 < w.console.viewOffset → w.console.cursorY + 1 < maxHistory →
    w.console.cursorY + 1 < w.console.screenRows →
    ∀ i j : ℕ, i < w.console.screenRows → j < w.console.screenCols →
      w.console.screen i j = w.seen i j

end Watched

theorem text_of_le {i j : ℕ} (hi : i ≤ s.cursorY) (hmax : s.cursorY < maxHistory) :
    s.lineText i j = s.text i j := by
  unfold lineText text
  rw [if_neg (by omega)]

theorem Watched.step_inv (w : Watched) (op : Op) (w' : Watched) (h : w.Inv) (hok : w.FeedOk op)
    (hstep : w.step op = some w') : w'.Inv := by
  obtain ⟨s, seen⟩ := w
  obtain ⟨hs, hback⟩ := h
  change s.Inv at hs
  rcases op with c | lines
  · obtain rfl := Option.some.inj hstep
    by_cases hnl : c = 10
    · subst hnl
      refine ⟨feed_inv hs fun hoff hmax hr i hi j hj => ?_, fun hoff => ?_⟩
      · have hlt : (i : ℤ) < s.screenRows := by
          dsimp only at hi hr
          omega
        rw [hback hoff hmax hr i j hlt (Int.lt_toNat.mp hj), text_of_le hi hs.cursorY]
        exact (hok rfl hoff hmax hr i hi j hj).symm
      · have hzero : (s.kprintChar 10).viewOffset = 0 := (newLine_fields _).1
        exact absurd hzero hoff.ne'
    · refine ⟨kprintChar_inv hs hnl, fun hoff hmax hr i j hi hj => ?_⟩
      obtain ⟨⟨hoff, hmax, hr⟩, hscreen⟩ := kprintChar_back hs.cursorY hnl hoff hmax hr
      obtain ⟨-, hrows, hcols⟩ := kprintChar_fields s c
      dsimp only at hi hj ⊢
      rw [hscreen]
      exact hback hoff hmax hr i j (hrows ▸ hi) (hcols ▸ hj)
  · obtain ⟨t, ht, rfl⟩ := Option.map_eq_some_iff.mp hstep
    obtain rfl := consoleScroll_step ht
    have hinv := hs.scroll lines
    refine ⟨hinv, fun _ hmax hr i j hi hj => ?_⟩
    dsimp only at hi hj hr hmax ⊢
    rw [consoleScroll_screen hs.ascii, if_pos ⟨hi, hj⟩, painted,
      topRow_of_lt hinv.offset (by omega), Nat.zero_add]
    by_cases hle : i ≤ (s.consoleScroll lines).cursorY
    · exact text_of_le hle hinv.cursorY
    · have hunused := hinv.unused i j (by omega)
      unfold lineText text
      rw [if_pos (.inl (not_le.mp hle)), if_pos hunused]

/-- Any other line feed leaves the live view behind the history. -/
theorem Watched.not_redrawn_of_feed {w w' : Watched} (h : w.Inv) {op : Op} (hok : ¬ w.FeedOk op)
    (hstep : w.step op = some w') : w'.console.viewOffset = 0 ∧ ¬ w'.console.Redrawn := by
  obtain ⟨s, seen⟩ := w
  obtain ⟨hs, hback⟩ := h
  dsimp only at hs hback
  rcases op with c | lines
  · simp only [FeedOk, not_forall] at hok
    obtain ⟨rfl, hpos, hmax, hr, i, hi, j, hj, hne⟩ := hok
    have hj := Int.lt_toNat.mp hj
    obtain rfl := Option.some.inj hstep
    have hseen := hback hpos hmax hr i j (by omega) hj
    have ht := feed_of_lt hmax hr
    have hascii : ∀ i j, (s.kprintChar 10).history i j ≤ 127 := by
      rw [ht]
      exact hs.ascii
    have htop : (s.kprintChar 10).topRow = 0 := by
      rw [ht]
      exact topRow_of_lt le_rfl (by push_cast; omega)
    refine ⟨by dsimp only; rw [ht], fun hred => hne ?_⟩
    have hpaint := (redrawn_iff hascii).mp hred i j
    rw [painted, htop, ht, Nat.zero_add, text_of_le (by dsimp only; omega) hmax] at hpaint
    have := hpaint (by dsimp only; omega) hj
    rw [← hseen]
    exact this.symm
  · exact absurd trivial hok

/-! ## The first call -/

/-- The console after `console_init`, but with `screen` on its framebuffer. -/
def initWith (fb : Framebuffer) (screen : Grid) : Console :=
  { consoleInit fb with screen := screen }

/-- What the first call paints: a scroll, and on a screen of one row the end of a line, everything,
and a character its cell. -/
def FirstPaints (fb : Framebuffer) : Op → ℕ → ℕ → Prop
  | .kprintChar c, i, j =>
    (consoleInit fb).screenRows = 1
        ∧ (c = 10 ∨ (32 ≤ c ∧ c ≤ 126) ∧ (consoleInit fb).screenCols = 1)
      ∨ (32 ≤ c ∧ c ≤ 126) ∧ i = 0 ∧ j = 0
  | .consoleScroll _, _, _ => True

instance (fb : Framebuffer) : (op : Op) → (i j : ℕ) → Decidable (FirstPaints fb op i j)
  | .kprintChar _, _, _ => inferInstanceAs (Decidable (_ ∨ _))
  | .consoleScroll _, _, _ => inferInstanceAs (Decidable True)

/-- Every cell in view is blank after `kclear` or painted by the first call. -/
def FirstOk (fb : Framebuffer) : List Op → Prop
  | [] => True
  | op :: _ => ∀ i < (consoleInit fb).screenRows.toNat, ∀ j < (consoleInit fb).screenCols.toNat,
      kclear fb i j = 32 ∨ FirstPaints fb op i j

instance (fb : Framebuffer) : (ops : List Op) → Decidable (FirstOk fb ops)
  | [] => inferInstanceAs (Decidable True)
  | op :: _ =>
    inferInstanceAs (Decidable (∀ i < _, ∀ j < _, kclear fb i j = 32 ∨ FirstPaints fb op i j))

section First

variable {fb : Framebuffer} (hr : 1 ≤ (consoleInit fb).screenRows)
  (hc : 1 ≤ (consoleInit fb).screenCols)

include hr hc

theorem initWith_blank_inv : Inv (initWith fb fun _ _ => 32) where
  rows := hr
  cols := hc
  cursorX := by
    change (0 : ℤ) < (consoleInit fb).screenCols
    omega
  offset := le_rfl
  ascii := fun _ _ => by simp [initWith, consoleInit]
  unused := fun _ _ _ => rfl
  below := fun _ _ _ _ _ => rfl
  cursorY := by simp [initWith, consoleInit, maxHistory]
  live := fun _ i j _ _ => by simp [initWith, consoleInit, painted, lineText]

omit hc in
/-- The end of the first line. -/
theorem newLine_first {s : Console} (hy : s.cursorY = 1)
    (hrows : s.screenRows = (consoleInit fb).screenRows) :
    s.newLine = if (consoleInit fb).screenRows = 1 then s.consoleRefresh else s := by
  unfold newLine checkHistoryScroll
  have hmax : ¬ s.cursorY ≥ maxHistory := by
    rw [hy]
    decide
  simp only [if_neg hmax]
  by_cases hone : (consoleInit fb).screenRows = 1
  · rw [if_pos hone, if_pos (by omega)]
  · rw [if_neg hone, if_neg (by omega)]

omit hc in
/-- The first call, a line feed. -/
theorem first_feed (screen : Grid) :
    (initWith fb screen).kprintChar 10 = if (consoleInit fb).screenRows = 1 then
        { initWith fb screen with cursorX := 0, cursorY := 1, viewOffset := 0 }.consoleRefresh
      else { initWith fb screen with cursorX := 0, cursorY := 1, viewOffset := 0 } :=
  newLine_first hr rfl rfl

/-- The first call, a character. -/
theorem first_printable (screen : Grid) {c : UInt8} (hc' : 32 ≤ c ∧ c ≤ 126) :
    (initWith fb screen).kprintChar c = if (consoleInit fb).screenCols = 1 then
        if (consoleInit fb).screenRows = 1 then
          { (initWith fb screen).putCell 0 c with cursorX := 0, cursorY := 1 }.consoleRefresh
        else { (initWith fb screen).putCell 0 c with cursorX := 0, cursorY := 1 }
      else { (initWith fb screen).putCell 0 c with cursorX := 1 } := by
  have hnl : ¬ c = 10 := fun hz => absurd hc'.1 (by simp [hz])
  have hbs : ¬ c = 8 := fun hz => absurd hc'.1 (by simp [hz])
  have hmax : ¬ (initWith fb screen).cursorY ≥ maxHistory := by
    change ¬ 0 ≥ maxHistory
    decide
  have hrow : ¬ ((initWith fb screen).cursorY : ℤ) ≥ (initWith fb screen).screenRows := by
    change ¬ (0 : ℤ) ≥ (consoleInit fb).screenRows
    omega
  unfold kprintChar
  simp only [if_neg hnl, if_neg hbs, if_pos hc', if_neg hmax, if_neg hrow]
  by_cases hone : (consoleInit fb).screenCols = 1
  · rw [if_pos hone]
    refine (if_pos ?_).trans (newLine_first hr (by rfl) (by rfl))
    change (0 : ℤ) + 1 ≥ (consoleInit fb).screenCols
    omega
  · rw [if_neg hone]
    refine if_neg ?_
    change ¬ (0 : ℤ) + 1 ≥ (consoleInit fb).screenCols
    omega

/-- What is on the screen bears on the screen alone. -/
theorem first_same (screen : Grid) (c : UInt8) :
    (initWith fb screen).kprintChar c = { (initWith fb fun _ _ => 32).kprintChar c with
      screen := ((initWith fb screen).kprintChar c).screen } := by
  by_cases hnl : c = 10
  · subst hnl
    rw [first_feed hr, first_feed hr]
    split_ifs <;> rfl
  by_cases hbs : c = 8
  · subst hbs
    rfl
  by_cases hc' : 32 ≤ c ∧ c ≤ 126
  · rw [first_printable hr hc _ hc', first_printable hr hc _ hc']
    split_ifs <;> rfl
  · unfold kprintChar
    simp only [if_neg hnl, if_neg hbs, if_neg hc']
    rfl

theorem first_screen (screen : Grid) (c : UInt8) {i j : ℕ} (hi : i < (consoleInit fb).screenRows)
    (hj : j < (consoleInit fb).screenCols) :
    ((initWith fb screen).kprintChar c).screen i j
      = if FirstPaints fb (.kprintChar c) i j then
          ((initWith fb fun _ _ => 32).kprintChar c).screen i j
        else screen i j := by
  -- A redraw is the same whatever was on the screen.
  have hrefresh : ∀ s : Console, (∀ i j, s.history i j ≤ 127) →
      s.screenRows = (consoleInit fb).screenRows → s.screenCols = (consoleInit fb).screenCols →
        ∀ g, { s with screen := g }.consoleRefresh.screen i j = s.consoleRefresh.screen i j := by
    intro s hs hsr hsc g
    have hin : (i : ℤ) < s.screenRows ∧ (j : ℤ) < s.screenCols := ⟨hsr ▸ hi, hsc ▸ hj⟩
    rw [consoleRefresh_screen hs, if_pos hin]
    exact (consoleRefresh_screen (by exact hs) i j).trans (if_pos hin)
  have hblank : ∀ i j, (consoleInit fb).history i j ≤ 127 := fun i j => by simp [consoleInit]
  by_cases hnl : c = 10
  · subst hnl
    rw [first_feed hr, first_feed hr]
    by_cases hone : (consoleInit fb).screenRows = 1
    · rw [if_pos hone, if_pos hone, if_pos (.inl ⟨hone, .inl rfl⟩)]
      exact hrefresh { initWith fb fun _ _ => 32 with cursorX := 0, cursorY := 1, viewOffset := 0 }
        hblank rfl rfl screen
    · rw [if_neg hone, if_neg (by simp [FirstPaints, hone])]
      rfl
  by_cases hbs : c = 8
  · subst hbs
    rw [if_neg (by simp [FirstPaints])]
    rfl
  by_cases hc' : 32 ≤ c ∧ c ≤ 126
  · have hle : c ≤ 127 := UInt8.le_trans hc'.2 (by decide)
    have hput : ∀ g : Grid, ((initWith fb g).putCell 0 c).screen i j
        = if i = 0 ∧ j = 0 then c else g i j := fun g => drawCharOnScreen_apply hle g 0 0 i j
    have hascii : ∀ (g : Grid) i j, ((initWith fb g).putCell 0 c).history i j ≤ 127 :=
      fun g => putCell_ascii hblank hle
    have hcell : ∀ hf : ¬ ((consoleInit fb).screenRows = 1 ∧ (consoleInit fb).screenCols = 1),
        ((initWith fb screen).putCell 0 c).screen i j
          = if FirstPaints fb (.kprintChar c) i j then
              ((initWith fb fun _ _ => 32).putCell 0 c).screen i j
            else screen i j := by
      intro hf
      rw [hput, hput]
      by_cases hij : i = 0 ∧ j = 0
      · rw [if_pos hij, if_pos hij, if_pos (.inr ⟨hc', hij⟩)]
      · rw [if_neg hij, if_neg (by simp only [FirstPaints]; tauto)]
    rw [first_printable hr hc _ hc', first_printable hr hc _ hc']
    by_cases hone : (consoleInit fb).screenCols = 1
    · rw [if_pos hone, if_pos hone]
      by_cases hrow : (consoleInit fb).screenRows = 1
      · rw [if_pos hrow, if_pos hrow, if_pos (.inl ⟨hrow, .inr ⟨hc', hone⟩⟩)]
        exact hrefresh { (initWith fb fun _ _ => 32).putCell 0 c with cursorX := 0, cursorY := 1 }
          (hascii _) rfl rfl _
      · rw [if_neg hrow, if_neg hrow]
        exact hcell fun hf => hrow hf.1
    · rw [if_neg hone, if_neg hone]
      exact hcell fun hf => hone hf.2
  · rw [if_neg (by simp [FirstPaints, hnl, hc'])]
    simp [kprintChar, hnl, hbs, hc', initWith]

theorem first_blank_inv (c : UInt8) : Inv ((initWith fb fun _ _ => 32).kprintChar c) := by
  have hinv := initWith_blank_inv hr hc
  by_cases hnl : c = 10
  · subst hnl
    exact feed_inv hinv fun hoff => absurd hoff (lt_irrefl 0)
  · exact kprintChar_inv hinv hnl

omit hr hc in
theorem consoleInit_eq : consoleInit fb = initWith fb (kclear fb) := rfl

/-- After the first call all is as if the screen had been blank. -/
theorem first_inv {op : Op} {ops : List Op} (hok : FirstOk fb (op :: ops)) {s : Console}
    (h : (consoleInit fb).step op = some s) : Inv s := by
  rw [consoleInit_eq] at h
  rcases op with c | lines
  · obtain rfl := Option.some.inj h
    have hblank := first_blank_inv hr hc c
    obtain ⟨-, hrows, hcols⟩ := kprintChar_fields (initWith fb fun _ _ => 32) c
    rw [first_same hr hc]
    refine hblank.onScreen fun i j hi hj => ?_
    rw [hrows] at hi
    rw [hcols] at hj
    rw [first_screen hr hc (kclear fb) c hi hj]
    split_ifs with hpaints
    · rfl
    · rw [first_screen hr hc _ c hi hj, if_neg hpaints]
      exact (hok i (Int.lt_toNat.mpr hi) j (Int.lt_toNat.mpr hj)).resolve_right hpaints
  · obtain rfl := consoleScroll_step h
    exact consoleScroll_inv hr hc (initWith_blank_inv hr hc).cursorX
      (initWith_blank_inv hr hc).ascii (fun _ _ _ => rfl) (initWith_blank_inv hr hc).cursorY lines

/-- A cell that still shows something else is not what a redraw would paint. -/
theorem first_not_redrawn {op : Op} {ops : List Op} (hno : ¬ FirstOk fb (op :: ops)) {s : Console}
    (h : (consoleInit fb).step op = some s) : s.viewOffset = 0 ∧ ¬ s.Redrawn := by
  rw [consoleInit_eq] at h
  rcases op with c | lines
  · simp only [FirstOk, not_forall] at hno
    obtain ⟨i, hi, j, hj, hij⟩ := hno
    obtain ⟨hne, hpaints⟩ := not_or.mp hij
    obtain rfl := Option.some.inj h
    have hi := Int.lt_toNat.mp hi
    have hj := Int.lt_toNat.mp hj
    have hblank := first_blank_inv hr hc c
    have hkept := first_screen hr hc (kclear fb) c hi hj
    have hpaint := first_screen hr hc (fun _ _ => 32) c hi hj
    rw [if_neg hpaints] at hkept hpaint
    obtain ⟨hoff, hrows, hcols⟩ := kprintChar_fields (initWith fb (kclear fb)) c
    have hascii : ∀ i j, ((initWith fb (kclear fb)).kprintChar c).history i j ≤ 127 := by
      rw [first_same hr hc]
      exact hblank.ascii
    have hsame : ((initWith fb (kclear fb)).kprintChar c).painted i j
        = ((initWith fb fun _ _ => 32).kprintChar c).painted i j := by
      rw [first_same hr hc]
      exact painted_onScreen _ _ i j
    refine ⟨hoff rfl, fun hred => hne ?_⟩
    have hshown := (redrawn_iff hascii).mp hred i j (hrows.symm ▸ hi) (hcols.symm ▸ hj)
    obtain ⟨hoff, hrows, hcols⟩ := kprintChar_fields (initWith fb fun _ _ => 32) c
    rw [← hkept, hshown, hsame, ← hblank.live (hoff rfl) i j (hrows.symm ▸ hi) (hcols.symm ▸ hj),
      hpaint]
  · exact absurd (fun _ _ _ _ => .inr trivial) hno

end First

/-- There is nothing to scroll back to yet. -/
theorem first_live {fb : Framebuffer} {op : Op} {s : Console}
    (h : (consoleInit fb).step op = some s) : s.viewOffset = 0 := by
  rcases op with c | lines
  · obtain rfl := Option.some.inj h
    exact (kprintChar_fields _ c).1 rfl
  · obtain rfl := consoleScroll_step h
    unfold consoleScroll
    change (if (if (consoleInit fb).viewOffset + lines.toInt > ((0 : ℕ) : ℤ) then ((0 : ℕ) : ℤ) else
      (consoleInit fb).viewOffset + lines.toInt) < 0 then 0 else
        if (consoleInit fb).viewOffset + lines.toInt > ((0 : ℕ) : ℤ) then ((0 : ℕ) : ℤ) else
          (consoleInit fb).viewOffset + lines.toInt) = 0
    split_ifs <;> omega

/-! ## Runs -/

theorem Watched.run_console : ∀ (ops : List Op) {w w' : Watched},
    Run.run step w ops = some w' → Run.run Console.step w.console ops = some w'.console
  | [], w, w', h => by
    obtain rfl := Option.some.inj h
    rfl
  | op :: ops, w, w', h => by
    obtain ⟨u, hu, hrun⟩ := Run.run_cons h
    obtain ⟨s, hs, rfl⟩ := Option.map_eq_some_iff.mp hu
    have ih := run_console ops hrun
    rw [Run.run, hs, Option.bind_some]
    rcases op with c | lines
    · exact ih
    · exact ih

theorem Watched.run_of_console : ∀ (ops : List Op) {w : Watched} {s : Console},
    Run.run Console.step w.console ops = some s →
      ∃ seen, Run.run step w ops = some ⟨s, seen⟩
  | [], w, s, h => by
    obtain rfl := Option.some.inj h
    exact ⟨w.seen, rfl⟩
  | op :: ops, w, s, h => by
    obtain ⟨t, ht, hrun⟩ := Run.run_cons h
    obtain ⟨u, hu, rfl⟩ : ∃ u, w.step op = some u ∧ u.console = t := by
      rw [step, ht]
      rcases op with c | lines
      · exact ⟨_, rfl, rfl⟩
      · exact ⟨_, rfl, rfl⟩
    obtain ⟨seen, hseen⟩ := run_of_console ops hrun
    exact ⟨seen, by rw [Run.run, hu, Option.bind_some, hseen]⟩

/-- Four rows of four cells. -/
def smallScreen : Framebuffer := ⟨64, 64, 256, fun _ _ => 255⟩

/-- Two lines, a look back and again forward, and a third line. -/
def lookBack : List Op :=
  [.kprintChar 65, .kprintChar 10, .kprintChar 66, .consoleScroll 10, .consoleScroll (-10),
    .kprintChar 8, .kprintChar 67, .kprintChar 10]

/-- A line is ended, and in a look back at it a letter and a line feed are printed. -/
def typedAway : List Op :=
  [.kprintChar 10, .consoleScroll 10, .kprintChar 65, .kprintChar 10]

end Console

end SudoOS
