import SudoOS.Str

/-!
# The console

Text goes to a history of `MAX_HISTORY` lines and, as long as the newest line is in view, at once to
the screen. `draw_char_on_screen` paints every pixel of one character cell, so the screen is the
grid of the characters last painted in its cells, and `kclear` leaves a grid of blanks. A full
redraw is `console_refresh`.
-/

namespace SudoOS

/-- `MAX_HISTORY`. -/
def maxHistory : ℕ := 1000

/-- `MAX_COLS`. -/
def maxCols : ℕ := 128

/-- Characters by row and column. -/
abbrev Grid := ℕ → ℕ → UInt8

/-- A `limine_framebuffer`: its size in pixels, the bytes from one row of pixels to the next, and
what its cells show beforehand, a byte above 127 where that is no character. -/
structure Framebuffer where
  width : ℕ
  height : ℕ
  pitch : ℕ
  cells : Grid

structure Console where
  /-- `history_buffer`. -/
  history : Grid
  cursorX : ℕ
  cursorY : ℕ
  viewOffset : ℤ
  screenRows : ℤ
  screenCols : ℤ
  screen : Grid

/-- The cell of column `col` and row `row`; only ASCII has glyphs. -/
def drawCharOnScreen (screen : Grid) (col row : ℕ) (c : UInt8) : Grid :=
  if c > 127 then screen else Function.update screen row (Function.update (screen row) col c)

/-- One row of the screen, its first `cols` cells. -/
def drawLine (screen : Grid) (cols row : ℕ) (line : ℕ → UInt8) : Grid :=
  (List.range cols).foldl (fun screen j => drawCharOnScreen screen j row (line j)) screen

namespace Console

/-- `screen_top_row_idx`. -/
def topRow (s : Console) : ℕ := (s.cursorY - (s.screenRows - 1) - s.viewOffset).toNat

/-- What a full redraw paints for line `bufRow` of the history. -/
def lineText (s : Console) (bufRow j : ℕ) : UInt8 :=
  if bufRow > s.cursorY ∨ bufRow ≥ maxHistory then 32
  else if s.history bufRow j = 0 then 32 else s.history bufRow j

def consoleRefresh (s : Console) : Console :=
  { s with
    screen := (List.range s.screenRows.toNat).foldl
      (fun screen i => drawLine screen s.screenCols.toNat i (s.lineText (s.topRow + i))) s.screen }

/-- `kclear` blackens the first `width * height` pixels of the memory, whatever the pitch; a cell
that has others still shows what it did. -/
def kclear (fb : Framebuffer) : Grid := fun row col =>
  if (16 * row + 15) * (fb.pitch / 4) + (16 * col + 15) < u64 (fb.width * fb.height) then 32
  else fb.cells row col

def consoleInit (fb : Framebuffer) : Console where
  history := fun _ _ => 0
  cursorX := 0
  cursorY := 0
  viewOffset := 0
  screenRows := toInt32 (fb.height / (8 * 2))
  screenCols := min (toInt32 (fb.width / (8 * 2))) maxCols
  screen := kclear fb

def consoleScroll (s : Console) (lines : BitVec 32) : Console :=
  let offset := s.viewOffset + lines.toInt
  let offset := if offset > s.cursorY then (s.cursorY : ℤ) else offset
  let offset := if offset < 0 then 0 else offset
  { s with viewOffset := offset }.consoleRefresh

/-- `check_history_scroll`: drop the oldest line once the history is full. -/
def checkHistoryScroll (s : Console) : Console :=
  if s.cursorY ≥ maxHistory then
    { s with
      history := fun i => if i + 1 < maxHistory then s.history (i + 1) else fun _ => 0
      cursorY := maxHistory - 1 }.consoleRefresh
  else s

/-- The end of a line feed or a wrap, the cursor being on the new line. -/
def newLine (s : Console) : Console :=
  let s := s.checkHistoryScroll
  if s.cursorY ≥ s.screenRows then s.consoleRefresh else s

/-- The cell under the cursor takes `c`, and in the live view it is drawn in row `screenY`. -/
def putCell (s : Console) (screenY : ℕ) (c : UInt8) : Console :=
  { s with
    history := Function.update s.history s.cursorY
      (Function.update (s.history s.cursorY) s.cursorX c)
    screen :=
      if s.viewOffset = 0 then drawCharOnScreen s.screen s.cursorX screenY c else s.screen }

def kprintChar (s : Console) (c : UInt8) : Console :=
  if c = 10 then
    { s with cursorX := 0, cursorY := s.cursorY + 1, viewOffset := 0 }.newLine
  else if c = 8 then
    if s.cursorX > 0 then
      let screenY := if s.screenRows > 0 ∧ s.cursorY ≥ s.screenRows then (s.screenRows - 1).toNat
        else s.cursorY
      { s with cursorX := s.cursorX - 1 }.putCell screenY 32
    else s
  else if 32 ≤ c ∧ c ≤ 126 then
    let s := if s.cursorY ≥ maxHistory then { s with cursorY := maxHistory - 1 } else s
    let screenY := if s.cursorY ≥ s.screenRows then (s.screenRows - 1).toNat else s.cursorY
    let s := s.putCell screenY c
    if s.cursorX + 1 ≥ s.screenCols then
      { s with cursorX := 0, cursorY := s.cursorY + 1 }.newLine
    else { s with cursorX := s.cursorX + 1 }
  else s

inductive Op where
  | kprintChar (c : UInt8)
  | consoleScroll (lines : BitVec 32)

/-- A call; the sum of `console_scroll` is an `int` and must not overflow. -/
def step (s : Console) : Op → Option Console
  | .kprintChar c => some (s.kprintChar c)
  | .consoleScroll lines =>
    if -2 ^ 31 ≤ s.viewOffset + lines.toInt ∧ s.viewOffset + lines.toInt < 2 ^ 31 then
      some (s.consoleScroll lines)
    else none

theorem consoleScroll_step {s t : Console} {lines : BitVec 32}
    (h : s.step (.consoleScroll lines) = some t) : s.consoleScroll lines = t := by
  unfold step at h
  dsimp only at h
  split_ifs at h
  exact Option.some.inj h

/-- The screen shows what a full redraw would paint. -/
def Redrawn (s : Console) : Prop :=
  ∀ i j : ℕ, i < s.screenRows → j < s.screenCols → s.screen i j = s.consoleRefresh.screen i j

end Console

end SudoOS
