import SudoOS.Bytes
import SudoOS.Console

/-!
# The accesses of the console

What a call reads and writes of `history_buffer` and draws, in its order, with the indices as the
`int`s they are. The buffer is one array to `memcpy` and `memset`: byte `k` is column
`k % MAX_COLS` of row `k / MAX_COLS`.
-/

namespace SudoOS

/-- An access to `history_buffer[row][col]`, or a call of `draw_char_on_screen`. -/
inductive ConsoleAccess
  | load (row col : ℤ)
  | store (row col : ℤ) (c : UInt8)
  | draw (col row : ℤ) (c : UInt8)
  deriving Repr, DecidableEq

namespace ConsoleAccess

/-- What an access does to the history and the screen. -/
def replay : Grid × Grid → ConsoleAccess → Grid × Grid
  | (history, screen), .load _ _ => (history, screen)
  | (history, screen), .store row col c =>
    (Function.update history row.toNat (Function.update (history row.toNat) col.toNat c), screen)
  | (history, screen), .draw col row c =>
    (history, drawCharOnScreen screen col.toNat row.toNat c)

end ConsoleAccess

/-- `history_buffer` as the array it is. -/
def flat (history : Grid) : Bytes := fun k => history (k / maxCols) (k % maxCols)

def memcpyAccesses : Bytes → ℕ → ℕ → ℕ → List ConsoleAccess
  | _, _, _, 0 => []
  | mem, dst, src, n + 1 =>
    .load ↑(src / maxCols) ↑(src % maxCols) ::
      .store ↑(dst / maxCols) ↑(dst % maxCols) (mem src) ::
        memcpyAccesses (Function.update mem dst (mem src)) (dst + 1) (src + 1) n

def memsetAccesses : ℕ → UInt8 → ℕ → List ConsoleAccess
  | _, _, 0 => []
  | dst, value, n + 1 =>
    .store ↑(dst / maxCols) ↑(dst % maxCols) value :: memsetAccesses (dst + 1) value n

namespace Console

/-- A round of the inner loop, whichever it is. -/
def cellAccesses (s : Console) (i j : ℕ) : List ConsoleAccess :=
  if s.topRow + i > s.cursorY ∨ s.topRow + i ≥ maxHistory then [.draw j i 32]
  else [.load ↑(s.topRow + i) j, .draw j i (s.lineText (s.topRow + i) j)]

def refreshAccesses (s : Console) : List ConsoleAccess :=
  (List.range s.screenRows.toNat).flatMap fun i =>
    (List.range s.screenCols.toNat).flatMap fun j => s.cellAccesses i j

def checkHistoryScrollAccesses (s : Console) : List ConsoleAccess :=
  if s.cursorY ≥ maxHistory then
    memcpyAccesses (flat s.history) 0 maxCols ((maxHistory - 1) * maxCols)
      ++ memsetAccesses ((maxHistory - 1) * maxCols) 0 maxCols
      ++ s.checkHistoryScroll.refreshAccesses
  else []

def newLineAccesses (s : Console) : List ConsoleAccess :=
  s.checkHistoryScrollAccesses ++
    if s.checkHistoryScroll.cursorY ≥ s.checkHistoryScroll.screenRows then
      s.checkHistoryScroll.refreshAccesses
    else []

def putCellAccesses (s : Console) (screenY : ℤ) (c : UInt8) : List ConsoleAccess :=
  .store s.cursorY s.cursorX c ::
    if s.viewOffset = 0 then [.draw s.cursorX screenY c] else []

def kprintCharAccesses (s : Console) (c : UInt8) : List ConsoleAccess :=
  if c = 10 then
    { s with cursorX := 0, cursorY := s.cursorY + 1, viewOffset := 0 }.newLineAccesses
  else if c = 8 then
    if s.cursorX > 0 then
      let screenY := if s.screenRows > 0 ∧ s.cursorY ≥ s.screenRows then s.screenRows - 1
        else s.cursorY
      { s with cursorX := s.cursorX - 1 }.putCellAccesses screenY 32
    else []
  else if 32 ≤ c ∧ c ≤ 126 then
    let s := if s.cursorY ≥ maxHistory then { s with cursorY := maxHistory - 1 } else s
    let screenY := if s.cursorY ≥ s.screenRows then s.screenRows - 1 else s.cursorY
    s.putCellAccesses screenY c ++
      let s := s.putCell screenY.toNat c
      if s.cursorX + 1 ≥ s.screenCols then
        { s with cursorX := 0, cursorY := s.cursorY + 1 }.newLineAccesses
      else []
  else []

/-- All accesses of a call. -/
def accesses (s : Console) : Op → List ConsoleAccess
  | .kprintChar c => s.kprintCharAccesses c
  | .consoleScroll lines => (s.consoleScroll lines).refreshAccesses

/-- The history and the screen after them. -/
def replay (s : Console) (accesses : List ConsoleAccess) : Grid × Grid :=
  accesses.foldl ConsoleAccess.replay (s.history, s.screen)

end Console

end SudoOS
