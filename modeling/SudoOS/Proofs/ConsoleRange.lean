import SudoOS.ConsoleAccess
import SudoOS.Lib.Run
import SudoOS.Proofs.Bytes

/-!
# The range of the console's accesses

Line feeds, wraps and scrolling keep the cursor in the history and on the screen and the view
between the first line and the last, so that every access of a call is in range
(`console_in_range`). The accesses are the call: carried out one after the other they leave the
history and the screen that it leaves (`replay_step`), the shift of a full history byte by byte.
-/

namespace SudoOS

/-- An access within the history, or a draw within the screen. -/
def ConsoleAccess.Ok (rows cols : ℤ) : ConsoleAccess → Prop
  | load row col => (0 ≤ row ∧ row < maxHistory) ∧ 0 ≤ col ∧ col < maxCols
  | store row col _ => (0 ≤ row ∧ row < maxHistory) ∧ 0 ≤ col ∧ col < maxCols
  | draw col row _ => (0 ≤ row ∧ row < rows) ∧ 0 ≤ col ∧ col < cols

namespace Console

/-- The positions between two calls. -/
structure InRange (s : Console) : Prop where
  rows : 1 ≤ s.screenRows
  cols : s.screenCols ≤ maxCols
  cursorX : s.cursorX < s.screenCols
  cursorY : s.cursorY < maxHistory
  offset : 0 ≤ s.viewOffset
  back : s.viewOffset ≤ s.cursorY

/-- The call ends the line of the cursor. -/
def EndsLine (s : Console) : Op → Prop
  | .kprintChar c => c = 10 ∨ (32 ≤ c ∧ c ≤ 126) ∧ s.cursorX + 1 ≥ s.screenCols
  | .consoleScroll _ => False

/-- The history with what the call prints. -/
def printed (s : Console) : Op → Grid
  | .kprintChar c =>
    if 32 ≤ c ∧ c ≤ 126 then
      Function.update s.history s.cursorY (Function.update (s.history s.cursorY) s.cursorX c)
    else s.history
  | .consoleScroll _ => s.history

end Console

/-! ## Copying within the buffer -/

section Buffer

theorem cell_ok {rows cols : ℤ} {k : ℕ} (h : k < maxHistory * maxCols) (c : UInt8) :
    (ConsoleAccess.load ↑(k / maxCols) ↑(k % maxCols)).Ok rows cols
      ∧ (ConsoleAccess.store ↑(k / maxCols) ↑(k % maxCols) c).Ok rows cols := by
  have hrow : k / maxCols < maxHistory := Nat.div_lt_of_lt_mul (by rwa [Nat.mul_comm])
  have hcol : k % maxCols < maxCols := Nat.mod_lt k (by decide)
  generalize k / maxCols = row at hrow ⊢
  generalize k % maxCols = col at hcol ⊢
  unfold ConsoleAccess.Ok
  omega

theorem memcpyAccesses_ok {rows cols : ℤ} : ∀ (n : ℕ) (mem : Bytes) {dst src : ℕ},
    dst + n ≤ maxHistory * maxCols → src + n ≤ maxHistory * maxCols →
    ∀ a ∈ memcpyAccesses mem dst src n, a.Ok rows cols
  | 0, _, _, _, _, _, _, ha => by cases ha
  | n + 1, mem, dst, src, hdst, hsrc, a, ha => by
    rw [memcpyAccesses, List.mem_cons, List.mem_cons] at ha
    rcases ha with rfl | rfl | ha
    · exact (cell_ok (by omega) 0).1
    · exact (cell_ok (by omega) _).2
    · exact memcpyAccesses_ok n _ (by omega) (by omega) a ha

theorem memsetAccesses_ok {rows cols : ℤ} (value : UInt8) : ∀ (n : ℕ) {dst : ℕ},
    dst + n ≤ maxHistory * maxCols → ∀ a ∈ memsetAccesses dst value n, a.Ok rows cols
  | 0, _, _, _, ha => by cases ha
  | n + 1, dst, hdst, a, ha => by
    rw [memsetAccesses, List.mem_cons] at ha
    rcases ha with rfl | ha
    · exact (cell_ok (by omega) _).2
    · exact memsetAccesses_ok value n (by omega) a ha

theorem flat_update (history : Grid) (k : ℕ) (c : UInt8) :
    flat (Function.update history (k / maxCols)
        (Function.update (history (k / maxCols)) (k % maxCols) c))
      = Function.update (flat history) k c := by
  funext x
  have hx : x = k ↔ x / maxCols = k / maxCols ∧ x % maxCols = k % maxCols := by
    refine ⟨fun h => h ▸ ⟨rfl, rfl⟩, fun ⟨hd, hm⟩ => ?_⟩
    rw [← Nat.div_add_mod x maxCols, hd, hm, Nat.div_add_mod]
  unfold flat
  by_cases hd : x / maxCols = k / maxCols
  · by_cases hm : x % maxCols = k % maxCols
    · simp [hx.mpr ⟨hd, hm⟩]
    · have hne : x ≠ k := fun h => hm (hx.mp h).2
      simp [hd, hm, hne]
  · have hne : x ≠ k := fun h => hd (hx.mp h).1
    simp [hd, hne]

/-- What the accesses of `memcpy` leave is what `memcpy` leaves. -/
theorem replay_memcpy : ∀ (n dst src : ℕ) (history screen : Grid), ∃ history',
    (memcpyAccesses (flat history) dst src n).foldl ConsoleAccess.replay (history, screen)
      = (history', screen) ∧ flat history' = memcpy (flat history) dst src n
  | 0, _, _, history, screen => ⟨history, rfl, rfl⟩
  | n + 1, dst, src, history, screen => by
    obtain ⟨history', hfold, hflat⟩ := replay_memcpy n (dst + 1) (src + 1)
      (Function.update history (dst / maxCols)
        (Function.update (history (dst / maxCols)) (dst % maxCols) (flat history src))) screen
    rw [flat_update] at hfold hflat
    exact ⟨history', hfold, hflat⟩

theorem replay_memset (value : UInt8) : ∀ (n dst : ℕ) (history screen : Grid), ∃ history',
    (memsetAccesses dst value n).foldl ConsoleAccess.replay (history, screen)
      = (history', screen) ∧ flat history' = memset (flat history) dst value n
  | 0, _, history, screen => ⟨history, rfl, rfl⟩
  | n + 1, dst, history, screen => by
    obtain ⟨history', hfold, hflat⟩ := replay_memset value n (dst + 1)
      (Function.update history (dst / maxCols)
        (Function.update (history (dst / maxCols)) (dst % maxCols) value)) screen
    rw [flat_update] at hflat
    exact ⟨history', hfold, hflat⟩

theorem flat_apply (history : Grid) (i : ℕ) {j : ℕ} (hj : j < maxCols) :
    flat history (i * maxCols + j) = history i j := by
  have hdiv : (i * maxCols + j) / maxCols = i := by
    rw [Nat.add_comm, Nat.add_mul_div_right _ _ (by decide), Nat.div_eq_of_lt hj, Nat.zero_add]
  have hmod : (i * maxCols + j) % maxCols = j := by
    rw [Nat.add_comm, Nat.add_mul_mod_self_right, Nat.mod_eq_of_lt hj]
  rw [flat, hdiv, hmod]

end Buffer

namespace Console

variable {s : Console}

/-! ## Replaying a call -/

theorem replay_cell (s : Console) (i j : ℕ) (history screen : Grid) :
    (s.cellAccesses i j).foldl ConsoleAccess.replay (history, screen)
      = (history, drawCharOnScreen screen j i (s.lineText (s.topRow + i) j)) := by
  unfold cellAccesses
  split_ifs with hpast
  · have hblank : s.lineText (s.topRow + i) j = 32 := if_pos hpast
    rw [hblank]
    rfl
  · rfl

theorem replay_refresh (s : Console) (history screen : Grid) :
    s.refreshAccesses.foldl ConsoleAccess.replay (history, screen)
      = (history, { s with screen := screen }.consoleRefresh.screen) := by
  have hline : ∀ (screen : Grid) (i : ℕ),
      ((List.range s.screenCols.toNat).flatMap fun j => s.cellAccesses i j).foldl
          ConsoleAccess.replay (history, screen)
        = (history, drawLine screen s.screenCols.toNat i (s.lineText (s.topRow + i))) := by
    intro screen i
    rw [List.foldl_flatMap]
    exact List.foldl_hom (fun screen => (history, screen)) fun screen j =>
      replay_cell s i j history screen
  unfold refreshAccesses
  rw [List.foldl_flatMap]
  exact List.foldl_hom (fun screen => (history, screen)) hline

/-- The grids agree on the buffer. -/
def Agree (g g' : Grid) : Prop := ∀ i < maxHistory, ∀ j < maxCols, g i j = g' i j

theorem Agree.refl (g : Grid) : Agree g g := fun _ _ _ _ => rfl

/-- The bytes that `check_history_scroll` moves and clears are the lines that move up. -/
theorem replay_shift (history screen : Grid) : ∃ history',
    (memcpyAccesses (flat history) 0 maxCols ((maxHistory - 1) * maxCols)
        ++ memsetAccesses ((maxHistory - 1) * maxCols) 0 maxCols).foldl ConsoleAccess.replay
      (history, screen) = (history', screen)
    ∧ Agree history' fun i => if i + 1 < maxHistory then history (i + 1) else fun _ => 0 := by
  obtain ⟨moved, hmove, hmoved⟩ := replay_memcpy ((maxHistory - 1) * maxCols) 0 maxCols history
    screen
  obtain ⟨history', hclear, hcleared⟩ := replay_memset 0 maxCols ((maxHistory - 1) * maxCols) moved
    screen
  refine ⟨history', by rw [List.foldl_append, hmove, hclear], fun i hi j hj => ?_⟩
  rw [← flat_apply history' i hj, hcleared, hmoved, memset_apply]
  dsimp only
  by_cases hnext : i + 1 < maxHistory
  · have hmoves : i * maxCols + j < (maxHistory - 1) * maxCols := by
      unfold maxHistory maxCols at *
      omega
    have hsrc : maxCols + (i * maxCols + j - 0) = (i + 1) * maxCols + j := by
      unfold maxCols
      omega
    rw [if_neg (by omega), memcpy_down _ _ (Nat.zero_le _), if_pos (by omega), hsrc,
      flat_apply history (i + 1) hj, if_pos hnext]
  · obtain rfl : i = maxHistory - 1 := by omega
    rw [if_pos (by omega), if_neg hnext]

theorem replay_checkHistoryScroll (s : Console) : ∃ history',
    s.replay s.checkHistoryScrollAccesses = (history', s.checkHistoryScroll.screen)
      ∧ Agree history' s.checkHistoryScroll.history := by
  unfold replay checkHistoryScrollAccesses
  by_cases hfull : s.cursorY ≥ maxHistory
  · obtain ⟨history', hshift, hagree⟩ := replay_shift s.history s.screen
    rw [if_pos hfull, List.foldl_append, hshift, replay_refresh]
    refine ⟨history', ?_, ?_⟩
    · unfold checkHistoryScroll
      rw [if_pos hfull]
      rfl
    · unfold checkHistoryScroll
      rw [if_pos hfull]
      exact hagree
  · rw [if_neg hfull]
    unfold checkHistoryScroll
    rw [if_neg hfull]
    exact ⟨s.history, rfl, .refl _⟩

theorem replay_newLine (s : Console) : ∃ history',
    s.replay s.newLineAccesses = (history', s.newLine.screen)
      ∧ Agree history' s.newLine.history := by
  obtain ⟨history', hcheck, hagree⟩ := replay_checkHistoryScroll s
  unfold newLineAccesses newLine replay at *
  rw [List.foldl_append, hcheck]
  dsimp only
  split_ifs
  · rw [replay_refresh]
    exact ⟨history', rfl, hagree⟩
  · exact ⟨history', rfl, hagree⟩

theorem replay_putCell (s : Console) (screenY : ℤ) (c : UInt8) :
    s.replay (s.putCellAccesses screenY c)
      = ((s.putCell screenY.toNat c).history, (s.putCell screenY.toNat c).screen) := by
  unfold replay putCellAccesses putCell
  by_cases hoff : s.viewOffset = 0
  · rw [if_pos hoff]
    simp [ConsoleAccess.replay, hoff]
  · rw [if_neg hoff]
    simp [ConsoleAccess.replay, hoff]

/-- The line on the screen, as the source computes it and as the model has it. -/
theorem screenY_toNat (s : Console) (p : Prop) [Decidable p] :
    (if p then s.screenRows - 1 else (s.cursorY : ℤ)).toNat
      = if p then (s.screenRows - 1).toNat else s.cursorY := by
  split_ifs <;> rfl

theorem replay_backspace (s : Console) : ∃ history',
    s.replay (s.kprintCharAccesses 8) = (history', (s.kprintChar 8).screen)
      ∧ Agree history' (s.kprintChar 8).history := by
  have hnl : ¬(8 : UInt8) = 10 := by decide
  unfold kprintCharAccesses kprintChar
  rw [if_neg hnl, if_neg hnl, if_pos rfl, if_pos rfl]
  by_cases hx : s.cursorX > 0
  · have hput := replay_putCell { s with cursorX := s.cursorX - 1 }
      (if s.screenRows > 0 ∧ s.cursorY ≥ s.screenRows then s.screenRows - 1 else s.cursorY) 32
    rw [screenY_toNat] at hput
    rw [if_pos hx, if_pos hx]
    exact ⟨_, hput, .refl _⟩
  · rw [if_neg hx, if_neg hx]
    exact ⟨_, rfl, .refl _⟩

theorem printable_ne {c : UInt8} (hc : 32 ≤ c ∧ c ≤ 126) : c ≠ 10 ∧ c ≠ 8 := by
  constructor
  · rintro rfl
    exact absurd hc (by decide)
  · rintro rfl
    exact absurd hc (by decide)

theorem replay_printable (s : Console) {c : UInt8} (hc : 32 ≤ c ∧ c ≤ 126) :
    ∃ history', s.replay (s.kprintCharAccesses c) = (history', (s.kprintChar c).screen)
      ∧ Agree history' (s.kprintChar c).history := by
  obtain ⟨hnl, hbs⟩ := printable_ne hc
  unfold kprintCharAccesses kprintChar
  simp only [if_neg hnl, if_neg hbs, if_pos hc, ← screenY_toNat]
  -- The source's clamp of the line changes nothing that is replayed.
  have hclamp : ∀ accesses, s.replay accesses
      = (if s.cursorY ≥ maxHistory then { s with cursorY := maxHistory - 1 } else s).replay
        accesses := by
    intro accesses
    split_ifs <;> rfl
  rw [hclamp]
  generalize (if s.cursorY ≥ maxHistory then { s with cursorY := maxHistory - 1 } else s) = s
  have hput := replay_putCell s
    (if s.cursorY ≥ s.screenRows then s.screenRows - 1 else s.cursorY) c
  unfold replay at hput ⊢
  rw [List.foldl_append, hput]
  generalize s.putCell _ c = t
  by_cases hwrap : (t.cursorX : ℤ) + 1 ≥ t.screenCols
  · rw [if_pos hwrap, if_pos hwrap]
    exact replay_newLine { t with cursorX := 0, cursorY := t.cursorY + 1 }
  · rw [if_neg hwrap, if_neg hwrap]
    exact ⟨_, rfl, .refl _⟩

/-- The accesses of a call leave the history and the screen that the call leaves. -/
theorem replay_step {op : Op} {t : Console} (hstep : s.step op = some t) :
    ∃ history', s.replay (s.accesses op) = (history', t.screen) ∧ Agree history' t.history := by
  rcases op with c | lines
  · obtain rfl := Option.some.inj hstep
    by_cases hnl : c = 10
    · subst hnl
      exact replay_newLine { s with cursorX := 0, cursorY := s.cursorY + 1, viewOffset := 0 }
    by_cases hbs : c = 8
    · subst hbs
      exact replay_backspace s
    by_cases hc : 32 ≤ c ∧ c ≤ 126
    · exact replay_printable s hc
    · -- Any other byte is ignored.
      simp only [accesses, kprintCharAccesses, kprintChar, if_neg hnl, if_neg hbs, if_neg hc]
      exact ⟨_, rfl, .refl _⟩
  · obtain rfl := consoleScroll_step hstep
    exact ⟨_, replay_refresh (s.consoleScroll lines) s.history s.screen, .refl _⟩

/-! ## Positions -/

@[simp] theorem checkHistoryScroll_screenRows (s : Console) :
    s.checkHistoryScroll.screenRows = s.screenRows := by
  unfold checkHistoryScroll
  split_ifs <;> rfl

@[simp] theorem checkHistoryScroll_screenCols (s : Console) :
    s.checkHistoryScroll.screenCols = s.screenCols := by
  unfold checkHistoryScroll
  split_ifs <;> rfl

theorem InRange.refresh (h : s.InRange) : s.consoleRefresh.InRange :=
  ⟨h.rows, h.cols, h.cursorX, h.cursorY, h.offset, h.back⟩

/-- On a new line the view is before it, also when a line is dropped. -/
theorem newLine_inRange (hr : 1 ≤ s.screenRows) (hc : s.screenCols ≤ maxCols)
    (hx : s.cursorX < s.screenCols) (hy : s.cursorY ≤ maxHistory) (hoff : 0 ≤ s.viewOffset)
    (hback : s.viewOffset < s.cursorY) : s.newLine.InRange := by
  have hcheck : s.checkHistoryScroll.InRange := by
    unfold checkHistoryScroll
    split_ifs with hfull
    · refine InRange.refresh ⟨hr, hc, hx, by simp [maxHistory], hoff, ?_⟩
      dsimp only
      omega
    · exact ⟨hr, hc, hx, by omega, hoff, by omega⟩
  unfold newLine
  dsimp only
  split_ifs
  · exact hcheck.refresh
  · exact hcheck

theorem putCell_inRange (h : s.InRange) (screenY : ℕ) (c : UInt8) : (s.putCell screenY c).InRange :=
  ⟨h.rows, h.cols, h.cursorX, h.cursorY, h.offset, h.back⟩

theorem InRange.erase (h : s.InRange) : { s with cursorX := s.cursorX - 1 }.InRange := by
  have hx := h.cursorX
  refine ⟨h.rows, h.cols, ?_, h.cursorY, h.offset, h.back⟩
  dsimp only
  omega

theorem nextLine_inRange (h : s.InRange) {offset : ℤ} (hoff : 0 ≤ offset)
    (hback : offset ≤ s.cursorY) :
    { s with cursorX := 0, cursorY := s.cursorY + 1, viewOffset := offset }.newLine.InRange := by
  have hx := h.cursorX
  refine newLine_inRange h.rows h.cols ?_ h.cursorY hoff ?_
  · push_cast
    omega
  · push_cast
    omega

theorem kprintChar_inRange (h : s.InRange) (c : UInt8) : (s.kprintChar c).InRange := by
  have hx := h.cursorX
  by_cases hnl : c = 10
  · rw [kprintChar, if_pos hnl]
    exact nextLine_inRange h le_rfl (by omega)
  by_cases hbs : c = 8
  · rw [kprintChar, if_neg hnl, if_pos hbs]
    by_cases hpos : s.cursorX > 0
    · rw [if_pos hpos]
      exact putCell_inRange h.erase _ 32
    · rwa [if_neg hpos]
  by_cases hc : 32 ≤ c ∧ c ≤ 126
  · rw [kprintChar, if_neg hnl, if_neg hbs, if_pos hc, if_neg (not_le.mpr h.cursorY)]
    dsimp only
    generalize hput : s.putCell _ c = t
    have ht : t.InRange := hput ▸ putCell_inRange h _ c
    split_ifs with hwrap
    · exact nextLine_inRange ht ht.offset ht.back
    · refine ⟨ht.rows, ht.cols, ?_, ht.cursorY, ht.offset, ht.back⟩
      push_cast
      omega
  · rw [kprintChar, if_neg hnl, if_neg hbs, if_neg hc]
    exact h

theorem consoleScroll_inRange (h : s.InRange) (lines : BitVec 32) :
    (s.consoleScroll lines).InRange := by
  unfold consoleScroll
  refine InRange.refresh ⟨h.rows, h.cols, h.cursorX, h.cursorY, ?_, ?_⟩
  · dsimp only
    split_ifs <;> omega
  · dsimp only
    split_ifs <;> omega

theorem step_inRange (s : Console) (op : Op) (t : Console) (h : s.InRange)
    (hstep : s.step op = some t) : t.InRange := by
  rcases op with c | lines
  · exact Option.some.inj hstep ▸ kprintChar_inRange h c
  · exact consoleScroll_step hstep ▸ consoleScroll_inRange h lines

theorem consoleInit_inRange {fb : Framebuffer} (hr : 1 ≤ toInt32 (fb.height / (8 * 2)))
    (hc : 1 ≤ toInt32 (fb.width / (8 * 2))) : (consoleInit fb).InRange where
  rows := hr
  cols := min_le_right _ _
  cursorX := lt_min hc (show (0 : ℤ) < maxCols by decide)
  cursorY := show 0 < maxHistory by decide
  offset := le_rfl
  back := le_rfl

/-! ## Accesses -/

theorem refreshAccesses_ok (hc : s.screenCols ≤ maxCols) :
    ∀ a ∈ s.refreshAccesses, a.Ok s.screenRows s.screenCols := by
  intro a ha
  obtain ⟨i, hi, ha⟩ := List.mem_flatMap.mp ha
  obtain ⟨j, hj, ha⟩ := List.mem_flatMap.mp ha
  have hrow := List.mem_range.mp hi
  have hcol := List.mem_range.mp hj
  have hdraw : ∀ c, (ConsoleAccess.draw j i c).Ok s.screenRows s.screenCols :=
    fun c => ⟨by omega, by omega⟩
  unfold cellAccesses at ha
  split_ifs at ha with hpast
  · exact List.mem_singleton.mp ha ▸ hdraw 32
  · rcases List.mem_cons.mp ha with rfl | ha
    · exact ⟨by omega, by omega⟩
    · exact List.mem_singleton.mp ha ▸ hdraw _

theorem newLineAccesses_ok (hc : s.screenCols ≤ maxCols) :
    ∀ a ∈ s.newLineAccesses, a.Ok s.screenRows s.screenCols := by
  have hrefresh := refreshAccesses_ok (s := s.checkHistoryScroll) (by simpa using hc)
  simp only [checkHistoryScroll_screenRows, checkHistoryScroll_screenCols] at hrefresh
  have hcheck : ∀ a ∈ s.checkHistoryScrollAccesses, a.Ok s.screenRows s.screenCols := by
    unfold checkHistoryScrollAccesses
    split_ifs
    · simp only [List.forall_mem_append]
      exact ⟨⟨memcpyAccesses_ok _ _ (by decide) (by decide), memsetAccesses_ok _ _ (by decide)⟩,
        hrefresh⟩
    · simp
  rw [newLineAccesses, List.forall_mem_append]
  refine ⟨hcheck, ?_⟩
  split_ifs
  · exact hrefresh
  · simp

theorem putCellAccesses_ok (h : s.InRange) {screenY : ℤ} (h0 : 0 ≤ screenY)
    (hlt : screenY < s.screenRows) (c : UInt8) :
    ∀ a ∈ s.putCellAccesses screenY c, a.Ok s.screenRows s.screenCols := by
  have hx := h.cursorX
  have hy := h.cursorY
  have hc := h.cols
  rw [putCellAccesses, List.forall_mem_cons]
  refine ⟨⟨by omega, by omega⟩, ?_⟩
  split_ifs
  · rw [List.forall_mem_singleton]
    exact ⟨by omega, by omega⟩
  · simp

theorem accesses_ok (h : s.InRange) (op : Op) :
    ∀ a ∈ s.accesses op, a.Ok s.screenRows s.screenCols := by
  have hr := h.rows
  rcases op with c | lines
  · change ∀ a ∈ s.kprintCharAccesses c, _
    by_cases hnl : c = 10
    · rw [kprintCharAccesses, if_pos hnl]
      exact newLineAccesses_ok (s := { s with cursorX := 0, cursorY := _, viewOffset := 0 }) h.cols
    by_cases hbs : c = 8
    · rw [kprintCharAccesses, if_neg hnl, if_pos hbs]
      by_cases hpos : s.cursorX > 0
      · rw [if_pos hpos]
        refine putCellAccesses_ok h.erase ?_ ?_ 32
        · split_ifs <;> omega
        · dsimp only
          split_ifs <;> omega
      · simp [hpos]
    by_cases hc : 32 ≤ c ∧ c ≤ 126
    · rw [kprintCharAccesses, if_neg hnl, if_neg hbs, if_pos hc, if_neg (not_le.mpr h.cursorY)]
      dsimp only
      rw [List.forall_mem_append]
      constructor
      · refine putCellAccesses_ok h ?_ ?_ c
        · split_ifs <;> omega
        · split_ifs <;> omega
      · generalize Int.toNat _ = screenY
        split_ifs
        · exact newLineAccesses_ok (s := { s.putCell _ c with cursorX := 0, cursorY := _ }) h.cols
        · simp
    · simp [kprintCharAccesses, hnl, hbs, hc]
  · exact refreshAccesses_ok (s := s.consoleScroll lines) h.cols

/-! ## A full history -/

theorem newLine_full (h : s.cursorY = maxHistory) :
    s.newLine.history = fun i => if i + 1 < maxHistory then s.history (i + 1) else fun _ => 0 := by
  unfold newLine checkHistoryScroll
  rw [if_pos h.ge]
  dsimp only
  split_ifs <;> rfl

/-- A call that ends the line goes on with the next one, what it prints being in the history. -/
theorem endsLine_newLine {op : Op} {t : Console} (h : s.InRange) (hstep : s.step op = some t)
    (hend : s.EndsLine op) :
    ∃ u : Console, t = u.newLine ∧ u.cursorY = s.cursorY + 1 ∧ u.history = s.printed op := by
  rcases op with c | lines
  · obtain rfl := Option.some.inj hstep
    rcases hend with rfl | ⟨hc, hwrap⟩
    · exact ⟨_, rfl, rfl, rfl⟩
    · obtain ⟨hnl, hbs⟩ := printable_ne hc
      refine ⟨{ s.putCell (if s.cursorY ≥ s.screenRows then (s.screenRows - 1).toNat
        else s.cursorY) c with cursorX := 0, cursorY := s.cursorY + 1 }, ?_, rfl, ?_⟩
      · rw [kprintChar, if_neg hnl, if_neg hbs, if_pos hc, if_neg (not_le.mpr h.cursorY)]
        exact if_pos hwrap
      · exact (if_pos hc).symm
  · exact hend.elim

/-- The lines move up by one when the last one is ended. -/
theorem replay_full {op : Op} (h : s.InRange) (hend : s.EndsLine op)
    (hy : s.cursorY + 1 = maxHistory) {i j : ℕ} (hi : i < maxHistory - 1) (hj : j < maxCols) :
    (s.replay (s.accesses op)).1 i j = s.printed op (i + 1) j := by
  obtain ⟨t, hstep⟩ : ∃ t, s.step op = some t := by
    rcases op with c | lines
    · exact ⟨_, rfl⟩
    · exact hend.elim
  obtain ⟨history', hreplay, hagree⟩ := replay_step hstep
  obtain ⟨u, rfl, hu, hprinted⟩ := endsLine_newLine h hstep hend
  rw [hreplay]
  dsimp only
  rw [hagree i (by omega) j hj, newLine_full (hu.trans hy)]
  dsimp only
  rw [if_pos (by omega), hprinted]

/-- On a framebuffer with at least one row and one column as an `int`, the positions are in range
after every call, every access of a next call is in range, and a call that ends the last line of
the history moves the lines above up, with what it prints. -/
theorem console_in_range (fb : Framebuffer) (hr : 1 ≤ toInt32 (fb.height / (8 * 2)))
    (hc : 1 ≤ toInt32 (fb.width / (8 * 2))) (ops : List Op) {s : Console}
    (h : Run.run step (consoleInit fb) ops = some s) :
    s.InRange ∧ ∀ op, (∀ a ∈ s.accesses op, a.Ok s.screenRows s.screenCols)
      ∧ (s.EndsLine op → s.cursorY + 1 = maxHistory → ∀ i < maxHistory - 1, ∀ j < maxCols,
        (s.replay (s.accesses op)).1 i j = s.printed op (i + 1) j) := by
  have hI : s.InRange := Run.run_invariant step_inRange (consoleInit_inRange hr hc) h
  exact ⟨hI, fun op => ⟨accesses_ok hI op, fun hend hy i hi j hj => replay_full hI hend hy hi hj⟩⟩

/-- A screen of two rows of three cells. -/
def twoRows : Framebuffer := ⟨48, 32, 192, fun _ _ => 32⟩

/-- One line is printed and a second begun. -/
def smallOps : List Op :=
  [.kprintChar 65, .kprintChar 66, .kprintChar 67, .kprintChar 68, .consoleScroll 10]

theorem console_in_range_smallOps :
    ∃ s, Run.run step (consoleInit twoRows) smallOps = some s ∧ s.InRange
      ∧ ∀ a ∈ s.accesses (.kprintChar 8), a.Ok 2 3 := by
  obtain ⟨s, hs, hval⟩ := Option.map_eq_some_iff.mp
    (show (Run.run step (consoleInit twoRows) smallOps).map
      (fun s => (s.screenRows, s.screenCols)) = some (2, 3) by decide +kernel)
  obtain ⟨hI, hops⟩ := console_in_range twoRows (by decide) (by decide) smallOps hs
  obtain ⟨hrows, hcols⟩ := Prod.mk.inj hval
  have hok := (hops (.kprintChar 8)).1
  rw [hrows, hcols] at hok
  exact ⟨s, hs, hI, hok⟩

/-- One row of `2 ^ 31` columns. -/
def wideRow : Framebuffer := ⟨2 ^ 35, 16, 2 ^ 37, fun _ _ => 32⟩

/-- `2 ^ 31` columns are a negative number of columns to an `int`. -/
theorem console_out_of_range :
    ¬ ∀ (fb : Framebuffer) (ops : List Op) (s : Console), 16 ≤ fb.width → 16 ≤ fb.height →
      Run.run step (consoleInit fb) ops = some s → (s.cursorX : ℤ) < s.screenCols := by
  intro hall
  obtain ⟨s, hs, hval⟩ := Option.map_eq_some_iff.mp
    (show (Run.run step (consoleInit wideRow) [.kprintChar 65]).map
      (fun s => (s.cursorX, s.screenCols)) = some (0, -2 ^ 31) by decide +kernel)
  obtain ⟨hx, hc⟩ := Prod.mk.inj hval
  have hlt := hall wideRow [.kprintChar 65] s (by decide) (by decide) hs
  rw [hx, hc] at hlt
  exact absurd hlt (by decide)

end Console

end SudoOS
