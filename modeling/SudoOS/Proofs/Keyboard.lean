import SudoOS.Keyboard
import SudoOS.Lib.Ring

/-!
# The keyboard buffer is a queue

Whatever is typed and read, and however the two alternate, the ring holds what waits in a queue of
at most 127 characters (`keyboard_fifo`).
-/

namespace SudoOS

namespace Keyboard

variable {k : Keyboard}

/-- The characters in the buffer, the oldest first. -/
def waiting (k : Keyboard) : List UInt8 := Ring.contents k.kbuf kbufSize k.rPtr k.wPtr

/-- The indices are inside the buffer. -/
structure Inside (k : Keyboard) : Prop where
  rPtr : k.rPtr < kbufSize
  wPtr : k.wPtr < kbufSize

theorem Inside.length_waiting (h : k.Inside) : k.waiting.length ≤ 127 := by
  rw [waiting, Ring.length_contents]
  exact Ring.count_le h.wPtr

theorem Inside.put (h : k.Inside) (c : UInt8) : (k.put c).Inside := by
  unfold Keyboard.put
  dsimp only
  split_ifs
  · exact ⟨h.rPtr, Ring.next_lt h.wPtr⟩
  · exact h

theorem put_waiting (h : k.Inside) (c : UInt8) :
    (k.put c).waiting = if k.waiting.length < 127 then k.waiting ++ [c] else k.waiting := by
  have hfull := Ring.full_iff h.rPtr h.wPtr
  have hle := h.length_waiting
  rw [← Ring.length_contents k.kbuf] at hfull
  change _ ↔ k.waiting.length = 127 at hfull
  unfold Keyboard.put
  by_cases hlt : k.waiting.length < 127
  · have hne : Ring.next kbufSize k.wPtr ≠ k.rPtr := fun he => by
      have := hfull.mp he
      omega
    rw [if_pos hlt]
    dsimp only
    rw [if_pos (show (k.wPtr + 1) % kbufSize ≠ k.rPtr from hne)]
    exact Ring.contents_put k.kbuf c h.rPtr h.wPtr hne
  · have heq : Ring.next kbufSize k.wPtr = k.rPtr := hfull.mpr (by omega)
    rw [if_neg hlt]
    dsimp only
    rw [if_neg (show ¬ (k.wPtr + 1) % kbufSize ≠ k.rPtr from not_not.mpr heq)]

theorem Inside.getChar (h : k.Inside) : k.getChar.2.Inside := by
  unfold Keyboard.getChar
  split_ifs
  · exact h
  · exact ⟨Ring.next_lt h.rPtr, h.wPtr⟩

theorem getChar_waiting (h : k.Inside) :
    k.getChar.1 = k.waiting.headD 0 ∧ k.getChar.2.waiting = k.waiting.tail := by
  unfold Keyboard.getChar
  split_ifs with he
  · have hnil : k.waiting = [] := (Ring.contents_eq_nil_iff k.kbuf h.rPtr).mpr he
    exact ⟨by rw [hnil]; rfl, by rw [hnil]; rfl⟩
  · have hcons : k.waiting = k.kbuf k.rPtr :: _ := Ring.contents_get k.kbuf h.rPtr h.wPtr he
    rw [hcons]
    exact ⟨rfl, rfl⟩

end Keyboard

open KeyQueue

/-! ## Single steps -/

theorem and_0x80_ne_zero_iff (code : UInt8) : code &&& 0x80 ≠ 0 ↔ ¬ code < 0x80 := by
  obtain ⟨b⟩ := code
  revert b
  decide

theorem filter_getElem? (l : List UInt8) (i : ℕ) :
    l[i]?.filter (· ≠ 0) = if l.getD i 0 ≠ 0 then some (l.getD i 0) else none := by
  rw [List.getD_eq_getElem?_getD]
  rcases l[i]? with _ | c
  · rfl
  · by_cases hc : c = 0 <;> simp [hc, Option.filter]

theorem put_gShift (k : Keyboard) (c : UInt8) : (k.put c).gShift = k.gShift := by
  unfold Keyboard.put
  dsimp only
  split_ifs <;> rfl

/-- What a scancode does to the keyboard. -/
theorem keyboardHandler_keyboard (d : Devices) (code : UInt8) :
    (d.keyboardHandler code).keyboard
      = { (typed d.keyboard.gShift code).elim d.keyboard d.keyboard.put with
        gShift := (shiftKey code).getD d.keyboard.gShift } := by
  unfold Devices.keyboardHandler
  dsimp only
  by_cases h1 : code = 0x2A ∨ code = 0x36
  · rw [if_pos h1]
    rcases h1 with rfl | rfl <;> rfl
  rw [if_neg h1]
  by_cases h2 : code = 0xAA ∨ code = 0xB6
  · rw [if_pos h2]
    rcases h2 with rfl | rfl <;> rfl
  have hkey : shiftKey code = none := by simp [shiftKey, h1, h2]
  rw [if_neg h2, hkey, Option.getD_none]
  by_cases h3 : code < 0x80
  · have hmake : ¬ code &&& 0x80 ≠ 0 := fun h => (and_0x80_ne_zero_iff code).mp h h3
    rw [if_neg hmake]
    by_cases h4 : code = 0x49
    · subst h4
      rfl
    by_cases h5 : code = 0x51
    · subst h5
      rfl
    have hmem : code ∉ [0x2A, 0x36, 0x49, 0x51] := by
      simpa [h4, h5] using h1
    have htyped : typed d.keyboard.gShift code = _ :=
      (if_pos ⟨h3, hmem⟩).trans (filter_getElem? _ _)
    rw [if_neg h4, if_neg h5, htyped]
    generalize List.getD _ _ _ = c
    by_cases hc : c ≠ 0
    · rw [if_pos hc, if_pos hc, Option.elim_some, ← put_gShift d.keyboard c]
    · rw [if_neg hc, if_neg hc, Option.elim_none]
  · rw [if_pos ((and_0x80_ne_zero_iff code).mpr h3)]
    simp [typed, h3]

/-! ## Runs -/

/-- The buffer holds what waits in the queue. -/
structure Typing.Represents (s : Typing) (q : KeyQueue) : Prop where
  inside : s.dev.keyboard.Inside
  shift : s.dev.keyboard.gShift = q.shift
  waiting : s.dev.keyboard.waiting = q.waiting
  results : s.results = q.results

theorem typed_ne_zero {shift : Bool} {code c : UInt8} (h : typed shift code = some c) : c ≠ 0 := by
  unfold typed at h
  split_ifs at h
  · simpa using (Option.filter_eq_some_iff.mp h).2
  · simpa using (Option.filter_eq_some_iff.mp h).2

/-- A character that may be typed, or none. -/
theorem offer_waiting {k : Keyboard} {q : KeyQueue} (h : k.Inside) (hw : k.waiting = q.waiting)
    (o : Option UInt8) : (o.elim k k.put).Inside
      ∧ (o.elim k k.put).waiting = (o.elim q q.offer).waiting
      ∧ (o.elim q q.offer).results = q.results := by
  rcases o with _ | c
  · exact ⟨h, hw, rfl⟩
  · refine ⟨h.put c, ?_, ?_⟩
    · rw [Option.elim_some, Option.elim_some, Keyboard.put_waiting h, hw, offer]
      split_ifs <;> rfl
    · rw [Option.elim_some, offer]
      split_ifs <;> rfl

theorem Typing.Represents.step {s : Typing} {q : KeyQueue} (h : s.Represents q) (op : KeyOp) :
    (s.step op).Represents (q.step op) := by
  rcases op with code | _
  · obtain ⟨hin, hw, hr⟩ := offer_waiting h.inside h.waiting (typed s.dev.keyboard.gShift code)
    have hkb := keyboardHandler_keyboard s.dev code
    rw [h.shift] at hkb hin hw hr
    refine ⟨?_, ?_, ?_, h.results.trans hr.symm⟩
    · change (s.dev.keyboardHandler code).keyboard.Inside
      rw [hkb]
      exact ⟨hin.rPtr, hin.wPtr⟩
    · change (s.dev.keyboardHandler code).keyboard.gShift = _
      rw [hkb]
      rfl
    · change (s.dev.keyboardHandler code).keyboard.waiting = _
      rw [hkb]
      exact hw
  · obtain ⟨hc, hw⟩ := Keyboard.getChar_waiting h.inside
    refine ⟨h.inside.getChar, ?_, ?_, ?_⟩
    · refine Eq.trans ?_ h.shift
      change s.dev.keyboard.getChar.2.gShift = _
      unfold Keyboard.getChar
      split_ifs <;> rfl
    · exact hw.trans (congrArg List.tail h.waiting)
    · change s.results ++ [s.dev.keyboard.getChar.1] = q.results ++ [q.waiting.headD 0]
      rw [hc, h.results, h.waiting]

/-- The characters returned so far and those that wait are the characters accepted; zero is none of
them. -/
structure KeyQueue.Ordered (q : KeyQueue) : Prop where
  accepted : q.accepted = q.results.filter (· ≠ 0) ++ q.waiting
  waiting : ∀ c ∈ q.waiting, c ≠ 0

theorem KeyQueue.Ordered.step {q : KeyQueue} (h : q.Ordered) (op : KeyOp) :
    (q.step op).Ordered := by
  rcases op with code | _
  · change ({ (typed q.shift code).elim q q.offer with shift := _ } : KeyQueue).Ordered
    rcases ht : typed q.shift code with _ | c
    · exact ⟨h.accepted, h.waiting⟩
    · rw [Option.elim_some, offer]
      split_ifs
      · refine ⟨?_, ?_⟩
        · change q.accepted ++ [c] = q.results.filter (· ≠ 0) ++ (q.waiting ++ [c])
          rw [h.accepted, List.append_assoc]
        · intro x hx
          rcases List.mem_append.mp hx with hx | hx
          · exact h.waiting x hx
          · rw [List.mem_singleton.mp hx]
            exact typed_ne_zero ht
      · exact ⟨h.accepted, h.waiting⟩
  · obtain ⟨hacc, hne⟩ := h
    unfold KeyQueue.step
    rcases hw : q.waiting with _ | ⟨c, cs⟩
    · refine ⟨?_, ?_⟩
      · rw [hw] at hacc
        simp [hacc]
      · simp
    · rw [hw] at hacc hne
      refine ⟨?_, ?_⟩
      · simp [hacc, hne c List.mem_cons_self]
      · exact fun x hx => hne x (List.mem_cons_of_mem c hx)

theorem run_represents : ∀ (ops : List KeyOp) {s : Typing} {q : KeyQueue}, s.Represents q →
    q.Ordered → (ops.foldl Typing.step s).Represents (ops.foldl KeyQueue.step q)
      ∧ (ops.foldl KeyQueue.step q).Ordered
  | [], _, _, h, ho => ⟨h, ho⟩
  | op :: ops, _, _, h, ho => run_represents ops (h.step op) (ho.step op)

/-- The queue before anything is typed. -/
def KeyQueue.empty (shift : Bool) : KeyQueue := ⟨shift, [], [], []⟩

/-- From `init_keyboard` on, for all scancodes and calls in any order: `keyboard_get_char` returns
what the queue of 127 characters returns, and 0 exactly when none waits; the characters it has
returned and those in the buffer are the accepted ones, in order; and the indices stay inside the
buffer. -/
theorem keyboard_fifo (d : Devices) (ops : List KeyOp) :
    ∃ s q, ops.foldl Typing.step ⟨d.initKeyboard, []⟩ = s
      ∧ ops.foldl KeyQueue.step (.empty d.keyboard.gShift) = q
      ∧ s.Represents q ∧ q.Ordered
      ∧ (s.dev.keyboard.getChar.1 = 0 ↔ q.waiting = []) := by
  have hinit : Typing.Represents ⟨d.initKeyboard, []⟩ (.empty d.keyboard.gShift) := by
    refine ⟨⟨?_, ?_⟩, rfl, rfl, rfl⟩
    · exact show 0 < 128 by omega
    · exact show 0 < 128 by omega
  obtain ⟨h, ho⟩ := run_represents ops hinit ⟨rfl, by simp [KeyQueue.empty]⟩
  refine ⟨_, _, rfl, rfl, h, ho, ?_⟩
  have hne := ho.waiting
  rw [(Keyboard.getChar_waiting h.inside).1, h.waiting]
  generalize (ops.foldl KeyQueue.step _).waiting = waiting at hne ⊢
  rcases waiting with _ | ⟨c, cs⟩
  · simp
  · simpa using hne c List.mem_cons_self

end SudoOS
