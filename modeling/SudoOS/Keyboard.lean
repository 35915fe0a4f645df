import SudoOS.Io

/-!
# Typing

Scancodes delivered to `keyboard_handler` and calls of `keyboard_get_char`, in any order, after
`init_keyboard`. Beside it stands what the driver is for: a queue of at most 127 characters.
-/

namespace SudoOS

/-- `init_keyboard` resets the two indices and nothing else of the buffer. -/
def Devices.initKeyboard (d : Devices) : Devices where
  keyboard := { d.keyboard with rPtr := 0, wPtr := 0 }
  console := (ascii "Keyboard initialized (Interrupt Mode).\n").foldl Console.kprintChar d.console

inductive KeyOp
  | scancode (code : UInt8)
  | getChar
  deriving Repr, DecidableEq

/-- The devices, with what the calls of `keyboard_get_char` have returned so far. -/
structure Typing where
  dev : Devices
  results : List UInt8

def Typing.step (s : Typing) : KeyOp → Typing
  | .scancode code => { s with dev := s.dev.keyboardHandler code }
  | .getChar =>
    let (c, k) := s.dev.keyboard.getChar
    { dev := { s.dev with keyboard := k }, results := s.results ++ [c] }

/-! ## The queue -/

/-- The characters accepted so far and those of them that wait. -/
structure KeyQueue where
  shift : Bool
  accepted : List UInt8
  waiting : List UInt8
  results : List UInt8

namespace KeyQueue

/-- Pressing or releasing one of the shift keys. -/
def shiftKey (code : UInt8) : Option Bool :=
  if code ∈ [0x2A, 0x36] then some true else if code ∈ [0xAA, 0xB6] then some false else none

/-- The character of a make code, if it has one; PageUp and PageDown have none. -/
def typed (shift : Bool) (code : UInt8) : Option UInt8 :=
  if code < 0x80 ∧ code ∉ [0x2A, 0x36, 0x49, 0x51] then
    ((if shift then kmapUp else kmapLow)[code.toNat]?).filter (· ≠ 0)
  else none

/-- A character is dropped only when 127 wait. -/
def offer (q : KeyQueue) (c : UInt8) : KeyQueue :=
  if q.waiting.length < 127 then
    { q with accepted := q.accepted ++ [c], waiting := q.waiting ++ [c] }
  else q

/-- A call that finds no character returns 0. -/
def step (q : KeyQueue) : KeyOp → KeyQueue
  | .scancode code =>
    { (typed q.shift code).elim q q.offer with shift := (shiftKey code).getD q.shift }
  | .getChar => { q with waiting := q.waiting.tail, results := q.results ++ [q.waiting.headD 0] }

end KeyQueue

end SudoOS
