import SudoOS.Word

/-!
# The heap of a user program

`malloc` and `free` of `usr/lib/stdlib.c`, over `sbrk` of `usr/lib/syscall.c`. The program's memory
is known by the block headers in it, each at its address; what the program writes into its payloads
is not modelled. `SYS_BRK` is left open: asked for an address other than zero, it moves the break
there or leaves it, and answers with the break.
-/

namespace SudoOS

/-- `header_t`. -/
structure UserHeader where
  size : ℕ
  next : ℕ
  free : Bool
  deriving Repr, DecidableEq

/-- `sizeof(header_t)`. -/
def userHeaderSize : ℕ := 24

/-- `(void*)-1`. -/
def sbrkFailed : ℕ := 2 ^ 64 - 1

/-- The headers in memory, the statics `head` and `tail`, and the kernel's break. -/
structure UserHeap where
  header : ℕ → UserHeader
  head : ℕ
  tail : ℕ
  curBrk : ℕ

namespace UserHeap

/-- The break after `brk(addr)`, which is also what the call returns; `moved` is the kernel's
choice. -/
def brk (h : UserHeap) (moved : Bool) (addr : ℕ) : ℕ :=
  if addr = 0 then h.curBrk else if moved then addr else h.curBrk

/-- The result, and the break afterwards. -/
def sbrk (h : UserHeap) (moved : Bool) (increment : ℕ) : ℕ × ℕ :=
  let current := h.brk moved 0
  if current = sbrkFailed then (sbrkFailed, current)
  else if increment = 0 then (current, current)
  else
    let newBrk := u64 (current + increment)
    let ret := h.brk moved newBrk
    if ret < newBrk then (sbrkFailed, ret) else (current, ret)

/-- The loop of `malloc` over the blocks from `curr` on: a free one of the size, zero for `NULL`. -/
def search (h : UserHeap) (size : ℕ) : ℕ → ℕ → Option ℕ
  | 0, _ => none
  | fuel + 1, curr =>
    if curr = 0 then some 0
    else if (h.header curr).free && decide ((h.header curr).size ≥ size) then some curr
    else search h size fuel (h.header curr).next

/-- `2 ^ 64` rounds are as good as any number: a longer walk has met an address twice, and the loop
does not end. -/
def findFree (h : UserHeap) (size : ℕ) : Option ℕ := h.search size (2 ^ 64) h.head

def setHeader (h : UserHeap) (addr : ℕ) (f : UserHeader → UserHeader) : UserHeap :=
  { h with header := Function.update h.header addr (f (h.header addr)) }

/-- A new block at the end of the list. -/
def link (h : UserHeap) (block size : ℕ) : UserHeap :=
  let h := h.setHeader block fun _ => ⟨size, 0, false⟩
  let h := if h.head = 0 then { h with head := block } else h
  let h := if h.tail ≠ 0 then h.setHeader h.tail fun t => { t with next := block } else h
  { h with tail := block }

/-- The payload, zero for `NULL`; `none` when the search does not end. -/
def malloc (h : UserHeap) (size : ℕ) (moved : Bool) : Option (ℕ × UserHeap) :=
  if size = 0 then some (0, h)
  else
    match h.findFree size with
    | none => none
    | some 0 =>
      let r := h.sbrk moved (u64 (userHeaderSize + size))
      let h := { h with curBrk := r.2 }
      if r.1 = sbrkFailed then some (0, h)
      else some (u64 (r.1 + userHeaderSize), h.link r.1 size)
    | some curr =>
      some (u64 (curr + userHeaderSize), h.setHeader curr fun b => { b with free := false })

def free (h : UserHeap) (ptr : ℕ) : UserHeap :=
  if ptr = 0 then h
  else h.setHeader (u64Sub ptr userHeaderSize) fun b => { b with free := true }

end UserHeap

/-! ## Programs -/

/-- A call; of `malloc`, with the kernel's choice should it ask for a new break. -/
inductive UserHeapOp
  | malloc (size : ℕ) (moved : Bool)
  | free (ptr : ℕ)
  deriving Repr, DecidableEq

/-- The heap with the live allocations: the pointer returned and the size asked for. -/
structure UserHeapRun where
  heap : UserHeap
  live : List (ℕ × ℕ)

/-- A call. Only what is live is released. -/
def userHeapStep (s : UserHeapRun) : UserHeapOp → Option UserHeapRun
  | .malloc size moved =>
    (s.heap.malloc size moved).map fun r =>
      ⟨r.2, if r.1 = 0 then s.live else (r.1, size) :: s.live⟩
  | .free ptr =>
    if ptr ∈ s.live.map Prod.fst then some ⟨s.heap.free ptr, s.live.eraseP (·.1 == ptr)⟩
    else none

/-- A program before its first call. -/
def userHeapInit (header : ℕ → UserHeader) (brk : ℕ) : UserHeapRun := ⟨⟨header, 0, 0, brk⟩, []⟩

end SudoOS
