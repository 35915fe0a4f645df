import SudoOS.Lib.ByteMap
import SudoOS.Word

/-!
# The physical memory manager

`mm/pmm.c`, the bitmap allocator: the bit operations, `pmm_set_free` and `pmm_set_busy`, page
allocation and release, and `pmm_init` on the boot loader's memory map. A set bit is a page that
is taken.
-/

namespace SudoOS

/-- `pa2pgidx`. -/
def pa2pgidx (pa : ℕ) : ℕ := pa / pageSize

/-- `pgidx2pa`. -/
def pgidx2pa (pgidx : ℕ) : ℕ := u64 (pgidx * pageSize)

/-- The allocator's globals, `bitmap` standing for the bytes at its address. -/
structure Pmm where
  bitmap : List (BitVec 8)
  totalPages : ℕ
  freePages : ℕ
  lastFreeIndex : ℕ
  deriving Repr, DecidableEq

/-- `LIMINE_MEMMAP_*`. -/
inductive MemmapType
  | usable
  | reserved
  | acpiReclaimable
  | acpiNvs
  | badMemory
  | bootloaderReclaimable
  | executableAndModules
  | framebuffer
  | acpiTables
  deriving Repr, DecidableEq

/-- `struct limine_memmap_entry`. -/
structure MemmapEntry where
  base : ℕ
  length : ℕ
  type : MemmapType
  deriving Repr, DecidableEq

namespace Pmm

def bitTest (p : Pmm) (bit : ℕ) : Bool := ByteMap.test p.bitmap bit

def bitSet (p : Pmm) (bit : ℕ) : Pmm := { p with bitmap := ByteMap.set p.bitmap bit }

def bitUnset (p : Pmm) (bit : ℕ) : Pmm := { p with bitmap := ByteMap.unset p.bitmap bit }

/-- One round of `pmm_set_free`'s loop. -/
def freeBit (p : Pmm) (bit : ℕ) : Pmm :=
  if p.bitTest bit then { p.bitUnset bit with freePages := p.freePages + 1 } else p

/-- One round of `pmm_set_busy`'s loop. -/
def busyBit (p : Pmm) (bit : ℕ) : Pmm :=
  if !p.bitTest bit then { p.bitSet bit with freePages := p.freePages - 1 } else p

def pmmSetFree (p : Pmm) (pa pgnum : ℕ) : Pmm :=
  if pa2pgidx pa + pgnum ≥ p.totalPages then p
  else (List.range pgnum).foldl (fun p i => p.freeBit (pa2pgidx pa + i)) p

def pmmSetBusy (p : Pmm) (pa pgnum : ℕ) : Pmm :=
  if pa2pgidx pa + pgnum ≥ p.totalPages then p
  else (List.range pgnum).foldl (fun p i => p.busyBit (pa2pgidx pa + i)) p

/-- The four ways out of `pmm_alloc_page`. -/
inductive AllocExit
  | noFreePages
  | firstRound (i : ℕ)
  | wrapped (i : ℕ)
  | loopFailed
  deriving Repr, DecidableEq

def allocExit (p : Pmm) : AllocExit :=
  if p.freePages = 0 then .noFreePages
  else
    match ByteMap.scan p.bitmap (p.totalPages - p.lastFreeIndex) p.lastFreeIndex with
    | some i => .firstRound i
    | none =>
      match ByteMap.scan p.bitmap p.lastFreeIndex 0 with
      | some i => .wrapped i
      | none => .loopFailed

/-- What either loop does with the clear bit it finds. -/
def takePage (p : Pmm) (i : ℕ) : Pmm :=
  { p.bitSet i with freePages := p.freePages - 1, lastFreeIndex := i + 1 }

/-- The page's address, zero on failure, and the allocator afterwards. -/
def pmmAllocPage (p : Pmm) : ℕ × Pmm :=
  match p.allocExit with
  | .noFreePages => (0, p)
  | .firstRound i => (pgidx2pa i, p.takePage i)
  | .wrapped i => (pgidx2pa i, p.takePage i)
  | .loopFailed => (0, p)

/-- The release itself, with the cursor drawn back. -/
def givePage (p : Pmm) (i : ℕ) : Pmm :=
  { p.bitUnset i with
    freePages := p.freePages + 1
    lastFreeIndex := if i < p.lastFreeIndex then i else p.lastFreeIndex }

def pmmFreePage (p : Pmm) (pa : ℕ) : Pmm :=
  if pa2pgidx pa ≥ p.totalPages then p
  else if !p.bitTest (pa2pgidx pa) then p
  else p.givePage (pa2pgidx pa)

end Pmm

/-! ## Initialisation -/

/-- The highest end of an entry. -/
def highestPa (mmap : List MemmapEntry) : ℕ :=
  mmap.foldl (fun h e => if u64 (e.base + e.length) > h then u64 (e.base + e.length) else h) 0

/-- `bitmap_size` for a number of pages. -/
def bitmapSize (totalPages : ℕ) : ℕ :=
  if totalPages % 8 ≠ 0 then totalPages / 8 + 1 else totalPages / 8

/-- The pages `pmm_init` keeps for the bitmap. -/
def bitmapPages (size : ℕ) : ℕ := alignUp size pageSize / pageSize

/-- `bitmap_pa`: the base of the first usable entry that holds the bitmap, zero if none does. -/
def bitmapPlace (size : ℕ) : List MemmapEntry → ℕ
  | [] => 0
  | e :: es =>
    if e.type = .usable ∧ e.length ≥ size ∧ e.length ≥ bitmapPages size * pageSize then e.base
    else bitmapPlace size es

/-- The globals with every bit set, as `pmm_init` leaves them before its free-marking pass. -/
def pmmBlank (total : ℕ) : Pmm :=
  { bitmap := List.replicate (bitmapSize total) 0xFF#8, totalPages := total, freePages := 0,
    lastFreeIndex := 0 }

/-- The free-marking pass on one entry. -/
def Pmm.freeEntry (p : Pmm) (e : MemmapEntry) : Pmm :=
  if e.type = .usable then
    let start := alignUp e.base pageSize
    let stop := alignDown (u64 (e.base + e.length)) pageSize
    if start ≥ stop then p else p.pmmSetFree start ((stop - start) / pageSize)
  else p

/-- `pmm_init`; `none` is the halt when no entry holds the bitmap. -/
def pmmInit (mmap : List MemmapEntry) : Option Pmm :=
  let total := highestPa mmap / pageSize
  let size := bitmapSize total
  let bitmapPa := bitmapPlace size mmap
  if bitmapPa = 0 then none
  else
    let p := mmap.foldl Pmm.freeEntry (pmmBlank total)
    let p := p.pmmSetBusy bitmapPa (bitmapPages size)
    some (p.pmmSetBusy 0 1)

end SudoOS
