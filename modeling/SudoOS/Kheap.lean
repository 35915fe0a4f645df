import SudoOS.Paging

/-!
# The kernel heap

`kheap_expand`, `first_fit`, `kmalloc`, `kfree` and `kheap_init` of `mm/pmm.c`. The heap is the
sequence of block headers that `kheap_list` links, in list order; a header that has been unlinked
is linked to itself, so that releasing it again touches no list. What clients write into their
payloads is not modelled.
-/

namespace SudoOS

/-- `KERNEL_HEAP_BASE`. -/
def kernelHeapBase : ℕ := 0xFFFF900000000000

/-- `HEADER_SIZE`: two links, the size and the flag. -/
def headerSize : ℕ := 32

/-- `MIN_SPLIT`. -/
def minSplit : ℕ := 16

/-- A block header, `kheap_pghdr_t`, with its address. -/
structure Block where
  addr : ℕ
  size : ℕ
  isFree : Bool
  deriving Repr, DecidableEq

structure Heap where
  kheapList : List Block
  kheapTop : ℕ
  deriving Repr, DecidableEq

namespace Block

/-- The address after the block's payload. -/
def next (b : Block) : ℕ := u64 (b.addr + b.size + headerSize)

/-- `b` takes in the block `c`. -/
def absorb (b c : Block) : Block := { b with size := u64 (b.size + (c.size + headerSize)) }

end Block

/-! ## Releasing -/

/-- The merge with the next block. -/
def mergeNext (b : Block) : List Block → Block × List Block
  | [] => (b, [])
  | c :: after => if b.next = c.addr then (b.absorb c, after) else (b, c :: after)

/-- The merge into the previous block. -/
def mergePrev (before : List Block) (b : Block) : List Block :=
  match before.getLast? with
  | none => [b]
  | some a => if a.next = b.addr then before.dropLast ++ [a.absorb b] else before ++ [b]

/-- The list after the block with header `hdr` has been marked free and merged. -/
def freeBlock (hdr : ℕ) (bs : List Block) : List Block :=
  match bs.dropWhile (·.addr != hdr) with
  | [] => bs
  | b :: after =>
    let r := mergeNext { b with isFree := true } after
    mergePrev (bs.takeWhile (·.addr != hdr)) r.1 ++ r.2

namespace Heap

def kfree (h : Heap) (ptr : ℕ) : Heap :=
  if ptr = 0 then h else { h with kheapList := freeBlock (ptr - headerSize) h.kheapList }

/-- What `kheap_expand` does with a page once it is mapped at `kheap_top`. -/
def addPage (h : Heap) : Heap :=
  let hdr : Block := ⟨h.kheapTop, pageSize - headerSize, false⟩
  let h' := kfree { h with kheapList := h.kheapList ++ [hdr] } (h.kheapTop + headerSize)
  { h' with kheapTop := u64 (h'.kheapTop + pageSize) }

/-! ## Allocating -/

def firstFit (h : Heap) (size : ℕ) : Option Block :=
  h.kheapList.find? fun b => b.isFree && decide (b.size ≥ size)

end Heap

/-- The target block in use, its surplus cut off as a block of its own. -/
def takeBlock (size : ℕ) (t : Block) : List Block :=
  if t.size ≥ u64 (u64 (size + headerSize) + minSplit) then
    [⟨t.addr, size, false⟩, ⟨u64 (t.addr + headerSize + size), t.size - size - headerSize, true⟩]
  else [{ t with isFree := false }]

def Heap.carve (h : Heap) (size : ℕ) (t : Block) : Heap :=
  { h with
    kheapList := h.kheapList.takeWhile (·.addr != t.addr) ++ takeBlock size t
      ++ (h.kheapList.dropWhile (·.addr != t.addr)).drop 1 }

/-- Physical memory with the kernel's tables and heap. -/
structure KMem extends Machine where
  kernelPml4 : ℕ
  heap : Heap

namespace KMem

/-- Whether it grew by all the pages asked for. `none` is the page fault on the new header, when
no table could be had to map its page. -/
def kheapExpand : ℕ → KMem → Option (Bool × KMem)
  | 0, k => some (true, k)
  | n + 1, k =>
    let r := k.pmm.pmmAllocPage
    if r.1 = 0 then some (false, { k with pmm := r.2 })
    else
      let m : Machine := { pmm := r.2, phys := k.phys }
      let m := m.vmmMapPage k.kernelPml4 k.heap.kheapTop r.1 kernelFlags
      match m.leafEntry k.kernelPml4 k.heap.kheapTop with
      | none => none
      | some _ => kheapExpand n { k with toMachine := m, heap := k.heap.addPage }

/-- The pages `kmalloc` asks `kheap_expand` for. -/
def pgNeeded (size : ℕ) : ℕ :=
  let pg := alignUp (u64 (size + headerSize)) pageSize / pageSize
  if pg = 0 then 1 else pg

/-- `kmalloc`, its retries counted. -/
def kmallocLoop : ℕ → ℕ → KMem → Option (ℕ × KMem)
  | 0, _, k => some (0, k)
  | fuel + 1, size, k =>
    let size := alignUp size 8
    match k.heap.firstFit size with
    | some t => some (u64 (t.addr + headerSize), { k with heap := k.heap.carve size t })
    | none =>
      match kheapExpand (pgNeeded size) k with
      | none => none
      | some (false, k') => some (0, k')
      | some (true, k') => kmallocLoop fuel size k'

/-- The payload's address, zero on failure. A retry follows an expansion, which takes at least one
free frame, so there are at most as many as there are free frames. -/
def kmalloc (size : ℕ) (k : KMem) : Option (ℕ × KMem) :=
  kmallocLoop (k.pmm.freePages + 1) size k

def kfree (ptr : ℕ) (k : KMem) : KMem := { k with heap := k.heap.kfree ptr }

def kheapInit (pgnum : ℕ) (k : KMem) : Option KMem :=
  (kheapExpand pgnum { k with heap := ⟨[], kernelHeapBase⟩ }).map Prod.snd

end KMem

end SudoOS
