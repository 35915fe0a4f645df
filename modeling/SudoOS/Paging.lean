import SudoOS.Pmm

/-!
# Page tables

`mm/paging.c`. Physical memory is a store of pages of 512 words, a page being named by its
physical address: the kernel reaches every page through the direct map, so a table pointer is the
table's physical address. Entries keep their 64 bits. The TLB is not modelled.
-/

namespace SudoOS

/-- Word `i` of the page at a physical address. -/
abbrev PhysMem := ℕ → ℕ → BitVec 64

namespace PhysMem

def write (ph : PhysMem) (page idx : ℕ) (v : BitVec 64) : PhysMem :=
  fun p i => if p = page ∧ i = idx then v else ph p i

/-- `memset` of a whole page to zero. -/
def zeroPage (ph : PhysMem) (page : ℕ) : PhysMem :=
  fun p i => if p = page then 0#64 else ph p i

/-- `memcpy` of a whole page. -/
def copyPage (ph : PhysMem) (dst src : ℕ) : PhysMem :=
  fun p i => if p = dst then ph src i else ph p i

end PhysMem

/-! ## Entries and indices -/

def ptePresent : BitVec 64 := 1#64 <<< 0

def pteRw : BitVec 64 := 1#64 <<< 1

def pteUser : BitVec 64 := 1#64 <<< 2

def pteHuge : BitVec 64 := 1#64 <<< 7

def pteAddrMask : BitVec 64 := 0x000FFFFFFFFFF000#64

def pteGetAddr (e : BitVec 64) : ℕ := (e &&& pteAddrMask).toNat

def pteGetFlags (e : BitVec 64) : BitVec 64 := e &&& ~~~pteAddrMask

/-- The test `entry & PTE_PRESENT`. -/
def isPresent (e : BitVec 64) : Bool := e &&& ptePresent != 0#64

def pml4Idx (va : ℕ) : ℕ := (va >>> 39) &&& 0x1FF

def pdptIdx (va : ℕ) : ℕ := (va >>> 30) &&& 0x1FF

def pdIdx (va : ℕ) : ℕ := (va >>> 21) &&& 0x1FF

def ptIdx (va : ℕ) : ℕ := (va >>> 12) &&& 0x1FF

/-- Canonical addresses: the top 17 bits agree. -/
def Canonical (va : ℕ) : Prop := va < 2 ^ 47 ∨ (2 ^ 64 - 2 ^ 47 ≤ va ∧ va < 2 ^ 64)

/-! ## Walking and mapping -/

/-- The frame allocator and physical memory, which the page-table code works on. -/
structure Machine where
  pmm : Pmm
  phys : PhysMem

namespace Machine

/-- The next table, `none` for `NULL`. A missing one is allocated on request, zeroed and entered
with the caller's flags. -/
def getNextTable (m : Machine) (pgtable index : ℕ) (allocate : Bool) (flags : BitVec 64) :
    Option ℕ × Machine :=
  if isPresent (m.phys pgtable index) then (some (pteGetAddr (m.phys pgtable index)), m)
  else if allocate then
    let r := m.pmm.pmmAllocPage
    if r.1 = 0 then (none, { m with pmm := r.2 })
    else
      (some r.1,
        { pmm := r.2
          phys := (m.phys.zeroPage r.1).write pgtable index (BitVec.ofNat 64 r.1 ||| flags) })
  else (none, m)

/-- A chain of `get_next_table` calls, given up at the first `NULL`. -/
def nextTables (m : Machine) (allocate : Bool) (flags : BitVec 64) :
    ℕ → List ℕ → Option ℕ × Machine
  | pgtable, [] => (some pgtable, m)
  | pgtable, i :: is =>
    match m.getNextTable pgtable i allocate flags with
    | (none, m') => (none, m')
    | (some next, m') => nextTables m' allocate flags next is

/-- A write to one entry. -/
def setEntry (m : Machine) (pgtable index : ℕ) (e : BitVec 64) : Machine :=
  { m with phys := m.phys.write pgtable index e }

def vmmMapPage (m : Machine) (pml4 va pa : ℕ) (flags : BitVec 64) : Machine :=
  match m.nextTables true flags pml4 [pml4Idx va, pdptIdx va, pdIdx va] with
  | (none, m') => m'
  | (some pt, m') => m'.setEntry pt (ptIdx va) (BitVec.ofNat 64 pa ||| flags ||| ptePresent)

/-- The place of the entry for `va`: a table and an index in it. -/
def vmmGetPte (m : Machine) (pml4 va : ℕ) : Option (ℕ × ℕ) :=
  match m.nextTables false 0 pml4 [pml4Idx va, pdptIdx va, pdIdx va] with
  | (none, _) => none
  | (some pt, _) => some (pt, ptIdx va)

/-- The entry for `va`, if `vmm_get_pte` finds one that is present. -/
def leafEntry (m : Machine) (pml4 va : ℕ) : Option (BitVec 64) :=
  match m.vmmGetPte pml4 va with
  | none => none
  | some (pt, i) => if isPresent (m.phys pt i) then some (m.phys pt i) else none

end Machine

/-- The lower half of the PML4, or a whole table, entry by entry: the tables below an entry first,
then the page it names. -/
def userPgtableFreeRecursive (ph : PhysMem) : ℕ → ℕ → Pmm → Pmm
  | 0, _, p => p
  | level + 1, pgtable, p =>
    (List.range (if level + 1 = 4 then 256 else 512)).foldl
      (fun p i =>
        if isPresent (ph pgtable i) then
          let next := pteGetAddr (ph pgtable i)
          let p := if level + 1 > 1 then userPgtableFreeRecursive ph level next p else p
          p.pmmFreePage next
        else p)
      p

/-! ## The kernel's own tables -/

/-- Where the boot loader put the kernel, and the size of its image. -/
structure KernelImage where
  virtualBase : ℕ
  physicalBase : ℕ
  size : ℕ
  deriving Repr, DecidableEq

def kernelFlags : BitVec 64 := ptePresent ||| pteRw

/-- `n` successive pages, each mapped with the kernel's flags. -/
def Machine.mapPages (m : Machine) (pml4 va pa n : ℕ) : Machine :=
  (List.range n).foldl
    (fun m i => m.vmmMapPage pml4 (u64 (va + i * pageSize)) (u64 (pa + i * pageSize)) kernelFlags)
    m

def MemmapType.isMapped : MemmapType → Bool
  | .usable | .executableAndModules | .bootloaderReclaimable | .framebuffer => true
  | _ => false

/-- The direct map of an entry, and its identity map below 4 GiB. -/
def Machine.mapEntry (hhdm pml4 : ℕ) (m : Machine) (e : MemmapEntry) : Machine :=
  if e.type.isMapped then
    let start := alignDown e.base pageSize
    let stop := alignUp (u64 (e.base + e.length)) pageSize
    let m := m.mapPages pml4 (start + hhdm) start ((stop - start) / pageSize)
    let identityEnd := 0x100000000
    if start ≥ identityEnd then m
    else
      let stop := if stop > identityEnd then identityEnd else stop
      m.mapPages pml4 start start ((stop - start) / pageSize)
  else m

/-- `paging_init`: the physical address of the kernel's PML4, which it also loads into CR3.
`none` is the halt when no page is left for it. -/
def pagingInit (hhdm : ℕ) (img : KernelImage) (mmap : List MemmapEntry) (m : Machine) :
    Option (ℕ × Machine) :=
  let r := m.pmm.pmmAllocPage
  if r.1 = 0 then none
  else
    let m : Machine := { pmm := r.2, phys := m.phys.zeroPage r.1 }
    let m := m.mapPages r.1 img.virtualBase img.physicalBase (alignUp img.size pageSize / pageSize)
    some (r.1, mmap.foldl (Machine.mapEntry hhdm r.1) m)

end SudoOS
