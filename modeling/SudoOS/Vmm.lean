import SudoOS.Kheap

/-!
# Address spaces

`mm/vmm.c`: `mm_alloc`, `mm_free`, `mm_map_range` and `mm_copy`. An `mm_struct` and a
`vma_struct` are named by their addresses on the kernel heap, and a `vma_list` is the sequence of
the areas it links. The page fault of `kheap_expand` is passed on as `none`.
-/

namespace SudoOS

/-! ## Area flags -/

def vmRead : BitVec 64 := 1#64 <<< 0

def vmWrite : BitVec 64 := 1#64 <<< 1

def vmExec : BitVec 64 := 1#64 <<< 2

def vmStack : BitVec 64 := 1#64 <<< 4

def vmHeap : BitVec 64 := 1#64 <<< 5

/-- The entry flags `mm_map_range` derives from an area's. -/
def pteFlagsOf (vmFlags : BitVec 64) : BitVec 64 :=
  if vmFlags &&& vmWrite != 0#64 then ptePresent ||| pteUser ||| pteRw else ptePresent ||| pteUser

/-! ## Structures -/

/-- `vma_struct_t`, less its list node. -/
structure VmaStruct where
  mm : ℕ
  vmStart : ℕ
  vmEnd : ℕ
  vmFlags : BitVec 64
  deriving Repr, DecidableEq

/-- The rounds of the deep copy's loop over the pages below `vm_end`. -/
def VmaStruct.rounds (v : VmaStruct) : ℕ := (v.vmEnd - v.vmStart + (pageSize - 1)) / pageSize

/-- `mm_struct_t`. The pointer `pml4` is `pml4_pa` seen through the direct map, so one field stands
for both, zero for `NULL`. -/
structure MmStruct where
  pml4Pa : ℕ := 0
  vmaList : List ℕ := []
  mapCount : ℕ := 0
  refCount : ℕ := 0
  startCode : ℕ := 0
  endCode : ℕ := 0
  startData : ℕ := 0
  endData : ℕ := 0
  startHeap : ℕ := 0
  heap : ℕ := 0
  startStack : ℕ := 0
  deriving Repr, DecidableEq

/-- `sizeof(mm_struct_t)`. -/
def mmStructSize : ℕ := 104

/-- `sizeof(vma_struct_t)`. -/
def vmaStructSize : ℕ := 48

/-- Kernel memory with the structures that live on its heap. -/
structure Kernel extends KMem where
  mms : ℕ → MmStruct
  vmas : ℕ → VmaStruct

/-- The loop of `mm_alloc` over the entries 256 to 511 of the kernel's PML4. -/
def PhysMem.copyKernelHalf (ph : PhysMem) (dst src : ℕ) : PhysMem :=
  fun p i => if p = dst ∧ 256 ≤ i ∧ i < 512 then ph src i else ph p i

namespace Machine

/-! ## Page loops -/

/-- One round of the rollback loop of `mm_map_range`. -/
def rollbackPage (m : Machine) (pml4 va : ℕ) : Machine :=
  match m.vmmGetPte pml4 va with
  | none => m
  | some (pt, i) =>
    if isPresent (m.phys pt i) then
      { pmm := m.pmm.pmmFreePage (pteGetAddr (m.phys pt i)), phys := m.phys.write pt i 0#64 }
    else m

def rollback (m : Machine) (pml4 start n : ℕ) : Machine :=
  (List.range n).foldl (fun m j => m.rollbackPage pml4 (u64 (start + j * pageSize))) m

/-- The mapping loop of `mm_map_range`, with `n` pages to go and page `i` next. -/
def mapRange (pml4 start : ℕ) (flags : BitVec 64) : ℕ → ℕ → Machine → Bool × Machine
  | 0, _, m => (true, m)
  | n + 1, i, m =>
    let r := m.pmm.pmmAllocPage
    let m : Machine := { m with pmm := r.2 }
    if r.1 = 0 then (false, m.rollback pml4 start i)
    else
      mapRange pml4 start flags n (i + 1) (m.vmmMapPage pml4 (u64 (start + i * pageSize)) r.1 flags)

/-- One round of the deep copy of `mm_copy`: false when the destination's entry names no page. -/
def copyPte (m : Machine) (dst src va : ℕ) : Bool × Machine :=
  match m.vmmGetPte src va, m.vmmGetPte dst va with
  | some (spt, si), some (dpt, di) =>
    if isPresent (m.phys spt si) then
      let srcPa := pteGetAddr (m.phys spt si)
      let dstPa := pteGetAddr (m.phys dpt di)
      if dstPa = 0 then (false, m)
      else
        let m : Machine := { m with phys := m.phys.copyPage dstPa srcPa }
        (true, m.setEntry dpt di
          ((BitVec.ofNat 64 dstPa &&& pteAddrMask) ||| (m.phys spt si &&& 0xFFF#64)))
    else (true, m)
  | _, _ => (true, m)

/-- The deep copy, with `n` pages to go from `va` on. -/
def copyRange (dst src : ℕ) : ℕ → ℕ → Machine → Bool × Machine
  | 0, _, m => (true, m)
  | n + 1, va, m =>
    match m.copyPte dst src va with
    | (false, m') => (false, m')
    | (true, m') => copyRange dst src n (u64 (va + pageSize)) m'

end Machine

namespace Kernel

def kfree (k : Kernel) (ptr : ℕ) : Kernel := { k with toKMem := k.toKMem.kfree ptr }

def setMm (k : Kernel) (mm : ℕ) (s : MmStruct) : Kernel :=
  { k with mms := Function.update k.mms mm s }

/-! ## Making and releasing -/

/-- The structure's address, zero on failure. -/
def mmAlloc (k : Kernel) : Option (ℕ × Kernel) :=
  match k.kmalloc mmStructSize with
  | none => none
  | some (mm, km) =>
    let k : Kernel := { k with toKMem := km }
    if mm = 0 then some (0, k)
    else
      let k := k.setMm mm {}
      let r := k.pmm.pmmAllocPage
      let k : Kernel := { k with pmm := r.2 }
      if r.1 = 0 then some (0, k.kfree mm)
      else
        let ph := (k.phys.zeroPage r.1).copyKernelHalf r.1 k.kernelPml4
        some (mm, { k with phys := ph }.setMm mm { pml4Pa := r.1 })

/-- The pages and page tables of the user half, and the PML4. -/
def releaseTables (k : Kernel) (pml4 : ℕ) : Kernel :=
  if pml4 = 0 then k
  else { k with pmm := (userPgtableFreeRecursive k.phys 4 pml4 k.pmm).pmmFreePage pml4 }

def mmFree (k : Kernel) (mm : ℕ) : Kernel :=
  if mm = 0 then k
  else
    let s := k.mms mm
    ((s.vmaList.foldl kfree k).releaseTables s.pml4Pa).kfree mm

/-! ## Mapping -/

/-- A new area, entered at the end of the list. -/
def linkVma (k : Kernel) (mm vma : ℕ) (v : VmaStruct) : Kernel :=
  let s := k.mms mm
  { k with vmas := Function.update k.vmas vma v }.setMm mm
    { s with vmaList := s.vmaList ++ [vma], mapCount := s.mapCount + 1 }

/-- `pages`, for the range from `start` to `stop`. -/
def pageCount (start stop : ℕ) : ℕ := u64Sub stop start / pageSize

/-- `mm_map_range` from its new area on: the area is linked and its pages are mapped. A failure
releases the area, which stays linked. -/
def mapArea (k : Kernel) (mm vma : ℕ) (v : VmaStruct) : Bool × Kernel :=
  let k := k.linkVma mm vma v
  match Machine.mapRange (k.mms mm).pml4Pa v.vmStart (pteFlagsOf v.vmFlags)
      (pageCount v.vmStart v.vmEnd) 0 k.toMachine with
  | (true, m) => (true, { k with toMachine := m })
  | (false, m) => (false, { k with toMachine := m }.kfree vma)

def mmMapRange (k : Kernel) (mm va size : ℕ) (vmFlags : BitVec 64) : Option (Bool × Kernel) :=
  if mm = 0 ∨ size = 0 then some (false, k)
  else
    let start := alignDown va pageSize
    let stop := alignUp (u64 (va + size)) pageSize
    match k.kmalloc vmaStructSize with
    | none => none
    | some (vma, km) =>
      let k : Kernel := { k with toKMem := km }
      if vma = 0 then some (false, k) else some (k.mapArea mm vma ⟨mm, start, stop, vmFlags⟩)

/-! ## Copying -/

/-- The loop of `mm_copy` over the source's areas; a failure releases the destination. -/
def mmCopyLoop (dst src : ℕ) : List ℕ → Kernel → Option (Bool × Kernel)
  | [], k => some (true, k)
  | v :: vs, k =>
    match k.mmMapRange dst (k.vmas v).vmStart
        (u64Sub (k.vmas v).vmEnd (k.vmas v).vmStart) (k.vmas v).vmFlags with
    | none => none
    | some (false, k) => some (false, k.mmFree dst)
    | some (true, k) =>
      match Machine.copyRange (k.mms dst).pml4Pa (k.mms src).pml4Pa (k.vmas v).rounds
          (k.vmas v).vmStart k.toMachine with
      | (false, m) => some (false, { k with toMachine := m }.mmFree dst)
      | (true, m) => mmCopyLoop dst src vs { k with toMachine := m }

def mmCopy (k : Kernel) (dst src : ℕ) : Option (Bool × Kernel) :=
  if dst = 0 ∨ src = 0 then some (false, k) else mmCopyLoop dst src (k.mms src).vmaList k

end Kernel

/-! ## Boot -/

/-- `pmm_init`, `paging_init` and `kheap_init`, in the order of `mm_init`. -/
def bootMemory (hhdm : ℕ) (img : KernelImage) (mmap : List MemmapEntry) (pgnum : ℕ)
    (phys : PhysMem) : Option Kernel :=
  (pmmInit mmap).bind fun p =>
    (pagingInit hhdm img mmap ⟨p, phys⟩).bind fun r =>
      (KMem.kheapInit pgnum
          { toMachine := r.2, kernelPml4 := r.1, heap := ⟨[], kernelHeapBase⟩ }).map fun km =>
        { toKMem := km, mms := fun _ => {}, vmas := fun _ => ⟨0, 0, 0, 0#64⟩ }

end SudoOS
