import SudoOS.Vmm
import SudoOS.Lib.Wire

/-!
# Programs in memory

`load_elf` and the user stack of `proc/proc.c`, and `SYS_BRK` of `arch/interrupts.c`. An ELF image
is the memory from `elf_data` on. `memset` and `memcpy` write through the new process's page table,
which `load_elf` has put into CR3, and they write the bytes of a page at once: an address that the
table does not map is a page fault, which halts the kernel (`none`). Write protection is not
modelled.
-/

namespace SudoOS

/-! ## Stores through a page table -/

/-- The word with the given bytes replaced. -/
def storeWord (w : BitVec 64) (bytes : ℕ → Option UInt8) : BitVec 64 :=
  (List.range 8).foldr
    (fun i acc => acc <<< 8 |||
      BitVec.ofNat 64 ((bytes i).elim ((w >>> (8 * i)).toNat % 256) UInt8.toNat))
    0#64

/-- The page with the given bytes replaced. -/
def PhysMem.storeBytes (ph : PhysMem) (page : ℕ) (bytes : ℕ → Option UInt8) : PhysMem :=
  fun p i => if p = page ∧ i < 512 then storeWord (ph p i) fun j => bytes (8 * i + j) else ph p i

instance (va : ℕ) : Decidable (Canonical va) := inferInstanceAs (Decidable (_ ∨ _))

namespace Machine

def storePage (m : Machine) (pml4 va : ℕ) (bytes : ℕ → Option UInt8) : Option Machine :=
  if Canonical va then
    (m.leafEntry pml4 va).map fun e => { m with phys := m.phys.storeBytes (pteGetAddr e) bytes }
  else none

/-- Bytes `0` to `n - 1` of `byte` to the addresses from `va` on, with `r` pages to go and the page
at `page` next. -/
def storePages (pml4 va n : ℕ) (byte : ℕ → UInt8) : ℕ → ℕ → Machine → Option Machine
  | 0, _, m => some m
  | r + 1, page, m =>
    (m.storePage pml4 (u64 page) fun o =>
        if va ≤ page + o ∧ page + o < va + n then some (byte (page + o - va)) else none).bind
      (storePages pml4 va n byte r (page + pageSize))

/-- `memset` and `memcpy` to `va`. -/
def store (m : Machine) (pml4 va n : ℕ) (byte : ℕ → UInt8) : Option Machine :=
  let page := va / pageSize * pageSize
  let pages := if n = 0 then 0 else (va - page + n + (pageSize - 1)) / pageSize
  storePages pml4 va n byte pages page m

end Machine

/-! ## Headers -/

namespace Elf

/-- `PT_LOAD`. -/
def ptLoad : ℕ := 1

/-- `PF_X`. -/
def pfX : ℕ := 1

/-- A field of `width` bytes, `off` bytes after `elf_data`. -/
def field (elf : ℕ → UInt8) (off width : ℕ) : ℕ := Wire.readLe (fun o => elf (u64 o)) off width

def magic (elf : ℕ → UInt8) : Bool :=
  elf 0 == 0x7F && elf 1 == 0x45 && elf 2 == 0x4C && elf 3 == 0x46

def eEntry (elf : ℕ → UInt8) : ℕ := field elf 24 8

def ePhoff (elf : ℕ → UInt8) : ℕ := field elf 32 8

def ePhnum (elf : ℕ → UInt8) : ℕ := field elf 56 2

/-- `phdr[i]`. -/
def phdr (elf : ℕ → UInt8) (i : ℕ) : ℕ := ePhoff elf + 56 * i

def pType (elf : ℕ → UInt8) (i : ℕ) : ℕ := field elf (phdr elf i) 4

def pFlags (elf : ℕ → UInt8) (i : ℕ) : ℕ := field elf (phdr elf i + 4) 4

def pOffset (elf : ℕ → UInt8) (i : ℕ) : ℕ := field elf (phdr elf i + 8) 8

def pVaddr (elf : ℕ → UInt8) (i : ℕ) : ℕ := field elf (phdr elf i + 16) 8

def pFilesz (elf : ℕ → UInt8) (i : ℕ) : ℕ := field elf (phdr elf i + 32) 8

def pMemsz (elf : ℕ → UInt8) (i : ℕ) : ℕ := field elf (phdr elf i + 40) 8

/-- The flags `load_elf` maps a segment with: always writable, for `memcpy`. -/
def vmFlags (elf : ℕ → UInt8) (i : ℕ) : BitVec 64 :=
  if pFlags elf i &&& pfX ≠ 0 then vmRead ||| vmWrite ||| vmExec else vmRead ||| vmWrite

end Elf

/-- `USER_STACK_TOP`. -/
def userStackTop : ℕ := 0x80000000

/-- `USER_STACK_SIZE`. -/
def userStackSize : ℕ := 4 * pageSize

namespace Kernel

/-! ## Loading -/

/-- A round of the loop of `load_elf`: false when the segment cannot be mapped. -/
def loadSegment (k : Kernel) (mm : ℕ) (elf : ℕ → UInt8) (i : ℕ) : Option (Bool × Kernel) :=
  if Elf.pType elf i = Elf.ptLoad then
    match k.mmMapRange mm (Elf.pVaddr elf i) (Elf.pMemsz elf i) (Elf.vmFlags elf i) with
    | none => none
    | some (false, k) => some (false, k)
    | some (true, k) =>
      let pml4 := (k.mms mm).pml4Pa
      (k.toMachine.store pml4 (Elf.pVaddr elf i) (Elf.pMemsz elf i) fun _ => 0).bind fun m =>
        (m.store pml4 (Elf.pVaddr elf i) (Elf.pFilesz elf i) fun j =>
          elf (u64 (Elf.pOffset elf i + j))).map fun m => (true, { k with toMachine := m })
  else some (true, k)

/-- The loop, with `n` rounds to go and header `i` next. -/
def loadSegments (mm : ℕ) (elf : ℕ → UInt8) : ℕ → ℕ → Kernel → Option (Bool × Kernel)
  | 0, _, k => some (true, k)
  | n + 1, i, k =>
    match k.loadSegment mm elf i with
    | none => none
    | some (false, k) => some (false, k)
    | some (true, k) => loadSegments mm elf n (i + 1) k

/-- The entry point, zero on failure. The page table to switch to is read through `proc->mm`, which
faults for a process without one. -/
def loadElf (k : Kernel) (mm : ℕ) (elf : ℕ → UInt8) : Option (ℕ × Kernel) :=
  if Elf.magic elf then
    if mm = 0 then none
    else (loadSegments mm elf (Elf.ePhnum elf) 0 k).map fun r =>
      (if r.1 then Elf.eEntry elf else 0, r.2)
  else some (0, k)

/-- The user stack that `create_user_process` maps: false when it cannot. -/
def mapUserStack (k : Kernel) (mm : ℕ) : Option (Bool × Kernel) :=
  let base := userStackTop - userStackSize
  match k.mmMapRange mm base userStackSize (vmRead ||| vmWrite ||| vmStack) with
  | none => none
  | some (false, k) => some (false, k)
  | some (true, k) =>
    (k.toMachine.store (k.mms mm).pml4Pa base userStackSize fun _ => 0).map fun m =>
      (true, { k with toMachine := m })

/-! ## The break -/

/-- `SYS_BRK` of a process with the given `mm`: what it returns and what it leaves. -/
def sysBrk (k : Kernel) (mm newBrk : ℕ) : Option (ℕ × Kernel) :=
  let curBrk := (k.mms mm).heap
  if newBrk = 0 then some (curBrk, k)
  else if newBrk > curBrk then
    match k.mmMapRange mm curBrk (newBrk - curBrk) (vmRead ||| vmWrite ||| vmHeap) with
    | none => none
    | some (false, k) => some (curBrk, k)
    | some (true, k) => some (newBrk, k.setMm mm { k.mms mm with heap := newBrk })
  else some (curBrk, k)

end Kernel

end SudoOS
