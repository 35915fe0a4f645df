import SudoOS.Elf

/-!
# The page table in use

`load_elf` of `proc/proc.c` with CR3, which it sets to the page table of the new process for its
stores and sets back at the end.
-/

namespace SudoOS

/-- Byte `i` of a word. -/
def byteOf (w : BitVec 64) (i : ℕ) : UInt8 := UInt8.ofNat (w >>> (8 * i)).toNat

/-- The byte at an address, if it is mapped. -/
def Machine.byteAt (m : Machine) (pml4 va : ℕ) : Option UInt8 :=
  (m.leafEntry pml4 va).map fun e =>
    byteOf (m.phys (pteGetAddr e) (va % pageSize / 8)) (va % pageSize % 8)

/-- Memory, and the page table that addresses are translated by. -/
structure Cpu extends Kernel where
  cr3 : ℕ

namespace Cpu

def lcr3 (c : Cpu) (pml4Pa : ℕ) : Cpu := { c with cr3 := pml4Pa }

/-- A round of the loop of `load_elf`: false when the segment cannot be mapped. -/
def loadSegment (c : Cpu) (mm : ℕ) (elf : ℕ → UInt8) (i : ℕ) : Option (Bool × Cpu) :=
  if Elf.pType elf i = Elf.ptLoad then
    match c.mmMapRange mm (Elf.pVaddr elf i) (Elf.pMemsz elf i) (Elf.vmFlags elf i) with
    | none => none
    | some (false, k) => some (false, { c with toKernel := k })
    | some (true, k) =>
      (k.toMachine.store c.cr3 (Elf.pVaddr elf i) (Elf.pMemsz elf i) fun _ => 0).bind fun m =>
        (m.store c.cr3 (Elf.pVaddr elf i) (Elf.pFilesz elf i) fun j =>
          elf (u64 (Elf.pOffset elf i + j))).map fun m =>
            (true, { c with toKernel := { k with toMachine := m } })
  else some (true, c)

/-- The loop, with `n` rounds to go and header `i` next. -/
def loadSegments (mm : ℕ) (elf : ℕ → UInt8) : ℕ → ℕ → Cpu → Option (Bool × Cpu)
  | 0, _, c => some (true, c)
  | n + 1, i, c =>
    match c.loadSegment mm elf i with
    | none => none
    | some (false, c) => some (false, c)
    | some (true, c) => loadSegments mm elf n (i + 1) c

/-- The entry point, zero on failure. -/
def loadElf (c : Cpu) (mm : ℕ) (elf : ℕ → UInt8) : Option (ℕ × Cpu) :=
  if Elf.magic elf then
    if mm = 0 then none
    else
      let oldCr3 := c.cr3
      let c := c.lcr3 (c.mms mm).pml4Pa
      match loadSegments mm elf (Elf.ePhnum elf) 0 c with
      | none => none
      | some (false, c) => some (0, c.lcr3 oldCr3)
      | some (true, c) => some (Elf.eEntry elf, c.lcr3 oldCr3)
  else some (0, c)

end Cpu

end SudoOS
