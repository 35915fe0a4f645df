import SudoOS.Elf

/-!
# The accesses of `load_elf`

What `load_elf` reads of the file and writes to memory, in its order: the identification, the
program headers as far as the loop comes, and for each segment that is mapped `memset` and `memcpy`.
-/

namespace SudoOS

/-- A read of `n` bytes, `off` bytes after `elf_data`, or a write of `n` bytes to `va` where
`mm_map_range` has been asked for `memsz` bytes. -/
inductive ElfAccess
  | read (off n : ℕ)
  | write (va n memsz : ℕ)
  deriving Repr, DecidableEq

namespace Kernel

/-- A round of the loop. -/
def segmentAccesses (k : Kernel) (mm : ℕ) (elf : ℕ → UInt8) (i : ℕ) : List ElfAccess :=
  .read (Elf.phdr elf i) 4 ::
    if Elf.pType elf i = Elf.ptLoad then
      [.read (Elf.phdr elf i + 4) 4, .read (Elf.phdr elf i + 16) 8,
        .read (Elf.phdr elf i + 40) 8] ++
      match k.mmMapRange mm (Elf.pVaddr elf i) (Elf.pMemsz elf i) (Elf.vmFlags elf i) with
      | some (true, k) =>
        .write (Elf.pVaddr elf i) (Elf.pMemsz elf i) (Elf.pMemsz elf i) ::
          match k.toMachine.store (k.mms mm).pml4Pa (Elf.pVaddr elf i) (Elf.pMemsz elf i)
              fun _ => 0 with
          | none => []
          | some _ =>
            [.read (Elf.phdr elf i + 8) 8, .read (Elf.phdr elf i + 32) 8,
              .read (Elf.pOffset elf i) (Elf.pFilesz elf i),
              .write (Elf.pVaddr elf i) (Elf.pFilesz elf i) (Elf.pMemsz elf i)]
      | _ => []
    else []

/-- The loop, with `n` rounds to go and header `i` next; `e_phnum` is read before each round. -/
def segmentsAccesses (mm : ℕ) (elf : ℕ → UInt8) : ℕ → ℕ → Kernel → List ElfAccess
  | 0, _, _ => [.read 56 2]
  | n + 1, i, k =>
    .read 56 2 :: (k.segmentAccesses mm elf i ++
      match k.loadSegment mm elf i with
      | some (true, k) => segmentsAccesses mm elf n (i + 1) k
      | _ => [])

/-- The four bytes of the magic number are read to compare them or to print them; without an
`mm_struct` nothing more is. -/
def loadElfAccesses (k : Kernel) (mm : ℕ) (elf : ℕ → UInt8) : List ElfAccess :=
  .read 0 4 ::
    if Elf.magic elf ∧ mm ≠ 0 then
      .read 32 8 :: (segmentsAccesses mm elf (Elf.ePhnum elf) 0 k ++
        match loadSegments mm elf (Elf.ePhnum elf) 0 k with
        | some (true, _) => [.read 24 8]
        | _ => [])
    else []

end Kernel

end SudoOS
