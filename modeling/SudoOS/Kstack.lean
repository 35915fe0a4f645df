import SudoOS.Proc
import SudoOS.Vmm

/-!
# Kernel stacks

`kstack_init` and `kstack_free` of `mm/pmm.c`, and `mm_init` of `main.c`. Stacks lie one after the
other from `KERNEL_STACK_BASE` on, each above a page that stays unmapped.
-/

namespace SudoOS

/-- `KERNEL_STACK_BASE`. -/
def kernelStackBase : ℕ := 0xFFFFB00000000000

/-- The loop of `kstack_init`, at `v`: false when no page is left. Where `v` wraps around below
`top` it goes on until then. Every round takes a page, so more than the free ones are enough for
`fuel`. -/
def Machine.kstackMap (pml4 top : ℕ) : ℕ → ℕ → Machine → Bool × Machine
  | 0, _, m => (false, m)
  | fuel + 1, v, m =>
    if v < top then
      let r := m.pmm.pmmAllocPage
      let m : Machine := { m with pmm := r.2 }
      if r.1 = 0 then (false, m)
      else kstackMap pml4 top fuel (u64 (v + pageSize)) (m.vmmMapPage pml4 v r.1 kernelFlags)
    else (true, m)

/-- The kernel's memory with the global `kstack_ptr`. -/
structure MmState extends Kernel where
  kstackPtr : ℕ

namespace MmState

/-- The top of a new stack, zero on failure. -/
def kstackInit (s : MmState) (size : ℕ) : ℕ × MmState :=
  let bottom := u64 (s.kstackPtr + pageSize)
  let top := u64 (bottom + size)
  match Machine.kstackMap s.kernelPml4 top (s.pmm.freePages + 1) bottom s.toMachine with
  | (false, m) => (0, { s with toMachine := m, kstackPtr := top })
  | (true, m) => (top, { s with toMachine := m, kstackPtr := top })

/-- Each page of the stack is given back as in the rollback of `mm_map_range`. -/
def kstackFree (s : MmState) (base : ℕ) : MmState :=
  let top := u64 (base + kstackSize)
  -- `KSTACK_SIZE` is a number of pages: `vaddr` comes to `top` itself, without wrapping around.
  let pages := if base < top then kstackSize / pageSize else 0
  { s with toMachine := s.toMachine.rollback s.kernelPml4 base pages }

end MmState

/-- `mm_init`; `none` is its halt, or that of a function it calls. -/
def mmInit (hhdm : ℕ) (img : KernelImage) (mmap : List MemmapEntry) (phys : PhysMem) :
    Option MmState :=
  (bootMemory hhdm img mmap 4 phys).bind fun k =>
    let r := MmState.kstackInit { k with kstackPtr := kernelStackBase } (4 * pageSize)
    if r.1 = 0 then none else some r.2

end SudoOS
