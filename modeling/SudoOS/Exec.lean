import SudoOS.Fork

/-!
# New programs

`create_user_process` of `proc/proc.c` on kernel memory and the process table together. Trap frame
and context, which lie on the new stack, are not modelled.
-/

namespace SudoOS

namespace ForkState

/-- From `kstack_init` on. -/
def createStack (s : ForkState) (proc : ℕ) : ℕ × ForkState :=
  let r := s.mem.kstackInit kstackSize
  let s := { s with mem := r.2 }
  if r.1 = 0 then (0, s.freeProc proc)
  else
    let s := s.modifyPcb proc fun p =>
      { p with kstackBase := r.1 - kstackSize, procState := .ready }
    let mm := (s.sched.pcbs proc).mm
    let pml4Pa := Function.update s.sched.pml4Pa mm (s.mem.mms mm).pml4Pa
    (proc, { s with sched := { s.sched with pml4Pa := pml4Pa }.enlist proc })

/-- From `load_elf` on. -/
def createImage (s : ForkState) (proc : ℕ) (elf : ℕ → UInt8) : Option (ℕ × ForkState) :=
  let mm := (s.sched.pcbs proc).mm
  match s.mem.loadElf mm elf with
  | none => none
  | some (entry, k) =>
    let s := s.setKernel k
    if entry = 0 then
      let s := (s.setKernel (s.mem.toKernel.mmFree mm)).modifyPcb proc fun p => { p with mm := 0 }
      some (0, s.freeProc proc)
    else
      match s.mem.mapUserStack mm with
      | none => none
      | some (false, k) => some (0, (s.setKernel k).freeProc proc)
      | some (true, k) => some ((s.setKernel k).createStack proc)

/-- The PCB, zero on failure. `none` is a page fault in the kernel, or the writes through the null
pointer when there is no memory for the PCB. -/
def createUserProcess (s : ForkState) (name : List UInt8) (elf : ℕ → UInt8) :
    Option (ℕ × ForkState) :=
  match s.mem.kmalloc pcbSize with
  | none => none
  | some (proc, km) =>
    if proc = 0 then none
    else
      let s := s.setKernel { s.mem.toKernel with toKMem := km }
      let s := { s with sched := s.sched.newPcb proc fun p => p.setProcName name }
      match s.mem.mmAlloc with
      | none => none
      | some (mm, k) =>
        let s := (s.setKernel k).modifyPcb proc fun p => { p with mm := mm }
        if mm = 0 then some (0, s.setKernel (s.mem.toKernel.kfree proc))
        else s.createImage proc elf

end ForkState

end SudoOS
