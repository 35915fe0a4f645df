import SudoOS.Paging

/-!
# Access rights

What the processor's walk through the tables grants: writing and user access only where all four
entries allow it, execution unless one of them forbids it. The calls are those of `vmm_map_page` on
one PML4, with flags from `PTE_PRESENT`, `PTE_RW`, `PTE_USER` and `PTE_NX`.
-/

namespace SudoOS

def pteNx : BitVec 64 := 1#64 <<< 63

/-- The test `entry & bit`. -/
def hasBit (bit e : BitVec 64) : Bool := e &&& bit != 0#64

structure Rights where
  write : Bool
  user : Bool
  noExec : Bool
  deriving Repr, DecidableEq

namespace Rights

/-- The rights the flags of one entry ask for. -/
def ofFlags (flags : BitVec 64) : Rights :=
  ⟨hasBit pteRw flags, hasBit pteUser flags, hasBit pteNx flags⟩

/-- The rights that the entries of a walk grant together. -/
def granted (es : List (BitVec 64)) : Rights :=
  ⟨es.all (hasBit pteRw), es.all (hasBit pteUser), es.any (hasBit pteNx)⟩

end Rights

namespace Machine

/-- The entries that a walk along the indices meets, up to the first absent one. -/
def walk (m : Machine) : ℕ → List ℕ → List (BitVec 64)
  | _, [] => []
  | t, i :: is =>
    if isPresent (m.phys t i) then m.phys t i :: walk m (pteGetAddr (m.phys t i)) is else []

/-- The rights at an address, if it is mapped. -/
def effective (m : Machine) (pml4 va : ℕ) : Option Rights :=
  let es := m.walk pml4 [pml4Idx va, pdptIdx va, pdIdx va, ptIdx va]
  if es.length = 4 then some (Rights.granted es) else none

end Machine

/-- The flags a caller may combine. -/
def callerFlags : BitVec 64 := ptePresent ||| pteRw ||| pteUser ||| pteNx

/-- The arguments of `vmm_map_page`, less the table. -/
structure PageCall where
  va : ℕ
  pa : ℕ
  flags : BitVec 64
  aligned : 4096 ∣ pa
  lt : pa < 2 ^ 52
  known : flags &&& callerFlags = flags

/-- The machine with the flags of the latest call for each page, a page being known by its four
indices. -/
structure RightsRun where
  machine : Machine
  latest : List ℕ → Option (BitVec 64)

def mapStep (pml4 : ℕ) (s : RightsRun) (c : PageCall) : Option RightsRun :=
  some
    { machine := s.machine.vmmMapPage pml4 c.va c.pa c.flags
      latest := Function.update s.latest [pml4Idx c.va, pdptIdx c.va, pdIdx c.va, ptIdx c.va]
        (some c.flags) }

end SudoOS
