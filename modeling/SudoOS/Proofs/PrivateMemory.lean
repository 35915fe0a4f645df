import SudoOS.Proofs.Image

/-!
# Private memories

All address spaces share the machine's frames, and their tables lie in frames as well. Still every
process sees a memory of its own: a byte is what the last store to it has put there, whatever is
stored through other page tables and whatever address spaces are made, grown, copied and released in
between (`memory_private`). Only an operation that reaches the byte (`MemOp.Reaches`) can change it,
and it does so to no other address space (`memStep_byte`).
-/

namespace SudoOS

/-- The byte at an address of an address space. -/
def MmRun.byte (s : MmRun) (mm x : ℕ) : Option UInt8 := s.k.byteAt (s.k.mms mm).pml4Pa x

/-- The operation stores the byte, maps or copies its page anew, or releases the address space. -/
def MemOp.Reaches (mm x : ℕ) : MemOp → Prop
  | .call .mmAlloc => False
  | .call (.mmMapRange a va size _) =>
    a = mm ∧ va / pageSize ≤ x / pageSize ∧ x / pageSize * pageSize < va + size
  | .call (.mmCopy dst _) => dst = mm
  | .call (.mmFree a) => a = mm
  | .store a va n _ => a = mm ∧ va ≤ x ∧ x < va + n

instance (mm x : ℕ) : (op : MemOp) → Decidable (op.Reaches mm x)
  | .call .mmAlloc => isFalse id
  | .call (.mmMapRange _ _ _ _) => inferInstanceAs (Decidable (_ ∧ _ ∧ _))
  | .call (.mmCopy dst _) => inferInstanceAs (Decidable (dst = mm))
  | .call (.mmFree a) => inferInstanceAs (Decidable (a = mm))
  | .store _ _ _ _ => inferInstanceAs (Decidable (_ ∧ _ ∧ _))

/-! ## Steps -/

section Steps

variable {live : List ℕ} {T : Tree → List ℕ → Prop} {k k' : Kernel} {mm x : ℕ} {s s' : MmRun}

/-- A step that touches no page of `x` leaves the byte alone. -/
theorem SpacesKept.byteAt_eq {own : ℕ → Prop} (h : SpacesKept own live T k k') (hmm : mm ∈ live)
    (hx : x < 2 ^ 47)
    (hT : ∀ q, T (.mm mm) q → ∃ w, q = leafPath w ∧ leafPath w ≠ leafPath x) :
    k'.byteAt (k'.mms mm).pml4Pa x = k.byteAt (k.mms mm).pml4Pa x := by
  have hroot : k.spaces live mm = some (k.mms mm).pml4Pa := if_pos hmm
  have hpath : UserPath (leafPath x) := leafPath_userPath (pml4Idx_user hx)
  rw [h.pml4Pa hmm]
  exact (h.kept.user mm _ hroot).byteAt_eq (UserPath.of_append hpath) hpath hT

theorem storePage_mapped {m m' : Machine} {pml4 page : ℕ} {bytes : ℕ → Option UInt8}
    (h : m.storePage pml4 page bytes = some m') (hx : x / 4096 = page / 4096) :
    m.byteAt pml4 x ≠ none := by
  unfold Machine.storePage at h
  split_ifs at h
  obtain ⟨e, he, -⟩ := Option.map_eq_some_iff.mp h
  have hsame : m.leafEntry pml4 x = some e :=
    (leafEntry_congr (leafPath_eq_iff.mpr (by rw [hx]))).trans he
  simp [Machine.byteAt, hsame]

/-- A store that succeeds has found every page mapped. -/
theorem storePages_mapped {K : Type*} {root : K → Option ℕ} {adm : K → List ℕ → Prop} {k₀ : K}
    {pml4 va n : ℕ} {byte : ℕ → UInt8} (hadm : Radix.Closed adm) (hroot : root k₀ = some pml4)
    (hleaf : ∀ x < 2 ^ 47, IsLeaf adm k₀ (leafPath x)) :
    ∀ (r page : ℕ) {m m' : Machine}, 4096 ∣ page → page ≤ 2 ^ 47 → TablesOk root adm m →
      Machine.storePages pml4 va n byte r page m = some m' →
      page + r * 4096 ≤ 2 ^ 47
        ∧ ∀ x, page ≤ x → x < page + r * 4096 → m.byteAt pml4 x ≠ none
  | 0, page, m, m', _, hle, _, _ => ⟨by omega, fun x h1 h2 => by omega⟩
  | r + 1, page, m, m', hal, hle, h, hs => by
    obtain ⟨m₁, h₁, hs⟩ := Option.bind_eq_some_iff.mp hs
    have hpage : page < 2 ^ 47 := by
      have hc := storePage_canonical h₁
      unfold Canonical at hc
      rw [u64_of_lt (by omega)] at hc
      omega
    rw [u64_of_lt (by omega)] at h₁
    have hfirst : m.byteAt pml4 page ≠ none := storePage_mapped h₁ rfl
    obtain ⟨m₂, h₂, -, -, hbytes⟩ := storePage_bytes hadm h hroot hleaf hpage
      (fun o => if va ≤ page + o ∧ page + o < va + n then some (byte (page + o - va)) else none)
      hfirst
    obtain rfl := Option.some.inj (h₁.symm.trans h₂)
    have hk := (storePage_kept hadm h hroot (hleaf page hpage) h₁).1
    unfold pageSize at hs
    obtain ⟨hend, hrest⟩ := storePages_mapped hadm hroot hleaf r (page + 4096) (by omega) (by omega)
      hk.tables hs
    refine ⟨by omega, fun x h1 h2 => ?_⟩
    by_cases hsame : x / 4096 = page / 4096
    · exact storePage_mapped h₁ hsame
    · have := hrest x (by omega) (by omega)
      rwa [hbytes x (by omega), if_neg hsame] at this

/-- What a store does to the address space it goes to. -/
theorem store_byte {va n : ℕ} {byte : ℕ → UInt8} (hI : s.Sound)
    (h : memStep s (.store mm va n byte) = some s') (hx : x < 2 ^ 47) :
    s'.byte mm x = if va ≤ x ∧ x < va + n then some (byte (x - va)) else s.byte mm x := by
  unfold memStep at h
  dsimp only at h
  split_ifs at h with hc
  obtain ⟨m, hm, rfl⟩ := Option.map_eq_some_iff.mp h
  rcases Nat.eq_zero_or_pos n with rfl | hn
  · obtain rfl : s.k.toMachine = m := by simpa [Machine.store, Machine.storePages] using hm
    rw [if_neg (by omega)]
  obtain ⟨frames, hmem⟩ := hI.spaces.mem
  have hroot : treeRoot s.k.kernelPml4 frames (s.k.spaces s.live) (.mm mm)
      = some (s.k.mms mm).pml4Pa := if_pos hc.1
  have hleaf : ∀ x < 2 ^ 47, IsLeaf (treePath fun _ => False) (Tree.mm mm) (leafPath x) :=
    fun x hx => isLeaf_leafPath mm (pml4Idx_user hx)
  have hpages : Machine.storePages (s.k.mms mm).pml4Pa va n byte
      ((va - va / 4096 * 4096 + n + 4095) / 4096) (va / 4096 * 4096) s.k.toMachine = some m := by
    unfold Machine.store at hm
    dsimp only at hm
    rwa [if_neg hn.ne'] at hm
  obtain ⟨hend, hmapped⟩ := storePages_mapped closed_treePath hroot hleaf _ (va / 4096 * 4096)
    ⟨va / 4096, Nat.mul_comm _ _⟩ (by omega) hmem.tables hpages
  have huser : va + n ≤ 2 ^ 47 := by omega
  clear hend
  obtain ⟨m', hm', -, -, hbytes⟩ := store_bytes va n byte closed_treePath hmem.tables hroot hleaf
    huser fun x h1 h2 => hmapped x (by omega) (by omega)
  obtain rfl := Option.some.inj (hm.symm.trans hm')
  exact hbytes x hx

/-- A byte that the operation does not reach stays, in an address space that stays. -/
theorem memStep_byte {op : MemOp} (hI : s.Sound) (hok : MemOk s op) (h : memStep s op = some s')
    (hmm : mm ∈ s.live) (hx : x < 2 ^ 47) (hop : ¬ op.Reaches mm x) :
    mm ∈ s'.live ∧ s'.byte mm x = s.byte mm x := by
  match op with
  | .call .mmAlloc =>
    obtain ⟨⟨a, k'⟩, hr, rfl⟩ := Option.map_eq_some_iff.mp h
    have hheld : ∀ a ∈ s.live, Holds s.k.heap.kheapList (a, mmStructSize) := fun a ha =>
      hok _ (List.mem_flatMap.mpr ⟨a, ha, List.mem_cons_self⟩)
    obtain ⟨hkept, -⟩ := mmAlloc_kept (T := fun _ _ => False) hI.spaces hheld (heapClear_false _) hr
    refine ⟨?_, hkept.byteAt_eq hmm hx fun q hq => hq.elim⟩
    dsimp only
    split_ifs
    · exact hmm
    · exact List.mem_cons_of_mem _ hmm
  | .call (.mmMapRange a va size vmFlags) =>
    have h : mmStep s (.mmMapRange a va size vmFlags) = some s' := h
    unfold mmStep at h
    dsimp only at h
    split_ifs at h with hc
    obtain ⟨⟨ok, k'⟩, hr, rfl⟩ := Option.map_eq_some_iff.mp h
    have hkept := mmMapRange_kept hI.spaces hc.1 hc.2 (heapClear_false _) hr
    refine ⟨hmm, hkept.byteAt_eq hmm hx ?_⟩
    rintro q ⟨ha, w, hw1, hw2, rfl⟩
    refine ⟨w, rfl, fun hsame => hop ⟨(Tree.mm.inj ha).symm, ?_⟩⟩
    rcases Nat.eq_zero_or_pos size with rfl | hs
    · simp only [requestArea, Nat.add_zero] at hw1 hw2
      rw [alignDown_eq (by have := hc.2; omega)] at hw1
      rw [u64_of_lt (by have := hc.2; omega), alignUp_eq,
        u64_of_lt (by have := hc.2; omega)] at hw2
      rw [leafPath_eq_iff] at hsame
      unfold pageSize
      have := hc.2
      omega
    · obtain ⟨h1, h2, -, -⟩ := rangeArea hc.2 hs
      simp only [requestArea] at hw1 hw2
      rw [h1] at hw1
      rw [h2] at hw2
      rw [leafPath_eq_iff] at hsame
      unfold pageSize
      have := hc.2
      omega
  | .call (.mmCopy dst src) =>
    have h : mmStep s (.mmCopy dst src) = some s' := h
    unfold mmStep at h
    dsimp only at h
    split_ifs at h with hc
    obtain ⟨⟨ok, k'⟩, hr, rfl⟩ := Option.map_eq_some_iff.mp h
    have hne : mm ≠ dst := fun hd => hop hd.symm
    have hkept := mmCopy_kept hI.spaces hc.1 hc.2.1 (heapClear_false _) hr
    have hin : mm ∈ if ok then s.live else s.live.erase dst := by
      split_ifs
      · exact hmm
      · exact (List.mem_erase_of_ne hne).mpr hmm
    exact ⟨hin, hkept.byteAt_eq hin hx fun q hq => absurd (Tree.mm.inj hq.1) hne⟩
  | .call (.mmFree a) =>
    have h : mmStep s (.mmFree a) = some s' := h
    unfold mmStep at h
    dsimp only at h
    split_ifs at h with hc
    obtain rfl := Option.some.inj h
    have hne : mm ≠ a := fun ha => hop ha.symm
    have hin : mm ∈ s.live.erase a := (List.mem_erase_of_ne hne).mpr hmm
    have hkept := mmFree_kept (T := fun _ _ => False) hI.spaces hc
    exact ⟨hin, hkept.byteAt_eq hin hx fun q hq => hq.elim⟩
  | .store a va n byte =>
    have hstep := h
    unfold memStep at h
    dsimp only at h
    split_ifs at h with hc
    obtain ⟨m, hm, rfl⟩ := Option.map_eq_some_iff.mp h
    refine ⟨hmm, ?_⟩
    by_cases ha : a = mm
    · subst ha
      rw [store_byte hI hstep hx, if_neg fun hin => hop ⟨rfl, hin⟩]
    · exact (hI.spaces.store hc.1 hc.2 hm).1.byteAt_eq hmm hx fun q hq =>
        absurd (Tree.mm.inj hq.1).symm ha

end Steps

/-! ## Runs -/

/-- The run lemma: nothing on the way reaches the byte. -/
theorem memRun_byte {mm x : ℕ} (hx : x < 2 ^ 47) : ∀ {ops : List MemOp} {s s' : MmRun}, s.Sound →
    Run.Meets memStep MemOk s ops → Run.run memStep s ops = some s' → mm ∈ s.live →
      (∀ op ∈ ops, ¬ op.Reaches mm x) → mm ∈ s'.live ∧ s'.byte mm x = s.byte mm x
  | [], s, s', _, _, h, hmm, _ => by
    obtain rfl := Option.some.inj h
    exact ⟨hmm, rfl⟩
  | op :: ops, s, s', hI, hok, h, hmm, hops => by
    obtain ⟨t, ht, h⟩ := Run.run_cons h
    obtain ⟨hmm', hbyte⟩ := memStep_byte hI hok.1 ht hmm hx (hops op List.mem_cons_self)
    obtain ⟨hin, hrest⟩ := memRun_byte hx (memStep_sound s op t hI hok.1 ht) (hok.2 t ht) h hmm'
      fun op' hop' => hops op' (List.mem_cons_of_mem _ hop')
    exact ⟨hin, hrest.trans hbyte⟩

/-- What a process stores is what it finds there again, in every run that calls `kmalloc` only while
every live structure is in a block in use: stores through other page tables, new address spaces,
ranges mapped elsewhere, forks and releases of others leave it alone. -/
theorem memory_private (hhdm : ℕ) (img : KernelImage) (mmap : List MemmapEntry) (pgnum : ℕ)
    (phys : PhysMem) (before after : List MemOp) {k : Kernel} {s t u : MmRun} {mm va n x : ℕ}
    {byte : ℕ → UInt8} (hfit : MemoryFits mmap)
    (hboot : bootMemory hhdm img mmap pgnum phys = some k)
    (hok : Run.Meets memStep MemOk ⟨k, []⟩ before) (h : Run.run memStep ⟨k, []⟩ before = some s)
    (hstore : memStep s (.store mm va n byte) = some t)
    (hok' : Run.Meets memStep MemOk t after) (h' : Run.run memStep t after = some u)
    (hx : x < 2 ^ 47) (hva : va ≤ x) (hn : x < va + n)
    (hafter : ∀ op ∈ after, ¬ op.Reaches mm x) :
    mm ∈ u.live ∧ u.byte mm x = some (byte (x - va)) := by
  have h₀ : MmRun.Sound ⟨k, []⟩ :=
    ⟨bootMemory_inv hfit (bootClear_false _ _ _) (heapClear_false _) hboot,
      fun a ha => absurd ha List.not_mem_nil⟩
  have hI := Run.run_invariant_of_meets memStep_sound h₀ hok h
  have hmm : mm ∈ t.live := by
    unfold memStep at hstore
    dsimp only at hstore
    split_ifs at hstore with hc
    obtain ⟨m, -, rfl⟩ := Option.map_eq_some_iff.mp hstore
    exact hc.1
  have hbyte : t.byte mm x = some (byte (x - va)) := by
    rw [store_byte hI hstore hx, if_pos ⟨hva, hn⟩]
  have hI' := memStep_sound s (.store mm va n byte) t hI trivial hstore
  obtain ⟨hin, hsame⟩ := memRun_byte hx hI' hok' h' hmm hafter
  exact ⟨hin, hsame.trans hbyte⟩

/-- Two address spaces with a page at the same address. -/
def twoSpaces : List MemOp :=
  [.call .mmAlloc, .call .mmAlloc, .call (.mmMapRange firstMm 0x400000 0x1000 vmWrite),
    .call (.mmMapRange secondMm 0x400000 0x1000 vmWrite)]

def firstStore : MemOp := .store firstMm 0x400010 4 fun i => i.toUInt8

/-- The second one stores to the same address, the first one grows, and the second one is gone. -/
def laterOps : List MemOp :=
  [.store secondMm 0x400010 4 fun _ => 9, .call (.mmMapRange firstMm 0x500000 0x1000 vmWrite),
    .call (.mmFree secondMm)]

theorem memory_private_twoSpaces :
    ∃ k s t u, bootKernel = some k ∧ Run.run memStep ⟨k, []⟩ twoSpaces = some s
      ∧ memStep s firstStore = some t ∧ Run.run memStep t laterOps = some u
      ∧ firstMm ∈ u.live ∧ u.byte firstMm 0x400012 = some 2 := by
  have hrun : (bootKernel.bind fun k => (Run.run memStep ⟨k, []⟩ twoSpaces).bind fun s =>
      (memStep s firstStore).bind fun t => (Run.run memStep t laterOps).map fun _ =>
        (decide (Run.Meets memStep MemOk ⟨k, []⟩ twoSpaces),
          decide (Run.Meets memStep MemOk t laterOps))) = some (true, true) := by
    decide +kernel
  obtain ⟨k, hk, hrun⟩ := Option.bind_eq_some_iff.mp hrun
  obtain ⟨s, hs, hrun⟩ := Option.bind_eq_some_iff.mp hrun
  obtain ⟨t, ht, hrun⟩ := Option.bind_eq_some_iff.mp hrun
  obtain ⟨u, hu, hrun⟩ := Option.map_eq_some_iff.mp hrun
  obtain ⟨hok, hok'⟩ := Prod.mk.inj hrun
  refine ⟨k, s, t, u, hk, hs, ht, hu, ?_⟩
  exact memory_private 0xFFFF800000000000 ⟨0xFFFFFFFF80000000, 0, 0⟩ bootMmap 1 (fun _ _ => 0#64)
    twoSpaces laterOps (by unfold MemoryFits; decide) hk (of_decide_eq_true hok) hs ht
    (of_decide_eq_true hok') hu (by decide) (by decide) (by decide) (by decide)

end SudoOS
