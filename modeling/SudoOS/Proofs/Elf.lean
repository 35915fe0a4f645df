import SudoOS.Elf
import SudoOS.Proofs.KernelHalf

/-!
# Loading a program

A program is loaded through its own page table, so what `load_elf`, the user stack and `SYS_BRK`
touch are pages of one address space, as long as the addresses they are given are in the user half.
The upper half of every page table then translates as before, except for the heap pages that the
kernel itself adds to make room for the new areas.
-/

namespace SudoOS

/-! ## Stores -/

section Stores

variable {K : Type*} {root : K → Option ℕ} {adm : K → List ℕ → Prop} {m m' : Machine} {k₀ : K}
  {pml4 : ℕ}

theorem storePage_canonical {va : ℕ} {bytes : ℕ → Option UInt8}
    (hs : m.storePage pml4 va bytes = some m') : Canonical va := by
  unfold Machine.storePage at hs
  by_contra hc
  rw [if_neg hc] at hs
  cases hs

theorem storePage_kept (hadm : Radix.Closed adm) (h : TablesOk root adm m)
    (hroot : root k₀ = some pml4) {va : ℕ} {bytes : ℕ → Option UInt8}
    (hleaf : IsLeaf adm k₀ (leafPath va)) (hs : m.storePage pml4 va bytes = some m') :
    Kept root adm (fun k p => k = k₀ ∧ p = leafPath va) m m'
      ∧ ∀ k p, adm k p → m'.node root k p = m.node root k p := by
  unfold Machine.storePage at hs
  split_ifs at hs
  obtain ⟨e, he, rfl⟩ := Option.map_eq_some_iff.mp hs
  refine h.setPage hadm hleaf (node_of_leafEntry hroot he) fun a j ha => ?_
  exact if_neg fun hc => ha hc.1

/-- A store that starts in the user half stays there: it would have to pass addresses that are not
canonical to leave it. It changes pages, and no table. -/
theorem storePages_kept (hadm : Radix.Closed adm) (hroot : root k₀ = some pml4)
    (hleaf : ∀ va < 2 ^ 47, IsLeaf adm k₀ (leafPath va)) {va n : ℕ} {byte : ℕ → UInt8} :
    ∀ (r page : ℕ) {m m' : Machine}, 4096 ∣ page → page ≤ 2 ^ 47 → TablesOk root adm m →
      Machine.storePages pml4 va n byte r page m = some m' →
      Kept root adm (fun k p => k = k₀ ∧ ∃ w < 2 ^ 47, p = leafPath w) m m'
        ∧ ∀ k p, adm k p → m'.node root k p = m.node root k p
  | 0, page, m, m', _, _, h, hs => by
    simp only [Machine.storePages, Option.some.injEq] at hs
    subst hs
    exact ⟨Kept.refl h, fun _ _ _ => rfl⟩
  | r + 1, page, m, m', hd, hle, h, hs => by
    obtain ⟨m₁, h₁, hs⟩ := Option.bind_eq_some_iff.mp hs
    have hpage : page < 2 ^ 47 := by
      have hc := storePage_canonical h₁
      unfold Canonical at hc
      rw [u64_of_lt (by omega)] at hc
      omega
    rw [u64_of_lt (by omega)] at h₁
    obtain ⟨hk, hnode⟩ := storePage_kept hadm h hroot (hleaf page hpage) h₁
    unfold pageSize at hs
    obtain ⟨hk', hnode'⟩ := storePages_kept hadm hroot hleaf r (page + 4096) (by omega) (by omega)
      hk.tables hs
    refine ⟨(hk.mono _ ?_).trans hk', fun k p hp => (hnode' k p hp).trans (hnode k p hp)⟩
    rintro k p ⟨rfl, rfl⟩
    exact ⟨rfl, page, hpage, rfl⟩

end Stores

section Loading

variable {own : ℕ → Prop} {live : List ℕ} {k k' : Kernel} {mm : ℕ} {elf : ℕ → UInt8} {ok : Bool}

theorem SpacesInv.store (hI : SpacesInv own live k) (hmm : mm ∈ live) {va n : ℕ}
    {byte : ℕ → UInt8} {m : Machine} (hva : va < 2 ^ 47)
    (h : k.toMachine.store (k.mms mm).pml4Pa va n byte = some m) :
    SpacesKept own live (SpacePaths mm) k { k with toMachine := m }
      ∧ ∀ p, UserPath p → m.table (k.mms mm).pml4Pa p = k.table (k.mms mm).pml4Pa p := by
  obtain ⟨frames, hmem⟩ := hI.mem
  have hroot : treeRoot k.kernelPml4 frames (k.spaces live) (.mm mm) = some (k.mms mm).pml4Pa :=
    if_pos hmm
  obtain ⟨hkept, hnode⟩ := storePages_kept closed_treePath hroot
    (fun w hw => isLeaf_leafPath mm (pml4Idx_user hw)) _ (va / pageSize * pageSize)
    ⟨va / pageSize, Nat.mul_comm _ _⟩ (by unfold pageSize; omega) hmem.tables h
  refine ⟨hI.setMem (hkept.memKept hmem fun _ _ hc => hc), fun p hp => ?_⟩
  have := hnode (.mm mm) p hp
  rwa [Machine.node_eq_table hroot, Machine.node_eq_table hroot] at this

/-- The break is not part of what an address space is held to. -/
theorem SpacesInv.setBrk {T : Tree → List ℕ → Prop} (hI : SpacesInv own live k) (mm newBrk : ℕ) :
    SpacesKept own live T k (k.setMm mm { k.mms mm with heap := newBrk }) := by
  have hlist : ∀ a, ((k.setMm mm { k.mms mm with heap := newBrk }).mms a).vmaList
      = (k.mms a).vmaList := by
    intro a
    by_cases ha : a = mm
    · rw [ha, Kernel.setMm_self]
    · rw [Kernel.setMm_of_ne k _ ha]
  have hroots := spaces_setMm live k (s := { k.mms mm with heap := newBrk }) fun _ => rfl
  obtain ⟨frames, hm⟩ := hI.mem
  refine ⟨⟨?_, hI.nodup, hI.nonzero, fun a ha v hv => ?_⟩, hroots, fun a _ => ?_, MemKept.refl hm⟩
  · rw [hroots]
    exact hI.mem
  · rw [hlist] at hv
    exact hI.areas a ha v hv
  · rw [hlist]

/-! ## Rounds -/

/-- `mm_map_range` in the user half, seen from the whole address space. -/
theorem mmMapRange_space (hI : SpacesInv own live k) {va size : ℕ} {vmFlags : BitVec 64}
    (hmm : mm ∈ live) (hva : va + size ≤ 2 ^ 47) (hclear : HeapClear own k'.heap.kheapTop)
    (h : k.mmMapRange mm va size vmFlags = some (ok, k')) :
    SpacesKept own live (SpacePaths mm) k k' :=
  (mmMapRange_kept hI hmm hva hclear h).mono (AreaPaths.space (requestArea_end hva))

theorem mmMapRange_pos {va size : ℕ} {vmFlags : BitVec 64}
    (h : k.mmMapRange mm va size vmFlags = some (true, k')) : 0 < size := by
  rcases mmMapRange_cases h with ⟨hc, -⟩ | ⟨-, hs, -⟩
  · cases hc
  · exact hs

/-- What a round of `load_elf` can do. -/
theorem loadSegment_cases {i : ℕ} (h : k.loadSegment mm elf i = some (ok, k')) :
    (Elf.pType elf i ≠ Elf.ptLoad ∧ ok = true ∧ k' = k)
      ∨ (Elf.pType elf i = Elf.ptLoad ∧ ∃ k₁, k.mmMapRange mm (Elf.pVaddr elf i) (Elf.pMemsz elf i)
          (Elf.vmFlags elf i) = some (ok, k₁)
        ∧ ((ok = false ∧ k' = k₁) ∨ (ok = true ∧ ∃ m₁ m₂ n byte byte',
          k₁.toMachine.store (k₁.mms mm).pml4Pa (Elf.pVaddr elf i) (Elf.pMemsz elf i) byte = some m₁
          ∧ m₁.store (k₁.mms mm).pml4Pa (Elf.pVaddr elf i) n byte' = some m₂
          ∧ k' = { k₁ with toMachine := m₂ }))) := by
  unfold Kernel.loadSegment at h
  split_ifs at h with hload
  · right
    refine ⟨hload, ?_⟩
    rcases hmap : k.mmMapRange mm (Elf.pVaddr elf i) (Elf.pMemsz elf i) (Elf.vmFlags elf i) with
      _ | ⟨_ | _, k₁⟩ <;> rw [hmap] at h
    · cases h
    · simp only [Option.some.injEq, Prod.mk.injEq] at h
      obtain ⟨rfl, rfl⟩ := h
      exact ⟨k₁, rfl, .inl ⟨rfl, rfl⟩⟩
    · obtain ⟨m₁, h₁, h⟩ := Option.bind_eq_some_iff.mp h
      obtain ⟨m₂, h₂, h⟩ := Option.map_eq_some_iff.mp h
      obtain ⟨rfl, rfl⟩ := Prod.mk.inj h
      exact ⟨k₁, rfl, .inr ⟨rfl, m₁, m₂, _, _, _, h₁, h₂, rfl⟩⟩
  · simp only [Option.some.injEq, Prod.mk.injEq] at h
    exact .inl ⟨hload, h.1.symm, h.2.symm⟩

/-- The segment is in the user half. -/
def Elf.InUserHalf (elf : ℕ → UInt8) (i : ℕ) : Prop :=
  Elf.pType elf i = Elf.ptLoad → Elf.pVaddr elf i + Elf.pMemsz elf i ≤ 2 ^ 47

instance (elf : ℕ → UInt8) (i : ℕ) : Decidable (Elf.InUserHalf elf i) :=
  inferInstanceAs (Decidable (_ → _))

theorem loadSegment_kept {i : ℕ} (hI : SpacesInv own live k) (hmm : mm ∈ live)
    (huser : Elf.InUserHalf elf i) (hclear : HeapClear own k'.heap.kheapTop)
    (h : k.loadSegment mm elf i = some (ok, k')) : SpacesKept own live (SpacePaths mm) k k' := by
  rcases loadSegment_cases h with ⟨-, -, rfl⟩ | ⟨hload, k₁, hmap, ⟨-, rfl⟩ |
    ⟨rfl, m₁, m₂, n, byte, byte', h₁, h₂, rfl⟩⟩
  · exact SpacesKept.refl hI
  · exact mmMapRange_space hI hmm (huser hload) hclear hmap
  · have hva : Elf.pVaddr elf i < 2 ^ 47 := by
      have := huser hload
      have := mmMapRange_pos hmap
      omega
    have hclear₁ : HeapClear own k₁.heap.kheapTop := hclear
    have hk₁ := mmMapRange_space hI hmm (huser hload) hclear₁ hmap
    have hk₂ := hk₁.trans (hk₁.inv.store hmm hva h₁).1
    exact hk₂.trans (hk₂.inv.store hmm hva h₂).1

theorem loadSegments_kept (hmm : mm ∈ live) : ∀ (n i : ℕ) {own : ℕ → Prop} {k k' : Kernel}
    {ok : Bool}, SpacesInv own live k → (∀ j, i ≤ j → j < i + n → Elf.InUserHalf elf j) →
      HeapClear own k'.heap.kheapTop → Kernel.loadSegments mm elf n i k = some (ok, k') →
      SpacesKept own live (SpacePaths mm) k k'
  | 0, i, own, k, k', ok, hI, _, _, h => by
    simp only [Kernel.loadSegments, Option.some.injEq, Prod.mk.injEq] at h
    exact h.2 ▸ SpacesKept.refl hI
  | n + 1, i, own, k, k', ok, hI, huser, hclear, h => by
    unfold Kernel.loadSegments at h
    have hi := huser i le_rfl (by omega)
    rcases hr : k.loadSegment mm elf i with _ | ⟨_ | _, k₁⟩ <;> rw [hr] at h
    · cases h
    · simp only [Option.some.injEq, Prod.mk.injEq] at h
      obtain ⟨-, rfl⟩ := h
      exact loadSegment_kept hI hmm hi hclear hr
    · have hrest : ∀ j, i + 1 ≤ j → j < i + 1 + n → Elf.InUserHalf elf j :=
        fun j h1 h2 => huser j (by omega) (by omega)
      have hk₀ := loadSegment_kept hI.clear hmm hi (heapClear_false _) hr
      have htop := (loadSegments_kept hmm n (i + 1) hk₀.inv hrest (heapClear_false _) h).kept.top
      have hk₁ := loadSegment_kept hI hmm hi (hclear.mono htop) hr
      exact hk₁.trans (loadSegments_kept hmm n (i + 1) hk₁.inv hrest hclear h)

theorem loadElf_kept {entry : ℕ} (hI : SpacesInv own live k) (hmm : mm ∈ live)
    (huser : ∀ i < Elf.ePhnum elf, Elf.InUserHalf elf i) (hclear : HeapClear own k'.heap.kheapTop)
    (h : k.loadElf mm elf = some (entry, k')) : SpacesKept own live (SpacePaths mm) k k' := by
  unfold Kernel.loadElf at h
  split_ifs at h
  · obtain ⟨⟨ok, k₁⟩, hr, h⟩ := Option.map_eq_some_iff.mp h
    obtain ⟨-, rfl⟩ := Prod.mk.inj h
    exact loadSegments_kept hmm _ 0 hI (fun j _ hj => huser j (by omega)) hclear hr
  · simp only [Option.some.injEq, Prod.mk.injEq] at h
    exact h.2 ▸ SpacesKept.refl hI

/-! ## Stack and break -/

/-- What the mapping of the user stack can do. -/
theorem mapUserStack_cases (h : k.mapUserStack mm = some (ok, k')) :
    ∃ k₁, k.mmMapRange mm (userStackTop - userStackSize) userStackSize
        (vmRead ||| vmWrite ||| vmStack) = some (ok, k₁)
      ∧ ((ok = false ∧ k' = k₁) ∨ (ok = true ∧ ∃ m,
        k₁.toMachine.store (k₁.mms mm).pml4Pa (userStackTop - userStackSize) userStackSize
          (fun _ => 0) = some m ∧ k' = { k₁ with toMachine := m })) := by
  unfold Kernel.mapUserStack at h
  dsimp only at h
  rcases hmap : k.mmMapRange mm (userStackTop - userStackSize) userStackSize
    (vmRead ||| vmWrite ||| vmStack) with _ | ⟨_ | _, k₁⟩ <;> rw [hmap] at h
  · cases h
  · simp only [Option.some.injEq, Prod.mk.injEq] at h
    obtain ⟨rfl, rfl⟩ := h
    exact ⟨k₁, rfl, .inl ⟨rfl, rfl⟩⟩
  · obtain ⟨m, hm, h⟩ := Option.map_eq_some_iff.mp h
    obtain ⟨rfl, rfl⟩ := Prod.mk.inj h
    exact ⟨k₁, rfl, .inr ⟨rfl, m, hm, rfl⟩⟩

theorem userStack_user : userStackTop - userStackSize + userStackSize ≤ 2 ^ 47 := by
  simp [userStackTop, userStackSize, pageSize]

theorem mapUserStack_kept (hI : SpacesInv own live k) (hmm : mm ∈ live)
    (hclear : HeapClear own k'.heap.kheapTop) (h : k.mapUserStack mm = some (ok, k')) :
    SpacesKept own live (SpacePaths mm) k k' := by
  obtain ⟨k₁, hmap, ⟨-, rfl⟩ | ⟨-, m, hm, rfl⟩⟩ := mapUserStack_cases h
  · exact mmMapRange_space hI hmm userStack_user hclear hmap
  · have hclear₁ : HeapClear own k₁.heap.kheapTop := hclear
    have hk₁ := mmMapRange_space hI hmm userStack_user hclear₁ hmap
    refine hk₁.trans (hk₁.inv.store hmm ?_ hm).1
    simp [userStackTop, userStackSize, pageSize]

/-- What `SYS_BRK` can do. -/
theorem sysBrk_cases {newBrk ret : ℕ} (h : k.sysBrk mm newBrk = some (ret, k')) :
    (ret = (k.mms mm).heap ∧ k' = k) ∨ ((k.mms mm).heap < newBrk ∧ ∃ ok k₁,
      k.mmMapRange mm (k.mms mm).heap (newBrk - (k.mms mm).heap) (vmRead ||| vmWrite ||| vmHeap)
        = some (ok, k₁)
      ∧ ((ok = false ∧ ret = (k.mms mm).heap ∧ k' = k₁) ∨ (ok = true ∧ ret = newBrk
        ∧ k' = k₁.setMm mm { k₁.mms mm with heap := newBrk }))) := by
  unfold Kernel.sysBrk at h
  dsimp only at h
  split_ifs at h with h0 hlt
  · simp only [Option.some.injEq, Prod.mk.injEq] at h
    exact .inl ⟨h.1.symm, h.2.symm⟩
  · right
    refine ⟨hlt, ?_⟩
    rcases hmap : k.mmMapRange mm (k.mms mm).heap (newBrk - (k.mms mm).heap)
      (vmRead ||| vmWrite ||| vmHeap) with _ | ⟨_ | _, k₁⟩ <;> rw [hmap] at h
    · cases h
    · simp only [Option.some.injEq, Prod.mk.injEq] at h
      exact ⟨false, k₁, rfl, .inl ⟨rfl, h.1.symm, h.2.symm⟩⟩
    · simp only [Option.some.injEq, Prod.mk.injEq] at h
      exact ⟨true, k₁, rfl, .inr ⟨rfl, h.1.symm, h.2.symm⟩⟩
  · simp only [Option.some.injEq, Prod.mk.injEq] at h
    exact .inl ⟨h.1.symm, h.2.symm⟩

theorem sysBrk_kept {newBrk ret : ℕ} (hI : SpacesInv own live k) (hmm : mm ∈ live)
    (huser : newBrk ≤ 2 ^ 47) (hclear : HeapClear own k'.heap.kheapTop)
    (h : k.sysBrk mm newBrk = some (ret, k')) : SpacesKept own live (SpacePaths mm) k k' := by
  rcases sysBrk_cases h with ⟨-, rfl⟩ | ⟨hlt, ok, k₁, hmap, ⟨-, -, rfl⟩ | ⟨-, -, rfl⟩⟩
  · exact SpacesKept.refl hI
  · exact mmMapRange_space hI hmm (by omega) hclear hmap
  · have hclear₁ : HeapClear own k₁.heap.kheapTop := hclear
    have hk₁ := mmMapRange_space hI hmm (by omega) hclear₁ hmap
    exact hk₁.trans (hk₁.inv.setBrk mm newBrk)

end Loading

/-! ## The kernel half -/

/-- The entries in the upper half of the address space's PML4 are entries of the kernel's. -/
def Kernel.BelowKernel (k : Kernel) (a : ℕ) : Prop :=
  ∀ j, 256 ≤ j → j < 512 → isPresent (k.phys (k.mms a).pml4Pa j) = true →
    k.phys (k.mms a).pml4Pa j = k.phys k.kernelPml4 j

/-- Addresses of the upper half translate as before through the kernel's PML4 and those of the
live address spaces, but for the pages at paths in `X`. -/
def KernelHalfKept (live : List ℕ) (X : List ℕ → Prop) (k k' : Kernel) : Prop :=
  ∀ root ∈ k.kernelPml4 :: live.map fun a => (k.mms a).pml4Pa, ∀ va, 256 ≤ pml4Idx va →
    ¬ X (leafPath va) → k'.leafEntry root va = k.leafEntry root va

section Half

variable {own : ℕ → Prop} {live : List ℕ} {k k' : Kernel} {mm : ℕ} {ok : Bool}

theorem leafEntry_of_absent {m : Machine} {pml4 va : ℕ}
    (h : isPresent (m.phys pml4 (pml4Idx va)) = false) : m.leafEntry pml4 va = none := by
  by_contra hc
  rw [table_singleton.mp (table_ne_none_of_leafEntry hc)] at h
  cases h

/-- What the kernel's PML4 has does not change. -/
theorem MemKept.kernel_present {spaces : ℕ → Option ℕ} {km km' : KMem}
    (h : MemKept own spaces MayTouch km km') {j : ℕ}
    (hj : isPresent (km.phys km.kernelPml4 j) = true) :
    km'.phys km.kernelPml4 j = km.phys km.kernelPml4 j := by
  by_contra hc
  obtain ⟨va, -, -, habs⟩ := h.kernel.root_word (.inl ⟨by simp, by simp⟩) kernel_pages hc
  rw [hj] at habs
  cases habs

theorem Kernel.BelowKernel.kept {a : ℕ} (hb : k.BelowKernel a) (ha : a ∈ live)
    (h : SpacesKept own live MayTouch k k') : k'.BelowKernel a := by
  intro j h1 h2 hj
  have hroot : k.spaces live a = some (k.mms a).pml4Pa := if_pos ha
  rw [h.pml4Pa ha, h.kept.user_entries hroot h1] at hj ⊢
  have hsame := hb j h1 h2 hj
  rw [show k'.kernelPml4 = k.kernelPml4 from h.kept.pml4, h.kept.kernel_present (hsame ▸ hj)]
  exact hsame

/-- A call that touches pages of user halves only: in the upper half nothing changes but for the
pages that the heap gains. -/
theorem MemKept.kernelHalfKept {T : Tree → List ℕ → Prop}
    (h : MemKept own (k.spaces live) T k.toKMem k'.toKMem)
    (hT : ∀ t p, T t p → ∃ a, t = .mm a ∧ MayTouch t p) (hb : ∀ a ∈ live, k.BelowKernel a) :
    KernelHalfKept live (HeapPath k.heap.kheapTop k'.heap.kheapTop) k k' := by
  have hmay : MemKept own (k.spaces live) MayTouch k.toKMem k'.toKMem :=
    h.mono fun t p hp => (hT t p hp).choose_spec.2
  have hkernel : ∀ va, ¬ HeapPath k.heap.kheapTop k'.heap.kheapTop (leafPath va) →
      k'.leafEntry k.kernelPml4 va = k.leafEntry k.kernelPml4 va := by
    intro va hva
    refine h.kernel.leafEntry_eq (.inl (tablePath_ok va)) fun q hq => ?_
    rcases hq with hq | ⟨w, h1, h2, rfl⟩
    · obtain ⟨a, ha, -⟩ := hT _ q hq
      cases ha
    · exact ⟨w, rfl, fun hc => hva ⟨w, h1, h2, hc.symm⟩⟩
  intro root hroot va hva hX
  rcases List.mem_cons.mp hroot with rfl | hroot
  · exact hkernel va hX
  obtain ⟨a, ha, rfl⟩ := List.mem_map.mp hroot
  have hspace : k.spaces live a = some (k.mms a).pml4Pa := if_pos ha
  have hsame := hmay.user_entries hspace hva
  rcases hpr : isPresent (k.phys (k.mms a).pml4Pa (pml4Idx va)) with _ | _
  · rw [leafEntry_of_absent hpr, leafEntry_of_absent (hsame ▸ hpr)]
  · have hlt : pml4Idx va < 512 := by
      rw [pml4Idx_eq]
      omega
    have heq := hb a ha _ hva hlt hpr
    have heq' : k'.phys (k.mms a).pml4Pa (pml4Idx va) = k'.phys k.kernelPml4 (pml4Idx va) := by
      rw [hsame, heq]
      exact (hmay.kernel_present (heq ▸ hpr)).symm
    rw [leafEntry_of_entry heq, leafEntry_of_entry heq', hkernel va hX]

/-- `mm_map_range` on pages of the user half. -/
theorem mmMapRange_kernelHalf (hI : SpacesInv own live k) (hb : ∀ a ∈ live, k.BelowKernel a)
    {va size : ℕ} {vmFlags : BitVec 64} (hmm : mm ∈ live)
    (hrange : RangeOk (requestArea mm va size vmFlags) k.pmm.freePages)
    (h : k.mmMapRange mm va size vmFlags = some (ok, k')) :
    KernelHalfKept live (HeapPath k.heap.kheapTop k'.heap.kheapTop) k k' := by
  refine (mmMapRange_mem hI.clear hmm hrange (heapClear_false _) h).kernelHalfKept ?_ hb
  rintro t p ⟨rfl, i, hi, rfl⟩
  exact ⟨mm, rfl, _, hrange i hi, rfl⟩

/-- The heap stays as it is when a free block holds the new area. -/
theorem mmMapRange_kheapTop {va size : ℕ} {vmFlags : BitVec 64}
    (hfit : k.heap.firstFit (alignUp vmaStructSize 8) ≠ none)
    (h : k.mmMapRange mm va size vmFlags = some (ok, k')) :
    k'.heap.kheapTop = k.heap.kheapTop := by
  rcases mmMapRange_cases h with ⟨-, -, rfl⟩ | ⟨-, -, vma, km, hkm, hcase⟩
  · rfl
  have htop : km.heap.kheapTop = k.heap.kheapTop := by
    obtain ⟨t, ht⟩ := Option.ne_none_iff_exists'.mp hfit
    unfold KMem.kmalloc KMem.kmallocLoop at hkm
    dsimp only at hkm
    rw [ht] at hkm
    simp only [Option.some.injEq, Prod.mk.injEq] at hkm
    rw [← hkm.2]
    rfl
  rcases hcase with ⟨-, -, rfl⟩ | ⟨-, hmap⟩
  · exact htop
  · have := mapArea_kheapTop { k with toKMem := km } mm vma (requestArea mm va size vmFlags)
    rw [hmap] at this
    exact this.trans htop

end Half

/-! ## Runs of processes -/

inductive UserOp
  | kernel (op : KernelOp)
  | loadElf (mm : ℕ) (elf : ℕ → UInt8)
  | mapUserStack (mm : ℕ)
  | sysBrk (mm newBrk : ℕ)

/-- A call of the kernel's or one that a process's program is loaded or grows by. -/
def KernelRun.userCall (s : KernelRun) : UserOp → Option KernelRun
  | .kernel op => s.call op
  | .loadElf mm elf =>
    if mm ∈ s.live then
      (s.mem.loadElf mm elf).map fun r => ⟨{ s.mem with toKernel := r.2 }, s.live⟩
    else none
  | .mapUserStack mm =>
    if mm ∈ s.live then
      (s.mem.mapUserStack mm).map fun r => ⟨{ s.mem with toKernel := r.2 }, s.live⟩
    else none
  | .sysBrk mm newBrk =>
    if mm ∈ s.live then
      (s.mem.sysBrk mm newBrk).map fun r => ⟨{ s.mem with toKernel := r.2 }, s.live⟩
    else none

def userStep (s : KernelRun) (op : UserOp) : Option KernelRun :=
  (s.userCall op).filter fun s' => InSlots s'.mem

/-- Every live structure is in a block in use. -/
def MmRun.Held (s : MmRun) : Prop := ∀ o ∈ s.objects, Holds s.k.heap.kheapList o

instance (s : MmRun) : Decidable s.Held := inferInstanceAs (Decidable (∀ o ∈ s.objects, _))

def KernelRun.Held (s : KernelRun) : Prop := s.toMmRun.Held

instance (s : KernelRun) : Decidable s.Held := inferInstanceAs (Decidable s.toMmRun.Held)

/-- Every live structure is in a block in use whenever `kmalloc` may be called, and programs ask for
memory in the user half. -/
def UserOk (s : KernelRun) : UserOp → Prop
  | .kernel op => KernelOk s op
  | .loadElf _ elf => s.Held ∧ ∀ i < Elf.ePhnum elf, Elf.InUserHalf elf i
  | .mapUserStack _ => s.Held
  | .sysBrk _ newBrk => s.Held ∧ newBrk ≤ 2 ^ 47

instance (s : KernelRun) : (op : UserOp) → Decidable (UserOk s op)
  | .kernel op => inferInstanceAs (Decidable (KernelOk s op))
  | .loadElf _ _ => inferInstanceAs (Decidable (_ ∧ _))
  | .mapUserStack _ => inferInstanceAs (Decidable s.Held)
  | .sysBrk _ _ => inferInstanceAs (Decidable (_ ∧ _))

theorem HalfInv.space {live : List ℕ} {k k' : Kernel} {mm : ℕ} (h : HalfInv live k)
    (hk : SpacesKept (· = stackSlot) live (SpacePaths mm) k k')
    (htop : k'.heap.kheapTop ≤ kernelHeapBase + 2 ^ 39) : HalfInv live k' :=
  h.step (fun _ ha => ha) (hk.mono SpacePaths.mayTouch) htop

theorem userStep_inv (s : KernelRun) (op : UserOp) (s' : KernelRun) (hI : s.Inv)
    (hok : UserOk s op) (h : userStep s op = some s') : s'.Inv := by
  obtain ⟨hcall, hslots⟩ := Option.filter_eq_some_iff.mp h
  have hslots : InSlots s'.mem := of_decide_eq_true hslots
  have hclear := heapClear_stackSlot hslots.1
  cases op with
  | kernel op => exact kernelStep_inv s op s' hI hok h
  | loadElf mm elf =>
    simp only [KernelRun.userCall] at hcall
    split_ifs at hcall with hmm
    obtain ⟨⟨entry, k'⟩, hr, rfl⟩ := Option.map_eq_some_iff.mp hcall
    exact ⟨hI.half.space (loadElf_kept hI.half.spaces hmm hok.2 hclear hr) hslots.1, hslots⟩
  | mapUserStack mm =>
    simp only [KernelRun.userCall] at hcall
    split_ifs at hcall with hmm
    obtain ⟨⟨ok, k'⟩, hr, rfl⟩ := Option.map_eq_some_iff.mp hcall
    exact ⟨hI.half.space (mapUserStack_kept hI.half.spaces hmm hclear hr) hslots.1, hslots⟩
  | sysBrk mm newBrk =>
    simp only [KernelRun.userCall] at hcall
    split_ifs at hcall with hmm
    obtain ⟨⟨ret, k'⟩, hr, rfl⟩ := Option.map_eq_some_iff.mp hcall
    exact ⟨hI.half.space (sysBrk_kept hI.half.spaces hmm hok.2 hclear hr) hslots.1, hslots⟩

/-- The calls of `mm_map_range` that an operation makes, each with the state it is made in: that of
`load_elf` for a segment comes after the rounds before it. -/
inductive MapCall (k : Kernel) : UserOp → Kernel → ℕ → ℕ → ℕ → BitVec 64 → Prop
  | segment {mm i : ℕ} {elf : ℕ → UInt8} {k₁ : Kernel} : Elf.magic elf = true →
      i < Elf.ePhnum elf → Elf.pType elf i = Elf.ptLoad →
      Kernel.loadSegments mm elf i 0 k = some (true, k₁) →
      MapCall k (.loadElf mm elf) k₁ mm (Elf.pVaddr elf i) (Elf.pMemsz elf i) (Elf.vmFlags elf i)
  | stack {mm : ℕ} : MapCall k (.mapUserStack mm) k mm (userStackTop - userStackSize) userStackSize
      (vmRead ||| vmWrite ||| vmStack)
  | brk {mm newBrk : ℕ} : (k.mms mm).heap < newBrk →
      MapCall k (.sysBrk mm newBrk) k mm (k.mms mm).heap (newBrk - (k.mms mm).heap)
        (vmRead ||| vmWrite ||| vmHeap)

/-- Where the segments loaded before are in the user half, the address spaces are in order when the
call is made. -/
theorem MapCall.inv {live : List ℕ} {k k₁ : Kernel} {op : UserOp} {mm va size : ℕ}
    {vmFlags : BitVec 64} (hc : MapCall k op k₁ mm va size vmFlags)
    (hI : SpacesInv (fun _ => False) live k) (hb : ∀ a ∈ live, k.BelowKernel a) (hmm : mm ∈ live)
    (huser : ∀ elf, op = .loadElf mm elf → ∀ i < Elf.ePhnum elf, Elf.InUserHalf elf i) :
    SpacesInv (fun _ => False) live k₁ ∧ ∀ a ∈ live, k₁.BelowKernel a := by
  cases hc with
  | @segment _ i elf _ _ hi _ hrounds =>
    have hkept := loadSegments_kept hmm i 0 hI
      (fun j _ hj => huser elf rfl j (by omega)) (heapClear_false _) hrounds
    exact ⟨hkept.inv, fun a ha => (hb a ha).kept ha (hkept.mono SpacePaths.mayTouch)⟩
  | stack => exact ⟨hI, hb⟩
  | brk _ => exact ⟨hI, hb⟩

/-- The pages an operation asks for, as far as there are frames for them, are in the user half. -/
def MapOk (s : KernelRun) (op : UserOp) : Prop :=
  s.Held ∧ match op with
  | .loadElf _ elf => ∀ i < Elf.ePhnum elf, Elf.InUserHalf elf i
  | .sysBrk mm newBrk => RangeOk (requestArea mm (s.mem.mms mm).heap
      (newBrk - (s.mem.mms mm).heap) (vmRead ||| vmWrite ||| vmHeap)) s.mem.pmm.freePages
  | _ => True

instance (v : VmaStruct) (free : ℕ) : Decidable (RangeOk v free) :=
  inferInstanceAs (Decidable (∀ i < _, _))

instance (s : KernelRun) : (op : UserOp) → Decidable (MapOk s op)
  | .kernel _ => inferInstanceAs (Decidable (s.Held ∧ True))
  | .loadElf _ _ => inferInstanceAs (Decidable (s.Held ∧ ∀ i < _, _))
  | .mapUserStack _ => inferInstanceAs (Decidable (s.Held ∧ True))
  | .sysBrk _ _ => inferInstanceAs (Decidable (s.Held ∧ RangeOk _ _))

theorem requestArea_ok {mm va size : ℕ} {vmFlags : BitVec 64} (h : va + size ≤ 2 ^ 47) :
    AreaOk (requestArea mm va size vmFlags) := by
  refine ⟨?_, requestArea_end h⟩
  simp only [requestArea]
  rw [u64_of_lt (by omega), alignUp_eq, u64_of_lt (by omega), alignDown_eq (by omega)]
  omega

theorem MapCall.range {s : KernelRun} {k₁ : Kernel} {op : UserOp} {mm va size : ℕ}
    {vmFlags : BitVec 64} (hc : MapCall s.mem.toKernel op k₁ mm va size vmFlags)
    (hok : MapOk s op) : RangeOk (requestArea mm va size vmFlags) k₁.pmm.freePages := by
  cases hc with
  | segment _ hi hload _ => exact (requestArea_ok (hok.2 _ hi hload)).range _
  | stack => exact (requestArea_ok userStack_user).range _
  | brk _ => exact hok.2

/-- In every run in which programs ask for memory in the user half, and `kmalloc` is called only
while every live structure is in a block in use, each call of `mm_map_range` for a program leaves
the upper half of all live page tables alone, but for the pages that the heap gains in it; it gains
none when a free block can hold the new area. -/
theorem userRun_spares_kernel_half (hhdm : ℕ) (img : KernelImage) (mmap : List MemmapEntry)
    (phys : PhysMem) (ops : List UserOp) {s₀ : MmState} {s : KernelRun} (hfit : MemoryFits mmap)
    (hclear : BootClear (· = stackSlot) hhdm img mmap) (hboot : mmInit hhdm img mmap phys = some s₀)
    (hok : Run.Meets userStep UserOk ⟨s₀, []⟩ ops) (h : Run.run userStep ⟨s₀, []⟩ ops = some s)
    {op : UserOp} {k k' : Kernel} {mm va size : ℕ} {vmFlags : BitVec 64} {ok : Bool}
    (hmm : mm ∈ s.live) (hmap : MapOk s op)
    (hcall : MapCall s.mem.toKernel op k mm va size vmFlags)
    (hr : k.mmMapRange mm va size vmFlags = some (ok, k')) :
    KernelHalfKept s.live (HeapPath k.heap.kheapTop k'.heap.kheapTop) k k'
      ∧ (k.heap.firstFit (alignUp vmaStructSize 8) ≠ none →
        KernelHalfKept s.live (fun _ => False) k k') := by
  obtain ⟨hhalf, hslots⟩ := mmInit_inv hfit hclear hboot
  have hI := Run.run_invariant_of_meets (I := KernelRun.Inv) userStep_inv ⟨hhalf, hslots⟩ hok h
  have hb : ∀ a ∈ s.live, s.mem.BelowKernel a := fun a ha j h1 h2 _ => hI.half.shares a ha j h1 h2
  obtain ⟨hk, hbk⟩ := hcall.inv hI.half.spaces.clear hb hmm (by
    rintro elf rfl
    exact hmap.2)
  have hkept := mmMapRange_kernelHalf hk hbk hmm (hcall.range hmap) hr
  refine ⟨hkept, fun hfree root hroot w hw _ => hkept root hroot w hw ?_⟩
  rintro ⟨x, h1, h2, -⟩
  have := mmMapRange_kheapTop hfree hr
  omega

/-- An image with the given entry point, and segments of the given addresses and sizes. -/
def elfImage (entry : ℕ) (segs : List (ℕ × ℕ)) : ℕ → UInt8 := fun i =>
  List.getD ([0x7F, 0x45, 0x4C, 0x46] ++ List.replicate 20 0 ++ Wire.leBytes 8 entry
    ++ Wire.leBytes 8 64 ++ List.replicate 16 0 ++ Wire.leBytes 2 segs.length
    ++ List.replicate 6 0 ++ segs.flatMap fun r =>
      Wire.leBytes 4 1 ++ Wire.leBytes 4 5 ++ Wire.leBytes 8 0 ++ Wire.leBytes 8 r.1
        ++ Wire.leBytes 8 r.1 ++ Wire.leBytes 8 4 ++ Wire.leBytes 8 r.2 ++ Wire.leBytes 8 4096) i 0

def smallElf : ℕ → UInt8 := elfImage 0x400000 [(0x400000, 0x800)]

/-- An image with a segment in the heap's slot, which `load_elf` maps in the kernel's tables. -/
def kernelElf : ℕ → UInt8 := elfImage 0x400000 [(0xFFFF900040000000, 0x1000)]

theorem kernel_half_remapped :
    ∃ s₀ s k', bootState = some s₀
      ∧ Run.run userStep ⟨s₀, []⟩ [.kernel .mmAlloc] = some s ∧ firstMm ∈ s.live
      ∧ MapCall s.mem.toKernel (.loadElf firstMm kernelElf) s.mem.toKernel firstMm
        0xFFFF900040000000 0x1000 (vmRead ||| vmWrite ||| vmExec)
      ∧ s.mem.mmMapRange firstMm 0xFFFF900040000000 0x1000 (vmRead ||| vmWrite ||| vmExec)
        = some (true, k')
      ∧ 256 ≤ pml4Idx 0xFFFF900040000000
      ∧ k'.leafEntry s.mem.kernelPml4 0xFFFF900040000000
        ≠ s.mem.leafEntry s.mem.kernelPml4 0xFFFF900040000000 := by
  have hrun : (bootState.bind fun s₀ => (Run.run userStep ⟨s₀, []⟩ [.kernel .mmAlloc]).bind fun s =>
      (s.mem.mmMapRange firstMm 0xFFFF900040000000 0x1000 (vmRead ||| vmWrite ||| vmExec)).map
        fun r => (decide (firstMm ∈ s.live), r.1, decide (r.2.leafEntry s.mem.kernelPml4
          0xFFFF900040000000 = s.mem.leafEntry s.mem.kernelPml4 0xFFFF900040000000)))
        = some (true, true, false) := by
    decide +kernel
  obtain ⟨s₀, hs₀, hrun⟩ := Option.bind_eq_some_iff.mp hrun
  obtain ⟨s, hs, hrun⟩ := Option.bind_eq_some_iff.mp hrun
  obtain ⟨⟨ok, k'⟩, hr, hrun⟩ := Option.map_eq_some_iff.mp hrun
  simp only [Prod.mk.injEq, decide_eq_true_eq, decide_eq_false_iff_not] at hrun
  obtain ⟨hlive, rfl, hne⟩ := hrun
  have hfields : Elf.magic kernelElf = true ∧ Elf.ePhnum kernelElf = 1
      ∧ Elf.pType kernelElf 0 = Elf.ptLoad ∧ Elf.pVaddr kernelElf 0 = 0xFFFF900040000000
      ∧ Elf.pMemsz kernelElf 0 = 0x1000
      ∧ Elf.vmFlags kernelElf 0 = vmRead ||| vmWrite ||| vmExec := by
    decide +kernel
  obtain ⟨hmagic, hnum, hload, hva, hsize, hflags⟩ := hfields
  refine ⟨s₀, s, k', hs₀, hs, hlive, ?_, hr, by decide, hne⟩
  have hcall : MapCall s.mem.toKernel (.loadElf firstMm kernelElf) s.mem.toKernel firstMm _ _ _ :=
    .segment hmagic (by omega) hload rfl
  rwa [hva, hsize, hflags] at hcall

end SudoOS
