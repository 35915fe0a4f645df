import SudoOS.Kstack
import SudoOS.Proofs.Vmm

/-!
# The kernel half of every address space

`mm_alloc` copies the upper half of the kernel's PML4 once, yet the kernel goes on mapping heap
pages and stacks. New mappings show in every address space because they only ever hang below the two
top-level slots that `mm_init` has filled, and those entries do not change again: a call touches
pages of user halves, of the stack slot and of the heap, and on the way to a page it enters tables
only where there were none.
-/

namespace SudoOS

/-- `PML4_IDX(KERNEL_HEAP_BASE)`. -/
def heapSlot : ℕ := 288

/-- `PML4_IDX(KERNEL_STACK_BASE)`. -/
def stackSlot : ℕ := 352

theorem pml4Idx_heap {va : ℕ} (h1 : kernelHeapBase ≤ va) (h2 : va < kernelHeapBase + 2 ^ 39) :
    pml4Idx va = heapSlot := by
  unfold kernelHeapBase at h1 h2
  rw [pml4Idx_eq, heapSlot]
  omega

theorem pml4Idx_stack {va : ℕ} (h1 : kernelStackBase ≤ va) (h2 : va < kernelStackBase + 2 ^ 39) :
    pml4Idx va = stackSlot := by
  unfold kernelStackBase at h1 h2
  rw [pml4Idx_eq, stackSlot]
  omega

theorem heapClear_stackSlot {top : ℕ} (h : top ≤ kernelHeapBase + 2 ^ 39) :
    HeapClear (· = stackSlot) top := by
  intro va h1 h2
  unfold kernelHeapBase at h h1
  rw [pml4Idx_eq, stackSlot]
  omega

theorem pml4Idx_of_leafPath {va w : ℕ} (h : leafPath va = leafPath w) : pml4Idx va = pml4Idx w :=
  (List.cons.inj h).1

theorem head_of_prefix_leafPath {j va : ℕ} (h : [j] <+: leafPath va) : j = pml4Idx va := by
  simpa [leafPath, tablePath] using h

theorem table_singleton {m : Machine} {root j : ℕ} :
    m.table root [j] ≠ none ↔ isPresent (m.phys root j) = true := by
  by_cases h : isPresent (m.phys root j) = true <;> simp [Machine.table, Radix.walk, tableChild, h]

theorem table_ne_none_of_leafEntry {m : Machine} {pml4 va : ℕ} (h : m.leafEntry pml4 va ≠ none) :
    m.table pml4 [pml4Idx va] ≠ none := by
  intro hc
  refine h (leafEntry_of_none ?_)
  rw [Machine.table, tablePath, show [pml4Idx va, pdptIdx va, pdIdx va]
    = [pml4Idx va] ++ [pdptIdx va, pdIdx va] from rfl, Radix.walk_append]
  rw [Machine.table] at hc
  rw [hc, Option.bind_none]

/-! ## What calls touch -/

/-- The pages that calls on address spaces and kernel stacks map and unmap. -/
def MayTouch : Tree → List ℕ → Prop
  | .kernel, p => ∃ va, pml4Idx va = stackSlot ∧ p = leafPath va
  | .heapPage _, _ => False
  | .mm _, p => ∃ va, pml4Idx va < 256 ∧ p = leafPath va

theorem SpacePaths.mayTouch {mm : ℕ} (t : Tree) (p : List ℕ) (h : SpacePaths mm t p) :
    MayTouch t p := by
  obtain ⟨rfl, va, hva, rfl⟩ := h
  exact ⟨va, pml4Idx_user hva, rfl⟩

/-- A root's entry changes only from an absent one, on the way to a page. -/
theorem Touches.root_word {adm T : List ℕ → Prop} {root j : ℕ} {m m' : Machine}
    (h : Touches adm root T m m') (hadm : adm []) (hT : ∀ q, T q → ∃ va, q = leafPath va)
    (hw : m'.phys root j ≠ m.phys root j) :
    ∃ va, T (leafPath va) ∧ j = pml4Idx va ∧ isPresent (m.phys root j) = false := by
  obtain ⟨q, hq, hcase⟩ := h.words [] root j hadm rfl hw
  obtain ⟨va, rfl⟩ := hT q hq
  rcases hcase with hnil | ⟨hpre, hnil | habs⟩
  · simp [leafPath] at hnil
  · simp [leafPath, tablePath] at hnil
  · exact ⟨va, hq, head_of_prefix_leafPath hpre, habs⟩

/-- Top-level entries stay on the way to pages. -/
theorem Touches.slot {adm T : List ℕ → Prop} {root j : ℕ} {m m' : Machine}
    (h : Touches adm root T m m') (hj : adm [j]) (hT : ∀ q, T q → ∃ va, q = leafPath va)
    (hm : m.table root [j] ≠ none) : m'.table root [j] ≠ none := by
  obtain ⟨n, hn⟩ := Option.ne_none_iff_exists'.mp hm
  rcases h.nodes [j] n hj hn with h1 | h1
  · simp [h1]
  · obtain ⟨va, hva⟩ := hT _ h1
    simp [leafPath, tablePath] at hva

section Half

variable {live live' : List ℕ} {k k' : Kernel}

theorem SpacesInv.base_le_top {own : ℕ → Prop} (h : SpacesInv own live k) :
    kernelHeapBase ≤ k.heap.kheapTop := by
  obtain ⟨frames, hm⟩ := h.mem
  exact hm.base_le_top

/-- The kernel's tree is touched at pages only. -/
theorem kernel_pages {top top' : ℕ} (q : List ℕ)
    (h : MayTouch .kernel q ∨ HeapPath top top' q) : ∃ va, q = leafPath va := by
  rcases h with ⟨va, -, hq⟩ | ⟨va, -, -, hq⟩ <;> exact ⟨va, hq⟩

/-- The kernel's PML4 is fixed once the slots of the heap and the stacks are filled. -/
theorem MemKept.kernel_entries {own : ℕ → Prop} {spaces : ℕ → Option ℕ} {km km' : KMem}
    (h : MemKept own spaces MayTouch km km') (hbase : kernelHeapBase ≤ km.heap.kheapTop)
    (hheap : km.table km.kernelPml4 [heapSlot] ≠ none)
    (hstack : km.table km.kernelPml4 [stackSlot] ≠ none)
    (htop : km'.heap.kheapTop ≤ kernelHeapBase + 2 ^ 39) (j : ℕ) :
    km'.phys km.kernelPml4 j = km.phys km.kernelPml4 j := by
  by_contra hc
  obtain ⟨va, hva, rfl, habs⟩ := h.kernel.root_word (.inl ⟨by simp, by simp⟩) kernel_pages hc
  have hslot : km.table km.kernelPml4 [pml4Idx va] ≠ none := by
    rcases hva with ⟨w, hw, hpath⟩ | ⟨w, h1, h2, hpath⟩
    · rw [pml4Idx_of_leafPath hpath, hw]
      exact hstack
    · rw [pml4Idx_of_leafPath hpath, pml4Idx_heap (hbase.trans h1) (by omega)]
      exact hheap
  rw [table_singleton.mp hslot] at habs
  cases habs

/-- Nor does the upper half of an address space's PML4 change. -/
theorem MemKept.user_entries {own : ℕ → Prop} {spaces : ℕ → Option ℕ} {km km' : KMem}
    (h : MemKept own spaces MayTouch km km') {a pml4 : ℕ} (ha : spaces a = some pml4) {j : ℕ}
    (hj : 256 ≤ j) : km'.phys pml4 j = km.phys pml4 j := by
  by_contra hc
  obtain ⟨va, ⟨w, hw, hpath⟩, rfl, -⟩ := (h.user a pml4 ha).root_word ⟨by simp, by simp, by simp⟩
    (fun q hq => hq.imp fun _ hva => hva.2) hc
  rw [pml4Idx_of_leafPath hpath] at hj
  omega

structure HalfInv (live : List ℕ) (k : Kernel) : Prop where
  spaces : SpacesInv (· = stackSlot) live k
  heap : k.table k.kernelPml4 [heapSlot] ≠ none
  stack : k.table k.kernelPml4 [stackSlot] ≠ none
  shares : ∀ a ∈ live, k.SharesHalf a

theorem HalfInv.step (h : HalfInv live k) (hsub : live' ⊆ live)
    (hk : SpacesKept (· = stackSlot) live' MayTouch k k')
    (htop : k'.heap.kheapTop ≤ kernelHeapBase + 2 ^ 39) : HalfInv live' k' := by
  have hkernel := hk.kept.kernel_entries h.spaces.base_le_top h.heap h.stack htop
  have hpml4 : k'.kernelPml4 = k.kernelPml4 := hk.kept.pml4
  have hslot : ∀ j, k.table k.kernelPml4 [j] ≠ none → k'.table k'.kernelPml4 [j] ≠ none := by
    intro j hj
    rw [table_singleton, hpml4, hkernel]
    exact table_singleton.mp hj
  refine ⟨hk.inv, hslot _ h.heap, hslot _ h.stack, fun a ha j h1 h2 => ?_⟩
  rw [hk.pml4Pa ha, hpml4, hkernel, hk.kept.user_entries (if_pos ha) h1]
  exact h.shares a (hsub ha) j h1 h2

/-- The kernel half of an address space translates as the kernel's own. -/
theorem Kernel.SharesHalf.leafEntry {a va : ℕ} (h : k.SharesHalf a) (hva : 256 ≤ pml4Idx va) :
    k.leafEntry (k.mms a).pml4Pa va = k.leafEntry k.kernelPml4 va := by
  refine leafEntry_of_entry (h _ hva ?_)
  rw [pml4Idx_eq]
  omega

/-! ## Calls on address spaces -/

theorem requestArea_end {mm va size : ℕ} {vmFlags : BitVec 64} (h : va + size ≤ 2 ^ 47) :
    (requestArea mm va size vmFlags).vmEnd ≤ 2 ^ 47 := by
  simp only [requestArea]
  rw [u64_of_lt (by omega), alignUp_eq, u64_of_lt (by omega)]
  omega

theorem HalfInv.mmAlloc (h : HalfInv live k) {mm : ℕ}
    (hheld : ∀ a ∈ live, Holds k.heap.kheapList (a, mmStructSize))
    (htop : k'.heap.kheapTop ≤ kernelHeapBase + 2 ^ 39) (hr : k.mmAlloc = some (mm, k')) :
    HalfInv (if mm = 0 then live else mm :: live) k' := by
  obtain ⟨hkept, hnew⟩ := mmAlloc_kept h.spaces hheld (heapClear_stackSlot htop) hr
  have hold := h.step (fun _ ha => ha) hkept htop
  split_ifs with h0
  · exact hold
  · obtain ⟨hinv, hhalf, -⟩ := hnew h0
    refine ⟨hinv, hold.heap, hold.stack, fun a ha => ?_⟩
    rcases List.mem_cons.mp ha with rfl | ha
    · exact hhalf
    · exact hold.shares a ha

theorem HalfInv.mmMapRange (h : HalfInv live k) {mm va size : ℕ} {vmFlags : BitVec 64} {ok : Bool}
    (hmm : mm ∈ live) (hva : va + size ≤ 2 ^ 47)
    (htop : k'.heap.kheapTop ≤ kernelHeapBase + 2 ^ 39)
    (hr : k.mmMapRange mm va size vmFlags = some (ok, k')) : HalfInv live k' := by
  have hkept := mmMapRange_kept h.spaces hmm hva (heapClear_stackSlot htop) hr
  refine h.step (fun _ ha => ha) (hkept.mono fun t p hp => ?_) htop
  exact SpacePaths.mayTouch t p (AreaPaths.space (requestArea_end hva) t p hp)

theorem HalfInv.mmCopy (h : HalfInv live k) {dst src : ℕ} {ok : Bool} (hd : dst ∈ live)
    (hs : src ∈ live) (htop : k'.heap.kheapTop ≤ kernelHeapBase + 2 ^ 39)
    (hr : k.mmCopy dst src = some (ok, k')) :
    HalfInv (if ok then live else live.erase dst) k' := by
  have hkept := mmCopy_kept h.spaces hd hs (heapClear_stackSlot htop) hr
  refine h.step ?_ (hkept.mono SpacePaths.mayTouch) htop
  split_ifs
  · exact fun _ ha => ha
  · exact fun _ ha => List.mem_of_mem_erase ha

theorem HalfInv.mmFree (h : HalfInv live k) {mm : ℕ} (hmm : mm ∈ live)
    (htop : (k.mmFree mm).heap.kheapTop ≤ kernelHeapBase + 2 ^ 39) :
    HalfInv (live.erase mm) (k.mmFree mm) :=
  h.step (fun _ ha => List.mem_of_mem_erase ha) (mmFree_kept h.spaces hmm) htop

theorem HalfInv.kheapExpand (h : HalfInv live k) {pgnum : ℕ} {ok : Bool} {km : KMem}
    (htop : km.heap.kheapTop ≤ kernelHeapBase + 2 ^ 39)
    (hr : KMem.kheapExpand pgnum k.toKMem = some (ok, km)) :
    HalfInv live { k with toKMem := km } := by
  obtain ⟨frames, hmem⟩ := h.spaces.mem
  have hkept := kheapExpand_kept (T := MayTouch) hmem (heapClear_stackSlot htop) hr
  exact h.step (fun _ ha => ha) (h.spaces.setMem hkept) htop

/-! ## Kernel stacks -/

theorem kstackMap_kept {root : Tree → Option ℕ} {pml4 top : ℕ} (hroot : root .kernel = some pml4)
    (htop : top + pageSize ≤ 2 ^ 64) : ∀ (fuel v : ℕ) (m : Machine),
      (∀ va, v ≤ va → va < top → pml4Idx va = stackSlot) →
      TablesOk root (treePath (· = stackSlot)) m →
      Kept root (treePath (· = stackSlot)) MayTouch m (Machine.kstackMap pml4 top fuel v m).2
  | 0, v, m, _, h => Kept.refl h
  | fuel + 1, v, m, hslot, h => by
    have halloc := h.alloc (T := MayTouch) closed_treePath
    unfold Machine.kstackMap
    dsimp only
    split_ifs with hv h0
    · exact halloc
    · obtain ⟨-, -, -, a4⟩ := Pmm.pmmAllocPage_spec h.pmm
      obtain ⟨hvac, hbusy⟩ := a4 h0
      have hmap := (vmmMapPage_leaf closed_treePath halloc.tables hroot
        (isLeaf_kernel (hslot v le_rfl hv)) kernelFlags_ok ((hbusy _).mpr (.inr rfl))
        (h.fresh_of_vacant hvac)).mono MayTouch (by
          rintro t p ⟨rfl, rfl⟩
          exact ⟨v, hslot v le_rfl hv, rfl⟩)
      refine (halloc.trans hmap).trans (kstackMap_kept hroot htop fuel _ _ ?_ hmap.tables)
      rw [u64_of_lt (by omega)]
      exact fun va hva => hslot va ((Nat.le_add_right _ _).trans hva)
    · exact Kept.refl h

theorem HalfInv.setMachine (h : HalfInv live k) {m : Machine} {T : Tree → List ℕ → Prop}
    (hT : ∀ t p, T t p → MayTouch t p)
    (hm : ∀ root : Tree → Option ℕ, root .kernel = some k.kernelPml4 →
      TablesOk root (treePath (· = stackSlot)) k.toMachine →
      Kept root (treePath (· = stackSlot)) T k.toMachine m)
    (htop : k.heap.kheapTop ≤ kernelHeapBase + 2 ^ 39) :
    HalfInv live { k with toMachine := m } := by
  obtain ⟨frames, hmem⟩ := h.spaces.mem
  have hkept := (hm _ rfl hmem.tables).memKept hmem hT
  exact h.step (fun _ ha => ha) (h.spaces.setMem hkept) htop

end Half

/-- Both pointers are in the slots they started in. -/
def InSlots (s : MmState) : Prop :=
  s.heap.kheapTop ≤ kernelHeapBase + 2 ^ 39
    ∧ kernelStackBase ≤ s.kstackPtr ∧ s.kstackPtr ≤ kernelStackBase + 2 ^ 39

instance (s : MmState) : Decidable (InSlots s) := inferInstanceAs (Decidable (_ ∧ _))

section Stacks

variable {live : List ℕ} {s : MmState}

theorem kstackInit_ptr (s : MmState) (size : ℕ) :
    (s.kstackInit size).2.kstackPtr = u64 (u64 (s.kstackPtr + pageSize) + size) := by
  unfold MmState.kstackInit
  dsimp only
  split <;> rfl

theorem HalfInv.kstackInit (h : HalfInv live s.toKernel) (hs : InSlots s) {size : ℕ}
    (hs' : InSlots (s.kstackInit size).2) : HalfInv live (s.kstackInit size).2.toKernel := by
  obtain ⟨hheap, h1, h2⟩ := hs
  obtain ⟨-, -, h3⟩ := hs'
  rw [kstackInit_ptr] at h3
  have hbot : u64 (s.kstackPtr + pageSize) = s.kstackPtr + pageSize :=
    u64_of_lt (by unfold pageSize; unfold kernelStackBase at h2; omega)
  have htop : u64 (u64 (s.kstackPtr + pageSize) + size) + pageSize ≤ 2 ^ 64 := by
    unfold kernelStackBase at h3
    unfold pageSize at h3 ⊢
    omega
  have hm := h.setMachine (fun _ _ hp => hp) (fun root hroot ht => kstackMap_kept hroot htop
    (s.pmm.freePages + 1) (u64 (s.kstackPtr + pageSize)) s.toMachine (fun va hlo hhi => by
      rw [hbot] at hlo
      exact pml4Idx_stack (by omega) (by omega)) ht) hheap
  unfold MmState.kstackInit
  dsimp only
  split <;> rename_i hr <;> rw [hr] at hm <;> exact hm

theorem HalfInv.kstackFree (h : HalfInv live s.toKernel) (hs : InSlots s) {base : ℕ}
    (h1 : kernelStackBase ≤ base) (h2 : base + kstackSize ≤ kernelStackBase + 2 ^ 39) :
    HalfInv live (s.kstackFree base).toKernel := by
  unfold MmState.kstackFree
  dsimp only
  generalize hn : (if base < u64 (base + kstackSize) then kstackSize / pageSize else 0) = n
  have hle : n ≤ 4 := by
    rw [← hn]
    split_ifs <;> decide
  have hpages : ∀ i < n, pml4Idx (u64 (base + i * pageSize)) = stackSlot := by
    intro i hi
    have hend : base + i * pageSize < kernelStackBase + 2 ^ 39 := by
      unfold kstackSize at h2
      unfold pageSize
      omega
    rw [u64_of_lt (hend.trans (by simp [kernelStackBase]))]
    exact pml4Idx_stack (by omega) hend
  refine h.setMachine (T := InRange Tree.kernel base n) ?_
    (fun root hroot ht => rollback_kept closed_treePath hroot
      (fun i hi => isLeaf_kernel (hpages i hi)) _ le_rfl ht) hs.1
  rintro t p ⟨rfl, i, hi, rfl⟩
  exact ⟨_, hpages i hi, rfl⟩

end Stacks

/-! ## Boot -/

section Boot

variable {root : Tree → Option ℕ} {pml4 : ℕ} {m : Machine}

/-- A page was mapped in the slot if there is still one to hand out. -/
theorem slot_of_alloc (hroot : root .kernel = some pml4)
    (h : TablesOk root (treePath (· = stackSlot)) m) (hz : m.pmm.Busy 0) {va : ℕ} (pa : ℕ)
    (halloc : ((m.vmmMapPage pml4 va pa kernelFlags).pmm.pmmAllocPage).1 ≠ 0) :
    (m.vmmMapPage pml4 va pa kernelFlags).table pml4 [pml4Idx va] ≠ none := by
  have hP : treePath (· = stackSlot) Tree.kernel ([] ++ tablePath va) := .inl (tablePath_ok va)
  have hnil : m.node root .kernel [] = some pml4 := (Radix.node_nil _ _ _).trans hroot
  have hnone := nextTables_none closed_treePath kernelFlags_ok (tablePath va) m [] pml4 h.toOwned hz
    hnil hP
  obtain ⟨hO, -, hnode⟩ := nextTables_spec closed_treePath kernelFlags_ok (tablePath va) m [] pml4
    h.toOwned hnil hP
  rcases hr : m.nextTables true kernelFlags pml4 (tablePath va) with ⟨_ | pt, m₁⟩ <;>
    rw [hr] at hnone hO hnode
  · have hmap : m.vmmMapPage pml4 va pa kernelFlags = m₁ := by
      unfold Machine.vmmMapPage
      rw [← tablePath, hr]
    rw [hmap] at halloc
    exact absurd (hnone rfl) halloc
  · have hpt := hnode pt rfl
    have hne : pml4 ≠ pt := by
      rintro rfl
      have := (hO.forest .kernel [] .kernel _ _ (.inl ⟨by simp, by simp⟩) hP
        ((Radix.node_nil _ _ _).trans hroot) hpt).2
      simp [tablePath] at this
    rw [vmmMapPage_eq kernelFlags_ok hr, table_singleton,
      setEntry_phys_of_ne fun hc => absurd hc hne, ← table_singleton]
    intro hc
    rw [Machine.node_eq_table hroot, Machine.table, List.nil_append, tablePath,
      show [pml4Idx va, pdptIdx va, pdIdx va] = [pml4Idx va] ++ [pdptIdx va, pdIdx va] from rfl,
      Radix.walk_append] at hpt
    rw [Machine.table] at hc
    rw [hc, Option.bind_none] at hpt
    cases hpt

/-- A stack of two pages or more fills the slot. -/
theorem kstackMap_slot (hroot : root .kernel = some pml4)
    (h : TablesOk root (treePath (· = stackSlot)) m) {top fuel v : ℕ}
    (htop : top + pageSize ≤ 2 ^ 64) (hv : v + pageSize < top)
    (hslot : ∀ va, v ≤ va → va < top → pml4Idx va = stackSlot)
    (hr : (Machine.kstackMap pml4 top fuel v m).1 = true) :
    (Machine.kstackMap pml4 top fuel v m).2.table pml4 [stackSlot] ≠ none := by
  have hlt : v < top := (Nat.le_add_right _ _).trans_lt hv
  have hnext : u64 (v + pageSize) = v + pageSize := u64_of_lt (by omega)
  rcases fuel with _ | _ | fuel
  · cases hr
  · unfold Machine.kstackMap at hr
    rw [if_pos hlt] at hr
    dsimp only at hr
    split_ifs at hr
    cases hr
  have hone : Kept root _ MayTouch m (Machine.kstackMap pml4 (v + pageSize) 1 v m).2 :=
    kstackMap_kept hroot (by omega) 1 v m (fun va hlo hhi => hslot va hlo (by omega)) h
  have halloc := h.alloc (T := MayTouch) closed_treePath
  rw [Machine.kstackMap, if_pos hlt] at hr ⊢
  rw [Machine.kstackMap, if_pos (Nat.lt_add_of_pos_right (by decide))] at hone
  dsimp only at hr hone ⊢
  split_ifs at hr hone ⊢ with h0
  have hz : (m.pmm.pmmAllocPage).2.Busy 0 :=
    (Pmm.pmmAllocPage_spec h.pmm).2.2.1 0 (Pmm.pmmAllocPage_busy_zero h.pmm h0)
  have hfound : ((Machine.vmmMapPage { m with pmm := (m.pmm.pmmAllocPage).2 } pml4 v
      (m.pmm.pmmAllocPage).1 kernelFlags).pmm.pmmAllocPage).1 ≠ 0 := by
    intro hc
    rw [Machine.kstackMap, hnext, if_pos hv] at hr
    dsimp only at hr
    rw [if_pos hc] at hr
    cases hr
  have hfill := slot_of_alloc hroot halloc.tables hz _ hfound
  rw [hslot v le_rfl hlt] at hfill
  have hrest := kstackMap_kept hroot htop (fuel + 1) (u64 (v + pageSize)) _ (fun va hva => by
    rw [hnext] at hva
    exact hslot va ((Nat.le_add_right _ _).trans hva)) hone.tables
  refine (hrest.touches .kernel pml4 hroot).slot (.inl ⟨by simp, by simp [stackSlot]⟩) ?_ hfill
  rintro q ⟨va, -, rfl⟩
  exact ⟨va, rfl⟩

end Boot

/-- `kheap_init` fills the heap's slot, unless no page is left. -/
theorem bootMemory_slot {hhdm pgnum : ℕ} {img : KernelImage} {mmap : List MemmapEntry}
    {phys : PhysMem} {k : Kernel} (hfit : MemoryFits mmap)
    (hclear : BootClear (· = stackSlot) hhdm img mmap) (hpg : pgnum < 2 ^ 27)
    (h : bootMemory hhdm img mmap (pgnum + 1) phys = some k) :
    k.heap.kheapTop ≤ kernelHeapBase + pageSize * (pgnum + 1)
      ∧ (k.table k.kernelPml4 [heapSlot] ≠ none ∨ (k.pmm.pmmAllocPage).1 = 0) := by
  obtain ⟨km, ok, hmem, hz, hbase, he⟩ := bootMemory_cases hfit hclear h
  have htop := KMem.kheapExpand_top_le hmem.heapInv he
  rw [hbase] at htop
  refine ⟨htop, ?_⟩
  have hclear' : HeapClear (· = stackSlot) k.heap.kheapTop :=
    heapClear_stackSlot (htop.trans (by unfold pageSize; omega))
  rcases KMem.kheapExpand_cases he with ⟨-, h0, hk⟩ | ⟨h0, hleaf, he⟩
  · right
    have hex := Pmm.pmmAllocPage_of_eq_zero hmem.tables.pmm hz h0
    rw [show k.pmm = km.pmm by rw [show k.pmm = k.toKMem.pmm from rfl, hk, hex]]
    exact h0
  · left
    have hgrown : MemKept (· = stackSlot) (fun _ => none) MayTouch km km.grown :=
      hmem.grown h0 (heapClear_stackSlot (Nat.le_add_right _ _) _ hbase.ge hbase.le)
    obtain ⟨frames, hmem'⟩ := hgrown.mem
    have hrest : MemKept (· = stackSlot) (fun _ => none) MayTouch km.grown k.toKMem :=
      kheapExpand_kept hmem' hclear' he
    have hslot := table_ne_none_of_leafEntry hleaf
    rw [hbase, pml4Idx_heap le_rfl (by omega)] at hslot
    rw [show k.kernelPml4 = km.grown.kernelPml4 from hrest.pml4]
    exact hrest.kernel.slot (.inl ⟨by simp, by simp [heapSlot]⟩) kernel_pages hslot

/-- `mm_init` fills both slots. -/
theorem mmInit_inv {hhdm : ℕ} {img : KernelImage} {mmap : List MemmapEntry} {phys : PhysMem}
    {s : MmState} (hfit : MemoryFits mmap) (hclear : BootClear (· = stackSlot) hhdm img mmap)
    (h : mmInit hhdm img mmap phys = some s) : HalfInv [] s.toKernel ∧ InSlots s := by
  unfold mmInit at h
  obtain ⟨k, hk, h⟩ := Option.bind_eq_some_iff.mp h
  dsimp only at h
  split_ifs at h with h0
  obtain rfl := Option.some.inj h
  obtain ⟨htop, hslot⟩ := bootMemory_slot hfit hclear (by omega) hk
  have hbound : k.heap.kheapTop ≤ kernelHeapBase + 2 ^ 39 := htop.trans (by unfold pageSize; omega)
  have hI := bootMemory_inv hfit hclear (heapClear_stackSlot hbound) hk
  have htop : u64 (u64 (kernelStackBase + pageSize) + 4 * pageSize) + pageSize ≤ 2 ^ 64 := by decide
  have hstack : ∀ va, u64 (kernelStackBase + pageSize) ≤ va →
      va < u64 (u64 (kernelStackBase + pageSize) + 4 * pageSize) → pml4Idx va = stackSlot := by
    intro va hlo hhi
    have hlow : kernelStackBase ≤ u64 (kernelStackBase + pageSize) := by decide
    have hhigh : u64 (u64 (kernelStackBase + pageSize) + 4 * pageSize)
        ≤ kernelStackBase + 2 ^ 39 := by decide
    exact pml4Idx_stack (hlow.trans hlo) (hhi.trans_le hhigh)
  obtain ⟨frames, hmem⟩ := hI.mem
  have hkept := kstackMap_kept rfl htop (k.pmm.freePages + 1) (u64 (kernelStackBase + pageSize))
    k.toMachine hstack hmem.tables
  have hfill : (Machine.kstackMap k.kernelPml4 _ (k.pmm.freePages + 1)
      (u64 (kernelStackBase + pageSize)) k.toMachine).1 = true → _ :=
    kstackMap_slot rfl hmem.tables htop (by decide) hstack
  unfold MmState.kstackInit at h0 ⊢
  dsimp only at h0 ⊢
  rcases hr : Machine.kstackMap k.kernelPml4
      (u64 (u64 (kernelStackBase + pageSize) + 4 * pageSize)) (k.pmm.freePages + 1)
      (u64 (kernelStackBase + pageSize)) k.toMachine with ⟨_ | _, m⟩ <;> rw [hr] at h0 hkept hfill
  · exact absurd rfl h0
  have hheap : k.table k.kernelPml4 [heapSlot] ≠ none := by
    refine hslot.resolve_right fun hc => ?_
    rw [Machine.kstackMap, if_pos (by decide)] at hr
    dsimp only at hr
    rw [if_pos hc] at hr
    cases hr
  have hspaces := hI.setMem (hkept.memKept hmem fun _ _ hp => hp)
  have hptr : kernelStackBase ≤ u64 (u64 (kernelStackBase + pageSize) + 4 * pageSize)
      ∧ u64 (u64 (kernelStackBase + pageSize) + 4 * pageSize) ≤ kernelStackBase + 2 ^ 39 := by
    decide
  refine ⟨⟨hspaces.inv, ?_, hfill rfl, by simp⟩, hbound, hptr⟩
  refine (hkept.touches .kernel k.kernelPml4 rfl).slot (.inl ⟨by simp, by simp [heapSlot]⟩) ?_ hheap
  rintro q ⟨va, -, rfl⟩
  exact ⟨va, rfl⟩

/-! ## Runs of calls -/

inductive KernelOp
  | mmAlloc
  | mmMapRange (mm va size : ℕ) (vmFlags : BitVec 64)
  | mmCopy (dst src : ℕ)
  | mmFree (mm : ℕ)
  | kheapExpand (pgnum : ℕ)
  | kstackInit (size : ℕ)
  | kstackFree (base : ℕ)
  deriving Repr, DecidableEq

/-- The kernel's memory with the address spaces made and not yet released. -/
structure KernelRun where
  mem : MmState
  live : List ℕ

def KernelRun.toMmRun (s : KernelRun) : MmRun := ⟨s.mem.toKernel, s.live⟩

/-- A call: on live address spaces, on ranges of the user half and on stacks in the stack slot. -/
def KernelRun.call (s : KernelRun) : KernelOp → Option KernelRun
  | .mmAlloc =>
    s.mem.mmAlloc.map fun r => ⟨{ s.mem with toKernel := r.2 },
      if r.1 = 0 then s.live else r.1 :: s.live⟩
  | .mmMapRange mm va size vmFlags =>
    if mm ∈ s.live ∧ va + size ≤ 2 ^ 47 then
      (s.mem.mmMapRange mm va size vmFlags).map fun r => ⟨{ s.mem with toKernel := r.2 }, s.live⟩
    else none
  | .mmCopy dst src =>
    if dst ∈ s.live ∧ src ∈ s.live then
      (s.mem.mmCopy dst src).map fun r => ⟨{ s.mem with toKernel := r.2 },
        if r.1 then s.live else s.live.erase dst⟩
    else none
  | .mmFree mm =>
    if mm ∈ s.live then some ⟨{ s.mem with toKernel := s.mem.mmFree mm }, s.live.erase mm⟩ else none
  | .kheapExpand pgnum =>
    (KMem.kheapExpand pgnum s.mem.toKMem).map fun r => ⟨{ s.mem with toKMem := r.2 }, s.live⟩
  | .kstackInit size => some ⟨(s.mem.kstackInit size).2, s.live⟩
  | .kstackFree base =>
    if kernelStackBase ≤ base ∧ base + kstackSize ≤ kernelStackBase + 2 ^ 39 then
      some ⟨s.mem.kstackFree base, s.live⟩
    else none

/-- Calls are followed as long as both pointers stay in their slots. -/
def kernelStep (s : KernelRun) (op : KernelOp) : Option KernelRun :=
  (s.call op).filter fun s' => InSlots s'.mem

/-- Every live structure is in a block in use whenever `kmalloc` may be called. -/
def KernelOk (s : KernelRun) : KernelOp → Prop
  | .mmAlloc | .mmMapRange _ _ _ _ | .mmCopy _ _ =>
    ∀ o ∈ s.toMmRun.objects, Holds s.mem.heap.kheapList o
  | _ => True

instance (s : KernelRun) : (op : KernelOp) → Decidable (KernelOk s op)
  | .mmAlloc | .mmMapRange _ _ _ _ | .mmCopy _ _ =>
    inferInstanceAs (Decidable (∀ o ∈ s.toMmRun.objects, _))
  | .mmFree _ | .kheapExpand _ | .kstackInit _ | .kstackFree _ => isTrue trivial

structure KernelRun.Inv (s : KernelRun) : Prop where
  half : HalfInv s.live s.mem.toKernel
  slots : InSlots s.mem

theorem kernelStep_inv (s : KernelRun) (op : KernelOp) (s' : KernelRun) (hI : s.Inv)
    (hok : KernelOk s op) (h : kernelStep s op = some s') : s'.Inv := by
  obtain ⟨hcall, hslots⟩ := Option.filter_eq_some_iff.mp h
  have hslots : InSlots s'.mem := of_decide_eq_true hslots
  refine ⟨?_, hslots⟩
  cases op with
  | mmAlloc =>
    obtain ⟨⟨mm, k'⟩, hr, rfl⟩ := Option.map_eq_some_iff.mp hcall
    refine hI.half.mmAlloc (fun a ha => hok _ ?_) hslots.1 hr
    exact List.mem_flatMap.mpr ⟨a, ha, List.mem_cons_self⟩
  | mmMapRange mm va size vmFlags =>
    simp only [KernelRun.call] at hcall
    split_ifs at hcall with hc
    obtain ⟨⟨ok, k'⟩, hr, rfl⟩ := Option.map_eq_some_iff.mp hcall
    exact hI.half.mmMapRange hc.1 hc.2 hslots.1 hr
  | mmCopy dst src =>
    simp only [KernelRun.call] at hcall
    split_ifs at hcall with hc
    obtain ⟨⟨ok, k'⟩, hr, rfl⟩ := Option.map_eq_some_iff.mp hcall
    exact hI.half.mmCopy hc.1 hc.2 hslots.1 hr
  | mmFree mm =>
    simp only [KernelRun.call] at hcall
    split_ifs at hcall with hc
    obtain rfl := Option.some.inj hcall
    exact hI.half.mmFree hc hslots.1
  | kheapExpand pgnum =>
    obtain ⟨⟨ok, km⟩, hr, rfl⟩ := Option.map_eq_some_iff.mp hcall
    exact hI.half.kheapExpand hslots.1 hr
  | kstackInit size =>
    obtain rfl := Option.some.inj hcall
    exact hI.half.kstackInit hI.slots hslots
  | kstackFree base =>
    simp only [KernelRun.call] at hcall
    split_ifs at hcall with hc
    obtain rfl := Option.some.inj hcall
    exact hI.half.kstackFree hI.slots hc.1 hc.2

theorem run_inv {hhdm : ℕ} {img : KernelImage} {mmap : List MemmapEntry} {phys : PhysMem}
    {ops : List KernelOp} {s₀ : MmState} {s : KernelRun} (hfit : MemoryFits mmap)
    (hclear : BootClear (· = stackSlot) hhdm img mmap)
    (hboot : mmInit hhdm img mmap phys = some s₀)
    (hok : Run.Meets kernelStep KernelOk ⟨s₀, []⟩ ops)
    (h : Run.run kernelStep ⟨s₀, []⟩ ops = some s) : s.Inv := by
  obtain ⟨hhalf, hslots⟩ := mmInit_inv hfit hclear hboot
  exact Run.run_invariant_of_meets (I := KernelRun.Inv) kernelStep_inv ⟨hhalf, hslots⟩ hok h

/-- In every run that calls `kmalloc` only while every live structure is in a block in use, the
upper half of each live PML4 is the kernel's, entry by entry, and translates as the kernel's. -/
theorem kernel_half_coherent (hhdm : ℕ) (img : KernelImage) (mmap : List MemmapEntry)
    (phys : PhysMem) (ops : List KernelOp) {s₀ : MmState} {s : KernelRun}
    (hfit : MemoryFits mmap) (hclear : BootClear (· = stackSlot) hhdm img mmap)
    (hboot : mmInit hhdm img mmap phys = some s₀)
    (hok : Run.Meets kernelStep KernelOk ⟨s₀, []⟩ ops)
    (h : Run.run kernelStep ⟨s₀, []⟩ ops = some s) :
    ∀ a ∈ s.live, s.mem.SharesHalf a ∧ ∀ va, 256 ≤ pml4Idx va →
      s.mem.leafEntry (s.mem.mms a).pml4Pa va = s.mem.leafEntry s.mem.kernelPml4 va := by
  intro a ha
  have hshare := (run_inv hfit hclear hboot hok h).half.shares a ha
  exact ⟨hshare, fun va hva => hshare.leafEntry hva⟩

def bootState : Option MmState :=
  mmInit 0xFFFF800000000000 ⟨0xFFFFFFFF80000000, 0, 0⟩ bootMmap fun _ _ => 0#64

theorem bootClear_bootMmap :
    BootClear (· = stackSlot) 0xFFFF800000000000 ⟨0xFFFFFFFF80000000, 0, 0⟩ bootMmap :=
  ⟨by decide, by decide +kernel, by decide⟩

def kernelOps : List KernelOp :=
  [.mmAlloc, .mmAlloc, .kstackInit 0x4000, .mmMapRange firstMm 0x400100 0x1000 vmWrite,
    .mmCopy secondMm firstMm, .kstackFree 0xFFFFB00000006000, .kheapExpand 1, .mmFree secondMm]

theorem kernel_half_coherent_bootMmap :
    ∃ s₀ s, bootState = some s₀ ∧ Run.run kernelStep ⟨s₀, []⟩ kernelOps = some s
      ∧ s.live = [firstMm] ∧ s.mem.SharesHalf firstMm := by
  have hrun : (bootState.bind fun s₀ => (Run.run kernelStep ⟨s₀, []⟩ kernelOps).map fun s =>
      (s.live, decide (Run.Meets kernelStep KernelOk ⟨s₀, []⟩ kernelOps)))
        = some ([firstMm], true) := by
    decide +kernel
  obtain ⟨s₀, hs₀, hrun⟩ := Option.bind_eq_some_iff.mp hrun
  obtain ⟨s, hs, hlive⟩ := Option.map_eq_some_iff.mp hrun
  obtain ⟨hlive, hok⟩ := Prod.mk.inj hlive
  refine ⟨s₀, s, hs₀, hs, hlive, ?_⟩
  exact (kernel_half_coherent 0xFFFF800000000000 ⟨0xFFFFFFFF80000000, 0, 0⟩ bootMmap
    (fun _ _ => 0#64) kernelOps (by unfold MemoryFits; decide) bootClear_bootMmap hs₀
    (of_decide_eq_true hok) hs firstMm (by simp [hlive])).1

/-- An address space handed out twice loses its kernel half with the first release. -/
theorem live_mm_loses_kernel_half :
    ∃ s₀ s, bootState = some s₀
      ∧ Run.run kernelStep ⟨s₀, []⟩ [.mmAlloc, .mmAlloc, .mmFree firstMm, .mmAlloc, .mmAlloc,
        .mmFree secondMm, .mmFree firstMm, .mmMapRange secondMm 0x400000 0x1000 vmWrite] = some s
      ∧ secondMm ∈ s.live ∧ ¬ s.mem.SharesHalf secondMm := by
  have hrun : (bootState.bind fun s₀ => (Run.run kernelStep ⟨s₀, []⟩ [.mmAlloc, .mmAlloc,
      .mmFree firstMm, .mmAlloc, .mmAlloc, .mmFree secondMm, .mmFree firstMm,
      .mmMapRange secondMm 0x400000 0x1000 vmWrite]).map fun s => (decide (secondMm ∈ s.live),
        decide (s.mem.phys (s.mem.mms secondMm).pml4Pa heapSlot
          = s.mem.phys s.mem.kernelPml4 heapSlot))) = some (true, false) := by
    decide +kernel
  obtain ⟨s₀, hs₀, hrun⟩ := Option.bind_eq_some_iff.mp hrun
  obtain ⟨s, hs, hrun⟩ := Option.map_eq_some_iff.mp hrun
  obtain ⟨hlive, hne⟩ := Prod.mk.inj hrun
  refine ⟨s₀, s, hs₀, hs, of_decide_eq_true hlive, fun h => ?_⟩
  exact of_decide_eq_false hne (h heapSlot (by simp [heapSlot]) (by simp [heapSlot]))

end SudoOS
