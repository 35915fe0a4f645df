import SudoOS.Proofs.DeepCopy
import SudoOS.Proofs.Supply

/-!
# What the copy of an address space needs

`mm_copy` maps and copies one area after the other. A page is copied wherever it has been mapped
(`copyRange_data`), so the copy succeeds exactly if no area is empty and there are blocks, frames
and tables for them all, which shows before the first (`mmCopyLoop_supplied`). For the address space
that `mm_alloc` has yet to make it shows in the kernel's tables (`KMem.newTables`).
-/

namespace SudoOS

/-! ## One area -/

/-- The pages of an area. -/
def VmaStruct.pages (v : VmaStruct) : List ℕ :=
  pagesFrom v.vmStart 0 (Kernel.pageCount v.vmStart v.vmEnd)

/-- An area ends at pages, as `mm_map_range` makes it. -/
structure VmaStruct.PageAligned (v : VmaStruct) : Prop where
  start : 4096 ∣ v.vmStart
  stop : 4096 ∣ v.vmEnd
  start_lt : v.vmStart < 2 ^ 64
  stop_lt : v.vmEnd < 2 ^ 64

section Area

variable {v : VmaStruct}

theorem VmaStruct.PageAligned.size_eq_zero (h : v.PageAligned) :
    u64Sub v.vmEnd v.vmStart = 0 ↔ v.vmStart = v.vmEnd := by
  have := h.start_lt
  unfold u64Sub
  split_ifs <;> omega

/-- The copy asks for the same pages. -/
theorem VmaStruct.PageAligned.rangePages (h : v.PageAligned) :
    rangePages v.vmStart (u64Sub v.vmEnd v.vmStart) = v.pages := by
  have h1 := h.start_lt
  have h2 := h.stop_lt
  have hend : u64 (v.vmStart + u64Sub v.vmEnd v.vmStart) = v.vmEnd := by
    unfold u64 u64Sub
    split_ifs <;> omega
  unfold SudoOS.rangePages VmaStruct.pages
  rw [hend, alignDown_of_dvd h1 h.start, alignUp_of_dvd h2 h.stop]

/-- The loop of the copy goes through pages of the area. -/
theorem VmaStruct.PageAligned.rounds_le (h : v.PageAligned) :
    v.rounds ≤ Kernel.pageCount v.vmStart v.vmEnd := by
  obtain ⟨⟨a, ha⟩, ⟨b, hb⟩, -, -⟩ := h
  unfold VmaStruct.rounds Kernel.pageCount u64Sub pageSize
  split_ifs <;> omega

theorem VmaStruct.PageAligned.pages_ne_nil (h : v.PageAligned) (hne : v.vmStart ≠ v.vmEnd) :
    v.pages ≠ [] := by
  obtain ⟨⟨a, ha⟩, ⟨b, hb⟩, h1, h2⟩ := h
  have hpos : Kernel.pageCount v.vmStart v.vmEnd ≠ 0 := by
    unfold Kernel.pageCount u64Sub pageSize
    split_ifs <;> omega
  intro hc
  have hlen := congrArg List.length hc
  simp only [VmaStruct.pages, pagesFrom, List.length_map, List.length_range', List.length_nil]
    at hlen
  exact hpos hlen

end Area

/-! ## Copying its pages -/

section Copying

variable {old : Pmm} {m : Machine} {dst src : ℕ}

/-- A page is copied, unless it has no table in the destination or the source. -/
theorem copyPte_data (src : ℕ) {va : ℕ} (hI : MapInv dst m) (h0 : old.Busy 0)
    (hown : m.OwnPages old dst [va]) :
    ∃ m', m.copyPte dst src va = (true, m') ∧ DataStep old dst m m' := by
  unfold Machine.copyPte
  rw [vmmGetPte_eq m src, vmmGetPte_eq m dst]
  rcases m.table src (tablePath va) with _ | spt
  · exact ⟨m, rfl, DataStep.refl m⟩
  rcases hdpt : m.table dst (tablePath va) with _ | dpt
  · exact ⟨m, rfl, DataStep.refl m⟩
  obtain ⟨hfree, hno⟩ := hown va (List.mem_singleton_self va)
    (pteGetAddr (m.phys dpt (ptIdx va))) (by rw [Machine.entryAt, hdpt, Option.map_some])
  have hne : pteGetAddr (m.phys dpt (ptIdx va)) ≠ 0 := fun hc => hfree (hc ▸ h0)
  dsimp only [Option.map_some]
  split_ifs with hpr
  · generalize hph : m.phys.copyPage (pteGetAddr (m.phys dpt (ptIdx va)))
      (pteGetAddr (m.phys spt (ptIdx va))) = ph
    have hpage : DataStep old dst m { m with phys := ph } :=
      DataStep.page (fun x j hx => by rw [← hph]; exact if_neg hx) hfree hno
    have hdpt' := (hpage.tables _ (tablePath_ok va)).trans hdpt
    refine ⟨_, rfl, hpage.trans (DataStep.flags (hpage.mapInv hI) hdpt' ?_)⟩
    · have htable : dpt ≠ pteGetAddr (m.phys dpt (ptIdx va)) := fun hc =>
        hno _ (tablePath_ok va) (hdpt.trans (congrArg some hc))
      rw [(copiedEntry _ _).1]
      dsimp only
      rw [← hph, PhysMem.copyPage, if_neg htable]
  · exact ⟨m, rfl, DataStep.refl m⟩

theorem copyRange_data (start : ℕ) (h0 : old.Busy 0) : ∀ (n i : ℕ) {m : Machine}, MapInv dst m →
    m.OwnPages old dst (pagesFrom start i n) →
    ∃ m', Machine.copyRange dst src n (u64 (start + i * pageSize)) m = (true, m')
      ∧ DataStep old dst m m'
  | 0, i, m, _, _ => ⟨m, rfl, DataStep.refl m⟩
  | n + 1, i, m, hI, hown => by
    rw [pagesFrom_succ] at hown
    obtain ⟨m₁, he, hone⟩ := copyPte_data src hI h0 fun va hva =>
      hown va (List.mem_cons.mpr (.inl (List.mem_singleton.mp hva)))
    obtain ⟨m₂, he', hrest⟩ := copyRange_data start h0 n (i + 1) (hone.mapInv hI)
      (hone.ownPages fun va hva => hown va (List.mem_cons_of_mem _ hva))
    refine ⟨m₂, ?_, hone.trans hrest⟩
    unfold Machine.copyRange
    rw [he]
    dsimp only
    rw [u64_page]
    exact he'

/-- The pages of an area are copied wherever they have been mapped. -/
theorem copyArea_data (src : ℕ) {v : VmaStruct} (hv : v.PageAligned) (h0 : old.Busy 0)
    (hI : MapInv dst m) (hown : m.OwnPages old dst v.pages) :
    ∃ m', Machine.copyRange dst src v.rounds v.vmStart m = (true, m') ∧ DataStep old dst m m' := by
  have hsub : pagesFrom v.vmStart 0 v.rounds ⊆ v.pages := by
    obtain ⟨l, hl⟩ := Nat.exists_eq_add_of_le hv.rounds_le
    rw [VmaStruct.pages, hl, pagesFrom_append]
    exact List.subset_append_left _ _
  have hstart : u64 (v.vmStart + 0 * pageSize) = v.vmStart := by
    rw [Nat.zero_mul, Nat.add_zero, u64_of_lt hv.start_lt]
  rw [← hstart]
  exact copyRange_data v.vmStart h0 v.rounds 0 hI fun va hva => hown va (hsub hva)

end Copying

/-! ## All areas -/

section Loop

variable {k : KMem} {K K' : Kernel} {pml4 dst src mm va size : ℕ} {vmFlags : BitVec 64}
  {sizes vas : List ℕ} {ok : Bool}

theorem mapEach_freePages (flags : BitVec 64) : ∀ (vas : List ℕ) (m : Machine),
    (Machine.mapEach pml4 flags vas m).2.pmm.freePages ≤ m.pmm.freePages
  | [], _ => le_rfl
  | va :: vas, m => by
    rw [Machine.mapEach]
    split_ifs with h0
    · exact (Pmm.pmmAllocPage_freePages m.pmm).1
    · exact (mapEach_freePages flags vas _).trans (mapNext_freePages m pml4 va flags h0).le

/-- A new area is none of those there are. -/
theorem mmMapRange_keeps (hI : K.toKMem.HeapInv)
    (h : K.mmMapRange mm va size vmFlags = some (true, K')) :
    K'.toKMem.HeapInv ∧ (K'.mms mm).pml4Pa = (K.mms mm).pml4Pa
      ∧ ∀ a, Holds K.heap.kheapList a → Holds K'.heap.kheapList a ∧ K'.vmas a.1 = K.vmas a.1 := by
  obtain ⟨-, -, vma, km, m', hkm, hv, hm, rfl⟩ := mmMapRange_true_iff.mp h
  obtain ⟨hkm', hext, hal⟩ := KMem.kmallocLoop_spec hI hkm
  refine ⟨⟨hkm'.tiles, ?_⟩, ?_, fun a ha => ⟨hext.holds a ha, ?_⟩⟩
  · have hroom := hkm'.room
    have hle : (Machine.mapEach (K.mms mm).pml4Pa (pteFlagsOf vmFlags) (rangePages va size)
        km.toMachine).2.pmm.freePages ≤ km.pmm.freePages :=
      mapEach_freePages _ _ _
    rw [show Machine.mapEach _ _ (rangePages va size) _ = (true, m') from hm] at hle
    unfold pageSize at hroom ⊢
    dsimp only at hle ⊢
    change km.heap.kheapTop + _ < _
    omega
  · dsimp only
    rw [Kernel.linkVma_mms, if_pos rfl]
  · exact Function.update_of_ne ((hal (by decide) hv).fresh a ha) _ _

/-- Without a frame no page is mapped. -/
theorem mmMapRange_no_frame (hI : K.toKMem.HeapInv) (hfree : K.pmm.freePages = 0)
    (hne : rangePages va size ≠ []) (h : K.mmMapRange mm va size vmFlags = some (ok, K')) :
    ok = false := by
  by_contra hc
  rw [eq_true_of_ne_false hc] at h
  obtain ⟨-, -, vma, km, m', hkm, -, hm, -⟩ := mmMapRange_true_iff.mp h
  have hle := (KMem.kmallocLoop_spec hI hkm).2.1.frames
  have hlen := List.length_pos_iff.mpr hne
  have hshort : km.pmm.freePages < (rangePages va size).length := by omega
  cases (congrArg Prod.fst hm).symm.trans (mapEach_of_length hshort)

theorem mmCopyLoop_no_frame {v : ℕ} {vs : List ℕ} (hI : K.toKMem.HeapInv)
    (hfree : K.pmm.freePages = 0) (hv : (K.vmas v).PageAligned)
    (h : Kernel.mmCopyLoop dst src (v :: vs) K = some (ok, K')) : ok = false := by
  unfold Kernel.mmCopyLoop at h
  rcases hmap : K.mmMapRange dst (K.vmas v).vmStart (u64Sub (K.vmas v).vmEnd (K.vmas v).vmStart)
    (K.vmas v).vmFlags with _ | ⟨ok₁, K₁⟩ <;> rw [hmap] at h
  · cases h
  obtain rfl : ok₁ = false := by
    by_cases hs : u64Sub (K.vmas v).vmEnd (K.vmas v).vmStart = 0
    · unfold Kernel.mmMapRange at hmap
      rw [if_pos (.inr hs)] at hmap
      exact (Prod.mk.inj (Option.some.inj hmap)).1.symm
    · refine mmMapRange_no_frame hI hfree ?_ hmap
      rw [hv.rangePages]
      exact hv.pages_ne_nil fun hc => hs (hv.size_eq_zero.mpr hc)
  exact (Prod.mk.inj (Option.some.inj h)).1.symm

/-- The areas of the list, after `vas`. -/
def Kernel.pagesOf (k : Kernel) (vs : List ℕ) : List ℕ := vs.flatMap fun v => (k.vmas v).pages

/-- The copy of the areas succeeds exactly if none is empty and what they need is there. -/
theorem mmCopyLoop_supplied (hI : MapInv pml4 k.toMachine) (hsh : k.HeapShared pml4)
    (hd : dst ≠ 0) : ∀ {vs : List ℕ} {K K' : Kernel} {sizes vas : List ℕ} {ok : Bool},
      k.Spent pml4 K.toKMem sizes vas → (K.mms dst).pml4Pa = pml4 →
      (∀ v ∈ vs, (K.vmas v).PageAligned ∧ Holds K.heap.kheapList (v, vmaStructSize)) →
      Kernel.mmCopyLoop dst src vs K = some (ok, K') →
      (ok = true ↔ (∀ v ∈ vs, (K.vmas v).vmStart ≠ (K.vmas v).vmEnd)
        ∧ k.Supplies pml4 (sizes ++ vs.map fun _ => vmaStructSize) vas (K.pagesOf vs))
  | [], K, K', sizes, vas, ok, hS, _, _, h => by
    simp only [Kernel.mmCopyLoop, Option.some.injEq, Prod.mk.injEq] at h
    simpa [h.1.symm, Kernel.pagesOf] using hS.supplies
  | v :: vs, K, K', sizes, vas, ok, hS, hpml4, hvs, h => by
    obtain ⟨halign, hheld⟩ := hvs v List.mem_cons_self
    unfold Kernel.mmCopyLoop at h
    rcases hmap : K.mmMapRange dst (K.vmas v).vmStart (u64Sub (K.vmas v).vmEnd (K.vmas v).vmStart)
      (K.vmas v).vmFlags with _ | ⟨ok₁, K₁⟩ <;> rw [hmap] at h
    · cases h
    rw [List.forall_mem_cons, Kernel.pagesOf, List.flatMap_cons, List.map_cons]
    change _ ↔ _ ∧ k.Supplies pml4 _ vas ((K.vmas v).pages ++ K.pagesOf vs)
    have hpagesOf : ∀ {w : ℕ} {ws : List ℕ}, (K.vmas w).PageAligned →
        (K.vmas w).vmStart ≠ (K.vmas w).vmEnd → K.pagesOf (w :: ws) ≠ [] := fun hw hne => by
      rw [Kernel.pagesOf, List.flatMap_cons]
      exact List.append_ne_nil_of_left_ne_nil (hw.pages_ne_nil hne) _
    by_cases hempty : (K.vmas v).vmStart = (K.vmas v).vmEnd
    -- An empty area is refused.
    · unfold Kernel.mmMapRange at hmap
      rw [if_pos (.inr (halign.size_eq_zero.mpr hempty))] at hmap
      obtain ⟨rfl, rfl⟩ := Prod.mk.inj (Option.some.inj hmap)
      obtain ⟨rfl, -⟩ := Prod.mk.inj (Option.some.inj h)
      exact ⟨fun hc => (by cases hc), fun hc => absurd hempty hc.1.1⟩
    obtain ⟨hok, hpages, hall⟩ := hS.mmMapRange hd hpml4
      (fun hc => hempty (halign.size_eq_zero.mp hc)) hmap
    rw [halign.rangePages] at hok hpages hall
    cases ok₁ with
    | false =>
      obtain ⟨rfl, -⟩ := Prod.mk.inj (Option.some.inj h)
      refine ⟨fun hc => (by cases hc), fun hsup => absurd (hok.mpr ?_) (by decide)⟩
      rw [List.append_cons] at hsup
      exact hsup.2.first
    | true =>
      obtain ⟨hinv, hown⟩ := hpages rfl
      obtain ⟨hheap, hroot, hkeep⟩ := mmMapRange_keeps hS.heapInv hmap
      have hvma : K₁.vmas v = K.vmas v := (hkeep _ hheld).2
      obtain ⟨m, hcopy, hdata⟩ := copyArea_data (K₁.mms src).pml4Pa halign hI.zero hinv
        hown
      dsimp only at h
      rw [hroot, hpml4, hvma, hcopy] at h
      have hvs' : ∀ w ∈ vs, K₁.vmas w = K.vmas w ∧ (K₁.vmas w).PageAligned
          ∧ Holds K₁.heap.kheapList (w, vmaStructSize) := fun w hw => by
        obtain ⟨hw1, hw2⟩ := hvs w (List.mem_cons_of_mem _ hw)
        obtain ⟨hw3, hw4⟩ := hkeep _ hw2
        exact ⟨hw4, hw4.symm ▸ hw1, hw3⟩
      have hsame : K₁.pagesOf vs = K.pagesOf vs :=
        List.flatMap_congr fun w hw => by rw [(hvs' w hw).1]
      rcases hall with ⟨hfull, hspent, -⟩ | ⟨hpart, hzero⟩
      · have ih := mmCopyLoop_supplied hI hsh hd (K := { K₁ with toMachine := m })
          (hspent.data (m := m) hI hsh hdata) (hroot.trans hpml4) (fun w hw => (hvs' w hw).2) h
        change _ ↔ (∀ w ∈ vs, (K₁.vmas w).vmStart ≠ (K₁.vmas w).vmEnd)
          ∧ k.Supplies pml4 _ _ (K₁.pagesOf vs) at ih
        rw [hsame, ← List.append_cons] at ih
        have hne : (∀ w ∈ vs, (K₁.vmas w).vmStart ≠ (K₁.vmas w).vmEnd)
            ↔ ∀ w ∈ vs, (K.vmas w).vmStart ≠ (K.vmas w).vmEnd :=
          forall₂_congr fun w hw => by rw [(hvs' w hw).1]
        rw [ih, hne, and_assoc, and_iff_right hempty]
        refine and_congr_right fun hall => ?_
        rcases vs with _ | ⟨w, vs⟩
        · exact ⟨fun _ => by simpa [Kernel.pagesOf] using hfull.of_all, fun _ => hfull⟩
        · exact KMem.supplies_append_iff (hpagesOf (hvs w (by simp)).1 (hall w (by simp)))
      -- No frame is left for another area.
      · rcases vs with _ | ⟨w, vs⟩
        · simp only [Kernel.mmCopyLoop, Option.some.injEq, Prod.mk.injEq] at h
          refine ⟨fun _ => ⟨⟨hempty, by simp⟩, ?_⟩, fun _ => h.1.symm⟩
          simpa [Kernel.pagesOf] using hok.mp rfl
        · have hfree : m.pmm.freePages = 0 := hdata.pmm ▸ (hzero rfl).1
          obtain rfl := mmCopyLoop_no_frame (K := { K₁ with toMachine := m })
            ⟨hheap.tiles, hdata.pmm ▸ hheap.room⟩ hfree (hvs' w List.mem_cons_self).2.1 h
          refine ⟨fun hc => (by cases hc), fun hsup => absurd ?_ hpart⟩
          have hne : K.pagesOf (w :: vs) ≠ [] :=
            hpagesOf (hvs w (by simp)).1 (hsup.1.2 w (by simp))
          rw [List.append_cons, ← KMem.supplies_append_iff hne] at hsup
          exact hsup.2.mono (by simp) (by simp)

end Loop

/-! ## A new address space -/

namespace KMem

/-- The tables on the way to a page that a new address space will not have: all in the user half,
where its PML4 is empty, and in the kernel half those that the kernel has not. -/
def newMissing (k : KMem) (va : ℕ) : Finset (List ℕ) :=
  if pml4Idx va < 256 then (tablePath va).inits.toFinset.erase []
  else k.missingPaths k.kernelPml4 va

/-- The tables that a new address space needs for these pages. -/
def newTables (k : KMem) (vas : List ℕ) : Finset (List ℕ) := vas.toFinset.biUnion k.newMissing

/-- There are blocks of these sizes, a frame for the PML4 of a new address space, and frames and
tables for the pages that the heap grows by and for the pages `ws` of the new address space, so many
that no missing one is noticed. -/
def SuppliesNew (k : KMem) (sizes ws : List ℕ) : Prop :=
  match k.heap.serves sizes with
  | none => False
  | some (n, _) => 1 + (k.heapPages n ++ ws).length
      + (k.newTables (k.heapPages n ++ ws.dropLast)).card ≤ k.pmm.freePages

instance (k : KMem) (sizes ws : List ℕ) : Decidable (k.SuppliesNew sizes ws) := by
  unfold SuppliesNew
  rcases k.heap.serves sizes with _ | ⟨n, heap⟩
  · exact inferInstanceAs (Decidable False)
  · exact inferInstanceAs (Decidable (_ ≤ _))

end KMem

section NewSpace

variable {m : Machine} {pml4 : ℕ}

theorem newPml4_table_of_busy (h : MapInv pml4 m) (h0 : (m.pmm.pmmAllocPage).1 ≠ 0) {p : List ℕ}
    (hp : TablePath p) : (m.newPml4 pml4).table pml4 p = m.table pml4 p := by
  have hv := ((Pmm.pmmAllocPage_spec h.pmm).2.2.2 h0).1
  refine table_congr (fun q a j hq ha _ => ?_) hp
  exact zeroPage_copyKernelHalf _ _ _ fun hc => hv.not_busy (hc ▸ h.tree.busy q a hq ha)

/-- The new address space has the tables of the kernel half. -/
theorem newPml4_table (h : MapInv pml4 m) (h0 : (m.pmm.pmmAllocPage).1 ≠ 0) {j : ℕ} {p : List ℕ}
    (hp : TablePath (j :: p)) :
    (m.newPml4 pml4).table (m.pmm.pmmAllocPage).1 (j :: p)
      = if j < 256 then none else m.table pml4 (j :: p) := by
  have hv := ((Pmm.pmmAllocPage_spec h.pmm).2.2.2 h0).1
  have hne : pml4 ≠ (m.pmm.pmmAllocPage).1 := fun hc => hv.not_busy (hc ▸ h.root_busy)
  have hlt := hp.2 j List.mem_cons_self
  split_ifs with hj
  · have hzero : tableChild (m.newPml4 pml4).phys (m.pmm.pmmAllocPage).1 j = none :=
      tableChild_zero (zeroPage_copyKernelHalf_low _ _ _ hj)
    rw [Machine.table, Radix.walk, hzero, Option.bind_none]
  · rw [← newPml4_table_of_busy h h0 hp]
    have hword : (m.newPml4 pml4).phys (m.pmm.pmmAllocPage).1 j = (m.newPml4 pml4).phys pml4 j := by
      refine (zeroPage_copyKernelHalf_high _ _ _ (by omega) hlt hne).trans ?_
      exact (zeroPage_copyKernelHalf _ _ _ hne).symm
    simp only [Machine.table, Radix.walk, tableChild, hword]

theorem newPml4_mapInv (h : MapInv pml4 m) (h0 : (m.pmm.pmmAllocPage).1 ≠ 0) :
    MapInv (m.pmm.pmmAllocPage).1 (m.newPml4 pml4) := by
  obtain ⟨a1, a2, a3, a4⟩ := Pmm.pmmAllocPage_spec h.pmm
  obtain ⟨hv, hbusy⟩ := a4 h0
  have hold : ∀ {j p n}, TablePath (j :: p) →
      (m.newPml4 pml4).table (m.pmm.pmmAllocPage).1 (j :: p) = some n →
      m.table pml4 (j :: p) = some n := fun hp hn => by
    rw [newPml4_table h h0 hp] at hn
    split_ifs at hn
    exact hn
  have hother : ∀ {j p n}, TablePath (j :: p) →
      (m.newPml4 pml4).table (m.pmm.pmmAllocPage).1 (j :: p) = some n →
      n ≠ (m.pmm.pmmAllocPage).1 := fun hp hn hc =>
    hv.not_busy (hc ▸ h.tree.busy _ _ hp (hold hp hn))
  refine ⟨a1, a2 ▸ h.width, a3 0 h.zero, ⟨?_, ?_⟩⟩
  · rintro (_ | ⟨i, p⟩) (_ | ⟨j, q⟩) n hp hq h1 h2
    · rfl
    · exact absurd (Option.some.inj h1).symm (hother hq h2)
    · exact absurd (Option.some.inj h2).symm (hother hp h1)
    · exact h.tree.tree _ _ n hp hq (hold hp h1) (hold hq h2)
  · rintro (_ | ⟨i, p⟩) n hp hn
    · exact (hbusy n).mpr (.inr (Option.some.inj hn).symm)
    · exact a3 n (h.tree.busy _ n hp (hold hp hn))

end NewSpace

namespace KMem

/-- The kernel's PML4 has the entries for what the heap may still grow by. -/
def HeapEntries (k : KMem) : Prop :=
  ∀ va, k.heap.kheapTop ≤ va → va < k.heap.kheapTop + pageSize * k.pmm.freePages →
    isPresent (k.phys k.kernelPml4 (pml4Idx va)) = true

section NewSpace

variable {k k' : KMem} {sizes vas ws : List ℕ} {n : ℕ}

theorem Spent.start (h : k.HeapInv) (hI : MapInv k.kernelPml4 k.toMachine) :
    k.Spent k.kernelPml4 k [] [] :=
  Spent.nil h hI ⟨hI.root_busy, fun _ hp h0 => hI.root_apart hp h0, fun _ _ _ => .inl rfl⟩

theorem newTables_append (k : KMem) (vas ws : List ℕ) :
    k.newTables (vas ++ ws) = k.newTables vas ∪ k.newTables ws := by
  rw [newTables, List.toFinset_append, Finset.union_biUnion, newTables, newTables]

/-- The pages of the heap are in the kernel half. -/
theorem heapPages_high (h : k.HeapInv) (hn : k.heap.kheapTop + n * pageSize < 2 ^ 64) :
    ∀ va ∈ k.heapPages n, ¬ pml4Idx va < 256 := by
  intro va hva
  have hbase : kernelHeapBase ≤ k.heap.kheapTop := h.tiles.le
  obtain ⟨j, hj, rfl⟩ := List.mem_map.mp hva
  have hj := (List.mem_range'_1.mp hj).2
  have hle : j * pageSize ≤ n * pageSize := Nat.mul_le_mul_right _ (by omega)
  unfold kernelHeapBase at hbase
  rw [u64_of_lt (by omega), pml4Idx_eq]
  omega

theorem newTables_high (h : ∀ va ∈ vas, ¬ pml4Idx va < 256) :
    k.newTables vas = k.missingFor k.kernelPml4 vas :=
  Finset.biUnion_congr rfl fun va hva => if_neg (h va (List.mem_toFinset.mp hva))

/-- After `mm_alloc` a page lacks the tables that a new address space was to lack, less those that
the heap has been given since. -/
theorem newPml4_missing (hI : MapInv k.kernelPml4 k'.toMachine)
    (hm : ∀ w, k'.missingPaths k.kernelPml4 w
      = k.missingPaths k.kernelPml4 w \ k.missingFor k.kernelPml4 vas)
    (hhigh : ∀ va ∈ vas, ¬ pml4Idx va < 256) (h0 : (k'.pmm.pmmAllocPage).1 ≠ 0) (va : ℕ) :
    (k'.toMachine.newPml4 k.kernelPml4).missingPaths (k'.pmm.pmmAllocPage).1 va
      = k.newMissing va \ k.missingFor k.kernelPml4 vas := by
  ext p
  rw [Finset.mem_sdiff, mem_missingPaths]
  rcases p with _ | ⟨j, q⟩
  · have hroot : (k'.toMachine.newPml4 k.kernelPml4).table (k'.pmm.pmmAllocPage).1 [] ≠ none := by
      simp [Machine.table, Radix.walk]
    have hnil : [] ∉ k.newMissing va := by
      unfold newMissing
      split_ifs
      · simp
      · simp [mem_missingPaths, Machine.table, Radix.walk]
    exact ⟨fun hc => absurd hc.2 hroot, fun hc => absurd hc.1 hnil⟩
  by_cases hpre : j :: q <+: tablePath va
  · have hj : j = pml4Idx va := by
      rw [tablePath] at hpre
      exact (List.cons_prefix_cons.mp hpre).1
    rw [newPml4_table hI h0 (tablePath_of_initial hpre)]
    unfold newMissing
    by_cases hlow : j < 256
    · rw [if_pos hlow, if_pos (hj ▸ hlow)]
      refine ⟨fun _ => ⟨by simpa using hpre, fun hc => ?_⟩, fun _ => ⟨hpre, rfl⟩⟩
      obtain ⟨w, hw, hpw⟩ := mem_missingFor.mp hc
      have hjw := (mem_missingPaths.mp hpw).1
      rw [tablePath] at hjw
      exact hhigh w hw ((List.cons_prefix_cons.mp hjw).1 ▸ hlow)
    · rw [if_neg hlow, if_neg (hj ▸ hlow), ← Finset.mem_sdiff, ← hm, mem_missingPaths]
  · refine ⟨fun hc => absurd hc.1 hpre, fun hc => absurd ?_ hpre⟩
    have hmem := hc.1
    unfold newMissing at hmem
    split_ifs at hmem
    · simpa using hmem
    · exact (mem_missingPaths.mp hmem).1

/-- What the state before says of a new address space, the new one says of itself. -/
theorem Spent.suppliesNew_iff (hk : k.HeapInv) (h : k.Spent k.kernelPml4 k' sizes [])
    (h0 : (k'.pmm.pmmAllocPage).1 ≠ 0) (more ws : List ℕ) :
    Supplies { k' with toMachine := k'.toMachine.newPml4 k.kernelPml4 } (k'.pmm.pmmAllocPage).1
        more [] ws
      ↔ k.SuppliesNew (sizes ++ more) ws := by
  obtain ⟨n, hn, htop, hm⟩ := h.paid
  have hfrm := hm.frames
  rw [List.append_nil] at hfrm hm
  have hlt : k.heap.kheapTop + n * pageSize < 2 ^ 64 := htop ▸ h.heapInv.top_lt
  have hhigh := heapPages_high hk hlt
  have hfree := (Pmm.pmmAllocPage_exact hm.inv.pmm hm.inv.zero).resolve_left
    fun hc => h0 (by rw [hc.2])
  unfold Supplies SuppliesNew
  rw [Heap.serves_append, hn]
  dsimp only [Option.bind_some]
  rcases hs : k'.heap.serves more with _ | ⟨n', heap⟩
  · rfl
  dsimp only [Option.map_some]
  have hpages : heapPages { k' with toMachine := k'.toMachine.newPml4 k.kernelPml4 } n'
      = pagesFrom k.heap.kheapTop n n' := by
    rw [heapPages]
    dsimp only
    rw [htop, ← pagesFrom_shift, Nat.zero_add]
  have hmissing : ∀ vas : List ℕ,
      (k'.toMachine.newPml4 k.kernelPml4).missingFor (k'.pmm.pmmAllocPage).1 vas
        = k.newTables vas \ k.missingFor k.kernelPml4 (k.heapPages n) := by
    intro vas
    rw [Machine.missingFor, newTables, Finset.biUnion_congr rfl fun va _ =>
      newPml4_missing hm.inv hm.missing hhigh h0 va]
    ext p
    simp only [Finset.mem_biUnion, Finset.mem_sdiff]
    tauto
  have hcard : (k.newTables (k.heapPages (n + n') ++ ws.dropLast)).card
      = (k.missingFor k.kernelPml4 (k.heapPages n)).card
        + (k.newTables (pagesFrom k.heap.kheapTop n n' ++ ws.dropLast)
          \ k.missingFor k.kernelPml4 (k.heapPages n)).card := by
    rw [heapPages_add, List.append_assoc, newTables_append, newTables_high hhigh,
      ← Finset.union_sdiff_self_eq_union, Finset.card_union_of_disjoint Finset.disjoint_sdiff]
  rw [hpages, List.append_nil, hmissing, hcard]
  change _ ≤ (k'.pmm.pmmAllocPage).2.freePages ↔ _
  rw [Machine.framesFor] at hfrm
  have hlen : (k.heapPages (n + n')).length = (k.heapPages n).length
      + (pagesFrom k.heap.kheapTop n n').length := by
    rw [heapPages_add, List.length_append]
  simp only [List.length_append, hlen]
  omega

theorem SuppliesNew.supplies (hk : k.HeapInv) (h : k.SuppliesNew sizes []) :
    k.Supplies k.kernelPml4 sizes [] [] := by
  unfold SuppliesNew at h
  unfold Supplies
  rcases hn : k.heap.serves sizes with _ | ⟨n, heap⟩ <;> rw [hn] at h
  · exact h
  simp only [List.append_nil, List.dropLast_nil] at h ⊢
  have hlen : (k.heapPages n).length = n := by simp [heapPages, pagesFrom]
  rw [newTables_high (heapPages_high hk ?_)] at h
  · omega
  · have hroom := hk.room
    unfold pageSize at hroom ⊢
    omega

/-- After the requests a frame is left for the PML4 exactly if that could be foreseen. -/
theorem Spent.suppliesNew (hk : k.HeapInv) (h : k.Spent k.kernelPml4 k' sizes []) :
    k.SuppliesNew sizes [] ↔ (k'.pmm.pmmAllocPage).1 ≠ 0 := by
  obtain ⟨n, hn, htop, hm⟩ := h.paid
  have hfrm := hm.frames
  have hlt : k.heap.kheapTop + n * pageSize < 2 ^ 64 := htop ▸ h.heapInv.top_lt
  rw [List.append_nil, Machine.framesFor] at hfrm
  unfold SuppliesNew
  rw [hn, Ne, hm.inv.alloc_eq_zero]
  dsimp only
  rw [List.append_nil, List.dropLast_nil, List.append_nil, newTables_high (heapPages_high hk hlt)]
  omega

/-- The new PML4 has the kernel's entries. -/
theorem Spent.newPml4_shared (hI : MapInv k.kernelPml4 k.toMachine) (hent : k.HeapEntries)
    (h : k.Spent k.kernelPml4 k' sizes []) (h0 : (k'.pmm.pmmAllocPage).1 ≠ 0) :
    HeapShared { k' with toMachine := k'.toMachine.newPml4 k.kernelPml4 }
      (k'.pmm.pmmAllocPage).1 := by
  obtain ⟨n, -, htop, hm⟩ := h.paid
  have hfrm := hm.frames
  obtain ⟨-, -, a3, a4⟩ := Pmm.pmmAllocPage_spec hm.inv.pmm
  have hv := (a4 h0).1
  have hfree := (Pmm.pmmAllocPage_freePages k'.pmm).1
  have hne : k.kernelPml4 ≠ (k'.pmm.pmmAllocPage).1 := fun hc => hv.not_busy (hc ▸ hm.inv.root_busy)
  refine ⟨a3 _ h.shared.busy, fun p hp hp0 => ?_, fun va hva hva' => .inr ?_⟩
  · obtain ⟨j, q, rfl⟩ := List.exists_cons_of_ne_nil hp0
    dsimp only
    rw [newPml4_table hm.inv h0 hp, h.root]
    split_ifs
    · simp
    · exact hm.inv.root_apart hp hp0
  · dsimp only at hva hva' ⊢
    change va < _ + pageSize * (k'.pmm.pmmAllocPage).2.freePages at hva'
    have hroom := h.heapInv.room
    have hbase : kernelHeapBase ≤ k'.heap.kheapTop := h.heapInv.tiles.le
    have hgrow : k.heap.kheapTop + pageSize * k.pmm.freePages
        ≥ k'.heap.kheapTop + pageSize * k'.pmm.freePages := by
      rw [List.append_nil, Machine.framesFor] at hfrm
      have hlen : (k.heapPages n).length = n := by simp [heapPages, pagesFrom]
      unfold pageSize at htop ⊢
      omega
    have hlt : va < k'.heap.kheapTop + pageSize * k'.pmm.freePages :=
      hva'.trans_le (Nat.add_le_add_left (Nat.mul_le_mul_left _ hfree) _)
    have hpr := hent va (by omega) (hlt.trans_le hgrow)
    have hword := hm.words k.kernelPml4 (pml4Idx va) hI.root_busy (fun _ => hI.root_apart) hpr
    obtain ⟨hlow, hhigh⟩ : 256 ≤ pml4Idx va ∧ pml4Idx va < 512 := by
      unfold kernelHeapBase at hbase
      rw [pml4Idx_eq]
      omega
    have hold : (k'.toMachine.newPml4 k.kernelPml4).phys k.kernelPml4 (pml4Idx va)
        = k'.phys k.kernelPml4 (pml4Idx va) := zeroPage_copyKernelHalf _ _ _ hne
    have hnew : (k'.toMachine.newPml4 k.kernelPml4).phys (k'.pmm.pmmAllocPage).1 (pml4Idx va)
        = k'.phys k.kernelPml4 (pml4Idx va) := zeroPage_copyKernelHalf_high _ _ _ hlow hhigh hne
    rw [h.root, hold, hnew, hword]
    exact ⟨rfl, hpr⟩

/-- An address space is made exactly if there are blocks and frames, and then it shares what the
heap may need. -/
theorem Spent.mmAlloc {K K' : Kernel} {mm : ℕ} (hI : MapInv k.kernelPml4 k.toMachine)
    (hk : k.HeapInv) (hent : k.HeapEntries)
    (h : k.Spent k.kernelPml4 K.toKMem sizes []) (hr : K.mmAlloc = some (mm, K')) :
    (mm ≠ 0 ↔ k.SuppliesNew (sizes ++ [mmStructSize]) [])
      ∧ (mm ≠ 0 → MapInv (K'.mms mm).pml4Pa K'.toMachine ∧ K'.HeapShared (K'.mms mm).pml4Pa
        ∧ K'.toKMem.HeapInv ∧ ∀ more ws, K'.Supplies (K'.mms mm).pml4Pa more [] ws
          ↔ k.SuppliesNew (sizes ++ [mmStructSize] ++ more) ws) := by
  unfold Kernel.mmAlloc at hr
  rcases hkm : K.kmalloc mmStructSize with _ | ⟨p, km⟩ <;> rw [hkm] at hr <;> dsimp only at hr
  · cases hr
  rcases h.kmalloc_cases (by decide) (by decide) hkm with ⟨hp, hspent, -⟩ | ⟨rfl, hno⟩
  · rw [if_neg hp] at hr
    change (if (km.pmm.pmmAllocPage).1 = 0 then _ else _) = _ at hr
    rw [hspent.suppliesNew hk]
    split_ifs at hr with h0 <;> obtain ⟨rfl, rfl⟩ := Prod.mk.inj (Option.some.inj hr)
    · exact ⟨⟨fun hc => absurd rfl hc, fun hc => absurd h0 hc⟩, fun hc => absurd rfl hc⟩
    · refine ⟨⟨fun _ => h0, fun _ => hp⟩, fun _ => ?_⟩
      rw [Kernel.setMm_self]
      have hshared := hspent.newPml4_shared hI hent h0
      rw [← hspent.root] at hshared
      refine ⟨?_, hshared, ⟨hspent.heapInv.tiles, ?_⟩, fun more ws => ?_⟩
      · have hnew := newPml4_mapInv hspent.mapInv h0
        rw [← hspent.root] at hnew
        exact hnew
      · have hroom := hspent.heapInv.room
        have hfree := (Pmm.pmmAllocPage_freePages km.pmm).1
        exact lt_of_le_of_lt (Nat.add_le_add_left (Nat.mul_le_mul_left _ hfree) _) hroom
      · have hiff := hspent.suppliesNew_iff hk h0 more ws
        rw [← hspent.root] at hiff
        exact hiff
  · rw [if_pos rfl] at hr
    obtain ⟨rfl, -⟩ := Prod.mk.inj (Option.some.inj hr)
    exact ⟨⟨fun hc => absurd rfl hc, fun hc => absurd (hc.supplies hk) hno⟩,
      fun hc => absurd rfl hc⟩

end NewSpace

end KMem

end SudoOS
