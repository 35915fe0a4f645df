import SudoOS.Proofs.Rights
import SudoOS.Proofs.Vmm

/-!
# The maps that `paging_init` builds

`paging_init` maps the kernel's image, then the direct map and the identity map of one entry of the
memory map after the other. It is one sequence of calls of `vmm_map_page` (`pagingInit_eq`), and
where no frame is missing a page is mapped as the last call for it says. So the three maps come out
as they are meant to be if no page is in two of them with different frames (`paging_init_maps`).
-/

namespace SudoOS

/-! ## Runs of calls -/

/-- No call of the sequence is short of a frame for a table. -/
def Machine.CallsGranted (pml4 : ℕ) : List (ℕ × ℕ) → Machine → Prop
  | [], _ => True
  | c :: cs, m => (m.nextTables true kernelFlags pml4 (tablePath c.1)).1 ≠ none
    ∧ CallsGranted pml4 cs (m.mapCall pml4 c)

instance Machine.CallsGranted.decidable (pml4 : ℕ) :
    (calls : List (ℕ × ℕ)) → (m : Machine) → Decidable (Machine.CallsGranted pml4 calls m)
  | [], _ => isTrue trivial
  | c :: cs, m =>
    have := Machine.CallsGranted.decidable pml4 cs (m.mapCall pml4 c)
    inferInstanceAs (Decidable (_ ∧ _))

/-- No allocation of `paging_init` fails. -/
def PagingGranted (hhdm : ℕ) (img : KernelImage) (mmap : List MemmapEntry) (m : Machine) : Prop :=
  (m.pmm.pmmAllocPage).1 ≠ 0
    ∧ m.clearPml4.CallsGranted (m.pmm.pmmAllocPage).1 (pagingCalls hhdm img mmap)

instance (hhdm : ℕ) (img : KernelImage) (mmap : List MemmapEntry) (m : Machine) :
    Decidable (PagingGranted hhdm img mmap m) := inferInstanceAs (Decidable (_ ∧ _))

/-- The tables of the kernel, of which every entry is present and writable. -/
structure KernelTables (pml4 : ℕ) (m : Machine) : Prop extends MapInv pml4 m where
  entries : TableEntries (LeadsTo kernelFlags) m pml4

/-- The entry for a page of the kernel. -/
def kernelEntry (pa : ℕ) : BitVec 64 := BitVec.ofNat 64 pa ||| kernelFlags

section Tables

variable {m : Machine} {pml4 va : ℕ}

/-- A granted call maps its page and leaves the others alone. -/
theorem KernelTables.call (h : KernelTables pml4 m) (c : ℕ × ℕ)
    (hg : (m.nextTables true kernelFlags pml4 (tablePath c.1)).1 ≠ none) :
    KernelTables pml4 (m.mapCall pml4 c)
      ∧ (m.mapCall pml4 c).leafEntry pml4 c.1 = some (kernelEntry c.2)
      ∧ ∀ va, leafPath va ≠ leafPath c.1 →
        (m.mapCall pml4 c).leafEntry pml4 va = m.leafEntry pml4 va := by
  have hroot : m.node (fun _ : Unit => some pml4) () [] = some pml4 := rfl
  have hshort := (nextTables_frames closed_tablePath kernelFlags_ok (tablePath c.1) m [] pml4
    h.owned h.zero hroot (tablePath_ok c.1)).2
  obtain ⟨m₁, hinv, hG, ⟨hlt, -, -⟩ | ⟨-, -, pt, hpt, he⟩⟩ :=
    vmmMapPage_split h.toMapInv kernelFlags_ok c.1 c.2
  · exact absurd (hshort hlt).1 hg
  unfold Machine.mapCall
  rw [he]
  refine ⟨⟨⟨hinv.pmm, hinv.width, hinv.zero,
    tableTree_setEntry hinv.tree (tablePath_ok c.1) rfl hpt⟩,
    tableEntries_setEntry hinv.tree (tablePath_ok c.1) rfl hpt
      (hG.tableEntries h.tree (fun e he => he) h.entries)⟩, ?_, fun va hne => ?_⟩
  · have hpt' := (table_setEntry (i := ptIdx c.1) (e := BitVec.ofNat 64 c.2 ||| kernelFlags)
      hinv.tree (tablePath_ok c.1) rfl hpt (tablePath_ok c.1)).trans hpt
    rw [leafEntry_of_some hpt', setEntry_phys_self, if_pos (isPresent_entry kernelFlags_ok)]
    rfl
  · rw [← he]
    exact vmmMapPage_other h.toMapInv kernelFlags_ok hne.symm c.2

/-- After a granted run of calls a page is as before if there was none for it, and mapped as they
say if they agree. -/
theorem KernelTables.calls : ∀ (calls : List (ℕ × ℕ)) {m : Machine}, KernelTables pml4 m →
    m.CallsGranted pml4 calls →
      KernelTables pml4 (calls.foldl (Machine.mapCall pml4) m)
      ∧ (∀ va, (∀ c ∈ calls, leafPath va ≠ leafPath c.1) →
        (calls.foldl (Machine.mapCall pml4) m).leafEntry pml4 va = m.leafEntry pml4 va)
      ∧ ∀ va pa, (∀ c ∈ calls, leafPath va = leafPath c.1 → c.2 = pa) →
        (m.leafEntry pml4 va = some (kernelEntry pa) ∨ ∃ c ∈ calls, leafPath va = leafPath c.1) →
          (calls.foldl (Machine.mapCall pml4) m).leafEntry pml4 va = some (kernelEntry pa)
  | [], m, h, _ => ⟨h, fun va _ => rfl, fun va pa _ hva => hva.resolve_right (by simp)⟩
  | c :: cs, m, h, ⟨hg, hgs⟩ => by
    obtain ⟨h₁, hself, hother⟩ := h.call c hg
    obtain ⟨h₂, hkeep, hset⟩ := KernelTables.calls cs h₁ hgs
    refine ⟨h₂, fun va hva => ?_, fun va pa hagree hva => hset va pa
      (fun d hd => hagree d (List.mem_cons_of_mem c hd)) ?_⟩
    · rw [List.foldl_cons, hkeep va fun d hd => hva d (List.mem_cons_of_mem c hd)]
      exact hother va (hva c List.mem_cons_self)
    · by_cases hc : leafPath va = leafPath c.1
      · left
        rw [leafEntry_of_leafPath hc, hself, hagree c List.mem_cons_self hc]
      · refine hva.imp (hother va hc).trans ?_
        rintro ⟨d, hd, hvd⟩
        exact ⟨d, (List.mem_cons.mp hd).resolve_left fun hdc => hc (hdc ▸ hvd), hvd⟩

/-- A page is writable, as the tables on its way are. -/
theorem KernelTables.effective (h : KernelTables pml4 m) {e : BitVec 64}
    (he : m.leafEntry pml4 va = some e) (hlead : LeadsTo kernelFlags e) :
    m.effective pml4 va = some ⟨true, false, false⟩ := by
  have hall : ∀ x ∈ m.walk pml4 (leafPath va), LeadsTo kernelFlags x := by
    intro x hx
    obtain ⟨q, i, n, hpre, hq, hpr, rfl⟩ := (mem_walk m).mp hx
    rcases List.prefix_concat_iff.mp hpre with heq | hpre
    · obtain ⟨rfl, hi⟩ := List.append_inj' heq rfl
      obtain rfl := List.singleton_inj.mp hi
      rw [leafEntry_of_some hq, if_pos hpr] at he
      exact Option.some.inj he ▸ hlead
    · exact h.entries q n i (tablePath_of_initial hpre) hq hpr
  have hmapped : m.effective pml4 va ≠ none := fun hc => by
    rw [effective_none_iff, he] at hc
    cases hc
  rw [effective_eq] at hmapped ⊢
  split_ifs at hmapped ⊢ with hlen
  · obtain ⟨x, hx⟩ := List.exists_mem_of_length_pos (l := m.walk pml4 (leafPath va)) (by omega)
    have hgranted : Rights.granted (m.walk pml4 (leafPath va)) = Rights.ofFlags kernelFlags :=
      (granted_eq_ofFlags (fun y (hy : y ∈ []) => absurd hy List.not_mem_nil)
        (fun y hy => .inr (hall y hy).ofFlags_eq) ⟨x, hx, (hall x hx).ofFlags_eq⟩).mpr
        fun y hy => absurd hy List.not_mem_nil
    rw [hgranted]
    decide
  · exact absurd rfl hmapped

/-- A cleared PML4 maps nothing. -/
theorem clearPml4_tables (hI : m.pmm.Inv) (hw : m.pmm.totalPages ≤ 2 ^ 40)
    (h0 : (m.pmm.pmmAllocPage).1 ≠ 0) : KernelTables (m.pmm.pmmAllocPage).1 m.clearPml4
      ∧ ∀ va, m.clearPml4.leafEntry (m.pmm.pmmAllocPage).1 va = none := by
  obtain ⟨hI', htotal, hkeep, hnew⟩ := Pmm.pmmAllocPage_spec hI
  have hbusy := (hnew h0).2
  have hzero : ∀ j, m.clearPml4.phys (m.pmm.pmmAllocPage).1 j = 0#64 := fun j => if_pos rfl
  have hroot : ∀ {q n}, m.clearPml4.table (m.pmm.pmmAllocPage).1 q = some n →
      q = [] ∧ n = (m.pmm.pmmAllocPage).1 := by
    intro q n hq
    rcases q with _ | ⟨i, q⟩
    · exact ⟨rfl, (Option.some.inj hq).symm⟩
    · rw [Machine.table, Radix.walk, tableChild_zero (hzero i)] at hq
      cases hq
  refine ⟨⟨⟨hI', htotal.trans_le hw, hkeep 0 (Pmm.pmmAllocPage_busy_zero hI h0),
    fun q q' n _ _ hq hq' => (hroot hq).1.trans (hroot hq').1.symm, fun q n _ hq => ?_⟩,
    fun q n i _ hq hpr => ?_⟩, fun va => leafEntry_of_none ?_⟩
  · rw [(hroot hq).2]
    exact (hbusy _).mpr (.inr rfl)
  · rw [(hroot hq).2, hzero] at hpr
    cases hpr
  · by_contra hc
    obtain ⟨n, hn⟩ := Option.ne_none_iff_exists'.mp hc
    cases (hroot hn).1

end Tables

/-! ## The three maps -/

/-- The page frame is one of the entry's, which is rounded outwards. -/
def MemmapEntry.Covers (e : MemmapEntry) (pa : ℕ) : Prop :=
  4096 ∣ pa ∧ e.base / 4096 * 4096 ≤ pa ∧ pa < (e.base + e.length + 4095) / 4096 * 4096

/-- The page frames that the direct map has. -/
def MappedFrame (mmap : List MemmapEntry) (pa : ℕ) : Prop :=
  ∃ e ∈ mmap, e.type.isMapped = true ∧ e.Covers pa

/-- The pages of the three maps, with their frames. -/
inductive Advertised (hhdm : ℕ) (img : KernelImage) (mmap : List MemmapEntry) : ℕ → ℕ → Prop
  | direct {pa : ℕ} : MappedFrame mmap pa → Advertised hhdm img mmap (pa + hhdm) pa
  | identity {pa : ℕ} : MappedFrame mmap pa → pa < 2 ^ 32 → Advertised hhdm img mmap pa pa
  | image {i : ℕ} : 4096 ∣ i → i < img.size →
      Advertised hhdm img mmap (img.virtualBase + i) (img.physicalBase + i)

/-- The pages of the three maps, and no others, are mapped, each writable and for the kernel. -/
structure MapsBuilt (hhdm : ℕ) (img : KernelImage) (mmap : List MemmapEntry) (pml4 : ℕ)
    (m : Machine) : Prop where
  mapped : ∀ va pa, Advertised hhdm img mmap va pa →
    m.frameAt pml4 va = some pa ∧ m.effective pml4 va = some ⟨true, false, false⟩
  others : ∀ va, Canonical va → 4096 ∣ va → m.leafEntry pml4 va ≠ none →
    ∃ pa, Advertised hhdm img mmap va pa

/-- The direct map in the upper half, and the kernel's image, have no page in common. -/
structure BootWindows (hhdm : ℕ) (img : KernelImage) (mmap : List MemmapEntry) : Prop where
  entries : ∀ e ∈ mmap, e.base + e.length ≤ 2 ^ 46
  hhdmAligned : 4096 ∣ hhdm
  hhdmUpper : 2 ^ 64 - 2 ^ 47 ≤ hhdm
  hhdmFits : ∀ pa, MappedFrame mmap pa → pa + hhdm < 2 ^ 64
  virtualAligned : 4096 ∣ img.virtualBase
  physicalAligned : 4096 ∣ img.physicalBase
  imageFits : img.virtualBase + img.size ≤ 2 ^ 64
  apart : ∀ pa, MappedFrame mmap pa → ∀ i < img.size, pa + hhdm ≠ img.virtualBase + i

/-- The image is at canonical addresses, in frames that an entry can name, and none of its pages is
identity-mapped to another frame. -/
structure BootLayout (hhdm : ℕ) (img : KernelImage) (mmap : List MemmapEntry) : Prop extends
    BootWindows hhdm img mmap where
  canonical : img.virtualBase + img.size ≤ 2 ^ 47 ∨ 2 ^ 64 - 2 ^ 47 ≤ img.virtualBase
  physicalFits : img.physicalBase + img.size ≤ 2 ^ 52
  identity : ∀ pa, MappedFrame mmap pa → pa < 2 ^ 32 → ∀ i < img.size,
    pa = img.virtualBase + i → pa = img.physicalBase + i

section Maps

variable {hhdm va va' pa pa' : ℕ} {img : KernelImage} {mmap : List MemmapEntry}

/-- The calls for the pages of a range, each `shift` above its frame. -/
theorem mem_pageCalls {start stop shift : ℕ} (hstart : 4096 ∣ start) (hstop : 4096 ∣ stop)
    (hlt : stop ≤ 2 ^ 46)
    (hfit : ∀ pa, 4096 ∣ pa → start ≤ pa → pa < stop → pa + shift < 2 ^ 64) :
    (va, pa) ∈ pageCalls (start + shift) start ((stop - start) / pageSize)
      ↔ (4096 ∣ pa ∧ start ≤ pa ∧ pa < stop) ∧ va = pa + shift := by
  simp only [pageCalls, List.mem_map, List.mem_range, Prod.mk.injEq, pageSize]
  constructor
  · rintro ⟨i, hi, rfl, rfl⟩
    have := hfit (start + i * 4096) (by omega) (by omega) (by omega)
    rw [u64_of_lt (by omega), u64_of_lt (by omega)]
    omega
  · rintro ⟨⟨hd, h1, h2⟩, rfl⟩
    have := hfit pa hd h1 h2
    refine ⟨(pa - start) / 4096, by omega, ?_, ?_⟩ <;> rw [u64_of_lt (by omega)] <;> omega

theorem mem_entryCalls {e : MemmapEntry} (hend : e.base + e.length ≤ 2 ^ 46)
    (hfit : e.type.isMapped = true → ∀ pa, e.Covers pa → pa + hhdm < 2 ^ 64) :
    (va, pa) ∈ entryCalls hhdm e ↔ e.type.isMapped = true ∧ e.Covers pa
      ∧ (va = pa + hhdm ∨ va = pa ∧ pa < 2 ^ 32) := by
  unfold entryCalls
  split_ifs with hm
  · have hstart : alignDown e.base pageSize = e.base / 4096 * 4096 := alignDown_eq (by omega)
    have hstop : alignUp (u64 (e.base + e.length)) pageSize
        = (e.base + e.length + 4095) / 4096 * 4096 := by
      rw [alignUp_eq, u64_of_lt (n := e.base + e.length) (by omega), u64_of_lt (by omega)]
    dsimp only
    rw [hstart, hstop, List.mem_append, mem_pageCalls (by omega) (by omega) (by omega)
      fun pa h1 h2 h3 => hfit hm pa ⟨h1, h2, h3⟩]
    have hlow : (va, pa) ∈ pageCalls (e.base / 4096 * 4096 + 0) (e.base / 4096 * 4096)
        ((min ((e.base + e.length + 4095) / 4096 * 4096) 0x100000000 - e.base / 4096 * 4096)
          / pageSize) ↔ _ :=
      mem_pageCalls (by omega) (by omega) (by omega) fun pa _ _ _ => by omega
    rw [Nat.add_zero] at hlow
    rw [hlow]
    unfold MemmapEntry.Covers
    simp only [hm, true_and]
    omega
  · simp [hm]

theorem MappedFrame.lt (h : ∀ e ∈ mmap, e.base + e.length ≤ 2 ^ 46) (hpa : MappedFrame mmap pa) :
    pa < 2 ^ 46 := by
  obtain ⟨e, he, -, -, -, hlt⟩ := hpa
  have := h e he
  omega

theorem mem_pagingCalls (h : BootLayout hhdm img mmap) :
    (va, pa) ∈ pagingCalls hhdm img mmap ↔ Advertised hhdm img mmap va pa := by
  have hphys := h.physicalFits
  have hfits := h.imageFits
  have hcan := h.canonical
  have hpages : alignUp img.size pageSize / pageSize = (img.size + 4095) / 4096 := by
    rw [alignUp_eq, u64_of_lt (by omega)]
    unfold pageSize
    omega
  have hentry : ∀ e ∈ mmap, (va, pa) ∈ entryCalls hhdm e ↔ e.type.isMapped = true ∧ e.Covers pa
      ∧ (va = pa + hhdm ∨ va = pa ∧ pa < 2 ^ 32) := fun e he =>
    mem_entryCalls (h.entries e he) fun hm pa hc => h.hhdmFits pa ⟨e, he, hm, hc⟩
  unfold pagingCalls
  rw [List.mem_append, List.mem_flatMap, hpages]
  constructor
  · rintro (himage | ⟨e, he, hc⟩)
    · simp only [pageCalls, List.mem_map, List.mem_range, Prod.mk.injEq] at himage
      obtain ⟨i, hi, rfl, rfl⟩ := himage
      unfold pageSize
      rw [u64_of_lt (by omega), u64_of_lt (by omega)]
      exact .image (by omega) (by omega)
    · obtain ⟨hm, hcov, rfl | ⟨rfl, hlow⟩⟩ := (hentry e he).mp hc
      · exact .direct ⟨e, he, hm, hcov⟩
      · exact .identity ⟨e, he, hm, hcov⟩ hlow
  · rintro (⟨e, he, hm, hcov⟩ | ⟨⟨e, he, hm, hcov⟩, hlow⟩ | ⟨⟨i, rfl⟩, hi⟩)
    · exact .inr ⟨e, he, (hentry e he).mpr ⟨hm, hcov, .inl rfl⟩⟩
    · exact .inr ⟨e, he, (hentry e he).mpr ⟨hm, hcov, .inr ⟨rfl, hlow⟩⟩⟩
    · left
      simp only [pageCalls, List.mem_map, List.mem_range, Prod.mk.injEq]
      refine ⟨i, by omega, ?_, ?_⟩ <;> unfold pageSize <;> rw [u64_of_lt (by omega)] <;> omega

theorem Advertised.canonical (h : BootLayout hhdm img mmap)
    (hva : Advertised hhdm img mmap va pa) : Canonical va ∧ 4096 ∣ va := by
  have hh := h.hhdmUpper
  have hd := h.hhdmAligned
  have hv := h.virtualAligned
  have hfits := h.imageFits
  have hcan := h.canonical
  unfold Canonical
  rcases hva with hpa | ⟨hpa, hlow⟩ | ⟨hi, hlt⟩
  · have := h.hhdmFits pa hpa
    obtain ⟨e, -, -, hal, -⟩ := hpa
    omega
  · obtain ⟨e, -, -, hal, -⟩ := hpa
    omega
  · omega

theorem Advertised.frame (h : BootLayout hhdm img mmap) (hva : Advertised hhdm img mmap va pa) :
    4096 ∣ pa ∧ pa < 2 ^ 52 := by
  have hp := h.physicalAligned
  have hfits := h.physicalFits
  rcases hva with hpa | ⟨hpa, hlow⟩ | ⟨hi, hlt⟩
  · have := hpa.lt h.entries
    obtain ⟨e, -, -, hal, -⟩ := hpa
    omega
  · obtain ⟨e, -, -, hal, -⟩ := hpa
    omega
  · omega

/-- A page of two maps has the same frame in both. -/
theorem Advertised.unique (h : BootLayout hhdm img mmap) (hva : Advertised hhdm img mmap va pa)
    (hva' : Advertised hhdm img mmap va pa') : pa' = pa := by
  have hh := h.hhdmUpper
  cases hva with
  | direct hpa =>
    generalize hx : pa + hhdm = x at hva'
    cases hva' with
    | direct hpa' => omega
    | identity hpa' hlow => omega
    | image hi hlt => exact absurd hx (h.apart pa hpa _ hlt)
  | identity hpa hlow =>
    cases hva' with
    | direct hpa' => omega
    | identity hpa' _ => rfl
    | image hi hlt => exact (h.identity _ hpa hlow _ hlt rfl).symm
  | @image i hi hlt =>
    generalize hx : img.virtualBase + i = x at hva'
    cases hva' with
    | direct hpa' => exact absurd hx.symm (h.apart _ hpa' i hlt)
    | identity hpa' hlow => exact h.identity _ hpa' hlow i hlt hx.symm
    | image hi' hlt' => omega

/-- A call for the page of another is for the same address. -/
theorem Advertised.eq_of_leafPath (h : BootLayout hhdm img mmap)
    (hva' : Advertised hhdm img mmap va' pa') (hcan : Canonical va) (hal : 4096 ∣ va)
    (hpath : leafPath va = leafPath va') : va' = va := by
  obtain ⟨hcan', hal'⟩ := hva'.canonical h
  obtain ⟨ht, hi⟩ := List.append_inj' hpath rfl
  have hpage := page_eq_of_path hcan hcan' ht (List.singleton_inj.mp hi)
  omega

end Maps

/-- If no allocation fails, `paging_init` maps the pages of the three maps to their frames, all
present and writable, and no others. -/
theorem paging_init_maps (hhdm : ℕ) (img : KernelImage) (mmap : List MemmapEntry) (phys : PhysMem)
    {p : Pmm} (hp : pmmInit mmap = some p) (hl : BootLayout hhdm img mmap)
    (hg : PagingGranted hhdm img mmap ⟨p, phys⟩) :
    ∃ pml4 m, pagingInit hhdm img mmap ⟨p, phys⟩ = some (pml4, m)
      ∧ MapsBuilt hhdm img mmap pml4 m := by
  obtain ⟨hI, -, htotal⟩ := pmmInit_inv hp
  have hhigh : highestPa mmap ≤ 2 ^ 46 := highestPa_le fun e he => by
    have := hl.entries e he
    rw [u64_of_lt (by omega)]
    exact this
  obtain ⟨h0, hcalls⟩ := hg
  obtain ⟨hclear, hempty⟩ := clearPml4_tables (m := ⟨p, phys⟩) hI (by dsimp only; omega) h0
  obtain ⟨htables, hkeep, hset⟩ := hclear.calls _ hcalls
  refine ⟨_, _, by rw [pagingInit_eq, if_neg h0], fun va pa hva => ?_, fun va hcan hal hne => ?_⟩
  · obtain ⟨hcan, hal⟩ := hva.canonical hl
    obtain ⟨hframe, hlt⟩ := hva.frame hl
    have hagree : ∀ c ∈ pagingCalls hhdm img mmap, leafPath va = leafPath c.1 → c.2 = pa := by
      intro c hc hpath
      have hc' := (mem_pagingCalls hl).mp hc
      exact hva.unique hl (hc'.eq_of_leafPath hl hcan hal hpath ▸ hc')
    have hentry := hset va pa hagree (.inr ⟨_, (mem_pagingCalls hl).mpr hva, rfl⟩)
    refine ⟨?_, htables.effective hentry ⟨pa, hframe, hlt, rfl⟩⟩
    rw [Machine.frameAt, hentry, Option.map_some, kernelEntry,
      pteGetAddr_entry hframe hlt kernelFlags_ok]
  · by_contra hno
    refine hne ((hkeep va fun c hc hpath => hno ⟨c.2, ?_⟩).trans (hempty va))
    have hc' := (mem_pagingCalls hl).mp hc
    exact hc'.eq_of_leafPath hl hcan hal hpath ▸ hc'

/-- A kernel of two pages at the top of the address space. -/
def topImage : KernelImage := ⟨0xFFFFFFFF80000000, 0x2A000, 0x1800⟩

theorem paging_init_maps_bootMmap :
    ∃ p pml4 m, pmmInit bootMmap = some p
      ∧ pagingInit 0xFFFF800000000000 topImage bootMmap ⟨p, fun _ _ => 0#64⟩ = some (pml4, m)
      ∧ MapsBuilt 0xFFFF800000000000 topImage bootMmap pml4 m := by
  obtain ⟨p, hp, hg⟩ := Option.map_eq_some_iff.mp
    (show (pmmInit bootMmap).map (fun p => decide (PagingGranted 0xFFFF800000000000 topImage
      bootMmap ⟨p, fun _ _ => 0#64⟩)) = some true by decide +kernel)
  have hentries : ∀ e ∈ bootMmap, e.base + e.length ≤ 2 ^ 46 := by decide
  obtain ⟨pml4, m, hm, hbuilt⟩ := paging_init_maps 0xFFFF800000000000 topImage bootMmap
    (fun _ _ => 0#64) hp
    { entries := hentries
      hhdmAligned := by decide
      hhdmUpper := by decide
      hhdmFits := fun pa hpa => by
        have := hpa.lt hentries
        omega
      virtualAligned := by decide
      physicalAligned := by decide
      imageFits := by decide
      apart := fun pa hpa i _ => by
        have := hpa.lt hentries
        unfold topImage
        dsimp only
        omega
      canonical := by decide
      physicalFits := by decide
      identity := fun pa hpa hlow i _ heq => by
        unfold topImage at heq
        dsimp only at heq
        omega } (of_decide_eq_true hg)
  exact ⟨p, pml4, m, hp, hm, hbuilt⟩

/-- With this image the maps are not built, though the windows are apart and no allocation fails. -/
def ImageMissed (img : KernelImage) : Prop :=
  ∃ p pml4 m, pmmInit bootMmap = some p
    ∧ BootWindows 0xFFFF800000000000 img bootMmap
    ∧ PagingGranted 0xFFFF800000000000 img bootMmap ⟨p, fun _ _ => 0#64⟩
    ∧ pagingInit 0xFFFF800000000000 img bootMmap ⟨p, fun _ _ => 0#64⟩ = some (pml4, m)
    ∧ ¬ MapsBuilt 0xFFFF800000000000 img bootMmap pml4 m

theorem ImageMissed.of_frame {img : KernelImage} (pa : ℕ) (hne : pa ≠ img.physicalBase)
    (hsize : 0 < img.size) (hv : 4096 ∣ img.virtualBase) (hp : 4096 ∣ img.physicalBase)
    (hfits : img.virtualBase + img.size ≤ 2 ^ 64)
    (hapart : img.virtualBase + img.size ≤ 0xFFFF800000000000
      ∨ 0xFFFF800000000000 + 2 ^ 46 ≤ img.virtualBase)
    (hrun : ((pmmInit bootMmap).bind fun p =>
      (pagingInit 0xFFFF800000000000 img bootMmap ⟨p, fun _ _ => 0#64⟩).map fun r =>
        (decide (PagingGranted 0xFFFF800000000000 img bootMmap ⟨p, fun _ _ => 0#64⟩),
          r.2.frameAt r.1 img.virtualBase)) = some (true, some pa)) : ImageMissed img := by
  obtain ⟨p, hp', hrun⟩ := Option.bind_eq_some_iff.mp hrun
  obtain ⟨⟨pml4, m⟩, hm, hrun⟩ := Option.map_eq_some_iff.mp hrun
  obtain ⟨hg, hframe⟩ := Prod.mk.inj hrun
  have hentries : ∀ e ∈ bootMmap, e.base + e.length ≤ 2 ^ 46 := by decide
  refine ⟨p, pml4, m, hp', ⟨hentries, by decide, by decide, fun pa hpa => ?_, hv, hp, hfits,
    fun pa hpa i hi => ?_⟩, of_decide_eq_true hg, hm, fun hbuilt => hne ?_⟩
  · have := hpa.lt hentries
    omega
  · have := hpa.lt hentries
    omega
  · have hfirst := (hbuilt.mapped _ _ (.image (dvd_zero 4096) hsize)).1
    rw [Nat.add_zero, Nat.add_zero] at hfirst
    exact Option.some.inj (hframe.symm.trans hfirst)

/-- An image in the identity map's pages is lost to it, also under an address that is not canonical
but has the same indices, and an entry has no room for the high bits of a frame. -/
theorem paging_init_misses_image :
    ImageMissed ⟨0x1000, 0x8000, 0x1000⟩ ∧ ImageMissed ⟨2 ^ 48 + 0x1000, 0x8000, 0x1000⟩
      ∧ ImageMissed ⟨0xFFFFFFFF80000000, 2 ^ 52, 0x1000⟩ := by
  refine ⟨.of_frame 0x1000 ?_ ?_ ?_ ?_ ?_ ?_ ?_, .of_frame 0x1000 ?_ ?_ ?_ ?_ ?_ ?_ ?_,
    .of_frame 0 ?_ ?_ ?_ ?_ ?_ ?_ ?_⟩ <;> decide +kernel

end SudoOS
