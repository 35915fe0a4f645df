import SudoOS.Proofs.Elf

/-!
# Growing a program's memory

`mm_map_range` maps new frames over whatever was mapped before. A process keeps its pages as long as
each range it is given is apart, page by page, from the areas it has: all its pages are in its
areas, so that the new range meets none of them.
-/

namespace SudoOS

/-! ## Areas -/

/-- The area has bytes of page number `p`. -/
def VmaStruct.HasPage (v : VmaStruct) (p : ℕ) : Prop :=
  v.vmStart / pageSize ≤ p ∧ p * pageSize < v.vmEnd

def PageDisjoint (v w : VmaStruct) : Prop := ∀ p, ¬ (v.HasPage p ∧ w.HasPage p)

theorem pageDisjoint_iff {v w : VmaStruct} : PageDisjoint v w ↔
    min v.vmEnd w.vmEnd ≤ max (v.vmStart / pageSize) (w.vmStart / pageSize) * pageSize := by
  unfold PageDisjoint VmaStruct.HasPage
  constructor
  · intro h
    by_contra hc
    rw [not_le, lt_min_iff] at hc
    exact h _ ⟨⟨le_max_left _ _, hc.1⟩, le_max_right _ _, hc.2⟩
  · rintro h p ⟨⟨h1, h2⟩, h3, h4⟩
    have := Nat.mul_le_mul_right pageSize (max_le h1 h3)
    omega

instance (v w : VmaStruct) : Decidable (PageDisjoint v w) := decidable_of_iff' _ pageDisjoint_iff

theorem hasPage_of_mem {v : VmaStruct} {x : ℕ} (h1 : v.vmStart ≤ x) (h2 : x < v.vmEnd) :
    v.HasPage (x / pageSize) :=
  ⟨Nat.div_le_div_right h1, (Nat.div_mul_le_self _ _).trans_lt h2⟩

/-- No page is in two areas of the address space. -/
def Kernel.AreasDisjoint (k : Kernel) (mm : ℕ) : Prop :=
  (k.mms mm).vmaList.Pairwise fun v w => PageDisjoint (k.vmas v) (k.vmas w)

instance (k : Kernel) (mm : ℕ) : Decidable (k.AreasDisjoint mm) :=
  inferInstanceAs (Decidable (List.Pairwise _ _))

/-- The range is apart from the areas of the address space. -/
def Kernel.IsClear (k : Kernel) (mm : ℕ) (v : VmaStruct) : Prop :=
  ∀ w ∈ (k.mms mm).vmaList, PageDisjoint (k.vmas w) v

instance (k : Kernel) (mm : ℕ) (v : VmaStruct) : Decidable (k.IsClear mm v) :=
  inferInstanceAs (Decidable (∀ w ∈ _, _))

/-- The step links one more area. -/
def Linked (mm : ℕ) (v : VmaStruct) (k k' : Kernel) : Prop :=
  ∃ vma, (k'.mms mm).vmaList = (k.mms mm).vmaList ++ [vma] ∧ k'.vmas vma = v
    ∧ ∀ w ∈ (k.mms mm).vmaList, k'.vmas w = k.vmas w

section Areas

variable {k k' : Kernel} {mm : ℕ} {v w : VmaStruct}

theorem Linked.disjoint (h : Linked mm v k k') (hd : k.AreasDisjoint mm) (hv : k.IsClear mm v) :
    k'.AreasDisjoint mm := by
  obtain ⟨vma, hlist, hnew, hold⟩ := h
  unfold Kernel.AreasDisjoint
  rw [hlist, List.pairwise_append]
  refine ⟨hd.imp_of_mem fun ha hb hab => ?_, List.pairwise_singleton _ _, fun a ha b hb => ?_⟩
  · rwa [hold _ ha, hold _ hb]
  · rw [List.mem_singleton.mp hb, hnew, hold a ha]
    exact hv a ha

theorem Linked.isClear_of_disjoint (h : Linked mm v k k') (hd : k'.AreasDisjoint mm) :
    k.IsClear mm v := by
  obtain ⟨vma, hlist, hnew, hold⟩ := h
  unfold Kernel.AreasDisjoint at hd
  rw [hlist, List.pairwise_append] at hd
  intro a ha
  have := hd.2.2 a ha vma (by simp)
  rwa [hold a ha, hnew] at this

theorem Linked.isClear (h : Linked mm v k k') (hw : k.IsClear mm w) (hvw : PageDisjoint v w) :
    k'.IsClear mm w := by
  obtain ⟨vma, hlist, hnew, hold⟩ := h
  intro a ha
  rw [hlist] at ha
  rcases List.mem_append.mp ha with ha | ha
  · rw [hold a ha]
    exact hw a ha
  · rw [List.mem_singleton.mp ha, hnew]
    exact hvw

end Areas

/-! ## Pages in areas -/

/-- The address spaces are in order, the areas of `mm` are apart, and its pages are in them. -/
structure ProcInv (live : List ℕ) (mm : ℕ) (k : Kernel) : Prop where
  spaces : SpacesInv (fun _ => False) live k
  disjoint : k.AreasDisjoint mm
  covered : ∀ p n, UserPath p → p.length = 4 → k.table (k.mms mm).pml4Pa p = some n →
    ∃ v ∈ (k.mms mm).vmaList, ∃ w, (k.vmas v).vmStart ≤ w ∧ w < (k.vmas v).vmEnd ∧ p = leafPath w

section Proc

variable {live : List ℕ} {k k' : Kernel} {mm : ℕ} {va size : ℕ} {vmFlags : BitVec 64} {ok : Bool}

/-- A step that touches no page, and changes neither structures nor areas. -/
theorem ProcInv.setMem (h : ProcInv live mm k) (hmm : mm ∈ live) {km : KMem}
    (hk : SpacesKept (fun _ => False) live (fun _ _ => False) k { k with toKMem := km }) :
    ProcInv live mm { k with toKMem := km } := by
  refine ⟨hk.inv, h.disjoint, fun p n hp h4 hn => h.covered p n hp h4 ?_⟩
  rcases (hk.kept.user mm _ (if_pos hmm)).added p n hp hn with h1 | h1 | ⟨⟨q, h1, -⟩, -⟩
  · exact h1
  · exact h1.elim
  · exact h1.elim

theorem ProcInv.link (h : ProcInv live mm k) (hmm : mm ∈ live) {v : VmaStruct}
    (hv : k.IsClear mm v) (hk : SpacesKept (fun _ => False) live (AreaPaths mm v) k k')
    (hl : Linked mm v k k') : ProcInv live mm k' := by
  refine ⟨hk.inv, hl.disjoint h.disjoint hv, fun p n hp h4 hn => ?_⟩
  rw [hk.pml4Pa hmm] at hn
  obtain ⟨vma, hlist, hnew, hold⟩ := hl
  rw [hlist]
  have harea : ∀ q, AreaPaths mm v (.mm mm) q → ∃ a ∈ (k.mms mm).vmaList ++ [vma], ∃ w,
      (k'.vmas a).vmStart ≤ w ∧ w < (k'.vmas a).vmEnd ∧ q = leafPath w := by
    rintro q ⟨-, w, h1, h2, hq⟩
    refine ⟨vma, by simp, w, ?_⟩
    rw [hnew]
    exact ⟨h1, h2, hq⟩
  rcases (hk.kept.user mm _ (if_pos hmm)).added p n hp hn with h1 | h1 | ⟨⟨q, h1, hpq⟩, -⟩
  · obtain ⟨a, ha, hw⟩ := h.covered p n hp h4 h1
    refine ⟨a, List.mem_append_left _ ha, ?_⟩
    rw [hold a ha]
    exact hw
  · exact harea p h1
  · have hlen : q.length = 4 := by
      obtain ⟨-, w, -, -, rfl⟩ := h1
      exact leafPath_length w
    rw [hpq.eq_of_length (h4.trans hlen.symm)]
    exact harea q h1

theorem mapArea_heap {vma : ℕ} {v : VmaStruct} (h : k.mapArea mm vma v = (true, k')) :
    k'.heap = k.heap := by
  unfold Kernel.mapArea at h
  dsimp only at h
  split at h
  · obtain ⟨-, rfl⟩ := Prod.mk.inj h
    rfl
  · cases (Prod.mk.inj h).1

/-- `mm_map_range` links a new area, unless it fails early; one that succeeds leaves every live
structure in a block in use. -/
theorem mmMapRange_linked (hI : SpacesInv (fun _ => False) live k) (hmm : mm ∈ live)
    (hheld : MmRun.Held ⟨k, live⟩) (hva : va + size ≤ 2 ^ 47)
    (h : k.mmMapRange mm va size vmFlags = some (ok, k')) :
    (ok = false ∧ ∃ km, k' = { k with toKMem := km }
        ∧ SpacesKept (fun _ => False) live (fun _ _ => False) k k')
      ∨ (Linked mm (requestArea mm va size vmFlags) k k'
        ∧ (ok = true → MmRun.Held ⟨k', live⟩)) := by
  rcases mmMapRange_alloc (T := fun _ _ => False) hI (heapClear_false _) h with
    ⟨hok, ⟨km, hk'⟩, hk⟩ | ⟨-, vma, km, hkm, h0, hk, hmap⟩
  · exact .inl ⟨hok, km, hk', hk⟩
  right
  obtain ⟨frames, hmem⟩ := hI.mem
  obtain ⟨-, hext, hal⟩ := KMem.kmallocLoop_spec hmem.heapInv hkm
  obtain ⟨hholds, hfresh⟩ := hal (by decide) h0
  have hobj : ∀ a ∈ live, ∀ w ∈ (k.mms a).vmaList, Holds k.heap.kheapList (w, vmaStructSize) := by
    intro a ha w hw
    refine hheld _ (List.mem_flatMap.mpr ⟨a, ha, List.mem_cons_of_mem _ ?_⟩)
    exact List.mem_map_of_mem hw
  obtain ⟨-, km', hk'⟩ := mapArea_mem hk.inv hmm ((requestArea_ok hva).range _) hmap
  have hmms : ∀ a, k'.mms a = if a = mm then { k.mms mm with
      vmaList := (k.mms mm).vmaList ++ [vma], mapCount := (k.mms mm).mapCount + 1 }
      else k.mms a := by
    intro a
    rw [hk']
    exact Kernel.linkVma_mms _ mm vma _ a
  have hvmas : k'.vmas = Function.update k.vmas vma (requestArea mm va size vmFlags) := by
    rw [hk']
    rfl
  refine ⟨⟨vma, ?_, ?_, fun w hw => ?_⟩, fun hok o ho => ?_⟩
  · rw [hmms, if_pos rfl]
  · rw [hvmas, Function.update_self]
  · rw [hvmas, Function.update_of_ne (hfresh _ (hobj mm hmm w hw))]
  · subst hok
    have hheap : k'.heap = km.heap := mapArea_heap hmap
    obtain ⟨a, ha, ho⟩ := List.mem_flatMap.mp ho
    dsimp only at ha ho ⊢
    rw [hheap]
    rcases List.mem_cons.mp ho with rfl | ho
    · exact hext.holds _ (hheld _ (List.mem_flatMap.mpr ⟨a, ha, List.mem_cons_self⟩))
    obtain ⟨w, hw, rfl⟩ := List.mem_map.mp ho
    rw [hmms] at hw
    split_ifs at hw with ham
    · rcases List.mem_append.mp hw with hw | hw
      · exact hext.holds _ (hobj mm hmm w hw)
      · rw [List.mem_singleton.mp hw]
        exact hholds
    · exact hext.holds _ (hobj a ha w hw)

/-- A range apart from the areas there are. -/
theorem ProcInv.mmMapRange (h : ProcInv live mm k) (hmm : mm ∈ live)
    (hheld : MmRun.Held ⟨k, live⟩) (hva : va + size ≤ 2 ^ 47)
    (hclear : k.IsClear mm (requestArea mm va size vmFlags))
    (hr : k.mmMapRange mm va size vmFlags = some (ok, k')) :
    ProcInv live mm k' ∧ (ok = true → MmRun.Held ⟨k', live⟩
      ∧ Linked mm (requestArea mm va size vmFlags) k k') := by
  rcases mmMapRange_linked h.spaces hmm hheld hva hr with ⟨rfl, km, rfl, hk⟩ | ⟨hl, hheld'⟩
  · exact ⟨h.setMem hmm hk, fun hc => by cases hc⟩
  · have hk := mmMapRange_kept h.spaces hmm hva (heapClear_false _) hr
    exact ⟨h.link hmm hclear hk hl, fun hok => ⟨hheld' hok, hl⟩⟩

theorem ProcInv.store (h : ProcInv live mm k) (hmm : mm ∈ live) {n : ℕ} {byte : ℕ → UInt8}
    {m : Machine} (hva : va < 2 ^ 47)
    (hr : k.toMachine.store (k.mms mm).pml4Pa va n byte = some m) :
    ProcInv live mm { k with toMachine := m } := by
  obtain ⟨hk, htable⟩ := h.spaces.store hmm hva hr
  exact ⟨hk.inv, h.disjoint, fun p n hp h4 hn => h.covered p n hp h4 ((htable p hp).symm.trans hn)⟩

theorem ProcInv.setBrk (h : ProcInv live mm k) (newBrk : ℕ) :
    ProcInv live mm (k.setMm mm { k.mms mm with heap := newBrk }) := by
  have hmm : (k.setMm mm { k.mms mm with heap := newBrk }).mms mm
      = { k.mms mm with heap := newBrk } := Kernel.setMm_self _ _ _
  refine ⟨(h.spaces.setBrk (T := fun _ _ => False) mm newBrk).inv, ?_, ?_⟩
  · unfold Kernel.AreasDisjoint
    rw [hmm]
    exact h.disjoint
  · rw [hmm]
    exact h.covered

end Proc

/-! ## Loading -/

/-- The area of a segment. -/
def Elf.area (elf : ℕ → UInt8) (mm i : ℕ) : VmaStruct :=
  requestArea mm (Elf.pVaddr elf i) (Elf.pMemsz elf i) (Elf.vmFlags elf i)

section Rounds

variable {live : List ℕ} {k k' : Kernel} {mm : ℕ} {elf : ℕ → UInt8}

theorem ProcInv.loadSegment {i : ℕ} (h : ProcInv live mm k) (hmm : mm ∈ live)
    (hheld : MmRun.Held ⟨k, live⟩) (huser : Elf.InUserHalf elf i)
    (hclear : Elf.pType elf i = Elf.ptLoad → k.IsClear mm (Elf.area elf mm i))
    (hr : k.loadSegment mm elf i = some (true, k')) :
    ProcInv live mm k' ∧ MmRun.Held ⟨k', live⟩ ∧ ∀ w, k.IsClear mm w →
      (Elf.pType elf i = Elf.ptLoad → PageDisjoint (Elf.area elf mm i) w) → k'.IsClear mm w := by
  rcases loadSegment_cases hr with ⟨-, -, rfl⟩ | ⟨hload, k₁, hmap, ⟨hc, -⟩ |
    ⟨-, m₁, m₂, n, byte, byte', h₁, h₂, rfl⟩⟩
  · exact ⟨h, hheld, fun w hw _ => hw⟩
  · cases hc
  · have hva : Elf.pVaddr elf i < 2 ^ 47 := by
      have := huser hload
      have := mmMapRange_pos hmap
      omega
    obtain ⟨hk₁, hrest⟩ := h.mmMapRange hmm hheld (huser hload) (hclear hload) hmap
    obtain ⟨hheld₁, hl⟩ := hrest rfl
    have hk₂ := hk₁.store hmm hva h₁
    refine ⟨hk₂.store hmm hva h₂, hheld₁, fun w hw hd => ?_⟩
    exact hl.isClear hw (hd hload)

/-- The rounds of `load_elf`, for segments apart from each other and from the areas there are. -/
theorem ProcInv.loadSegments (hmm : mm ∈ live) : ∀ (n i : ℕ) {k k' : Kernel}, ProcInv live mm k →
    MmRun.Held ⟨k, live⟩ → (∀ j, i ≤ j → j < i + n → Elf.InUserHalf elf j) →
    (∀ j, i ≤ j → j < i + n → Elf.pType elf j = Elf.ptLoad → k.IsClear mm (Elf.area elf mm j)) →
    (∀ j l, i ≤ j → j < l → l < i + n → Elf.pType elf j = Elf.ptLoad →
      Elf.pType elf l = Elf.ptLoad → PageDisjoint (Elf.area elf mm j) (Elf.area elf mm l)) →
    Kernel.loadSegments mm elf n i k = some (true, k') → ProcInv live mm k'
  | 0, i, k, k', h, _, _, _, _, hr => by
    simp only [Kernel.loadSegments, Option.some.injEq, Prod.mk.injEq, true_and] at hr
    exact hr ▸ h
  | n + 1, i, k, k', h, hheld, huser, hclear, hd, hr => by
    unfold Kernel.loadSegments at hr
    rcases hs : k.loadSegment mm elf i with _ | ⟨_ | _, k₁⟩ <;> rw [hs] at hr
    · cases hr
    · simp at hr
    · obtain ⟨hk₁, hheld₁, hclear₁⟩ := h.loadSegment hmm hheld (huser i le_rfl (by omega))
        (hclear i le_rfl (by omega)) hs
      refine ProcInv.loadSegments hmm n (i + 1) hk₁ hheld₁ (fun j h1 h2 => huser j (by omega)
        (by omega)) (fun j h1 h2 hj => ?_) (fun j l h1 h2 h3 => hd j l (by omega) h2 (by omega)) hr
      exact hclear₁ _ (hclear j (by omega) (by omega) hj)
        fun hi => hd i j le_rfl (by omega) (by omega) hi hj

end Rounds

/-! ## Runs of a process -/

inductive ProcOp
  | loadElf (elf : ℕ → UInt8)
  | mapUserStack
  | sysBrk (newBrk : ℕ)

/-- What a process with the given `mm` goes through; one that cannot be loaded is given up. -/
def procStep (mm : ℕ) (k : Kernel) : ProcOp → Option Kernel
  | .loadElf elf => (k.loadElf mm elf).bind fun r => if r.1 = 0 then none else some r.2
  | .mapUserStack => (k.mapUserStack mm).bind fun r => if r.1 then some r.2 else none
  | .sysBrk newBrk => (k.sysBrk mm newBrk).map Prod.snd

/-- The range by which `SYS_BRK` grows the heap. -/
def Kernel.brkArea (k : Kernel) (mm newBrk : ℕ) : VmaStruct :=
  requestArea mm (k.mms mm).heap (newBrk - (k.mms mm).heap) (vmRead ||| vmWrite ||| vmHeap)

def stackArea (mm : ℕ) : VmaStruct :=
  requestArea mm (userStackTop - userStackSize) userStackSize (vmRead ||| vmWrite ||| vmStack)

/-- The segments are in the user half, apart from each other and from the areas of `mm`. -/
structure ElfOk (mm : ℕ) (k : Kernel) (elf : ℕ → UInt8) : Prop where
  user : ∀ i < Elf.ePhnum elf, Elf.InUserHalf elf i
  clear : ∀ i < Elf.ePhnum elf, Elf.pType elf i = Elf.ptLoad → k.IsClear mm (Elf.area elf mm i)
  apart : ∀ i < Elf.ePhnum elf, ∀ j < i, Elf.pType elf j = Elf.ptLoad →
    Elf.pType elf i = Elf.ptLoad → PageDisjoint (Elf.area elf mm j) (Elf.area elf mm i)

instance (mm : ℕ) (k : Kernel) (elf : ℕ → UInt8) : Decidable (ElfOk mm k elf) :=
  decidable_of_iff ((∀ i < Elf.ePhnum elf, Elf.InUserHalf elf i)
      ∧ (∀ i < Elf.ePhnum elf, Elf.pType elf i = Elf.ptLoad → k.IsClear mm (Elf.area elf mm i))
      ∧ ∀ i < Elf.ePhnum elf, ∀ j < i, Elf.pType elf j = Elf.ptLoad →
        Elf.pType elf i = Elf.ptLoad → PageDisjoint (Elf.area elf mm j) (Elf.area elf mm i))
    ⟨fun h => ⟨h.1, h.2.1, h.2.2⟩, fun h => ⟨h.user, h.clear, h.apart⟩⟩

/-- Every live structure is in a block in use, and the ranges asked for are in the user half and
apart from the areas of the process. -/
def ProcOk (live : List ℕ) (mm : ℕ) (k : Kernel) (op : ProcOp) : Prop :=
  MmRun.Held ⟨k, live⟩ ∧ match op with
  | .loadElf elf => ElfOk mm k elf
  | .mapUserStack => k.IsClear mm (stackArea mm)
  | .sysBrk newBrk => (k.mms mm).heap < newBrk →
      newBrk ≤ 2 ^ 47 ∧ k.IsClear mm (k.brkArea mm newBrk)

instance (live : List ℕ) (mm : ℕ) (k : Kernel) : (op : ProcOp) → Decidable (ProcOk live mm k op)
  | .loadElf elf => inferInstanceAs (Decidable (MmRun.Held ⟨k, live⟩ ∧ ElfOk mm k elf))
  | .mapUserStack =>
    inferInstanceAs (Decidable (MmRun.Held ⟨k, live⟩ ∧ k.IsClear mm (stackArea mm)))
  | .sysBrk newBrk => inferInstanceAs (Decidable (MmRun.Held ⟨k, live⟩
      ∧ ((k.mms mm).heap < newBrk → newBrk ≤ 2 ^ 47 ∧ k.IsClear mm (k.brkArea mm newBrk))))

section Runs

variable {live : List ℕ} {k k' : Kernel} {mm : ℕ}

theorem ProcInv.sysBrk (h : ProcInv live mm k) (hmm : mm ∈ live) {newBrk ret : ℕ}
    (hok : ProcOk live mm k (.sysBrk newBrk)) (hr : k.sysBrk mm newBrk = some (ret, k')) :
    ProcInv live mm k' := by
  rcases sysBrk_cases hr with ⟨-, rfl⟩ | ⟨hlt, ok, k₁, hmap, hcase⟩
  · exact h
  obtain ⟨huser, hclear⟩ := hok.2 hlt
  obtain ⟨hk₁, -⟩ := h.mmMapRange hmm hok.1 (by omega) hclear hmap
  rcases hcase with ⟨-, -, rfl⟩ | ⟨-, -, rfl⟩
  · exact hk₁
  · exact hk₁.setBrk newBrk

theorem procStep_inv (hmm : mm ∈ live) (k : Kernel) (op : ProcOp) (k' : Kernel)
    (hI : ProcInv live mm k) (hok : ProcOk live mm k op) (h : procStep mm k op = some k') :
    ProcInv live mm k' := by
  cases op with
  | loadElf elf =>
    obtain ⟨⟨entry, k₁⟩, hr, h⟩ := Option.bind_eq_some_iff.mp h
    dsimp only at h
    split_ifs at h with h0
    obtain rfl := Option.some.inj h
    unfold Kernel.loadElf at hr
    split_ifs at hr
    · obtain ⟨⟨ok, k₂⟩, hs, hr⟩ := Option.map_eq_some_iff.mp hr
      obtain ⟨hentry, rfl⟩ := Prod.mk.inj hr
      obtain rfl : ok = true := by
        by_contra hc
        rw [if_neg hc] at hentry
        exact h0 hentry.symm
      refine ProcInv.loadSegments hmm _ 0 hI hok.1 (fun j _ hj => hok.2.user j (by omega))
        (fun j _ hj => hok.2.clear j (by omega))
        (fun j l _ h2 h3 => hok.2.apart l (by omega) j h2) hs
    · simp only [Option.some.injEq, Prod.mk.injEq] at hr
      exact absurd hr.1.symm h0
  | mapUserStack =>
    obtain ⟨⟨ok, k₁⟩, hr, h⟩ := Option.bind_eq_some_iff.mp h
    dsimp only at h
    split_ifs at h with hok'
    obtain rfl := Option.some.inj h
    subst hok'
    obtain ⟨k₂, hmap, ⟨hc, -⟩ | ⟨-, m, hm, rfl⟩⟩ := mapUserStack_cases hr
    · cases hc
    · obtain ⟨hk₂, -⟩ := hI.mmMapRange hmm hok.1 userStack_user hok.2 hmap
      refine hk₂.store hmm ?_ hm
      simp [userStackTop, userStackSize, pageSize]
  | sysBrk newBrk =>
    obtain ⟨⟨ret, k₁⟩, hr, rfl⟩ := Option.map_eq_some_iff.mp h
    exact hI.sysBrk hmm hok hr

/-- A new address space has no area and no page. -/
theorem ProcInv.of_isBare (hI : SpacesInv (fun _ => False) live k) (hb : k.IsBare mm) :
    ProcInv live mm k := by
  obtain ⟨hlist, hzero⟩ := hb
  refine ⟨hI, ?_, fun p n hp h4 hn => ?_⟩
  · unfold Kernel.AreasDisjoint
    rw [hlist]
    exact List.Pairwise.nil
  · rcases p with _ | ⟨i, p⟩
    · cases h4
    · have hchild := tableChild_zero (hzero i (hp.2.2 i rfl))
      rw [Machine.table, Radix.walk, hchild] at hn
      cases hn

/-- Pages outside a range apart from all areas keep their entry, and their contents. -/
theorem ProcInv.page_kept (h : ProcInv live mm k) (hmm : mm ∈ live) {v : VmaStruct}
    (hv : v.vmEnd ≤ 2 ^ 47) (hclear : k.IsClear mm v)
    (hk : SpacesKept (fun _ => False) live (AreaPaths mm v) k k') {va : ℕ} {e : BitVec 64}
    (hva : pml4Idx va < 256) (he : k.leafEntry (k.mms mm).pml4Pa va = some e) :
    k'.leafEntry (k.mms mm).pml4Pa va = some e
      ∧ ∀ j, k'.phys (pteGetAddr e) j = k.phys (pteGetAddr e) j := by
  have huser := leafPath_userPath hva
  have hpage : k.table (k.mms mm).pml4Pa (leafPath va) = some (pteGetAddr e) := by
    have hroot : (fun _ : Unit => some (k.mms mm).pml4Pa) () = some (k.mms mm).pml4Pa := rfl
    rw [← Machine.node_eq_table hroot]
    exact node_of_leafEntry hroot he
  obtain ⟨a, ha, x, hx1, hx2, hpath⟩ := h.covered _ _ huser rfl hpage
  have hoff : ∀ w, v.vmStart ≤ w → w < v.vmEnd → leafPath w ≠ leafPath va := by
    intro w h1 h2 hc
    have hax := (h.spaces.areas mm hmm a ha).2
    have hwx : leafPath w = leafPath x := hc.trans hpath
    obtain ⟨ht, hi⟩ := List.append_inj hwx rfl
    have hsame : w / 4096 = x / 4096 := page_eq_of_path (.inl (h2.trans_le hv))
      (.inl (hx2.trans_le hax)) ht (List.cons.inj hi).1
    refine hclear a ha (x / pageSize) ⟨hasPage_of_mem hx1 hx2, ?_⟩
    rw [show x / pageSize = w / pageSize from hsame.symm]
    exact hasPage_of_mem h1 h2
  have htouch := hk.kept.user mm _ (if_pos hmm)
  refine ⟨(htouch.leafEntry_eq (UserPath.of_append huser) ?_).trans he, fun j => ?_⟩
  · rintro q ⟨-, w, h1, h2, rfl⟩
    exact ⟨w, rfl, hoff w h1 h2⟩
  · refine (htouch.spares huser ?_).2 _ hpage j
    rintro q ⟨-, w, h1, h2, rfl⟩ hpre
    exact hoff w h1 h2 (hpre.eq_of_length rfl).symm

/-- The break moves over no page that is mapped. -/
theorem ProcInv.brk_kept (h : ProcInv live mm k) (hmm : mm ∈ live) {newBrk ret va : ℕ}
    {e : BitVec 64} (hok : ProcOk live mm k (.sysBrk newBrk))
    (hr : k.sysBrk mm newBrk = some (ret, k')) (hva : pml4Idx va < 256)
    (he : k.leafEntry (k.mms mm).pml4Pa va = some e) :
    k'.leafEntry (k'.mms mm).pml4Pa va = some e
      ∧ ∀ j, k'.phys (pteGetAddr e) j = k.phys (pteGetAddr e) j := by
  rcases sysBrk_cases hr with ⟨-, rfl⟩ | ⟨hlt, ok, k₁, hmap, hcase⟩
  · exact ⟨he, fun _ => rfl⟩
  obtain ⟨huser, hclear⟩ := hok.2 hlt
  have hsize : (k.mms mm).heap + (newBrk - (k.mms mm).heap) ≤ 2 ^ 47 := by omega
  have hk := mmMapRange_kept h.spaces hmm hsize (heapClear_false _) hmap
  have hpage := h.page_kept hmm (requestArea_end hsize) hclear hk hva he
  rw [← hk.pml4Pa hmm] at hpage
  rcases hcase with ⟨-, -, rfl⟩ | ⟨-, -, rfl⟩
  · exact hpage
  · rw [Kernel.setMm_self]
    exact hpage

/-- A break that moves keeps the areas apart only if it moves over none of them. -/
theorem ProcInv.isClear_of_brk (h : ProcInv live mm k) (hmm : mm ∈ live) {newBrk : ℕ}
    (hheld : MmRun.Held ⟨k, live⟩) (hlt : (k.mms mm).heap < newBrk) (huser : newBrk ≤ 2 ^ 47)
    (hr : k.sysBrk mm newBrk = some (newBrk, k')) (hd : k'.AreasDisjoint mm) :
    k.IsClear mm (k.brkArea mm newBrk) := by
  rcases sysBrk_cases hr with ⟨hc, -⟩ | ⟨-, ok, k₁, hmap, ⟨-, hc, -⟩ | ⟨rfl, -, rfl⟩⟩
  · omega
  · omega
  · have hd₁ : k₁.AreasDisjoint mm := by
      unfold Kernel.AreasDisjoint at hd
      rwa [Kernel.setMm_self] at hd
    rcases mmMapRange_linked h.spaces hmm hheld (by omega) hmap with ⟨hc, -⟩ | ⟨hl, -⟩
    · cases hc
    · exact hl.isClear_of_disjoint hd₁

end Runs

/-- In every run of a process in which each range asked for is in the user half and apart from the
areas there are, and `kmalloc` is called only while every live structure is in a block in use, the
areas stay apart; a break that is moved so leaves each mapped page its frame and its contents, and
one that is moved over an area does not keep the areas apart. -/
theorem brk_keeps_mappings (hhdm : ℕ) (img : KernelImage) (mmap : List MemmapEntry) (pgnum : ℕ)
    (phys : PhysMem) (ops₀ : List MmOp) (ops : List ProcOp) {kb k₀ k : Kernel} {s : MmRun} {mm : ℕ}
    (hfit : MemoryFits mmap) (hboot : bootMemory hhdm img mmap pgnum phys = some kb)
    (hok₀ : Run.Meets mmStep MmOk ⟨kb, []⟩ ops₀) (h₀ : Run.run mmStep ⟨kb, []⟩ ops₀ = some s)
    (hheld : MmOk s .mmAlloc) (halloc : s.k.mmAlloc = some (mm, k₀)) (hmm : mm ≠ 0)
    (hok : Run.Meets (procStep mm) (ProcOk (mm :: s.live) mm) k₀ ops)
    (h : Run.run (procStep mm) k₀ ops = some k) :
    k.AreasDisjoint mm ∧ (∀ newBrk k', ProcOk (mm :: s.live) mm k (.sysBrk newBrk) →
      k.sysBrk mm newBrk = some (newBrk, k') → k'.AreasDisjoint mm ∧
      ∀ va e, pml4Idx va < 256 → k.leafEntry (k.mms mm).pml4Pa va = some e →
        k'.leafEntry (k'.mms mm).pml4Pa va = some e
          ∧ ∀ j, k'.phys (pteGetAddr e) j = k.phys (pteGetAddr e) j) ∧
    ∀ newBrk k', MmRun.Held ⟨k, mm :: s.live⟩ → (k.mms mm).heap < newBrk → newBrk ≤ 2 ^ 47 →
      k.sysBrk mm newBrk = some (newBrk, k') →
      (k'.AreasDisjoint mm ↔ k.IsClear mm (k.brkArea mm newBrk)) := by
  have hI₀ : SpacesInv (fun _ => False) s.live s.k := Run.run_invariant_of_meets
    (I := fun s => SpacesInv (fun _ => False) s.live s.k) mmStep_inv
    (bootMemory_inv hfit (bootClear_false _ _ _) (heapClear_false _) hboot) hok₀ h₀
  have hblocks : ∀ a ∈ s.live, Holds s.k.heap.kheapList (a, mmStructSize) := fun a ha =>
    hheld _ (List.mem_flatMap.mpr ⟨a, ha, List.mem_cons_self⟩)
  obtain ⟨hnew, -, hbare⟩ := (mmAlloc_kept (T := fun _ _ => False) hI₀ hblocks
    (heapClear_false _) halloc).2 hmm
  have hin : mm ∈ mm :: s.live := List.mem_cons_self
  have hI : ProcInv (mm :: s.live) mm k := Run.run_invariant_of_meets (procStep_inv hin)
    (ProcInv.of_isBare hnew hbare) hok h
  refine ⟨hI.disjoint, fun newBrk k' hbrk hr => ⟨(hI.sysBrk hin hbrk hr).disjoint, ?_⟩, ?_⟩
  · exact fun va e hva he => hI.brk_kept hin hbrk hr hva he
  · intro newBrk k' hblock hlt huser hr
    refine ⟨hI.isClear_of_brk hin hblock hlt huser hr, fun hclear => ?_⟩
    exact (hI.sysBrk hin ⟨hblock, fun _ => ⟨huser, hclear⟩⟩ hr).disjoint

def procOps : List ProcOp := [.loadElf smallElf, .mapUserStack, .sysBrk 0x1000]

/-- A process whose break moves by whole pages below its program. -/
theorem brk_keeps_mappings_wholePages :
    ∃ kb k₀ k k', bootKernel = some kb ∧ kb.mmAlloc = some (firstMm, k₀)
      ∧ Run.run (procStep firstMm) k₀ procOps = some k ∧ k.sysBrk firstMm 0x3000 = some (0x3000, k')
      ∧ k'.AreasDisjoint firstMm := by
  have hrun : (bootKernel.bind fun kb => kb.mmAlloc.bind fun r =>
      (Run.run (procStep firstMm) r.2 procOps).bind fun k => (k.sysBrk firstMm 0x3000).map fun q =>
        (r.1, decide (Run.Meets (procStep firstMm) (ProcOk [firstMm] firstMm) r.2 procOps),
          decide (ProcOk [firstMm] firstMm k (.sysBrk 0x3000)), q.1))
        = some (firstMm, true, true, 0x3000) := by
    decide +kernel
  obtain ⟨kb, hkb, hrun⟩ := Option.bind_eq_some_iff.mp hrun
  obtain ⟨⟨mm, k₀⟩, halloc, hrun⟩ := Option.bind_eq_some_iff.mp hrun
  obtain ⟨k, hk, hrun⟩ := Option.bind_eq_some_iff.mp hrun
  obtain ⟨⟨ret, k'⟩, hr, hrun⟩ := Option.map_eq_some_iff.mp hrun
  simp only [Prod.mk.injEq, decide_eq_true_eq] at hrun
  obtain ⟨rfl, hok, hbrk, rfl⟩ := hrun
  refine ⟨kb, k₀, k, k', hkb, halloc, hk, hr, ?_⟩
  exact ((brk_keeps_mappings 0xFFFF800000000000 ⟨0xFFFFFFFF80000000, 0, 0⟩ bootMmap 1
    (fun _ _ => 0#64) [] procOps (by unfold MemoryFits; decide) hkb trivial rfl (by simp [MmOk,
      MmRun.objects]) halloc (by decide) hok hk).2.1 0x3000 k' hbrk hr).1

/-- Two breaks in one page: the second maps a new frame over the page of the first. -/
theorem brk_replaces_page :
    ∃ kb k₀ k k', bootKernel = some kb ∧ kb.mmAlloc = some (firstMm, k₀)
      ∧ Run.run (procStep firstMm) k₀ [.loadElf smallElf, .mapUserStack, .sysBrk 100] = some k
      ∧ k.sysBrk firstMm 200 = some (200, k')
      ∧ ∃ e, k.leafEntry (k.mms firstMm).pml4Pa 0 = some e
        ∧ k'.leafEntry (k'.mms firstMm).pml4Pa 0 ≠ some e ∧ ¬ k'.AreasDisjoint firstMm := by
  have hrun : (bootKernel.bind fun kb => kb.mmAlloc.bind fun r =>
      (Run.run (procStep firstMm) r.2 [.loadElf smallElf, .mapUserStack, .sysBrk 100]).bind fun k =>
        (k.sysBrk firstMm 200).map fun q => (r.1, q.1, decide (q.2.AreasDisjoint firstMm),
          k.leafEntry (k.mms firstMm).pml4Pa 0, q.2.leafEntry (q.2.mms firstMm).pml4Pa 0))
        = some (firstMm, 200, false, some 0x18007#64, some 0x1A007#64) := by
    decide +kernel
  obtain ⟨kb, hkb, hrun⟩ := Option.bind_eq_some_iff.mp hrun
  obtain ⟨⟨mm, k₀⟩, halloc, hrun⟩ := Option.bind_eq_some_iff.mp hrun
  obtain ⟨k, hk, hrun⟩ := Option.bind_eq_some_iff.mp hrun
  obtain ⟨⟨ret, k'⟩, hr, hrun⟩ := Option.map_eq_some_iff.mp hrun
  simp only [Prod.mk.injEq, decide_eq_false_iff_not] at hrun
  obtain ⟨rfl, rfl, hd, he, he'⟩ := hrun
  refine ⟨kb, k₀, k, k', hkb, halloc, hk, hr, 0x18007#64, he, ?_, hd⟩
  rw [he']
  decide

end SudoOS
