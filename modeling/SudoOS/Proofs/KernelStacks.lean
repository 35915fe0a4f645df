import SudoOS.Proofs.PagingInit
import SudoOS.Proofs.StackFailure

/-!
# Kernel stacks are separate and guarded

A run makes stacks and frees them, while others take frames from the allocator and give them back.
The pages mapped in the stack area lie below `kstack_ptr` and outside the guard pages, each with a
frame of its own (`StackFrames`), so freeing a stack hits its own frames only
(`kernel_stacks_separate`). Booting leaves the area empty (`bootMemory_stackStart`).
-/

namespace SudoOS

/-- `KERNEL_IMAGE_BASE`. -/
def kernelImageBase : ℕ := 0xFFFFFFFF80000000

/-- The addresses that stacks may take. -/
def InStackArea (va : ℕ) : Prop := kernelStackBase ≤ va ∧ va < kernelImageBase

/-- In the area a page has one path. -/
theorem InStackArea.page_eq {va w : ℕ} (h : InStackArea va) (h' : InStackArea w)
    (hp : leafPath va = leafPath w) : va / 4096 = w / 4096 := by
  rw [leafPath_eq_iff] at hp
  simp only [InStackArea, kernelStackBase, kernelImageBase] at h h'
  omega

theorem leafPath_of_page {va w : ℕ} (h : va / 4096 = w / 4096) : leafPath va = leafPath w := by
  rw [leafPath_eq_iff, h]

/-! ## The frames of the stacks -/

/-- A frame in use, but not as a page table. -/
def Taken (pml4 : ℕ) (m : Machine) (x : ℕ) : Prop := Apart pml4 m x ∧ x ≠ 0

/-- The pages mapped in the stack area are among those in `P`, each with a frame of its own that is
none of those lent to others. -/
structure StackFrames (pml4 : ℕ) (m : Machine) (P : ℕ → Prop) (others : List ℕ) : Prop where
  map : MapInv pml4 m
  page : ∀ va pa, InStackArea va → m.frameAt pml4 va = some pa →
    P va ∧ Taken pml4 m pa ∧ pa ∉ others
  distinct : ∀ va w pa, InStackArea va → InStackArea w → m.frameAt pml4 va = some pa →
    m.frameAt pml4 w = some pa → va / 4096 = w / 4096
  lent : ∀ x ∈ others, Taken pml4 m x
  nodup : others.Nodup

section Frames

variable {pml4 va x : ℕ} {m : Machine} {P Q : ℕ → Prop} {others : List ℕ}

theorem StackFrames.mono (h : StackFrames pml4 m P others) (hPQ : ∀ va, P va → Q va) :
    StackFrames pml4 m Q others :=
  ⟨h.map, fun va pa hva hpa => ⟨hPQ va (h.page va pa hva hpa).1, (h.page va pa hva hpa).2⟩,
    h.distinct, h.lent, h.nodup⟩

theorem Machine.frameAt_eq_none : m.frameAt pml4 va = none ↔ m.leafEntry pml4 va = none := by
  simp [Machine.frameAt]

/-- A frame just handed out is no page table. -/
theorem MapInv.taken_alloc (h : MapInv pml4 m) (h0 : (m.pmm.pmmAllocPage).1 ≠ 0) :
    Taken pml4 { m with pmm := (m.pmm.pmmAllocPage).2 } (m.pmm.pmmAllocPage).1
      ∧ ¬ m.pmm.Busy (m.pmm.pmmAllocPage).1 := by
  obtain ⟨hv, hb⟩ := (Pmm.pmmAllocPage_spec h.pmm).2.2.2 h0
  refine ⟨⟨⟨(hb _).mpr (.inr rfl), fun p hp hx => ?_⟩, h0⟩, hv.not_busy⟩
  exact hv.not_busy (h.tree.busy p _ hp hx)

/-- What a round of the mapping loop does: its page is mapped to the frame taken, if at all. -/
theorem mapNext_effect (h : MapInv pml4 m) (h0 : (m.pmm.pmmAllocPage).1 ≠ 0) (va : ℕ) :
    MapInv pml4 (m.mapNext pml4 va kernelFlags)
      ∧ (∀ x, Taken pml4 m x → Taken pml4 (m.mapNext pml4 va kernelFlags) x)
      ∧ Taken pml4 (m.mapNext pml4 va kernelFlags) (m.pmm.pmmAllocPage).1
      ∧ (∀ w, leafPath va ≠ leafPath w →
        (m.mapNext pml4 va kernelFlags).leafEntry pml4 w = m.leafEntry pml4 w)
      ∧ ((m.mapNext pml4 va kernelFlags).frameAt pml4 va = m.frameAt pml4 va
        ∨ (m.mapNext pml4 va kernelFlags).frameAt pml4 va = some (m.pmm.pmmAllocPage).1) := by
  obtain ⟨hinv, hapart⟩ := vmmMapPage_apart h.alloc kernelFlags_ok va (m.pmm.pmmAllocPage).1
  obtain ⟨⟨hnew, -⟩, -⟩ := h.taken_alloc h0
  refine ⟨hinv, fun x hx => ⟨hapart x (h.apart_alloc hx.1), hx.2⟩, ⟨hapart _ hnew, h0⟩,
    fun w hw => mapNext_other h kernelFlags_ok hw, ?_⟩
  rcases lt_or_ge (m.missing pml4 (tablePath va)) m.pmm.freePages with hlt | hge
  · exact .inr (mapNext_frameAt h kernelFlags_ok h0 hlt)
  · rw [Machine.frameAt, (mapNext_short h kernelFlags_ok h0 hge).2.2, Machine.frameAt]
    exact .inl rfl

theorem StackFrames.mapNext (h : StackFrames pml4 m P others)
    (h0 : (m.pmm.pmmAllocPage).1 ≠ 0) (hva : InStackArea va)
    (hP : ∀ w, InStackArea w → w / 4096 = va / 4096 → P w) (hnone : m.frameAt pml4 va = none) :
    StackFrames pml4 (m.mapNext pml4 va kernelFlags) P others := by
  obtain ⟨hinv, hkeep, hnew, hother, hself⟩ := mapNext_effect h.map h0 va
  have hfresh := (h.map.taken_alloc h0).2
  -- A page of the area is as before, or it is the page of this round.
  have hcase : ∀ w pa, InStackArea w →
      (m.mapNext pml4 va kernelFlags).frameAt pml4 w = some pa →
      m.frameAt pml4 w = some pa
        ∨ (w / 4096 = va / 4096 ∧ pa = (m.pmm.pmmAllocPage).1) := by
    intro w pa hw hpa
    by_cases hpath : leafPath va = leafPath w
    · rw [← frameAt_congr hpath] at hpa
      rw [hnone] at hself
      refine .inr ⟨(hva.page_eq hw hpath).symm, ?_⟩
      rcases hself with hs | hs <;> rw [hs] at hpa
      · cases hpa
      · exact (Option.some.inj hpa).symm
    · rw [Machine.frameAt, hother w hpath] at hpa
      exact .inl hpa
  refine ⟨hinv, fun w pa hw hpa => ?_, fun w v pa hw hv hpa hpb => ?_,
    fun x hx => hkeep x (h.lent x hx), h.nodup⟩
  · rcases hcase w pa hw hpa with hold | ⟨hpage, rfl⟩
    · obtain ⟨hPw, htaken, hno⟩ := h.page w pa hw hold
      exact ⟨hPw, hkeep pa htaken, hno⟩
    · exact ⟨hP w hw hpage, hnew, fun hx => hfresh (h.lent _ hx).1.1⟩
  · rcases hcase w pa hw hpa with hold | ⟨hpage, rfl⟩ <;>
      rcases hcase v _ hv hpb with hold' | ⟨hpage', heq⟩
    · exact h.distinct w v pa hw hv hold hold'
    · exact absurd (heq ▸ (h.page w pa hw hold).2.1.1.1) hfresh
    · exact absurd (h.page v _ hv hold').2.1.1.1 hfresh
    · rw [hpage, hpage']

/-- The loop of `kstack_init`. -/
theorem StackFrames.mapEach : ∀ {vas : List ℕ} {m : Machine}, StackFrames pml4 m P others →
    (∀ va ∈ vas, InStackArea va) →
    (∀ va ∈ vas, ∀ w, InStackArea w → w / 4096 = va / 4096 → P w) →
    vas.Pairwise (fun va w => va / 4096 ≠ w / 4096) →
    (∀ va ∈ vas, m.frameAt pml4 va = none) →
    StackFrames pml4 (Machine.mapEach pml4 kernelFlags vas m).2 P others
  | [], _, h, _, _, _, _ => h
  | va :: vas, m, h, hin, hP, hd, hnone => by
    obtain ⟨hva, hd⟩ := List.pairwise_cons.mp hd
    rw [Machine.mapEach]
    split_ifs with h0
    · have hsame := Pmm.pmmAllocPage_of_eq_zero h.map.pmm h.map.zero h0
      rw [hsame]
      exact h
    · have hone := h.mapNext h0 (hin va List.mem_cons_self) (hP va List.mem_cons_self)
        (hnone va List.mem_cons_self)
      refine hone.mapEach (fun w hw => hin w (List.mem_cons_of_mem va hw))
        (fun w hw => hP w (List.mem_cons_of_mem va hw)) hd fun w hw => ?_
      have hpath : leafPath va ≠ leafPath w := fun hp => hva w hw
        ((hin va List.mem_cons_self).page_eq (hin w (List.mem_cons_of_mem va hw)) hp)
      rw [Machine.frameAt, (mapNext_effect h.map h0 va).2.2.2.1 w hpath]
      exact hnone w (List.mem_cons_of_mem va hw)

/-! ## Frames given back -/

/-- A frame that is no page table given back. -/
theorem MapInv.free (h : MapInv pml4 m) (hx : Taken pml4 m x) :
    MapInv pml4 { m with pmm := m.pmm.pmmFreePage x } := by
  have hbusy := Pmm.pmmFreePage_busy h.pmm hx.1.1.aligned
  refine ⟨Pmm.pmmFreePage_inv h.pmm x, (Pmm.pmmFreePage_totalPages m.pmm x).trans_le h.width,
    (hbusy 0).mpr ⟨h.zero, hx.2.symm⟩, h.tree.tree, fun p n hp hn => ?_⟩
  refine (hbusy n).mpr ⟨h.tree.busy p n hp hn, ?_⟩
  rintro rfl
  exact hx.1.2 p hp hn

theorem Taken.free {y : ℕ} (hy : Taken pml4 m y) (hI : m.pmm.Inv) (hal : 4096 ∣ x) (hne : y ≠ x) :
    Taken pml4 { m with pmm := m.pmm.pmmFreePage x } y :=
  ⟨⟨(Pmm.pmmFreePage_busy hI hal y).mpr ⟨hy.1.1, hne⟩, hy.1.2⟩, hy.2⟩

/-- A page that is not mapped is passed over. -/
theorem rollbackPage_of_none (h : m.leafEntry pml4 va = none) : m.rollbackPage pml4 va = m := by
  unfold Machine.rollbackPage
  rw [vmmGetPte_eq]
  rcases hpt : m.table pml4 (tablePath va) with _ | pt
  · rfl
  · rw [leafEntry_of_some hpt] at h
    split_ifs at h with hpr
    simp [hpr]

/-- One that is loses its entry, and its frame is given back. -/
theorem rollbackPage_of_some {e : BitVec 64} (h : m.leafEntry pml4 va = some e) :
    ∃ pt, m.table pml4 (tablePath va) = some pt
      ∧ m.rollbackPage pml4 va = Machine.setEntry
        { m with pmm := m.pmm.pmmFreePage (pteGetAddr e) } pt (ptIdx va) 0#64 := by
  obtain ⟨pt, hpt, rfl, hpr⟩ := leafEntry_eq_some h
  refine ⟨pt, hpt, ?_⟩
  unfold Machine.rollbackPage
  rw [vmmGetPte_eq, hpt]
  simp [hpr, Machine.setEntry]

/-- What a round of the releasing loop does to a mapped page. -/
theorem rollbackPage_effect (h : MapInv pml4 m) {e : BitVec 64}
    (he : m.leafEntry pml4 va = some e) (htaken : Taken pml4 m (pteGetAddr e)) :
    MapInv pml4 (m.rollbackPage pml4 va)
      ∧ (m.rollbackPage pml4 va).leafEntry pml4 va = none
      ∧ (∀ w, leafPath va ≠ leafPath w →
        (m.rollbackPage pml4 va).leafEntry pml4 w = m.leafEntry pml4 w)
      ∧ (∀ y, Taken pml4 m y → y ≠ pteGetAddr e → Taken pml4 (m.rollbackPage pml4 va) y)
      ∧ ∀ x, (m.rollbackPage pml4 va).pmm.Busy x ↔ m.pmm.Busy x ∧ x ≠ pteGetAddr e := by
  obtain ⟨pt, hpt, hroll⟩ := rollbackPage_of_some he
  have hfree := h.free htaken
  have htable : ∀ {p}, TablePath p → (Machine.setEntry
      { m with pmm := m.pmm.pmmFreePage (pteGetAddr e) } pt (ptIdx va) 0#64).table pml4 p
        = m.table pml4 p := fun hp => table_setEntry hfree.tree (tablePath_ok va) rfl hpt hp
  rw [hroll]
  refine ⟨⟨hfree.pmm, hfree.width, hfree.zero,
    tableTree_setEntry hfree.tree (tablePath_ok va) rfl hpt⟩, ?_, fun w hw => ?_,
    fun y hy hne => ?_, fun x => ?_⟩
  · rw [leafEntry_of_some ((htable (tablePath_ok va)).trans hpt), setEntry_phys_self]
    simp [isPresent_eq]
  · rw [leafEntry_setEntry hfree.tree hpt fun h1 h2 => hw (by rw [leafPath, leafPath, h1, h2])]
    exact leafEntry_pmm m _ pml4 w
  · obtain ⟨⟨hb, hno⟩, h0⟩ := hy.free h.pmm htaken.1.1.aligned hne
    exact ⟨⟨hb, fun p hp => by rw [htable hp]; exact hno p hp⟩, h0⟩
  · rw [setEntry_pmm]
    exact Pmm.pmmFreePage_busy h.pmm htaken.1.1.aligned x

/-- What rounds of the releasing loop do. -/
structure Released (pml4 : ℕ) (P : ℕ → Prop) (others : List ℕ) (vas : List ℕ) (m m' : Machine) :
    Prop where
  frames : StackFrames pml4 m' P others
  unmapped : ∀ va ∈ vas, m'.leafEntry pml4 va = none
  kept : ∀ w, (∀ va ∈ vas, leafPath va ≠ leafPath w) →
    m'.leafEntry pml4 w = m.leafEntry pml4 w
  busy : ∀ x, m'.pmm.Busy x ↔ m.pmm.Busy x ∧ ∀ va ∈ vas, m.frameAt pml4 va ≠ some x

theorem StackFrames.rollbackPage (h : StackFrames pml4 m P others) (hva : InStackArea va) :
    Released pml4 P others [va] m (m.rollbackPage pml4 va) := by
  rcases he : m.leafEntry pml4 va with _ | e
  · rw [rollbackPage_of_none he]
    refine ⟨h, by simpa using he, fun _ _ => rfl, fun x => ?_⟩
    simp [Machine.frameAt, he]
  · have hframe : m.frameAt pml4 va = some (pteGetAddr e) := by rw [Machine.frameAt, he]; rfl
    obtain ⟨-, htaken, hlent⟩ := h.page va _ hva hframe
    obtain ⟨hinv, hself, hother, hkeep, hbusy⟩ := rollbackPage_effect h.map he htaken
    -- What is still mapped in the area was so before, at other pages.
    have hold : ∀ w pa, InStackArea w → (m.rollbackPage pml4 va).frameAt pml4 w = some pa →
        m.frameAt pml4 w = some pa ∧ w / 4096 ≠ va / 4096 := by
      intro w pa hw hpa
      by_cases hpath : leafPath va = leafPath w
      · rw [← frameAt_congr hpath, Machine.frameAt, hself] at hpa
        cases hpa
      · rw [Machine.frameAt, hother w hpath] at hpa
        exact ⟨hpa, fun hc => hpath (leafPath_of_page hc.symm)⟩
    refine ⟨⟨hinv, fun w pa hw hpa => ?_, fun w v pa hw hv hpa hpb => ?_, fun x hx => ?_, h.nodup⟩,
      by simpa using hself, fun w hw => hother w (hw va List.mem_cons_self), fun x => ?_⟩
    · obtain ⟨hbefore, hne⟩ := hold w pa hw hpa
      obtain ⟨hPw, hpt, hno⟩ := h.page w pa hw hbefore
      refine ⟨hPw, hkeep pa hpt ?_, hno⟩
      rintro rfl
      exact hne (h.distinct w va _ hw hva hbefore hframe)
    · exact h.distinct w v pa hw hv (hold w pa hw hpa).1 (hold v pa hv hpb).1
    · refine hkeep x (h.lent x hx) ?_
      rintro rfl
      exact hlent hx
    · rw [hbusy, List.forall_mem_singleton, hframe, Ne, Ne, Option.some.injEq, eq_comm (a := x)]

theorem Released.append {m' m'' : Machine} {vas ws : List ℕ} (h : Released pml4 P others vas m m')
    (h' : Released pml4 P others ws m' m'') : Released pml4 P others (vas ++ ws) m m'' := by
  -- After the first pages a page is as before, or it is one of them.
  have hcase : ∀ w, (m'.leafEntry pml4 w = m.leafEntry pml4 w)
      ∨ (m'.leafEntry pml4 w = none ∧ ∃ va ∈ vas, leafPath va = leafPath w) := by
    intro w
    by_cases hw : ∃ va ∈ vas, leafPath va = leafPath w
    · obtain ⟨va, hva, hpath⟩ := hw
      exact .inr ⟨leafEntry_of_leafPath hpath ▸ h.unmapped va hva, va, hva, hpath⟩
    · push Not at hw
      exact .inl (h.kept w hw)
  refine ⟨h'.frames, fun va hva => ?_, fun w hw => ?_, fun x => ?_⟩
  · by_cases hw : ∃ w ∈ ws, leafPath w = leafPath va
    · obtain ⟨w, hw, hpath⟩ := hw
      exact leafEntry_of_leafPath hpath ▸ h'.unmapped w hw
    · push Not at hw
      rcases List.mem_append.mp hva with hva | hva
      · exact (h'.kept va hw).trans (h.unmapped va hva)
      · exact absurd rfl (hw va hva)
  · rw [h'.kept w fun va hva => hw va (List.mem_append_right _ hva),
      h.kept w fun va hva => hw va (List.mem_append_left _ hva)]
  · rw [h'.busy, h.busy, List.forall_mem_append, and_assoc]
    refine and_congr_right fun _ => and_congr_right fun hvas => forall₂_congr fun w _ => ?_
    rcases hcase w with hsame | ⟨hnone, va, hva, hpath⟩
    · rw [Machine.frameAt, hsame, Machine.frameAt]
    · have hne := hvas va hva
      rw [frameAt_congr hpath] at hne
      simp [Machine.frameAt_eq_none.mpr hnone, hne]

/-- The loop of `kstack_free`. -/
theorem StackFrames.rollback (h : StackFrames pml4 m P others) {start : ℕ} : ∀ (n : ℕ),
    (∀ i < n, InStackArea (u64 (start + i * pageSize))) →
    Released pml4 P others (pagesFrom start 0 n) m (m.rollback pml4 start n)
  | 0, _ => ⟨h, by simp [pagesFrom], fun _ _ => rfl, by simp [pagesFrom, Machine.rollback]⟩
  | n + 1, hin => by
    have ih := h.rollback n fun i hi => hin i (by omega)
    have hlast := ih.frames.rollbackPage (hin n (by omega))
    rw [pagesFrom_concat, Nat.zero_add]
    have hstep : m.rollback pml4 start (n + 1)
        = (m.rollback pml4 start n).rollbackPage pml4 (u64 (start + n * pageSize)) := by
      rw [Machine.rollback, List.range_succ, List.foldl_append]
      rfl
    rw [hstep]
    exact ih.append hlast

/-! ## Frames lent to others -/

/-- A change of the allocator alone, with other frames lent. -/
theorem StackFrames.setPmm (h : StackFrames pml4 m P others) {p : Pmm} {others' : List ℕ}
    (hmap : MapInv pml4 { m with pmm := p })
    (hkeep : ∀ y, Taken pml4 m y → y ∉ others → Taken pml4 { m with pmm := p } y ∧ y ∉ others')
    (hlent : ∀ y ∈ others', Taken pml4 { m with pmm := p } y) (hnodup : others'.Nodup) :
    StackFrames pml4 { m with pmm := p } P others' := by
  have hframe : ∀ va, Machine.frameAt { m with pmm := p } pml4 va = m.frameAt pml4 va :=
    fun va => by rw [Machine.frameAt, leafEntry_pmm, Machine.frameAt]
  refine ⟨hmap, fun va pa hva hpa => ?_, fun va w pa hva hw hpa hpb => ?_, hlent, hnodup⟩
  · obtain ⟨hP, htaken, hno⟩ := h.page va pa hva (hframe va ▸ hpa)
    exact ⟨hP, hkeep pa htaken hno⟩
  · exact h.distinct va w pa hva hw (hframe va ▸ hpa) (hframe w ▸ hpb)

theorem StackFrames.lend (h : StackFrames pml4 m P others) (h0 : (m.pmm.pmmAllocPage).1 ≠ 0) :
    StackFrames pml4 { m with pmm := (m.pmm.pmmAllocPage).2 } P
      ((m.pmm.pmmAllocPage).1 :: others) := by
  obtain ⟨hnew, hfresh⟩ := h.map.taken_alloc h0
  have hkeep : ∀ y, Taken pml4 m y → Taken pml4 { m with pmm := (m.pmm.pmmAllocPage).2 } y :=
    fun y hy => ⟨h.map.apart_alloc hy.1, hy.2⟩
  refine h.setPmm h.map.alloc (fun y hy hno => ⟨hkeep y hy, ?_⟩) (fun y hy => ?_)
    (List.nodup_cons.mpr ⟨fun hx => hfresh (h.lent _ hx).1.1, h.nodup⟩)
  · rw [List.mem_cons, not_or]
    exact ⟨fun hc => hfresh (hc ▸ hy.1.1), hno⟩
  · rcases List.mem_cons.mp hy with rfl | hy
    · exact hnew
    · exact hkeep y (h.lent y hy)

theorem StackFrames.giveBack (h : StackFrames pml4 m P others) (hx : x ∈ others) :
    StackFrames pml4 { m with pmm := m.pmm.pmmFreePage x } P (others.erase x) := by
  have htaken := h.lent x hx
  have hkeep : ∀ y, Taken pml4 m y → y ≠ x → Taken pml4 { m with pmm := m.pmm.pmmFreePage x } y :=
    fun y hy hne => hy.free h.map.pmm htaken.1.1.aligned hne
  refine h.setPmm (h.map.free htaken) (fun y hy hno => ?_) (fun y hy => ?_) (h.nodup.erase x)
  · exact ⟨hkeep y hy fun hc => hno (hc ▸ hx), fun hc => hno (List.mem_of_mem_erase hc)⟩
  · obtain ⟨hne, hy⟩ := h.nodup.mem_erase_iff.mp hy
    exact hkeep y (h.lent y hy) hne

end Frames

/-! ## Runs -/

/-- The page below the stack is not mapped. -/
def Guarded (m : MmState) (b : ℕ) : Prop :=
  ∀ va, b - pageSize ≤ va → va < b → m.leafEntry m.kernelPml4 va = none

/-- Calls for stacks, and what the other users of the frame allocator do. -/
inductive StackOp
  | kstackInit
  | kstackFree (base : ℕ)
  | pmmAllocPage
  | pmmFreePage (pa : ℕ)
  deriving Repr, DecidableEq

/-- The kernel's memory with the bases of the stacks ever returned, the last one first, of those not
freed since, and the frames the others hold. -/
structure StackRun where
  mem : MmState
  returned : List ℕ
  live : List ℕ
  others : List ℕ

namespace StackRun

/-- A stack is freed while it lives, and others give back what they hold. -/
def step (s : StackRun) : StackOp → Option StackRun
  | .kstackInit =>
    let r := s.mem.kstackInit kstackSize
    let new := if r.1 = 0 then [] else [r.1 - kstackSize]
    some { s with mem := r.2, returned := new ++ s.returned, live := new ++ s.live }
  | .kstackFree base =>
    if base ∈ s.live then
      some { s with mem := s.mem.kstackFree base, live := s.live.erase base }
    else none
  | .pmmAllocPage =>
    let r := s.mem.pmm.pmmAllocPage
    let new := if r.1 = 0 then [] else [r.1]
    some { s with mem := { s.mem with pmm := r.2 }, others := new ++ s.others }
  | .pmmFreePage pa =>
    if pa ∈ s.others then
      some { s with
        mem := { s.mem with pmm := s.mem.pmm.pmmFreePage pa }
        others := s.others.erase pa }
    else none

/-- `kstack_ptr` stays below `KERNEL_IMAGE_BASE`. -/
def Below (s : StackRun) : StackOp → Prop
  | .kstackInit => (s.mem.kstackInit kstackSize).2.kstackPtr < kernelImageBase
  | _ => True

instance (s : StackRun) : (op : StackOp) → Decidable (Below s op)
  | .kstackInit => inferInstanceAs (Decidable (_ < _))
  | .kstackFree _ | .pmmAllocPage | .pmmFreePage _ => isTrue trivial

/-- Below the pointer, and in no guard page. -/
def Used (ptr va : ℕ) : Prop :=
  va < ptr ∧ pageSize ≤ (va - kernelStackBase) % (pageSize + kstackSize)

structure Inv (s : StackRun) : Prop where
  frames : StackFrames s.mem.kernelPml4 s.mem.toMachine (Used s.mem.kstackPtr) s.others
  ptr : ∃ n, s.mem.kstackPtr = kernelStackBase + n * (pageSize + kstackSize)
  below : s.mem.kstackPtr < kernelImageBase
  base : ∀ b ∈ s.returned, (∃ n, b = kernelStackBase + n * (pageSize + kstackSize) + pageSize)
    ∧ b + kstackSize ≤ s.mem.kstackPtr
  order : s.returned.Pairwise fun a b => b + kstackSize ≤ a
  live : ∀ b ∈ s.live, b ∈ s.returned

end StackRun

/-- Before the first stack: page tables of their own, and nothing mapped where stacks will be. -/
structure StackStart (s : MmState) : Prop where
  map : MapInv s.kernelPml4 s.toMachine
  ptr : s.kstackPtr = kernelStackBase
  unmapped : ∀ va, InStackArea va → s.leafEntry s.kernelPml4 va = none

namespace StackRun

variable {s s' : StackRun}

theorem start_inv {m : MmState} (h : StackStart m) : Inv ⟨m, [], [], []⟩ := by
  refine ⟨⟨h.map, fun va pa hva hpa => ?_, fun va w pa hva hw hpa => ?_, by simp, List.nodup_nil⟩,
    ⟨0, by rw [h.ptr, Nat.zero_mul, Nat.add_zero]⟩, ?_, by simp, List.Pairwise.nil, by simp⟩
  · rw [Machine.frameAt_eq_none.mpr (h.unmapped va hva)] at hpa
    cases hpa
  · rw [Machine.frameAt_eq_none.mpr (h.unmapped va hva)] at hpa
    cases hpa
  · rw [h.ptr]
    unfold kernelStackBase kernelImageBase
    norm_num

/-- Where the next stack comes to lie. -/
theorem Inv.next (h : s.Inv) : s.mem.stackBottom = s.mem.kstackPtr + pageSize
    ∧ s.mem.stackTop kstackSize = s.mem.kstackPtr + (pageSize + kstackSize)
    ∧ s.mem.stackPages kstackSize = 4 := by
  have hlt := h.below
  unfold kernelImageBase at hlt
  have hbottom : s.mem.stackBottom = s.mem.kstackPtr + pageSize :=
    u64_of_lt (by unfold pageSize; omega)
  have htop : s.mem.stackTop kstackSize = s.mem.kstackPtr + (pageSize + kstackSize) := by
    unfold MmState.stackTop
    rw [hbottom, u64_of_lt (by unfold kstackSize pageSize; omega), Nat.add_assoc]
  refine ⟨hbottom, htop, ?_⟩
  unfold MmState.stackPages MmState.stackRounds
  rw [hbottom, htop]
  unfold pageSize kstackSize
  split_ifs <;> omega

/-- The pages of a stack. -/
theorem pagesFrom_stack {b : ℕ} (h : b + kstackSize ≤ kernelImageBase) :
    pagesFrom b 0 4 = [b, b + pageSize, b + 2 * pageSize, b + 3 * pageSize] := by
  have hpage : ∀ i < 4, u64 (b + i * pageSize) = b + i * pageSize := by
    intro i hi
    unfold kstackSize kernelImageBase at h
    exact u64_of_lt (by unfold pageSize; omega)
  change [u64 (b + 0 * pageSize), u64 (b + 1 * pageSize), u64 (b + 2 * pageSize),
    u64 (b + 3 * pageSize)] = _
  rw [hpage 0 (by decide), hpage 1 (by decide), hpage 2 (by decide), hpage 3 (by decide),
    Nat.zero_mul, Nat.one_mul, Nat.add_zero]

theorem mem_pagesFrom_stack {b va : ℕ} (h : b + kstackSize ≤ kernelImageBase) :
    va ∈ pagesFrom b 0 4 ↔ ∃ i < 4, va = b + i * pageSize := by
  rw [pagesFrom_stack h]
  simp only [List.mem_cons, List.not_mem_nil, or_false]
  unfold pageSize
  constructor
  · rintro (rfl | rfl | rfl | rfl)
    exacts [⟨0, by omega⟩, ⟨1, by omega⟩, ⟨2, by omega⟩, ⟨3, by omega⟩]
  · rintro ⟨i, hi, rfl⟩
    omega

/-- The pages of the stack above `ptr` are below the next value of the pointer. -/
theorem used_of_page {ptr n i w : ℕ} (hptr : ptr = kernelStackBase + n * (pageSize + kstackSize))
    (hi : i < 4) (hpage : w / 4096 = (ptr + pageSize + i * pageSize) / 4096) :
    Used (ptr + (pageSize + kstackSize)) w := by
  have hal : kernelStackBase % 4096 = 0 := rfl
  unfold Used
  unfold pageSize kstackSize at *
  omega

theorem stackPages_pairwise {b : ℕ} (h : b + kstackSize ≤ kernelImageBase) :
    (pagesFrom b 0 4).Pairwise fun va w => va / 4096 ≠ w / 4096 := by
  rw [pagesFrom_stack h]
  simp only [List.pairwise_cons, List.mem_cons, List.not_mem_nil, or_false, forall_eq_or_imp,
    forall_eq, List.Pairwise.nil, false_implies, implies_true, and_true]
  unfold pageSize
  omega

/-- The new stack's pages, as far as they get mapped, have frames of their own. -/
theorem Inv.mapStack (h : s.Inv)
    (hbelow : s.mem.kstackPtr + (pageSize + kstackSize) < kernelImageBase) :
    StackFrames s.mem.kernelPml4 (Machine.mapEach s.mem.kernelPml4 kernelFlags
      (pagesFrom s.mem.stackBottom 0 4) s.mem.toMachine).2
      (Used (s.mem.kstackPtr + (pageSize + kstackSize))) s.others := by
  obtain ⟨n, hptr⟩ := h.ptr
  have hfits : s.mem.kstackPtr + pageSize + kstackSize ≤ kernelImageBase := by omega
  rw [h.next.1]
  -- They lie above the pointer.
  have hmem : ∀ va ∈ pagesFrom (s.mem.kstackPtr + pageSize) 0 4,
      ∃ i < 4, va = s.mem.kstackPtr + pageSize + i * pageSize := fun va hva =>
    (mem_pagesFrom_stack hfits).mp hva
  have hin : ∀ va ∈ pagesFrom (s.mem.kstackPtr + pageSize) 0 4, InStackArea va := by
    intro va hva
    obtain ⟨i, hi, rfl⟩ := hmem va hva
    unfold InStackArea
    unfold pageSize kstackSize at *
    omega
  have hold := h.frames.mono fun va hva =>
    (⟨hva.1.trans_le (Nat.le_add_right _ _), hva.2⟩ :
      Used (s.mem.kstackPtr + (pageSize + kstackSize)) va)
  refine hold.mapEach hin ?_ (stackPages_pairwise hfits) ?_
  · intro va hva w _ hpage
    obtain ⟨i, hi, rfl⟩ := hmem va hva
    exact used_of_page hptr hi hpage
  · intro va hva
    rcases hpa : s.mem.frameAt s.mem.kernelPml4 va with _ | pa
    · rfl
    · have hlt := (h.frames.page va pa (hin va hva) hpa).1.1
      obtain ⟨i, hi, rfl⟩ := hmem va hva
      omega

/-- The base of a stack that is returned. -/
theorem Inv.mem_newBase (h : s.Inv) {b : ℕ}
    (hb : b ∈ (if (s.mem.kstackInit kstackSize).1 = 0 then []
      else [(s.mem.kstackInit kstackSize).1 - kstackSize])) :
    b = s.mem.kstackPtr + pageSize := by
  split_ifs at hb with h0
  · cases hb
  · rw [List.mem_singleton] at hb
    rw [kstackInit_eq] at hb h0
    dsimp only at hb h0
    split_ifs at hb h0 with hall
    · rw [hb, h.next.2.1]
      omega
    · exact absurd rfl h0

theorem Inv.kstackInit (h : s.Inv) (hok : Below s .kstackInit) (hs : step s .kstackInit = some s') :
    s'.Inv := by
  obtain ⟨-, htop, hpages⟩ := h.next
  obtain ⟨n, hptr⟩ := h.ptr
  have hnext : (s.mem.kstackInit kstackSize).2.kstackPtr
      = s.mem.kstackPtr + (pageSize + kstackSize) := by rw [kstackInit_eq, htop]
  have hbelow : s.mem.kstackPtr + (pageSize + kstackSize) < kernelImageBase := by
    unfold Below at hok
    rwa [hnext] at hok
  have hframes := h.mapStack hbelow
  obtain rfl := Option.some.inj hs
  refine ⟨?_, ⟨n + 1, ?_⟩, ?_, fun b hb => ?_, ?_, fun b hb => ?_⟩ <;> dsimp only at *
  · rw [hnext]
    rw [kstackInit_eq, hpages]
    exact hframes
  · rw [hnext, hptr, Nat.add_one_mul, Nat.add_assoc]
  · rw [hnext]
    exact hbelow
  · rw [hnext]
    rcases List.mem_append.mp hb with hb | hb
    · rw [h.mem_newBase hb]
      exact ⟨⟨n, by rw [hptr]⟩, by omega⟩
    · exact ⟨(h.base b hb).1, (h.base b hb).2.trans (Nat.le_add_right _ _)⟩
  · refine List.pairwise_append.mpr ⟨?_, h.order, fun a ha b hb => ?_⟩
    · split_ifs <;> simp
    · rw [h.mem_newBase ha]
      exact (h.base b hb).2.trans (Nat.le_add_right _ _)
  · rcases List.mem_append.mp hb with hb | hb
    · exact List.mem_append_left _ hb
    · exact List.mem_append_right _ (h.live b hb)

theorem kstackFree_eq (m : MmState) {b : ℕ} (h : b + kstackSize ≤ kernelImageBase) :
    m.kstackFree b = { m with toMachine := m.toMachine.rollback m.kernelPml4 b 4 } := by
  have htop : u64 (b + kstackSize) = b + kstackSize :=
    u64_of_lt (h.trans_lt (by simp [kernelImageBase]))
  have hlt : b < u64 (b + kstackSize) := by
    rw [htop]
    exact Nat.lt_add_of_pos_right (by decide)
  unfold MmState.kstackFree
  dsimp only
  rw [if_pos hlt]
  rfl

/-- What freeing a stack of the run does. -/
theorem Inv.released (h : s.Inv) {b : ℕ} (hb : b ∈ s.returned) :
    Released s.mem.kernelPml4 (Used s.mem.kstackPtr) s.others (pagesFrom b 0 4) s.mem.toMachine
      (s.mem.kstackFree b).toMachine := by
  obtain ⟨⟨n, hn⟩, htop⟩ := h.base b hb
  have hfits : b + kstackSize ≤ kernelImageBase := htop.trans h.below.le
  rw [kstackFree_eq s.mem hfits]
  refine h.frames.rollback 4 fun i hi => ?_
  have hmem : u64 (b + i * pageSize) ∈ pagesFrom b 0 4 := mem_pagesFrom hi
  obtain ⟨j, hj, hpage⟩ := (mem_pagesFrom_stack hfits).mp hmem
  rw [hpage]
  have hlt := h.below
  unfold InStackArea
  unfold pageSize kstackSize at *
  omega

theorem step_inv (op : StackOp) (h : s.Inv) (hok : Below s op) (hs : step s op = some s') :
    s'.Inv := by
  cases op with
  | kstackInit => exact h.kstackInit hok hs
  | kstackFree b =>
    rw [step] at hs
    split_ifs at hs with hb
    obtain rfl := Option.some.inj hs
    have hreleased := h.released (h.live b hb)
    rw [kstackFree_eq s.mem ((h.base b (h.live b hb)).2.trans h.below.le)] at hreleased ⊢
    exact ⟨hreleased.frames, h.ptr, h.below, h.base, h.order,
      fun a ha => h.live a (List.mem_of_mem_erase ha)⟩
  | pmmAllocPage =>
    cases hs
    refine ⟨?_, h.ptr, h.below, h.base, h.order, h.live⟩
    dsimp only
    split_ifs with h0
    · rw [Pmm.pmmAllocPage_of_eq_zero h.frames.map.pmm h.frames.map.zero h0]
      exact h.frames
    · exact h.frames.lend h0
  | pmmFreePage pa =>
    rw [step] at hs
    split_ifs at hs with hpa
    cases hs
    exact ⟨h.frames.giveBack hpa, h.ptr, h.below, h.base, h.order, h.live⟩

/-- Freeing the stack unmaps its pages and frees the frames they were bound to, no others. The
other stacks keep their pages and their frames. -/
structure Releases (s : StackRun) (b : ℕ) : Prop where
  unmapped : ∀ va, b ≤ va → va < b + kstackSize →
    (s.mem.kstackFree b).leafEntry s.mem.kernelPml4 va = none
  freed : ∀ x, (s.mem.kstackFree b).pmm.Busy x ↔ s.mem.pmm.Busy x
    ∧ ¬ ∃ va, b ≤ va ∧ va < b + kstackSize ∧ s.mem.frameAt s.mem.kernelPml4 va = some x
  others : ∀ a ∈ s.returned, a ≠ b → ∀ va, a ≤ va → va < a + kstackSize →
    (s.mem.kstackFree b).leafEntry s.mem.kernelPml4 va = s.mem.leafEntry s.mem.kernelPml4 va
      ∧ ∀ x, s.mem.frameAt s.mem.kernelPml4 va = some x → (s.mem.kstackFree b).pmm.Busy x

/-- The stacks of a run lie apart. -/
theorem Inv.disjoint (h : s.Inv) :
    s.returned.Pairwise fun a b => a + kstackSize ≤ b ∨ b + kstackSize ≤ a :=
  h.order.imp fun hab => .inr hab

theorem Inv.apart (h : s.Inv) {a b : ℕ} (ha : a ∈ s.returned) (hb : b ∈ s.returned) (hne : a ≠ b) :
    a + kstackSize ≤ b ∨ b + kstackSize ≤ a := by
  have : Std.Symm fun a b => a + kstackSize ≤ b ∨ b + kstackSize ≤ a := ⟨fun _ _ hab => hab.symm⟩
  exact h.disjoint.forall ha hb hne

theorem Inv.in_area (h : s.Inv) {b va : ℕ} (hb : b ∈ s.returned) (hlo : b - pageSize ≤ va)
    (hhi : va < b + kstackSize) : InStackArea va := by
  obtain ⟨⟨n, hn⟩, htop⟩ := h.base b hb
  have hlt := h.below
  unfold InStackArea
  omega

/-- An address in a stack is on one of its four pages. -/
theorem Inv.on_page (h : s.Inv) {b va : ℕ} (hb : b ∈ s.returned) :
    (b ≤ va ∧ va < b + kstackSize) ↔ ∃ w ∈ pagesFrom b 0 4, w / 4096 = va / 4096 := by
  obtain ⟨⟨n, hn⟩, htop⟩ := h.base b hb
  have hal : kernelStackBase % 4096 = 0 := rfl
  have hmem : ∀ w, w ∈ pagesFrom b 0 4 ↔ ∃ i < 4, w = b + i * pageSize :=
    fun w => mem_pagesFrom_stack (htop.trans h.below.le)
  unfold pageSize kstackSize at *
  constructor
  · rintro ⟨hlo, hhi⟩
    exact ⟨_, (hmem _).mpr ⟨(va - b) / 4096, by omega, rfl⟩, by omega⟩
  · rintro ⟨w, hw, hpage⟩
    obtain ⟨i, hi, rfl⟩ := (hmem w).mp hw
    omega

/-- The page below a stack is not mapped, before the stack is made or after. -/
theorem Inv.guarded (h : s.Inv) (h' : s'.Inv) {b : ℕ} (hb : b ∈ s'.returned) : Guarded s.mem b := by
  intro va hlo hhi
  have hva := h'.in_area hb hlo (hhi.trans_le (Nat.le_add_right _ _))
  obtain ⟨⟨n, hn⟩, -⟩ := h'.base b hb
  rcases hpa : s.mem.frameAt s.mem.kernelPml4 va with _ | pa
  · exact Machine.frameAt_eq_none.mp hpa
  · have hused := (h.frames.page va pa hva hpa).1.2
    unfold pageSize kstackSize at *
    omega

theorem Inv.releases (h : s.Inv) {b : ℕ} (hb : b ∈ s.live) : s.Releases b := by
  have hb := h.live b hb
  have hr := h.released hb
  refine ⟨fun va hlo hhi => ?_, fun x => ?_, fun a ha hne va hlo hhi => ?_⟩
  · obtain ⟨w, hw, hpage⟩ := (h.on_page hb).mp ⟨hlo, hhi⟩
    rw [← leafEntry_of_leafPath (leafPath_of_page hpage)]
    exact hr.unmapped w hw
  · rw [hr.busy]
    refine and_congr_right fun _ => ⟨?_, fun hno w hw hpa => ?_⟩
    · rintro hno ⟨va, hlo, hhi, hpa⟩
      obtain ⟨w, hw, hpage⟩ := (h.on_page hb).mp ⟨hlo, hhi⟩
      rw [← frameAt_congr (leafPath_of_page hpage)] at hpa
      exact hno w hw hpa
    · obtain ⟨hlo, hhi⟩ := (h.on_page hb).mpr ⟨w, hw, rfl⟩
      exact hno ⟨w, hlo, hhi, hpa⟩
  · have hva := h.in_area ha ((Nat.sub_le a pageSize).trans hlo) hhi
    -- Its page is none of those freed.
    have hoff : ∀ w ∈ pagesFrom b 0 4, InStackArea w ∧ w / 4096 ≠ va / 4096 := by
      intro w hw
      obtain ⟨hlo', hhi'⟩ := (h.on_page hb).mpr ⟨w, hw, rfl⟩
      refine ⟨h.in_area hb ((Nat.sub_le b pageSize).trans hlo') hhi', fun hpage => ?_⟩
      obtain ⟨hlo', hhi'⟩ := (h.on_page hb).mpr ⟨w, hw, hpage⟩
      rcases h.apart ha hb hne with hab | hab <;> omega
    refine ⟨hr.kept va fun w hw hpath => (hoff w hw).2 ((hoff w hw).1.page_eq hva hpath), ?_⟩
    intro x hx
    refine (hr.busy x).mpr ⟨(h.frames.page va x hva hx).2.1.1.1, fun w hw hpa => ?_⟩
    exact (hoff w hw).2 (h.frames.distinct w va x (hoff w hw).1 hva hpa hx)

end StackRun

/-! ## Boot -/

/-- No page of the boot's maps is where stacks will be. Only 48 bits of an address count. -/
def StackClear (hhdm : ℕ) (img : KernelImage) (mmap : List MemmapEntry) : Prop :=
  ∀ c ∈ pagingCalls hhdm img mmap,
    c.1 % 2 ^ 48 < kernelStackBase % 2 ^ 48 ∨ kernelImageBase % 2 ^ 48 ≤ c.1 % 2 ^ 48

/-- The stack area as it was. -/
def AreaKept (pml4 : ℕ) (m m' : Machine) : Prop :=
  ∀ va, InStackArea va → m'.leafEntry pml4 va = m.leafEntry pml4 va

section Boot

variable {pml4 : ℕ} {m : Machine}

/-- A page mapped outside the area leaves it as it was. -/
theorem vmmMapPage_area (h : MapInv pml4 m) {va : ℕ}
    (hva : ∀ w, InStackArea w → leafPath va ≠ leafPath w) (pa : ℕ) :
    MapInv pml4 (m.vmmMapPage pml4 va pa kernelFlags)
      ∧ AreaKept pml4 m (m.vmmMapPage pml4 va pa kernelFlags) :=
  ⟨(vmmMapPage_apart h kernelFlags_ok va pa).1,
    fun w hw => vmmMapPage_other h kernelFlags_ok (hva w hw) pa⟩

theorem mapCalls_area : ∀ (calls : List (ℕ × ℕ)) {m : Machine}, MapInv pml4 m →
    (∀ c ∈ calls, ∀ w, InStackArea w → leafPath c.1 ≠ leafPath w) →
      MapInv pml4 (calls.foldl (Machine.mapCall pml4) m)
        ∧ AreaKept pml4 m (calls.foldl (Machine.mapCall pml4) m)
  | [], m, h, _ => ⟨h, fun _ _ => rfl⟩
  | c :: cs, m, h, hcs => by
    obtain ⟨hone, hkept⟩ := vmmMapPage_area h (hcs c List.mem_cons_self) c.2
    obtain ⟨hall, hkept'⟩ := mapCalls_area cs hone fun d hd => hcs d (List.mem_cons_of_mem c hd)
    exact ⟨hall, fun w hw => (hkept' w hw).trans (hkept w hw)⟩

/-- The heap's first pages lie below the area. -/
theorem kheapExpand_area : ∀ {n : ℕ} {k k' : KMem} {ok : Bool}, MapInv k.kernelPml4 k.toMachine →
    kernelHeapBase ≤ k.heap.kheapTop → k.heap.kheapTop + n * pageSize ≤ kernelStackBase →
    KMem.kheapExpand n k = some (ok, k') →
      k'.kernelPml4 = k.kernelPml4 ∧ MapInv k.kernelPml4 k'.toMachine
        ∧ AreaKept k.kernelPml4 k.toMachine k'.toMachine
  | 0, k, k', ok, h, _, _, he => by
    cases he
    exact ⟨rfl, h, fun _ _ => rfl⟩
  | n + 1, k, k', ok, h, hlo, hhi, he => by
    have halloc : AreaKept k.kernelPml4 k.toMachine { k with pmm := (k.pmm.pmmAllocPage).2 } :=
      fun w _ => leafEntry_pmm k.toMachine _ k.kernelPml4 w
    rcases KMem.kheapExpand_cases he with ⟨-, -, rfl⟩ | ⟨-, -, hrest⟩
    · exact ⟨rfl, h.alloc, halloc⟩
    have hout : ∀ w, InStackArea w → leafPath k.heap.kheapTop ≠ leafPath w := by
      intro w hw hpath
      rw [leafPath_eq_iff] at hpath
      unfold InStackArea at hw
      unfold kernelHeapBase at hlo
      unfold pageSize kernelStackBase kernelImageBase at *
      omega
    obtain ⟨hone, hkept⟩ := vmmMapPage_area h.alloc hout (k.pmm.pmmAllocPage).1
    have htop : k.grown.heap.kheapTop = k.heap.kheapTop + pageSize := by
      have hlt : k.heap.kheapTop + pageSize < 2 ^ 64 := by
        unfold kernelStackBase pageSize at *
        omega
      exact u64_of_lt hlt
    obtain ⟨hpml4, hall, hkept'⟩ := kheapExpand_area (k := k.grown) hone (by omega)
      (by rw [htop]; linarith) hrest
    exact ⟨hpml4, hall, fun w hw => (hkept' w hw).trans ((hkept w hw).trans (halloc w hw))⟩

/-- Booting leaves the stack area empty. -/
theorem bootMemory_stackStart {hhdm : ℕ} {img : KernelImage} {mmap : List MemmapEntry}
    {phys : PhysMem} {k : Kernel} (hfit : MemoryFits mmap) (hclear : StackClear hhdm img mmap)
    (h : bootMemory hhdm img mmap 4 phys = some k) :
    StackStart { k with kstackPtr := kernelStackBase } := by
  unfold bootMemory at h
  obtain ⟨p, hp, h⟩ := Option.bind_eq_some_iff.mp h
  obtain ⟨⟨pml4, m⟩, hm, h⟩ := Option.bind_eq_some_iff.mp h
  obtain ⟨km, hk, rfl⟩ := Option.map_eq_some_iff.mp h
  obtain ⟨hI, -, htot⟩ := pmmInit_inv hp
  unfold MemoryFits kernelHeapBase at hfit
  rw [pagingInit_eq] at hm
  split_ifs at hm with h0
  simp only [Option.some.injEq, Prod.mk.injEq] at hm
  obtain ⟨rfl, rfl⟩ := hm
  obtain ⟨hcleared, hempty⟩ := clearPml4_tables (m := ⟨p, phys⟩) hI (by dsimp only; omega) h0
  have hcalls : ∀ c ∈ pagingCalls hhdm img mmap, ∀ w, InStackArea w →
      leafPath c.1 ≠ leafPath w := by
    intro c hc w hw hpath
    have hout := hclear c hc
    rw [leafPath_eq_iff] at hpath
    unfold InStackArea at hw
    unfold kernelStackBase kernelImageBase at *
    omega
  obtain ⟨hmaps, hkept⟩ := mapCalls_area _ hcleared.toMapInv hcalls
  obtain ⟨⟨ok, km'⟩, he, rfl⟩ := Option.map_eq_some_iff.mp hk
  have hroom : kernelHeapBase + 4 * pageSize ≤ kernelStackBase := by decide
  obtain ⟨hpml4, hinv, hkept'⟩ := kheapExpand_area hmaps le_rfl hroom he
  refine ⟨?_, rfl, fun va hva => ?_⟩
  · rw [← hpml4] at hinv
    exact hinv
  · have hnone := (hkept' va hva).trans ((hkept va hva).trans (hempty va))
    rw [← hpml4] at hnone
    exact hnone

end Boot

/-- Stacks lie apart, each above a page that is never mapped. Freeing a stack unmaps its pages and
gives back their frames, no others, and the other stacks keep theirs. -/
theorem kernel_stacks_separate {m : MmState} (h₀ : StackStart m) {ops more : List StackOp}
    {s s' : StackRun} (hok : Run.Meets StackRun.step StackRun.Below ⟨m, [], [], []⟩ ops)
    (hrun : Run.run StackRun.step ⟨m, [], [], []⟩ ops = some s)
    (hok' : Run.Meets StackRun.step StackRun.Below s more)
    (hrun' : Run.run StackRun.step s more = some s') :
    (s'.returned.Pairwise fun a b => a + kstackSize ≤ b ∨ b + kstackSize ≤ a)
      ∧ (∀ b, b ∈ s.returned ∨ b ∈ s'.returned → Guarded s.mem b ∧ Guarded s'.mem b)
      ∧ ∀ b ∈ s'.live, s'.Releases b := by
  have hstep : ∀ s op s', StackRun.Inv s → StackRun.Below s op → StackRun.step s op = some s' →
      s'.Inv := fun _ op _ h hok hs => StackRun.step_inv op h hok hs
  have hI : s.Inv := Run.run_invariant_of_meets hstep (StackRun.start_inv h₀) hok hrun
  have hI' : s'.Inv := Run.run_invariant_of_meets hstep hI hok' hrun'
  refine ⟨hI'.disjoint, fun b hb => ?_, fun b hb => hI'.releases hb⟩
  rcases hb with hb | hb
  · exact ⟨hI.guarded hI hb, hI'.guarded hI hb⟩
  · exact ⟨hI.guarded hI' hb, hI'.guarded hI' hb⟩

/-- The kernel's memory before its first stack. -/
def stackBoot : Option MmState :=
  (bootMemory 0xFFFF800000000000 ⟨0xFFFFFFFF80000000, 0, 0⟩ bootMmap 4 fun _ _ => 0#64).map
    fun k => { k with kstackPtr := kernelStackBase }

def twoStacks : List StackOp := [.kstackInit, .pmmAllocPage, .kstackInit]

/-- The second stack is freed, its frames are handed out again, and a third is made. -/
def stackReused : List StackOp :=
  [.kstackFree (kernelStackBase + 0x6000), .pmmAllocPage, .pmmAllocPage, .kstackInit]

theorem kernel_stacks_separate_bootMmap :
    ∃ m s s', stackBoot = some m
      ∧ Run.run StackRun.step ⟨m, [], [], []⟩ twoStacks = some s
      ∧ Run.run StackRun.step s stackReused = some s'
      ∧ s'.live = [kernelStackBase + 0xB000, kernelStackBase + 0x1000]
      ∧ (s'.returned.Pairwise fun a b => a + kstackSize ≤ b ∨ b + kstackSize ≤ a)
      ∧ (∀ b, b ∈ s.returned ∨ b ∈ s'.returned →
        Guarded s.mem b ∧ Guarded s'.mem b)
      ∧ ∀ b ∈ s'.live, s'.Releases b := by
  have hruns : (stackBoot.bind fun m =>
      (Run.run StackRun.step ⟨m, [], [], []⟩ twoStacks).bind fun s =>
        (Run.run StackRun.step s stackReused).map fun s' =>
          (s'.live, decide (Run.Meets StackRun.step StackRun.Below ⟨m, [], [], []⟩ twoStacks),
            decide (Run.Meets StackRun.step StackRun.Below s stackReused)))
      = some ([kernelStackBase + 0xB000, kernelStackBase + 0x1000], true, true) := by
    decide +kernel
  obtain ⟨m, hm, hruns⟩ := Option.bind_eq_some_iff.mp hruns
  obtain ⟨s, hs, hruns⟩ := Option.bind_eq_some_iff.mp hruns
  obtain ⟨s', hs', hlast⟩ := Option.map_eq_some_iff.mp hruns
  simp only [Prod.mk.injEq, decide_eq_true_eq] at hlast
  obtain ⟨hlive, hok, hok'⟩ := hlast
  have h₀ : StackStart m := by
    obtain ⟨k, hk, rfl⟩ := Option.map_eq_some_iff.mp hm
    have hclear : StackClear 0xFFFF800000000000 ⟨0xFFFFFFFF80000000, 0, 0⟩ bootMmap := by
      unfold StackClear
      decide +kernel
    exact bootMemory_stackStart (by unfold MemoryFits; decide) hclear hk
  exact ⟨m, s, s', hm, hs, hs', hlive, kernel_stacks_separate h₀ hok hs hok' hs'⟩

end SudoOS
