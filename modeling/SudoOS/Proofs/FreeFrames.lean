import SudoOS.Proofs.DeepCopy

/-!
# What free frames hold

Mapping a page writes to page tables only, and these are taken. So a frame holds what it held for as
long as it is free, and a page frame that `mm_map_range` has just mapped holds it still: nobody
clears it (`mmMapRange_filled`).
-/

namespace SudoOS

/-- Every frame that is not taken holds `w` in all its words. -/
def Machine.Filled (m : Machine) (w : BitVec 64) : Prop :=
  ∀ a j, ¬ m.pmm.Busy a → m.phys a j = w

section Mapping

variable {K : Type*} {root : K → Option ℕ} {adm : K → List ℕ → Prop} {k₀ : K} {m m' : Machine}
  {pml4 va : ℕ} {flags w : BitVec 64}

theorem Machine.Filled.of_words (h : m.Filled w) (hbusy : ∀ n, m.pmm.Busy n → m'.pmm.Busy n)
    (hwords : ∀ a j, m'.phys a j ≠ m.phys a j → m'.pmm.Busy a) : m'.Filled w := by
  intro a j ha
  by_contra hc
  refine ha (hwords a j fun he => hc ?_)
  rw [he]
  exact h a j fun hb => ha (hbusy a hb)

theorem Machine.Filled.alloc (h : m.Filled w) (hI : m.pmm.Inv) :
    Machine.Filled { m with pmm := (m.pmm.pmmAllocPage).2 } w :=
  h.of_words (Pmm.pmmAllocPage_spec hI).2.2.1 fun _ _ hc => absurd rfl hc

/-- A descent writes to tables of its path. -/
theorem nextTables_writes (hadm : Radix.Closed adm) (hf : FlagsOk flags) :
    ∀ (is : List ℕ) (m : Machine) (p₀ : List ℕ) (t : ℕ), Owned root adm m →
      m.node root k₀ p₀ = some t → adm k₀ (p₀ ++ is) →
      ∀ a j, (m.nextTables true flags t is).2.phys a j ≠ m.phys a j →
        ∃ p, adm k₀ p ∧ (m.nextTables true flags t is).2.node root k₀ p = some a
  | [], m, p₀, t, _, _, _, a, j, hc => absurd rfl hc
  | i :: is, m, p₀, t, hO, hn, hp, a, j, hc => by
    rw [show p₀ ++ i :: is = p₀ ++ [i] ++ is by simp] at hp
    have hpi := hadm.of_append is hp
    have hp₀ := hadm.of_append [i] hpi
    obtain ⟨h1, h2, h3⟩ := getNextTable_spec hadm hO hn hpi hf
    simp only [Machine.nextTables] at hc ⊢
    rcases getNextTable_cases m t i flags with ⟨x, -, he⟩ | ⟨-, -, he⟩ | ⟨-, h0, he⟩ <;>
      rw [he] at h1 h2 h3 hc ⊢
    · exact nextTables_writes hadm hf is m (p₀ ++ [i]) x hO (h3 x rfl) hp a j hc
    · exact absurd rfl hc
    · have hx := h3 _ rfl
      obtain ⟨-, hG, -⟩ := nextTables_spec hadm hf is _ (p₀ ++ [i]) _ h1 hx hp
      have hrest := nextTables_writes hadm hf is _ (p₀ ++ [i]) _ h1 hx hp a j
      by_cases hax : a = (m.pmm.pmmAllocPage).1
      · exact ⟨p₀ ++ [i], hpi, hG.kept k₀ _ _ hpi (hax ▸ hx)⟩
      · by_cases hat : a = t
        · exact ⟨p₀, hp₀, hG.kept k₀ _ _ hp₀ (h2.kept k₀ _ _ hp₀ (hat ▸ hn))⟩
        · refine hrest fun heq => hc (heq.trans ?_)
          dsimp only
          rw [PhysMem.write_of_ne fun h => absurd h hat, PhysMem.zeroPage_of_ne hax]

/-- `vmm_map_page` writes to taken frames, and not to one that is in no tree. -/
theorem vmmMapPage_writes (hadm : Radix.Closed adm) (hf : FlagsOk flags) (hO : Owned root adm m)
    (hroot : root k₀ = some pml4) (hp : adm k₀ (tablePath va)) (pa : ℕ) {a j : ℕ}
    (hc : (m.vmmMapPage pml4 va pa flags).phys a j ≠ m.phys a j) :
    (m.vmmMapPage pml4 va pa flags).pmm.Busy a
      ∧ ∀ x, m.pmm.Busy x → Radix.Fresh (tableChild m.phys) root adm x → a ≠ x := by
  have hn : m.node root k₀ [] = some pml4 := (Radix.node_nil _ _ _).trans hroot
  obtain ⟨hO₁, hG, hpt⟩ := nextTables_spec hadm hf (tablePath va) m [] pml4 hO hn hp
  have hwrites := nextTables_writes hadm hf (tablePath va) m [] pml4 hO hn hp a j
  have hnode : (∃ p, adm k₀ p
      ∧ (m.nextTables true flags pml4 (tablePath va)).2.node root k₀ p = some a)
      ∧ (m.vmmMapPage pml4 va pa flags).pmm
        = (m.nextTables true flags pml4 (tablePath va)).2.pmm := by
    unfold Machine.vmmMapPage at hc ⊢
    rw [← tablePath] at hc ⊢
    rcases hr : m.nextTables true flags pml4 (tablePath va) with ⟨_ | pt, m₁⟩ <;>
      rw [hr] at hc hwrites hpt
    · exact ⟨hwrites hc, rfl⟩
    · refine ⟨?_, rfl⟩
      by_cases hat : a = pt
      · exact ⟨tablePath va, hp, hat ▸ hpt pt rfl⟩
      · refine hwrites fun heq => hc (Eq.trans ?_ heq)
        exact setEntry_phys_of_ne fun h => absurd h hat
  obtain ⟨⟨p, hpa, ha⟩, hpmm⟩ := hnode
  refine ⟨hpmm ▸ hO₁.busy k₀ p a hpa ha, fun x hx hfresh hax => ?_⟩
  exact hG.fresh hx hfresh k₀ p hpa (hax ▸ ha)

theorem Machine.Filled.vmmMapPage (h : m.Filled w) (hadm : Radix.Closed adm) (hf : FlagsOk flags)
    (hO : Owned root adm m) (hroot : root k₀ = some pml4) (hp : adm k₀ (tablePath va)) (pa : ℕ) :
    (m.vmmMapPage pml4 va pa flags).Filled w :=
  h.of_words (vmmMapPage_busy pml4 va pa flags hO.pmm).2 fun _ _ hc =>
    (vmmMapPage_writes hadm hf hO hroot hp pa hc).1

/-- A page that is mapped to a new frame shows what that held. -/
theorem Machine.Filled.mapNext (h : m.Filled w) (hadm : Radix.Closed adm) (hf : FlagsOk flags)
    (hT : TablesOk root adm m) (hroot : root k₀ = some pml4) (hp : adm k₀ (tablePath va))
    (h0 : (m.pmm.pmmAllocPage).1 ≠ 0) :
    (m.mapNext pml4 va flags).Filled w
      ∧ ∀ j, (m.mapNext pml4 va flags).phys (m.pmm.pmmAllocPage).1 j = w := by
  obtain ⟨hv, hbusy⟩ := (Pmm.pmmAllocPage_spec hT.pmm).2.2.2 h0
  have halloc := (hT.alloc (T := fun _ _ => False) hadm).tables.toOwned
  refine ⟨(h.alloc hT.pmm).vmmMapPage hadm hf halloc hroot hp _, fun j => ?_⟩
  by_contra hc
  have hw : m.phys (m.pmm.pmmAllocPage).1 j = w := h _ j hv.not_busy
  refine (vmmMapPage_writes hadm hf halloc hroot hp (m.pmm.pmmAllocPage).1 (a := _) (j := j)
    fun heq => hc ?_).2 _ ((hbusy _).mpr (.inr rfl)) (hT.fresh_of_vacant hv) rfl
  exact Eq.trans heq hw

/-- So do all the pages of the common loop. -/
theorem Machine.Filled.mapEach (hadm : Radix.Closed adm) (hf : FlagsOk flags)
    (hroot : root k₀ = some pml4) : ∀ {vas : List ℕ} {m m' : Machine}, m.Filled w →
    TablesOk root adm m → (∀ va ∈ vas, IsLeaf adm k₀ (leafPath va)) →
    vas.Pairwise (fun va x => leafPath va ≠ leafPath x) → m.Served pml4 flags vas →
    Machine.mapEach pml4 flags vas m = (true, m') →
    m'.Filled w ∧ ∀ va ∈ vas, ∀ pa, m'.frameAt pml4 va = some pa → ∀ j, m'.phys pa j = w
  | [], m, m', h, _, _, _, _, he => by
    obtain rfl := congrArg Prod.snd he
    exact ⟨h, fun va hva => absurd hva List.not_mem_nil⟩
  | va :: vas, m, m', h, hT, hleaf, hpw, ⟨h0, htables, hserved⟩, he => by
    obtain ⟨hne, htail⟩ := List.pairwise_cons.mp hpw
    have hva := hleaf va List.mem_cons_self
    have hleaf' := fun x hx => hleaf x (List.mem_cons_of_mem va hx)
    have hk := mapNext_kept hadm hT hroot hva hf h0
    obtain ⟨-, hframe, -⟩ := mapNext_spec hadm hT hroot hva hf h0 htables
    obtain ⟨hfill, hpage⟩ := h.mapNext hadm hf hT hroot (hadm _ _ _ hva.1) h0
    rw [Machine.mapEach, if_neg h0] at he
    obtain ⟨hfill', hpages⟩ := Machine.Filled.mapEach hadm hf hroot hfill hk.tables hleaf' htail
      hserved he
    refine ⟨hfill', fun x hx pa hpa j => ?_⟩
    rcases List.mem_cons.mp hx with rfl | hx
    · obtain ⟨m'', he', hk', -⟩ := mapEach_served hadm hroot hf hk.tables hleaf' htail hserved
      obtain rfl := congrArg Prod.snd (he.symm.trans he')
      obtain ⟨e, hent, heq⟩ := Option.map_eq_some_iff.mp hframe
      have hoff : ∀ q, k₀ = k₀ ∧ (∃ y ∈ vas, q = leafPath y) →
          ∃ y, q = leafPath y ∧ leafPath y ≠ leafPath x := by
        rintro q ⟨-, y, hy, rfl⟩
        exact ⟨y, rfl, fun hc => hne y hy hc.symm⟩
      obtain ⟨g1, g2⟩ :=
        (hk'.touches k₀ pml4 hroot).page_eq (hadm _ _ _ hva.1) hva.1 hoff hent
      rw [Machine.frameAt, g1, Option.map_some, heq] at hpa
      rw [← Option.some.inj hpa, ← heq, g2, heq]
      exact hpage j
    · exact hpages x hx pa hpa j

end Mapping

section Heap

variable {own : ℕ → Prop} {spaces : ℕ → Option ℕ} {w : BitVec 64}

theorem Machine.Filled.kheapExpand : ∀ {n : ℕ} {frames : List ℕ} {k k' : KMem} {ok : Bool},
    k.Filled w → MemInv (fun _ => False) spaces frames k →
      KMem.kheapExpand n k = some (ok, k') → k'.Filled w
  | 0, frames, k, k', ok, h, _, he => by
    simp only [KMem.kheapExpand, Option.some.injEq, Prod.mk.injEq] at he
    exact he.2 ▸ h
  | n + 1, frames, k, k', ok, h, hk, he => by
    have halloc := h.alloc hk.tables.pmm
    rcases KMem.kheapExpand_cases he with ⟨-, -, rfl⟩ | ⟨h0, -, he⟩
    · exact halloc
    · obtain ⟨frames', hk'⟩ := (hk.grown (T := fun _ _ => False) h0 fun hc => hc).mem
      have hgrown : k.grown.Filled w := halloc.vmmMapPage closed_treePath kernelFlags_ok
        (hk.tables.alloc (T := fun _ _ => False) closed_treePath).tables.toOwned
        (show treeRoot k.kernelPml4 frames spaces .kernel = some k.kernelPml4 from rfl)
        (.inl (tablePath_ok _)) _
      exact hgrown.kheapExpand hk' he

theorem Machine.Filled.kmalloc : ∀ {fuel size : ℕ} {frames : List ℕ} {k k' : KMem} {p : ℕ},
    k.Filled w → MemInv (fun _ => False) spaces frames k →
      KMem.kmallocLoop fuel size k = some (p, k') → k'.Filled w
  | 0, size, frames, k, k', p, h, _, he => by
    simp only [KMem.kmallocLoop, Option.some.injEq, Prod.mk.injEq] at he
    exact he.2 ▸ h
  | fuel + 1, size, frames, k, k', p, h, hk, he => by
    unfold KMem.kmallocLoop at he
    dsimp only at he
    rcases hff : k.heap.firstFit (alignUp size 8) with _ | t <;> rw [hff] at he
    · dsimp only at he
      rcases hx : KMem.kheapExpand (KMem.pgNeeded (alignUp size 8)) k with _ | ⟨_ | _, k₁⟩ <;>
        rw [hx] at he
      · cases he
      · simp only [Option.some.injEq, Prod.mk.injEq] at he
        exact he.2 ▸ h.kheapExpand hk hx
      · obtain ⟨frames₁, hk₁⟩ :=
          (kheapExpand_kept (T := fun _ _ => False) hk (heapClear_false _) hx).mem
        exact (h.kheapExpand hk hx).kmalloc hk₁ he
    · simp only [Option.some.injEq, Prod.mk.injEq] at he
      rw [← he.2]
      exact h

end Heap

/-- The pages that a granted call has mapped show what the free frames held. -/
theorem mmMapRange_filled {live : List ℕ} {k k' : Kernel} {mm : ℕ} {r : MapRequest}
    {w : BitVec 64} (hI : SpacesInv (fun _ => False) live k) (hin : mm ∈ live)
    (hva : r.va + r.size ≤ 2 ^ 47) (hs : 0 < r.size) (hg : k.Grants mm r)
    (h : k.mmMapRange mm r.va r.size r.vmFlags = some (true, k')) (hw : k.Filled w) :
    k'.Filled w ∧ ∀ n, r.HasPage n → ∀ pa,
      k'.frameAt (k.mms mm).pml4Pa (n * pageSize) = some pa → ∀ j, k'.phys pa j = w := by
  obtain ⟨-, -, vma, km, m', hkm, -, he, rfl⟩ := mmMapRange_true_iff.mp h
  unfold Kernel.Grants at hg
  rw [hkm] at hg
  obtain ⟨frames, hmem⟩ := hI.mem
  obtain ⟨frames₁, hmem₁⟩ :=
    (kmallocLoop_kept (T := fun _ _ => False) hmem (heapClear_false _) hkm).mem
  have hpages := mem_pages_iff hva hs
  obtain ⟨hstart, hcount⟩ : (requestArea mm r.va r.size r.vmFlags).vmStart = _ ∧ _ :=
    requestArea_of_lt (by omega)
  rw [hstart, hcount] at he
  have hleaf : ∀ x ∈ pagesFrom (r.va / pageSize * pageSize) 0 (pageSpan r.va r.size),
      IsLeaf (treePath fun _ => False) (.mm mm) (leafPath x) := by
    intro x hx
    obtain ⟨n, hn, rfl⟩ := (hpages x).mp hx
    exact isLeaf_leafPath mm (pml4Idx_user (hn.user hva))
  have hroot : treeRoot km.kernelPml4 frames₁ (k.spaces live) (.mm mm)
      = some (k.mms mm).pml4Pa := if_pos hin
  obtain ⟨hfill, hframes⟩ := Machine.Filled.mapEach closed_treePath (pteFlagsOf_ok r.vmFlags)
    hroot (hw.kmalloc hmem hkm) hmem₁.tables hleaf (pages_pairwise hva) hg.2 he
  exact ⟨hfill, fun n hn => hframes _ ((hpages _).mpr ⟨n, hn, rfl⟩)⟩

end SudoOS
