import SudoOS.Proofs.Kheap

/-!
# Growth of the kernel heap

Whatever is asked of a heap whose blocks tile it, its blocks tile it afterwards (`heap_tiling`), as
long as the pages it may grow by end below the last address: `kheap_top` is advanced modulo
`2 ^ 64` (`kheapExpand_wraps`). The mappings that an expansion makes are assumed to succeed
(`KMem.Maps`).

An expansion hands its pages to `kfree`, which joins them with the last block even when that one
is in use. The block that `kmalloc` was missing is there after the expansion exactly when the last
block was free, or there was none (`growth_effective`).
-/

namespace SudoOS

open Tiling

namespace KMem

/-- Each page that `n` rounds of `kheap_expand` take a frame for gets mapped. -/
def Maps : ℕ → KMem → Prop
  | 0, _ => True
  | n + 1, k => (k.pmm.pmmAllocPage).1 ≠ 0 →
    k.grown.leafEntry k.kernelPml4 k.heap.kheapTop ≠ none ∧ Maps n k.grown

instance Maps.decidable : (n : ℕ) → (k : KMem) → Decidable (Maps n k)
  | 0, _ => isTrue trivial
  | n + 1, k =>
    have := Maps.decidable n k.grown
    inferInstanceAs (Decidable (_ → _))

/-- Once the free frames are used up nothing is mapped any more. -/
theorem Maps.of_frames : ∀ {m n : ℕ} {k : KMem}, k.pmm.freePages ≤ m → Maps m k → Maps n k
  | _, 0, _, _, _ => trivial
  | m, n + 1, k, hle, h => by
    intro h0
    have hlt := (Pmm.pmmAllocPage_freePages k.pmm).2 h0
    have hgrown : k.grown.pmm.freePages ≤ (k.pmm.pmmAllocPage).2.freePages :=
      vmmMapPage_freePages _ _ _ _ _
    cases m with
    | zero => omega
    | succ m => exact ⟨(h h0).1, Maps.of_frames (by omega) (h h0).2⟩

theorem kheapExpand_succ (n : ℕ) (k : KMem) :
    kheapExpand (n + 1) k =
      if (k.pmm.pmmAllocPage).1 = 0 then some (false, { k with pmm := (k.pmm.pmmAllocPage).2 })
      else
        match k.grown.leafEntry k.kernelPml4 k.heap.kheapTop with
        | none => none
        | some _ => kheapExpand n k.grown := rfl

theorem kheapExpand_of_maps : ∀ {n : ℕ} {k : KMem}, Maps n k →
    ∃ ok k', kheapExpand n k = some (ok, k')
      ∧ ∀ j, ok = true → Maps (n + j) k → Maps j k'
  | 0, k, _ => ⟨true, k, rfl, fun j _ h => by rwa [Nat.zero_add] at h⟩
  | n + 1, k, h => by
    by_cases h0 : (k.pmm.pmmAllocPage).1 = 0
    · exact ⟨false, { k with pmm := (k.pmm.pmmAllocPage).2 }, by rw [kheapExpand_succ, if_pos h0],
        fun j hok => by cases hok⟩
    · obtain ⟨hleaf, hmaps⟩ := h h0
      obtain ⟨ok, k', he, hrest⟩ := kheapExpand_of_maps hmaps
      refine ⟨ok, k', ?_, fun j hok hj => hrest j hok ?_⟩
      · obtain ⟨e, hent⟩ := Option.ne_none_iff_exists'.mp hleaf
        rw [kheapExpand_succ, if_neg h0, hent]
        exact he
      · rw [Nat.add_right_comm] at hj
        exact (hj h0).2

/-! ## The tiling -/

/-- An expansion keeps the tiling when the pages it may take end below the last address. -/
theorem kheapExpand_tiles : ∀ {n : ℕ} {k k' : KMem} {ok : Bool},
    TilesBlocks kernelHeapBase k.heap.kheapList k.heap.kheapTop →
    k.heap.kheapTop + pageSize * min n k.pmm.freePages < 2 ^ 64 →
    kheapExpand n k = some (ok, k') →
      TilesBlocks kernelHeapBase k'.heap.kheapList k'.heap.kheapTop
  | 0, k, k', ok, ht, _, h => by
    simp only [kheapExpand, Option.some.injEq, Prod.mk.injEq] at h
    exact h.2 ▸ ht
  | n + 1, k, k', ok, ht, hroom, h => by
    rcases kheapExpand_cases h with ⟨-, -, rfl⟩ | ⟨h0, -, h⟩
    · exact ht
    · have hlt := (Pmm.pmmAllocPage_freePages k.pmm).2 h0
      have hfree : k.grown.pmm.freePages ≤ (k.pmm.pmmAllocPage).2.freePages :=
        vmmMapPage_freePages _ _ _ _ _
      unfold pageSize at hroom
      obtain ⟨ht', htop, -⟩ := Heap.addPage_spec ht (by
        unfold pageSize
        omega)
      refine kheapExpand_tiles (k := k.grown) ht' ?_ h
      have htop' : k.grown.heap.kheapTop = k.heap.kheapTop + pageSize := htop
      rw [htop']
      unfold pageSize
      omega

theorem kmallocLoop_tiles : ∀ {fuel size : ℕ} {k : KMem}, k.pmm.freePages < fuel →
    TilesBlocks kernelHeapBase k.heap.kheapList k.heap.kheapTop → k.heap.kheapTop < 2 ^ 64 →
    (k.heap.firstFit (alignUp size 8) = none → k.HeapInv) → (∀ n, k.Maps n) →
    ∃ p k', kmallocLoop fuel size k = some (p, k')
      ∧ TilesBlocks kernelHeapBase k'.heap.kheapList k'.heap.kheapTop
  | 0, _, _, hlt, _, _, _, _ => absurd hlt (Nat.not_lt_zero _)
  | fuel + 1, size, k, hlt, ht, htop, hroom, hmaps => by
    unfold kmallocLoop
    dsimp only
    rcases hff : k.heap.firstFit (alignUp size 8) with _ | t
    · obtain ⟨ok, k₁, he, hrest⟩ := kheapExpand_of_maps (hmaps (pgNeeded (alignUp size 8)))
      obtain ⟨hk₁, -, hfree⟩ := kheapExpand_spec (hroom hff) he
      dsimp only
      rw [he]
      cases ok with
      | false => exact ⟨0, k₁, rfl, hk₁.tiles⟩
      | true =>
        have := hfree rfl
        have := pgNeeded_pos (alignUp size 8)
        exact kmallocLoop_tiles (by omega) hk₁.tiles hk₁.top_lt (fun _ => hk₁) fun n =>
          hrest n rfl (hmaps _)
    · exact ⟨_, _, rfl, (carve_tiles ht htop hff).1⟩

end KMem

/-- Every call on a heap that is tiled leaves it tiled and ends: `kmalloc` however often it may
retry beyond the number of free frames. -/
theorem heap_tiling {k : KMem}
    (ht : TilesBlocks kernelHeapBase k.heap.kheapList k.heap.kheapTop)
    (htop : k.heap.kheapTop < 2 ^ 64) :
    (∀ size, (∀ n, k.Maps n) →
        (k.heap.firstFit (alignUp size 8) = none →
          k.heap.kheapTop + pageSize * k.pmm.freePages < 2 ^ 64) →
        ∃ p k', k.kmalloc size = some (p, k')
          ∧ (∀ fuel, k.pmm.freePages < fuel → KMem.kmallocLoop fuel size k = some (p, k'))
          ∧ TilesBlocks kernelHeapBase k'.heap.kheapList k'.heap.kheapTop)
      ∧ (∀ n, k.Maps n → k.heap.kheapTop + pageSize * min n k.pmm.freePages < 2 ^ 64 →
        ∃ ok k', k.kheapExpand n = some (ok, k')
          ∧ TilesBlocks kernelHeapBase k'.heap.kheapList k'.heap.kheapTop)
      ∧ ∀ b ∈ k.heap.kheapList, TilesBlocks kernelHeapBase
        (k.kfree (b.addr + headerSize)).heap.kheapList
        (k.kfree (b.addr + headerSize)).heap.kheapTop := by
  refine ⟨fun size hmaps hroom => ?_, fun n hmaps hroom => ?_, fun b _ => ?_⟩
  · have hinv := fun hff => KMem.HeapInv.mk ht (hroom hff)
    obtain ⟨p, k', hm, ht'⟩ :=
      KMem.kmallocLoop_tiles (Nat.lt_succ_self _) ht htop hinv hmaps
    refine ⟨p, k', hm, fun fuel hfuel => ?_, ht'⟩
    rw [← hm]
    rcases hff : k.heap.firstFit (alignUp size 8) with _ | t
    · exact KMem.kmallocLoop_fuel (hinv hff) hfuel (Nat.lt_succ_self _)
    · obtain ⟨f, rfl⟩ := Nat.exists_eq_add_one_of_ne_zero (Nat.ne_zero_of_lt hfuel)
      simp only [KMem.kmallocLoop, hff]
  · obtain ⟨ok, k', he, -⟩ := KMem.kheapExpand_of_maps hmaps
    exact ⟨ok, k', he, KMem.kheapExpand_tiles ht hroom he⟩
  · unfold KMem.kfree
    dsimp only
    rw [Heap.kfree_kheapTop]
    exact Heap.kfree_tiles ht htop _

theorem heap_tiling_smallKMem :
    ∃ p k', smallKMem.kmalloc 5000 = some (p, k')
      ∧ TilesBlocks kernelHeapBase k'.heap.kheapList k'.heap.kheapTop := by
  have hmaps : ∀ n, smallKMem.Maps n := fun n =>
    KMem.Maps.of_frames (le_refl smallKMem.pmm.freePages) (by decide +kernel)
  obtain ⟨p, k', hm, -, ht⟩ :=
    (heap_tiling (k := smallKMem) rfl (by decide)).1 5000 hmaps fun _ => by decide
  exact ⟨p, k', hm, ht⟩

/-- `smallKMem` with a heap that reaches up to the last page. -/
def fullKMem : KMem :=
  { smallKMem with
    heap := ⟨[⟨kernelHeapBase, 0x6FFFFFFFEFE0, false⟩], 0xFFFFFFFFFFFFF000⟩ }

/-- The heap grows beyond the last address. -/
theorem kheapExpand_wraps :
    TilesBlocks kernelHeapBase fullKMem.heap.kheapList fullKMem.heap.kheapTop
      ∧ fullKMem.heap.kheapTop < 2 ^ 64 ∧ fullKMem.Maps 1
      ∧ ∃ k', fullKMem.kheapExpand 1 = some (true, k')
        ∧ ¬ TilesBlocks kernelHeapBase k'.heap.kheapList k'.heap.kheapTop := by
  refine ⟨⟨rfl, rfl⟩, by decide, by decide +kernel, ?_⟩
  obtain ⟨k', he, htop⟩ : ∃ k', fullKMem.kheapExpand 1 = some (true, k')
      ∧ k'.heap.kheapTop = 0 := ⟨_, rfl, by decide⟩
  refine ⟨k', he, fun h => ?_⟩
  have hle : kernelHeapBase ≤ k'.heap.kheapTop := h.le
  rw [htop] at hle
  exact absurd hle (by decide)

/-! ## What a request finds after an expansion -/

/-- A new page is joined with the last block, in use or not. -/
theorem Heap.addPage_concat {h : Heap} {lo : ℕ} {pre : List Block} {a : Block}
    (ht : TilesBlocks lo h.kheapList h.kheapTop) (htop : h.kheapTop + pageSize < 2 ^ 64)
    (hlist : h.kheapList = pre ++ [a]) :
    h.addPage.kheapList = pre ++ [{ a with size := a.size + pageSize }] := by
  have hnew : TilesBlocks lo (h.kheapList ++ [⟨h.kheapTop, pageSize - headerSize, false⟩])
      (h.kheapTop + pageSize) := tiles_append.mpr ⟨_, ht, rfl, rfl⟩
  obtain ⟨m, hm, ht', hlast, -, -⟩ := freeBlock_spec hnew htop
  obtain ⟨haddr, hfree, -⟩ := hlast a (by simp [hlist])
  have hgrow : h.addPage.kheapList
      = freeBlock h.kheapTop (h.kheapList ++ [⟨h.kheapTop, pageSize - headerSize, false⟩]) := by
    unfold addPage kfree headerSize
    simp
  have ha : a.addr + a.width = h.kheapTop := by
    rw [hlist] at ht
    exact ht.bounds.2
  have hend : m.addr + m.width = h.kheapTop + pageSize := ht'.bounds.2
  have hsize : m.size = a.size + pageSize := by
    unfold Block.width at ha hend
    omega
  have heq : m = { a with size := a.size + pageSize } := by
    cases m
    simp_all
  rw [hgrow, hm, hlist, heq]
  simp

theorem Heap.addPage_nil {h : Heap} (hlist : h.kheapList = []) :
    h.addPage.kheapList = [⟨h.kheapTop, pageSize - headerSize, true⟩] := by
  unfold addPage kfree headerSize
  simp [hlist, freeBlock, mergeNext, mergePrev]

namespace KMem

theorem kheapExpand_concat : ∀ {n : ℕ} {k k' : KMem} {pre : List Block} {a : Block}, k.HeapInv →
    k.heap.kheapList = pre ++ [a] → kheapExpand n k = some (true, k') →
      k'.heap.kheapList = pre ++ [{ a with size := a.size + pageSize * n }]
  | 0, k, k', pre, a, _, hlist, h => by
    simp only [kheapExpand, Option.some.injEq, Prod.mk.injEq, true_and] at h
    simpa [← h] using hlist
  | n + 1, k, k', pre, a, hk, hlist, h => by
    rcases kheapExpand_cases h with ⟨h', -, -⟩ | ⟨h0, -, h⟩
    · cases h'
    · have hroom := hk.room
      have hlt := (Pmm.pmmAllocPage_freePages k.pmm).2 h0
      have hgrown : k.grown.heap.kheapList = pre ++ [{ a with size := a.size + pageSize }] :=
        Heap.addPage_concat hk.tiles (by unfold pageSize at hroom ⊢; omega) hlist
      rw [kheapExpand_concat (grown_spec hk h0).1 hgrown h]
      simp only [Nat.mul_succ, Nat.add_assoc, Nat.add_comm pageSize]

theorem kheapExpand_nil {n : ℕ} {k k' : KMem} (hk : k.HeapInv) (hlist : k.heap.kheapList = [])
    (h : kheapExpand (n + 1) k = some (true, k')) :
    k'.heap.kheapList = [⟨k.heap.kheapTop, pageSize - headerSize + pageSize * n, true⟩] := by
  rcases kheapExpand_cases h with ⟨h', -, -⟩ | ⟨h0, -, h⟩
  · cases h'
  · have hone : k.grown.heap.kheapList = [] ++ [⟨k.heap.kheapTop, pageSize - headerSize, true⟩] :=
      Heap.addPage_nil hlist
    exact kheapExpand_concat (grown_spec hk h0).1 hone h

/-- The pages asked for hold the block and its header. -/
theorem le_pgNeeded {size : ℕ} (h : size + headerSize + 4095 < 2 ^ 64) :
    size + headerSize ≤ pageSize * pgNeeded size := by
  unfold headerSize at h
  have hround : alignUp (u64 (size + headerSize)) pageSize = (size + 32 + 4095) / 4096 * 4096 := by
    rw [alignUp_eq, u64_of_lt (n := size + headerSize) (by unfold headerSize; omega),
      u64_of_lt (by unfold headerSize; omega), headerSize]
  unfold pgNeeded
  rw [hround]
  unfold pageSize headerSize
  dsimp only
  split_ifs with h0 <;> omega

theorem alignUp_eight_idem {size : ℕ} (h : size ≤ 2 ^ 64 - 8) :
    alignUp (alignUp size 8) 8 = alignUp size 8 := by
  rw [alignUp_eight size, u64_of_lt (by omega), alignUp_eight, u64_of_lt (by omega)]
  omega

/-- The last block is not in use. -/
def TailFree (bs : List Block) : Prop := ∀ b, bs.getLast? = some b → b.isFree = true

instance (bs : List Block) : Decidable (TailFree bs) :=
  decidable_of_iff (bs.getLast?.all (·.isFree) = true) (by simp [TailFree, Option.all_eq_true])

/-- After an expansion the request that could not be met is met, exactly if the pages could be
joined with a free block or became one. -/
theorem firstFit_kheapExpand {k k' : KMem} (hk : k.HeapInv) {size : ℕ}
    (hsize : size + headerSize + 4095 < 2 ^ 64) (hnone : k.heap.firstFit size = none)
    (he : kheapExpand (pgNeeded size) k = some (true, k')) :
    (∃ t, k'.heap.firstFit size = some t) ↔ TailFree k.heap.kheapList := by
  have hle := le_pgNeeded hsize
  obtain ⟨n, hn⟩ := Nat.exists_eq_add_one_of_ne_zero (pgNeeded_pos size).ne'
  have hpages : pageSize * pgNeeded size = pageSize + pageSize * n := by
    rw [hn, Nat.mul_succ, Nat.add_comm]
  unfold Heap.firstFit at hnone ⊢
  rcases List.eq_nil_or_concat k.heap.kheapList with hlist | ⟨pre, a, hlist⟩
  · rw [hn] at he
    rw [kheapExpand_nil hk hlist he, hlist]
    refine ⟨fun _ b hb => (by cases hb), fun _ => ⟨_, List.find?_cons_of_pos ?_⟩⟩
    unfold headerSize pageSize at *
    simp only [Bool.true_and, decide_eq_true_eq]
    omega
  · rw [List.concat_eq_append] at hlist
    rw [kheapExpand_concat hk hlist he]
    rw [hlist, List.find?_append, Option.or_eq_none_iff] at hnone
    rw [List.find?_append, hnone.1, Option.none_or]
    have htail : TailFree k.heap.kheapList ↔ a.isFree = true := by
      rw [hlist, TailFree, List.getLast?_concat]
      simp
    rw [htail]
    unfold headerSize at hle
    rcases hfree : a.isFree with _ | _
    · simp
    · simp only [Bool.true_and, List.find?_cons, List.find?_nil]
      rw [decide_eq_true (by omega)]
      simp

end KMem

/-- Whatever is asked for and whatever is released. -/
theorem heapStep_heapInv (s : HeapRun) (op : HeapOp) (s' : HeapRun) (hI : s.k.HeapInv)
    (h : heapStep s op = some s') : s'.k.HeapInv := by
  cases op with
  | kmalloc size =>
    unfold heapStep at h
    dsimp only at h
    rcases hm : s.k.kmalloc size with _ | ⟨p, k⟩ <;> rw [hm] at h
    · cases h
    · simp only [Option.some.injEq] at h
      subst h
      exact (KMem.kmallocLoop_spec hI hm).1
  | kfree ptr =>
    unfold heapStep at h
    dsimp only at h
    split_ifs at h
    simp only [Option.some.injEq] at h
    subst h
    refine ⟨?_, hI.room.trans_eq' ?_⟩
    · unfold KMem.kfree
      dsimp only
      rw [Heap.kfree_kheapTop]
      exact Heap.kfree_tiles hI.tiles hI.top_lt ptr
    · unfold KMem.kfree
      dsimp only
      rw [Heap.kfree_kheapTop]

/-- In every state of every run: a request that an expansion succeeds for is met by it exactly when
the last block was free or there was none. -/
theorem growth_effective (k₀ : KMem) (pgnum : ℕ) (ops : List HeapOp) {k k' : KMem} {s : HeapRun}
    {size : ℕ} (hroom : kernelHeapBase + pageSize * k₀.pmm.freePages < 2 ^ 64)
    (hinit : k₀.kheapInit pgnum = some k) (h : Run.run heapStep ⟨k, []⟩ ops = some s)
    (hsize : size + headerSize + 4095 < 2 ^ 64)
    (hnone : s.k.heap.firstFit (alignUp size 8) = none)
    (he : s.k.kheapExpand (KMem.pgNeeded (alignUp size 8)) = some (true, k')) :
    (∃ t, k'.heap.firstFit (alignUp size 8) = some t
        ∧ s.k.kmalloc size
          = some (t.addr + headerSize, { k' with heap := k'.heap.carve (alignUp size 8) t }))
      ↔ KMem.TailFree s.k.heap.kheapList := by
  have hI : s.k.HeapInv := Run.run_invariant heapStep_heapInv (kheapInit_inv hinit hroom) h
  have hle : size ≤ 2 ^ 64 - 8 := by
    unfold headerSize at hsize
    omega
  have hround : alignUp size 8 + headerSize + 4095 < 2 ^ 64 := by
    rw [alignUp_eight, u64_of_lt (by omega)]
    unfold headerSize at hsize ⊢
    omega
  rw [← KMem.firstFit_kheapExpand hI hround hnone he]
  refine ⟨fun ⟨t, ht, _⟩ => ⟨t, ht⟩, fun ⟨t, ht⟩ => ⟨t, ht, ?_⟩⟩
  obtain ⟨hk', -, -⟩ := KMem.kheapExpand_spec hI he
  rw [KMem.kmalloc_eq hI, hnone, he]
  dsimp only
  rw [KMem.kmalloc_eq hk', KMem.alignUp_eight_idem hle, ht]
  dsimp only
  rw [(KMem.carve_spec hk' ht).2.1]

/-- A heap of one page, taken whole. -/
def wholePage : List HeapOp := [.kmalloc 4064]

/-- With the only page in use, the next one becomes part of it. -/
theorem kheapExpand_absorbed :
    ∃ k s k', smallKMem.kheapInit 1 = some k ∧ Run.run heapStep ⟨k, []⟩ wholePage = some s
      ∧ s.k.heap.firstFit (alignUp 8 8) = none
      ∧ s.k.kheapExpand (KMem.pgNeeded (alignUp 8 8)) = some (true, k')
      ∧ k'.heap.firstFit (alignUp 8 8) = none ∧ (s.k.kmalloc 8).map Prod.fst = some 0 :=
  ⟨_, _, _, rfl, rfl, rfl, rfl, rfl, by decide +kernel⟩

theorem growth_effective_smallKMem :
    ∃ k s k', smallKMem.kheapInit 1 = some k
      ∧ Run.run heapStep ⟨k, []⟩ [.kmalloc 8] = some s
      ∧ s.k.kheapExpand (KMem.pgNeeded (alignUp 5000 8)) = some (true, k')
      ∧ ∃ t, k'.heap.firstFit (alignUp 5000 8) = some t := by
  refine ⟨_, _, _, rfl, rfl, rfl, ?_⟩
  obtain ⟨t, ht, -⟩ := (growth_effective smallKMem 1 [.kmalloc 8] (by decide) rfl rfl
    (show 5000 + headerSize + 4095 < 2 ^ 64 by decide) rfl rfl).mpr (by decide)
  exact ⟨t, ht⟩

end SudoOS
