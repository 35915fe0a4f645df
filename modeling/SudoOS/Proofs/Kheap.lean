import Mathlib.Data.List.TakeWhile
import SudoOS.Kheap
import SudoOS.Proofs.Paging
import SudoOS.Lib.Tiling

/-!
# Safety of the kernel heap

The headers that `kheap_list` links tile the heap from `KERNEL_HEAP_BASE` to `kheap_top`, and every
operation keeps that: a split cuts a tile in two, a release joins it with the tiles next to it, an
expansion adds one at the end. So every allocation that is still a block in use has its bytes to
itself.

`kfree` joins the released block with both neighbours whether or not they are free. A run of calls
is safe as long as no block is released right before one in use (`kheap_safe`); such a release
takes the live block's header out of the list, and a later `kmalloc` gives its bytes away
(`kheap_absorbs_live`).
-/

namespace SudoOS

open Tiling

namespace Block

/-- The bytes of a block, header included. -/
def width (b : Block) : ℕ := headerSize + b.size

theorem width_pos (b : Block) : 0 < b.width := by
  unfold width headerSize
  omega

theorem next_eq {b : Block} (h : b.addr + b.width < 2 ^ 64) : b.next = b.addr + b.width := by
  unfold next
  unfold width at h ⊢
  rw [u64_of_lt (by omega)]
  omega

theorem absorb_eq {b c : Block} (h : b.addr + b.width + c.width < 2 ^ 64) :
    b.absorb c = { b with size := b.size + c.width } := by
  unfold absorb
  unfold width at h ⊢
  rw [u64_of_lt (by omega), Nat.add_comm c.size]

end Block

/-- The blocks tile the addresses from `lo` to `hi`. -/
def TilesBlocks (lo : ℕ) (bs : List Block) (hi : ℕ) : Prop :=
  Tiles Block.addr Block.width lo bs hi

/-! ## Releasing a block -/

theorem mergeNext_spec {b : Block} {post : List Block} {hi : ℕ}
    (h : TilesBlocks (b.addr + b.width) post hi) (hhi : hi < 2 ^ 64) :
    ∃ m, mergeNext b post = (m, post.tail) ∧ m.addr = b.addr ∧ m.isFree = b.isFree
      ∧ b.size ≤ m.size ∧ (∀ c, post.head? = some c → m.addr + m.width = c.addr + c.width)
      ∧ TilesBlocks (m.addr + m.width) post.tail hi := by
  cases post with
  | nil => exact ⟨b, rfl, rfl, rfl, le_rfl, by simp, h⟩
  | cons c post =>
    obtain ⟨hc, h'⟩ := h
    have hle : b.addr + b.width + c.width ≤ hi := h'.le
    refine ⟨{ b with size := b.size + c.width }, ?_, rfl, rfl, Nat.le_add_right _ _, ?_, ?_⟩
    · have hnext : b.next = c.addr := by rw [Block.next_eq (by omega), hc]
      simp only [mergeNext, if_pos hnext, List.tail_cons]
      rw [Block.absorb_eq (by omega)]
    · intro d hd
      cases hd
      simp only [Block.width] at hc ⊢
      omega
    · have he : b.addr + Block.width { b with size := b.size + c.width }
          = b.addr + b.width + c.width := by
        simp only [Block.width]
        omega
      unfold TilesBlocks
      rw [he]
      exact h'

theorem mergePrev_spec {lo : ℕ} {pre : List Block} {b : Block} (h : TilesBlocks lo pre b.addr)
    (hb : b.addr + b.width < 2 ^ 64) :
    ∃ m, mergePrev pre b = pre.dropLast ++ [m] ∧ TilesBlocks lo pre.dropLast m.addr
      ∧ m.addr + m.width = b.addr + b.width
      ∧ (∀ a, pre.getLast? = some a → m.addr = a.addr ∧ m.isFree = a.isFree ∧ a.size < m.size)
      ∧ (pre = [] → m = b) := by
  rcases List.eq_nil_or_concat pre with rfl | ⟨pre, a, rfl⟩
  · exact ⟨b, rfl, h, rfl, by simp, fun _ => rfl⟩
  · rw [List.concat_eq_append] at h ⊢
    obtain ⟨hpre, ha⟩ := h.bounds
    have ha : a.addr + a.width = b.addr := ha
    have hw := b.width_pos
    refine ⟨{ a with size := a.size + b.width }, ?_, ?_, ?_, ?_, by simp⟩
    · unfold mergePrev
      rw [List.getLast?_append_of_ne_nil _ (by simp)]
      simp only [List.getLast?_singleton, List.dropLast_concat]
      rw [if_pos (by rw [Block.next_eq (by omega), ha]), Block.absorb_eq (by omega)]
    · rw [List.dropLast_concat]
      exact hpre
    · unfold Block.width at ha ⊢
      dsimp only
      omega
    · intro d hd
      simp only [List.getLast?_append, List.getLast?_singleton, Option.some_or,
        Option.some.injEq] at hd
      subst hd
      exact ⟨rfl, rfl, by dsimp only; omega⟩

/-- A release joins the block with the blocks next to it, and leaves the others alone. -/
theorem freeBlock_spec {lo hi : ℕ} {pre post : List Block} {b : Block}
    (h : TilesBlocks lo (pre ++ b :: post) hi) (hhi : hi < 2 ^ 64) :
    ∃ m, freeBlock b.addr (pre ++ b :: post) = pre.dropLast ++ m :: post.tail
      ∧ TilesBlocks lo (pre.dropLast ++ m :: post.tail) hi
      ∧ (∀ a, pre.getLast? = some a → m.addr = a.addr ∧ m.isFree = a.isFree ∧ a.size < m.size)
      ∧ (∀ c, post.head? = some c → m.addr < c.addr ∧ m.addr + m.width = c.addr + c.width)
      ∧ (pre = [] → m.addr = b.addr ∧ m.isFree = true) := by
  obtain ⟨hpre, hpost⟩ := h.bounds
  obtain ⟨r, hr, hra, hrf, hrs, hrc, hrt⟩ :=
    mergeNext_spec (b := { b with isFree := true }) hpost hhi
  dsimp only at hra hrf hrs
  obtain ⟨m, hm, hmt, hmw, hma, hmb⟩ := mergePrev_spec (b := r) (hra ▸ hpre) (hrt.le.trans_lt hhi)
  refine ⟨m, ?_, ?_, hma, ?_, ?_⟩
  · unfold freeBlock
    rw [h.dropWhile_ne Block.width_pos, h.takeWhile_ne Block.width_pos]
    simp only [hr, hm, List.append_assoc, List.cons_append, List.nil_append]
  · rw [← hmw] at hrt
    exact tiles_append.mpr ⟨_, hmt, rfl, hrt⟩
  · intro c hc
    obtain ⟨post, rfl⟩ : ∃ t, post = c :: t := ⟨post.tail, by
      cases post <;> simp_all⟩
    have hcb : c.addr = b.addr + b.width := hpost.1
    have hw := b.width_pos
    have hle : lo ≤ m.addr := hmt.le
    refine ⟨?_, hmw.trans (hrc c hc)⟩
    rcases List.eq_nil_or_concat pre with rfl | ⟨pre, a, rfl⟩
    · rw [hmb rfl, hra]
      omega
    · have := (hma a (by simp)).1
      have := hpre.start_lt Block.width_pos (b := a) (by simp)
      omega
  · intro hp
    rw [hmb hp]
    exact ⟨hra, hrf⟩

/-- A block in use has its payload at `a.1`, of at least `a.2` bytes. -/
def Holds (bs : List Block) (a : ℕ × ℕ) : Prop :=
  ∃ b ∈ bs, b.isFree = false ∧ a.1 = b.addr + headerSize ∧ a.2 ≤ b.size

theorem Holds.mono {bs bs' : List Block} {a : ℕ × ℕ} (h : Holds bs a)
    (hsub : ∀ b ∈ bs, b.isFree = false → b ∈ bs') : Holds bs' a := by
  obtain ⟨b, hb, hf, ha⟩ := h
  exact ⟨b, hsub b hb hf, hf, ha⟩

/-- The block after the one with header `hdr` is not in use. -/
def nextFree (bs : List Block) (hdr : ℕ) : Bool :=
  (bs.dropWhile (·.addr != hdr)).tail.head?.all (·.isFree)

/-- Neither block next to the one with header `hdr` is in use. -/
def neighboursFree (bs : List Block) (hdr : ℕ) : Bool :=
  (bs.takeWhile (·.addr != hdr)).getLast?.all (·.isFree) && nextFree bs hdr

section Release

variable {lo hi : ℕ} {pre post : List Block} {b : Block}

theorem nextFree_iff (h : TilesBlocks lo (pre ++ b :: post) hi) :
    nextFree (pre ++ b :: post) b.addr = true
      ↔ ∀ c, post.head? = some c → c.isFree = true := by
  unfold nextFree
  rw [h.dropWhile_ne Block.width_pos]
  simp [Option.all_eq_true]

theorem neighboursFree_iff (h : TilesBlocks lo (pre ++ b :: post) hi) :
    neighboursFree (pre ++ b :: post) b.addr = true
      ↔ (∀ a, pre.getLast? = some a → a.isFree = true)
        ∧ ∀ c, post.head? = some c → c.isFree = true := by
  unfold neighboursFree
  rw [Bool.and_eq_true, nextFree_iff h, h.takeWhile_ne Block.width_pos]
  simp [Option.all_eq_true]

theorem freeBlock_holds (h : TilesBlocks lo (pre ++ b :: post) hi) (hhi : hi < 2 ^ 64)
    (hnext : ∀ c, post.head? = some c → c.isFree = true) {a : ℕ × ℕ}
    (ha : Holds (pre ++ b :: post) a) (hab : a.1 ≠ b.addr + headerSize) :
    Holds (freeBlock b.addr (pre ++ b :: post)) a := by
  obtain ⟨m, hm, -, hlast, -, -⟩ := freeBlock_spec h hhi
  obtain ⟨d, hd, hf, hda, hds⟩ := ha
  rw [hm]
  rcases List.mem_append.mp hd with hd | hd
  · rcases List.eq_nil_or_concat pre with rfl | ⟨pre, x, rfl⟩
    · cases hd
    · obtain ⟨hmx, hmf, hms⟩ := hlast x (by simp)
      rw [List.concat_eq_append] at hd ⊢
      rcases List.mem_append.mp hd with hd | hd
      · exact ⟨d, by simp [hd], hf, hda, hds⟩
      · obtain rfl := List.mem_singleton.mp hd
        exact ⟨m, by simp, hmf.trans hf, by rw [hmx, hda], hds.trans hms.le⟩
  · rcases List.mem_cons.mp hd with rfl | hd
    · exact absurd hda hab
    · cases post with
      | nil => cases hd
      | cons c post =>
        rcases List.mem_cons.mp hd with rfl | hd
        · rw [hnext d rfl] at hf
          cases hf
        · exact ⟨d, by simp [hd], hf, hda, hds⟩

/-- A release leaves every other block in use in the list exactly when none is next to it. -/
theorem freeBlock_keeps_iff (h : TilesBlocks lo (pre ++ b :: post) hi) (hhi : hi < 2 ^ 64) :
    (∀ d ∈ pre ++ b :: post, d.isFree = false → d.addr ≠ b.addr →
        d ∈ freeBlock b.addr (pre ++ b :: post))
      ↔ neighboursFree (pre ++ b :: post) b.addr = true := by
  obtain ⟨m, hm, ht, hlast, hnext, -⟩ := freeBlock_spec h hhi
  rw [neighboursFree_iff h, hm]
  have hmem : m ∈ pre.dropLast ++ m :: post.tail := by simp
  have hb : ∀ d ∈ pre, d.addr ≠ b.addr := fun d hd =>
    (h.bounds.1.start_lt Block.width_pos hd).ne
  constructor
  · intro hkeep
    refine ⟨fun a ha => ?_, fun c hc => ?_⟩
    · by_contra hf
      have hin : a ∈ pre := List.mem_of_getLast? ha
      have := hkeep a (by simp [hin]) (by simpa using hf) (hb a hin)
      obtain ⟨hma, -, hsz⟩ := hlast a ha
      rw [ht.eq_of_start Block.width_pos this hmem hma.symm] at hsz
      omega
    · by_contra hf
      obtain ⟨hmc, hend⟩ := hnext c hc
      have hin : c ∈ post := List.mem_of_head? hc
      have hbc := (h.bounds.2.within hin).1
      have hw := b.width_pos
      have hwc := c.width_pos
      have := hkeep c (by simp [hin]) (by simpa using hf) (by omega)
      rcases ht.apart this hmem with rfl | h' | h'
      · omega
      · omega
      · omega
  · rintro ⟨hpre, hpost⟩ d hd hf hne
    rcases List.mem_append.mp hd with hd | hd
    · rcases List.eq_nil_or_concat pre with rfl | ⟨pre, x, rfl⟩
      · cases hd
      · rw [List.concat_eq_append] at hd ⊢
        rcases List.mem_append.mp hd with hd | hd
        · simp [hd]
        · obtain rfl := List.mem_singleton.mp hd
          rw [hpre d (by simp)] at hf
          cases hf
    · rcases List.mem_cons.mp hd with rfl | hd
      · exact absurd rfl hne
      · cases post with
        | nil => cases hd
        | cons c post =>
          rcases List.mem_cons.mp hd with rfl | hd
          · rw [hpost d rfl] at hf
            cases hf
          · simp [hd]

end Release

/-! ## Expansion and allocation -/

theorem Heap.addPage_spec {h : Heap} {lo : ℕ} (ht : TilesBlocks lo h.kheapList h.kheapTop)
    (htop : h.kheapTop + pageSize < 2 ^ 64) :
    TilesBlocks lo h.addPage.kheapList h.addPage.kheapTop
      ∧ h.addPage.kheapTop = h.kheapTop + pageSize
      ∧ ∀ a, Holds h.kheapList a → Holds h.addPage.kheapList a := by
  have hnew : TilesBlocks lo (h.kheapList ++ [⟨h.kheapTop, pageSize - headerSize, false⟩])
      (h.kheapTop + pageSize) := tiles_append.mpr ⟨_, ht, rfl, rfl⟩
  have htop' : h.addPage.kheapTop = h.kheapTop + pageSize := u64_of_lt htop
  have hlist : h.addPage.kheapList
      = freeBlock h.kheapTop (h.kheapList ++ [⟨h.kheapTop, pageSize - headerSize, false⟩]) := by
    unfold addPage kfree headerSize
    simp
  obtain ⟨m, hm, ht', -⟩ := freeBlock_spec hnew htop
  refine ⟨?_, htop', fun a ha => ?_⟩
  · rw [hlist, hm, htop']
    exact ht'
  · rw [hlist]
    refine freeBlock_holds hnew htop (by simp) (ha.mono fun b hb _ => by simp [hb]) ?_
    obtain ⟨d, hd, -, hda, -⟩ := ha
    have := ht.start_lt Block.width_pos hd
    simp only
    omega

namespace KMem

structure HeapInv (k : KMem) : Prop where
  tiles : TilesBlocks kernelHeapBase k.heap.kheapList k.heap.kheapTop
  room : k.heap.kheapTop + pageSize * k.pmm.freePages < 2 ^ 64

theorem HeapInv.top_lt {k : KMem} (h : k.HeapInv) : k.heap.kheapTop < 2 ^ 64 :=
  (Nat.le_add_right _ _).trans_lt h.room

/-- The heap only grew: what was held is held, and frames were only taken. -/
structure Extends (k k' : KMem) : Prop where
  holds : ∀ a, Holds k.heap.kheapList a → Holds k'.heap.kheapList a
  frames : k'.pmm.freePages ≤ k.pmm.freePages
  top : k.heap.kheapTop ≤ k'.heap.kheapTop

theorem Extends.refl (k : KMem) : k.Extends k := ⟨fun _ ha => ha, le_rfl, le_rfl⟩

theorem Extends.trans {k k' k'' : KMem} (h : k.Extends k') (h' : k'.Extends k'') :
    k.Extends k'' :=
  ⟨fun a ha => h'.holds a (h.holds a ha), h'.frames.trans h.frames, h.top.trans h'.top⟩

/-- Kernel memory after a round of `kheap_expand` that gets a page. -/
def grown (k : KMem) : KMem :=
  { k with
    toMachine := Machine.vmmMapPage { pmm := (k.pmm.pmmAllocPage).2, phys := k.phys }
      k.kernelPml4 k.heap.kheapTop (k.pmm.pmmAllocPage).1 kernelFlags
    heap := k.heap.addPage }

theorem kheapExpand_cases {n : ℕ} {k k' : KMem} {ok : Bool}
    (h : kheapExpand (n + 1) k = some (ok, k')) :
    (ok = false ∧ (k.pmm.pmmAllocPage).1 = 0 ∧ k' = { k with pmm := (k.pmm.pmmAllocPage).2 })
      ∨ ((k.pmm.pmmAllocPage).1 ≠ 0 ∧ k.grown.leafEntry k.kernelPml4 k.heap.kheapTop ≠ none
        ∧ kheapExpand n k.grown = some (ok, k')) := by
  unfold kheapExpand at h
  dsimp only at h
  split_ifs at h with h0
  · simp only [Option.some.injEq, Prod.mk.injEq] at h
    exact .inl ⟨h.1.symm, h0, h.2.symm⟩
  · split at h
    · cases h
    · rename_i e he
      refine .inr ⟨h0, fun hc => ?_, h⟩
      have hsome : k.grown.leafEntry k.kernelPml4 k.heap.kheapTop = some e := he
      simp [hsome] at hc

theorem grown_spec {k : KMem} (hk : k.HeapInv) (h0 : (k.pmm.pmmAllocPage).1 ≠ 0) :
    k.grown.HeapInv ∧ k.Extends k.grown ∧ k.grown.heap.kheapTop = k.heap.kheapTop + pageSize
      ∧ k.grown.pmm.freePages < k.pmm.freePages := by
  have hroom := hk.room
  have hlt := (Pmm.pmmAllocPage_freePages k.pmm).2 h0
  have hfree : k.grown.pmm.freePages ≤ (k.pmm.pmmAllocPage).2.freePages :=
    vmmMapPage_freePages { pmm := (k.pmm.pmmAllocPage).2, phys := k.phys } k.kernelPml4
      k.heap.kheapTop (k.pmm.pmmAllocPage).1 kernelFlags
  obtain ⟨ht, htop, hholds⟩ := Heap.addPage_spec hk.tiles (by
    unfold pageSize at hroom ⊢
    omega)
  have htop' : k.grown.heap.kheapTop = k.heap.kheapTop + pageSize := htop
  refine ⟨⟨ht, ?_⟩, ⟨hholds, by omega, by omega⟩, htop', by omega⟩
  rw [htop']
  unfold pageSize at hroom ⊢
  omega

theorem kheapExpand_spec : ∀ {n : ℕ} {k k' : KMem} {ok : Bool}, k.HeapInv →
    kheapExpand n k = some (ok, k') →
      k'.HeapInv ∧ k.Extends k' ∧ (ok = true → n + k'.pmm.freePages ≤ k.pmm.freePages)
  | 0, k, k', ok, hk, h => by
    simp only [kheapExpand, Option.some.injEq, Prod.mk.injEq] at h
    obtain ⟨rfl, rfl⟩ := h
    exact ⟨hk, Extends.refl k, fun _ => (Nat.zero_add _).le⟩
  | n + 1, k, k', ok, hk, h => by
    rcases kheapExpand_cases h with ⟨rfl, -, rfl⟩ | ⟨h0, -, h⟩
    · have hroom := hk.room
      have hle := (Pmm.pmmAllocPage_freePages k.pmm).1
      refine ⟨⟨hk.tiles, ?_⟩, ⟨fun _ ha => ha, hle, le_rfl⟩, by simp⟩
      unfold pageSize at hroom ⊢
      dsimp only
      omega
    · obtain ⟨hk₁, hext₁, -, hlt⟩ := grown_spec hk h0
      obtain ⟨hk', hext, hok⟩ := kheapExpand_spec hk₁ h
      refine ⟨hk', hext₁.trans hext, fun ht => ?_⟩
      have := hok ht
      omega

theorem kheapExpand_top_le : ∀ {n : ℕ} {k k' : KMem} {ok : Bool}, k.HeapInv →
    kheapExpand n k = some (ok, k') → k'.heap.kheapTop ≤ k.heap.kheapTop + pageSize * n
  | 0, k, k', ok, _, h => by
    simp only [kheapExpand, Option.some.injEq, Prod.mk.injEq] at h
    rw [h.2]
    exact Nat.le_add_right _ _
  | n + 1, k, k', ok, hk, h => by
    rcases kheapExpand_cases h with ⟨-, -, rfl⟩ | ⟨h0, -, h⟩
    · exact Nat.le_add_right _ _
    · obtain ⟨hk₁, -, htop, -⟩ := grown_spec hk h0
      have := kheapExpand_top_le hk₁ h
      rw [htop] at this
      rw [Nat.mul_succ]
      omega

theorem alignUp_eight_of_le {size : ℕ} (h : size ≤ 2 ^ 64 - 8) :
    size ≤ alignUp size 8 ∧ alignUp size 8 ≤ 2 ^ 64 - 8 := by
  rw [alignUp_eight, u64_of_lt (by omega)]
  omega

theorem pgNeeded_pos (size : ℕ) : 0 < pgNeeded size := by
  unfold pgNeeded
  dsimp only
  split_ifs with h
  · exact one_pos
  · exact Nat.pos_of_ne_zero h

/-- A free block of at least `size` bytes, cut: its first part is in use and has them. -/
theorem takeBlock_spec {t : Block} {size : ℕ} (hlo : kernelHeapBase ≤ t.addr)
    (hhi : t.addr + t.width < 2 ^ 64) (hsize : size ≤ t.size) :
    TilesBlocks t.addr (takeBlock size t) (t.addr + t.width)
      ∧ ∃ b ∈ takeBlock size t, b.isFree = false ∧ b.addr = t.addr ∧ size ≤ b.size := by
  unfold kernelHeapBase at hlo
  unfold Block.width headerSize at hhi
  unfold takeBlock headerSize minSplit
  split_ifs with hs
  · rw [u64_of_lt (n := size + 32) (by omega), u64_of_lt (by omega)] at hs
    refine ⟨⟨rfl, ?_, ?_⟩, _, List.mem_cons_self, rfl, rfl, le_rfl⟩
    · simp only [Block.width, headerSize]
      rw [u64_of_lt (by omega)]
      omega
    · simp only [Tiles, Block.width, headerSize]
      omega
  · exact ⟨⟨rfl, rfl⟩, _, List.mem_cons_self, rfl, rfl, hsize⟩

/-- The cut a fitting block gets: the list around it, and the tiling afterwards. -/
theorem carve_tiles {h : Heap} {size : ℕ} {t : Block}
    (ht : TilesBlocks kernelHeapBase h.kheapList h.kheapTop) (htop : h.kheapTop < 2 ^ 64)
    (hfit : h.firstFit size = some t) :
    TilesBlocks kernelHeapBase (h.carve size t).kheapList h.kheapTop
      ∧ t ∈ h.kheapList ∧ t.isFree = true
      ∧ ∃ pre post, h.kheapList = pre ++ t :: post
        ∧ (h.carve size t).kheapList = pre ++ takeBlock size t ++ post
        ∧ ∃ b ∈ takeBlock size t, b.isFree = false ∧ b.addr = t.addr ∧ size ≤ b.size := by
  obtain ⟨hfree, hsize⟩ : t.isFree = true ∧ size ≤ t.size := by
    simpa using List.find?_some hfit
  have hmem : t ∈ h.kheapList := List.mem_of_find?_eq_some hfit
  obtain ⟨hlo, hhi⟩ := ht.within hmem
  obtain ⟨pre, post, hlist⟩ := List.append_of_mem hmem
  have hsplit : TilesBlocks kernelHeapBase (pre ++ t :: post) h.kheapTop := hlist ▸ ht
  have hcarve : (h.carve size t).kheapList = pre ++ takeBlock size t ++ post := by
    unfold Heap.carve
    rw [hlist, hsplit.dropWhile_ne Block.width_pos, hsplit.takeWhile_ne Block.width_pos]
    rfl
  obtain ⟨htb, hused⟩ := takeBlock_spec hlo (hhi.trans_lt htop) hsize
  refine ⟨?_, hmem, hfree, pre, post, hlist, hcarve, hused⟩
  rw [hcarve]
  exact tiles_insert hsplit.bounds.1 htb hsplit.bounds.2

/-- `kmalloc` cuts its block out of a free one: what was held is held elsewhere. -/
theorem carve_spec {k : KMem} (hk : k.HeapInv) {size : ℕ} {t : Block}
    (h : k.heap.firstFit size = some t) :
    HeapInv { k with heap := k.heap.carve size t }
      ∧ u64 (t.addr + headerSize) = t.addr + headerSize
      ∧ Holds (k.heap.carve size t).kheapList (t.addr + headerSize, size)
      ∧ ∀ a, Holds k.heap.kheapList a →
        Holds (k.heap.carve size t).kheapList a ∧ a.1 ≠ t.addr + headerSize := by
  obtain ⟨ht, hmem, hfree, pre, post, hlist, hcarve, b, hb, hbf, hba, hbs⟩ :=
    carve_tiles hk.tiles hk.top_lt h
  have hhi := (hk.tiles.within hmem).2
  refine ⟨⟨ht, hk.room⟩, ?_, ?_, fun a ha => ⟨?_, ?_⟩⟩
  · refine u64_of_lt (lt_of_le_of_lt ?_ hk.top_lt)
    unfold Block.width at hhi
    omega
  · rw [hcarve]
    exact ⟨b, by simp [hb], hbf, by rw [hba], hbs⟩
  · rw [hcarve]
    refine ha.mono fun d hd hdf => ?_
    rw [hlist] at hd
    rcases List.mem_append.mp hd with hd | hd
    · simp [hd]
    · rcases List.mem_cons.mp hd with rfl | hd
      · simp [hfree] at hdf
      · simp [hd]
  · obtain ⟨d, hd, hdf, hda, -⟩ := ha
    intro heq
    have hdt : d = t := hk.tiles.eq_of_start Block.width_pos hd hmem (by omega)
    rw [hdt, hfree] at hdf
    cases hdf

/-- What an allocation may assume of the block it is given. -/
structure Allocated (k k' : KMem) (p size : ℕ) : Prop where
  holds : Holds k'.heap.kheapList (p, size)
  fresh : ∀ a, Holds k.heap.kheapList a → a.1 ≠ p

theorem kmallocLoop_spec : ∀ {fuel size : ℕ} {k k' : KMem} {p : ℕ}, k.HeapInv →
    kmallocLoop fuel size k = some (p, k') →
      k'.HeapInv ∧ k.Extends k' ∧ (size ≤ 2 ^ 64 - 8 → p ≠ 0 → k.Allocated k' p size)
  | 0, size, k, k', p, hk, h => by
    simp only [kmallocLoop, Option.some.injEq, Prod.mk.injEq] at h
    obtain ⟨rfl, rfl⟩ := h
    exact ⟨hk, Extends.refl k, fun _ h => absurd rfl h⟩
  | fuel + 1, size, k, k', p, hk, h => by
    have hmono : size ≤ 2 ^ 64 - 8 → ∀ {bs : List Block} {p : ℕ},
        Holds bs (p, alignUp size 8) → Holds bs (p, size) := by
      rintro hs bs p ⟨b, hb, hf, ha, hsz⟩
      exact ⟨b, hb, hf, ha, (alignUp_eight_of_le hs).1.trans hsz⟩
    unfold kmallocLoop at h
    dsimp only at h
    rcases hff : k.heap.firstFit (alignUp size 8) with _ | t <;> rw [hff] at h
    · dsimp only at h
      rcases he : kheapExpand (pgNeeded (alignUp size 8)) k with _ | ⟨ok, k₁⟩ <;> rw [he] at h
      · cases h
      · obtain ⟨hk₁, hext, -⟩ := kheapExpand_spec hk he
        cases ok with
        | false =>
          simp only [Option.some.injEq, Prod.mk.injEq] at h
          obtain ⟨rfl, rfl⟩ := h
          exact ⟨hk₁, hext, fun _ h => absurd rfl h⟩
        | true =>
          obtain ⟨hk', hext', hal⟩ := kmallocLoop_spec hk₁ h
          refine ⟨hk', hext.trans hext', fun hs hp => ?_⟩
          have hal := hal (alignUp_eight_of_le hs).2 hp
          exact ⟨hmono hs hal.holds, fun a ha => hal.fresh a (hext.holds a ha)⟩
    · simp only [Option.some.injEq, Prod.mk.injEq] at h
      obtain ⟨rfl, rfl⟩ := h
      obtain ⟨hk', hp, hnew, hold⟩ := carve_spec hk hff
      rw [hp]
      exact ⟨hk', ⟨fun a ha => (hold a ha).1, le_rfl, le_rfl⟩,
        fun hs _ => ⟨hmono hs hnew, fun a ha => (hold a ha).2⟩⟩

/-- The retries of `kmalloc` end: one more free frame than there are is fuel enough. -/
theorem kmallocLoop_fuel : ∀ {f g size : ℕ} {k : KMem}, k.HeapInv → k.pmm.freePages < f →
    k.pmm.freePages < g → kmallocLoop f size k = kmallocLoop g size k
  | 0, _, _, _, _, hf, _ => by omega
  | _ + 1, 0, _, _, _, _, hg => by omega
  | f + 1, g + 1, size, k, hk, hf, hg => by
    unfold kmallocLoop
    dsimp only
    rcases k.heap.firstFit (alignUp size 8) with _ | t
    · dsimp only
      rcases he : kheapExpand (pgNeeded (alignUp size 8)) k with _ | ⟨ok, k₁⟩
      · rfl
      · cases ok with
        | false => rfl
        | true =>
          obtain ⟨hk₁, -, hlt⟩ := kheapExpand_spec hk he
          have := hlt rfl
          have := pgNeeded_pos (alignUp size 8)
          exact kmallocLoop_fuel hk₁ (by omega) (by omega)
    · rfl

/-- `kmalloc` as the source writes it, calling itself after an expansion. -/
theorem kmalloc_eq {k : KMem} (hk : k.HeapInv) (size : ℕ) :
    kmalloc size k =
      match k.heap.firstFit (alignUp size 8) with
      | some t =>
        some (u64 (t.addr + headerSize), { k with heap := k.heap.carve (alignUp size 8) t })
      | none =>
        match kheapExpand (pgNeeded (alignUp size 8)) k with
        | none => none
        | some (false, k') => some (0, k')
        | some (true, k') => kmalloc (alignUp size 8) k' := by
  conv_lhs => unfold kmalloc kmallocLoop
  dsimp only
  rcases k.heap.firstFit (alignUp size 8) with _ | t
  · rcases he : kheapExpand (pgNeeded (alignUp size 8)) k with _ | ⟨ok, k₁⟩
    · rfl
    · cases ok with
      | false => rfl
      | true =>
        obtain ⟨hk₁, -, hlt⟩ := kheapExpand_spec hk he
        have := hlt rfl
        have := pgNeeded_pos (alignUp size 8)
        exact kmallocLoop_fuel hk₁ (by omega) (by omega)
  · rfl

end KMem

/-! ## Runs of calls -/

inductive HeapOp
  | kmalloc (size : ℕ)
  | kfree (ptr : ℕ)
  deriving Repr, DecidableEq

/-- The heap with the live allocations: the address returned and the size asked for. -/
structure HeapRun where
  k : KMem
  live : List (ℕ × ℕ)

/-- A call. Only what is live is released. -/
def heapStep (s : HeapRun) : HeapOp → Option HeapRun
  | .kmalloc size =>
    match s.k.kmalloc size with
    | none => none
    | some (p, k) => some ⟨k, if p = 0 then s.live else (p, size) :: s.live⟩
  | .kfree ptr =>
    if ptr ∈ s.live.map Prod.fst then some ⟨s.k.kfree ptr, s.live.eraseP (·.1 == ptr)⟩ else none

/-- Live payloads lie apart, inside the heap, and clear of the headers in the list. -/
structure HeapSafe (s : HeapRun) : Prop where
  apart : s.live.Pairwise fun a b => a.1 + a.2 ≤ b.1 ∨ b.1 + b.2 ≤ a.1
  inside : ∀ a ∈ s.live, kernelHeapBase ≤ a.1 ∧ a.1 + a.2 ≤ s.k.heap.kheapTop
  headers : ∀ a ∈ s.live, ∀ b ∈ s.k.heap.kheapList,
    b.addr + headerSize ≤ a.1 ∨ a.1 + a.2 ≤ b.addr

/-- Releasing `ptr` leaves every other block in use in the list, as it is. -/
def KfreeKeeps (h : Heap) (ptr : ℕ) : Prop :=
  ∀ b ∈ h.kheapList, b.isFree = false → b.addr + headerSize ≠ ptr → b ∈ (h.kfree ptr).kheapList

/-- The size does not wrap when it is rounded, and no block is released right before one in
use. -/
def CallOk (s : HeapRun) : HeapOp → Prop
  | .kmalloc size => size ≤ 2 ^ 64 - 8
  | .kfree ptr => nextFree s.k.heap.kheapList (ptr - headerSize) = true

instance (s : HeapRun) : (op : HeapOp) → Decidable (CallOk s op)
  | .kmalloc size => inferInstanceAs (Decidable (size ≤ 2 ^ 64 - 8))
  | .kfree _ => inferInstanceAs (Decidable (_ = true))

structure RunInv (s : HeapRun) : Prop where
  heap : s.k.HeapInv
  held : ∀ a ∈ s.live, Holds s.k.heap.kheapList a
  distinct : (s.live.map Prod.fst).Nodup

/-- The list around the block of a held payload. -/
theorem Holds.split {bs : List Block} {a : ℕ × ℕ} (h : Holds bs a) :
    ∃ pre b post, bs = pre ++ b :: post ∧ b.isFree = false ∧ a.1 = b.addr + headerSize
      ∧ a.2 ≤ b.size := by
  obtain ⟨b, hb, hf, ha, hs⟩ := h
  obtain ⟨pre, post, rfl⟩ := List.append_of_mem hb
  exact ⟨pre, b, post, rfl, hf, ha, hs⟩

theorem Heap.kfree_kheapList (h : Heap) (b : Block) :
    (h.kfree (b.addr + headerSize)).kheapList = freeBlock b.addr h.kheapList := by
  unfold kfree headerSize
  simp

@[simp] theorem Heap.kfree_kheapTop (h : Heap) (ptr : ℕ) :
    (h.kfree ptr).kheapTop = h.kheapTop := by
  unfold kfree
  split_ifs <;> rfl

/-- A release keeps the tiling, whatever is released. -/
theorem Heap.kfree_tiles {h : Heap} {lo : ℕ} (ht : TilesBlocks lo h.kheapList h.kheapTop)
    (htop : h.kheapTop < 2 ^ 64) (ptr : ℕ) :
    TilesBlocks lo (h.kfree ptr).kheapList h.kheapTop := by
  unfold kfree
  split_ifs with h0
  · exact ht
  by_cases hin : ∃ b ∈ h.kheapList, b.addr = ptr - headerSize
  · obtain ⟨b, hb, hba⟩ := hin
    obtain ⟨pre, post, hlist⟩ := List.append_of_mem hb
    obtain ⟨m, hm, ht', -⟩ := freeBlock_spec (hlist ▸ ht) htop
    dsimp only
    rw [← hba, hlist, hm]
    exact ht'
  · have hdrop : h.kheapList.dropWhile (·.addr != ptr - headerSize) = [] := by
      rw [List.dropWhile_eq_nil_iff]
      intro b hb
      exact bne_iff_ne.mpr fun hc => hin ⟨b, hb, hc⟩
    dsimp only
    rw [freeBlock, hdrop]
    exact ht

theorem RunInv.safe {s : HeapRun} (h : RunInv s) : HeapSafe s := by
  have hw : ∀ b : Block, b.addr + b.width = b.addr + headerSize + b.size := fun b =>
    (Nat.add_assoc _ _ _).symm
  refine ⟨?_, fun a ha => ?_, fun a ha b hb => ?_⟩
  · have hpw : s.live.Pairwise fun a b => a.1 ≠ b.1 := List.pairwise_map.mp h.distinct
    refine hpw.imp_of_mem fun {a b} ha hb hne => ?_
    obtain ⟨c, hc, -, hca, hcs⟩ := h.held a ha
    obtain ⟨d, hd, -, hda, hds⟩ := h.held b hb
    have := hw c
    have := hw d
    rcases h.heap.tiles.apart hc hd with rfl | h' | h'
    · omega
    · omega
    · omega
  · obtain ⟨c, hc, -, hca, hcs⟩ := h.held a ha
    obtain ⟨hlo, hhi⟩ := h.heap.tiles.within hc
    have := hw c
    omega
  · obtain ⟨c, hc, -, hca, hcs⟩ := h.held a ha
    have := hw c
    have := hw b
    rcases h.heap.tiles.apart hc hb with rfl | h' | h'
    · omega
    · omega
    · omega

theorem RunInv.kfreeKeeps_iff {s : HeapRun} (h : RunInv s) {a : ℕ × ℕ} (ha : a ∈ s.live) :
    KfreeKeeps s.k.heap a.1
      ↔ neighboursFree s.k.heap.kheapList (a.1 - headerSize) = true := by
  obtain ⟨pre, b, post, hlist, -, hab, -⟩ := (h.held a ha).split
  have ht : TilesBlocks kernelHeapBase (pre ++ b :: post) s.k.heap.kheapTop := hlist ▸ h.heap.tiles
  unfold KfreeKeeps
  rw [hab, Nat.add_sub_cancel, Heap.kfree_kheapList, hlist, ← freeBlock_keeps_iff ht h.heap.top_lt]
  simp only [ne_eq, Nat.add_right_cancel_iff]

theorem map_fst_eraseP (live : List (ℕ × ℕ)) (p : ℕ) :
    (live.eraseP (·.1 == p)).map Prod.fst = (live.map Prod.fst).erase p := by
  rw [List.erase_eq_eraseP', List.eraseP_map]
  rfl

theorem heapStep_inv (s : HeapRun) (op : HeapOp) (s' : HeapRun) (hI : RunInv s)
    (hok : CallOk s op) (h : heapStep s op = some s') : RunInv s' := by
  cases op with
  | kmalloc size =>
    unfold heapStep at h
    dsimp only at h
    rcases hm : s.k.kmalloc size with _ | ⟨p, k⟩ <;> rw [hm] at h
    · cases h
    · simp only [Option.some.injEq] at h
      subst h
      obtain ⟨hk, hext, hal⟩ := KMem.kmallocLoop_spec hI.heap hm
      have hal := hal hok
      have hheld : ∀ a ∈ s.live, Holds k.heap.kheapList a := fun a ha =>
        hext.holds a (hI.held a ha)
      by_cases hp : p = 0
      · exact ⟨hk, by simpa [hp] using hheld, by simpa [hp] using hI.distinct⟩
      · refine ⟨hk, ?_, ?_⟩
        · simpa [hp] using ⟨(hal hp).holds, fun a b hab => hheld (a, b) hab⟩
        · simp only [hp, ↓reduceIte, List.map_cons, List.nodup_cons]
          refine ⟨fun hin => ?_, hI.distinct⟩
          obtain ⟨a, ha, hap⟩ := List.mem_map.mp hin
          exact (hal hp).fresh a (hI.held a ha) hap
  | kfree ptr =>
    unfold heapStep at h
    dsimp only at h
    split_ifs at h with hin
    simp only [Option.some.injEq] at h
    subst h
    obtain ⟨a, ha, rfl⟩ := List.mem_map.mp hin
    obtain ⟨pre, b, post, hlist, -, hab, -⟩ := (hI.held a ha).split
    have ht : TilesBlocks kernelHeapBase (pre ++ b :: post) s.k.heap.kheapTop :=
      hlist ▸ hI.heap.tiles
    have htop := hI.heap.top_lt
    simp only [CallOk] at hok
    rw [hab, Nat.add_sub_cancel, hlist, nextFree_iff ht] at hok
    have hfree : (s.k.kfree a.1).heap.kheapList = freeBlock b.addr (pre ++ b :: post) := by
      unfold KMem.kfree
      rw [hab, Heap.kfree_kheapList, hlist]
    have htop' : (s.k.kfree a.1).heap.kheapTop = s.k.heap.kheapTop := Heap.kfree_kheapTop _ _
    refine ⟨⟨?_, ?_⟩, fun d hd => ?_, ?_⟩
    · dsimp only
      rw [htop']
      exact Heap.kfree_tiles hI.heap.tiles htop a.1
    · dsimp only
      rw [htop']
      exact hI.heap.room
    · dsimp only at hd ⊢
      have hdl : d ∈ s.live := List.mem_of_mem_eraseP hd
      rw [hfree]
      refine freeBlock_holds ht htop hok (hlist ▸ hI.held d hdl) fun hdb => ?_
      have hd' : d.1 ∈ (s.live.map Prod.fst).erase a.1 := by
        rw [← map_fst_eraseP]
        exact List.mem_map_of_mem hd
      exact (hI.distinct.mem_erase_iff.mp hd').1 (hdb.trans hab.symm)
    · dsimp only
      rw [map_fst_eraseP]
      exact hI.distinct.erase _

theorem kheapInit_inv {k₀ k : KMem} {pgnum : ℕ} (h : k₀.kheapInit pgnum = some k)
    (hroom : kernelHeapBase + pageSize * k₀.pmm.freePages < 2 ^ 64) : k.HeapInv := by
  unfold KMem.kheapInit at h
  obtain ⟨⟨ok, k'⟩, he, rfl⟩ := Option.map_eq_some_iff.mp h
  have hI : KMem.HeapInv { k₀ with heap := ⟨[], kernelHeapBase⟩ } := ⟨rfl, hroom⟩
  exact (KMem.kheapExpand_spec hI he).1

/-- The heap is safe in every run that never releases a block right before one in use, and in such
a run `kfree` spares the other blocks in use exactly when neither neighbour is one. -/
theorem kheap_safe (k₀ : KMem) (pgnum : ℕ) (ops : List HeapOp) {k : KMem} {s : HeapRun}
    (hroom : kernelHeapBase + pageSize * k₀.pmm.freePages < 2 ^ 64)
    (hinit : k₀.kheapInit pgnum = some k) (hok : Run.Meets heapStep CallOk ⟨k, []⟩ ops)
    (h : Run.run heapStep ⟨k, []⟩ ops = some s) :
    HeapSafe s ∧ ∀ a ∈ s.live, KfreeKeeps s.k.heap a.1
      ↔ neighboursFree s.k.heap.kheapList (a.1 - headerSize) = true := by
  have hI : RunInv ⟨k, []⟩ := ⟨kheapInit_inv hinit hroom, by simp, by simp⟩
  have hs : RunInv s := Run.run_invariant_of_meets heapStep_inv hI hok h
  exact ⟨hs.safe, fun a ha => hs.kfreeKeeps_iff ha⟩

/-- `smallMachine` with an empty heap. -/
def smallKMem : KMem := { smallMachine with kernelPml4 := 0x1000, heap := ⟨[], kernelHeapBase⟩ }

def smallHeapOps : List HeapOp :=
  [.kmalloc 8, .kmalloc 100, .kfree (kernelHeapBase + 72), .kmalloc 5000]

theorem kheap_safe_smallKMem :
    ∃ k s, smallKMem.kheapInit 1 = some k ∧ Run.run heapStep ⟨k, []⟩ smallHeapOps = some s
      ∧ HeapSafe s :=
  ⟨_, _, rfl, rfl, (kheap_safe smallKMem 1 smallHeapOps (by decide) rfl (by decide) rfl).1⟩

theorem kheap_absorbs_live :
    ∃ k s, smallKMem.kheapInit 1 = some k
      ∧ Run.run heapStep ⟨k, []⟩
        [.kmalloc 8, .kmalloc 8, .kfree (kernelHeapBase + 32), .kmalloc 48] = some s
      ∧ ¬ HeapSafe s := by
  refine ⟨_, _, rfl, rfl, fun h => ?_⟩
  have := h.apart
  revert this
  decide

end SudoOS
