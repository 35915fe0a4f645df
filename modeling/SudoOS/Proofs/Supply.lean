import SudoOS.Proofs.KernelHalf
import SudoOS.Proofs.Kmalloc
import SudoOS.Proofs.MapSuccess

/-!
# What a row of mappings needs

Each call of `mm_map_range` takes a block of the kernel heap, which may have to grow by a page for
it, a frame for each page, and one for each table that is missing. Whether the calls of a row are
served, one after the other, can be read off the state before the first (`KMem.Supplies`): the
blocks of the heap, the tables there are, and the number of free frames. `KMem.Spent` is the
invariant that carries this through the row; the last call may be short of the tables of its last
page, which it does not notice.
-/

namespace SudoOS

/-! ## Blocks -/

namespace Heap

/-- A block for the request, with the number of pages that the heap has to grow by for it. -/
def serve (h : Heap) (size : ℕ) : Option (ℕ × Heap) :=
  match h.firstFit size with
  | some t => some (0, h.carve size t)
  | none => (h.addPage.firstFit size).map fun t => (1, h.addPage.carve size t)

/-- Blocks for a row of requests. -/
def serves : List ℕ → Heap → Option (ℕ × Heap)
  | [], h => some (0, h)
  | size :: sizes, h =>
    (h.serve size).bind fun r => (serves sizes r.2).map fun r' => (r.1 + r'.1, r'.2)

theorem serves_append (ws : List ℕ) : ∀ (sizes : List ℕ) (h : Heap),
    h.serves (sizes ++ ws)
      = (h.serves sizes).bind fun r => (r.2.serves ws).map fun r' => (r.1 + r'.1, r'.2)
  | [], h => by
    rcases hs : h.serves ws with _ | r <;> simp [serves, hs]
  | size :: sizes, h => by
    rw [List.cons_append, serves, serves]
    rcases h.serve size with _ | r
    · rfl
    rw [Option.bind_some, Option.bind_some, serves_append ws sizes]
    rcases r.2.serves sizes with _ | r'
    · rfl
    rw [Option.bind_some, Option.map_some, Option.bind_some]
    rcases r'.2.serves ws with _ | r''
    · rfl
    · simp [Nat.add_assoc]

end Heap

/-- The pages that `mm_map_range` maps for a range. -/
def rangePages (va size : ℕ) : List ℕ :=
  pagesFrom (alignDown va pageSize) 0
    (Kernel.pageCount (alignDown va pageSize) (alignUp (u64 (va + size)) pageSize))

namespace KMem

/-- The next pages of the heap. -/
def heapPages (k : KMem) (n : ℕ) : List ℕ := pagesFrom k.heap.kheapTop 0 n

/-- There are blocks of these sizes, frames and tables for the pages `vas` and for those that the
heap grows by, and for the pages `ws` after them so many that no missing one is noticed. -/
def Supplies (k : KMem) (pml4 : ℕ) (sizes vas ws : List ℕ) : Prop :=
  match k.heap.serves sizes with
  | none => False
  | some (n, _) => (k.heapPages n ++ vas ++ ws).length
      + (k.missingFor pml4 (k.heapPages n ++ vas ++ ws.dropLast)).card ≤ k.pmm.freePages

instance (k : KMem) (pml4 : ℕ) (sizes vas ws : List ℕ) :
    Decidable (k.Supplies pml4 sizes vas ws) := by
  unfold Supplies
  split
  · exact inferInstance
  · exact inferInstance

/-- The table at `pml4` has the kernel's entries for what the heap may still grow by. -/
structure HeapShared (k : KMem) (pml4 : ℕ) : Prop where
  busy : k.pmm.Busy k.kernelPml4
  apart : ∀ p, TablePath p → p ≠ [] → k.table pml4 p ≠ some k.kernelPml4
  entry : ∀ va, k.heap.kheapTop ≤ va → va < k.heap.kheapTop + pageSize * k.pmm.freePages →
    pml4 = k.kernelPml4 ∨ (k.phys pml4 (pml4Idx va) = k.phys k.kernelPml4 (pml4Idx va)
      ∧ isPresent (k.phys k.kernelPml4 (pml4Idx va)) = true)

/-- From `k` to `k'` blocks of these sizes have been allocated and these pages mapped, and the heap
has grown by the pages it needed. -/
structure Spent (pml4 : ℕ) (k k' : KMem) (sizes vas : List ℕ) : Prop where
  heapInv : k'.HeapInv
  shared : k'.HeapShared pml4
  root : k'.kernelPml4 = k.kernelPml4
  paid : ∃ n, k.heap.serves sizes = some (n, k'.heap)
    ∧ k'.heap.kheapTop = k.heap.kheapTop + n * pageSize
    ∧ Mapped k.toMachine k'.toMachine pml4 (k.heapPages n ++ vas)

end KMem

/-! ## Shared entries -/

section Shared

variable {m : Machine} {pml4 kpml4 va pa : ℕ} {flags : BitVec 64}

theorem vmmMapPage_shared (h : m.phys pml4 (pml4Idx va) = m.phys kpml4 (pml4Idx va))
    (hpr : isPresent (m.phys kpml4 (pml4Idx va)) = true) :
    m.vmmMapPage kpml4 va pa flags = m.vmmMapPage pml4 va pa flags := by
  simp only [Machine.vmmMapPage, Machine.nextTables, Machine.getNextTable, h, hpr, if_true]

end Shared

/-! ## Pages -/

theorem pagesFrom_append (start n : ℕ) : ∀ (i l : ℕ),
    pagesFrom start i (l + n) = pagesFrom start i l ++ pagesFrom start (i + l) n
  | i, 0 => by rw [Nat.zero_add]; rfl
  | i, l + 1 => by
    rw [Nat.add_right_comm, pagesFrom_succ, pagesFrom_succ, pagesFrom_append start n (i + 1) l,
      Nat.add_right_comm i 1 l, Nat.add_assoc i l 1]
    rfl

theorem pagesFrom_shift (start n i l : ℕ) :
    pagesFrom start (i + l) n = pagesFrom (start + l * pageSize) i n := by
  rw [pagesFrom, pagesFrom, Nat.add_comm i l, List.range'_eq_map_range, List.range'_eq_map_range,
    List.map_map, List.map_map]
  refine List.map_congr_left fun j _ => ?_
  simp only [Function.comp]
  congr 1
  ring

section Order

variable {m m' : Machine} {pml4 : ℕ} {vas ws : List ℕ}

theorem missingFor_perm (h : vas.Perm ws) : m.missingFor pml4 vas = m.missingFor pml4 ws := by
  rw [Machine.missingFor, Machine.missingFor, List.toFinset_eq_of_perm _ _ h]

theorem missingFor_mono (h : vas ⊆ ws) : m.missingFor pml4 vas ⊆ m.missingFor pml4 ws := by
  intro p hp
  obtain ⟨va, hva, hp⟩ := mem_missingFor.mp hp
  exact mem_missingFor.mpr ⟨va, h hva, hp⟩

theorem card_missingFor_le (m : Machine) (pml4 : ℕ) (h : vas ⊆ ws) :
    (m.missingFor pml4 vas).card ≤ (m.missingFor pml4 ws).card :=
  Finset.card_le_card (missingFor_mono h)

/-- In what order the pages have been mapped makes no difference. -/
theorem Mapped.perm (h : Mapped m m' pml4 vas) (hp : vas.Perm ws) : Mapped m m' pml4 ws := by
  have hm : m.missingFor pml4 vas = m.missingFor pml4 ws := missingFor_perm hp
  refine ⟨h.inv, ?_, fun w => hm ▸ h.missing w, h.busy, h.tables, h.words⟩
  have := h.frames
  rwa [Machine.framesFor, hp.length_eq, hm] at this

/-- After the pages `vas` there are frames for `ws` exactly if there were for both. -/
theorem Mapped.framesFor_le (h : Mapped m m' pml4 vas) :
    m'.framesFor pml4 ws ≤ m'.pmm.freePages ↔ m.framesFor pml4 (vas ++ ws) ≤ m.pmm.freePages := by
  have h1 := h.frames
  have h2 := framesFor_append h.missing ws
  omega

end Order

/-! ## The heap -/

theorem MapInv.root_busy {m : Machine} {pml4 : ℕ} (h : MapInv pml4 m) : m.pmm.Busy pml4 :=
  h.tree.busy [] pml4 ⟨by simp, by simp⟩ rfl

theorem MapInv.root_apart {m : Machine} {pml4 : ℕ} (h : MapInv pml4 m) {q : List ℕ}
    (hq : TablePath q) (hq0 : q ≠ []) : m.table pml4 q ≠ some pml4 := fun hn =>
  hq0 (h.tree.tree q [] pml4 hq ⟨by simp, by simp⟩ hn rfl)

theorem mapNext_words {m : Machine} {pml4 x j : ℕ} (h : MapInv pml4 m) (va : ℕ)
    {flags : BitVec 64} (hf : FlagsOk flags) (h0 : (m.pmm.pmmAllocPage).1 ≠ 0) (hx : m.pmm.Busy x)
    (hno : ∀ p, TablePath p → p ≠ [] → m.table pml4 p ≠ some x)
    (hpr : isPresent (m.phys x j) = true) : (m.mapNext pml4 va flags).phys x j = m.phys x j := by
  rcases lt_or_ge (m.missing pml4 (tablePath va)) m.pmm.freePages with hlt | hge
  · exact (mapNext_enough h hf h0 hlt).words x j hx hno hpr
  · have hfree := (Pmm.pmmAllocPage_exact h.pmm h.zero).resolve_left fun hc => h0 (by rw [hc.2])
    have hbusy := (Pmm.pmmAllocPage_spec h.pmm).2.2.1
    obtain ⟨m₁, -, hG, ⟨-, -, he⟩ | ⟨hle, -, -⟩⟩ :=
      vmmMapPage_split h.alloc hf va (m.pmm.pmmAllocPage).1
    · rw [Machine.mapNext, he]
      by_contra hc
      obtain ⟨-, -, -, habs, -⟩ := hG.words x j (hbusy x hx) hc
      exact absurd (hpr.symm.trans habs) (by decide)
    · change m.missing pml4 (tablePath va) ≤ (m.pmm.pmmAllocPage).2.freePages at hle
      omega

theorem mapNext_leafEntry {m : Machine} {pml4 va : ℕ} (h : MapInv pml4 m) {flags : BitVec 64}
    (hf : FlagsOk flags) (h0 : (m.pmm.pmmAllocPage).1 ≠ 0) :
    (m.mapNext pml4 va flags).leafEntry pml4 va ≠ none
      ↔ m.missing pml4 (tablePath va) < m.pmm.freePages := by
  constructor
  · intro hleaf
    by_contra hge
    obtain ⟨-, -, hsame⟩ := mapNext_short h hf h0 (not_lt.mp hge)
    have hfree : m.pmm.freePages ≠ 0 := fun hc => h0 (h.alloc_eq_zero.mpr hc)
    have hnone : m.table pml4 (tablePath va) = none := by
      by_contra hc
      have hlen := (walk_length m (tablePath va) pml4).mpr hc
      rw [Machine.missing, hlen] at hge
      omega
    rw [hsame, leafEntry_of_none hnone] at hleaf
    exact hleaf rfl
  · intro hlt hnone
    have hframe := mapNext_frameAt h hf h0 hlt
    rw [Machine.frameAt, hnone] at hframe
    cases hframe

namespace KMem

section Heap

variable {k k' k'' : KMem} {pml4 size p : ℕ} {sizes vas ws : List ℕ}

theorem heapPages_succ (k : KMem) (n : ℕ) :
    k.heapPages (n + 1) = k.heapPages n ++ [u64 (k.heap.kheapTop + n * pageSize)] := by
  rw [heapPages, heapPages, pagesFrom_concat, Nat.zero_add]

/-- Mapping pages leaves the kernel's entries as they are. -/
theorem HeapShared.mapped (h : k.HeapShared pml4) (hI : MapInv pml4 k.toMachine)
    (hm : Mapped k.toMachine k'.toMachine pml4 vas) (hroot : k'.kernelPml4 = k.kernelPml4)
    (hlo : k.heap.kheapTop ≤ k'.heap.kheapTop)
    (hhi : k'.heap.kheapTop + pageSize * k'.pmm.freePages
      ≤ k.heap.kheapTop + pageSize * k.pmm.freePages) : k'.HeapShared pml4 where
  busy := hroot ▸ hm.busy _ h.busy
  apart q hq hq0 hn := by
    rw [hroot] at hn
    exact (hm.tables q _ hq hn).elim (h.apart q hq hq0) fun hc => hc h.busy
  entry va hva hva' := by
    rw [hroot]
    rcases h.entry va (hlo.trans hva) (hva'.trans_le hhi) with hc | ⟨heq, hpr⟩
    · exact .inl hc
    · have hkernel := hm.words _ (pml4Idx va) h.busy h.apart hpr
      have hchild := hm.words _ (pml4Idx va) hI.root_busy (fun _ => hI.root_apart) (heq ▸ hpr)
      right
      rw [hkernel, hchild]
      exact ⟨heq, hpr⟩

/-- The page that the heap grows by is mapped in the other table as well. -/
theorem HeapShared.grown_eq (h : k.HeapShared pml4) (hI : MapInv pml4 k.toMachine)
    (h0 : (k.pmm.pmmAllocPage).1 ≠ 0) :
    k.grown.toMachine = k.toMachine.mapNext pml4 k.heap.kheapTop kernelFlags
      ∧ (k.grown.leafEntry k.kernelPml4 k.heap.kheapTop ≠ none
        ↔ k.missing pml4 (tablePath k.heap.kheapTop) < k.pmm.freePages) := by
  have hfree : k.pmm.freePages ≠ 0 := fun hc => h0 (hI.alloc_eq_zero.mpr hc)
  have htop : k.heap.kheapTop < k.heap.kheapTop + pageSize * k.pmm.freePages := by
    unfold pageSize
    omega
  rcases h.entry _ le_rfl htop with rfl | ⟨heq, hpr⟩
  · exact ⟨rfl, mapNext_leafEntry hI kernelFlags_ok h0⟩
  · have hsame : k.grown.toMachine = k.toMachine.mapNext pml4 k.heap.kheapTop kernelFlags :=
      vmmMapPage_shared (m := { k.toMachine with pmm := (k.pmm.pmmAllocPage).2 }) heq hpr
    refine ⟨hsame, ?_⟩
    have hkernel := mapNext_words hI k.heap.kheapTop kernelFlags_ok h0 h.busy h.apart hpr
    have hchild := mapNext_words hI k.heap.kheapTop kernelFlags_ok h0 hI.root_busy
      (fun _ => hI.root_apart) (heq ▸ hpr)
    rw [← mapNext_leafEntry hI kernelFlags_ok h0, ← hsame, leafEntry_of_entry]
    rw [hsame, hchild, hkernel, heq]

theorem Spent.nil (h : k.HeapInv) (hI : MapInv pml4 k.toMachine) (hs : k.HeapShared pml4) :
    k.Spent pml4 k [] [] :=
  ⟨h, hs, rfl, 0, rfl, by simp, Mapped.nil hI⟩

theorem Spent.mapInv (h : k.Spent pml4 k' sizes vas) : MapInv pml4 k'.toMachine := by
  obtain ⟨n, -, -, hm⟩ := h.paid
  exact hm.inv

/-- What further pages need can be read off either state. -/
theorem Spent.supplies_iff (h : k.Spent pml4 k' sizes vas) : k.Supplies pml4 sizes vas ws
    ↔ ws.length + (k'.missingFor pml4 ws.dropLast).card ≤ k'.pmm.freePages := by
  obtain ⟨n, hn, -, hm⟩ := h.paid
  have hfrm := hm.frames
  have happ := framesFor_append hm.missing ws.dropLast
  have hlen : ws.dropLast.length ≤ ws.length := by simp
  rw [Machine.framesFor, Machine.framesFor, Machine.framesFor] at happ
  rw [Machine.framesFor] at hfrm
  simp only [List.length_append] at happ hfrm
  unfold Supplies
  rw [hn]
  simp only [List.length_append]
  omega

theorem Spent.supplies (h : k.Spent pml4 k' sizes vas) : k.Supplies pml4 sizes vas [] :=
  h.supplies_iff.mpr (by simp [Machine.missingFor])

theorem heapPages_add (k : KMem) (n n' : ℕ) :
    k.heapPages (n + n') = k.heapPages n ++ pagesFrom k.heap.kheapTop n n' := by
  rw [heapPages, heapPages, pagesFrom_append, Nat.zero_add]

/-- What serves a row of requests serves its beginning, and fewer pages. -/
theorem Supplies.mono {more vas' ws' : List ℕ} (h : k.Supplies pml4 (sizes ++ more) vas' ws')
    (hlen : (vas ++ ws).length ≤ (vas' ++ ws').length)
    (hsub : vas ++ ws.dropLast ⊆ vas' ++ ws'.dropLast) : k.Supplies pml4 sizes vas ws := by
  unfold Supplies at h ⊢
  rw [Heap.serves_append] at h
  rcases hs : k.heap.serves sizes with _ | ⟨n, heap⟩ <;> rw [hs] at h
  · exact h
  rcases hm : heap.serves more with _ | ⟨n', heap'⟩ <;>
    simp only [Option.bind_some, hm, Option.map_none, Option.map_some] at h
  rw [heapPages_add] at h
  have hcard : (k.missingFor pml4 (k.heapPages n ++ vas ++ ws.dropLast)).card
      ≤ (k.missingFor pml4 (k.heapPages n ++ pagesFrom k.heap.kheapTop n n' ++ vas'
        ++ ws'.dropLast)).card := by
    refine Finset.card_le_card (missingFor_mono fun va hva => ?_)
    simp only [List.append_assoc, List.mem_append] at hva ⊢
    rcases hva with hva | hva
    · exact .inl hva
    · exact .inr (.inr (List.mem_append.mp (hsub (List.mem_append.mpr hva))))
  simp only [List.length_append] at h hlen ⊢
  omega

theorem Supplies.fewer {vas' ws' : List ℕ} (h : k.Supplies pml4 sizes vas' ws')
    (hlen : (vas ++ ws).length ≤ (vas' ++ ws').length)
    (hsub : vas ++ ws.dropLast ⊆ vas' ++ ws'.dropLast) : k.Supplies pml4 sizes vas ws := by
  rw [← List.append_nil sizes] at h
  exact h.mono hlen hsub

theorem Supplies.of_all (h : k.Supplies pml4 sizes (vas ++ ws) []) :
    k.Supplies pml4 sizes vas ws := by
  refine h.fewer (by simp) fun va hva => ?_
  rw [List.dropLast_nil, List.append_nil, List.mem_append]
  exact (List.mem_append.mp hva).imp_right fun hc => List.dropLast_subset ws hc

/-- Only of the last page is the table left out. -/
theorem supplies_append_iff {ws' : List ℕ} (hne : ws' ≠ []) :
    k.Supplies pml4 sizes (vas ++ ws) ws' ↔ k.Supplies pml4 sizes vas (ws ++ ws') := by
  unfold Supplies
  rw [List.dropLast_append_of_ne_nil hne]
  simp only [List.append_assoc]

theorem Supplies.first {more ws' : List ℕ} (h : k.Supplies pml4 (sizes ++ more) vas (ws ++ ws')) :
    k.Supplies pml4 sizes vas ws := by
  refine h.mono (by simp) ?_
  rcases eq_or_ne ws' [] with rfl | hne
  · rw [List.append_nil]
    exact List.Subset.refl _
  · rw [List.dropLast_append_of_ne_nil hne]
    intro va hva
    rw [List.mem_append, List.mem_append]
    exact (List.mem_append.mp hva).imp_right fun hc => .inl (List.dropLast_subset ws hc)

/-- The page that the heap grows by counts as another one. -/
theorem Spent.supplies_grow (h : k.Spent pml4 k' sizes vas) {heap : Heap}
    (hserve : k'.heap.serve size = some (1, heap)) :
    k.Supplies pml4 (sizes ++ [size]) vas []
      ↔ k'.framesFor pml4 [k'.heap.kheapTop] ≤ k'.pmm.freePages := by
  obtain ⟨n, hn, htop, hm⟩ := h.paid
  have hpage : k.heapPages (n + 1) = k.heapPages n ++ [k'.heap.kheapTop] := by
    rw [heapPages_succ, ← htop, u64_of_lt h.heapInv.top_lt]
  have hperm : (k.heapPages (n + 1) ++ vas).Perm (k.heapPages n ++ vas ++ [k'.heap.kheapTop]) := by
    rw [hpage, List.append_assoc, List.append_assoc]
    exact .append_left _ List.perm_append_comm
  rw [hm.framesFor_le]
  unfold Supplies
  rw [Heap.serves_append, hn]
  simp only [Heap.serves, Option.bind_some, hserve, Option.map_some, Nat.add_zero, List.append_nil,
    List.dropLast_nil]
  rw [hperm.length_eq, missingFor_perm hperm, Machine.framesFor]

theorem Spent.not_supplies (h : k.Spent pml4 k' sizes vas) (hserve : k'.heap.serve size = none) :
    ¬ k.Supplies pml4 (sizes ++ [size]) vas [] := by
  obtain ⟨n, hn, -, -⟩ := h.paid
  unfold Supplies
  rw [Heap.serves_append, hn]
  simp [Heap.serves, hserve]

/-- The heap grows by a page, which has the block. -/
theorem Spent.grown (h : k.Spent pml4 k' sizes vas) {t : Block}
    (hff : k'.heap.firstFit size = none) (hadd : k'.heap.addPage.firstFit size = some t)
    (h0 : (k'.pmm.pmmAllocPage).1 ≠ 0)
    (hlt : k'.missing pml4 (tablePath k'.heap.kheapTop) < k'.pmm.freePages) :
    k.Spent pml4 { k'.grown with heap := k'.grown.heap.carve size t } (sizes ++ [size]) vas := by
  obtain ⟨n, hn, htop, hm⟩ := h.paid
  obtain ⟨hmach, -⟩ := h.shared.grown_eq hm.inv h0
  obtain ⟨hheap, -, htop', hfree⟩ := grown_spec h.heapInv h0
  have hstep : Mapped k'.toMachine k'.grown.toMachine pml4 [k'.heap.kheapTop] := by
    rw [hmach]
    exact (mapNext_enough hm.inv kernelFlags_ok h0 hlt).toMapped
  have hpage : k.heapPages (n + 1) = k.heapPages n ++ [k'.heap.kheapTop] := by
    rw [heapPages_succ, ← htop, u64_of_lt h.heapInv.top_lt]
  have hshared : k'.grown.HeapShared pml4 := by
    refine h.shared.mapped hm.inv hstep rfl (by omega) ?_
    rw [htop']
    unfold pageSize
    omega
  refine ⟨(carve_spec hheap hadd).1, ⟨hshared.busy, hshared.apart, hshared.entry⟩, h.root, n + 1,
    ?_, ?_, ?_⟩
  · have hserve : k'.heap.serve size = some (1, k'.heap.addPage.carve size t) := by
      unfold Heap.serve
      rw [hff, hadd]
      rfl
    rw [Heap.serves_append, hn]
    simp [Heap.serves, hserve]
    rfl
  · change k'.grown.heap.kheapTop = _
    rw [htop', htop]
    ring
  · rw [hpage, List.append_assoc]
    refine (hm.trans hstep).perm ?_
    rw [List.append_assoc]
    exact .append_left _ List.perm_append_comm

/-- Where a free block is found the machine stays as it is, and else a page is mapped for the
heap. -/
def FoundOrGrown (pml4 size : ℕ) (k k' : KMem) : Prop :=
  (k.heap.firstFit size ≠ none ∧ k'.toMachine = k.toMachine)
    ∨ (k.heap.firstFit size = none ∧ (k.pmm.pmmAllocPage).1 ≠ 0
      ∧ k.missing pml4 (tablePath k.heap.kheapTop) < k.pmm.freePages
      ∧ k'.toMachine = k.toMachine.mapNext pml4 k.heap.kheapTop kernelFlags)

/-- A request for at most a page is met exactly if that could be foreseen. -/
theorem Spent.kmalloc (h : k.Spent pml4 k' sizes vas) (h8 : 8 ∣ size)
    (hpage : size + headerSize ≤ pageSize) :
    (∃ p k'', k'.kmalloc size = some (p, k'') ∧ p ≠ 0 ∧ k.Spent pml4 k'' (sizes ++ [size]) vas
        ∧ FoundOrGrown pml4 size k' k'')
      ∨ (¬ k.Supplies pml4 (sizes ++ [size]) vas []
        ∧ ∀ p k'', k'.kmalloc size = some (p, k'') → p = 0) := by
  have hI := h.mapInv
  rcases hff : k'.heap.firstFit size with _ | t
  swap
  · refine .inl ⟨_, _, kmalloc_found h8 hpage h.heapInv hff, by unfold headerSize; omega, ?_,
      .inl ⟨hff.symm ▸ Option.some_ne_none t, rfl⟩⟩
    obtain ⟨n, hn, htop, hm⟩ := h.paid
    refine ⟨(carve_spec h.heapInv hff).1, ⟨h.shared.busy, h.shared.apart, h.shared.entry⟩, h.root,
      n, ?_, htop, hm⟩
    rw [Heap.serves_append, hn]
    simp [Heap.serves, Heap.serve, hff]
  by_cases h0 : (k'.pmm.pmmAllocPage).1 = 0
  -- No frame is left.
  · have hfree := hI.alloc_eq_zero.mp h0
    have he : k'.kheapExpand 1 = some (false, { k' with pmm := (k'.pmm.pmmAllocPage).2 }) := by
      rw [kheapExpand_succ, if_pos h0]
    refine .inr ⟨?_, fun p k'' hk => ?_⟩
    · rcases hadd : k'.heap.addPage.firstFit size with _ | t
      · exact h.not_supplies (by rw [Heap.serve, hff, hadd, Option.map_none])
      · rw [h.supplies_grow (by rw [Heap.serve, hff, hadd, Option.map_some]), hfree,
          framesFor_singleton]
        omega
    · rw [kmalloc_short h8 hpage h.heapInv hff he] at hk
      exact (Prod.mk.inj (Option.some.inj hk)).1.symm
  obtain ⟨hmach, hleaf⟩ := h.shared.grown_eq hI h0
  by_cases hlt : k'.missing pml4 (tablePath k'.heap.kheapTop) < k'.pmm.freePages
  · have he := kheapExpand_pageMaps (k := k') ⟨h0, hleaf.mpr hlt⟩
    have hfirst := firstFit_onePage h8 hpage h.heapInv hff he
    rcases hadd : k'.heap.addPage.firstFit size with _ | t
    · refine .inr ⟨h.not_supplies (by rw [Heap.serve, hff, hadd, Option.map_none]),
        fun p k'' hk => ?_⟩
      refine kmalloc_of_not_tailFree h8 hpage _ rfl h.heapInv hff (fun htail => ?_) hk
      obtain ⟨t, ht⟩ := hfirst.mpr htail
      cases ht.symm.trans hadd
    · have hspent := h.grown hff hadd h0 hlt
      have hheap := (grown_spec h.heapInv h0).1
      refine .inl ⟨t.addr + headerSize, _, ?_, ?_, hspent, .inr ⟨hff, h0, hlt, hmach⟩⟩
      · rw [kmalloc_retry h8 hpage h.heapInv hff he, kmalloc_found h8 hpage hheap hadd]
      · unfold headerSize
        omega
  -- The kernel faults on the new page.
  · have he : k'.kheapExpand 1 = none := by
      have hnone : k'.grown.leafEntry k'.kernelPml4 k'.heap.kheapTop = none := by
        by_contra hc
        exact hlt (hleaf.mp hc)
      rw [kheapExpand_succ, if_neg h0, hnone]
    refine .inr ⟨?_, fun p k'' hk => ?_⟩
    · rcases hadd : k'.heap.addPage.firstFit size with _ | t
      · exact h.not_supplies (by rw [Heap.serve, hff, hadd, Option.map_none])
      · rw [h.supplies_grow (by rw [Heap.serve, hff, hadd, Option.map_some]), framesFor_singleton]
        omega
    · rw [kmalloc_fault h8 hpage h.heapInv hff he] at hk
      cases hk

theorem Spent.kmalloc_cases (h : k.Spent pml4 k' sizes vas) (h8 : 8 ∣ size)
    (hpage : size + headerSize ≤ pageSize) (hk : k'.kmalloc size = some (p, k'')) :
    (p ≠ 0 ∧ k.Spent pml4 k'' (sizes ++ [size]) vas ∧ FoundOrGrown pml4 size k' k'')
      ∨ (p = 0 ∧ ¬ k.Supplies pml4 (sizes ++ [size]) vas []) := by
  rcases h.kmalloc h8 hpage with ⟨q, k₁, hk', hq, hspent⟩ | ⟨hno, hzero⟩
  · obtain ⟨rfl, rfl⟩ := Prod.mk.inj (Option.some.inj (hk.symm.trans hk'))
    exact .inl ⟨hq, hspent⟩
  · exact .inr ⟨hzero p k'' hk, hno⟩

end Heap

end KMem

/-! ## The pages -/

/-- The frame in the entry for a page, where there is a table for it. -/
def Machine.entryAt (m : Machine) (pml4 va : ℕ) : Option ℕ :=
  (m.table pml4 (tablePath va)).map fun pt => pteGetAddr (m.phys pt (ptIdx va))

/-- The frames of the pages were free and hold no table. -/
def Machine.OwnPages (old : Pmm) (m : Machine) (pml4 : ℕ) (vas : List ℕ) : Prop :=
  ∀ va ∈ vas, ∀ pa, m.entryAt pml4 va = some pa →
    ¬ old.Busy pa ∧ ∀ p, TablePath p → m.table pml4 p ≠ some pa

theorem entryAt_of_frameAt {m : Machine} {pml4 va pa : ℕ} (h : m.frameAt pml4 va = some pa) :
    m.entryAt pml4 va = some pa := by
  obtain ⟨e, he, rfl⟩ := Option.map_eq_some_iff.mp h
  obtain ⟨pt, hpt, rfl, -⟩ := leafEntry_eq_some he
  rw [Machine.entryAt, hpt, Option.map_some]

section Pages

variable {m m' : Machine} {pml4 va last : ℕ} {vas ws : List ℕ} {flags : BitVec 64}

theorem MapsEach.ownPages (h : MapsEach m m' pml4 vas) :
    m'.OwnPages m.pmm pml4 vas := by
  intro va hva pa hpa
  obtain ⟨pb, hpb, hno, -⟩ := h.mapped va hva
  obtain rfl := Option.some.inj (hpa.symm.trans (entryAt_of_frameAt hpb))
  exact ⟨hno, h.leaves va hva pa hpb⟩

/-- New tables are on frames that were free. -/
theorem mapNext_new_tables (h : MapInv pml4 m) (hf : FlagsOk flags)
    (h0 : (m.pmm.pmmAllocPage).1 ≠ 0) {p : List ℕ} {n : ℕ} (hp : TablePath p)
    (hn : (m.mapNext pml4 va flags).table pml4 p = some n) :
    m.table pml4 p = some n ∨ ¬ m.pmm.Busy n := by
  rcases lt_or_ge (m.missing pml4 (tablePath va)) m.pmm.freePages with hlt | hge
  · exact (mapNext_enough h hf h0 hlt).tables p n hp hn
  · have hfree := (Pmm.pmmAllocPage_exact h.pmm h.zero).resolve_left fun hc => h0 (by rw [hc.2])
    have hbusy := (Pmm.pmmAllocPage_spec h.pmm).2.2.1
    obtain ⟨m₁, -, hG, ⟨-, -, he⟩ | ⟨hle, -, -⟩⟩ :=
      vmmMapPage_split h.alloc hf va (m.pmm.pmmAllocPage).1
    · rw [Machine.mapNext, he] at hn
      rcases hG.added () p n hp hn with h1 | ⟨-, -, h1, -⟩
      · exact .inl h1
      · exact .inr fun hc => h1 (hbusy n hc)
    · change m.missing pml4 (tablePath va) ≤ (m.pmm.pmmAllocPage).2.freePages at hle
      omega

/-- With frames for all but the tables of the last page the loop takes all there are. -/
theorem mapEach_starved (hf : FlagsOk flags) (h : MapInv pml4 m)
    (hle : m.framesFor pml4 vas < m.pmm.freePages)
    (hlt : m.pmm.freePages < m.framesFor pml4 (vas ++ [last])) :
    ∃ m', Machine.mapEach pml4 flags (vas ++ [last]) m = (true, m') ∧ MapInv pml4 m'
      ∧ m'.pmm.freePages = 0 ∧ m'.table pml4 (tablePath last) = none
      ∧ m'.OwnPages m.pmm pml4 (vas ++ [last]) := by
  obtain ⟨m₁, hmaps, h0, hshort, he, hnone⟩ := mapEach_last hf h hle hlt
  obtain ⟨hinv, hzero, hsame⟩ := mapNext_short hmaps.inv hf h0 hshort
  refine ⟨_, he, hinv, hzero, hnone, fun va hva pa hpa => ?_⟩
  rcases List.mem_append.mp hva with hva | hva
  · obtain ⟨pb, hpb, hno, hb⟩ := hmaps.mapped va hva
    have hframe : (m₁.mapNext pml4 last flags).frameAt pml4 va = some pb := by
      rw [Machine.frameAt, hsame]
      exact hpb
    obtain rfl := Option.some.inj (hpa.symm.trans (entryAt_of_frameAt hframe))
    refine ⟨hno, fun p hp hn => ?_⟩
    exact (mapNext_new_tables hmaps.inv hf h0 hp hn).elim (hmaps.leaves va hva pa hpb p hp)
      fun hc => hc hb
  · rw [List.mem_singleton.mp hva, Machine.entryAt, hnone] at hpa
    cases hpa

end Pages

namespace KMem

section Pages

variable {k k' : KMem} {pml4 : ℕ} {sizes vas ws : List ℕ} {m : Machine} {flags : BitVec 64}
  {ok : Bool}

theorem Spent.supplies_all (h : k.Spent pml4 k' sizes vas) :
    k.Supplies pml4 sizes (vas ++ ws) [] ↔ k'.framesFor pml4 ws ≤ k'.pmm.freePages := by
  obtain ⟨n, hn, -, hm⟩ := h.paid
  rw [hm.framesFor_le]
  unfold Supplies
  rw [hn]
  simp [Machine.framesFor]

theorem Spent.mapped (h : k.Spent pml4 k' sizes vas) (hm : Mapped k'.toMachine m pml4 ws) :
    k.Spent pml4 { k' with toMachine := m } sizes (vas ++ ws) := by
  obtain ⟨n, hn, htop, hold⟩ := h.paid
  have hfrm := hm.frames
  have hroom := h.heapInv.room
  have hle : pageSize * m.pmm.freePages ≤ pageSize * k'.pmm.freePages :=
    Nat.mul_le_mul_left _ (by omega)
  refine ⟨⟨h.heapInv.tiles, ?_⟩, ?_, h.root, n, hn, htop, ?_⟩
  · dsimp only
    omega
  · refine h.shared.mapped h.mapInv hm rfl le_rfl ?_
    dsimp only
    omega
  · rw [← List.append_assoc]
    exact hold.trans hm

/-- The loop of `mm_map_range` succeeds exactly if it could be foreseen. If not all of its pages get
mapped then, no frame is left. -/
theorem Spent.mapEach (h : k.Spent pml4 k' sizes vas) (hf : FlagsOk flags)
    (he : Machine.mapEach pml4 flags ws k'.toMachine = (ok, m)) :
    (ok = true ↔ k.Supplies pml4 sizes vas ws)
      ∧ (ok = true → MapInv pml4 m ∧ m.OwnPages k.pmm pml4 ws)
      ∧ ((k.Supplies pml4 sizes (vas ++ ws) [] ∧ MapsEach k'.toMachine m pml4 ws)
        ∨ (¬ k.Supplies pml4 sizes (vas ++ ws) [] ∧ (ok = true → m.pmm.freePages = 0
          ∧ ∃ va ∈ ws, m.table pml4 (tablePath va) = none))) := by
  have hbusy : ∀ x, k.pmm.Busy x → k'.pmm.Busy x := by
    obtain ⟨n, -, -, hm⟩ := h.paid
    exact hm.busy
  have hown : ∀ m : Machine, m.OwnPages k'.pmm pml4 ws → m.OwnPages k.pmm pml4 ws :=
    fun m hm va hva pa hpa => ⟨fun hc => (hm va hva pa hpa).1 (hbusy pa hc), (hm va hva pa hpa).2⟩
  rw [h.supplies_iff, h.supplies_all]
  rcases le_or_gt (k'.framesFor pml4 ws) k'.pmm.freePages with hle | hlt
  · obtain ⟨m', he', hmaps⟩ := mapEach_enough hf h.mapInv hle
    obtain ⟨rfl, rfl⟩ := Prod.mk.inj (he.symm.trans he')
    refine ⟨⟨fun _ => ?_, fun _ => rfl⟩, fun _ => ⟨hmaps.inv, hown m hmaps.ownPages⟩,
      .inl ⟨hle, hmaps⟩⟩
    have hcard := card_missingFor_le k'.toMachine pml4 (List.dropLast_subset ws)
    rw [Machine.framesFor] at hle
    omega
  · rcases List.eq_nil_or_concat ws with rfl | ⟨vs, last, rfl⟩
    · simp [Machine.framesFor, Machine.missingFor] at hlt
    rw [List.concat_eq_append] at *
    have hdrop : (vs ++ [last]).length + (k'.missingFor pml4 (vs ++ [last]).dropLast).card
        = k'.framesFor pml4 vs + 1 := by
      rw [List.dropLast_concat, List.length_append, List.length_singleton, Machine.framesFor]
      omega
    rw [hdrop]
    rcases le_or_gt k'.pmm.freePages (k'.framesFor pml4 vs) with hshort | henough
    · have hfalse := mapEach_short hf last h.mapInv hshort
      rw [he] at hfalse
      obtain rfl : ok = false := hfalse
      refine ⟨⟨fun hc => (by cases hc), fun hc => (by omega)⟩, fun hc => (by cases hc),
        .inr ⟨hlt.not_ge, fun hc => (by cases hc)⟩⟩
    · obtain ⟨m', he', hinv, hzero, hnone, hpages⟩ := mapEach_starved hf h.mapInv henough hlt
      obtain ⟨rfl, rfl⟩ := Prod.mk.inj (he.symm.trans he')
      exact ⟨⟨fun _ => henough, fun _ => rfl⟩, fun _ => ⟨hinv, hown m hpages⟩,
        .inr ⟨hlt.not_ge, fun _ => ⟨hzero, last, by simp, hnone⟩⟩⟩

/-- `mm_map_range` succeeds exactly if it could be foreseen. If not all of its pages get mapped
then, no frame is left. -/
theorem Spent.mmMapRange {K K' : Kernel} {mm va size : ℕ} {vmFlags : BitVec 64}
    (h : k.Spent pml4 K.toKMem sizes vas) (hmm : mm ≠ 0) (hpml4 : (K.mms mm).pml4Pa = pml4)
    (hs : size ≠ 0) (hr : K.mmMapRange mm va size vmFlags = some (ok, K')) :
    (ok = true ↔ k.Supplies pml4 (sizes ++ [vmaStructSize]) vas (rangePages va size))
      ∧ (ok = true → MapInv pml4 K'.toMachine
        ∧ K'.toMachine.OwnPages k.pmm pml4 (rangePages va size))
      ∧ ((k.Supplies pml4 (sizes ++ [vmaStructSize]) (vas ++ rangePages va size) []
          ∧ k.Spent pml4 K'.toKMem (sizes ++ [vmaStructSize]) (vas ++ rangePages va size)
          ∧ ∃ m, MapsEach m K'.toMachine pml4 (rangePages va size))
        ∨ (¬ k.Supplies pml4 (sizes ++ [vmaStructSize]) (vas ++ rangePages va size) []
          ∧ (ok = true → K'.pmm.freePages = 0
            ∧ ∃ p ∈ rangePages va size, K'.table pml4 (tablePath p) = none))) := by
  obtain ⟨-, -, vma, km, hkm, hcase⟩ := (mmMapRange_cases hr).resolve_left
    fun hc => hc.2.1.elim hmm hs
  rcases h.kmalloc_cases (by decide) (by decide) hkm with ⟨hv, hspent, -⟩ | ⟨rfl, hno⟩
  · have hr := (hcase.resolve_left fun hc => hv hc.2.1).2
    rcases he : Machine.mapEach pml4 (pteFlagsOf vmFlags) (rangePages va size) km.toMachine with
      ⟨ok', m⟩
    obtain ⟨hok, hpages, hall⟩ := hspent.mapEach (pteFlagsOf_ok vmFlags) he
    have hpml4' : (({ K with toKMem := km } : Kernel).mms mm).pml4Pa = pml4 := hpml4
    cases ok' with
    | false =>
      obtain rfl : ok = false := by
        by_contra hc
        rw [eq_true_of_ne_false hc] at hr
        obtain ⟨m', hm', -⟩ := mapArea_true_iff.mp hr
        rw [hpml4'] at hm'
        cases congrArg Prod.fst (he.symm.trans hm')
      refine ⟨hok, fun hc => (by cases hc), .inr ⟨fun hc => ?_, fun hc => (by cases hc)⟩⟩
      exact absurd (hok.mpr hc.of_all) (by decide)
    | true =>
      have hmap : Kernel.mapArea { K with toKMem := km } mm vma (requestArea mm va size vmFlags)
          = (true, _) := mapArea_true_iff.mpr ⟨m, hpml4'.symm ▸ he, rfl⟩
      obtain ⟨rfl, rfl⟩ := Prod.mk.inj (hr.symm.trans hmap)
      refine ⟨hok, hpages, hall.imp (fun hc => ?_) id⟩
      exact ⟨hc.1, hspent.mapped hc.2.toMapped, _, hc.2⟩
  · obtain ⟨rfl, -, -⟩ := hcase.resolve_right fun hc => hc.1 rfl
    refine ⟨⟨fun hc => (by cases hc), fun hc => absurd (hc.fewer ?_ ?_) hno⟩,
      fun hc => (by cases hc), .inr ⟨fun hc => hno (hc.fewer ?_ ?_), fun hc => (by cases hc)⟩⟩
    · simp
    · simp
    · simp
    · simp

/-- The kernel does not fault on the area if there is memory for it. -/
theorem Spent.mmMapRange_some {K : Kernel} (h : k.Spent pml4 K.toKMem sizes vas)
    (mm va size : ℕ) (vmFlags : BitVec 64)
    (hsup : k.Supplies pml4 (sizes ++ [vmaStructSize]) vas []) :
    ∃ ok K', K.mmMapRange mm va size vmFlags = some (ok, K') := by
  obtain ⟨vma, km, hkm, -⟩ := (h.kmalloc (by decide) (by decide)).resolve_right
    fun hc => hc.1 hsup
  unfold Kernel.mmMapRange
  split_ifs
  · exact ⟨_, _, rfl⟩
  · rw [hkm]
    dsimp only
    split_ifs <;> exact ⟨_, _, rfl⟩

end Pages

end KMem

/-! ## Data -/

/-- Data has been written: to frames that were free before and hold no table, and to the flags of
pages. -/
structure DataStep (old : Pmm) (pml4 : ℕ) (m m' : Machine) : Prop where
  pmm : m'.pmm = m.pmm
  tables : ∀ p, TablePath p → m'.table pml4 p = m.table pml4 p
  frames : ∀ va, m'.entryAt pml4 va = m.entryAt pml4 va
  words : ∀ x j, old.Busy x → (∀ p, TablePath p → p ≠ [] → m.table pml4 p ≠ some x) →
    m'.phys x j = m.phys x j

namespace DataStep

variable {old : Pmm} {pml4 : ℕ} {m₀ m m' m'' : Machine} {vas : List ℕ}

theorem refl (m : Machine) : DataStep old pml4 m m := ⟨rfl, fun _ _ => rfl, fun _ => rfl,
  fun _ _ _ _ => rfl⟩

theorem trans (h : DataStep old pml4 m m') (h' : DataStep old pml4 m' m'') :
    DataStep old pml4 m m'' where
  pmm := h'.pmm.trans h.pmm
  tables p hp := (h'.tables p hp).trans (h.tables p hp)
  frames va := (h'.frames va).trans (h.frames va)
  words x j hx hno := (h'.words x j hx fun p hp h0 hn => hno p hp h0 (h.tables p hp ▸ hn)).trans
    (h.words x j hx hno)

/-- A frame that holds no table is written. -/
theorem page {pa : ℕ} {ph : PhysMem} (hph : ∀ x j, x ≠ pa → ph x j = m.phys x j)
    (hfree : ¬ old.Busy pa) (hno : ∀ p, TablePath p → m.table pml4 p ≠ some pa) :
    DataStep old pml4 m { m with phys := ph } := by
  have htables : ∀ p, TablePath p →
      Machine.table { m with phys := ph } pml4 p = m.table pml4 p := fun p hp =>
    table_congr (fun q a j hq ha _ => hph a j fun hc => hno q hq (hc ▸ ha)) hp
  refine ⟨rfl, htables, fun va => ?_, fun x j hx _ => hph x j fun hc => hfree (hc ▸ hx)⟩
  rw [Machine.entryAt, Machine.entryAt, htables _ (tablePath_ok va)]
  rcases hpt : m.table pml4 (tablePath va) with _ | pt
  · rfl
  · rw [Option.map_some, Option.map_some]
    dsimp only
    rw [hph pt _ fun hc => hno _ (tablePath_ok va) (hc ▸ hpt)]

/-- The flags of a page are written. -/
theorem flags {va pt : ℕ} {e : BitVec 64} (hI : MapInv pml4 m)
    (hpt : m.table pml4 (tablePath va) = some pt)
    (he : pteGetAddr e = pteGetAddr (m.phys pt (ptIdx va))) :
    DataStep old pml4 m (m.setEntry pt (ptIdx va) e) := by
  have htables : ∀ p, TablePath p →
      (m.setEntry pt (ptIdx va) e).table pml4 p = m.table pml4 p := fun p hp =>
    table_setEntry hI.tree (tablePath_ok va) rfl hpt hp
  refine ⟨rfl, htables, fun w => ?_, fun x j hx hno => ?_⟩
  · rw [Machine.entryAt, Machine.entryAt, htables _ (tablePath_ok w)]
    rcases hw : m.table pml4 (tablePath w) with _ | a
    · rfl
    rw [Option.map_some, Option.map_some]
    by_cases hc : a = pt ∧ ptIdx w = ptIdx va
    · rw [hc.1, hc.2, setEntry_phys_self, he]
    · rw [setEntry_phys_of_ne fun h1 h2 => hc ⟨h1, h2⟩]
  · refine setEntry_phys_of_ne fun hc => absurd ?_ (hno _ (tablePath_ok va) (by simp [tablePath]))
    rw [hpt, hc]

theorem mapInv (h : DataStep old pml4 m m') (hI : MapInv pml4 m) : MapInv pml4 m' where
  pmm := h.pmm ▸ hI.pmm
  width := h.pmm ▸ hI.width
  zero := h.pmm ▸ hI.zero
  tree := ⟨fun p q n hp hq h1 h2 => hI.tree.tree p q n hp hq (h.tables p hp ▸ h1)
      (h.tables q hq ▸ h2),
    fun p n hp hn => h.pmm ▸ hI.tree.busy p n hp (h.tables p hp ▸ hn)⟩

theorem ownPages (h : DataStep old pml4 m m') (hown : m.OwnPages old pml4 vas) :
    m'.OwnPages old pml4 vas := by
  intro va hva pa hpa
  obtain ⟨hno, htab⟩ := hown va hva pa (h.frames va ▸ hpa)
  exact ⟨hno, fun p hp hn => htab p hp (h.tables p hp ▸ hn)⟩

theorem mapped (h : DataStep m₀.pmm pml4 m m') (hm : Mapped m₀ m pml4 vas) :
    Mapped m₀ m' pml4 vas where
  inv := h.mapInv hm.inv
  frames := h.pmm ▸ hm.frames
  missing w := by
    rw [← hm.missing]
    ext p
    simp only [mem_missingPaths]
    exact and_congr_right fun hp => by rw [h.tables p (tablePath_of_initial hp)]
  busy x hx := h.pmm ▸ hm.busy x hx
  tables p n hp hn := hm.tables p n hp (h.tables p hp ▸ hn)
  words x j hx hno hpr := by
    rw [← hm.words x j hx hno hpr]
    refine h.words x j hx fun p hp h0 hn => ?_
    exact (hm.tables p x hp hn).elim (hno p hp h0) fun hc => hc hx

end DataStep

theorem KMem.Spent.data {k k' : KMem} {pml4 : ℕ} {sizes vas : List ℕ} {m : Machine}
    (h : k.Spent pml4 k' sizes vas) (hI : MapInv pml4 k.toMachine) (hs : k.HeapShared pml4)
    (hd : DataStep k.pmm pml4 k'.toMachine m) :
    k.Spent pml4 { k' with toMachine := m } sizes vas := by
  obtain ⟨n, hn, htop, hm⟩ := h.paid
  have hpmm := hd.pmm
  have hwords : ∀ x, k.pmm.Busy x → (∀ p, TablePath p → p ≠ [] → k.table pml4 p ≠ some x) →
      ∀ j, m.phys x j = k'.phys x j := fun x hx hno j =>
    hd.words x j hx fun p hp h0 hc => (hm.tables p x hp hc).elim (hno p hp h0) fun hc => hc hx
  refine ⟨⟨h.heapInv.tiles, ?_⟩, ⟨?_, fun p hp h0 => ?_, fun va hva hva' => ?_⟩, h.root, n, hn,
    htop, hd.mapped hm⟩
  · dsimp only
    rw [hpmm]
    exact h.heapInv.room
  · dsimp only
    rw [hpmm]
    exact h.shared.busy
  · dsimp only
    rw [hd.tables p hp]
    exact h.shared.apart p hp h0
  · dsimp only at hva hva' ⊢
    rw [hpmm] at hva'
    rw [hwords _ hI.root_busy (fun _ => hI.root_apart), h.root, hwords _ hs.busy hs.apart,
      ← h.root]
    exact h.shared.entry va hva hva'

/-! ## Reached states -/

section Reached

variable {live : List ℕ} {k : Kernel} {mm : ℕ}

theorem kernel_node (k : Kernel) (frames : List ℕ) (live : List ℕ) (p : List ℕ) :
    k.toMachine.node (treeRoot k.kernelPml4 frames (k.spaces live)) .kernel p
      = k.table k.kernelPml4 p := by
  have hroot : treeRoot k.kernelPml4 frames (k.spaces live) .kernel = some k.kernelPml4 := rfl
  exact Machine.node_eq_table hroot p

/-- A table of an address space is reached in its user half, or in the kernel's tree. -/
theorem HalfInv.space_table (h : HalfInv live k) (hmm : mm ∈ live) (frames : List ℕ) {p : List ℕ}
    {n : ℕ} (hp : TablePath p) (hn : k.table (k.mms mm).pml4Pa p = some n) :
    ∃ t, treePath (· = stackSlot) t p ∧ (t = .kernel → p ≠ [])
      ∧ k.toMachine.node (treeRoot k.kernelPml4 frames (k.spaces live)) t p = some n := by
  have hroot : treeRoot k.kernelPml4 frames (k.spaces live) (.mm mm) = some (k.mms mm).pml4Pa :=
    if_pos hmm
  by_cases huser : ∀ i ∈ p.head?, i < 256
  · exact ⟨.mm mm, ⟨hp.1.trans (by decide), hp.2, huser⟩, nofun,
      (Machine.node_eq_table hroot _).trans hn⟩
  rcases p with _ | ⟨j, p⟩
  · simp at huser
  refine ⟨.kernel, .inl hp, fun _ => List.cons_ne_nil _ _, ?_⟩
  have hword := h.shares mm hmm j (by simpa using huser) (hp.2 j List.mem_cons_self)
  rw [kernel_node, ← hn, Machine.table, Machine.table, Radix.walk, Radix.walk,
    tableChild, tableChild, hword]

/-- After `mm_init` the kernel's tables form a tree of taken frames. -/
theorem HalfInv.kernel_mapInv (h : HalfInv live k) (hz : k.pmm.Busy 0) :
    MapInv k.kernelPml4 k.toMachine := by
  obtain ⟨frames, hm⟩ := h.spaces.mem
  have hnode := kernel_node k frames live
  refine ⟨hm.tables.pmm, hm.tables.width, hz, fun p q n hp hq h1 h2 => ?_, fun p n hp h1 => ?_⟩
  · exact (hm.tables.forest .kernel p .kernel q n (.inl hp) (.inl hq) ((hnode p).trans h1)
      ((hnode q).trans h2)).2
  · exact hm.tables.busy .kernel p n (.inl hp) ((hnode p).trans h1)

/-- So do those of every live address space. -/
theorem HalfInv.space_mapInv (h : HalfInv live k) (hz : k.pmm.Busy 0) (hmm : mm ∈ live) :
    MapInv (k.mms mm).pml4Pa k.toMachine := by
  obtain ⟨frames, hm⟩ := h.spaces.mem
  refine ⟨hm.tables.pmm, hm.tables.width, hz, fun p q n hp hq h1 h2 => ?_, fun p n hp h1 => ?_⟩
  · obtain ⟨t, ht, -, hnt⟩ := h.space_table hmm frames hp h1
    obtain ⟨u, hu, -, hnu⟩ := h.space_table hmm frames hq h2
    exact (hm.tables.forest t p u q n ht hu hnt hnu).2
  · obtain ⟨t, ht, -, hnt⟩ := h.space_table hmm frames hp h1
    exact hm.tables.busy t p n ht hnt

/-- As long as the heap stays in its PML4 slot, the kernel has the entries for all that it may still
grow by. -/
theorem HalfInv.heapEntries (h : HalfInv live k)
    (htop : k.heap.kheapTop + pageSize * k.pmm.freePages ≤ kernelHeapBase + 2 ^ 39) {va : ℕ}
    (hlo : k.heap.kheapTop ≤ va) (hhi : va < k.heap.kheapTop + pageSize * k.pmm.freePages) :
    pml4Idx va = heapSlot ∧ isPresent (k.phys k.kernelPml4 (pml4Idx va)) = true := by
  have hslot := pml4Idx_heap (h.spaces.base_le_top.trans hlo) (hhi.trans_le htop)
  exact ⟨hslot, hslot ▸ table_singleton.mp h.heap⟩

/-- And every live address space shares them. -/
theorem HalfInv.heapShared (h : HalfInv live k) (hmm : mm ∈ live)
    (htop : k.heap.kheapTop + pageSize * k.pmm.freePages ≤ kernelHeapBase + 2 ^ 39) :
    k.toKMem.HeapShared (k.mms mm).pml4Pa := by
  obtain ⟨frames, hm⟩ := h.spaces.mem
  refine ⟨hm.tables.busy .kernel [] _ (.inl ⟨by decide, nofun⟩) rfl, fun p hp h0 hn => ?_,
    fun va hlo hhi => .inr ?_⟩
  · obtain ⟨t, ht, hne, hnt⟩ := h.space_table hmm frames hp hn
    exact h0 (hm.tables.forest t p .kernel [] _ ht (.inl ⟨by decide, nofun⟩) hnt rfl).2
  · obtain ⟨hslot, hpr⟩ := h.heapEntries htop hlo hhi
    exact ⟨h.shares mm hmm _ (by rw [hslot]; decide) (by rw [hslot]; decide), hpr⟩

end Reached

end SudoOS
