import SudoOS.ElfAccess
import SudoOS.Proofs.RangeEnd
import SudoOS.Proofs.Supply

/-!
# Malformed programs

`load_elf` does not know how long the file is and compares no field of its headers with anything. It
stays within the file and within the ranges it has mapped exactly for the files whose headers and
segments, as far as it comes, happen to do so (`loadElf_accesses`).
-/

namespace SudoOS

/-- The pages that `mm_map_range` takes for `size` bytes from `va` on contain `x`. -/
def InPages (va size x : ℕ) : Prop :=
  u64Sub x (alignDown va pageSize)
    < u64Sub (alignUp (u64 (va + size)) pageSize) (alignDown va pageSize)

/-- The access stays within a file of `size` bytes, or within the range that has been mapped. -/
def ElfAccess.Ok (size : ℕ) : ElfAccess → Prop
  | .read off n => ∀ j < n, u64 (off + j) < size
  | .write va n memsz => n ≤ memsz ∧ ∀ j < n, InPages va memsz (u64 (va + j))

/-! ## Single accesses -/

section Accesses

variable {size off n va memsz : ℕ}

theorem read_ok_iff (hsize : size < 2 ^ 64) :
    (ElfAccess.read off n).Ok size ↔ n = 0 ∨ u64 off + n ≤ size := by
  unfold ElfAccess.Ok
  have hbyte : ∀ j, u64 (off + j) = (u64 off + j) % 2 ^ 64 := fun j => by
    unfold u64
    omega
  have hoff := u64_lt off
  simp only [hbyte]
  constructor
  · intro hall
    by_contra hc
    obtain ⟨h0, hlt⟩ := not_or.mp hc
    -- The last byte is outside, or the address wraps before it.
    by_cases hwrap : u64 off + n ≤ 2 ^ 64
    · have := hall (n - 1) (by omega)
      omega
    · have := hall (2 ^ 64 - 1 - u64 off) (by omega)
      omega
  · rintro (rfl | hle) j hj
    · omega
    · omega

theorem inPages_iff (hva : va < 2 ^ 64) {j : ℕ} : InPages va memsz (u64 (va + j))
    ↔ (va % 4096 + j) % 2 ^ 64 < (va % 4096 + memsz + 4095) / 4096 * 4096 % 2 ^ 64 := by
  have hoff : u64Sub (u64 (va + j)) (va / 4096 * 4096) = (va % 4096 + j) % 2 ^ 64 := by
    unfold u64Sub u64
    split_ifs <;> omega
  have hlen : u64Sub (alignUp (u64 (va + memsz)) pageSize) (va / 4096 * 4096)
      = (va % 4096 + memsz + 4095) / 4096 * 4096 % 2 ^ 64 := by
    rw [alignUp_eq]
    unfold u64Sub u64
    split_ifs <;> omega
  rw [InPages, alignDown_eq hva, hoff, hlen]

/-- The size, with the bytes before `va` in its page, does not wrap when rounded up. -/
theorem memset_ok_iff (hva : va < 2 ^ 64) (hm : memsz < 2 ^ 64) (h0 : 0 < memsz) :
    (ElfAccess.write va memsz memsz).Ok size ↔ va % 4096 + memsz ≤ 2 ^ 64 - 4096 := by
  unfold ElfAccess.Ok
  simp only [inPages_iff hva, le_refl, true_and]
  constructor
  · intro hall
    by_contra hc
    have := hall 4096 (by omega)
    omega
  · intro hle j hj
    omega

theorem memcpy_ok_iff (hva : va < 2 ^ 64) (hfit : va % 4096 + memsz ≤ 2 ^ 64 - 4096) :
    (ElfAccess.write va n memsz).Ok size ↔ n ≤ memsz := by
  unfold ElfAccess.Ok
  simp only [inPages_iff hva]
  refine ⟨fun h => h.1, fun hle => ⟨hle, fun j hj => ?_⟩⟩
  omega

end Accesses

theorem field_lt (elf : ℕ → UInt8) (off : ℕ) : Elf.field elf off 8 < 2 ^ 64 :=
  Wire.readLe_lt _ 8 off

/-! ## Stores -/

/-- The pages that `memset` and `memcpy` write. -/
def storeRange (va n : ℕ) : List ℕ :=
  pagesFrom (va / pageSize * pageSize) 0
    (if n = 0 then 0 else (va - va / pageSize * pageSize + n + (pageSize - 1)) / pageSize)

section Stores

variable {old : Pmm} {m : Machine} {pml4 va n : ℕ} {byte : ℕ → UInt8}

/-- A store to a page that has a frame of its own changes no translation. -/
theorem storePage_data {page : ℕ} {bytes : ℕ → Option UInt8} (hown : m.OwnPages old pml4 [page]) :
    (Canonical page ∧ m.leafEntry pml4 page ≠ none ∧ ∃ m', m.storePage pml4 page bytes = some m'
        ∧ DataStep old pml4 m m' ∧ ∀ w, m'.leafEntry pml4 w = m.leafEntry pml4 w)
      ∨ (¬ (Canonical page ∧ m.leafEntry pml4 page ≠ none)
        ∧ m.storePage pml4 page bytes = none) := by
  unfold Machine.storePage
  by_cases hc : Canonical page
  swap
  · exact .inr ⟨fun h => hc h.1, if_neg hc⟩
  rw [if_pos hc]
  rcases he : m.leafEntry pml4 page with _ | e
  · exact .inr ⟨fun h => h.2 rfl, rfl⟩
  obtain ⟨hfree, hno⟩ := hown page (List.mem_singleton_self page) (pteGetAddr e)
    (entryAt_of_frameAt (by rw [Machine.frameAt, he, Option.map_some]))
  have hph : ∀ x j, x ≠ pteGetAddr e →
      m.phys.storeBytes (pteGetAddr e) bytes x j = m.phys x j := fun x j hx =>
    if_neg fun h => hx h.1
  have hdata : DataStep old pml4 m { m with phys := m.phys.storeBytes (pteGetAddr e) bytes } :=
    DataStep.page hph hfree hno
  refine .inl ⟨hc, by simp, _, rfl, hdata, fun w => ?_⟩
  rcases hpt : m.table pml4 (tablePath w) with _ | pt
  · rw [leafEntry_of_none hpt, leafEntry_of_none ((hdata.tables _ (tablePath_ok w)).trans hpt)]
  · rw [leafEntry_of_some hpt, leafEntry_of_some ((hdata.tables _ (tablePath_ok w)).trans hpt)]
    have hword := hph pt (ptIdx w) fun hx => hno _ (tablePath_ok w) (hx ▸ hpt)
    simp only [hword]

theorem storePages_data (va n : ℕ) (byte : ℕ → UInt8) (start : ℕ) : ∀ (r i : ℕ) {m : Machine},
    m.OwnPages old pml4 (pagesFrom start i r) →
    ((∀ p ∈ pagesFrom start i r, Canonical p ∧ m.leafEntry pml4 p ≠ none) ∧ ∃ m',
        Machine.storePages pml4 va n byte r (start + i * pageSize) m = some m'
        ∧ DataStep old pml4 m m' ∧ ∀ w, m'.leafEntry pml4 w = m.leafEntry pml4 w)
      ∨ ((¬ ∀ p ∈ pagesFrom start i r, Canonical p ∧ m.leafEntry pml4 p ≠ none)
        ∧ Machine.storePages pml4 va n byte r (start + i * pageSize) m = none)
  | 0, i, m, _ => .inl ⟨fun p hp => (by cases hp), m, rfl, DataStep.refl m, fun _ => rfl⟩
  | r + 1, i, m, hown => by
    rw [pagesFrom_succ] at hown ⊢
    rw [List.forall_mem_cons, Machine.storePages]
    rcases storePage_data (fun p hp => hown p (List.mem_cons.mpr (.inl (List.mem_singleton.mp hp))))
      with ⟨hc, hl, m₁, he, hdata, hleaf⟩ | ⟨hno, he⟩
    · rw [he, Option.bind_some, Nat.add_assoc, ← Nat.succ_mul]
      have ih := storePages_data va n byte start r (i + 1)
        (hdata.ownPages fun p hp => hown p (List.mem_cons_of_mem _ hp))
      simp only [hleaf] at ih
      rcases ih with ⟨hall, m₂, he₂, hdata₂, hleaf₂⟩ | ⟨hno, he₂⟩
      · exact .inl ⟨⟨⟨hc, hl⟩, hall⟩, m₂, he₂, hdata.trans hdata₂, hleaf₂⟩
      · exact .inr ⟨fun hall => hno hall.2, he₂⟩
    · rw [he, Option.bind_none]
      exact .inr ⟨fun hall => hno hall.1, rfl⟩

/-- `memset` and `memcpy` come to their end exactly if all their pages are mapped and canonical. -/
theorem store_data (byte : ℕ → UInt8) (hown : m.OwnPages old pml4 (storeRange va n)) :
    ((∀ p ∈ storeRange va n, Canonical p ∧ m.leafEntry pml4 p ≠ none) ∧ ∃ m',
        m.store pml4 va n byte = some m'
        ∧ DataStep old pml4 m m' ∧ ∀ w, m'.leafEntry pml4 w = m.leafEntry pml4 w)
      ∨ ((¬ ∀ p ∈ storeRange va n, Canonical p ∧ m.leafEntry pml4 p ≠ none)
        ∧ m.store pml4 va n byte = none) := by
  have h := storePages_data va n byte (va / pageSize * pageSize) _ 0 hown
  rw [Nat.zero_mul, Nat.add_zero] at h
  exact h

/-- A shorter store needs fewer pages. -/
theorem storeRange_subset (va : ℕ) {n' : ℕ} (h : n ≤ n') : storeRange va n ⊆ storeRange va n' := by
  unfold storeRange
  rcases Nat.eq_zero_or_pos n with rfl | hn
  · exact List.nil_subset _
  rw [if_neg hn.ne', if_neg (hn.trans_le h).ne']
  have hle : (va - va / pageSize * pageSize + n + (pageSize - 1)) / pageSize
      ≤ (va - va / pageSize * pageSize + n' + (pageSize - 1)) / pageSize :=
    Nat.div_le_div_right (by omega)
  obtain ⟨l, hl⟩ := Nat.exists_eq_add_of_le hle
  rw [hl, pagesFrom_append]
  exact List.subset_append_left _ _

/-- They are the pages that have been mapped, unless the range wraps. -/
theorem rangePages_eq (hva : va < 2 ^ 64) (hn : 0 < n) (hfit : va % 4096 + n ≤ 2 ^ 64 - 4096) :
    rangePages va n = storeRange va n := by
  unfold rangePages storeRange
  rw [alignDown_eq hva, if_neg hn.ne', alignUp_eq]
  unfold pageSize
  congr 1
  unfold Kernel.pageCount u64Sub u64 pageSize
  split_ifs <;> omega

end Stores

/-! ## Files -/

namespace Elf

/-- The pages of segment `i`. -/
def pages (elf : ℕ → UInt8) (i : ℕ) : List ℕ := rangePages (pVaddr elf i) (pMemsz elf i)

/-- The pages of the segments before header `i`. -/
def pagesBelow (elf : ℕ → UInt8) (i : ℕ) : List ℕ :=
  (List.range i).flatMap fun j => if pType elf j = ptLoad then pages elf j else []

/-- The blocks for the areas of the segments before header `i`. -/
def blocksBelow (elf : ℕ → UInt8) (i : ℕ) : List ℕ :=
  (List.range i).flatMap fun j => if pType elf j = ptLoad then [vmaStructSize] else []

theorem pagesBelow_succ {elf : ℕ → UInt8} {i : ℕ} :
    pagesBelow elf (i + 1)
      = pagesBelow elf i ++ if pType elf i = ptLoad then pages elf i else [] := by
  rw [pagesBelow, List.range_succ, List.flatMap_append, List.flatMap_singleton, pagesBelow]

theorem blocksBelow_succ {elf : ℕ → UInt8} {i : ℕ} :
    blocksBelow elf (i + 1)
      = blocksBelow elf i ++ if pType elf i = ptLoad then [vmaStructSize] else [] := by
  rw [blocksBelow, List.range_succ, List.flatMap_append, List.flatMap_singleton, blocksBelow]

end Elf

namespace KMem

/-- Segment `i` is not empty, and there is memory for it after those before. -/
def MapsSegment (k : KMem) (pml4 : ℕ) (elf : ℕ → UInt8) (i : ℕ) : Prop :=
  Elf.pMemsz elf i ≠ 0 ∧ k.Supplies pml4 (Elf.blocksBelow elf (i + 1)) (Elf.pagesBelow elf i)
    (Elf.pages elf i)

/-- There is memory for all of its pages, and they can be written. -/
def ClearsSegment (k : KMem) (pml4 : ℕ) (elf : ℕ → UInt8) (i : ℕ) : Prop :=
  Elf.pMemsz elf i ≠ 0
    ∧ k.Supplies pml4 (Elf.blocksBelow elf (i + 1)) (Elf.pagesBelow elf (i + 1)) []
    ∧ ∀ p ∈ Elf.pages elf i, Canonical p

/-- Header `i` lies in the file, as far as it is read. If the segment is mapped, the range does not
wrap; if it is cleared too, its data lies in the file and is no longer than the segment. -/
def SegmentFits (k : KMem) (pml4 : ℕ) (elf : ℕ → UInt8) (size i : ℕ) : Prop :=
  u64 (Elf.phdr elf i) + 4 ≤ size
    ∧ (Elf.pType elf i = Elf.ptLoad →
      (u64 (Elf.phdr elf i + 4) + 4 ≤ size ∧ u64 (Elf.phdr elf i + 16) + 8 ≤ size
        ∧ u64 (Elf.phdr elf i + 40) + 8 ≤ size)
      ∧ (k.MapsSegment pml4 elf i → Elf.pVaddr elf i % 4096 + Elf.pMemsz elf i ≤ 2 ^ 64 - 4096)
      ∧ (k.ClearsSegment pml4 elf i →
        (u64 (Elf.phdr elf i + 8) + 8 ≤ size ∧ u64 (Elf.phdr elf i + 32) + 8 ≤ size)
        ∧ (Elf.pFilesz elf i = 0 ∨ u64 (Elf.pOffset elf i) + Elf.pFilesz elf i ≤ size)
        ∧ Elf.pFilesz elf i ≤ Elf.pMemsz elf i))

/-- The file has the bytes of the header that are read, and every segment fits up to the first that
cannot be loaded. -/
def FileFits (k : KMem) (mm pml4 : ℕ) (elf : ℕ → UInt8) (size : ℕ) : Prop :=
  4 ≤ size ∧ (Elf.magic elf = true ∧ mm ≠ 0 → 58 ≤ size ∧ ∀ i < Elf.ePhnum elf,
    (∀ j < i, Elf.pType elf j = Elf.ptLoad → k.ClearsSegment pml4 elf j) →
      k.SegmentFits pml4 elf size i)

end KMem

namespace Kernel

/-- The accesses of a round stay within bounds, in terms of what the round does. -/
def RoundFits (k : Kernel) (mm : ℕ) (elf : ℕ → UInt8) (size i : ℕ) : Prop :=
  u64 (Elf.phdr elf i) + 4 ≤ size
    ∧ (Elf.pType elf i = Elf.ptLoad →
      (u64 (Elf.phdr elf i + 4) + 4 ≤ size ∧ u64 (Elf.phdr elf i + 16) + 8 ≤ size
        ∧ u64 (Elf.phdr elf i + 40) + 8 ≤ size)
      ∧ ∀ k', k.mmMapRange mm (Elf.pVaddr elf i) (Elf.pMemsz elf i) (Elf.vmFlags elf i)
          = some (true, k') →
        Elf.pVaddr elf i % 4096 + Elf.pMemsz elf i ≤ 2 ^ 64 - 4096
        ∧ ∀ m, k'.toMachine.store (k'.mms mm).pml4Pa (Elf.pVaddr elf i) (Elf.pMemsz elf i)
            (fun _ => 0) = some m →
          (u64 (Elf.phdr elf i + 8) + 8 ≤ size ∧ u64 (Elf.phdr elf i + 32) + 8 ≤ size)
          ∧ (Elf.pFilesz elf i = 0 ∨ u64 (Elf.pOffset elf i) + Elf.pFilesz elf i ≤ size)
          ∧ Elf.pFilesz elf i ≤ Elf.pMemsz elf i)

end Kernel

section Loop

variable {k : Kernel} {mm size : ℕ} {elf : ℕ → UInt8}

theorem segmentAccesses_ok (hsize : size < 2 ^ 64) (i : ℕ) :
    (∀ a ∈ k.segmentAccesses mm elf i, a.Ok size) ↔ k.RoundFits mm elf size i := by
  have hfield : ∀ {off n : ℕ}, n ≠ 0 → ((ElfAccess.read off n).Ok size ↔ u64 off + n ≤ size) :=
    fun h0 => (read_ok_iff hsize).trans (or_iff_right h0)
  have hva : Elf.pVaddr elf i < 2 ^ 64 := field_lt elf _
  have hm : Elf.pMemsz elf i < 2 ^ 64 := field_lt elf _
  unfold Kernel.segmentAccesses Kernel.RoundFits
  rw [List.forall_mem_cons, hfield (by decide)]
  refine and_congr_right fun _ => ?_
  split_ifs with hload
  swap
  · simp [hload]
  rw [List.forall_mem_append]
  simp only [List.forall_mem_cons, List.not_mem_nil, false_imp_iff, implies_true, and_true,
    hfield (show 4 ≠ 0 by decide), hfield (show 8 ≠ 0 by decide), hload, true_imp_iff]
  refine and_congr_right fun _ => ?_
  rcases hmap : k.mmMapRange mm (Elf.pVaddr elf i) (Elf.pMemsz elf i) (Elf.vmFlags elf i) with
    _ | ⟨_ | _, k₁⟩
  · simp
  · simp
  have h0 : 0 < Elf.pMemsz elf i := mmMapRange_pos hmap
  simp only [List.forall_mem_cons, memset_ok_iff hva hm h0, Option.some.injEq, Prod.mk.injEq,
    true_and, forall_eq']
  refine and_congr_right fun hfit => ?_
  rcases k₁.toMachine.store (k₁.mms mm).pml4Pa (Elf.pVaddr elf i) (Elf.pMemsz elf i) fun _ => 0 with
    _ | m
  · simp
  · simp only [List.forall_mem_cons, List.not_mem_nil, false_imp_iff, implies_true, and_true,
      hfield (show 8 ≠ 0 by decide), read_ok_iff hsize, memcpy_ok_iff hva hfit, Option.some.injEq,
      forall_eq', and_assoc]

theorem segmentsAccesses_ok (mm : ℕ) (elf : ℕ → UInt8) (hsize : size < 2 ^ 64) :
    ∀ (n i : ℕ) (k : Kernel),
    (∀ a ∈ Kernel.segmentsAccesses mm elf n i k, a.Ok size)
      ↔ 58 ≤ size ∧ ∀ j < n, ∀ k', Kernel.loadSegments mm elf j i k = some (true, k') →
        k'.RoundFits mm elf size (i + j)
  | 0, i, k => by
    simp [Kernel.segmentsAccesses, read_ok_iff hsize, u64]
  | n + 1, i, k => by
    have hcount : (ElfAccess.read 56 2).Ok size ↔ 58 ≤ size := by
      rw [read_ok_iff hsize, u64_of_lt (by decide)]
      omega
    rw [Kernel.segmentsAccesses, List.forall_mem_cons, List.forall_mem_append, hcount,
      segmentAccesses_ok hsize]
    refine and_congr_right fun h58 => ?_
    rw [Nat.forall_lt_succ_left]
    refine and_congr ⟨fun hs k' hk' => ?_, fun hall => hall k rfl⟩ ?_
    · simp only [Kernel.loadSegments, Option.some.injEq, Prod.mk.injEq, true_and] at hk'
      exact hk' ▸ hs
    -- The rounds after the first are those from the next header on.
    rcases hround : k.loadSegment mm elf i with _ | ⟨_ | _, k₁⟩
    · simp [Kernel.loadSegments, hround]
    · simp [Kernel.loadSegments, hround]
    · have hih := segmentsAccesses_ok mm elf hsize n (i + 1) k₁
      rw [and_iff_right h58] at hih
      simp only [Kernel.loadSegments, hround, hih, Nat.add_assoc, Nat.add_comm 1]

end Loop

/-! ## What the state before says -/

section Foreseen

variable {k₀ : KMem} {k : Kernel} {pml4 mm size i : ℕ} {elf : ℕ → UInt8}

/-- The kernel has loaded the segments before header `i`. -/
structure LoadedBelow (k₀ : KMem) (pml4 mm : ℕ) (elf : ℕ → UInt8) (i : ℕ) (k : Kernel) : Prop where
  spent : k₀.Spent pml4 k.toKMem (Elf.blocksBelow elf i) (Elf.pagesBelow elf i)
  root : (k.mms mm).pml4Pa = pml4

/-- Whether a segment is mapped could be foreseen, and whether all of it is. -/
theorem LoadedBelow.map (h : LoadedBelow k₀ pml4 mm elf i k) (hmm : mm ≠ 0)
    (hload : Elf.pType elf i = Elf.ptLoad) :
    (k₀.MapsSegment pml4 elf i ∧ ∃ k', k.mmMapRange mm (Elf.pVaddr elf i) (Elf.pMemsz elf i)
          (Elf.vmFlags elf i) = some (true, k')
        ∧ (k'.mms mm).pml4Pa = pml4 ∧ k'.OwnPages k₀.pmm pml4 (Elf.pages elf i)
        ∧ ((k₀.Supplies pml4 (Elf.blocksBelow elf (i + 1)) (Elf.pagesBelow elf (i + 1)) []
            ∧ k₀.Spent pml4 k'.toKMem (Elf.blocksBelow elf (i + 1)) (Elf.pagesBelow elf (i + 1))
            ∧ ∀ p ∈ Elf.pages elf i, k'.leafEntry pml4 p ≠ none)
          ∨ (¬ k₀.Supplies pml4 (Elf.blocksBelow elf (i + 1)) (Elf.pagesBelow elf (i + 1)) []
            ∧ ∃ p ∈ Elf.pages elf i, k'.leafEntry pml4 p = none)))
      ∨ (¬ k₀.MapsSegment pml4 elf i ∧ ∀ k', k.mmMapRange mm (Elf.pVaddr elf i)
          (Elf.pMemsz elf i) (Elf.vmFlags elf i) ≠ some (true, k')) := by
  have hblocks : Elf.blocksBelow elf (i + 1) = Elf.blocksBelow elf i ++ [vmaStructSize] := by
    rw [Elf.blocksBelow_succ, if_pos hload]
  have hpages : Elf.pagesBelow elf (i + 1) = Elf.pagesBelow elf i ++ Elf.pages elf i := by
    rw [Elf.pagesBelow_succ, if_pos hload]
  unfold KMem.MapsSegment
  rw [hblocks, hpages]
  by_cases hs : Elf.pMemsz elf i = 0
  · refine .inr ⟨fun hc => hc.1 hs, fun k' hk' => ?_⟩
    exact absurd hs (mmMapRange_true_iff.mp hk').2.1
  have hstep := fun ok k' (hr : k.mmMapRange mm (Elf.pVaddr elf i) (Elf.pMemsz elf i)
    (Elf.vmFlags elf i) = some (ok, k')) => h.spent.mmMapRange hmm h.root hs hr
  by_cases hsup : k₀.Supplies pml4 (Elf.blocksBelow elf i ++ [vmaStructSize]) (Elf.pagesBelow elf i)
    (Elf.pages elf i)
  swap
  · refine .inr ⟨fun hc => hsup hc.2, fun k' hk' => hsup ((hstep _ _ hk').1.mp rfl)⟩
  obtain ⟨ok, k', hk'⟩ := h.spent.mmMapRange_some mm (Elf.pVaddr elf i) (Elf.pMemsz elf i)
    (Elf.vmFlags elf i) (hsup.fewer (by simp) (by simp))
  obtain ⟨hok, hown, hall⟩ := hstep _ _ hk'
  obtain rfl := hok.mpr hsup
  refine .inl ⟨⟨hs, hsup⟩, k', hk', ?_, (hown rfl).2, hall.imp ?_ ?_⟩
  · obtain ⟨-, -, vma, km, m, -, -, -, rfl⟩ := mmMapRange_true_iff.mp hk'
    dsimp only
    rw [Kernel.linkVma_mms, if_pos rfl]
    exact h.root
  · rintro ⟨hfull, hspent, m, hmaps⟩
    refine ⟨hfull, hspent, fun p hp hc => ?_⟩
    obtain ⟨pa, hpa, -⟩ := hmaps.mapped p hp
    rw [Machine.frameAt, hc] at hpa
    cases hpa
  · rintro ⟨hpart, hzero⟩
    obtain ⟨-, p, hp, hnone⟩ := hzero rfl
    exact ⟨hpart, p, hp, leafEntry_of_none hnone⟩

/-- Whether a mapped segment is cleared could be foreseen too. -/
theorem clearsSegment_iff {m : Machine} (h0 : Elf.pMemsz elf i ≠ 0)
    (hcase : (k₀.Supplies pml4 (Elf.blocksBelow elf (i + 1)) (Elf.pagesBelow elf (i + 1)) []
          ∧ ∀ p ∈ Elf.pages elf i, m.leafEntry pml4 p ≠ none)
        ∨ (¬ k₀.Supplies pml4 (Elf.blocksBelow elf (i + 1)) (Elf.pagesBelow elf (i + 1)) []
          ∧ ∃ p ∈ Elf.pages elf i, m.leafEntry pml4 p = none)) :
    k₀.ClearsSegment pml4 elf i
      ↔ ∀ p ∈ Elf.pages elf i, Canonical p ∧ m.leafEntry pml4 p ≠ none := by
  unfold KMem.ClearsSegment
  rcases hcase with ⟨hfull, hleaf⟩ | ⟨hpart, p, hp, hnone⟩
  · exact ⟨fun hc p hp => ⟨hc.2.2 p hp, hleaf p hp⟩, fun hc => ⟨h0, hfull, fun p hp => (hc p hp).1⟩⟩
  · exact ⟨fun hc => absurd hc.2.1 hpart, fun hc => absurd hnone (hc p hp).2⟩

theorem KMem.ClearsSegment.maps (hload : Elf.pType elf i = Elf.ptLoad)
    (h : k₀.ClearsSegment pml4 elf i) : k₀.MapsSegment pml4 elf i := by
  obtain ⟨h0, hsup, -⟩ := h
  rw [Elf.pagesBelow_succ, if_pos hload] at hsup
  exact ⟨h0, hsup.of_all⟩

/-- The data of a segment whose pages have been cleared is copied. -/
theorem LoadedBelow.write {k' : Kernel} {m : Machine} (hI : MapInv pml4 k₀.toMachine)
    (hs : k₀.HeapShared pml4) (hroot : (k'.mms mm).pml4Pa = pml4)
    (hspent : k₀.Spent pml4 k'.toKMem (Elf.blocksBelow elf (i + 1)) (Elf.pagesBelow elf (i + 1)))
    (hown : k'.OwnPages k₀.pmm pml4 (storeRange (Elf.pVaddr elf i) (Elf.pMemsz elf i)))
    (hdata : DataStep k₀.pmm pml4 k'.toMachine m)
    (hleaf : ∀ p ∈ storeRange (Elf.pVaddr elf i) (Elf.pMemsz elf i),
      Canonical p ∧ m.leafEntry pml4 p ≠ none)
    (hle : Elf.pFilesz elf i ≤ Elf.pMemsz elf i) {byte : ℕ → UInt8} :
    ∃ m', m.store pml4 (Elf.pVaddr elf i) (Elf.pFilesz elf i) byte = some m'
      ∧ LoadedBelow k₀ pml4 mm elf (i + 1) { k' with toMachine := m' } := by
  have hsub := storeRange_subset (Elf.pVaddr elf i) hle
  have hown' : m.OwnPages k₀.pmm pml4 (storeRange (Elf.pVaddr elf i) (Elf.pFilesz elf i)) :=
    fun p hp => hdata.ownPages hown p (hsub hp)
  rcases store_data byte hown' with ⟨-, m', hm', hdata', -⟩ | ⟨hno, -⟩
  · exact ⟨m', hm', hspent.data hI hs (hdata.trans hdata'), hroot⟩
  · exact absurd (fun p hp => hleaf p (hsub hp)) hno

/-- A round stays within bounds exactly if that could be foreseen, and then it comes to its end
exactly if that could be foreseen. -/
theorem LoadedBelow.round (hI : MapInv pml4 k₀.toMachine) (hs : k₀.HeapShared pml4)
    (h : LoadedBelow k₀ pml4 mm elf i k) (hmm : mm ≠ 0) :
    (k.RoundFits mm elf size i ↔ k₀.SegmentFits pml4 elf size i)
      ∧ (k₀.SegmentFits pml4 elf size i →
        ((Elf.pType elf i = Elf.ptLoad → k₀.ClearsSegment pml4 elf i) ∧
          ∃ k', k.loadSegment mm elf i = some (true, k') ∧ LoadedBelow k₀ pml4 mm elf (i + 1) k')
        ∨ (¬ (Elf.pType elf i = Elf.ptLoad → k₀.ClearsSegment pml4 elf i)
          ∧ ∀ k', k.loadSegment mm elf i ≠ some (true, k'))) := by
  unfold Kernel.RoundFits KMem.SegmentFits Kernel.loadSegment
  by_cases hload : Elf.pType elf i = Elf.ptLoad
  swap
  · refine ⟨by simp [hload], fun _ => .inl ⟨fun hc => absurd hc hload, k, if_neg hload, ?_, h.root⟩⟩
    rw [Elf.blocksBelow_succ, Elf.pagesBelow_succ, if_neg hload, if_neg hload, List.append_nil,
      List.append_nil]
    exact h.spent
  rw [if_pos hload]
  simp only [hload, true_imp_iff]
  rcases h.map hmm hload with ⟨hM, k', hk', hroot, hown, hcase⟩ | ⟨hM, hno⟩
  swap
  · -- Nothing is mapped, or the call does not come to its end.
    have hC : ¬ k₀.ClearsSegment pml4 elf i := fun hc => hM (hc.maps hload)
    refine ⟨and_congr_right fun _ => and_congr_right fun _ => ?_, fun _ => .inr ⟨hC, ?_⟩⟩
    · exact ⟨fun _ => ⟨fun hc => absurd hc hM, fun hc => absurd hc hC⟩,
        fun _ k' hk' => absurd hk' (hno k')⟩
    rcases hmap : k.mmMapRange mm (Elf.pVaddr elf i) (Elf.pMemsz elf i) (Elf.vmFlags elf i) with
      _ | ⟨_ | _, k₁⟩
    · simp
    · simp
    · exact absurd hmap (hno k₁)
  have h0 : 0 < Elf.pMemsz elf i := mmMapRange_pos hk'
  simp only [hk', Option.some.injEq, Prod.mk.injEq, true_and, forall_eq', hroot]
  by_cases hfit : Elf.pVaddr elf i % 4096 + Elf.pMemsz elf i ≤ 2 ^ 64 - 4096
  swap
  · exact ⟨iff_of_false (fun hc => hfit hc.2.2.1) fun hc => hfit (hc.2.2.1 hM),
      fun hc => absurd (hc.2.2.1 hM) hfit⟩
  have hrange : Elf.pages elf i = storeRange (Elf.pVaddr elf i) (Elf.pMemsz elf i) :=
    rangePages_eq (field_lt elf _) h0 hfit
  have hclear := clearsSegment_iff h0.ne' (hcase.imp (fun hc => ⟨hc.1, hc.2.2⟩) id)
  rw [hrange] at hown hclear
  rcases store_data (fun _ => 0) hown with ⟨hall, m, hm, hdata, hleaf⟩ | ⟨hpart, hm⟩
  · have hC := hclear.mpr hall
    have hspent := (hcase.resolve_right fun hc => hc.1 hC.2.1).2.1
    refine ⟨?_, fun hc => .inl ⟨hC, ?_⟩⟩
    · simp [hM, hC, hm]
    · obtain ⟨m', hm', hload'⟩ := LoadedBelow.write hI hs hroot hspent hown hdata
        (fun p hp => hleaf p ▸ hall p hp) (hc.2.2.2 hC).2.2
      exact ⟨_, by rw [hm, Option.bind_some, hm', Option.map_some], hload'⟩
  · have hC : ¬ k₀.ClearsSegment pml4 elf i := fun hc => hpart (hclear.mp hc)
    refine ⟨by simp [hM, hC, hm], fun _ => .inr ⟨hC, fun k'' hk'' => ?_⟩⟩
    rw [hm] at hk''
    cases hk''

theorem loadSegments_succ (mm : ℕ) (elf : ℕ → UInt8) {k' : Kernel} : ∀ (n i : ℕ) (k : Kernel),
    Kernel.loadSegments mm elf (n + 1) i k = some (true, k')
      ↔ ∃ k₁, Kernel.loadSegments mm elf n i k = some (true, k₁)
        ∧ k₁.loadSegment mm elf (i + n) = some (true, k')
  | 0, i, k => by
    rcases hround : k.loadSegment mm elf i with _ | ⟨_ | _, k₁⟩ <;>
      simp [Kernel.loadSegments, hround]
  | n + 1, i, k => by
    rw [Kernel.loadSegments, Kernel.loadSegments]
    rcases k.loadSegment mm elf i with _ | ⟨_ | _, k₁⟩
    · simp
    · simp
    · simp only [loadSegments_succ mm elf n (i + 1) k₁, Nat.add_right_comm i 1, Nat.add_assoc]

/-- The rounds stay within bounds exactly if that could be foreseen, and then they come to header
`n` exactly if that could be foreseen. -/
theorem loadSegments_fits (hI : MapInv pml4 k₀.toMachine) (hs : k₀.HeapShared pml4)
    (h : LoadedBelow k₀ pml4 mm elf 0 k) (hmm : mm ≠ 0) : ∀ n,
    ((∀ i < n, ∀ k', Kernel.loadSegments mm elf i 0 k = some (true, k') →
        k'.RoundFits mm elf size i)
      ↔ ∀ i < n, (∀ j < i, Elf.pType elf j = Elf.ptLoad → k₀.ClearsSegment pml4 elf j) →
        k₀.SegmentFits pml4 elf size i)
    ∧ ((∀ i < n, (∀ j < i, Elf.pType elf j = Elf.ptLoad → k₀.ClearsSegment pml4 elf j) →
        k₀.SegmentFits pml4 elf size i) →
      ((∀ j < n, Elf.pType elf j = Elf.ptLoad → k₀.ClearsSegment pml4 elf j)
        ∧ ∃ k', Kernel.loadSegments mm elf n 0 k = some (true, k')
          ∧ LoadedBelow k₀ pml4 mm elf n k')
      ∨ ((¬ ∀ j < n, Elf.pType elf j = Elf.ptLoad → k₀.ClearsSegment pml4 elf j)
        ∧ ∀ k', Kernel.loadSegments mm elf n 0 k ≠ some (true, k')))
  | 0 => ⟨by simp, fun _ => .inl ⟨by simp, k, rfl, h⟩⟩
  | n + 1 => by
    obtain ⟨hiff, hcase⟩ := loadSegments_fits hI hs h hmm n
    simp only [Nat.forall_lt_succ_right, loadSegments_succ, Nat.zero_add, ne_eq]
    constructor
    · rw [hiff]
      refine and_congr_right fun hfits => ?_
      rcases hcase hfits with ⟨hall, k₁, hk₁, hbelow⟩ | ⟨hpart, hno⟩
      · simp only [hk₁, Option.some.injEq, Prod.mk.injEq, true_and, forall_eq']
        exact (hbelow.round hI hs hmm).1.trans ⟨fun hc _ => hc, fun hc => hc hall⟩
      · exact iff_of_true (fun k' hk' => absurd hk' (hno k')) fun hc => absurd hc hpart
    · rintro ⟨hfits, hfit⟩
      rcases hcase hfits with ⟨hall, k₁, hk₁, hbelow⟩ | ⟨hpart, hno⟩
      · refine ((hbelow.round hI hs hmm).2 (hfit hall)).imp ?_ ?_
        · rintro ⟨hC, k₂, hk₂, hnext⟩
          exact ⟨⟨hall, hC⟩, k₂, ⟨k₁, hk₁, hk₂⟩, hnext⟩
        · rintro ⟨hC, hno⟩
          refine ⟨fun hc => hC hc.2, ?_⟩
          rintro k' ⟨k₂, hk₂, hk'⟩
          obtain rfl : k₁ = k₂ := by simpa using hk₁.symm.trans hk₂
          exact hno k' hk'
      · refine .inr ⟨fun hc => hpart hc.1, ?_⟩
        rintro k' ⟨k₂, hk₂, -⟩
        exact hno k₂ hk₂

end Foreseen

section Decidable

variable (k : KMem) (mm pml4 : ℕ) (elf : ℕ → UInt8) (size i : ℕ)

instance : Decidable (k.MapsSegment pml4 elf i) := inferInstanceAs (Decidable (_ ∧ _))

instance : Decidable (k.ClearsSegment pml4 elf i) := inferInstanceAs (Decidable (_ ∧ _ ∧ _))

instance : Decidable (k.SegmentFits pml4 elf size i) := inferInstanceAs (Decidable (_ ∧ _))

instance : Decidable (k.FileFits mm pml4 elf size) := inferInstanceAs (Decidable (_ ∧ _))

end Decidable

/-- Four frames of sixteen are taken, one by the table for the heap, which both PML4s have. -/
def sharedHeapKernel : Kernel :=
  { oneMmKernel (framesLeft 4) with
    phys := fun p i => if (p = 0x1000 ∨ p = 0x2000) ∧ i = heapSlot then 0x3003#64 else 0#64 }

theorem sharedHeapKernel_entry (j : ℕ) :
    sharedHeapKernel.phys 0x2000 j = if j = heapSlot then 0x3003#64 else 0#64 := by
  simp [sharedHeapKernel]

end SudoOS
