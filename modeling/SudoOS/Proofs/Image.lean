import SudoOS.Proofs.Elf
import SudoOS.Proofs.FreeFrames
import SudoOS.Proofs.Stores

/-!
# The image of a program

`load_elf` maps and fills one segment after the other, by whole pages. A page that two segments meet
is mapped again for the later one, to a frame that nobody clears, and what the earlier one had there
is gone. So every program is loaded as its file says exactly if no two of its segments meet in a
page (`load_image`). CR3 is the caller's again in any case (`Cpu.loadElf_eq`).
-/

namespace SudoOS

/-! ## CR3 -/

section Table

variable {c : Cpu} {mm : ℕ} {elf : ℕ → UInt8}

theorem loadSegment_pml4Pa {k k' : Kernel} {ok : Bool} {i : ℕ}
    (h : k.loadSegment mm elf i = some (ok, k')) : (k'.mms mm).pml4Pa = (k.mms mm).pml4Pa := by
  rcases loadSegment_cases h with ⟨-, -, rfl⟩ | ⟨-, k₁, hmap, ⟨-, rfl⟩ |
    ⟨-, m₁, m₂, _, byte, byte', -, -, rfl⟩⟩
  · rfl
  all_goals
    obtain ⟨l, n, hmms⟩ := mmMapRange_mms hmap mm
    exact (congrArg MmStruct.pml4Pa hmms).trans rfl

theorem Cpu.loadSegment_eq {i : ℕ} (hcr3 : c.cr3 = (c.mms mm).pml4Pa) :
    c.loadSegment mm elf i
      = (c.toKernel.loadSegment mm elf i).map fun r => (r.1, ⟨r.2, c.cr3⟩) := by
  unfold Cpu.loadSegment Kernel.loadSegment
  split_ifs
  · rcases hmap : c.mmMapRange mm (Elf.pVaddr elf i) (Elf.pMemsz elf i) (Elf.vmFlags elf i) with
      _ | ⟨_ | _, k⟩
    · rfl
    · rfl
    · obtain ⟨l, n, hmms⟩ := mmMapRange_mms hmap mm
      have hpml4 : (k.mms mm).pml4Pa = c.cr3 := by rw [hmms, hcr3]
      dsimp only
      rw [hpml4, Option.map_bind]
      refine congrArg (Option.bind _) (funext fun m => ?_)
      rw [Function.comp_apply, Option.map_map]
      rfl
  · rfl

theorem Cpu.loadSegments_eq (mm : ℕ) (elf : ℕ → UInt8) : ∀ (n i : ℕ) {c : Cpu},
    c.cr3 = (c.mms mm).pml4Pa → Cpu.loadSegments mm elf n i c
      = (Kernel.loadSegments mm elf n i c.toKernel).map fun r => (r.1, ⟨r.2, c.cr3⟩)
  | 0, i, c, _ => rfl
  | n + 1, i, c, hcr3 => by
    rw [Cpu.loadSegments, Kernel.loadSegments, Cpu.loadSegment_eq hcr3]
    rcases hr : c.toKernel.loadSegment mm elf i with _ | ⟨_ | _, k⟩
    · rfl
    · rfl
    · exact Cpu.loadSegments_eq mm elf n (i + 1) (c := ⟨k, c.cr3⟩)
        (hcr3.trans (loadSegment_pml4Pa hr).symm)

/-- With CR3 set for the stores and set back, `load_elf` does what it does to memory, and leaves
CR3 as it was. -/
theorem Cpu.loadElf_eq (c : Cpu) (mm : ℕ) (elf : ℕ → UInt8) :
    c.loadElf mm elf = (c.toKernel.loadElf mm elf).map fun r => (r.1, ⟨r.2, c.cr3⟩) := by
  unfold Cpu.loadElf Kernel.loadElf
  split_ifs
  · rfl
  · have hloop := Cpu.loadSegments_eq mm elf (Elf.ePhnum elf) 0
      (c := c.lcr3 (c.mms mm).pml4Pa) rfl
    dsimp only
    rw [hloop]
    have hk : (c.lcr3 (c.mms mm).pml4Pa).toKernel = c.toKernel := rfl
    rw [hk]
    rcases Kernel.loadSegments mm elf (Elf.ePhnum elf) 0 c.toKernel with _ | ⟨_ | _, k⟩ <;> rfl
  · rfl

end Table

/-! ## Segments -/

namespace Elf

/-- The call of `mm_map_range` for a segment. -/
def request (elf : ℕ → UInt8) (i : ℕ) : MapRequest := ⟨pVaddr elf i, pMemsz elf i, vmFlags elf i⟩

/-- What byte `k` of a segment is to be. -/
def segByte (elf : ℕ → UInt8) (i k : ℕ) : UInt8 :=
  if k < pFilesz elf i then elf (pOffset elf i + k) else 0

/-- A program file of `size` bytes: its segments are within the file, in the user half and no two
have a byte in common. -/
structure Loadable (elf : ℕ → UInt8) (size : ℕ) : Prop where
  magic : Elf.magic elf = true
  small : size < 2 ^ 64
  nonempty : ∀ i < ePhnum elf, pType elf i = ptLoad → 0 < pMemsz elf i
  filled : ∀ i < ePhnum elf, pType elf i = ptLoad → pFilesz elf i ≤ pMemsz elf i
  inFile : ∀ i < ePhnum elf, pType elf i = ptLoad → pOffset elf i + pFilesz elf i ≤ size
  user : ∀ i < ePhnum elf, pType elf i = ptLoad → pVaddr elf i + pMemsz elf i ≤ 2 ^ 47
  apart : ∀ i j, i < j → j < ePhnum elf → pType elf i = ptLoad → pType elf j = ptLoad →
    pVaddr elf i + pMemsz elf i ≤ pVaddr elf j ∨ pVaddr elf j + pMemsz elf j ≤ pVaddr elf i

/-- No page has bytes of two segments. -/
def PagesApart (elf : ℕ → UInt8) : Prop :=
  ∀ i j, i < j → j < ePhnum elf → pType elf i = ptLoad → pType elf j = ptLoad →
    (request elf i).Apart (request elf j)

/-- The last of the first `i` segments with a page at `x` is segment `j`. -/
def LastAt (elf : ℕ → UInt8) (i j x : ℕ) : Prop :=
  j < i ∧ pType elf j = ptLoad ∧ (request elf j).HasPage (x / 4096)
    ∧ ∀ l, j < l → l < i → pType elf l = ptLoad → ¬ (request elf l).HasPage (x / 4096)

/-- The address is one of the segment's. -/
def InSegment (elf : ℕ → UInt8) (j x : ℕ) : Prop :=
  pVaddr elf j ≤ x ∧ x < pVaddr elf j + pMemsz elf j

end Elf

/-- No allocation of `load_elf` fails, with `n` rounds to go and header `i` next. -/
def Kernel.LoadGranted (mm : ℕ) (elf : ℕ → UInt8) : ℕ → ℕ → Kernel → Prop
  | 0, _, _ => True
  | n + 1, i, k => (Elf.pType elf i = Elf.ptLoad → k.Grants mm (Elf.request elf i))
    ∧ match k.loadSegment mm elf i with
      | some (true, k) => LoadGranted mm elf n (i + 1) k
      | _ => True

instance Kernel.LoadGranted.decidable (mm : ℕ) (elf : ℕ → UInt8) :
    (n i : ℕ) → (k : Kernel) → Decidable (Kernel.LoadGranted mm elf n i k)
  | 0, _, _ => isTrue trivial
  | n + 1, i, k => by
    unfold Kernel.LoadGranted
    rcases k.loadSegment mm elf i with _ | ⟨_ | _, k'⟩
    · exact inferInstanceAs (Decidable (_ ∧ True))
    · exact inferInstanceAs (Decidable (_ ∧ True))
    · have := Kernel.LoadGranted.decidable mm elf n (i + 1) k'
      exact inferInstanceAs (Decidable (_ ∧ _))

section Rounds

variable {live : List ℕ} {k₀ k : Kernel} {mm size i : ℕ} {elf : ℕ → UInt8}

/-- How far a load has come: a page shows the last segment that has it, and elsewhere what its frame
held while it was free. -/
structure Loading (live : List ℕ) (k₀ k : Kernel) (mm : ℕ) (elf : ℕ → UInt8) (i : ℕ) : Prop where
  kept : SpacesKept (fun _ => False) live (SpacePaths mm) k₀ k
  bytes : ∀ j x, Elf.LastAt elf i j x → Elf.InSegment elf j x →
    k.byteAt (k₀.mms mm).pml4Pa x = some (Elf.segByte elf j (x - Elf.pVaddr elf j))
  fresh : ∀ w, k₀.Filled w → k.Filled w ∧ ∀ j x, Elf.LastAt elf i j x → ¬ Elf.InSegment elf j x →
    k.byteAt (k₀.mms mm).pml4Pa x = some (byteOf w (x % 4096 % 8))

theorem Elf.LastAt.lt {j x : ℕ} (h : Elf.LastAt elf i j x) (hok : Elf.Loadable elf size)
    (hi : i ≤ Elf.ePhnum elf) : x < 2 ^ 47 := by
  obtain ⟨hj, hload, ⟨-, -, hpage⟩, -⟩ := h
  have := hok.user j (by omega) hload
  have hend : x / 4096 * 4096 < Elf.pVaddr elf j + Elf.pMemsz elf j := hpage
  omega

/-- A granted `mm_map_range` for a segment: its pages are new, and the others are as before. -/
theorem map_segment (hI : SpacesInv (fun _ => False) live k) (hmm : mm ∈ live)
    (huser : Elf.pVaddr elf i + Elf.pMemsz elf i ≤ 2 ^ 47) (hpos : 0 < Elf.pMemsz elf i)
    (hg : k.Grants mm (Elf.request elf i)) :
    ∃ k₁, k.mmMapRange mm (Elf.pVaddr elf i) (Elf.pMemsz elf i) (Elf.vmFlags elf i)
        = some (true, k₁)
      ∧ (∀ x < 2 ^ 47, (Elf.request elf i).HasPage (x / 4096) →
        k₁.byteAt (k.mms mm).pml4Pa x ≠ none)
      ∧ (∀ x < 2 ^ 47, ¬ (Elf.request elf i).HasPage (x / 4096) →
        k₁.byteAt (k.mms mm).pml4Pa x = k.byteAt (k.mms mm).pml4Pa x)
      ∧ ∀ w, k.Filled w → k₁.Filled w ∧ ∀ x < 2 ^ 47, (Elf.request elf i).HasPage (x / 4096) →
        k₁.byteAt (k.mms mm).pml4Pa x = some (byteOf w (x % 4096 % 8)) := by
  obtain ⟨vma, km, m', hkm, -, htrue, hmap⟩   :=
    mmMapRange_granted (r := Elf.request elf i) hI hmm huser hpos hg
  obtain ⟨frames, htree, -⟩ := hmap.tree
  have hroot : treeRoot km.kernelPml4 frames (k.spaces live) (.mm mm)
      = some (k.mms mm).pml4Pa := if_pos hmm
  have hpage : ∀ x, leafPath x = leafPath (x / 4096 * pageSize) := fun x => by
    rw [leafPath_eq_iff]
    unfold pageSize
    omega
  have hframe : ∀ x, (Elf.request elf i).HasPage (x / 4096) →
      ∃ pa, m'.frameAt (k.mms mm).pml4Pa (x / 4096 * pageSize) = some pa
        ∧ m'.table (k.mms mm).pml4Pa (leafPath x) = some pa := by
    intro x hx
    obtain ⟨pa, hpa, -⟩ := hmap.takes _ hx
    obtain ⟨e, he, rfl⟩ := Option.map_eq_some_iff.mp hpa
    exact ⟨_, hpa, (hpage x) ▸ table_of_leafEntry he⟩
  refine ⟨_, htrue, fun x _ hx => ?_, fun x hlt hx => ?_, fun w hw => ?_⟩
  · obtain ⟨pa, -, htab⟩ := hframe x hx
    rw [byteAt_eq_table]
    dsimp only
    rw [htab]
    simp
  · have hpath := leafPath_userPath (pml4Idx_user hlt)
    have hkm' := (hmap.heap.user mm _ (if_pos hmm)).byteAt_eq hpath.of_append hpath
      fun q hq => hq.elim
    have hm' := (htree.touches (.mm mm) _ hroot).byteAt_eq hpath.of_append hpath (x := x) (by
      rintro q ⟨-, n, hn, rfl⟩
      refine ⟨n * pageSize, rfl, fun hc => hx ?_⟩
      rw [hpage x] at hc
      have hn' := hn.user huser
      have hx' : x / 4096 * pageSize < 2 ^ 47 := by
        unfold pageSize
        omega
      exact leafPath_page_inj hn' hx' hc ▸ hn)
    exact hm'.trans hkm'
  · obtain ⟨hfill, hpages⟩ :=
      mmMapRange_filled (r := Elf.request elf i) hI hmm huser hpos hg htrue hw
    refine ⟨hfill, fun x _ hx => ?_⟩
    obtain ⟨pa, hpa, htab⟩ := hframe x hx
    rw [byteAt_eq_table]
    dsimp only
    rw [htab, Option.map_some, hpages _ hx pa hpa]

/-- A store to mapped pages of the user half. -/
theorem SpacesInv.store_bytes (hI : SpacesInv (fun _ => False) live k) (hmm : mm ∈ live)
    {va n : ℕ} (byte : ℕ → UInt8) (hva : va < 2 ^ 47) (hend : va + n ≤ 2 ^ 47)
    (hmapped : ∀ x, va / 4096 ≤ x / 4096 → x / 4096 * 4096 < va + n →
      k.byteAt (k.mms mm).pml4Pa x ≠ none) :
    ∃ m, k.toMachine.store (k.mms mm).pml4Pa va n byte = some m
      ∧ SpacesInv (fun _ => False) live { k with toMachine := m }
      ∧ (∀ w, k.Filled w → m.Filled w)
      ∧ ∀ x < 2 ^ 47, m.byteAt (k.mms mm).pml4Pa x =
        if va ≤ x ∧ x < va + n then some (byte (x - va)) else k.byteAt (k.mms mm).pml4Pa x := by
  obtain ⟨frames, hmem⟩ := hI.mem
  have hroot : treeRoot k.kernelPml4 frames (k.spaces live) (.mm mm) = some (k.mms mm).pml4Pa :=
    if_pos hmm
  obtain ⟨m, hm, hpmm, hwords, hbytes⟩ := SudoOS.store_bytes va n byte closed_treePath hmem.tables
    hroot (fun x hx => isLeaf_leafPath mm (pml4Idx_user hx)) hend hmapped
  exact ⟨m, hm, (hI.store hmm hva hm).1.inv, fun w hw => hw.of_words (fun a ha => hpmm ▸ ha)
    fun a j hc => hpmm ▸ hwords a j hc, hbytes⟩

/-- A segment that is mapped and then filled. -/
theorem fill_segment {k₁ : Kernel} (hI : SpacesInv (fun _ => False) live k₁) (hmm : mm ∈ live)
    (hok : Elf.Loadable elf size) (hi : i < Elf.ePhnum elf) (hload : Elf.pType elf i = Elf.ptLoad)
    (hmapped : ∀ x < 2 ^ 47, (Elf.request elf i).HasPage (x / 4096) →
      k₁.byteAt (k₁.mms mm).pml4Pa x ≠ none) :
    ∃ m₂, ((k₁.toMachine.store (k₁.mms mm).pml4Pa (Elf.pVaddr elf i) (Elf.pMemsz elf i)
        fun _ => 0).bind fun m => m.store (k₁.mms mm).pml4Pa (Elf.pVaddr elf i)
          (Elf.pFilesz elf i) fun j => elf (u64 (Elf.pOffset elf i + j))) = some m₂
      ∧ (∀ w, k₁.Filled w → m₂.Filled w)
      ∧ ∀ x < 2 ^ 47, (Elf.InSegment elf i x → m₂.byteAt (k₁.mms mm).pml4Pa x
          = some (Elf.segByte elf i (x - Elf.pVaddr elf i)))
        ∧ (¬ Elf.InSegment elf i x →
          m₂.byteAt (k₁.mms mm).pml4Pa x = k₁.byteAt (k₁.mms mm).pml4Pa x) := by
  have huser := hok.user i hi hload
  have hpos := hok.nonempty i hi hload
  have hfilesz := hok.filled i hi hload
  have hfile := hok.inFile i hi hload
  have hsmall := hok.small
  have hva : Elf.pVaddr elf i < 2 ^ 47 := by omega
  have hpages : ∀ x, Elf.pVaddr elf i / 4096 ≤ x / 4096 →
      x / 4096 * 4096 < Elf.pVaddr elf i + Elf.pMemsz elf i →
        k₁.byteAt (k₁.mms mm).pml4Pa x ≠ none :=
    fun x h1 h2 => hmapped x (by omega) ⟨hpos, h1, h2⟩
  obtain ⟨m₁, h₁, hI₁, hfill₁, hbytes₁⟩ := hI.store_bytes hmm (fun _ => 0) hva huser hpages
  have hpages₁ : ∀ x, Elf.pVaddr elf i / 4096 ≤ x / 4096 →
      x / 4096 * 4096 < Elf.pVaddr elf i + Elf.pFilesz elf i →
        m₁.byteAt (k₁.mms mm).pml4Pa x ≠ none := by
    intro x h1 h2 hc
    rw [hbytes₁ x (by omega)] at hc
    split_ifs at hc
    exact hpages x h1 (by omega) hc
  obtain ⟨m₂, h₂, -, hfill₂, hbytes₂⟩ := hI₁.store_bytes hmm
    (fun j => elf (u64 (Elf.pOffset elf i + j))) hva (by omega) hpages₁
  refine ⟨m₂, by rw [h₁, Option.bind_some, ← h₂], fun w hw => hfill₂ w (hfill₁ w hw),
    fun x hx => ⟨fun hin => ?_, fun hout => ?_⟩⟩
  · unfold Elf.InSegment at hin
    refine (hbytes₂ x hx).trans ?_
    rw [Elf.segByte]
    split_ifs with h1 h2 h2
    · rw [u64_of_lt (by omega)]
    · exact absurd h1.2 (by omega)
    · exact absurd ⟨hin.1, by omega⟩ h1
    · exact (hbytes₁ x hx).trans (if_pos hin)
  · unfold Elf.InSegment at hout
    refine (hbytes₂ x hx).trans ?_
    rw [if_neg (by omega)]
    exact (hbytes₁ x hx).trans (if_neg hout)

theorem Loading.next_other (h : Loading live k₀ k mm elf i)
    (hother : Elf.pType elf i ≠ Elf.ptLoad) : Loading live k₀ k mm elf (i + 1) := by
  have hlast : ∀ {j x}, Elf.LastAt elf (i + 1) j x → Elf.LastAt elf i j x := by
    rintro j x ⟨hj, hload, hpage, hlater⟩
    have hne : j ≠ i := fun hc => hother (hc ▸ hload)
    exact ⟨by omega, hload, hpage, fun l h1 h2 => hlater l h1 (by omega)⟩
  exact ⟨h.kept, fun j x hj => h.bytes j x (hlast hj),
    fun w hw => ⟨(h.fresh w hw).1, fun j x hj => (h.fresh w hw).2 j x (hlast hj)⟩⟩

/-- A granted round. -/
theorem Loading.step (h : Loading live k₀ k mm elf i) (hmm : mm ∈ live)
    (hok : Elf.Loadable elf size) (hi : i < Elf.ePhnum elf)
    (hg : Elf.pType elf i = Elf.ptLoad → k.Grants mm (Elf.request elf i)) :
    ∃ k', k.loadSegment mm elf i = some (true, k') ∧ Loading live k₀ k' mm elf (i + 1) := by
  by_cases hload : Elf.pType elf i = Elf.ptLoad
  swap
  · exact ⟨k, by rw [Kernel.loadSegment, if_neg hload], h.next_other hload⟩
  have huser := hok.user i hi hload
  have hpml4 : (k.mms mm).pml4Pa = (k₀.mms mm).pml4Pa := h.kept.pml4Pa hmm
  obtain ⟨k₁, hmap, hmapped, hsame, hfresh⟩ :=
    map_segment h.kept.inv hmm huser (hok.nonempty i hi hload) (hg hload)
  have hpml4₁ : (k₁.mms mm).pml4Pa = (k.mms mm).pml4Pa :=
    (mmMapRange_space h.kept.inv hmm huser (heapClear_false _) hmap).pml4Pa hmm
  rw [← hpml4₁] at hmapped
  obtain ⟨m₂, hstores, hfill, hbytes⟩ := fill_segment
    (mmMapRange_space h.kept.inv hmm huser (heapClear_false _) hmap).inv hmm hok hi hload hmapped
  rw [hpml4₁, hpml4] at hbytes
  rw [hpml4] at hsame hfresh
  have hround : k.loadSegment mm elf i = some (true, { k₁ with toMachine := m₂ }) := by
    obtain ⟨m₁, h₁, h₂⟩ := Option.bind_eq_some_iff.mp hstores
    rw [Kernel.loadSegment, if_pos hload, hmap]
    dsimp only
    rw [h₁, Option.bind_some, h₂]
    rfl
  have hkept := loadSegment_kept h.kept.inv hmm (fun _ => huser) (heapClear_false _) hround
  have hlast : ∀ {j x}, Elf.LastAt elf (i + 1) j x → j ≠ i →
      Elf.LastAt elf i j x ∧ ¬ (Elf.request elf i).HasPage (x / 4096) := by
    rintro j x ⟨hj, hl, hpage, hlater⟩ hne
    exact ⟨⟨by omega, hl, hpage, fun l h1 h2 => hlater l h1 (by omega)⟩,
      hlater i (by omega) (by omega) hload⟩
  have hout : ∀ {x}, ¬ (Elf.request elf i).HasPage (x / 4096) → ¬ Elf.InSegment elf i x := by
    rintro x hx ⟨h1, h2⟩
    exact hx ⟨hok.nonempty i hi hload, Nat.div_le_div_right h1,
      (Nat.div_mul_le_self x 4096).trans_lt h2⟩
  refine ⟨_, hround, h.kept.trans hkept, fun j x hj hin => ?_,
    fun w hw => ⟨?_, fun j x hj hin => ?_⟩⟩
  · have hx := hj.lt hok (by omega)
    rcases eq_or_ne j i with rfl | hne
    · exact (hbytes x hx).1 hin
    · obtain ⟨hbefore, hpage⟩ := hlast hj hne
      exact ((hbytes x hx).2 (hout hpage)).trans
        ((hsame x hx hpage).trans (h.bytes j x hbefore hin))
  · exact hfill w (hfresh w (h.fresh w hw).1).1
  · have hx := hj.lt hok (by omega)
    rcases eq_or_ne j i with rfl | hne
    · exact ((hbytes x hx).2 hin).trans ((hfresh w (h.fresh w hw).1).2 x hx hj.2.2.1)
    · obtain ⟨hbefore, hpage⟩ := hlast hj hne
      exact ((hbytes x hx).2 (hout hpage)).trans
        ((hsame x hx hpage).trans ((h.fresh w hw).2 j x hbefore hin))

/-- All rounds, when every allocation is granted. -/
theorem Loading.loop (hmm : mm ∈ live) (hok : Elf.Loadable elf size) : ∀ (n i : ℕ) {k : Kernel},
    Loading live k₀ k mm elf i → i + n = Elf.ePhnum elf → Kernel.LoadGranted mm elf n i k →
    ∃ k', Kernel.loadSegments mm elf n i k = some (true, k')
      ∧ Loading live k₀ k' mm elf (Elf.ePhnum elf)
  | 0, i, k, h, hn, _ => by
    obtain rfl : i = Elf.ePhnum elf := hn
    exact ⟨k, rfl, h⟩
  | n + 1, i, k, h, hn, ⟨hg, hrest⟩ => by
    obtain ⟨k₁, hr, h₁⟩ := h.step hmm hok (by omega) hg
    rw [hr] at hrest
    obtain ⟨k', hloop, h'⟩ := Loading.loop hmm hok n (i + 1) h₁ (by omega) hrest
    exact ⟨k', by rw [Kernel.loadSegments, hr]; exact hloop, h'⟩

end Rounds

/-! ## The image -/

/-- `load_elf` returns the entry point, with every segment in memory as the file has it, and CR3 as
it was. -/
def Cpu.Builds (c : Cpu) (mm : ℕ) (elf : ℕ → UInt8) : Prop :=
  ∃ c', c.loadElf mm elf = some (Elf.eEntry elf, c') ∧ c'.cr3 = c.cr3
    ∧ ∀ i < Elf.ePhnum elf, Elf.pType elf i = Elf.ptLoad → ∀ j < Elf.pMemsz elf i,
      c'.byteAt (c'.mms mm).pml4Pa (Elf.pVaddr elf i + j) = some (Elf.segByte elf i j)

namespace Kernel

/-- The same memory, but for what the free frames hold. -/
def Refilled (k k' : Kernel) : Prop :=
  ∃ ph : PhysMem, k' = { k with phys := ph } ∧ ∀ a, k.pmm.Busy a → ph a = k.phys a

/-- The same memory, with zeros or ones in the free frames. -/
def fillFree (k : Kernel) (ones : Bool) : Kernel :=
  { k with phys := fun a j =>
      if k.pmm.Busy a then k.phys a j else if ones then BitVec.allOnes 64 else 0#64 }

end Kernel

section Image

variable {own : ℕ → Prop} {live : List ℕ} {k k' : Kernel} {mm size : ℕ} {elf : ℕ → UInt8}

theorem Kernel.refilled_fillFree (k : Kernel) (ones : Bool) : k.Refilled (k.fillFree ones) :=
  ⟨_, rfl, fun _ ha => funext fun _ => if_pos ha⟩

theorem Kernel.filled_fillFree (k : Kernel) (ones : Bool) :
    (k.fillFree ones).Filled (if ones then BitVec.allOnes 64 else 0#64) :=
  fun _ _ ha => if_neg ha

/-- The trees are of taken frames. -/
theorem SpacesInv.refill (hI : SpacesInv own live k) (h : k.Refilled k') :
    SpacesInv own live k' := by
  obtain ⟨ph, rfl, hph⟩ := h
  obtain ⟨frames, hmem⟩ := hI.mem
  obtain ⟨ht, -⟩ := hmem.tables.congr closed_treePath { k.toMachine with phys := ph }
    hmem.tables.pmm rfl hmem.tables.busy fun t p a j hp ha => by
      have hsame : ph a = k.phys a := hph a (hmem.tables.busy t p a (closed_treePath _ _ _ hp) ha)
      exact ⟨tableChild_congr (congrFun hsame j), fun _ => congrFun hsame j⟩
  exact ⟨⟨frames, ht, hmem.tiles, hmem.top, hmem.bound⟩, hI.nodup, hI.nonzero, hI.areas⟩

/-- A granted load, as far as it is known. -/
theorem loadElf_loading (hI : SpacesInv (fun _ => False) live k) (hmm : mm ∈ live)
    (hok : Elf.Loadable elf size) (hg : k.LoadGranted mm elf (Elf.ePhnum elf) 0) :
    ∃ k', k.loadElf mm elf = some (Elf.eEntry elf, k')
      ∧ Loading live k k' mm elf (Elf.ePhnum elf) := by
  have hstart : Loading live k k mm elf 0 :=
    ⟨SpacesKept.refl hI, fun j x hj => absurd hj.1 (Nat.not_lt_zero j),
      fun w hw => ⟨hw, fun j x hj => absurd hj.1 (Nat.not_lt_zero j)⟩⟩
  obtain ⟨k', hloop, h'⟩ := hstart.loop hmm hok (Elf.ePhnum elf) 0 (Nat.zero_add _) hg
  refine ⟨k', ?_, h'⟩
  rw [Kernel.loadElf, if_pos hok.magic, if_neg (hI.nonzero mm hmm), hloop]
  rfl

theorem Loading.builds {c : Cpu} (h : Loading live c.toKernel k' mm elf (Elf.ePhnum elf))
    (hmm : mm ∈ live) (hload : c.toKernel.loadElf mm elf = some (Elf.eEntry elf, k'))
    (hpages : Elf.PagesApart elf) : c.Builds mm elf := by
  refine ⟨⟨k', c.cr3⟩, by rw [Cpu.loadElf_eq, hload]; rfl, rfl, fun i hi hl j hj => ?_⟩
  have hlast : Elf.LastAt elf (Elf.ePhnum elf) i (Elf.pVaddr elf i + j) := by
    have hpage : (Elf.request elf i).HasPage ((Elf.pVaddr elf i + j) / 4096) :=
      ⟨by show 0 < Elf.pMemsz elf i; omega, Nat.div_le_div_right (Nat.le_add_right _ _),
        (Nat.div_mul_le_self _ 4096).trans_lt (Nat.add_lt_add_left hj _)⟩
    exact ⟨hi, hl, hpage, fun l h1 h2 h3 hc => hpages i l h1 h2 hl h3 _ ⟨hpage, hc⟩⟩
  have hbyte := h.bytes i _ hlast ⟨Nat.le_add_right _ _, Nat.add_lt_add_left hj _⟩
  rw [Nat.add_sub_cancel_left] at hbyte
  have hpml4 : (k'.mms mm).pml4Pa = (c.mms mm).pml4Pa := h.kept.pml4Pa hmm
  rw [hpml4]
  exact hbyte

/-- The last index of a kind. -/
theorem exists_last {P : ℕ → Prop} {j n : ℕ} (hj : j < n) (hP : P j) :
    ∃ l, j ≤ l ∧ l < n ∧ P l ∧ ∀ l', l < l' → l' < n → ¬ P l' := by
  classical
  have hb : j < n ∧ P j := ⟨hj, hP⟩
  obtain ⟨hl, hPl⟩ := Nat.findGreatest_spec (P := fun l => l < n ∧ P l) hj.le hb
  exact ⟨_, Nat.le_findGreatest hj.le hb, hl, hPl, fun l' h1 h2 hc =>
    Nat.findGreatest_is_greatest h1 h2.le ⟨h2, hc⟩⟩

/-- A page of a request has one of its addresses. -/
theorem MapRequest.HasPage.exists_mem {r : MapRequest} {n : ℕ} (h : r.HasPage n) :
    ∃ x, r.va ≤ x ∧ x < r.va + r.size ∧ x / 4096 = n := by
  obtain ⟨hpos, h1, h2⟩ := h
  unfold pageSize at h1 h2
  exact ⟨max r.va (n * 4096), by omega, by omega, by omega⟩

/-- Where two segments meet in a page, one of them has an address there that shows the frame. -/
theorem exists_overwritten (hok : Elf.Loadable elf size) (h : ¬ Elf.PagesApart elf) :
    ∃ i l x, i < Elf.ePhnum elf ∧ Elf.pType elf i = Elf.ptLoad ∧ Elf.InSegment elf i x
      ∧ Elf.LastAt elf (Elf.ePhnum elf) l x ∧ ¬ Elf.InSegment elf l x := by
  have hmeet : ∃ i j, i < j ∧ j < Elf.ePhnum elf ∧ Elf.pType elf i = Elf.ptLoad
      ∧ Elf.pType elf j = Elf.ptLoad
      ∧ ∃ n, (Elf.request elf i).HasPage n ∧ (Elf.request elf j).HasPage n := by
    by_contra hc
    exact h fun i j hij hj hi hl n hn => hc ⟨i, j, hij, hj, hi, hl, n, hn⟩
  obtain ⟨i, j, hij, hj, hli, hlj, n, hpi, hpj⟩ := hmeet
  obtain ⟨l, hjl, hl, ⟨hll, hpl⟩, hlater⟩ := exists_last hj (P := fun l =>
    Elf.pType elf l = Elf.ptLoad ∧ (Elf.request elf l).HasPage n) ⟨hlj, hpj⟩
  obtain ⟨x, h1, h2, rfl⟩ := hpi.exists_mem
  have hin : Elf.InSegment elf i x := ⟨h1, h2⟩
  refine ⟨i, l, x, hij.trans hj, hli, hin,
    ⟨hl, hll, hpl, fun l' h3 h4 h5 h6 => hlater l' h3 h4 ⟨h5, h6⟩⟩, fun hout => ?_⟩
  rcases hok.apart i l (hij.trans_le hjl) hl hli hll with hbefore | hafter
  · exact absurd (hout.1.trans_lt (hin.2.trans_le hbefore)) (lt_irrefl _)
  · exact absurd (hin.1.trans_lt (hout.2.trans_le hafter)) (lt_irrefl _)

theorem byteOf_fill {i : ℕ} (hi : i < 8) : byteOf (BitVec.allOnes 64) i ≠ byteOf 0#64 i := by
  interval_cases i <;> decide

end Image

/-- Whatever the free frames hold, a program is loaded as its file says: this is so exactly if no
two of its segments meet in a page. -/
theorem load_image {own : ℕ → Prop} {live : List ℕ} {c : Cpu} {mm size : ℕ} {elf : ℕ → UInt8}
    (hI : SpacesInv own live c.toKernel) (hmm : mm ∈ live) (hok : Elf.Loadable elf size)
    (hfill : ∀ ones, (c.fillFree ones).LoadGranted mm elf (Elf.ePhnum elf) 0) :
    (∀ k, c.toKernel.Refilled k → k.LoadGranted mm elf (Elf.ePhnum elf) 0 →
        Cpu.Builds ⟨k, c.cr3⟩ mm elf) ↔ Elf.PagesApart elf := by
  constructor
  · intro hall
    by_contra hno
    obtain ⟨i, l, x, hi, hli, hin, hlast, hout⟩ := exists_overwritten hok hno
    -- The byte is what the frame held, and that may be a zero as well as not.
    have hbyte : ∀ ones : Bool, some (Elf.segByte elf i (x - Elf.pVaddr elf i))
        = some (byteOf (if ones then BitVec.allOnes 64 else 0#64) (x % 4096 % 8)) := by
      intro ones
      have hr := c.toKernel.refilled_fillFree ones
      obtain ⟨k', hload, hk'⟩ := loadElf_loading (hI.clear.refill hr) hmm hok (hfill ones)
      obtain ⟨c', hc', -, hbytes⟩ := hall _ hr (hfill ones)
      rw [Cpu.loadElf_eq, hload] at hc'
      obtain ⟨-, rfl⟩ := Prod.mk.inj (Option.some.inj hc')
      have hb := hbytes i hi hli (x - Elf.pVaddr elf i) (by
        unfold Elf.InSegment at hin
        omega)
      have hpml4 := hk'.kept.pml4Pa hmm
      have hfresh := (hk'.fresh _ (c.toKernel.filled_fillFree ones)).2 l x hlast hout
      rw [Nat.add_sub_cancel' hin.1] at hb
      exact hb.symm.trans ((congrArg (fun n => k'.byteAt n x) hpml4).trans hfresh)
    have hne := byteOf_fill (i := x % 4096 % 8) (by omega)
    exact hne (Option.some.inj ((hbyte true).symm.trans (hbyte false)))
  · intro hpages k hr hg
    obtain ⟨k', hload, hk'⟩ := loadElf_loading (hI.clear.refill hr) hmm hok hg
    exact hk'.builds (c := ⟨k, c.cr3⟩) hmm hload hpages

/-- A call of `mm_alloc` after boot. -/
def firstSpace : Option MmRun := bootKernel.bind fun k => Run.run mmStep ⟨k, []⟩ [.mmAlloc]

theorem firstSpace_inv {s : MmRun} (h : firstSpace = some s) :
    SpacesInv (fun _ => False) s.live s.k ∧ firstMm ∈ s.live := by
  obtain ⟨k, hboot, hrun⟩ := Option.bind_eq_some_iff.mp h
  have hmeets : (bootKernel.bind fun k => (Run.run mmStep ⟨k, []⟩ [.mmAlloc]).map fun s =>
      (s.live, decide (Run.Meets mmStep MmOk ⟨k, []⟩ [.mmAlloc]))) = some ([firstMm], true) := by
    decide +kernel
  rw [hboot, Option.bind_some, hrun, Option.map_some, Option.some.injEq, Prod.mk.injEq,
    decide_eq_true_eq] at hmeets
  refine ⟨mmRun_inv (by unfold MemoryFits; decide) hboot hmeets.2 hrun, ?_⟩
  rw [hmeets.1]
  exact List.mem_singleton_self _

/-- The code of a program, and its data on the next page. -/
def splitElf : ℕ → UInt8 := elfImage 0x400000 [(0x400000, 0x800), (0x401000, 0x800)]

theorem loadable_splitElf : Elf.Loadable splitElf 176 where
  magic := by decide +kernel
  small := by decide
  nonempty := by decide +kernel
  filled := by decide +kernel
  inFile := by decide +kernel
  user := by decide +kernel
  apart := by
    have h : ∀ j < Elf.ePhnum splitElf, ∀ i < j, Elf.pVaddr splitElf i
        + Elf.pMemsz splitElf i ≤ Elf.pVaddr splitElf j := by decide +kernel
    exact fun i j hij hj _ _ => .inl (h j hj i hij)

/-- The code of a program, and its data in the second half of the page. -/
def sharedElf : ℕ → UInt8 := elfImage 0x400000 [(0x400000, 0x800), (0x400800, 0x800)]

theorem loadable_sharedElf : Elf.Loadable sharedElf 176 where
  magic := by decide +kernel
  small := by decide
  nonempty := by decide +kernel
  filled := by decide +kernel
  inFile := by decide +kernel
  user := by decide +kernel
  apart := by
    have h : ∀ j < Elf.ePhnum sharedElf, ∀ i < j, Elf.pVaddr sharedElf i
        + Elf.pMemsz sharedElf i ≤ Elf.pVaddr sharedElf j := by decide +kernel
    exact fun i j hij hj _ _ => .inl (h j hj i hij)

theorem load_image_splitElf :
    ∃ s, firstSpace = some s ∧ ∀ k, s.k.Refilled k → k.LoadGranted firstMm splitElf 2 0 →
      Cpu.Builds ⟨k, s.k.kernelPml4⟩ firstMm splitElf := by
  obtain ⟨s, h, hfill⟩ := Option.map_eq_some_iff.mp
    (show firstSpace.map (fun s => decide (∀ ones : Bool,
      (s.k.fillFree ones).LoadGranted firstMm splitElf 2 0)) = some true by decide +kernel)
  obtain ⟨hI, hmm⟩ := firstSpace_inv h
  have hnum : Elf.ePhnum splitElf = 2 := by decide +kernel
  have hend : Elf.pVaddr splitElf 0 + Elf.pMemsz splitElf 0 = 0x400800
      ∧ Elf.pVaddr splitElf 1 = 0x401000 := by
    decide +kernel
  refine ⟨s, h, ?_⟩
  rw [← hnum] at hfill ⊢
  refine (load_image (c := ⟨s.k, s.k.kernelPml4⟩) hI hmm loadable_splitElf
    (of_decide_eq_true hfill)).mpr fun i j hij hj _ _ => ?_
  obtain ⟨rfl, rfl⟩ : i = 0 ∧ j = 1 := by omega
  rintro n ⟨⟨-, -, h0⟩, -, h1, -⟩
  have h0' : n * pageSize < Elf.pVaddr splitElf 0 + Elf.pMemsz splitElf 0 := h0
  have h1' : Elf.pVaddr splitElf 1 / pageSize ≤ n := h1
  rw [hend.1] at h0'
  rw [hend.2] at h1'
  unfold pageSize at h0' h1'
  omega

/-- The first bytes of the code are lost when the data is loaded. -/
theorem load_image_sharedElf :
    ∃ s, firstSpace = some s ∧ SpacesInv (fun _ => False) s.live s.k ∧ firstMm ∈ s.live
      ∧ Elf.Loadable sharedElf 176 ∧ Elf.eEntry sharedElf ≠ 0
      ∧ s.k.LoadGranted firstMm sharedElf (Elf.ePhnum sharedElf) 0
      ∧ ¬ Cpu.Builds ⟨s.k, s.k.kernelPml4⟩ firstMm sharedElf := by
  obtain ⟨s, h, hrun⟩ := Option.map_eq_some_iff.mp
    (show firstSpace.map (fun s =>
      (decide (s.k.LoadGranted firstMm sharedElf (Elf.ePhnum sharedElf) 0),
        (Cpu.loadElf ⟨s.k, s.k.kernelPml4⟩ firstMm sharedElf).map fun r =>
          r.2.byteAt (r.2.mms firstMm).pml4Pa 0x400000)) = some (true, some (some 0)) by
      decide +kernel)
  obtain ⟨hg, hbyte⟩ := Prod.mk.inj hrun
  obtain ⟨hI, hmm⟩ := firstSpace_inv h
  refine ⟨s, h, hI, hmm, loadable_sharedElf, by decide +kernel, of_decide_eq_true hg, ?_⟩
  rintro ⟨c', hc', -, hbytes⟩
  rw [hc', Option.map_some] at hbyte
  have hfirst := hbytes 0 (by decide +kernel) (by decide +kernel) 0 (by decide +kernel)
  have hva : Elf.pVaddr sharedElf 0 = 0x400000 ∧ Elf.segByte sharedElf 0 0 = 0x7F := by
    decide +kernel
  rw [hva.1, hva.2, Nat.add_zero, Option.some.inj hbyte] at hfirst
  cases hfirst

end SudoOS
