import SudoOS.Proofs.Brk
import SudoOS.Proofs.Teardown

/-!
# Deep copies

`mm_copy` maps each area of the source anew in the destination and then copies the pages that are
present. A page of several areas is mapped and copied several times; the last copy stays. As long as
the structures of the source are in blocks in use, the allocations on the way do not hit them, and
the copy is deep (`copy_deep`).
-/

namespace SudoOS

/-! ## Pages -/

theorem leafEntry_congr {m : Machine} {pml4 x y : ℕ} (h : leafPath x = leafPath y) :
    m.leafEntry pml4 x = m.leafEntry pml4 y := by
  obtain ⟨ht, hi⟩ := List.append_inj' h rfl
  rw [Machine.leafEntry, Machine.leafEntry, vmmGetPte_eq, vmmGetPte_eq, ht,
    List.singleton_inj.mp hi]

theorem leafPath_offset {va x : ℕ} (hva : 4096 ∣ va) (h1 : va ≤ x) (h2 : x < va + 4096) :
    leafPath x = leafPath va := by
  rw [leafPath_eq_iff]
  omega

theorem leafPath_ne {x y : ℕ} (hx : x < 2 ^ 47) (hy : y < 2 ^ 47) (h : x / 4096 ≠ y / 4096) :
    leafPath x ≠ leafPath y := by
  rw [Ne, leafPath_eq_iff]
  omega

theorem table_of_leafEntry {m : Machine} {pml4 x : ℕ} {e : BitVec 64}
    (h : m.leafEntry pml4 x = some e) : m.table pml4 (leafPath x) = some (pteGetAddr e) := by
  let root : Unit → Option ℕ := fun _ => some pml4
  have hroot : root () = some pml4 := rfl
  exact (Machine.node_eq_table hroot _).symm.trans (node_of_leafEntry hroot h)

/-- Away from the paths in `T` a page keeps its entry and its contents. -/
theorem Touches.page_eq {adm T : List ℕ → Prop} {pml4 x : ℕ} {m m' : Machine} {e : BitVec 64}
    (h : Touches adm pml4 T m m') (ht : adm (tablePath x)) (hx : adm (leafPath x))
    (hT : ∀ q, T q → ∃ w, q = leafPath w ∧ leafPath w ≠ leafPath x)
    (he : m.leafEntry pml4 x = some e) :
    m'.leafEntry pml4 x = some e ∧ ∀ j, m'.phys (pteGetAddr e) j = m.phys (pteGetAddr e) j := by
  refine ⟨(h.leafEntry_eq ht hT).trans he, (h.spares hx fun q hq hpre => ?_).2 _
    (table_of_leafEntry he)⟩
  obtain ⟨w, rfl, hne⟩ := hT q hq
  exact hne (hpre.eq_of_length rfl).symm

/-- The page at `x`, if present in the source, has been copied to the page that the destination has
there. -/
def CopiedAt (m m' : Machine) (dst src x : ℕ) : Prop :=
  ∀ e, m.leafEntry src x = some e → ∃ e', m'.leafEntry dst x = some e'
    ∧ m.frameAt dst x = some (pteGetAddr e')
    ∧ (∀ j, m'.phys (pteGetAddr e') j = m.phys (pteGetAddr e) j)
    ∧ e' &&& 0xFFF#64 = e &&& 0xFFF#64

theorem copiedEntry_low (d : ℕ) (s : BitVec 64) :
    ((BitVec.ofNat 64 d &&& pteAddrMask) ||| (s &&& 0xFFF#64)) &&& 0xFFF#64 = s &&& 0xFFF#64 := by
  have hmask : pteAddrMask &&& 0xFFF#64 = 0#64 := by decide
  have hlow : 0xFFF#64 &&& 0xFFF#64 = 0xFFF#64 := BitVec.and_self
  have hor : ∀ x y : BitVec 64, (x ||| y) &&& 0xFFF#64 = (x &&& 0xFFF#64) ||| (y &&& 0xFFF#64) := by
    intro x y
    apply BitVec.eq_of_getLsbD_eq
    intro i hi
    simp only [BitVec.getLsbD_and, BitVec.getLsbD_or, Bool.and_or_distrib_right]
  rw [hor, BitVec.and_assoc, hmask, BitVec.and_zero, BitVec.zero_or, BitVec.and_assoc, hlow]

section Copying

variable {K : Type*} {root : K → Option ℕ} {adm : K → List ℕ → Prop} {kd ks : K} {m : Machine}
  {dst src va pa : ℕ}

theorem copyPte_of_absent (hs : m.leafEntry src va = none) : m.copyPte dst src va = (true, m) := by
  unfold Machine.copyPte
  rw [vmmGetPte_eq m src]
  rcases hspt : m.table src (tablePath va) with _ | spt
  · rfl
  rw [leafEntry_of_some hspt] at hs
  rcases m.vmmGetPte dst va with _ | ⟨dpt, di⟩
  · rfl
  · dsimp only [Option.map_some]
    split_ifs at hs with hpr
    rw [if_neg hpr]

/-- A present page is copied first; its entry is read again after that. -/
theorem copyPte_of_present {spt dpt : ℕ} (hs : m.table src (tablePath va) = some spt)
    (hd : m.table dst (tablePath va) = some dpt)
    (hpr : isPresent (m.phys spt (ptIdx va)) = true)
    (h0 : pteGetAddr (m.phys dpt (ptIdx va)) ≠ 0) {ph : PhysMem}
    (hph : m.phys.copyPage (pteGetAddr (m.phys dpt (ptIdx va)))
      (pteGetAddr (m.phys spt (ptIdx va))) = ph) :
    m.copyPte dst src va = (true, Machine.setEntry { m with phys := ph } dpt (ptIdx va)
      ((BitVec.ofNat 64 (pteGetAddr (m.phys dpt (ptIdx va))) &&& pteAddrMask)
        ||| (ph spt (ptIdx va) &&& 0xFFF#64))) := by
  unfold Machine.copyPte
  rw [vmmGetPte_eq m src, vmmGetPte_eq m dst, hs, hd]
  dsimp only [Option.map_some]
  rw [if_pos hpr, if_neg h0, hph]

/-- One round, for a page that the destination has. -/
theorem copyPte_deep (hadm : Radix.Closed adm) (h : TablesOk root adm m)
    (hdst : root kd = some dst) (hsrc : root ks = some src) (hleaf : IsLeaf adm kd (leafPath va))
    (hleaf' : adm ks (leafPath va)) (hpa : m.frameAt dst va = some pa) (h0 : pa ≠ 0) :
    (m.copyPte dst src va).1 = true ∧ CopiedAt m (m.copyPte dst src va).2 dst src va := by
  have hk := copyPte_kept hadm h hdst hsrc hleaf hleaf'
  obtain ⟨d, hd, rfl⟩ := Option.map_eq_some_iff.mp hpa
  obtain ⟨pt, hpt, rfl, hpr⟩ := leafEntry_eq_some hd
  have hpt' : (m.copyPte dst src va).2.table dst (tablePath va) = some pt := by
    refine ((hk.touches kd dst hdst).nodes _ pt (hadm _ _ _ hleaf.1) hpt).resolve_right fun hc => ?_
    simpa [leafPath] using congrArg List.length hc.2
  unfold CopiedAt
  rw [leafEntry_of_some hpt']
  rcases hs : m.leafEntry src va with _ | e₀
  · rw [copyPte_of_absent hs]
    exact ⟨rfl, fun e he => absurd he (by simp)⟩
  obtain ⟨spt, hspt, rfl, hspr⟩ := leafEntry_eq_some hs
  have hpt'' := (Machine.node_eq_table hdst _).trans hpt
  have hpage := node_leafPath hpt'' hpr
  have hne := h.table_ne_leaf hadm hleaf' ((Machine.node_eq_table hsrc _).trans hspt) hleaf hpage
  have hne' := h.table_ne_leaf hadm hleaf.1 hpt'' hleaf hpage
  obtain ⟨ph, hph⟩ : ∃ ph, m.phys.copyPage (pteGetAddr (m.phys pt (ptIdx va)))
      (pteGetAddr (m.phys spt (ptIdx va))) = ph := ⟨_, rfl⟩
  have hword : ph spt (ptIdx va) = m.phys spt (ptIdx va) := hph ▸ if_neg hne
  have hcopied : ∀ j, ph (pteGetAddr (m.phys pt (ptIdx va))) j
      = m.phys (pteGetAddr (m.phys spt (ptIdx va))) j := fun j => hph ▸ if_pos rfl
  obtain ⟨haddr, hpres⟩ := copiedEntry (m.phys pt (ptIdx va)) (m.phys spt (ptIdx va))
  have hlow := copiedEntry_low (pteGetAddr (m.phys pt (ptIdx va))) (m.phys spt (ptIdx va))
  rw [copyPte_of_present hspt hpt hspr h0 hph, hword]
  refine ⟨rfl, fun e he => ?_⟩
  obtain rfl := Option.some.inj he
  refine ⟨_, ?_, ?_, fun j => ?_, hlow⟩
  · dsimp only
    rw [setEntry_phys_self, if_pos (hpres.trans hspr)]
  · rw [haddr]
    exact hpa
  · rw [haddr, setEntry_phys_of_ne fun hc => absurd hc.symm hne']
    exact hcopied j

theorem copyPte_pmm (m : Machine) (dst src va : ℕ) : (m.copyPte dst src va).2.pmm = m.pmm := by
  unfold Machine.copyPte
  split
  · dsimp only
    split_ifs <;> rfl
  · rfl

/-- Paths to the pages between two addresses, in one tree. -/
def AddrPaths (kd : K) (start stop : ℕ) (k : K) (p : List ℕ) : Prop :=
  k = kd ∧ ∃ x, start ≤ x ∧ x < stop ∧ p = leafPath x

/-- A copy is one of the page at any of its addresses. -/
theorem CopiedAt.congr {m' : Machine} {x y : ℕ} (h : CopiedAt m m' dst src x)
    (hxy : leafPath y = leafPath x) : CopiedAt m m' dst src y := by
  unfold CopiedAt Machine.frameAt at h ⊢
  rw [leafEntry_congr hxy, leafEntry_congr hxy, leafEntry_congr hxy]
  exact h

/-- The copy stays while other pages of the destination change. -/
theorem CopiedAt.later {m₁ m₂ : Machine} {x : ℕ} {T : K → List ℕ → Prop}
    (hadm : Radix.Closed adm) (hdst : root kd = some dst) (h : CopiedAt m m₁ dst src x)
    (hk : Kept root adm T m₁ m₂) (hx : adm kd (leafPath x))
    (hT : ∀ q, T kd q → ∃ w, q = leafPath w ∧ leafPath w ≠ leafPath x) :
    CopiedAt m m₂ dst src x := by
  intro e he
  obtain ⟨e', h1, h2, h3, h4⟩ := h e he
  obtain ⟨g1, g2⟩ := (hk.touches kd dst hdst).page_eq (hadm _ _ _ hx) hx hT h1
  exact ⟨e', g1, h2, fun j => (g2 j).trans (h3 j), h4⟩

/-- A copy of what has not changed before. -/
theorem CopiedAt.earlier {m₁ m₂ : Machine} {x : ℕ} {T : K → List ℕ → Prop}
    (hadm : Radix.Closed adm) (hdst : root kd = some dst) (hsrc : root ks = some src)
    (h : CopiedAt m₁ m₂ dst src x) (hk : Kept root adm T m m₁) (hx : adm kd (leafPath x))
    (hx' : adm ks (leafPath x))
    (hT : ∀ q, T kd q → ∃ w, q = leafPath w ∧ leafPath w ≠ leafPath x) (hT' : ∀ q, ¬ T ks q) :
    CopiedAt m m₂ dst src x := by
  intro e he
  obtain ⟨g1, g2⟩ := (hk.touches ks src hsrc).page_eq (hadm _ _ _ hx') hx'
    (fun q hq => absurd hq (hT' q)) he
  obtain ⟨e', h1, h2, h3, h4⟩ := h e g1
  have hframe : m.frameAt dst x = m₁.frameAt dst x := by
    unfold Machine.frameAt
    rw [(hk.touches kd dst hdst).leafEntry_eq (hadm _ _ _ hx) hT]
  exact ⟨e', h1, hframe.trans h2, fun j => (h3 j).trans (g2 j), h4⟩

/-- All rounds, over pages that the destination has. -/
theorem copyRange_deep (hadm : Radix.Closed adm) (hdst : root kd = some dst)
    (hsrc : root ks = some src) (hne : kd ≠ ks)
    (hleaf : ∀ x < 2 ^ 47, IsLeaf adm kd (leafPath x) ∧ adm ks (leafPath x)) :
    ∀ (n va : ℕ) (m : Machine), TablesOk root adm m → 4096 ∣ va → va + n * 4096 ≤ 2 ^ 47 →
      (∀ x, va ≤ x → x < va + n * 4096 → ∃ pa, m.frameAt dst x = some pa ∧ pa ≠ 0) →
      ∃ m', Machine.copyRange dst src n va m = (true, m')
        ∧ Kept root adm (AddrPaths kd va (va + n * 4096)) m m' ∧ m'.pmm = m.pmm
        ∧ ∀ x, va ≤ x → x < va + n * 4096 → CopiedAt m m' dst src x
  | 0, va, m, h, _, _, _ => ⟨m, rfl, Kept.refl h, rfl, fun x h1 h2 => by omega⟩
  | n + 1, va, m, h, hal, hend, hmapped => by
    have hva : va < 2 ^ 47 := by omega
    obtain ⟨hl, hl'⟩ := hleaf va hva
    obtain ⟨pa, hpa, h0⟩ := hmapped va le_rfl (by omega)
    obtain ⟨htrue, hcopied⟩ := copyPte_deep hadm h hdst hsrc hl hl' hpa h0
    have hk := copyPte_kept hadm h hdst hsrc hl hl'
    have hpmm := copyPte_pmm m dst src va
    rcases hc : m.copyPte dst src va with ⟨ok, m₁⟩
    rw [hc] at htrue hcopied hk hpmm
    obtain rfl : ok = true := htrue
    -- The pages after the first are other pages.
    have hoff : ∀ x, va + 4096 ≤ x → x < 2 ^ 47 → leafPath va ≠ leafPath x := fun x h1 h2 =>
      leafPath_ne hva h2 (by omega)
    have hrest : ∀ x, va + 4096 ≤ x → x < va + 4096 + n * 4096 →
        ∃ pa, m₁.frameAt dst x = some pa ∧ pa ≠ 0 := by
      intro x h1 h2
      have hx : x < 2 ^ 47 := by omega
      obtain ⟨pb, hpb, hb0⟩ := hmapped x (by omega) (by omega)
      refine ⟨pb, ?_, hb0⟩
      rw [Machine.frameAt, (hk.touches kd dst hdst).leafEntry_eq (hadm _ _ _ (hleaf x hx).1.1)
        fun q hq => ⟨va, hq.2, hoff x h1 hx⟩]
      exact hpb
    obtain ⟨m', he, hk', hpmm', hcopied'⟩ := copyRange_deep hadm hdst hsrc hne hleaf n (va + 4096)
      m₁ hk.tables (by omega) (by omega) hrest
    refine ⟨m', ?_, (hk.mono _ ?_).trans (hk'.mono _ ?_), hpmm'.trans hpmm, fun x h1 h2 => ?_⟩
    · rw [Machine.copyRange, hc]
      dsimp only
      rw [show u64 (va + pageSize) = va + 4096 from u64_of_lt (by unfold pageSize; omega)]
      exact he
    · rintro k p ⟨rfl, rfl⟩
      exact ⟨rfl, va, le_rfl, by omega, rfl⟩
    · rintro k p ⟨rfl, x, h1, h2, rfl⟩
      exact ⟨rfl, x, by omega, by omega, rfl⟩
    · rcases lt_or_ge x (va + 4096) with hlt | hge
      · refine (hcopied.later hadm hdst hk' hl.1 ?_).congr (leafPath_offset hal h1 hlt)
        rintro q ⟨-, w, hw1, hw2, rfl⟩
        exact ⟨w, rfl, (hoff w hw1 (by omega)).symm⟩
      · have hx : x < 2 ^ 47 := by omega
        refine (hcopied' x hge (by omega)).earlier hadm hdst hsrc hk (hleaf x hx).1.1 (hleaf x hx).2
          (fun q hq => ⟨va, hq.2, hoff x hge hx⟩) fun q hq => hne hq.1.symm

end Copying

/-! ## Areas -/

/-- An area as `mm_map_range` makes it in the user half. -/
structure AreaWhole (v : VmaStruct) : Prop where
  pos : v.vmStart < v.vmEnd
  user : v.vmEnd ≤ 2 ^ 47
  start : 4096 ∣ v.vmStart
  stop : 4096 ∣ v.vmEnd

theorem requestArea_whole {mm va size : ℕ} {vmFlags : BitVec 64} (hva : va + size ≤ 2 ^ 47)
    (hs : 0 < size) : AreaWhole (requestArea mm va size vmFlags) := by
  obtain ⟨h1, h2, hlt, hle⟩ := rangeArea hva hs
  refine ⟨hlt, hle, ?_, ?_⟩
  · exact ⟨va / 4096, by rw [requestArea, h1, Nat.mul_comm]⟩
  · exact ⟨(va + size + 4095) / 4096, by rw [requestArea, h2, Nat.mul_comm]⟩

/-- The request by which `mm_copy` maps an area. -/
def VmaStruct.request (v : VmaStruct) : MapRequest :=
  ⟨v.vmStart, u64Sub v.vmEnd v.vmStart, v.vmFlags⟩

section Whole

variable {v : VmaStruct}

theorem AreaWhole.request_size (h : AreaWhole v) : v.request.size = v.vmEnd - v.vmStart :=
  u64Sub_of_le h.pos.le

theorem AreaWhole.request_end (h : AreaWhole v) :
    v.request.va + v.request.size = v.vmEnd ∧ 0 < v.request.size := by
  have := h.pos
  rw [h.request_size]
  show v.vmStart + _ = _ ∧ _
  omega

/-- The new area has the same bounds and flags. -/
theorem AreaWhole.requestArea_eq (h : AreaWhole v) (mm : ℕ) :
    requestArea mm v.request.va v.request.size v.request.vmFlags = { v with mm := mm } := by
  obtain ⟨hend, hpos⟩ := h.request_end
  obtain ⟨h1, h2, -, -⟩ := rangeArea (hend.le.trans h.user) hpos
  have hstart := h.start
  have hstop := h.stop
  rw [requestArea, h1, h2, hend]
  have hva : v.request.va = v.vmStart := rfl
  rw [hva, Nat.div_mul_cancel hstart, show (v.vmEnd + 4095) / 4096 * 4096 = v.vmEnd by omega]
  rfl

theorem AreaWhole.hasPage (h : AreaWhole v) (x : ℕ) :
    v.request.HasPage (x / 4096) ↔ v.vmStart ≤ x ∧ x < v.vmEnd := by
  obtain ⟨hend, hpos⟩ := h.request_end
  have hstart := h.start
  have hstop := h.stop
  unfold MapRequest.HasPage
  rw [hend]
  show _ ∧ v.vmStart / 4096 ≤ _ ∧ x / 4096 * 4096 < _ ↔ _
  omega

theorem AreaWhole.rounds (h : AreaWhole v) : v.vmStart + v.rounds * 4096 = v.vmEnd := by
  have hpos := h.pos
  have hstart := h.start
  have hstop := h.stop
  unfold VmaStruct.rounds pageSize
  omega

end Whole

/-- The areas of live address spaces have been made by calls on the user half. -/
def AreasWhole (live : List ℕ) (k : Kernel) : Prop :=
  ∀ a ∈ live, ∀ v ∈ (k.mms a).vmaList, AreaWhole (k.vmas v)

/-! ## Copies -/

/-- The page at `x`, if present in the source, has its copy in the destination: a page not taken
before, with the same contents and the same low bits in its entry. -/
def PageCopied (m m' : Machine) (dst src x : ℕ) : Prop :=
  ∀ e, m.leafEntry src x = some e → ∃ e', m'.leafEntry dst x = some e'
    ∧ ¬ m.pmm.Busy (pteGetAddr e')
    ∧ (∀ j, m'.phys (pteGetAddr e') j = m.phys (pteGetAddr e) j)
    ∧ e' &&& 0xFFF#64 = e &&& 0xFFF#64

section Pages

variable {m m₁ m₂ : Machine} {dst src x : ℕ}

/-- A copy to a page that is new, of what the source had before. -/
theorem CopiedAt.pageCopied (h : CopiedAt m₁ m₂ dst src x)
    (hsrc : ∀ e, m.leafEntry src x = some e → m₁.leafEntry src x = some e
      ∧ ∀ j, m₁.phys (pteGetAddr e) j = m.phys (pteGetAddr e) j)
    (hnew : ∀ pa, m₁.frameAt dst x = some pa → ¬ m.pmm.Busy pa) :
    PageCopied m m₂ dst src x := by
  intro e he
  obtain ⟨g1, g2⟩ := hsrc e he
  obtain ⟨e', c1, c2, c3, c4⟩ := h e g1
  exact ⟨e', c1, hnew _ c2, fun j => (c3 j).trans (g2 j), c4⟩

theorem PageCopied.later {T : List ℕ → Prop} (h : PageCopied m m₁ dst src x)
    (ht : Touches UserPath dst T m₁ m₂) (hx : x < 2 ^ 47)
    (hT : ∀ q, T q → ∃ y, q = leafPath y ∧ leafPath y ≠ leafPath x) :
    PageCopied m m₂ dst src x := by
  intro e he
  obtain ⟨e', c1, c2, c3, c4⟩ := h e he
  have hpath := leafPath_userPath (pml4Idx_user hx)
  obtain ⟨g1, g2⟩ := ht.page_eq hpath.of_append hpath hT c1
  exact ⟨e', g1, c2, fun j => (g2 j).trans (c3 j), c4⟩

end Pages

/-- No allocation of `mm_copy` fails. -/
def Kernel.CopyGranted (dst src : ℕ) : List ℕ → Kernel → Prop
  | [], _ => True
  | v :: vs, k => k.Grants dst (k.vmas v).request
    ∧ match k.mmMapRange dst (k.vmas v).vmStart (u64Sub (k.vmas v).vmEnd (k.vmas v).vmStart)
        (k.vmas v).vmFlags with
      | some (true, k) =>
        match Machine.copyRange (k.mms dst).pml4Pa (k.mms src).pml4Pa (k.vmas v).rounds
          (k.vmas v).vmStart k.toMachine with
        | (true, m) => CopyGranted dst src vs { k with toMachine := m }
        | (false, _) => True
      | _ => True

instance Kernel.CopyGranted.decidable (dst src : ℕ) :
    (vs : List ℕ) → (k : Kernel) → Decidable (Kernel.CopyGranted dst src vs k)
  | [], _ => isTrue trivial
  | v :: vs, k => by
    unfold Kernel.CopyGranted
    rcases k.mmMapRange dst (k.vmas v).vmStart (u64Sub (k.vmas v).vmEnd (k.vmas v).vmStart)
      (k.vmas v).vmFlags with _ | ⟨_ | _, k'⟩
    · exact inferInstanceAs (Decidable (_ ∧ True))
    · exact inferInstanceAs (Decidable (_ ∧ True))
    · dsimp only
      rcases Machine.copyRange (k'.mms dst).pml4Pa (k'.mms src).pml4Pa (k'.vmas v).rounds
        (k'.vmas v).vmStart k'.toMachine with ⟨_ | _, m⟩
      · exact inferInstanceAs (Decidable (_ ∧ True))
      · have := Kernel.CopyGranted.decidable dst src vs { k' with toMachine := m }
        exact inferInstanceAs (Decidable (_ ∧ _))

/-- How far a copy has come: `done` are the areas of the source that have been copied. -/
structure Copying (k₀ k : Kernel) (live : List ℕ) (dst src : ℕ) (done : List ℕ) : Prop where
  kept : SpacesKept (fun _ => False) live (SpacePaths dst) k₀ k
  busy : ∀ n, k₀.pmm.Busy n → k.pmm.Busy n
  held : MmRun.Held ⟨k, live⟩
  mms : k.mms src = k₀.mms src
  vmas : ∀ v ∈ (k₀.mms src).vmaList, k.vmas v = k₀.vmas v
  areas : (k.mms dst).vmaList.map k.vmas = done.map fun v => { k₀.vmas v with mm := dst }
  pages : ∀ v ∈ done, ∀ x, (k₀.vmas v).vmStart ≤ x → x < (k₀.vmas v).vmEnd →
    PageCopied k₀.toMachine k.toMachine (k₀.mms dst).pml4Pa (k₀.mms src).pml4Pa x

section Areas

variable {k₀ k : Kernel} {live : List ℕ} {dst src v x : ℕ}

/-- What the source has at a page is what it had. -/
theorem SpacesKept.source_page (h : SpacesKept (fun _ => False) live (SpacePaths dst) k₀ k)
    (hs : src ∈ live) (hne : dst ≠ src) (hx : x < 2 ^ 47) {e : BitVec 64}
    (he : k₀.leafEntry (k₀.mms src).pml4Pa x = some e) :
    k.leafEntry (k₀.mms src).pml4Pa x = some e
      ∧ ∀ j, k.phys (pteGetAddr e) j = k₀.phys (pteGetAddr e) j := by
  have hpath := leafPath_userPath (pml4Idx_user hx)
  refine (h.kept.user src _ (if_pos hs)).page_eq (hpath.of_append) hpath (fun q hq => ?_) he
  exact absurd (Tree.mm.inj hq.1).symm hne

/-- The addresses of a granted call's pages. -/
theorem MapRequest.Paths.addr {v : VmaStruct} (hv : AreaWhole v) {t : Tree} {p : List ℕ}
    (h : v.request.Paths dst t p) : AddrPaths (Tree.mm dst) v.vmStart v.vmEnd t p := by
  obtain ⟨rfl, n, hn, rfl⟩ := h
  have hn' := (hv.hasPage (n * 4096)).mp (by rwa [Nat.mul_div_cancel _ (by decide)])
  exact ⟨rfl, n * 4096, hn'.1, hn'.2, rfl⟩

/-- A granted call has bound every address of the area to a new frame. -/
theorem GrantedMap.frameAt {v : VmaStruct} {km : KMem} {m : Machine}
    (h : GrantedMap live k dst v.request km m) (hv : AreaWhole v) (h1 : v.vmStart ≤ x)
    (h2 : x < v.vmEnd) :
    ∃ pa, m.frameAt (k.mms dst).pml4Pa x = some pa ∧ pa ≠ 0 ∧ ¬ km.pmm.Busy pa := by
  obtain ⟨pa, hpa, hp⟩ := h.takes (x / 4096) ((hv.hasPage x).mpr ⟨h1, h2⟩)
  refine ⟨pa, ?_, hp⟩
  rw [← hpa]
  exact frameAt_congr (leafPath_offset ⟨x / 4096, Nat.mul_comm _ _⟩ (Nat.div_mul_le_self _ _)
    (by unfold pageSize; omega))

/-- The copy after a granted call. Together they leave the destination as it was, the area apart. -/
theorem GrantedMap.copyRange {v : VmaStruct} {km : KMem} {m : Machine}
    (h : GrantedMap live k dst v.request km m) (hv : AreaWhole v) (hd : dst ∈ live)
    (hs : src ∈ live) (hne : dst ≠ src) :
    ∃ m', Machine.copyRange (k.mms dst).pml4Pa (k.mms src).pml4Pa v.rounds v.vmStart m = (true, m')
      ∧ Touches UserPath (k.mms dst).pml4Pa
        (AddrPaths (Tree.mm dst) v.vmStart v.vmEnd (.mm dst)) k.toMachine m'
      ∧ m'.pmm = m.pmm
      ∧ ∀ x, v.vmStart ≤ x → x < v.vmEnd →
        CopiedAt m m' (k.mms dst).pml4Pa (k.mms src).pml4Pa x := by
  obtain ⟨frames, hmapped, -⟩ := h.tree
  have hroots : ∀ a ∈ live, treeRoot km.kernelPml4 frames (k.spaces live) (.mm a)
      = some (k.mms a).pml4Pa := fun a ha => if_pos ha
  have hleaf : ∀ x < 2 ^ 47, IsLeaf (treePath fun _ => False) (.mm dst) (leafPath x)
      ∧ treePath (fun _ => False) (.mm src) (leafPath x) := fun x hx =>
    ⟨isLeaf_leafPath dst (pml4Idx_user hx), leafPath_userPath (pml4Idx_user hx)⟩
  have hrounds := hv.rounds
  obtain ⟨m', hcopy, hk, hpmm, hcopied⟩ := copyRange_deep closed_treePath (hroots dst hd)
    (hroots src hs) (fun hc => hne (Tree.mm.inj hc)) hleaf v.rounds v.vmStart m hmapped.tables
    hv.start (hrounds.le.trans hv.user) (fun x h1 h2 => by
      obtain ⟨pa, hpa, h0, -⟩ := h.frameAt hv h1 (h2.trans_le hrounds.le)
      exact ⟨pa, hpa, h0⟩)
  rw [hrounds] at hk hcopied
  have hheap := h.heap.user dst _ (if_pos hd)
  have hmap := hmapped.touches (.mm dst) _ (hroots dst hd)
  have hrange := hk.touches (.mm dst) _ (hroots dst hd)
  have hbefore := (hheap.mono fun q hq => hq.elim).trans (hmap.mono fun q hq => hq.addr hv)
  exact ⟨m', hcopy, hbefore.trans hrange, hpmm, hcopied⟩

end Areas

section Step

variable {k₀ k k' : Kernel} {live done : List ℕ} {dst src v : ℕ}

theorem Held.vma (h : MmRun.Held ⟨k, live⟩) {a w : ℕ} (ha : a ∈ live)
    (hw : w ∈ (k.mms a).vmaList) : Holds k.heap.kheapList (w, vmaStructSize) :=
  h _ (List.mem_flatMap.mpr ⟨a, ha, List.mem_cons_of_mem _ (List.mem_map_of_mem hw)⟩)

/-- A granted call on the destination: it links an area, away from those there are. -/
theorem Copying.map (h : Copying k₀ k live dst src done) (hd : dst ∈ live) (hs : src ∈ live)
    (hne : dst ≠ src) (hv : AreaWhole (k.vmas v)) (hg : k.Grants dst (k.vmas v).request) :
    ∃ km m' k₁, k.mmMapRange dst (k.vmas v).vmStart
        (u64Sub (k.vmas v).vmEnd (k.vmas v).vmStart) (k.vmas v).vmFlags = some (true, k₁)
      ∧ GrantedMap live k dst (k.vmas v).request km m' ∧ k₁.toMachine = m'
      ∧ SpacesKept (fun _ => False) live (SpacePaths dst) k₀ k₁ ∧ MmRun.Held ⟨k₁, live⟩
      ∧ k₁.mms src = k₀.mms src ∧ (∀ w ∈ (k₀.mms src).vmaList, k₁.vmas w = k₀.vmas w)
      ∧ (k₁.mms dst).vmaList.map k₁.vmas
        = (done.map fun w => { k₀.vmas w with mm := dst }) ++ [{ k.vmas v with mm := dst }] := by
  obtain ⟨hend, hpos⟩ := hv.request_end
  obtain ⟨vma, km, m', hkm, h0, htrue, hmap⟩ := mmMapRange_granted h.kept.inv hd
    (hend.le.trans hv.user) hpos hg
  obtain ⟨frames, hmem⟩ := h.kept.inv.mem
  obtain ⟨-, -, hal⟩ := KMem.kmallocLoop_spec hmem.heapInv hkm
  have hfresh : ∀ a ∈ live, ∀ w ∈ (k.mms a).vmaList, w ≠ vma := fun a ha w hw =>
    (hal (by decide) h0).fresh _ (Held.vma h.held ha hw)
  rw [hv.requestArea_eq] at htrue
  rcases mmMapRange_linked h.kept.inv hd h.held (hend.le.trans hv.user) htrue with
    ⟨hc, -⟩ | ⟨-, hheld⟩
  · cases hc
  have hkept := h.kept.trans (mmMapRange_copy h.kept.inv hd ⟨hv.pos.le, hv.user⟩
    (heapClear_false _) htrue)
  have hvma : ∀ w, w ≠ vma → Function.update k.vmas vma { k.vmas v with mm := dst } w = k.vmas w :=
    fun w hw => Function.update_of_ne hw _ _
  refine ⟨km, m', _, htrue, hmap, rfl, hkept, hheld rfl, ?_, fun w hw => ?_, ?_⟩
  · dsimp only
    rw [Kernel.linkVma_mms, if_neg hne.symm]
    exact h.mms
  · rw [← h.vmas w hw]
    refine hvma w (hfresh src hs w ?_)
    rw [h.mms]
    exact hw
  · dsimp only
    rw [Kernel.linkVma_mms, if_pos rfl, ← h.areas]
    dsimp only
    rw [List.map_append, List.map_singleton]
    congr 1
    · exact List.map_congr_left fun w hw => hvma w (hfresh dst hd w hw)
    · exact congrArg (fun x => [x]) (Function.update_self _ _ _)

/-- One area of the source: it is mapped in the destination, and its pages are copied. -/
theorem Copying.step (h : Copying k₀ k live dst src done) (hd : dst ∈ live) (hs : src ∈ live)
    (hne : dst ≠ src) (hdone : ∀ w ∈ done, AreaWhole (k₀.vmas w)) (hv : AreaWhole (k₀.vmas v))
    (hin : v ∈ (k₀.mms src).vmaList) (hg : k.Grants dst (k.vmas v).request) :
    ∃ k₁ m, k.mmMapRange dst (k.vmas v).vmStart
        (u64Sub (k.vmas v).vmEnd (k.vmas v).vmStart) (k.vmas v).vmFlags = some (true, k₁)
      ∧ Machine.copyRange (k₁.mms dst).pml4Pa (k₁.mms src).pml4Pa (k₁.vmas v).rounds
        (k₁.vmas v).vmStart k₁.toMachine = (true, m)
      ∧ Copying k₀ { k₁ with toMachine := m } live dst src (done ++ [v]) := by
  have hkv := h.vmas v hin
  rw [← hkv] at hv
  obtain ⟨km, m', k₁, htrue, hmap, rfl, hkept₁, hheld, hmms, hvmas, hareas⟩ :=
    h.map hd hs hne hv hg
  obtain ⟨m, hcopy, htouch, hpmm, hcopied⟩ := hmap.copyRange hv hd hs hne
  have hcopy' : Machine.copyRange (k₁.mms dst).pml4Pa (k₁.mms src).pml4Pa (k₁.vmas v).rounds
      (k₁.vmas v).vmStart k₁.toMachine = (true, m) := by
    rw [hkept₁.pml4Pa hd, hkept₁.pml4Pa hs, (hvmas v hin).trans hkv.symm, ← h.kept.pml4Pa hd,
      ← h.kept.pml4Pa hs]
    exact hcopy
  have harea : (k₁.vmas v).vmStart ≤ (k₁.vmas v).vmEnd ∧ (k₁.vmas v).vmEnd ≤ 2 ^ 47 := by
    rw [(hvmas v hin).trans hkv.symm]
    exact ⟨hv.pos.le, hv.user⟩
  have hbusy : ∀ n, k₀.pmm.Busy n → km.pmm.Busy n := fun n hn => hmap.heapBusy n (h.busy n hn)
  rw [h.kept.pml4Pa hd] at htouch
  refine ⟨k₁, m, htrue, hcopy', hkept₁.trans (hkept₁.inv.copyRange hd hs harea hcopy'),
    fun n hn => ?_, hheld, hmms, hvmas, ?_, fun w hw x h1 h2 => ?_⟩
  · rw [hpmm]
    exact hmap.busy n (hbusy n hn)
  · rw [List.map_append, List.map_singleton, ← hkv]
    exact hareas
  by_cases hx : (k.vmas v).vmStart ≤ x ∧ x < (k.vmas v).vmEnd
  · have hc := hcopied x hx.1 hx.2
    obtain ⟨pa, hpa, -, hnb⟩ := hmap.frameAt hv hx.1 hx.2
    rw [h.kept.pml4Pa hd] at hc hpa
    rw [h.kept.pml4Pa hs] at hc
    refine hc.pageCopied (fun e he => ?_) fun pb hpb hb => ?_
    · exact hkept₁.source_page hs hne (hx.2.trans_le hv.user) he
    · obtain rfl := Option.some.inj (hpb.symm.trans hpa)
      exact hnb (hbusy _ hb)
  · have hw : w ∈ done := by
      refine (List.mem_append.mp hw).resolve_right fun hc => ?_
      rw [List.mem_singleton.mp hc, ← hkv] at h1 h2
      exact hx ⟨h1, h2⟩
    have huser : x < 2 ^ 47 := h2.trans_le (hdone w hw).user
    refine (h.pages w hw x h1 h2).later htouch huser ?_
    rintro q ⟨-, y, hy1, hy2, rfl⟩
    refine ⟨y, rfl, leafPath_ne (hy2.trans_le hv.user) huser fun hc => hx ?_⟩
    rw [← hv.hasPage, ← hc, hv.hasPage]
    exact ⟨hy1, hy2⟩

/-- The loop over the remaining areas. -/
theorem Copying.loop (hd : dst ∈ live) (hs : src ∈ live) (hne : dst ≠ src)
    (hwhole : ∀ w ∈ (k₀.mms src).vmaList, AreaWhole (k₀.vmas w)) :
    ∀ (vs : List ℕ) {done : List ℕ} {k : Kernel}, Copying k₀ k live dst src done →
      (∀ w ∈ done ++ vs, w ∈ (k₀.mms src).vmaList) → Kernel.CopyGranted dst src vs k →
      ∃ k', Kernel.mmCopyLoop dst src vs k = some (true, k')
        ∧ Copying k₀ k' live dst src (done ++ vs)
  | [], done, k, h, _, _ => ⟨k, rfl, by rwa [List.append_nil]⟩
  | v :: vs, done, k, h, hin, hg => by
    obtain ⟨hg, hrest⟩ := hg
    have hv := hin v (List.mem_append_right _ List.mem_cons_self)
    obtain ⟨k₁, m, hmap, hcopy, hnext⟩ := h.step hd hs hne
      (fun w hw => hwhole w (hin w (List.mem_append_left _ hw))) (hwhole v hv) hv hg
    rw [hmap] at hrest
    dsimp only at hrest
    rw [hcopy] at hrest
    have happ : done ++ v :: vs = done ++ [v] ++ vs := by simp
    rw [happ] at hin ⊢
    obtain ⟨k', hloop, hk'⟩ := Copying.loop hd hs hne hwhole vs hnext hin hrest
    refine ⟨k', ?_, hk'⟩
    unfold Kernel.mmCopyLoop
    rw [hmap]
    dsimp only
    rw [hcopy]
    exact hloop

end Step

/-- What a deep copy is: every present page of the source's areas has a copy of its own, the areas
are those of the source, and the source with its tables and pages is as it was. -/
structure DeepCopy (k k' : Kernel) (dst src : ℕ) : Prop where
  pages : ∀ v ∈ (k.mms src).vmaList, ∀ x, (k.vmas v).vmStart ≤ x → x < (k.vmas v).vmEnd →
    ∀ e, k.leafEntry (k.mms src).pml4Pa x = some e →
      ∃ e', k'.leafEntry (k'.mms dst).pml4Pa x = some e'
        ∧ (∀ n, k.UserFrame src n → pteGetAddr e' ≠ n)
        ∧ (∀ j, k'.phys (pteGetAddr e') j = k.phys (pteGetAddr e) j)
        ∧ e' &&& 0xFFF#64 = e &&& 0xFFF#64
  areas : (k'.mms dst).vmaList.map k'.vmas
    = (k.mms src).vmaList.map fun v => { k.vmas v with mm := dst }
  source : k'.mms src = k.mms src
  sourceAreas : ∀ v ∈ (k.mms src).vmaList, k'.vmas v = k.vmas v
  sourceTables : ∀ p, UserPath p →
    k'.table (k.mms src).pml4Pa p = k.table (k.mms src).pml4Pa p
      ∧ ∀ n, k.table (k.mms src).pml4Pa p = some n → ∀ j, k'.phys n j = k.phys n j

theorem mmCopy_deep {k : Kernel} {live : List ℕ} {dst src : ℕ}
    (hI : SpacesInv (fun _ => False) live k) (hwhole : AreasWhole live k) (hd : dst ∈ live)
    (hs : src ∈ live) (hfresh : (k.mms dst).vmaList = []) (hheld : MmRun.Held ⟨k, live⟩)
    (hg : Kernel.CopyGranted dst src (k.mms src).vmaList k) :
    ∃ k', k.mmCopy dst src = some (true, k') ∧ DeepCopy k k' dst src := by
  have h0 : ¬ (dst = 0 ∨ src = 0) :=
    not_or.mpr ⟨hI.nonzero dst hd, hI.nonzero src hs⟩
  unfold Kernel.mmCopy
  rw [if_neg h0]
  rcases hlist : (k.mms src).vmaList with _ | ⟨v, vs⟩
  · refine ⟨k, rfl, ?_, ?_, rfl, fun _ _ => rfl, fun p _ => ⟨rfl, fun _ _ _ => rfl⟩⟩
    · rw [hlist]
      exact fun v hv => absurd hv List.not_mem_nil
    · rw [hlist, hfresh]
      rfl
  have hne : dst ≠ src := by
    rintro rfl
    rw [hfresh] at hlist
    cases hlist
  have hstart : Copying k k live dst src [] :=
    ⟨SpacesKept.refl hI, fun _ hn => hn, hheld, rfl, fun _ _ => rfl, by rw [hfresh]; rfl,
      fun w hw => absurd hw List.not_mem_nil⟩
  obtain ⟨k', hloop, h⟩ := Copying.loop hd hs hne (fun w hw => hwhole src hs w hw)
    (k.mms src).vmaList hstart (fun _ hw => hw) hg
  rw [← hlist]
  refine ⟨k', hloop, fun w hw x h1 h2 e he => ?_, h.areas, h.mms, h.vmas, fun p hp => ?_⟩
  · obtain ⟨e', c1, c2, c3⟩ := h.pages w hw x h1 h2 e he
    rw [h.kept.pml4Pa hd]
    refine ⟨e', c1, ?_, c3⟩
    rintro n ⟨p, hp, hn⟩ rfl
    exact c2 ((hI.isolated (s := ⟨k, live⟩)).busy src hs p _ hp hn)
  · refine (h.kept.kept.user src _ (if_pos hs)).spares hp fun q hq _ => ?_
    exact hne (Tree.mm.inj hq.1).symm

/-! ## Runs -/

/-- Areas made by the step come from calls on the user half, as do those it links. -/
structure AreasGrow (k k' : Kernel) : Prop where
  vmas : ∀ w, k'.vmas w = k.vmas w ∨ AreaWhole (k'.vmas w)
  lists : ∀ a, ∀ w ∈ (k'.mms a).vmaList, w ∈ (k.mms a).vmaList ∨ AreaWhole (k'.vmas w)

section Grow

variable {k k' k'' : Kernel} {live : List ℕ} {mm : ℕ} {ok : Bool}

theorem AreasGrow.of_eq (hvmas : k'.vmas = k.vmas) (hmms : k'.mms = k.mms) : AreasGrow k k' :=
  ⟨fun w => .inl (congrFun hvmas w), fun a w hw => .inl (by rwa [hmms] at hw)⟩

theorem AreasGrow.whole (h : AreasGrow k k') {w : ℕ} (hw : AreaWhole (k.vmas w)) :
    AreaWhole (k'.vmas w) := by
  rcases h.vmas w with h1 | h1
  · rwa [h1]
  · exact h1

theorem AreasGrow.trans (h : AreasGrow k k') (h' : AreasGrow k' k'') : AreasGrow k k'' where
  vmas w := by
    rcases h'.vmas w with h1 | h1
    · rw [h1]
      exact h.vmas w
    · exact .inr h1
  lists a w hw := by
    rcases h'.lists a w hw with h1 | h1
    · exact (h.lists a w h1).imp_right h'.whole
    · exact .inr h1

theorem AreasGrow.areasWhole (h : AreasGrow k k') (hk : AreasWhole live k) :
    AreasWhole live k' := fun a ha w hw =>
  (h.lists a w hw).elim (fun h1 => h.whole (hk a ha w h1)) id

theorem linkVma_grow (k : Kernel) (mm vma : ℕ) {v : VmaStruct} (hv : AreaWhole v) :
    AreasGrow k (k.linkVma mm vma v) := by
  have hvma : (k.linkVma mm vma v).vmas = Function.update k.vmas vma v := rfl
  refine ⟨fun w => ?_, fun a w hw => ?_⟩
  · rw [hvma]
    by_cases hw : w = vma
    · rw [hw, Function.update_self]
      exact .inr hv
    · exact .inl (Function.update_of_ne hw _ _)
  · rw [Kernel.linkVma_mms] at hw
    split_ifs at hw with ha
    · rcases List.mem_append.mp hw with hw | hw
      · exact .inl (ha ▸ hw)
      · rw [List.mem_singleton.mp hw, hvma, Function.update_self]
        exact .inr hv
    · exact .inl hw

theorem mapArea_vmas (k : Kernel) (mm vma : ℕ) (v : VmaStruct) :
    (k.mapArea mm vma v).2.vmas = (k.linkVma mm vma v).vmas := by
  unfold Kernel.mapArea
  dsimp only
  split <;> rfl

theorem mmMapRange_grow {va size : ℕ} {vmFlags : BitVec 64} (hva : va + size ≤ 2 ^ 47)
    (h : k.mmMapRange mm va size vmFlags = some (ok, k')) : AreasGrow k k' := by
  rcases mmMapRange_cases h with ⟨-, -, rfl⟩ | ⟨-, hs, vma, km, -, ⟨-, -, rfl⟩ | ⟨-, hmap⟩⟩
  · exact .of_eq rfl rfl
  · exact .of_eq rfl rfl
  · have hmms := mapArea_mms { k with toKMem := km } mm vma (requestArea mm va size vmFlags)
    have hvmas := mapArea_vmas { k with toKMem := km } mm vma (requestArea mm va size vmFlags)
    rw [hmap] at hmms hvmas
    have hheap : AreasGrow k { k with toKMem := km } := .of_eq rfl rfl
    have hwhole : AreaWhole (requestArea mm va size vmFlags) := requestArea_whole hva hs
    have hlink := linkVma_grow { k with toKMem := km } mm vma hwhole
    exact (hheap.trans hlink).trans (.of_eq hvmas hmms)

theorem mmFree_grow (k : Kernel) (mm : ℕ) : AreasGrow k (k.mmFree mm) := by
  obtain ⟨heap, hheap⟩ := foldl_kfree_eq (k.mms mm).vmaList k
  unfold Kernel.mmFree Kernel.releaseTables
  dsimp only
  rw [hheap]
  split_ifs <;> exact .of_eq rfl rfl

theorem mmCopyLoop_grow {dst src : ℕ} : ∀ {vs : List ℕ} {k : Kernel},
    (∀ v ∈ vs, AreaWhole (k.vmas v)) → Kernel.mmCopyLoop dst src vs k = some (ok, k') →
    AreasGrow k k'
  | [], k, _, h => by
    simp only [Kernel.mmCopyLoop, Option.some.injEq, Prod.mk.injEq] at h
    exact h.2 ▸ .of_eq rfl rfl
  | v :: vs, k, hvs, h => by
    unfold Kernel.mmCopyLoop at h
    obtain ⟨hend, -⟩ := (hvs v List.mem_cons_self).request_end
    have hva := hend.le.trans (hvs v List.mem_cons_self).user
    rcases hmap : k.mmMapRange dst (k.vmas v).vmStart
      (u64Sub (k.vmas v).vmEnd (k.vmas v).vmStart) (k.vmas v).vmFlags with _ | ⟨_ | _, k₁⟩ <;>
      rw [hmap] at h
    · cases h
    · obtain ⟨-, rfl⟩ := Prod.mk.inj (Option.some.inj h)
      exact (mmMapRange_grow hva hmap).trans (mmFree_grow k₁ dst)
    · have h₁ := mmMapRange_grow hva hmap
      dsimp only at h
      rcases hc : Machine.copyRange (k₁.mms dst).pml4Pa (k₁.mms src).pml4Pa (k₁.vmas v).rounds
        (k₁.vmas v).vmStart k₁.toMachine with ⟨_ | _, m⟩ <;> rw [hc] at h
      · obtain ⟨-, rfl⟩ := Prod.mk.inj (Option.some.inj h)
        have h₂ : AreasGrow k₁ { k₁ with toMachine := m } := .of_eq rfl rfl
        exact (h₁.trans h₂).trans (mmFree_grow _ dst)
      · have h₂ : AreasGrow k₁ { k₁ with toMachine := m } := .of_eq rfl rfl
        exact (h₁.trans h₂).trans
          (mmCopyLoop_grow (fun w hw => h₁.whole (hvs w (List.mem_cons_of_mem v hw))) h)

theorem mmCopy_grow {dst src : ℕ} (hk : AreasWhole live k) (hs : src ∈ live)
    (h : k.mmCopy dst src = some (ok, k')) : AreasGrow k k' := by
  unfold Kernel.mmCopy at h
  split_ifs at h
  · obtain ⟨-, rfl⟩ := Prod.mk.inj (Option.some.inj h)
    exact .of_eq rfl rfl
  · exact mmCopyLoop_grow (fun v hv => hk src hs v hv) h

theorem mmAlloc_grow (h : k.mmAlloc = some (mm, k')) : AreasGrow k k' := by
  unfold Kernel.mmAlloc at h
  rcases hk : KMem.kmalloc mmStructSize k.toKMem with _ | ⟨a, km⟩ <;> rw [hk] at h
  · cases h
  have hset : ∀ (k : Kernel) (s : MmStruct), s.vmaList = [] → AreasGrow k (k.setMm a s) := by
    intro k s hs
    refine ⟨fun w => .inl rfl, fun b w hw => .inl ?_⟩
    by_cases hb : b = a
    · rw [hb, Kernel.setMm_self, hs] at hw
      cases hw
    · rwa [Kernel.setMm_of_ne k s hb] at hw
  have hheap : AreasGrow k { k with toKMem := km } := .of_eq rfl rfl
  have h₁ := hheap.trans (hset { k with toKMem := km } {} rfl)
  dsimp only at h
  split_ifs at h with ha hp
  · obtain ⟨-, rfl⟩ := Prod.mk.inj (Option.some.inj h)
    exact .of_eq rfl rfl
  · obtain ⟨-, rfl⟩ := Prod.mk.inj (Option.some.inj h)
    exact h₁.trans (.of_eq rfl rfl)
  · obtain ⟨-, rfl⟩ := Prod.mk.inj (Option.some.inj h)
    refine h₁.trans (AreasGrow.trans ?_ (hset _ _ rfl))
    exact .of_eq rfl rfl

end Grow

/-- A call on the address spaces, or a store to the user half of one. -/
inductive MemOp
  | call (op : MmOp)
  | store (mm va n : ℕ) (byte : ℕ → UInt8)

def memStep (s : MmRun) : MemOp → Option MmRun
  | .call op => mmStep s op
  | .store mm va n byte =>
    if mm ∈ s.live ∧ va < 2 ^ 47 then
      (s.k.toMachine.store (s.k.mms mm).pml4Pa va n byte).map fun m =>
        ⟨{ s.k with toMachine := m }, s.live⟩
    else none

def MemOk (s : MmRun) : MemOp → Prop
  | .call op => MmOk s op
  | .store _ _ _ _ => True

instance (s : MmRun) : (op : MemOp) → Decidable (MemOk s op)
  | .call op => inferInstanceAs (Decidable (MmOk s op))
  | .store _ _ _ _ => isTrue trivial

theorem mmStep_whole (s : MmRun) (op : MmOp) (s' : MmRun)
    (hI : SpacesInv (fun _ => False) s.live s.k) (hk : AreasWhole s.live s.k) (hok : MmOk s op)
    (h : mmStep s op = some s') : AreasWhole s'.live s'.k := by
  cases op with
  | mmAlloc =>
    obtain ⟨⟨mm, k'⟩, hr, rfl⟩ := Option.map_eq_some_iff.mp h
    have hk' := (mmAlloc_grow hr).areasWhole hk
    have hheld : ∀ a ∈ s.live, Holds s.k.heap.kheapList (a, mmStructSize) := fun a ha =>
      hok _ (List.mem_flatMap.mpr ⟨a, ha, List.mem_cons_self⟩)
    obtain ⟨-, hnew⟩ := mmAlloc_kept (T := fun _ _ => False) hI hheld (heapClear_false _) hr
    dsimp only
    split_ifs with h0
    · exact hk'
    · intro a ha v hv
      rcases List.mem_cons.mp ha with rfl | ha
      · rw [(hnew h0).2.2.1] at hv
        cases hv
      · exact hk' a ha v hv
  | mmMapRange mm va size vmFlags =>
    unfold mmStep at h
    dsimp only at h
    split_ifs at h with hc
    obtain ⟨⟨ok, k'⟩, hr, rfl⟩ := Option.map_eq_some_iff.mp h
    exact (mmMapRange_grow hc.2 hr).areasWhole hk
  | mmCopy dst src =>
    unfold mmStep at h
    dsimp only at h
    split_ifs at h with hc
    obtain ⟨⟨ok, k'⟩, hr, rfl⟩ := Option.map_eq_some_iff.mp h
    have hk' := (mmCopy_grow hk hc.2.1 hr).areasWhole hk
    dsimp only
    split_ifs
    · exact hk'
    · exact fun a ha => hk' a (List.mem_of_mem_erase ha)
  | mmFree mm =>
    unfold mmStep at h
    dsimp only at h
    split_ifs at h with hc
    simp only [Option.some.injEq] at h
    subst h
    exact fun a ha => (mmFree_grow s.k mm).areasWhole hk a (List.mem_of_mem_erase ha)

/-- What holds of the live address spaces in every run. -/
structure MmRun.Sound (s : MmRun) : Prop where
  spaces : SpacesInv (fun _ => False) s.live s.k
  whole : AreasWhole s.live s.k

theorem memStep_sound (s : MmRun) (op : MemOp) (s' : MmRun) (hI : s.Sound) (hok : MemOk s op)
    (h : memStep s op = some s') : s'.Sound := by
  cases op with
  | call op => exact ⟨mmStep_inv s op s' hI.spaces hok h, mmStep_whole s op s' hI.1 hI.2 hok h⟩
  | store mm va n byte =>
    unfold memStep at h
    dsimp only at h
    split_ifs at h with hc
    obtain ⟨m, hm, rfl⟩ := Option.map_eq_some_iff.mp h
    exact ⟨(hI.spaces.store hc.1 hc.2 hm).1.inv, hI.whole⟩

/-- In every run that calls `kmalloc` only while every live structure is in a block in use, a copy
whose allocations succeed is deep. -/
theorem copy_deep (hhdm : ℕ) (img : KernelImage) (mmap : List MemmapEntry) (pgnum : ℕ)
    (phys : PhysMem) (ops : List MemOp) {k : Kernel} {s : MmRun} {dst src : ℕ}
    (hfit : MemoryFits mmap) (hboot : bootMemory hhdm img mmap pgnum phys = some k)
    (hok : Run.Meets memStep MemOk ⟨k, []⟩ ops) (h : Run.run memStep ⟨k, []⟩ ops = some s)
    (hd : dst ∈ s.live) (hs : src ∈ s.live) (hfresh : (s.k.mms dst).vmaList = [])
    (hheld : MemOk s (.call (.mmCopy dst src)))
    (hg : Kernel.CopyGranted dst src (s.k.mms src).vmaList s.k) :
    ∃ k', s.k.mmCopy dst src = some (true, k') ∧ DeepCopy s.k k' dst src := by
  have h₀ : MmRun.Sound ⟨k, []⟩ :=
    ⟨bootMemory_inv hfit (bootClear_false _ _ _) (heapClear_false _) hboot,
      fun a ha => absurd ha List.not_mem_nil⟩
  have hI := Run.run_invariant_of_meets memStep_sound h₀ hok h
  exact mmCopy_deep hI.spaces hI.whole hd hs hfresh hheld hg

/-- Two areas that share a page, in which bytes have been stored. -/
def smallMemOps : List MemOp :=
  [.call .mmAlloc, .call .mmAlloc, .call (.mmMapRange firstMm 0x400100 0x1000 vmWrite),
    .call (.mmMapRange firstMm 0x401000 0x1000 vmRead),
    .store firstMm 0x400FFE 4 fun i => i.toUInt8]

theorem copy_deep_bootKernel :
    ∃ k s k', bootKernel = some k ∧ Run.run memStep ⟨k, []⟩ smallMemOps = some s
      ∧ s.k.mmCopy secondMm firstMm = some (true, k') ∧ DeepCopy s.k k' secondMm firstMm := by
  have hrun : (bootKernel.bind fun k => (Run.run memStep ⟨k, []⟩ smallMemOps).map fun s =>
      (decide (Run.Meets memStep MemOk ⟨k, []⟩ smallMemOps), decide (secondMm ∈ s.live),
        decide (firstMm ∈ s.live), (s.k.mms secondMm).vmaList,
        decide (MemOk s (.call (.mmCopy secondMm firstMm))),
        decide (Kernel.CopyGranted secondMm firstMm (s.k.mms firstMm).vmaList s.k)))
      = some (true, true, true, [], true, true) := by
    decide +kernel
  obtain ⟨k, hk, hrun⟩ := Option.bind_eq_some_iff.mp hrun
  obtain ⟨s, hs, hrun⟩ := Option.map_eq_some_iff.mp hrun
  obtain ⟨hok, hd, hsrc, hfresh, hheld, hg⟩ : _ ∧ _ ∧ _ ∧ _ ∧ _ ∧ _ := by
    simpa only [Prod.mk.injEq] using hrun
  obtain ⟨k', hk', hdeep⟩ := copy_deep 0xFFFF800000000000 ⟨0xFFFFFFFF80000000, 0, 0⟩ bootMmap 1
    (fun _ _ => 0#64) smallMemOps (by unfold MemoryFits; decide) hk (of_decide_eq_true hok) hs
    (of_decide_eq_true hd) (of_decide_eq_true hsrc) hfresh (of_decide_eq_true hheld)
    (of_decide_eq_true hg)
  exact ⟨k, s, k', hk, hs, hk', hdeep⟩

/-- The release of the fifth address space absorbs the block of the third one's first area, and the
copy of the third into the fourth makes its second area there. -/
def absorbingOps : List MmOp :=
  [.mmAlloc, .mmAlloc, .mmAlloc, .mmAlloc, .mmAlloc, .mmFree firstMm,
    .mmMapRange (kernelHeapBase + 576) 0x400000 0x1000 vmRead,
    .mmMapRange (kernelHeapBase + 304) 0x400000 0x1000 vmRead,
    .mmMapRange (kernelHeapBase + 304) 0x500000 0x1000 vmRead,
    .mmFree (kernelHeapBase + 576)]

theorem copy_overwrites_source :
    ∃ k s k', bootKernel = some k ∧ MemoryFits bootMmap
      ∧ Run.run mmStep ⟨k, []⟩ absorbingOps = some s
      ∧ kernelHeapBase + 440 ∈ s.live ∧ kernelHeapBase + 304 ∈ s.live
      ∧ (s.k.mms (kernelHeapBase + 440)).vmaList = []
      ∧ Kernel.CopyGranted (kernelHeapBase + 440) (kernelHeapBase + 304)
        (s.k.mms (kernelHeapBase + 304)).vmaList s.k
      ∧ s.k.mmCopy (kernelHeapBase + 440) (kernelHeapBase + 304) = some (true, k')
      ∧ ¬ DeepCopy s.k k' (kernelHeapBase + 440) (kernelHeapBase + 304) := by
  have hrun : (bootKernel.bind fun k => (Run.run mmStep ⟨k, []⟩ absorbingOps).bind fun s =>
      (s.k.mmCopy (kernelHeapBase + 440) (kernelHeapBase + 304)).map fun r =>
        (decide (kernelHeapBase + 440 ∈ s.live ∧ kernelHeapBase + 304 ∈ s.live
            ∧ (s.k.mms (kernelHeapBase + 440)).vmaList = []
            ∧ Kernel.CopyGranted (kernelHeapBase + 440) (kernelHeapBase + 304)
              (s.k.mms (kernelHeapBase + 304)).vmaList s.k
            ∧ kernelHeapBase + 112 ∈ (s.k.mms (kernelHeapBase + 304)).vmaList), r.1,
          (s.k.vmas (kernelHeapBase + 112)).vmStart, (r.2.vmas (kernelHeapBase + 112)).vmStart))
      = some (true, true, 0x400000, 0x500000) := by
    decide +kernel
  obtain ⟨k, hk, hrun⟩ := Option.bind_eq_some_iff.mp hrun
  obtain ⟨s, hs, hrun⟩ := Option.bind_eq_some_iff.mp hrun
  obtain ⟨⟨ok, k'⟩, hr, hrun⟩ := Option.map_eq_some_iff.mp hrun
  obtain ⟨hstate, rfl, hold, hnew⟩ : _ ∧ ok = true ∧ _ ∧ _ := by
    simpa only [Prod.mk.injEq] using hrun
  obtain ⟨hd, hsrc, hfresh, hg, hin⟩ := of_decide_eq_true hstate
  refine ⟨k, s, k', hk, by unfold MemoryFits; decide, hs, hd, hsrc, hfresh, hg, hr, fun h => ?_⟩
  have harea := h.sourceAreas _ hin
  rw [harea, hold] at hnew
  cases hnew

end SudoOS
