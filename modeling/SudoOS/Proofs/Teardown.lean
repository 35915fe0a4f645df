import SudoOS.Proofs.MapSuccess

/-!
# Taking an address space down

`user_pgtable_free_recursive` releases the frames of `freedFrames`, one after the other. In a tree
no frame is reached twice, so each is released once. The other side are the frames that the calls
before it have taken: `Gains` says of a step that every frame it takes is a node of the tree
afterwards, and every node it adds is such a frame.
-/

namespace SudoOS

/-! ## What is released -/

/-- The frames that `user_pgtable_free_recursive` releases, in its order. -/
def freedFrames (ph : PhysMem) : ℕ → ℕ → List ℕ
  | 0, _ => []
  | level + 1, t =>
    (List.range (if level + 1 = 4 then 256 else 512)).flatMap fun i =>
      if isPresent (ph t i) then freedFrames ph level (pteGetAddr (ph t i)) ++ [pteGetAddr (ph t i)]
      else []

theorem foldl_flatMap_pmm {f : ℕ → List ℕ} {g : Pmm → ℕ → Pmm}
    (h : ∀ p i, g p i = (f i).foldl Pmm.pmmFreePage p) : ∀ (is : List ℕ) (p : Pmm),
    is.foldl g p = (is.flatMap f).foldl Pmm.pmmFreePage p
  | [], _ => rfl
  | i :: is, p => by
    rw [List.foldl_cons, List.flatMap_cons, List.foldl_append, h, foldl_flatMap_pmm h is]

theorem userPgtableFreeRecursive_eq (ph : PhysMem) : ∀ (level t : ℕ) (p : Pmm),
    userPgtableFreeRecursive ph level t p = (freedFrames ph level t).foldl Pmm.pmmFreePage p
  | 0, _, _ => rfl
  | level + 1, t, p => by
    unfold userPgtableFreeRecursive freedFrames
    refine foldl_flatMap_pmm (fun p i => ?_) _ p
    have hrec : (if level + 1 > 1 then userPgtableFreeRecursive ph level (pteGetAddr (ph t i)) p
        else p) = (freedFrames ph level (pteGetAddr (ph t i))).foldl Pmm.pmmFreePage p := by
      split_ifs with h
      · exact userPgtableFreeRecursive_eq ph level _ p
      · obtain rfl : level = 0 := by omega
        rfl
    dsimp only
    rw [hrec]
    by_cases hpr : isPresent (ph t i) = true
    · rw [if_pos hpr, if_pos hpr, List.foldl_append]
      rfl
    · rw [if_neg hpr, if_neg hpr]
      rfl

theorem mem_freedFrames {ph : PhysMem} {n : ℕ} : ∀ {level t : ℕ}, level ≤ 4 →
    (n ∈ freedFrames ph level t
      ↔ ∃ q, Below level q ∧ Radix.walk (tableChild ph) t q = some n)
  | 0, t, _ => by
    simp only [freedFrames, List.not_mem_nil, false_iff, not_exists, not_and]
    rintro q ⟨hne, hlen, -⟩
    exact absurd (List.length_eq_zero_iff.mp (by omega)) hne
  | level + 1, t, hl => by
    have hentry : ∀ i, (n ∈ (if isPresent (ph t i) then
        freedFrames ph level (pteGetAddr (ph t i)) ++ [pteGetAddr (ph t i)] else []))
          ↔ ∃ q, (q = [] ∨ Below level q) ∧ Radix.walk (tableChild ph) t (i :: q) = some n := by
      intro i
      by_cases hpr : isPresent (ph t i) = true
      · simp only [if_pos hpr, List.mem_append, List.mem_singleton, Radix.walk, tableChild,
          Option.bind_some, or_and_right, exists_or, exists_eq_left, Option.some.injEq,
          mem_freedFrames (show level ≤ 4 by omega)]
        rw [or_comm, eq_comm]
      · simp [if_neg hpr, Radix.walk, tableChild]
    rw [freedFrames, List.mem_flatMap]
    simp only [hentry]
    constructor
    · rintro ⟨i, hi, q, hq, hw⟩
      exact ⟨i :: q, (below_cons hl).mpr ⟨hi, hq⟩, hw⟩
    · rintro ⟨_ | ⟨i, q⟩, hq, hw⟩
      · exact absurd rfl hq.1
      · obtain ⟨hi, hq⟩ := (below_cons hl).mp hq
        exact ⟨i, hi, q, hq, hw⟩

/-- Below a table no two paths of the walk lead to one frame. -/
def WalksApart (ph : PhysMem) (level t : ℕ) : Prop :=
  ∀ q q' n, Below level q → Below level q' → Radix.walk (tableChild ph) t q = some n →
    Radix.walk (tableChild ph) t q' = some n → q = q'

theorem freedFrames_nodup (ph : PhysMem) : ∀ {level t : ℕ}, level ≤ 4 → WalksApart ph level t →
    (freedFrames ph level t).Nodup
  | 0, t, _, _ => List.nodup_nil
  | level + 1, t, hl, h => by
    have hl' : level ≤ 4 := by omega
    have hwalk : ∀ {i q n}, isPresent (ph t i) = true →
        Radix.walk (tableChild ph) (pteGetAddr (ph t i)) q = some n →
        Radix.walk (tableChild ph) t (i :: q) = some n := by
      intro i q n hpr hq
      simp only [Radix.walk, tableChild, if_pos hpr, Option.bind_some]
      exact hq
    rw [freedFrames, List.nodup_flatMap]
    refine ⟨fun i hi => ?_, ?_⟩
    · split_ifs with hpr
      · have hsub : WalksApart ph level (pteGetAddr (ph t i)) := by
          intro q q' n hq hq' hw hw'
          exact (List.cons_eq_cons.mp (h (i :: q) (i :: q') n
            ((below_cons hl).mpr ⟨hi, .inr hq⟩) ((below_cons hl).mpr ⟨hi, .inr hq'⟩)
            (hwalk hpr hw) (hwalk hpr hw'))).2
        refine List.nodup_append.mpr ⟨freedFrames_nodup ph hl' hsub, List.nodup_singleton _, ?_⟩
        rintro n hn m hm rfl
        rw [List.mem_singleton] at hm
        obtain ⟨q, hq, hw⟩ := (mem_freedFrames hl').mp hn
        have := h (i :: q) [i] n ((below_cons hl).mpr ⟨hi, .inr hq⟩)
          ((below_cons hl).mpr ⟨hi, .inl rfl⟩) (hwalk hpr hw) (hwalk hpr (congrArg some hm.symm))
        exact hq.1 (List.cons_eq_cons.mp this).2
      · exact List.nodup_nil
    · have hpath : ∀ i ∈ List.range (if level + 1 = 4 then 256 else 512), ∀ n,
          n ∈ (if isPresent (ph t i) then
            freedFrames ph level (pteGetAddr (ph t i)) ++ [pteGetAddr (ph t i)] else []) →
          ∃ q, Below (level + 1) (i :: q) ∧ Radix.walk (tableChild ph) t (i :: q) = some n := by
        intro i hi n hn
        split_ifs at hn with hpr
        · rcases List.mem_append.mp hn with hn | hn
          · obtain ⟨q, hq, hw⟩ := (mem_freedFrames hl').mp hn
            exact ⟨q, (below_cons hl).mpr ⟨hi, .inr hq⟩, hwalk hpr hw⟩
          · rw [List.mem_singleton] at hn
            exact ⟨[], (below_cons hl).mpr ⟨hi, .inl rfl⟩, hwalk hpr (congrArg some hn.symm)⟩
        · cases hn
      refine List.nodup_range.imp_of_mem fun {i j} hi hj hij => ?_
      rintro n hn hn'
      obtain ⟨q, hq, hw⟩ := hpath i hi n hn
      obtain ⟨q', hq', hw'⟩ := hpath j hj n hn'
      exact hij (List.cons_eq_cons.mp (h _ _ n hq hq' hw hw')).1

/-! ## What is taken -/

section Gains

variable {K : Type*} {root : K → Option ℕ} {adm : K → List ℕ → Prop} {k₀ : K}
  {m m' m'' : Machine} {pml4 va : ℕ} {flags : BitVec 64}

variable (root adm k₀) in
/-- The frames that the step takes are nodes of tree `k₀` from then on, and it adds no others. -/
structure Gains (m m' : Machine) : Prop where
  busy : ∀ n, m.pmm.Busy n → m'.pmm.Busy n
  kept : ∀ p n, adm k₀ p → m.node root k₀ p = some n → m'.node root k₀ p = some n
  added : ∀ p n, adm k₀ p → m'.node root k₀ p = some n →
    m.node root k₀ p = some n ∨ ¬ m.pmm.Busy n
  taken : ∀ n, m'.pmm.Busy n → m.pmm.Busy n ∨ ∃ p, adm k₀ p ∧ m'.node root k₀ p = some n

theorem Gains.refl (m : Machine) : Gains root adm k₀ m m :=
  ⟨fun _ h => h, fun _ _ _ h => h, fun _ _ _ h => .inl h, fun _ h => .inl h⟩

theorem Gains.trans (h : Gains root adm k₀ m m') (h' : Gains root adm k₀ m' m'') :
    Gains root adm k₀ m m'' where
  busy n hn := h'.busy n (h.busy n hn)
  kept p n hp hn := h'.kept p n hp (h.kept p n hp hn)
  added p n hp hn := by
    rcases h'.added p n hp hn with h1 | h1
    · exact h.added p n hp h1
    · exact .inr fun hb => h1 (h.busy n hb)
  taken n hn := by
    rcases h'.taken n hn with h1 | h1
    · rcases h.taken n h1 with h2 | ⟨p, hp, h2⟩
      · exact .inl h2
      · exact .inr ⟨p, hp, h'.kept p n hp h2⟩
    · exact .inr h1

/-- Every frame taken on a way down is a table on it. -/
theorem nextTables_taken (hadm : Radix.Closed adm) (hf : FlagsOk flags) :
    ∀ (is : List ℕ) (m : Machine) (p₀ : List ℕ) (t : ℕ), Owned root adm m →
      m.node root k₀ p₀ = some t → adm k₀ (p₀ ++ is) → (m.nextTables true flags t is).1 ≠ none →
      ∀ n, (m.nextTables true flags t is).2.pmm.Busy n → m.pmm.Busy n
        ∨ ∃ p, p <+: p₀ ++ is ∧ (m.nextTables true flags t is).2.node root k₀ p = some n
  | [], m, p₀, t, _, _, _, _, n, hb => .inl hb
  | i :: is, m, p₀, t, hO, hn, hp, hsome, n, hb => by
    have hP : p₀ ++ i :: is = p₀ ++ [i] ++ is := by simp
    rw [hP] at hp ⊢
    obtain ⟨h1, h2, h3⟩ := getNextTable_spec hadm hO hn (hadm.of_append is hp) hf
    simp only [Machine.nextTables] at hsome hb ⊢
    rcases getNextTable_cases m t i flags with ⟨x, -, he⟩ | ⟨-, -, he⟩ | ⟨-, h0, he⟩ <;>
      rw [he] at h1 h2 h3 hsome hb ⊢
    · exact nextTables_taken hadm hf is m (p₀ ++ [i]) x hO (h3 x rfl) hp hsome n hb
    · exact absurd rfl hsome
    · have hx := h3 _ rfl
      rcases nextTables_taken hadm hf is _ (p₀ ++ [i]) _ h1 hx hp hsome n hb with hb | hpath
      · obtain ⟨-, -, -, a4⟩ := Pmm.pmmAllocPage_spec hO.pmm
        rcases ((a4 h0).2 n).mp hb with hb | rfl
        · exact .inl hb
        · obtain ⟨-, hG, -⟩ := nextTables_spec hadm hf is _ (p₀ ++ [i]) _ h1 hx hp
          exact .inr ⟨p₀ ++ [i], List.prefix_append _ _,
            hG.kept k₀ _ _ (hadm.of_append is hp) hx⟩
      · exact .inr hpath

theorem mapNext_kept (hadm : Radix.Closed adm) (h : TablesOk root adm m)
    (hroot : root k₀ = some pml4) (hleaf : IsLeaf adm k₀ (leafPath va)) (hf : FlagsOk flags)
    (h0 : (m.pmm.pmmAllocPage).1 ≠ 0) :
    Kept root adm (fun k p => k = k₀ ∧ p = leafPath va) m (m.mapNext pml4 va flags) := by
  have halloc := h.alloc (T := fun k p => k = k₀ ∧ p = leafPath va) hadm
  obtain ⟨-, -, -, a4⟩ := Pmm.pmmAllocPage_spec h.pmm
  obtain ⟨hv, hbusy⟩ := a4 h0
  exact halloc.trans (vmmMapPage_leaf hadm halloc.tables hroot hleaf hf
    ((hbusy _).mpr (.inr rfl)) (h.fresh_of_vacant hv))

/-- A leaf is added last: the page taken for it before the tables. -/
theorem Gains.leaf {m₁ m₂ : Machine} {pmm : Pmm} {pa : ℕ}
    (h : Gains root adm k₀ { m with pmm := pmm } m₁)
    (hbusy : ∀ n, pmm.Busy n ↔ m.pmm.Busy n ∨ n = pa) (hpa : ¬ m.pmm.Busy pa)
    (hpmm : m₂.pmm = m₁.pmm) (hin : ∃ p, adm k₀ p ∧ m₂.node root k₀ p = some pa)
    (hkeep : ∀ p n, adm k₀ p → m₁.node root k₀ p = some n → m₂.node root k₀ p = some n)
    (hadded : ∀ p n, adm k₀ p → m₂.node root k₀ p = some n →
      n = pa ∨ m₁.node root k₀ p = some n) : Gains root adm k₀ m m₂ where
  busy n hn := hpmm ▸ h.busy n ((hbusy n).mpr (.inl hn))
  kept p n hp hn := hkeep p n hp (h.kept p n hp hn)
  added p n hp hn := by
    rcases hadded p n hp hn with rfl | h1
    · exact .inr hpa
    · exact (h.added p n hp h1).imp_right fun hnb hb => hnb ((hbusy n).mpr (.inl hb))
  taken n hn := by
    rw [hpmm] at hn
    rcases h.taken n hn with hb | ⟨p, hp, hpn⟩
    · rcases (hbusy n).mp hb with hb | rfl
      · exact .inl hb
      · exact .inr hin
    · exact .inr ⟨p, hp, hkeep p n hp hpn⟩

/-- A round whose allocations are granted has the tables for its page, and then writes one entry. -/
theorem mapNext_tables (hadm : Radix.Closed adm) (h : TablesOk root adm m)
    (hroot : root k₀ = some pml4) (hleaf : IsLeaf adm k₀ (leafPath va)) (hf : FlagsOk flags)
    (htables : (Machine.nextTables { m with pmm := (m.pmm.pmmAllocPage).2 } true flags pml4
      (tablePath va)).1 ≠ none) :
    ∃ pt m₁, m.mapNext pml4 va flags
        = m₁.setEntry pt (ptIdx va) (BitVec.ofNat 64 (m.pmm.pmmAllocPage).1 ||| flags)
      ∧ m₁.node root k₀ (tablePath va) = some pt ∧ TablesOk root adm m₁
      ∧ Grown root adm flags { m with pmm := (m.pmm.pmmAllocPage).2 } m₁ k₀ (tablePath va)
      ∧ Gains root adm k₀ { m with pmm := (m.pmm.pmmAllocPage).2 } m₁ := by
  have hP : adm k₀ (tablePath va) := hadm _ _ _ hleaf.1
  have halloc := h.alloc (T := fun k p => k = k₀ ∧ p = leafPath va) hadm
  have hroot' : Machine.node { m with pmm := (m.pmm.pmmAllocPage).2 } root k₀ [] = some pml4 :=
    (Radix.node_nil _ _ _).trans hroot
  obtain ⟨hO, hG, hpt⟩ := nextTables_spec hadm hf (tablePath va)
    { m with pmm := (m.pmm.pmmAllocPage).2 } [] pml4 halloc.tables.toOwned hroot' hP
  have htaken := nextTables_taken hadm hf (tablePath va)
    { m with pmm := (m.pmm.pmmAllocPage).2 } [] pml4 halloc.tables.toOwned hroot' hP htables
  rcases hr : Machine.nextTables { m with pmm := (m.pmm.pmmAllocPage).2 } true flags pml4
    (tablePath va) with ⟨_ | pt, m₁⟩
  · rw [hr] at htables
    exact absurd rfl htables
  rw [hr] at hO hG hpt htaken
  have hk := hG.toKept (T := fun k p => k = k₀ ∧ p = leafPath va) hadm hf hP
    ⟨_, ⟨rfl, rfl⟩, List.prefix_append _ _⟩ halloc.tables hO
  refine ⟨pt, m₁, vmmMapPage_eq hf hr, hpt pt rfl, hk.tables, hG, hG.busy, hG.kept k₀,
    fun p n hp hn => ?_, fun n hn => (htaken n hn).imp_right fun ⟨p, ⟨q, hq⟩, hpn⟩ => ?_⟩
  · exact (hG.added k₀ p n hp hn).imp_right fun hc => hc.2.2.1
  · exact ⟨p, hadm.of_append q (by rw [hq]; exact hP), hpn⟩

/-- The page is then at the frame the round has taken; if it is new to the tree, that frame and the
tables missing on the way are what the tree gains. -/
theorem mapNext_spec (hadm : Radix.Closed adm) (h : TablesOk root adm m)
    (hroot : root k₀ = some pml4) (hleaf : IsLeaf adm k₀ (leafPath va)) (hf : FlagsOk flags)
    (h0 : (m.pmm.pmmAllocPage).1 ≠ 0)
    (htables : (Machine.nextTables { m with pmm := (m.pmm.pmmAllocPage).2 } true flags pml4
      (tablePath va)).1 ≠ none) :
    (∀ n, m.pmm.Busy n → (m.mapNext pml4 va flags).pmm.Busy n)
      ∧ (m.mapNext pml4 va flags).frameAt pml4 va = some (m.pmm.pmmAllocPage).1
      ∧ (m.table pml4 (leafPath va) = none → Gains root adm k₀ m (m.mapNext pml4 va flags)) := by
  have hP : adm k₀ (tablePath va) := hadm _ _ _ hleaf.1
  obtain ⟨-, -, abusy, a4⟩ := Pmm.pmmAllocPage_spec h.pmm
  obtain ⟨hv, hbusy⟩ := a4 h0
  have hx : (m.pmm.pmmAllocPage).2.Busy (m.pmm.pmmAllocPage).1 := (hbusy _).mpr (.inr rfl)
  obtain ⟨pt, m₁, he, hpt, htree, hG, hgain⟩ := mapNext_tables hadm h hroot hleaf hf htables
  rw [he]
  have hlt : (m.pmm.pmmAllocPage).1 < 2 ^ 52 := by
    have := h.width
    have := hv.lt
    omega
  set m₂ := m₁.setEntry pt (ptIdx va) (BitVec.ofNat 64 (m.pmm.pmmAllocPage).1 ||| flags)
  have hentry : m₂.phys pt (ptIdx va) = BitVec.ofNat 64 (m.pmm.pmmAllocPage).1 ||| flags :=
    setEntry_phys_self _ _ _ _
  have hchild : tableChild m₂.phys pt (ptIdx va) = some (m.pmm.pmmAllocPage).1 := by
    rw [tableChild, hentry, if_pos (isPresent_entry hf), pteGetAddr_entry hv.aligned hlt hf]
  obtain ⟨hk, hnodes⟩ := setEntry_leaf (e := BitVec.ofNat 64 (m.pmm.pmmAllocPage).1 ||| flags)
    hadm htree hpt hleaf (fun x hc => by
      obtain rfl := Option.some.inj (hchild.symm.trans hc)
      exact ⟨hG.busy _ hx, hG.fresh hx (h.fresh_of_vacant hv)⟩) fun hpr => by
      rw [isPresent_entry hf] at hpr
      cases hpr
  have hkeep : ∀ p n, adm k₀ p → p ≠ leafPath va → m₁.node root k₀ p = some n →
      m₂.node root k₀ p = some n := by
    intro p n hp hne hn
    rcases (hk.touches k₀ pml4 hroot).nodes p n hp ((Machine.node_eq_table hroot p).symm.trans hn)
      with h1 | ⟨-, hc⟩
    · exact (Machine.node_eq_table hroot p).trans h1
    · exact absurd hc hne
  have hpt₂ := hkeep _ _ hP (fun hc => by simpa [leafPath] using congrArg List.length hc) hpt
  refine ⟨fun n hn => hG.busy n (abusy n hn), ?_, fun hnew => ?_⟩
  · rw [Machine.frameAt, leafEntry_of_some ((Machine.node_eq_table hroot _).symm.trans hpt₂),
      hentry, if_pos (isPresent_entry hf), Option.map_some, pteGetAddr_entry hv.aligned hlt hf]
  have hslot : m₁.node root k₀ (leafPath va) = none := by
    by_contra hc
    obtain ⟨n, hn⟩ := Option.ne_none_iff_exists'.mp hc
    rcases hG.added k₀ _ n hleaf.1 hn with ho | ⟨-, hpre, -⟩
    · exact absurd (hnew.symm.trans ((Machine.node_eq_table hroot _).symm.trans ho)) (by simp)
    · exact absurd hpre.length_le (by simp [leafPath])
  refine hgain.leaf hbusy hv.not_busy rfl ⟨leafPath va, hleaf.1, ?_⟩ (fun p n hp hn => ?_)
    fun p n hp hn => ?_
  · rw [Machine.node] at hpt₂ ⊢
    rw [leafPath, Radix.node_concat, hpt₂, Option.bind_some, hchild]
  · refine hkeep p n hp ?_ hn
    rintro rfl
    exact absurd (hslot.symm.trans hn) (by simp)
  · rcases hnodes k₀ p n hp hn with ⟨-, -, hc⟩ | ⟨h1, -⟩
    · exact .inl (Option.some.inj (hchild.symm.trans hc)).symm
    · exact .inr h1

end Gains

/-- Every allocation of the loop is granted, for the pages and for the tables on the way. -/
def Machine.Served (pml4 : ℕ) (flags : BitVec 64) : List ℕ → Machine → Prop
  | [], _ => True
  | va :: vas, m => (m.pmm.pmmAllocPage).1 ≠ 0
    ∧ (Machine.nextTables { m with pmm := (m.pmm.pmmAllocPage).2 } true flags pml4
      (tablePath va)).1 ≠ none
    ∧ Served pml4 flags vas (m.mapNext pml4 va flags)

instance Machine.Served.decidable (pml4 : ℕ) (flags : BitVec 64) :
    (vas : List ℕ) → (m : Machine) → Decidable (Machine.Served pml4 flags vas m)
  | [], _ => isTrue trivial
  | va :: vas, m =>
    have := Machine.Served.decidable pml4 flags vas (m.mapNext pml4 va flags)
    inferInstanceAs (Decidable (_ ∧ _ ∧ _))

section Loop

variable {K : Type*} {root : K → Option ℕ} {adm : K → List ℕ → Prop} {k₀ : K}
  {m m' : Machine} {pml4 : ℕ} {flags : BitVec 64}

theorem Touches.table_leaf {adm T : List ℕ → Prop} (h : Touches adm pml4 T m m') {w : ℕ}
    (hw : adm (leafPath w)) (hT : ∀ q, T q → ∃ va, q = leafPath va ∧ leafPath va ≠ leafPath w) :
    m'.table pml4 (leafPath w) = m.table pml4 (leafPath w) := by
  refine (h.spares hw fun q hq hpre => ?_).1
  obtain ⟨va, rfl, hne⟩ := hT q hq
  exact hne (hpre.eq_of_length rfl).symm

/-- A page of its own for each address, taken by the step. -/
def TakesPages (pml4 : ℕ) (vas : List ℕ) (m m' : Machine) : Prop :=
  ∀ va ∈ vas, ∃ pa, m'.frameAt pml4 va = some pa ∧ pa ≠ 0 ∧ ¬ m.pmm.Busy pa

/-- The whole loop. -/
theorem mapEach_served (hadm : Radix.Closed adm) (hroot : root k₀ = some pml4)
    (hf : FlagsOk flags) : ∀ {vas : List ℕ} {m : Machine}, TablesOk root adm m →
    (∀ va ∈ vas, IsLeaf adm k₀ (leafPath va)) →
    vas.Pairwise (fun va w => leafPath va ≠ leafPath w) → m.Served pml4 flags vas →
    ∃ m', Machine.mapEach pml4 flags vas m = (true, m')
      ∧ Kept root adm (fun k p => k = k₀ ∧ ∃ va ∈ vas, p = leafPath va) m m'
      ∧ (∀ n, m.pmm.Busy n → m'.pmm.Busy n) ∧ TakesPages pml4 vas m m'
      ∧ ((∀ va ∈ vas, m.table pml4 (leafPath va) = none) → Gains root adm k₀ m m')
  | [], m, h, _, _, _ =>
    ⟨m, rfl, Kept.refl h, fun _ hn => hn, fun _ hva => absurd hva List.not_mem_nil,
      fun _ => Gains.refl m⟩
  | va :: vas, m, h, hleaf, hpw, ⟨h0, htables, hserved⟩ => by
    obtain ⟨hne, hpw⟩ := List.pairwise_cons.mp hpw
    have hva := hleaf va List.mem_cons_self
    have hleaf' := fun w hw => hleaf w (List.mem_cons_of_mem va hw)
    have hk := mapNext_kept hadm h hroot hva hf h0
    obtain ⟨hbusy, hframe, hg⟩ := mapNext_spec hadm h hroot hva hf h0 htables
    obtain ⟨m', he, hk', hbusy', htakes, hg'⟩ := mapEach_served hadm hroot hf hk.tables hleaf' hpw
      hserved
    refine ⟨m', ?_, (hk.mono _ ?_).trans (hk'.mono _ ?_), fun n hn => hbusy' n (hbusy n hn), ?_,
      fun hnew => ?_⟩
    · rw [Machine.mapEach, if_neg h0, he]
    · rintro k p ⟨rfl, rfl⟩
      exact ⟨rfl, va, List.mem_cons_self, rfl⟩
    · rintro k p ⟨rfl, w, hw, rfl⟩
      exact ⟨rfl, w, List.mem_cons_of_mem va hw, rfl⟩
    · intro w hw
      rcases List.mem_cons.mp hw with rfl | hw
      · have hkeep : m'.leafEntry pml4 w = (m.mapNext pml4 w flags).leafEntry pml4 w :=
          (hk'.touches k₀ pml4 hroot).leafEntry_eq (hadm _ _ _ hva.1) fun q hq => by
            obtain ⟨-, x, hx, rfl⟩ := hq
            exact ⟨x, rfl, fun hc => hne x hx hc.symm⟩
        obtain ⟨-, -, -, a4⟩ := Pmm.pmmAllocPage_spec h.pmm
        refine ⟨_, ?_, h0, (a4 h0).1.not_busy⟩
        rw [Machine.frameAt, hkeep]
        exact hframe
      · obtain ⟨pa, hpa, h1, h2⟩ := htakes w hw
        exact ⟨pa, hpa, h1, fun hc => h2 (hbusy pa hc)⟩
    · refine (hg (hnew va List.mem_cons_self)).trans (hg' fun w hw => ?_)
      rw [(hk.touches k₀ pml4 hroot).table_leaf (hleaf' w hw).1 fun q hq => ⟨va, hq.2, hne w hw⟩]
      exact hnew w (List.mem_cons_of_mem va hw)

end Loop

/-! ## The kernel heap's share -/

section HeapShare

theorem nextTables_busy (flags : BitVec 64) : ∀ (is : List ℕ) (m : Machine) (t : ℕ),
    m.pmm.Inv → (m.nextTables true flags t is).2.pmm.Inv
      ∧ ∀ n, m.pmm.Busy n → (m.nextTables true flags t is).2.pmm.Busy n
  | [], m, t, h => ⟨h, fun _ hn => hn⟩
  | i :: is, m, t, h => by
    obtain ⟨a1, -, a3, -⟩ := Pmm.pmmAllocPage_spec h
    simp only [Machine.nextTables]
    rcases getNextTable_cases m t i flags with ⟨x, -, he⟩ | ⟨-, -, he⟩ | ⟨-, -, he⟩ <;> rw [he]
    · exact nextTables_busy flags is m x h
    · exact ⟨a1, a3⟩
    · obtain ⟨h1, h2⟩ := nextTables_busy flags is
        { pmm := (m.pmm.pmmAllocPage).2
          phys := (m.phys.zeroPage (m.pmm.pmmAllocPage).1).write t i
            (BitVec.ofNat 64 (m.pmm.pmmAllocPage).1 ||| flags) } (m.pmm.pmmAllocPage).1 a1
      exact ⟨h1, fun n hn => h2 n (a3 n hn)⟩

theorem vmmMapPage_busy (pml4 va pa : ℕ) (flags : BitVec 64) {m : Machine} (h : m.pmm.Inv) :
    (m.vmmMapPage pml4 va pa flags).pmm.Inv
      ∧ ∀ n, m.pmm.Busy n → (m.vmmMapPage pml4 va pa flags).pmm.Busy n := by
  have ht := nextTables_busy flags (tablePath va) m pml4 h
  unfold Machine.vmmMapPage
  rw [← tablePath]
  rcases hr : m.nextTables true flags pml4 (tablePath va) with ⟨_ | pt, m'⟩ <;> rw [hr] at ht
  · exact ht
  · exact ht

theorem kheapExpand_busy : ∀ {n : ℕ} {k k' : KMem} {ok : Bool}, k.pmm.Inv →
    KMem.kheapExpand n k = some (ok, k') →
      k'.pmm.Inv ∧ ∀ x, k.pmm.Busy x → k'.pmm.Busy x
  | 0, k, k', ok, hI, h => by
    simp only [KMem.kheapExpand, Option.some.injEq, Prod.mk.injEq] at h
    exact h.2 ▸ ⟨hI, fun _ hx => hx⟩
  | n + 1, k, k', ok, hI, h => by
    obtain ⟨a1, -, a3, -⟩ := Pmm.pmmAllocPage_spec hI
    rcases KMem.kheapExpand_cases h with ⟨-, -, rfl⟩ | ⟨-, -, h⟩
    · exact ⟨a1, a3⟩
    · obtain ⟨g1, g2⟩ := vmmMapPage_busy k.kernelPml4 k.heap.kheapTop (k.pmm.pmmAllocPage).1
        kernelFlags (m := { pmm := (k.pmm.pmmAllocPage).2, phys := k.phys }) a1
      obtain ⟨h1, h2⟩ := kheapExpand_busy g1 h
      exact ⟨h1, fun x hx => h2 x (g2 x (a3 x hx))⟩

theorem kmallocLoop_busy : ∀ {fuel size p : ℕ} {k k' : KMem}, k.pmm.Inv →
    KMem.kmallocLoop fuel size k = some (p, k') → ∀ x, k.pmm.Busy x → k'.pmm.Busy x
  | 0, size, p, k, k', _, h => by
    simp only [KMem.kmallocLoop, Option.some.injEq, Prod.mk.injEq] at h
    exact h.2 ▸ fun _ hx => hx
  | fuel + 1, size, p, k, k', hI, h => by
    unfold KMem.kmallocLoop at h
    dsimp only at h
    rcases hff : k.heap.firstFit (alignUp size 8) with _ | t <;> rw [hff] at h
    · dsimp only at h
      rcases he : KMem.kheapExpand (KMem.pgNeeded (alignUp size 8)) k with _ | ⟨_ | _, k₁⟩ <;>
        rw [he] at h
      · cases h
      · simp only [Option.some.injEq, Prod.mk.injEq] at h
        exact h.2 ▸ (kheapExpand_busy hI he).2
      · obtain ⟨h1, h2⟩ := kheapExpand_busy hI he
        exact fun x hx => kmallocLoop_busy h1 h x (h2 x hx)
    · simp only [Option.some.injEq, Prod.mk.injEq] at h
      rw [← h.2]
      exact fun _ hx => hx

end HeapShare

/-! ## Building an address space -/

/-- A call of `mm_map_range`. -/
structure MapRequest where
  va : ℕ
  size : ℕ
  vmFlags : BitVec 64

/-- Page number `n` meets the range. -/
def MapRequest.HasPage (r : MapRequest) (n : ℕ) : Prop :=
  0 < r.size ∧ r.va / pageSize ≤ n ∧ n * pageSize < r.va + r.size

/-- The ranges have no page in common. -/
def MapRequest.Apart (r r' : MapRequest) : Prop := ∀ n, ¬ (r.HasPage n ∧ r'.HasPage n)

/-- The frames that an allocation on the kernel heap takes. -/
def KMem.HeapTakes (k : KMem) (size n : ℕ) : Prop :=
  ∃ ptr km, k.kmalloc size = some (ptr, km) ∧ km.pmm.Busy n ∧ ¬ k.pmm.Busy n

/-- A kernel on the way, with the frames that the kernel heap has taken meanwhile. -/
structure Building where
  k : Kernel
  heapFrames : ℕ → Prop

def buildStep (mm : ℕ) (s : Building) (r : MapRequest) : Option Building :=
  (s.k.mmMapRange mm r.va r.size r.vmFlags).map fun x =>
    ⟨x.2, fun n => s.heapFrames n ∨ r.size ≠ 0 ∧ s.k.HeapTakes vmaStructSize n⟩

/-- No allocation of the call fails: neither that of the area's structure nor one for a page or a
table. -/
def Kernel.Grants (k : Kernel) (mm : ℕ) (r : MapRequest) : Prop :=
  match k.kmalloc vmaStructSize with
  | none => False
  | some (vma, km) => vma ≠ 0 ∧ km.Served (k.mms mm).pml4Pa (pteFlagsOf r.vmFlags)
      (pagesFrom (r.va / pageSize * pageSize) 0 (pageSpan r.va r.size))

instance Kernel.Grants.decidable (k : Kernel) (mm : ℕ) (r : MapRequest) :
    Decidable (k.Grants mm r) := by
  unfold Kernel.Grants
  rcases k.kmalloc vmaStructSize with _ | ⟨vma, km⟩
  · exact inferInstanceAs (Decidable False)
  · exact inferInstanceAs (Decidable (_ ∧ _))

/-- The range is in the user half, and the call is granted what it asks for. -/
def Granted (mm : ℕ) (s : Building) (r : MapRequest) : Prop :=
  r.va + r.size ≤ 2 ^ 47 ∧ (r.size = 0 ∨ s.k.Grants mm r)

instance (mm : ℕ) (s : Building) (r : MapRequest) : Decidable (Granted mm s r) :=
  inferInstanceAs (Decidable (_ ∧ (_ ∨ _)))

/-- A frame that the walk of the user half reaches: the PML4, a table or a page. -/
def Kernel.UserFrame (k : Kernel) (mm n : ℕ) : Prop :=
  ∃ p, UserPath p ∧ k.table (k.mms mm).pml4Pa p = some n

/-- A frame reached through one of the entries 256 to 511 of the PML4. -/
def Kernel.UpperFrame (k : Kernel) (mm n : ℕ) : Prop :=
  ∃ i p, 256 ≤ i ∧ i < 512 ∧ p.length ≤ 3 ∧ k.table (k.mms mm).pml4Pa (i :: p) = some n

/-- What holds on the way: the frames taken since `k₀` are those of the address space, but for the
kernel heap's. -/
structure Built (k₀ : Kernel) (mm : ℕ) (s : Building) : Prop where
  spaces : SpacesInv (fun _ => False) [mm] s.k
  root : (s.k.mms mm).pml4Pa ≠ 0
  before : ∀ n, k₀.pmm.Busy n → s.k.pmm.Busy n
  heap : ∀ n, s.heapFrames n → s.k.pmm.Busy n ∧ ¬ k₀.pmm.Busy n
  frames : ∀ n, s.k.UserFrame mm n ↔ s.k.pmm.Busy n ∧ ¬ k₀.pmm.Busy n ∧ ¬ s.heapFrames n

section Build

variable {k₀ k k' : Kernel} {mm : ℕ} {r : MapRequest}

theorem mmAlloc_success (h : k.mmAlloc = some (mm, k')) (hmm : mm ≠ 0) :
    ∃ km, k.kmalloc mmStructSize = some (mm, km) ∧ (km.pmm.pmmAllocPage).1 ≠ 0
      ∧ k'.pmm = (km.pmm.pmmAllocPage).2 ∧ (k'.mms mm).pml4Pa = (km.pmm.pmmAllocPage).1 := by
  unfold Kernel.mmAlloc at h
  rcases hk : KMem.kmalloc mmStructSize k.toKMem with _ | ⟨a, km⟩ <;> rw [hk] at h
  · cases h
  dsimp only at h
  split_ifs at h with ha hp
  · exact absurd (congrArg Prod.fst (Option.some.inj h)).symm hmm
  · exact absurd (congrArg Prod.fst (Option.some.inj h)).symm hmm
  · simp only [Option.some.injEq, Prod.mk.injEq] at h
    obtain ⟨rfl, rfl⟩ := h
    exact ⟨km, rfl, hp, rfl, by rw [Kernel.setMm_self]; rfl⟩

/-- A new address space has its PML4 only. -/
theorem Kernel.IsBare.userFrame (h : k.IsBare mm) (n : ℕ) :
    k.UserFrame mm n ↔ n = (k.mms mm).pml4Pa := by
  constructor
  · rintro ⟨_ | ⟨i, p⟩, ⟨-, -, hh⟩, hn⟩
    · exact (Option.some.inj hn).symm
    · rw [Machine.table, Radix.walk, tableChild_zero (h.2 i (hh i rfl))] at hn
      cases hn
  · rintro rfl
    exact ⟨[], ⟨by simp, by simp, by simp⟩, rfl⟩

theorem Built.mmAlloc (hI : SpacesInv (fun _ => False) [] k₀) (h : k₀.mmAlloc = some (mm, k))
    (hmm : mm ≠ 0) : Built k₀ mm ⟨k, k₀.HeapTakes mmStructSize⟩ ∧ k.IsBare mm := by
  obtain ⟨frames, hmem⟩ := hI.mem
  obtain ⟨-, hnew⟩ := mmAlloc_kept (T := fun _ _ => False) hI (by simp) (heapClear_false _) h
  obtain ⟨hspaces, -, hbare⟩ := hnew hmm
  obtain ⟨km, hkm, h0, hpmm, hpml4⟩ := mmAlloc_success h hmm
  have hbusy := kmallocLoop_busy hmem.tables.pmm hkm
  obtain ⟨frames₁, hmem₁⟩ := (kmallocLoop_kept (T := fun _ _ => False) hmem (heapClear_false _)
    hkm).mem
  obtain ⟨-, -, a3, a4⟩ := Pmm.pmmAllocPage_spec hmem₁.tables.pmm
  obtain ⟨hv, hx⟩ := a4 h0
  have htakes : ∀ n, k₀.HeapTakes mmStructSize n ↔ km.pmm.Busy n ∧ ¬ k₀.pmm.Busy n := by
    intro n
    constructor
    · rintro ⟨ptr, km', hkm', hn⟩
      obtain ⟨-, rfl⟩ := Prod.mk.inj (Option.some.inj (hkm.symm.trans hkm'))
      exact hn
    · exact fun hn => ⟨mm, km, hkm, hn⟩
  refine ⟨⟨hspaces, hpml4 ▸ h0, fun n hn => ?_, fun n hn => ?_, fun n => ?_⟩, hbare⟩
  · rw [hpmm]
    exact a3 n (hbusy n hn)
  · obtain ⟨h1, h2⟩ := (htakes n).mp hn
    rw [hpmm]
    exact ⟨a3 n h1, h2⟩
  · dsimp only
    rw [hbare.userFrame, hpml4, hpmm, hx, htakes]
    constructor
    · rintro rfl
      exact ⟨.inr rfl, fun hb => hv.not_busy (hbusy _ hb), fun hb => hv.not_busy hb.1⟩
    · rintro ⟨h1 | h1, h2, h3⟩
      · exact absurd ⟨h1, h2⟩ h3
      · exact h1

/-- The pages of the range are not mapped yet. -/
def MapRequest.Unmapped (r : MapRequest) (mm : ℕ) (k : Kernel) : Prop :=
  ∀ n, r.HasPage n → k.table (k.mms mm).pml4Pa (leafPath (n * pageSize)) = none

theorem Kernel.IsBare.unmapped (h : k.IsBare mm) (hva : r.va + r.size ≤ 2 ^ 47) :
    r.Unmapped mm k := by
  intro n hn
  have huser : pml4Idx (n * pageSize) < 256 := pml4Idx_user (by have := hn.2.2; omega)
  rw [leafPath, tablePath, List.cons_append, Machine.table, Radix.walk,
    tableChild_zero (h.2 _ huser)]
  rfl

theorem leafPath_page_inj {n n' : ℕ} (h : n * pageSize < 2 ^ 47) (h' : n' * pageSize < 2 ^ 47)
    (heq : leafPath (n * pageSize) = leafPath (n' * pageSize)) : n = n' := by
  rw [leafPath_eq_iff] at heq
  unfold pageSize at *
  omega

/-- The pages that the loop maps are those of the range. -/
theorem mem_pages_iff (hva : r.va + r.size ≤ 2 ^ 47) (hs : 0 < r.size) (x : ℕ) :
    x ∈ pagesFrom (r.va / pageSize * pageSize) 0 (pageSpan r.va r.size)
      ↔ ∃ n, r.HasPage n ∧ x = n * pageSize := by
  unfold pagesFrom MapRequest.HasPage pageSpan pageSize
  rw [List.mem_map]
  constructor
  · rintro ⟨j, hj, rfl⟩
    obtain ⟨-, hj⟩ := List.mem_range'_1.mp hj
    refine ⟨r.va / 4096 + j, ⟨hs, by omega, by omega⟩, ?_⟩
    rw [u64_of_lt (by omega), Nat.add_mul]
  · rintro ⟨n, ⟨-, h1, h2⟩, rfl⟩
    refine ⟨n - r.va / 4096, List.mem_range'_1.mpr ⟨Nat.zero_le _, by omega⟩, ?_⟩
    have hpage : r.va / 4096 * 4096 + (n - r.va / 4096) * 4096 = n * 4096 := by omega
    have hlt : n * 4096 < 2 ^ 64 := by omega
    rw [hpage, u64_of_lt hlt]

theorem pages_pairwise (hva : r.va + r.size ≤ 2 ^ 47) :
    (pagesFrom (r.va / pageSize * pageSize) 0 (pageSpan r.va r.size)).Pairwise
      fun x y => leafPath x ≠ leafPath y := by
  unfold pagesFrom
  rw [List.pairwise_map]
  refine List.Pairwise.imp_of_mem (fun {i j} hi hj hij => ?_) List.nodup_range'
  obtain ⟨-, hi⟩ := List.mem_range'_1.mp hi
  obtain ⟨-, hj⟩ := List.mem_range'_1.mp hj
  unfold pageSpan at hi hj
  rw [Ne, leafPath_page, Nat.mod_eq_of_lt (by omega), Nat.mod_eq_of_lt (by omega)]
  exact hij

end Build

/-! ## A call that is granted -/

section Granted

variable {k : Kernel} {mm : ℕ} {r : MapRequest} {live : List ℕ}

/-- Paths to the pages of the request. -/
def MapRequest.Paths (r : MapRequest) (mm : ℕ) (t : Tree) (p : List ℕ) : Prop :=
  t = .mm mm ∧ ∃ n, r.HasPage n ∧ p = leafPath (n * pageSize)

/-- What a granted call does: the kernel heap serves it, and then its pages are mapped, each to a
frame taken for it. -/
structure GrantedMap (live : List ℕ) (k : Kernel) (mm : ℕ) (r : MapRequest) (km : KMem)
    (m' : Machine) : Prop where
  heap : MemKept (fun _ => False) (k.spaces live) (fun _ _ => False) k.toKMem km
  heapBusy : ∀ n, k.pmm.Busy n → km.pmm.Busy n
  busy : ∀ n, km.pmm.Busy n → m'.pmm.Busy n
  takes : ∀ n, r.HasPage n → ∃ pa, m'.frameAt (k.mms mm).pml4Pa (n * pageSize) = some pa
    ∧ pa ≠ 0 ∧ ¬ km.pmm.Busy pa
  tree : ∃ frames, Kept (treeRoot km.kernelPml4 frames (k.spaces live))
      (treePath fun _ => False) (r.Paths mm) km.toMachine m'
    ∧ (r.Unmapped mm k → Gains (treeRoot km.kernelPml4 frames (k.spaces live))
      (treePath fun _ => False) (.mm mm) km.toMachine m')

theorem GrantedMap.table_eq {km : KMem} {m' : Machine} (h : GrantedMap live k mm r km m') {a : ℕ}
    (ha : a ∈ live) {p : List ℕ} (hp : UserPath p) :
    km.table (k.mms a).pml4Pa p = k.table (k.mms a).pml4Pa p :=
  ((h.heap.user a _ (if_pos ha)).spares hp fun _ hq _ => hq).1

theorem MapRequest.HasPage.user {n : ℕ} (hn : r.HasPage n) (hva : r.va + r.size ≤ 2 ^ 47) :
    n * pageSize < 2 ^ 47 := by
  have := hn.2.2
  omega

theorem mmMapRange_granted (hI : SpacesInv (fun _ => False) live k) (hin : mm ∈ live)
    (hva : r.va + r.size ≤ 2 ^ 47) (hs : 0 < r.size) (hg : k.Grants mm r) :
    ∃ vma km m', k.kmalloc vmaStructSize = some (vma, km) ∧ vma ≠ 0
      ∧ k.mmMapRange mm r.va r.size r.vmFlags = some (true,
        { Kernel.linkVma { k with toKMem := km } mm vma (requestArea mm r.va r.size r.vmFlags) with
          toMachine := m' })
      ∧ GrantedMap live k mm r km m' := by
  unfold Kernel.Grants at hg
  rcases hkm : k.kmalloc vmaStructSize with _ | ⟨vma, km⟩ <;> rw [hkm] at hg
  · exact hg.elim
  obtain ⟨hv, hserved⟩ := hg
  obtain ⟨frames, hmem⟩ := hI.mem
  have hkept := kmallocLoop_kept (T := fun _ _ => False) hmem (heapClear_false _) hkm
  obtain ⟨frames₁, hmem₁⟩ := hkept.mem
  have hroot : treeRoot km.kernelPml4 frames₁ (k.spaces live) (.mm mm)
      = some (k.mms mm).pml4Pa := if_pos hin
  have hpages := mem_pages_iff hva hs
  have hleaf : ∀ x ∈ pagesFrom (r.va / pageSize * pageSize) 0 (pageSpan r.va r.size),
      IsLeaf (treePath fun _ => False) (.mm mm) (leafPath x) := by
    intro x hx
    obtain ⟨n, hn, rfl⟩ := (hpages x).mp hx
    exact isLeaf_leafPath mm (pml4Idx_user (hn.user hva))
  obtain ⟨m', he, hk, hbusy, htakes, hgain⟩ := mapEach_served closed_treePath hroot
    (pteFlagsOf_ok r.vmFlags) hmem₁.tables hleaf (pages_pairwise hva) hserved
  have hsame : ∀ n, r.HasPage n → km.table (k.mms mm).pml4Pa (leafPath (n * pageSize))
      = k.table (k.mms mm).pml4Pa (leafPath (n * pageSize)) := fun n hn =>
    ((hkept.user mm _ (if_pos hin)).spares
      (leafPath_userPath (pml4Idx_user (hn.user hva))) fun _ hq _ => hq).1
  obtain ⟨hstart, hcount⟩ : (requestArea mm r.va r.size r.vmFlags).vmStart = _ ∧ _ :=
    requestArea_of_lt (by omega)
  have he' := he
  rw [show r.va / pageSize * pageSize = r.va / 4096 * 4096 from rfl, ← hcount, ← hstart] at he'
  refine ⟨vma, km, m', rfl, hv, mmMapRange_true_iff.mpr ⟨hI.nonzero mm hin, hs.ne', vma, km, m',
    hkm, hv, he', rfl⟩, hkept, kmallocLoop_busy hmem.tables.pmm hkm, hbusy,
    fun n hn => htakes _ ((hpages _).mpr ⟨n, hn, rfl⟩), frames₁, hk.mono _ ?_, fun hnew => ?_⟩
  · rintro t p ⟨rfl, x, hx, rfl⟩
    obtain ⟨n, hn, rfl⟩ := (hpages x).mp hx
    exact ⟨rfl, n, hn, rfl⟩
  · refine hgain fun x hx => ?_
    obtain ⟨n, hn, rfl⟩ := (hpages x).mp hx
    rw [hsame n hn]
    exact hnew n hn

end Granted

/-! ## Steps and runs -/

section Runs

variable {k₀ k' : Kernel} {mm : ℕ} {s s' : Building} {r : MapRequest}

/-- What a granted call of the run has done. -/
theorem buildStep_cases (hI : SpacesInv (fun _ => False) [mm] s.k) (hok : Granted mm s r)
    (h : buildStep mm s r = some s') :
    (s'.k = s.k ∧ ∀ n, s'.heapFrames n ↔ s.heapFrames n)
      ∨ ∃ km, GrantedMap [mm] s.k mm r km s'.k.toMachine
        ∧ ∀ n, s'.heapFrames n ↔ s.heapFrames n ∨ (km.pmm.Busy n ∧ ¬ s.k.pmm.Busy n) := by
  obtain ⟨⟨ok, k'⟩, hr, rfl⟩ := Option.map_eq_some_iff.mp h
  obtain ⟨hva, hsz⟩ := hok
  rcases Nat.eq_zero_or_pos r.size with h0 | hpos
  · rw [Kernel.mmMapRange, if_pos (.inr h0), Option.some.injEq, Prod.mk.injEq] at hr
    refine .inl ⟨hr.2.symm, fun n => ?_⟩
    simp [h0]
  · obtain ⟨vma, km, m', hkm, -, htrue, hmap⟩ := mmMapRange_granted hI
      (List.mem_singleton_self mm) hva hpos (hsz.resolve_left hpos.ne')
    obtain ⟨-, rfl⟩ := Prod.mk.inj (Option.some.inj (hr.symm.trans htrue))
    refine .inr ⟨km, hmap, fun n => or_congr_right ?_⟩
    constructor
    · rintro ⟨-, ptr, km', hkm', hn⟩
      obtain ⟨-, rfl⟩ := Prod.mk.inj (Option.some.inj (hkm.symm.trans hkm'))
      exact hn
    · exact fun hn => ⟨hpos.ne', vma, km, hkm, hn⟩

theorem Built.step (h : Built k₀ mm s) (hok : Granted mm s r) (hnew : r.Unmapped mm s.k)
    (hstep : buildStep mm s r = some s') :
    Built k₀ mm s' ∧ ∀ r', r'.va + r'.size ≤ 2 ^ 47 → r.Apart r' → r'.Unmapped mm s.k →
      r'.Unmapped mm s'.k := by
  have hin : mm ∈ [mm] := List.mem_singleton_self mm
  obtain ⟨⟨ok, k'⟩, hr, hs'⟩ := Option.map_eq_some_iff.mp hstep
  have hspaces := mmMapRange_kept h.spaces hin hok.1 (heapClear_false _) hr
  have hk' : s'.k = k' := by rw [← hs']
  rw [← hk'] at hspaces
  have hpml4 := hspaces.pml4Pa hin
  rcases buildStep_cases h.spaces hok hstep with ⟨hk, hheap⟩ | ⟨km, hmap, hheap⟩
  · refine ⟨⟨hspaces.inv, hpml4 ▸ h.root, ?_, fun n hn => ?_, fun n => ?_⟩, fun r' _ _ hr' => ?_⟩
    · rw [hk]
      exact h.before
    · rw [hk]
      exact h.heap n ((hheap n).mp hn)
    · rw [hk, hheap]
      exact h.frames n
    · rw [hk]
      exact hr'
  · obtain ⟨frames, hk₂, hg⟩ := hmap.tree
    have hg := hg hnew
    have hbusy := hmap.heapBusy
    have hroot : treeRoot km.kernelPml4 frames (s.k.spaces [mm]) (.mm mm)
        = some (s.k.mms mm).pml4Pa := if_pos hin
    have hsame := fun {p} => hmap.table_eq (p := p) hin
    have hnode : ∀ (m : Machine) (p : List ℕ), m.node (treeRoot km.kernelPml4 frames
        (s.k.spaces [mm])) (.mm mm) p = m.table (s.k.mms mm).pml4Pa p :=
      fun m p => Machine.node_eq_table hroot p
    refine ⟨⟨hspaces.inv, hpml4 ▸ h.root, fun n hn => ?_, fun n hn => ?_, fun n => ?_⟩,
      fun r' hva' hapart hr' n hn => ?_⟩
    · exact hg.busy n (hbusy n (h.before n hn))
    · rcases (hheap n).mp hn with hn | ⟨h1, h2⟩
      · obtain ⟨h1, h2⟩ := h.heap n hn
        exact ⟨hg.busy n (hbusy n h1), h2⟩
      · exact ⟨hg.busy n h1, fun hb => h2 (h.before n hb)⟩
    · rw [hheap, Kernel.UserFrame, hpml4]
      constructor
      · rintro ⟨p, hp, hn⟩
        have hb := hk₂.tables.busy (.mm mm) p n hp ((hnode _ p).trans hn)
        rcases hg.added p n hp ((hnode _ p).trans hn) with ho | hnb
        · rw [hnode, hsame hp] at ho
          obtain ⟨h1, h2, h3⟩ := (h.frames n).mp ⟨p, hp, ho⟩
          exact ⟨hb, h2, fun hc => hc.elim h3 fun hc => hc.2 h1⟩
        · exact ⟨hb, fun hc => hnb (hbusy n (h.before n hc)),
            fun hc => hnb (hc.elim (fun hc => hbusy n (h.heap n hc).1) fun hc => hc.1)⟩
      · rintro ⟨h1, h2, h3⟩
        rcases hg.taken n h1 with hb | ⟨p, hp, hn⟩
        · have hb' : s.k.pmm.Busy n := by
            by_contra hc
            exact h3 (.inr ⟨hb, hc⟩)
          obtain ⟨p, hp, hn⟩ := (h.frames n).mpr ⟨hb', h2, fun hc => h3 (.inl hc)⟩
          refine ⟨p, hp, ?_⟩
          rw [← hnode]
          refine hg.kept p n hp ?_
          rw [hnode, hsame hp]
          exact hn
        · exact ⟨p, hp, (hnode _ p).symm.trans hn⟩
    · have hpath := leafPath_userPath (pml4Idx_user (hn.user hva'))
      rw [hpml4, (hk₂.touches (.mm mm) _ hroot).table_leaf hpath, hsame hpath]
      · exact hr' n hn
      · rintro q ⟨-, n', hn', rfl⟩
        refine ⟨_, rfl, fun heq => ?_⟩
        obtain rfl := leafPath_page_inj (hn'.user hok.1) (hn.user hva') heq
        exact hapart n' ⟨hn', hn⟩

theorem Built.run : ∀ {rs : List MapRequest} {s : Building}, Built k₀ mm s →
    Run.Meets (buildStep mm) (Granted mm) s rs → rs.Pairwise MapRequest.Apart →
    (∀ r ∈ rs, r.va + r.size ≤ 2 ^ 47 → r.Unmapped mm s.k) →
    Run.run (buildStep mm) s rs = some s' → Built k₀ mm s'
  | [], s, h, _, _, _, hrun => Option.some.inj hrun ▸ h
  | r :: rs, s, h, hok, hpw, hnew, hrun => by
    obtain ⟨hapart, hpw⟩ := List.pairwise_cons.mp hpw
    obtain ⟨t, ht, hrun⟩ := Run.run_cons hrun
    obtain ⟨ht', hkeep⟩ := h.step hok.1 (hnew r List.mem_cons_self hok.1.1) ht
    exact ht'.run (hok.2 t ht) hpw (fun r' hr' hva =>
      hkeep r' hva (hapart r' hr') (hnew r' (List.mem_cons_of_mem r hr') hva)) hrun

end Runs

/-! ## The release -/

section Release

variable {k₀ k : Kernel} {mm : ℕ} {s : Building} {live : List ℕ}

/-- To the frame allocator `mm_free` is one release after the other. -/
theorem mmFree_pmm (hmm : mm ≠ 0) (hroot : (k.mms mm).pml4Pa ≠ 0) :
    (k.mmFree mm).pmm = (freedFrames k.phys 4 (k.mms mm).pml4Pa
      ++ [(k.mms mm).pml4Pa]).foldl Pmm.pmmFreePage k.pmm := by
  obtain ⟨heap, hheap⟩ := foldl_kfree_eq (k.mms mm).vmaList k
  rw [List.foldl_append, ← userPgtableFreeRecursive_eq]
  unfold Kernel.mmFree Kernel.releaseTables
  rw [if_neg hmm]
  dsimp only
  rw [hheap, if_neg hroot]
  rfl

theorem mem_spaceFrames (n : ℕ) :
    n ∈ freedFrames k.phys 4 (k.mms mm).pml4Pa ++ [(k.mms mm).pml4Pa] ↔ k.UserFrame mm n := by
  rw [List.mem_append, mem_freedFrames le_rfl, List.mem_singleton]
  constructor
  · rintro (⟨q, ⟨-, hl, hi, hh⟩, hw⟩ | rfl)
    · exact ⟨q, ⟨hl, hi, hh rfl⟩, hw⟩
    · exact ⟨[], ⟨by simp, by simp, by simp⟩, rfl⟩
  · rintro ⟨_ | ⟨i, q⟩, ⟨hl, hi, hh⟩, hw⟩
    · exact .inr (Option.some.inj hw).symm
    · exact .inl ⟨i :: q, ⟨by simp, hl, hi, fun _ => hh⟩, hw⟩

/-- Of a live address space no frame is met twice. -/
theorem SpacesInv.spaceFrames_nodup (h : SpacesInv (fun _ => False) live k) (hmm : mm ∈ live) :
    (freedFrames k.phys 4 (k.mms mm).pml4Pa ++ [(k.mms mm).pml4Pa]).Nodup := by
  have hiso := h.isolated (s := ⟨k, live⟩)
  have honce : ∀ p q n, UserPath p → UserPath q → k.table (k.mms mm).pml4Pa p = some n →
      k.table (k.mms mm).pml4Pa q = some n → p = q :=
    fun p q n hp hq hpn hqn => (hiso.once mm hmm mm hmm p q n hp hq hpn hqn).2
  have hpath : ∀ q, Below 4 q → UserPath q := fun q ⟨_, hl, hi, hh⟩ => ⟨hl, hi, hh rfl⟩
  refine List.nodup_append.mpr ⟨freedFrames_nodup k.phys le_rfl fun q q' n hq hq' hw hw' =>
    honce q q' n (hpath q hq) (hpath q' hq') hw hw', List.nodup_singleton _, ?_⟩
  rintro n hn m hm rfl
  rw [List.mem_singleton] at hm
  obtain ⟨q, hq, hw⟩ := (mem_freedFrames le_rfl).mp hn
  exact hq.1 (honce q [] n (hpath q hq) ⟨by simp, by simp, by simp⟩ hw (congrArg some hm.symm))

theorem Built.release (h : Built k₀ mm s) (n : ℕ) :
    (s.k.mmFree mm).pmm.Busy n ↔ s.k.pmm.Busy n ∧ ¬ s.k.UserFrame mm n := by
  have hin : mm ∈ [mm] := List.mem_singleton_self mm
  have hmm : mm ≠ 0 := h.spaces.nonzero mm hin
  obtain ⟨frames, hmem⟩ := h.spaces.mem
  have hbusy := h.spaces.isolated (s := ⟨s.k, [mm]⟩)
  have hroot : s.k.pmm.Busy (s.k.mms mm).pml4Pa :=
    hbusy.busy mm hin [] _ ⟨by simp, by simp, by simp⟩ rfl
  obtain ⟨-, -, h3⟩ := frees_space s.k.phys hroot.aligned s.k.pmm hmem.tables.pmm
  rw [mmFree_pmm hmm h.root, List.foldl_append, ← userPgtableFreeRecursive_eq]
  exact h3 n

/-- The kernel's own memory is in order whatever address spaces are counted. -/
theorem SpacesInv.forget : ∀ {live : List ℕ}, SpacesInv (fun _ => False) live k →
    SpacesInv (fun _ => False) [] k
  | [], h => h
  | a :: live, h => by
    have h' := h.erase a
    rw [List.erase_cons_head] at h'
    exact h'.forget

end Release

/-- `mm_free` releases the frames taken for the address space, each once: those of its PML4, its
tables and its pages, which are the ones taken since before `mm_alloc` but for the kernel heap's. -/
theorem teardown_exact {k₀ k₁ : Kernel} {live : List ℕ} {mm : ℕ} {rs : List MapRequest}
    {s : Building} (hI : SpacesInv (fun _ => False) live k₀)
    (halloc : k₀.mmAlloc = some (mm, k₁)) (hmm : mm ≠ 0)
    (hok : Run.Meets (buildStep mm) (Granted mm) ⟨k₁, k₀.HeapTakes mmStructSize⟩ rs)
    (hapart : rs.Pairwise MapRequest.Apart)
    (hrun : Run.run (buildStep mm) ⟨k₁, k₀.HeapTakes mmStructSize⟩ rs = some s) :
    (∃ l : List ℕ, l.Nodup ∧ (s.k.mmFree mm).pmm = l.foldl Pmm.pmmFreePage s.k.pmm
        ∧ (∀ n, n ∈ l ↔ s.k.UserFrame mm n)
        ∧ ∀ n, n ∈ l ↔ s.k.pmm.Busy n ∧ ¬ k₀.pmm.Busy n ∧ ¬ s.heapFrames n)
      ∧ (∀ n, (s.k.mmFree mm).pmm.Busy n ↔ k₀.pmm.Busy n ∨ s.heapFrames n)
      ∧ ∀ n, s.k.UpperFrame mm n → ¬ s.k.UserFrame mm n →
        ((s.k.mmFree mm).pmm.Busy n ↔ s.k.pmm.Busy n) := by
  obtain ⟨hbuilt, hbare⟩ := Built.mmAlloc hI.forget halloc hmm
  have h := hbuilt.run hok hapart (fun r _ hva => hbare.unmapped hva) hrun
  refine ⟨⟨_, h.spaces.spaceFrames_nodup (List.mem_singleton_self mm), mmFree_pmm hmm h.root,
    mem_spaceFrames, fun n => (mem_spaceFrames n).trans (h.frames n)⟩, fun n => ?_,
    fun n _ hn => ?_⟩
  · rw [h.release, h.frames]
    constructor
    · rintro ⟨h1, h2⟩
      by_contra hc
      exact h2 ⟨h1, not_or.mp hc⟩
    · rintro (h1 | h1)
      · exact ⟨h.before n h1, fun hc => hc.2.1 h1⟩
      · exact ⟨(h.heap n h1).1, fun hc => hc.2.2 h1⟩
  · rw [h.release]
    exact and_iff_left hn

/-- Two ranges that share their tables, and one that has its own. -/
def smallRequests : List MapRequest :=
  [⟨0x400100, 0x2000, vmWrite⟩, ⟨0x403000, 0x1000, vmRead⟩, ⟨0x40000000, 0x1000, vmRead⟩]

theorem smallRequests_apart : smallRequests.Pairwise MapRequest.Apart := by
  have happ : ∀ {r r' : MapRequest}, r.va + r.size ≤ r'.va / 4096 * 4096 → r.Apart r' := by
    rintro r r' h n ⟨⟨-, -, h1⟩, -, h2, -⟩
    unfold pageSize at h1 h2
    omega
  refine .cons ?_ (.cons ?_ (.cons ?_ .nil))
  · simp only [List.mem_cons, List.not_mem_nil, or_false, forall_eq_or_imp, forall_eq]
    exact ⟨happ (by decide), happ (by decide)⟩
  · simp only [List.mem_cons, List.not_mem_nil, or_false, forall_eq]
    exact happ (by decide)
  · simp

theorem teardown_exact_bootKernel :
    ∃ k₀ k₁ s, bootKernel = some k₀ ∧ k₀.mmAlloc = some (firstMm, k₁)
      ∧ Run.run (buildStep firstMm) ⟨k₁, k₀.HeapTakes mmStructSize⟩ smallRequests = some s
      ∧ s.k.pmm.freePages + 11 = k₀.pmm.freePages
      ∧ ∀ n, (s.k.mmFree firstMm).pmm.Busy n ↔ k₀.pmm.Busy n ∨ s.heapFrames n := by
  have hrun : (bootKernel.bind fun k₀ => k₀.mmAlloc.bind fun r =>
      (Run.run (buildStep firstMm) ⟨r.2, k₀.HeapTakes mmStructSize⟩ smallRequests).map fun s =>
        (r.1, decide (s.k.pmm.freePages + 11 = k₀.pmm.freePages),
          decide (Run.Meets (buildStep firstMm) (Granted firstMm)
            ⟨r.2, k₀.HeapTakes mmStructSize⟩ smallRequests))) = some (firstMm, true, true) := by
    decide +kernel
  obtain ⟨k₀, hk₀, hrun⟩ := Option.bind_eq_some_iff.mp hrun
  obtain ⟨⟨mm, k₁⟩, hk₁, hrun⟩ := Option.bind_eq_some_iff.mp hrun
  obtain ⟨s, hs, hrun⟩ := Option.map_eq_some_iff.mp hrun
  obtain ⟨rfl, hfree, hok⟩ : _ ∧ _ ∧ _ := by
    simpa only [Prod.mk.injEq] using hrun
  have hI : SpacesInv (fun _ => False) [] k₀ :=
    bootMemory_inv (by unfold MemoryFits; decide) (bootClear_false _ _ _) (heapClear_false _) hk₀
  refine ⟨k₀, k₁, s, hk₀, hk₁, hs, of_decide_eq_true hfree, ?_⟩
  exact (teardown_exact hI hk₁ (by decide) (of_decide_eq_true hok) smallRequests_apart hs).2.1

end SudoOS
