import SudoOS.Vmm
import SudoOS.Proofs.Paging

/-!
# Ownership of frames

What the operations on page tables keep of an owned forest. `Touches` says of one tree what a step
has changed: only the pages at the ends of the paths in `T`, and the entries on the way to them.
`Kept` says so of every tree, and that the forest is still one of taken frames with zeroed absent
entries. Mapping a page, rolling a mapping back and copying a page each touch their own path only;
taking a tree down releases exactly the frames reached from its root
(`frees_userPgtableFreeRecursive`).
-/

namespace SudoOS

/-- The path to the page of `va`. -/
def leafPath (va : ℕ) : List ℕ := tablePath va ++ [ptIdx va]

theorem leafPath_length (va : ℕ) : (leafPath va).length = 4 := rfl

theorem leafPath_lt (va : ℕ) : ∀ i ∈ leafPath va, i < 512 := by
  intro i hi
  rcases List.mem_append.mp hi with hi | hi
  · exact tablePath_lt va i hi
  · rw [List.mem_singleton.mp hi]
    exact ptIdx_lt va

/-! ## What a step touches -/

/-- The tree with the given root, as the step from `m` to `m'` leaves it: nodes go only from the
ends of paths in `T`, they come only on the way to them, and a new table is zero but for entries
on the way. An entry on the way changes only from an absent one. -/
structure Touches (adm : List ℕ → Prop) (root : ℕ) (T : List ℕ → Prop) (m m' : Machine) :
    Prop where
  nodes : ∀ p n, adm p → m.table root p = some n → m'.table root p = some n ∨ T p
  added : ∀ p n, adm p → m'.table root p = some n → m.table root p = some n ∨ T p
    ∨ ((∃ q, T q ∧ p <+: q) ∧ ∀ j, m'.phys n j ≠ 0#64 → ∃ q, T q ∧ p ++ [j] <+: q)
  words : ∀ p n j, adm p → m.table root p = some n → m'.phys n j ≠ m.phys n j →
    ∃ q, T q ∧ (q = p ∨ (p ++ [j] <+: q ∧ (p ++ [j] = q ∨ isPresent (m.phys n j) = false)))

section Touches

variable {adm T T' : List ℕ → Prop} {root : ℕ} {m m' m'' : Machine}

theorem Touches.refl : Touches adm root T m m :=
  ⟨fun _ _ _ h => .inl h, fun _ _ _ h => .inl h, fun _ _ _ _ _ h => absurd rfl h⟩

theorem Touches.of_phys_eq (h : m'.phys = m.phys) : Touches adm root T m m' := by
  have htable : ∀ p, m'.table root p = m.table root p := fun p => by
    unfold Machine.table
    rw [h]
  exact ⟨fun p n _ hn => .inl ((htable p).trans hn),
    fun p n _ hn => .inl ((htable p).symm.trans hn),
    fun p n j _ _ hw => absurd (congrFun (congrFun h n) j) hw⟩

theorem Touches.mono (h : Touches adm root T m m') (hT : ∀ p, T p → T' p) :
    Touches adm root T' m m' where
  nodes p n hp hn := (h.nodes p n hp hn).imp_right (hT p)
  added p n hp hn := by
    rcases h.added p n hp hn with h1 | h1 | ⟨⟨q, hq, hpq⟩, hz⟩
    · exact .inl h1
    · exact .inr (.inl (hT p h1))
    · refine .inr (.inr ⟨⟨q, hT q hq, hpq⟩, fun j hj => ?_⟩)
      obtain ⟨r, hr, hpr⟩ := hz j hj
      exact ⟨r, hT r hr, hpr⟩
  words p n j hp hn hw := by
    obtain ⟨q, hq, hpq⟩ := h.words p n j hp hn hw
    exact ⟨q, hT q hq, hpq⟩

theorem Touches.trans (h : Touches adm root T m m') (h' : Touches adm root T m' m'') :
    Touches adm root T m m'' where
  nodes p n hp hn := by
    rcases h.nodes p n hp hn with h1 | h1
    · exact h'.nodes p n hp h1
    · exact .inr h1
  added p n hp hn := by
    rcases h'.added p n hp hn with h1 | h1 | h1
    · rcases h.added p n hp h1 with h2 | h2 | ⟨hq, hz⟩
      · exact .inl h2
      · exact .inr (.inl h2)
      · by_cases hT : T p
        · exact .inr (.inl hT)
        · refine .inr (.inr ⟨hq, fun j hj => ?_⟩)
          by_cases hc : m''.phys n j = m'.phys n j
          · exact hz j (hc ▸ hj)
          · obtain ⟨q, hTq, rfl | hpq⟩ := h'.words p n j hp h1 hc
            · exact absurd hTq hT
            · exact ⟨q, hTq, hpq.1⟩
    · exact .inr (.inl h1)
    · exact .inr (.inr h1)
  words p n j hp hn hw := by
    by_cases hc : m'.phys n j = m.phys n j
    · rcases h.nodes p n hp hn with h1 | h1
      · rw [← hc] at hw ⊢
        exact h'.words p n j hp h1 hw
      · exact ⟨p, h1, .inl rfl⟩
    · exact h.words p n j hp hn hc

/-- Away from the paths in `T` nothing changes. -/
theorem Touches.spares (h : Touches adm root T m m') {p : List ℕ} (hp : adm p)
    (hT : ∀ q, T q → ¬ p <+: q) : m'.table root p = m.table root p
      ∧ ∀ x, m.table root p = some x → ∀ j, m'.phys x j = m.phys x j := by
  have hself : ¬ T p := fun hc => hT p hc List.prefix_rfl
  refine ⟨Option.ext fun x => ⟨fun hx => ?_, fun hx => (h.nodes p x hp hx).resolve_right hself⟩,
    fun x hx j => ?_⟩
  · rcases h.added p x hp hx with h1 | h1 | ⟨⟨q, hq, hpq⟩, -⟩
    · exact h1
    · exact absurd h1 hself
    · exact absurd hpq (hT q hq)
  · by_contra hc
    obtain ⟨q, hq, rfl | hpq⟩ := h.words p x j hp hx hc
    · exact hself hq
    · exact hT q hq ((List.prefix_append p [j]).trans hpq.1)

/-- Nor do translations, where `T` leads to other pages: an entry in a new table is zero. -/
theorem Touches.leafEntry_eq (h : Touches adm root T m m') {va : ℕ} (hva : adm (tablePath va))
    (hT : ∀ q, T q → ∃ w, q = leafPath w ∧ leafPath w ≠ leafPath va) :
    m'.leafEntry root va = m.leafEntry root va := by
  have hoff : ∀ q, T q → ¬ tablePath va ++ [ptIdx va] <+: q := by
    intro q hq hpre
    obtain ⟨w, rfl, hne⟩ := hT q hq
    exact hne (hpre.eq_of_length rfl).symm
  have htab : ¬ T (tablePath va) := by
    intro hc
    obtain ⟨w, hw, -⟩ := hT _ hc
    simpa [leafPath, tablePath] using congrArg List.length hw
  rcases ho : m.table root (tablePath va) with _ | pt
  · rw [leafEntry_of_none ho]
    rcases hn : m'.table root (tablePath va) with _ | pt
    · exact leafEntry_of_none hn
    rcases h.added _ pt hva hn with h1 | h1 | ⟨-, hz⟩
    · rw [ho] at h1
      cases h1
    · exact absurd h1 htab
    · have hzero : m'.phys pt (ptIdx va) = 0#64 := by
        by_contra hc
        obtain ⟨q, hq, hpre⟩ := hz _ hc
        exact hoff q hq hpre
      rw [leafEntry_of_some hn, hzero]
      simp [isPresent_eq]
  · have hn := (h.nodes _ pt hva ho).resolve_right htab
    have hword : m'.phys pt (ptIdx va) = m.phys pt (ptIdx va) := by
      by_contra hc
      obtain ⟨q, hq, rfl | hpre⟩ := h.words _ pt _ hva ho hc
      · exact htab hq
      · exact hoff q hq hpre.1
    rw [leafEntry_of_some ho, leafEntry_of_some hn, hword]

end Touches

section Forests

variable {K : Type*} {root root' : K → Option ℕ} {adm adm' : K → List ℕ → Prop}
  {T : K → List ℕ → Prop} {m m' m'' : Machine} {k₀ : K} {P : List ℕ} {flags : BitVec 64}

variable (root adm) in
/-- An owned forest in which absent entries are zero. -/
structure TablesOk (m : Machine) : Prop extends Owned root adm m where
  tidy : ∀ k p n j, adm k (p ++ [j]) → m.node root k p = some n →
    isPresent (m.phys n j) = false → m.phys n j = 0#64

/-- Paths that lead to pages rather than tables. -/
def IsLeaf (adm : K → List ℕ → Prop) (k : K) (p : List ℕ) : Prop :=
  adm k p ∧ ∀ j, ¬ adm k (p ++ [j])

variable (root adm) in
/-- The step from `m` to `m'` keeps the tables, and touches the paths in `T` only. -/
structure Kept (T : K → List ℕ → Prop) (m m' : Machine) : Prop where
  tables : TablesOk root adm m'
  touches : ∀ k n, root k = some n → Touches (adm k) n (T k) m m'
  total : m'.pmm.totalPages = m.pmm.totalPages

theorem Machine.node_eq_table {pml4 : ℕ} (hroot : root k₀ = some pml4) (p : List ℕ) :
    m.node root k₀ p = m.table pml4 p := by
  rw [Machine.node, Radix.node, hroot]
  rfl

theorem Kept.of_node (tables : TablesOk root adm m')
    (nodes : ∀ k p n, adm k p → m.node root k p = some n → m'.node root k p = some n ∨ T k p)
    (added : ∀ k p n, adm k p → m'.node root k p = some n → m.node root k p = some n ∨ T k p
      ∨ ((∃ q, T k q ∧ p <+: q) ∧ ∀ j, m'.phys n j ≠ 0#64 → ∃ q, T k q ∧ p ++ [j] <+: q))
    (words : ∀ k p n j, adm k p → m.node root k p = some n → m'.phys n j ≠ m.phys n j →
      ∃ q, T k q ∧ (q = p ∨ (p ++ [j] <+: q ∧ (p ++ [j] = q ∨ isPresent (m.phys n j) = false))))
    (total : m'.pmm.totalPages = m.pmm.totalPages) : Kept root adm T m m' := by
  have hnode : ∀ {k n} (m : Machine), root k = some n → ∀ p, m.table n p = m.node root k p :=
    fun m hk p => (Machine.node_eq_table hk p).symm
  refine ⟨tables, fun k n hk => ⟨fun p x hp => ?_, fun p x hp => ?_, fun p x j hp => ?_⟩, total⟩
  · simpa only [hnode _ hk] using nodes k p x hp
  · simpa only [hnode _ hk] using added k p x hp
  · simpa only [hnode _ hk] using words k p x j hp

theorem Kept.refl (h : TablesOk root adm m) : Kept root adm T m m :=
  ⟨h, fun _ _ _ => Touches.refl, rfl⟩

theorem Kept.trans (h : Kept root adm T m m') (h' : Kept root adm T m' m'') :
    Kept root adm T m m'' :=
  ⟨h'.tables, fun k n hk => (h.touches k n hk).trans (h'.touches k n hk), h'.total.trans h.total⟩

theorem Kept.mono (h : Kept root adm T m m') (T' : K → List ℕ → Prop) (hT : ∀ k p, T k p → T' k p) :
    Kept root adm T' m m' :=
  ⟨h.tables, fun k n hk => (h.touches k n hk).mono (hT k), h.total⟩

/-- A step that leaves every node where it is. -/
theorem Kept.of_nodes_eq (tables : TablesOk root adm m')
    (hnode : ∀ k p, adm k p → m'.node root k p = m.node root k p)
    (words : ∀ k p n j, adm k p → m.node root k p = some n → m'.phys n j ≠ m.phys n j →
      ∃ q, T k q ∧ (q = p ∨ (p ++ [j] <+: q ∧ (p ++ [j] = q ∨ isPresent (m.phys n j) = false))))
    (total : m'.pmm.totalPages = m.pmm.totalPages) : Kept root adm T m m' :=
  Kept.of_node tables (fun k p _ hp hn => .inl ((hnode k p hp).trans hn))
    (fun k p _ hp hn => .inl ((hnode k p hp).symm.trans hn)) words total

/-- Where the children of the nodes are the same, so is the forest. -/
theorem TablesOk.congr (hadm : Radix.Closed adm) (h : TablesOk root adm m) (m' : Machine)
    (hI : m'.pmm.Inv)
    (htot : m'.pmm.totalPages = m.pmm.totalPages)
    (hbusy : ∀ k p n, adm k p → m.node root k p = some n → m'.pmm.Busy n)
    (hsame : ∀ k p a j, adm k (p ++ [j]) → m.node root k p = some a →
      tableChild m'.phys a j = tableChild m.phys a j
        ∧ (isPresent (m'.phys a j) = false → m'.phys a j = m.phys a j)) :
    TablesOk root adm m' ∧ ∀ k p, adm k p → m'.node root k p = m.node root k p := by
  have hnode : ∀ k p, adm k p → m'.node root k p = m.node root k p := fun k p hp =>
    Radix.node_congr hadm k (fun p a j hp ha => (hsame k p a j hp ha).1) p hp
  refine ⟨⟨⟨hI, htot ▸ h.width, fun k p k' p' n hp hp' hn hn' => ?_, fun k p n hp hn => ?_⟩,
    fun k p n j hp hn hpr => ?_⟩, hnode⟩
  · exact h.forest k p k' p' n hp hp' ((hnode k p hp).symm.trans hn)
      ((hnode k' p' hp').symm.trans hn')
  · exact hbusy k p n hp ((hnode k p hp).symm.trans hn)
  · rw [hnode k p (hadm _ _ _ hp)] at hn
    have hw := (hsame k p n j hp hn).2 hpr
    rw [hw] at hpr ⊢
    exact h.tidy k p n j hp hn hpr

/-- Fewer paths counted. -/
theorem TablesOk.mono_adm (h : TablesOk root adm m) (hadm : ∀ k p, adm' k p → adm k p) :
    TablesOk root adm' m where
  pmm := h.pmm
  width := h.width
  forest k p k' p' n hp hp' := h.forest k p k' p' n (hadm k p hp) (hadm k' p' hp')
  busy k p n hp := h.busy k p n (hadm k p hp)
  tidy k p n j hp := h.tidy k p n j (hadm k _ hp)

/-- Taking a frame for no tree yet. -/
theorem TablesOk.alloc (hadm : Radix.Closed adm) (h : TablesOk root adm m) :
    Kept root adm T m { m with pmm := (m.pmm.pmmAllocPage).2 } := by
  obtain ⟨a1, a2, a3, -⟩ := Pmm.pmmAllocPage_spec h.pmm
  obtain ⟨ht, hnode⟩ := h.congr hadm { m with pmm := (m.pmm.pmmAllocPage).2 } a1 a2
    (fun k p n hp hn => a3 n (h.busy k p n hp hn)) fun _ _ _ _ _ _ => ⟨rfl, fun _ => rfl⟩
  exact Kept.of_nodes_eq ht hnode (fun _ _ _ _ _ _ hw => absurd rfl hw) a2

theorem TablesOk.fresh_of_vacant (h : TablesOk root adm m) {x : ℕ} (hx : m.pmm.Vacant x) :
    Radix.Fresh (tableChild m.phys) root adm x := fun k p hp hn =>
  hx.not_busy (h.busy k p x hp hn)

/-! ## Mapping -/

theorem LeadsTo.isPresent {e : BitVec 64} (h : LeadsTo flags e) (hf : FlagsOk flags) :
    isPresent e = true := by
  obtain ⟨y, -, -, rfl⟩ := h
  exact isPresent_entry hf

theorem Grown.toKept (hadm : Radix.Closed adm) (hf : FlagsOk flags) (hP : adm k₀ P)
    (hT : ∃ q, T k₀ q ∧ P <+: q) (h : TablesOk root adm m)
    (hG : Grown root adm flags m m' k₀ P) (hO : Owned root adm m') : Kept root adm T m m' := by
  obtain ⟨q, hTq, hPq⟩ := hT
  refine Kept.of_node ⟨hO, fun k p n j hp hn hpr => ?_⟩
    (fun k p n hp hn => .inl (hG.kept k p n hp hn)) (fun k p n hp hn => ?_)
    (fun k p n j hp hn hw => ?_) hG.total
  · rcases hG.added k p n (hadm _ _ _ hp) hn with ho | ⟨-, -, -, hz⟩
    · by_cases hc : m'.phys n j = m.phys n j
      · rw [hc] at hpr ⊢
        exact h.tidy k p n j hp ho hpr
      · obtain ⟨-, -, -, -, hlead⟩ := hG.words n j (h.busy k p n (hadm _ _ _ hp) ho) hc
        rw [hlead.isPresent hf] at hpr
        cases hpr
    · rcases hz j with h0 | ⟨-, hlead⟩
      · exact h0
      · rw [hlead.isPresent hf] at hpr
        cases hpr
  · rcases hG.added k p n hp hn with ho | ⟨rfl, hpre, -, hz⟩
    · exact .inl ho
    · refine .inr (.inr ⟨⟨q, hTq, hpre.trans hPq⟩, fun j hj => ?_⟩)
      obtain ⟨hpj, -⟩ := (hz j).resolve_left hj
      exact ⟨q, hTq, hpj.trans hPq⟩
  · obtain ⟨r, ⟨s, hs⟩, hr, habs, -⟩ := hG.words n j (h.busy k p n hp hn) hw
    have hrj : adm k₀ (r ++ [j]) := hadm.of_append s (hs ▸ hP)
    obtain ⟨rfl, rfl⟩ := h.forest k p k₀ r n hp (hadm _ _ _ hrj) hn hr
    exact ⟨q, hTq, .inr ⟨List.IsPrefix.trans ⟨s, hs⟩ hPq, .inr habs⟩⟩

section Entry

variable {pt i : ℕ} {e : BitVec 64}

/-- Only the entry written changes. -/
theorem setEntry_words (h : TablesOk root adm m) (hP : adm k₀ P)
    (hpt : m.node root k₀ P = some pt) {k : K} {p : List ℕ} {n j : ℕ} (hp : adm k p)
    (hn : m.node root k p = some n) (hw : (m.setEntry pt i e).phys n j ≠ m.phys n j) :
    ∃ q, (k = k₀ ∧ q = P ++ [i])
      ∧ (q = p ∨ (p ++ [j] <+: q ∧ (p ++ [j] = q ∨ isPresent (m.phys n j) = false))) := by
  have hat : n = pt ∧ j = i := by
    by_contra hc
    exact hw (setEntry_phys_of_ne fun h1 h2 => hc ⟨h1, h2⟩)
  obtain ⟨rfl, rfl⟩ := hat
  obtain ⟨rfl, rfl⟩ := h.forest k p k₀ P n hp hP hn hpt
  exact ⟨_, ⟨rfl, rfl⟩, .inr ⟨List.prefix_rfl, .inl rfl⟩⟩

/-- A write to an entry that leads to no node of the forest. -/
theorem setEntry_outside (hadm : Radix.Closed adm) (h : TablesOk root adm m) (hP : adm k₀ P)
    (hpt : m.node root k₀ P = some pt) (hout : ¬ adm k₀ (P ++ [i])) :
    Kept root adm (fun k p => k = k₀ ∧ p = P ++ [i]) m (m.setEntry pt i e)
      ∧ ∀ k p, adm k p → (m.setEntry pt i e).node root k p = m.node root k p := by
  obtain ⟨ht, hnode⟩ := h.congr hadm (m.setEntry pt i e) h.pmm rfl h.busy
    fun k p a j hp ha => by
      have hw : (m.setEntry pt i e).phys a j = m.phys a j := by
        apply setEntry_phys_of_ne
        rintro rfl rfl
        obtain ⟨rfl, rfl⟩ := h.forest k p k₀ P a (hadm _ _ _ hp) hP ha hpt
        exact hout hp
      exact ⟨tableChild_congr hw, fun _ => hw⟩
  exact ⟨Kept.of_nodes_eq ht hnode (fun k p n j hp hn hw => setEntry_words h hP hpt hp hn hw) rfl,
    hnode⟩

/-- A write to an entry for a page: it leads nowhere now, or to a page of no tree. The second part
says what is reached afterwards. -/
theorem setEntry_leaf (hadm : Radix.Closed adm) (h : TablesOk root adm m)
    (hpt : m.node root k₀ P = some pt) (hleaf : IsLeaf adm k₀ (P ++ [i]))
    (hnew : ∀ x, tableChild (m.setEntry pt i e).phys pt i = some x →
      m.pmm.Busy x ∧ Radix.Fresh (tableChild m.phys) root adm x)
    (htidy : isPresent e = false → e = 0#64) :
    Kept root adm (fun k p => k = k₀ ∧ p = P ++ [i]) m (m.setEntry pt i e)
      ∧ ∀ k p x, adm k p → (m.setEntry pt i e).node root k p = some x →
        (k = k₀ ∧ p = P ++ [i] ∧ tableChild (m.setEntry pt i e).phys pt i = some x)
          ∨ (m.node root k p = some x ∧ ¬ (k = k₀ ∧ p = P ++ [i])) := by
  have hP : adm k₀ P := hadm _ _ _ hleaf.1
  have hsame : ∀ k p a j, adm k (p ++ [j]) → Radix.node (tableChild m.phys) root k p = some a →
      (a = pt → j ≠ i) → tableChild (m.setEntry pt i e).phys a j = tableChild m.phys a j :=
    fun k p a j _ _ hj => tableChild_congr (setEntry_phys_of_ne hj)
  have hbelow : ∀ y j, tableChild (m.setEntry pt i e).phys pt i = some y →
      adm k₀ (P ++ [i] ++ [j]) → tableChild (m.setEntry pt i e).phys y j = none :=
    fun y j _ hj => absurd hj (hleaf.2 j)
  have hw := Radix.node_write hadm h.forest hpt hleaf.1 rfl hsame hbelow
  have hF := h.forest.write hadm hpt hleaf.1 rfl hsame hbelow fun y hy => (hnew y hy).2
  have hcases : ∀ k p x, adm k p → (m.setEntry pt i e).node root k p = some x →
      (k = k₀ ∧ p = P ++ [i] ∧ tableChild (m.setEntry pt i e).phys pt i = some x)
        ∨ (m.node root k p = some x ∧ ¬ (k = k₀ ∧ P ++ [i] <+: p)) :=
    fun k p x hp hx => (hw p k x hp).mp hx
  have hother : ∀ k p x, adm k p → m.node root k p = some x → ¬ (k = k₀ ∧ p = P ++ [i]) →
      (m.setEntry pt i e).node root k p = some x := by
    intro k p x hp hx hT
    refine (hw p k x hp).mpr (.inr ⟨hx, ?_⟩)
    rintro ⟨rfl, s, rfl⟩
    rcases s with _ | ⟨j, s⟩
    · exact hT ⟨rfl, by simp⟩
    · have hj : adm k (P ++ [i] ++ [j] ++ s) := by simpa using hp
      exact hleaf.2 j (hadm.of_append s hj)
  refine ⟨Kept.of_node ⟨⟨h.pmm, h.width, hF, fun k p x hp hx => ?_⟩, fun k p n j hp hn hpr => ?_⟩
    (fun k p x hp hx => ?_) (fun k p x hp hx => ?_)
    (fun k p n j hp hn hw => setEntry_words h hP hpt hp hn hw) rfl, fun k p x hp hx => ?_⟩
  · rcases hcases k p x hp hx with ⟨-, -, hy⟩ | ⟨ho, -⟩
    · exact (hnew x hy).1
    · exact h.busy k p x hp ho
  · rcases hcases k p n (hadm _ _ _ hp) hn with ⟨rfl, rfl, -⟩ | ⟨ho, -⟩
    · exact absurd hp (hleaf.2 j)
    · by_cases hat : n = pt ∧ j = i
      · obtain ⟨rfl, rfl⟩ := hat
        rw [setEntry_phys_self] at hpr ⊢
        exact htidy hpr
      · rw [setEntry_phys_of_ne fun h1 h2 => hat ⟨h1, h2⟩] at hpr ⊢
        exact h.tidy k p n j hp ho hpr
  · by_cases hT : k = k₀ ∧ p = P ++ [i]
    · exact .inr hT
    · exact .inl (hother k p x hp hx hT)
  · rcases hcases k p x hp hx with ⟨hk, hpP, -⟩ | ⟨ho, -⟩
    · exact .inr (.inl ⟨hk, hpP⟩)
    · exact .inl ho
  · rcases hcases k p x hp hx with h1 | ⟨h1, h2⟩
    · exact .inl h1
    · refine .inr ⟨h1, ?_⟩
      rintro ⟨rfl, rfl⟩
      exact h2 ⟨rfl, List.prefix_rfl⟩

end Entry

theorem node_leafPath {pt va : ℕ} (hpt : m.node root k₀ (tablePath va) = some pt)
    (hpr : isPresent (m.phys pt (ptIdx va)) = true) :
    m.node root k₀ (leafPath va) = some (pteGetAddr (m.phys pt (ptIdx va))) := by
  rw [Machine.node] at hpt
  rw [Machine.node, leafPath, Radix.node_concat, hpt, Option.bind_some, tableChild, if_pos hpr]

theorem node_of_leafEntry {pml4 va : ℕ} {e : BitVec 64} (hroot : root k₀ = some pml4)
    (h : m.leafEntry pml4 va = some e) : m.node root k₀ (leafPath va) = some (pteGetAddr e) := by
  obtain ⟨pt, hpt, rfl, hpr⟩ := leafEntry_eq_some h
  exact node_leafPath ((Machine.node_eq_table hroot _).trans hpt) hpr

/-- The tables on the way to `va`, and then one entry if none was missing. -/
theorem vmmMapPage_cases (hadm : Radix.Closed adm) (h : TablesOk root adm m) {pml4 va : ℕ}
    (pa : ℕ) (hroot : root k₀ = some pml4) (hP : adm k₀ (tablePath va))
    (hT : T k₀ (leafPath va)) (hf : FlagsOk flags) :
    ∃ m₁, Kept root adm T m m₁ ∧ Grown root adm flags m m₁ k₀ (tablePath va)
      ∧ (m.vmmMapPage pml4 va pa flags = m₁
        ∨ ∃ pt, m₁.node root k₀ (tablePath va) = some pt
          ∧ m.vmmMapPage pml4 va pa flags
            = m₁.setEntry pt (ptIdx va) (BitVec.ofNat 64 pa ||| flags)) := by
  obtain ⟨hO, hG, hnode⟩ := nextTables_spec hadm hf (tablePath va) m [] pml4 h.toOwned
    ((Radix.node_nil _ _ _).trans hroot) hP
  have hT : ∃ q, T k₀ q ∧ tablePath va <+: q := ⟨_, hT, List.prefix_append _ _⟩
  rcases hr : m.nextTables true flags pml4 (tablePath va) with ⟨_ | pt, m₁⟩ <;>
    rw [hr] at hO hG hnode
  · refine ⟨m₁, hG.toKept hadm hf hP hT h hO, hG, .inl ?_⟩
    unfold Machine.vmmMapPage
    rw [← tablePath, hr]
  · exact ⟨m₁, hG.toKept hadm hf hP hT h hO, hG, .inr ⟨pt, hnode pt rfl, vmmMapPage_eq hf hr⟩⟩

theorem Grown.fresh (hG : Grown root adm flags m m' k₀ P) {x : ℕ} (hx : m.pmm.Busy x)
    (hfresh : Radix.Fresh (tableChild m.phys) root adm x) :
    Radix.Fresh (tableChild m'.phys) root adm x := by
  intro k p hp hn
  rcases hG.added k p x hp hn with ho | ⟨-, -, hnb, -⟩
  · exact hfresh k p hp ho
  · exact hnb hx

/-- Mapping a page that no tree counts. A frame of no tree stays one. -/
theorem vmmMapPage_outside (k₀ : K) (hadm : Radix.Closed adm) (h : TablesOk root adm m)
    {pml4 va : ℕ} (pa : ℕ) (hroot : root k₀ = some pml4) (hP : adm k₀ (tablePath va))
    (hout : ¬ adm k₀ (leafPath va)) (hf : FlagsOk flags) :
    Kept root adm (fun k p => k = k₀ ∧ p = leafPath va) m (m.vmmMapPage pml4 va pa flags)
      ∧ ∀ x, m.pmm.Busy x → (m.vmmMapPage pml4 va pa flags).pmm.Busy x
        ∧ (Radix.Fresh (tableChild m.phys) root adm x →
          Radix.Fresh (tableChild (m.vmmMapPage pml4 va pa flags).phys) root adm x) := by
  obtain ⟨m₁, hk, hG, he | ⟨pt, hpt, he⟩⟩ := vmmMapPage_cases
    (T := fun k p => k = k₀ ∧ p = leafPath va) hadm h pa hroot hP ⟨rfl, rfl⟩ hf <;>
    rw [he]
  · exact ⟨hk, fun x hx => ⟨hG.busy x hx, hG.fresh hx⟩⟩
  · obtain ⟨hk', hnode⟩ := setEntry_outside (e := BitVec.ofNat 64 pa ||| flags) hadm hk.tables hP
      hpt hout
    refine ⟨hk.trans hk', fun x hx => ⟨hG.busy x hx, fun hfresh k p hp hn => ?_⟩⟩
    exact hG.fresh hx hfresh k p hp ((hnode k p hp).symm.trans hn)

/-- Mapping a frame of no tree yet. -/
theorem vmmMapPage_leaf (hadm : Radix.Closed adm) (h : TablesOk root adm m) {pml4 va pa : ℕ}
    (hroot : root k₀ = some pml4) (hleaf : IsLeaf adm k₀ (leafPath va)) (hf : FlagsOk flags)
    (hpa : m.pmm.Busy pa) (hfresh : Radix.Fresh (tableChild m.phys) root adm pa) :
    Kept root adm (fun k p => k = k₀ ∧ p = leafPath va) m (m.vmmMapPage pml4 va pa flags) := by
  have hP : adm k₀ (tablePath va) := hadm _ _ _ hleaf.1
  obtain ⟨m₁, hk, hG, he | ⟨pt, hpt, he⟩⟩ := vmmMapPage_cases
    (T := fun k p => k = k₀ ∧ p = leafPath va) hadm h pa hroot hP ⟨rfl, rfl⟩ hf <;> rw [he]
  · exact hk
  · have hlt : pa < 2 ^ 52 := by
      have := h.width
      have := hpa.lt
      omega
    refine hk.trans (setEntry_leaf hadm hk.tables hpt hleaf (fun x hx => ?_) fun hpr => ?_).1
    · rw [tableChild, setEntry_phys_self, if_pos (isPresent_entry hf),
        pteGetAddr_entry hpa.aligned hlt hf] at hx
      obtain rfl := Option.some.inj hx
      exact ⟨hG.busy pa hpa, hG.fresh hpa hfresh⟩
    · rw [isPresent_entry hf] at hpr
      cases hpr

/-! ## Rolling back -/

theorem rollbackPage_kept (hadm : Radix.Closed adm) (h : TablesOk root adm m) {pml4 va : ℕ}
    (hroot : root k₀ = some pml4) (hleaf : IsLeaf adm k₀ (leafPath va)) :
    Kept root adm (fun k p => k = k₀ ∧ p = leafPath va) m (m.rollbackPage pml4 va) := by
  unfold Machine.rollbackPage
  rw [vmmGetPte_eq, ← Machine.node_eq_table hroot]
  rcases hpt : m.node root k₀ (tablePath va) with _ | pt
  · exact Kept.refl h
  dsimp only [Option.map_some]
  split_ifs with hpr
  · have hold := node_leafPath hpt hpr
    have hzero : tableChild (m.setEntry pt (ptIdx va) 0#64).phys pt (ptIdx va) = none :=
      tableChild_zero (setEntry_phys_self _ _ _ _)
    obtain ⟨hk, hnode⟩ := setEntry_leaf (e := 0#64) hadm h hpt hleaf
      (fun x hx => by rw [hzero] at hx; cases hx) fun _ => rfl
    have hbusy : ∀ k p n, adm k p → (m.setEntry pt (ptIdx va) 0#64).node root k p = some n →
        (m.pmm.pmmFreePage (pteGetAddr (m.phys pt (ptIdx va)))).Busy n := by
      intro k p n hp hn
      refine (Pmm.pmmFreePage_busy h.pmm (pteGetAddr_dvd _) n).mpr
        ⟨hk.tables.busy k p n hp hn, ?_⟩
      rintro rfl
      rcases hnode k p _ hp hn with ⟨-, -, hc⟩ | ⟨ho, hne⟩
      · rw [hzero] at hc
        cases hc
      · exact hne (h.forest k p k₀ _ _ hp hleaf.1 ho hold)
    refine hk.trans ?_
    obtain ⟨ht, hsame⟩ := hk.tables.congr hadm
      ⟨m.pmm.pmmFreePage (pteGetAddr (m.phys pt (ptIdx va))), m.phys.write pt (ptIdx va) 0#64⟩
      (Pmm.pmmFreePage_inv h.pmm _) (Pmm.pmmFreePage_totalPages _ _) hbusy
      fun _ _ _ _ _ _ => ⟨rfl, fun _ => rfl⟩
    exact Kept.of_nodes_eq ht hsame (fun _ _ _ _ _ _ hw => absurd rfl hw)
      (Pmm.pmmFreePage_totalPages _ _)
  · exact Kept.refl h

/-- The pages from `start` on, `N` of them, of tree `k₀`. -/
def InRange (k₀ : K) (start N : ℕ) (k : K) (p : List ℕ) : Prop :=
  k = k₀ ∧ ∃ i < N, p = leafPath (u64 (start + i * pageSize))

theorem rollback_kept (hadm : Radix.Closed adm) {pml4 start N : ℕ} (hroot : root k₀ = some pml4)
    (hleaf : ∀ i < N, IsLeaf adm k₀ (leafPath (u64 (start + i * pageSize)))) :
    ∀ (n : ℕ), n ≤ N → TablesOk root adm m →
      Kept root adm (InRange k₀ start N) m (m.rollback pml4 start n)
  | 0, _, h => Kept.refl h
  | n + 1, hn, h => by
    have ih := rollback_kept hadm hroot hleaf n (by omega) h
    unfold Machine.rollback at ih ⊢
    rw [List.range_succ, List.foldl_append]
    refine ih.trans ((rollbackPage_kept hadm ih.tables hroot (hleaf n (by omega))).mono _ ?_)
    rintro k p ⟨rfl, rfl⟩
    exact ⟨rfl, n, by omega, rfl⟩

/-- The loop goes no further than there are frames. -/
theorem mapRange_kept (hadm : Radix.Closed adm) (hf : FlagsOk flags) {pml4 start N : ℕ}
    (hroot : root k₀ = some pml4)
    (hleaf : ∀ i < N, IsLeaf adm k₀ (leafPath (u64 (start + i * pageSize)))) :
    ∀ (n i : ℕ) (m : Machine), i + min n m.pmm.freePages ≤ N → TablesOk root adm m →
      Kept root adm (InRange k₀ start N) m (Machine.mapRange pml4 start flags n i m).2
  | 0, i, m, _, h => Kept.refl h
  | n + 1, i, m, hn, h => by
    have halloc := h.alloc (T := InRange k₀ start N) hadm
    unfold Machine.mapRange
    dsimp only
    split_ifs with h0
    · exact halloc.trans (rollback_kept hadm hroot hleaf i (by omega) halloc.tables)
    · have hlt := (Pmm.pmmAllocPage_freePages m.pmm).2 h0
      obtain ⟨-, -, -, a4⟩ := Pmm.pmmAllocPage_spec h.pmm
      obtain ⟨hv, hbusy⟩ := a4 h0
      have hmap := (vmmMapPage_leaf hadm halloc.tables hroot (hleaf i (by omega)) hf
        ((hbusy _).mpr (.inr rfl)) (h.fresh_of_vacant hv)).mono (InRange k₀ start N) (by
          rintro k p ⟨rfl, rfl⟩
          exact ⟨rfl, i, by omega, rfl⟩)
      have hle := vmmMapPage_freePages { m with pmm := (m.pmm.pmmAllocPage).2 } pml4
        (u64 (start + i * pageSize)) (m.pmm.pmmAllocPage).1 flags
      dsimp only at hle
      exact (halloc.trans hmap).trans
        (mapRange_kept hadm hf hroot hleaf n (i + 1) _ (by omega) hmap.tables)

/-! ## Copying -/

/-- The entry `mm_copy` writes: the page of one entry with the low bits of another. -/
theorem copiedEntry (d s : BitVec 64) :
    pteGetAddr ((BitVec.ofNat 64 (pteGetAddr d) &&& pteAddrMask) ||| (s &&& 0xFFF#64))
        = pteGetAddr d
      ∧ isPresent ((BitVec.ofNat 64 (pteGetAddr d) &&& pteAddrMask) ||| (s &&& 0xFFF#64))
        = isPresent s := by
  have hself : pteAddrMask &&& pteAddrMask = pteAddrMask := BitVec.and_self
  have hlow : 0xFFF#64 &&& pteAddrMask = 0#64 := by decide
  constructor
  · unfold pteGetAddr
    rw [BitVec.ofNat_toNat, BitVec.setWidth_eq, or_and_mask, BitVec.and_assoc, BitVec.and_assoc,
      BitVec.and_assoc, hself, hself, hlow, BitVec.and_zero, BitVec.or_zero]
  · rw [isPresent_eq, isPresent_eq, BitVec.getLsbD_or, BitVec.getLsbD_and, BitVec.getLsbD_and]
    have h1 : pteAddrMask.getLsbD 0 = false := by decide
    have h2 : (0xFFF#64).getLsbD 0 = true := by decide
    rw [h1, h2, Bool.and_false, Bool.and_true, Bool.false_or]

/-- Tables are not pages. -/
theorem TablesOk.table_ne_leaf (hadm : Radix.Closed adm) (h : TablesOk root adm m) {k : K}
    {p : List ℕ} {a x j : ℕ} (hp : adm k (p ++ [j])) (ha : m.node root k p = some a)
    (hP : IsLeaf adm k₀ P) (hx : m.node root k₀ P = some x) : a ≠ x := by
  rintro rfl
  obtain ⟨rfl, rfl⟩ := h.forest k p k₀ P a (hadm _ _ _ hp) hP.1 ha hx
  exact hP.2 j hp

/-- New contents for a page. -/
theorem TablesOk.setPage (hadm : Radix.Closed adm) (h : TablesOk root adm m) {x : ℕ} {ph : PhysMem}
    (hP : IsLeaf adm k₀ P) (hx : m.node root k₀ P = some x)
    (hph : ∀ a j, a ≠ x → ph a j = m.phys a j) :
    Kept root adm (fun k p => k = k₀ ∧ p = P) m { m with phys := ph } ∧ ∀ k p, adm k p →
      Machine.node { m with phys := ph } root k p = m.node root k p := by
  obtain ⟨ht, hnode⟩ := h.congr hadm { m with phys := ph } h.pmm rfl h.busy fun k p a j hp ha => by
    have hw := hph a j (h.table_ne_leaf hadm hp ha hP hx)
    exact ⟨tableChild_congr hw, fun _ => hw⟩
  refine ⟨Kept.of_nodes_eq ht hnode (fun k p n j hp hn hw => ?_) rfl, hnode⟩
  obtain rfl : n = x := by
    by_contra hc
    exact hw (hph n j hc)
  obtain ⟨rfl, rfl⟩ := h.forest k p k₀ P n hp hP.1 hn hx
  exact ⟨_, ⟨rfl, rfl⟩, .inl rfl⟩

/-- New contents for a page, and a new entry that leads to it. -/
theorem copyPage_kept (hadm : Radix.Closed adm) (h : TablesOk root adm m) {pt i dstPa : ℕ}
    (srcPa : ℕ) {e : BitVec 64} (hpt : m.node root k₀ P = some pt)
    (hleaf : IsLeaf adm k₀ (P ++ [i])) (hold : tableChild m.phys pt i = some dstPa)
    (he : isPresent e = true) (haddr : pteGetAddr e = dstPa) :
    Kept root adm (fun k p => k = k₀ ∧ p = P ++ [i]) m
      (Machine.setEntry { m with phys := m.phys.copyPage dstPa srcPa } pt i e) := by
  set m₁ : Machine := { m with phys := m.phys.copyPage dstPa srcPa }
  have hx : m.node root k₀ (P ++ [i]) = some dstPa := by
    rw [Machine.node] at hpt
    rw [Machine.node, Radix.node_concat, hpt, Option.bind_some, hold]
  have hcopy : ∀ a j, a ≠ dstPa → m₁.phys a j = m.phys a j := fun a j ha => if_neg ha
  obtain ⟨ht, hnode⟩ := h.congr hadm (m₁.setEntry pt i e) h.pmm rfl h.busy
    fun k p a j hp ha => by
      by_cases hat : a = pt ∧ j = i
      · obtain ⟨rfl, rfl⟩ := hat
        rw [hold, tableChild, setEntry_phys_self, if_pos he, haddr]
        exact ⟨rfl, fun hc => absurd (he.symm.trans hc) (by simp)⟩
      · have hw : (m₁.setEntry pt i e).phys a j = m.phys a j := by
          rw [setEntry_phys_of_ne fun h1 h2 => hat ⟨h1, h2⟩,
            hcopy a j (h.table_ne_leaf hadm hp ha hleaf hx)]
        exact ⟨tableChild_congr hw, fun _ => hw⟩
  refine Kept.of_nodes_eq ht hnode (fun k p n j hp hn hw => ?_) rfl
  by_cases hnd : n = dstPa
  · subst hnd
    obtain ⟨rfl, rfl⟩ := h.forest k p k₀ _ _ hp hleaf.1 hn hx
    exact ⟨_, ⟨rfl, rfl⟩, .inl rfl⟩
  · refine setEntry_words (e := e) h (hadm _ _ _ hleaf.1) hpt hp hn fun hc => hw ?_
    by_cases hat : n = pt ∧ j = i
    · obtain ⟨rfl, rfl⟩ := hat
      rw [setEntry_phys_self] at hc ⊢
      exact hc
    · rw [setEntry_phys_of_ne fun h1 h2 => hat ⟨h1, h2⟩, hcopy n j hnd]

theorem copyPte_kept (hadm : Radix.Closed adm) (h : TablesOk root adm m) {dst src va : ℕ} {k₁ : K}
    (hdst : root k₀ = some dst) (hsrc : root k₁ = some src) (hleaf : IsLeaf adm k₀ (leafPath va))
    (hleaf₁ : adm k₁ (leafPath va)) :
    Kept root adm (fun k p => k = k₀ ∧ p = leafPath va) m (m.copyPte dst src va).2 := by
  unfold Machine.copyPte
  rw [vmmGetPte_eq m dst, vmmGetPte_eq m src, ← Machine.node_eq_table hdst,
    ← Machine.node_eq_table hsrc]
  rcases hpt : m.node root k₀ (tablePath va) with _ | pt
  · rcases m.node root k₁ (tablePath va) with _ | spt <;> exact Kept.refl h
  rcases hspt : m.node root k₁ (tablePath va) with _ | spt
  · exact Kept.refl h
  dsimp only [Option.map_some]
  split_ifs with hpr h0
  · exact Kept.refl h
  · have hpresent : isPresent (m.phys pt (ptIdx va)) = true := by
      by_contra hc
      refine h0 ?_
      rw [h.tidy k₀ (tablePath va) pt (ptIdx va) hleaf.1 hpt (by simpa using hc)]
      rfl
    have hne := h.table_ne_leaf hadm hleaf₁ hspt hleaf (node_leafPath hpt hpresent)
    have hword : m.phys.copyPage (pteGetAddr (m.phys pt (ptIdx va)))
        (pteGetAddr (m.phys spt (ptIdx va))) spt (ptIdx va) = m.phys spt (ptIdx va) := if_neg hne
    rw [hword]
    obtain ⟨haddr, hpres⟩ := copiedEntry (m.phys pt (ptIdx va)) (m.phys spt (ptIdx va))
    exact copyPage_kept hadm h _ hpt hleaf (if_pos hpresent) (hpres.trans hpr) haddr
  · exact Kept.refl h

theorem copyRange_kept (hadm : Radix.Closed adm) {dst src stop : ℕ} {k₁ : K}
    (hdst : root k₀ = some dst) (hsrc : root k₁ = some src)
    (hleaf : ∀ va < stop, IsLeaf adm k₀ (leafPath va) ∧ adm k₁ (leafPath va)) :
    ∀ (n va : ℕ) (m : Machine), (∀ i < n, u64 (va + i * pageSize) < stop) → va < 2 ^ 64 →
      TablesOk root adm m →
      Kept root adm (fun k p => k = k₀ ∧ ∃ va < stop, p = leafPath va) m
        (Machine.copyRange dst src n va m).2
  | 0, va, m, _, _, h => Kept.refl h
  | n + 1, va, m, hn, hva, h => by
    have h0 : va < stop := by
      have := hn 0 (by omega)
      rwa [Nat.zero_mul, Nat.add_zero, u64_of_lt hva] at this
    have hk := (copyPte_kept hadm h hdst hsrc (hleaf va h0).1 (hleaf va h0).2).mono
      (fun k p => k = k₀ ∧ ∃ va < stop, p = leafPath va) (by
        rintro k p ⟨rfl, rfl⟩
        exact ⟨rfl, va, h0, rfl⟩)
    unfold Machine.copyRange
    rcases hc : m.copyPte dst src va with ⟨_ | _, m'⟩ <;> rw [hc] at hk
    · exact hk
    · refine hk.trans (copyRange_kept hadm hdst hsrc hleaf n _ m' (fun i hi => ?_) (u64_lt _)
        hk.tables)
      rw [u64_add_mul]
      exact hn (i + 1) (by omega)

/-! ## New trees -/

/-- Writing to a page of no tree. -/
theorem TablesOk.fill (hadm : Radix.Closed adm) (h : TablesOk root adm m) {x : ℕ} {ph : PhysMem}
    (hfresh : Radix.Fresh (tableChild m.phys) root adm x)
    (hph : ∀ a j, a ≠ x → ph a j = m.phys a j) :
    Kept root adm T m { m with phys := ph } ∧ ∀ k p, adm k p →
      Machine.node { m with phys := ph } root k p = m.node root k p := by
  have hword : ∀ k p a j, adm k p → m.node root k p = some a → ph a j = m.phys a j := by
    intro k p a j hp ha
    refine hph a j ?_
    rintro rfl
    exact hfresh k p hp ha
  obtain ⟨ht, hnode⟩ := h.congr hadm { m with phys := ph } h.pmm rfl h.busy
    fun k p a j hp ha =>
      have hw := hword k p a j (hadm _ _ _ hp) ha
      ⟨tableChild_congr hw, fun _ => hw⟩
  exact ⟨Kept.of_nodes_eq ht hnode
    (fun k p n j hp hn hw => absurd (hword k p n j hp hn) hw) rfl, hnode⟩

/-- A taken page of no tree, its admissible entries zero, becomes a tree of its own. -/
theorem TablesOk.addRoot (k₀ : K) (hadm : Radix.Closed adm) (h : TablesOk root adm m) {n : ℕ}
    (hnew : root' k₀ = some n) (hold : ∀ k, k ≠ k₀ → root' k = root k)
    (hzero : ∀ j, adm k₀ [j] → m.phys n j = 0#64) (hbusy : m.pmm.Busy n)
    (hfresh : Radix.Fresh (tableChild m.phys) root adm n) : TablesOk root' adm m := by
  have hbelow : ∀ j, adm k₀ [j] → tableChild m.phys n j = none := fun j hj =>
    tableChild_zero (hzero j hj)
  refine ⟨⟨h.pmm, h.width, h.forest.addRoot hadm hnew hold hbelow hfresh, fun k p x hp hx => ?_⟩,
    fun k p x j hp hx hpr => ?_⟩
  · rcases Radix.node_addRoot hadm hnew hold hbelow hp hx with ⟨-, -, rfl⟩ | ⟨-, ho⟩
    · exact hbusy
    · exact h.busy k p x hp ho
  · rcases Radix.node_addRoot hadm hnew hold hbelow (hadm _ _ _ hp) hx with
      ⟨rfl, rfl, rfl⟩ | ⟨-, ho⟩
    · exact hzero j hp
    · exact h.tidy k p x j hp ho hpr

/-- Some of the trees, with the frames of the others released. -/
theorem TablesOk.drop (h : TablesOk root adm m) {pmm' : Pmm}
    (hroot : ∀ k n, root' k = some n → root k = some n) (hI : pmm'.Inv)
    (htot : pmm'.totalPages = m.pmm.totalPages)
    (hbusy : ∀ k p x, adm k p → m.node root' k p = some x → m.pmm.Busy x → pmm'.Busy x) :
    TablesOk root' adm { m with pmm := pmm' } where
  pmm := hI
  width := htot ▸ h.width
  forest := h.forest.mono hroot
  busy k p x hp hx := hbusy k p x hp hx (h.busy k p x hp (Radix.node_mono (hroot k) hx))
  tidy k p x j hp hx hpr := h.tidy k p x j hp (Radix.node_mono (hroot k) hx) hpr

end Forests

/-! ## Taking a tree down -/

/-- The frames that an operation on the allocator releases. -/
def Frees (f : Pmm → Pmm) (R : ℕ → Prop) : Prop :=
  ∀ p : Pmm, p.Inv → (f p).Inv ∧ (f p).totalPages = p.totalPages
    ∧ ∀ n, (f p).Busy n ↔ p.Busy n ∧ ¬ R n

theorem Frees.comp {f g : Pmm → Pmm} {R S : ℕ → Prop} (hf : Frees f R) (hg : Frees g S) :
    Frees (fun p => g (f p)) fun n => R n ∨ S n := by
  intro p hp
  obtain ⟨h1, h2, h3⟩ := hf p hp
  obtain ⟨k1, k2, k3⟩ := hg (f p) h1
  exact ⟨k1, k2.trans h2, fun n => by rw [k3, h3, and_assoc, not_or]⟩

theorem Frees.foldl {f : Pmm → ℕ → Pmm} {R : ℕ → ℕ → Prop} :
    ∀ {is : List ℕ}, (∀ i ∈ is, Frees (fun p => f p i) (R i)) →
      Frees (fun p => is.foldl f p) fun n => ∃ i ∈ is, R i n
  | [], _ => fun p hp => ⟨hp, rfl, fun n => by simp⟩
  | i :: is, h => by
    have hi := h i List.mem_cons_self
    have his := Frees.foldl fun j hj => h j (List.mem_cons_of_mem _ hj)
    intro p hp
    obtain ⟨h1, h2, h3⟩ := (hi.comp his) p hp
    exact ⟨h1, h2, fun n => (h3 n).trans (and_congr_right fun _ => not_congr (by simp))⟩

theorem frees_pmmFreePage {pa : ℕ} (hal : 4096 ∣ pa) :
    Frees (fun p => p.pmmFreePage pa) (· = pa) := fun p hp =>
  ⟨Pmm.pmmFreePage_inv hp pa, Pmm.pmmFreePage_totalPages p pa, Pmm.pmmFreePage_busy hp hal⟩

/-- Paths of the user half: at most four indices, the first below 256. -/
def UserPath (p : List ℕ) : Prop :=
  p.length ≤ 4 ∧ (∀ i ∈ p, i < 512) ∧ ∀ i ∈ p.head?, i < 256

/-- The paths `user_pgtable_free_recursive` goes down from a table of the given level. -/
def Below (level : ℕ) (q : List ℕ) : Prop :=
  q ≠ [] ∧ q.length ≤ level ∧ (∀ i ∈ q, i < 512) ∧ (level = 4 → ∀ i ∈ q.head?, i < 256)

theorem below_cons {level i : ℕ} {q : List ℕ} (hl : level + 1 ≤ 4) :
    Below (level + 1) (i :: q) ↔ i ∈ List.range (if level + 1 = 4 then 256 else 512)
      ∧ (q = [] ∨ Below level q) := by
  have h4 : level ≠ 4 := by omega
  unfold Below
  simp only [ne_eq, reduceCtorEq, not_false_eq_true, List.length_cons, List.mem_cons,
    forall_eq_or_imp, List.head?_cons, Option.mem_def, Option.some.injEq, forall_eq', true_and,
    List.mem_range, h4, false_imp_iff, and_true, Nat.add_le_add_iff_right]
  constructor
  · rintro ⟨h1, ⟨h2, h3⟩, h5⟩
    refine ⟨?_, ?_⟩
    · split_ifs with hc
      · exact h5 hc
      · exact h2
    · by_cases hq : q = []
      · exact .inl hq
      · exact .inr ⟨hq, h1, h3⟩
  · rintro ⟨h1, h2⟩
    have hi : i < 512 ∧ (level + 1 = 4 → i < 256) := by
      split_ifs at h1 with hc
      · exact ⟨by omega, fun _ => h1⟩
      · exact ⟨h1, fun h => absurd h hc⟩
    rcases h2 with rfl | ⟨-, h2, h3⟩
    · exact ⟨by simp, ⟨hi.1, by simp⟩, hi.2⟩
    · exact ⟨h2, ⟨hi.1, h3⟩, hi.2⟩

/-- One round of its loop releases the page that the entry names, and what is below it. -/
theorem frees_entry (ph : PhysMem) {level : ℕ} (t i : ℕ)
    (ih : ∀ t, Frees (userPgtableFreeRecursive ph level t) fun n =>
      ∃ q, Below level q ∧ Radix.walk (tableChild ph) t q = some n) :
    Frees (fun p =>
      if isPresent (ph t i) then
        let next := pteGetAddr (ph t i)
        let p := if level + 1 > 1 then userPgtableFreeRecursive ph level next p else p
        p.pmmFreePage next
      else p)
      fun n => ∃ q, (q = [] ∨ Below level q) ∧ Radix.walk (tableChild ph) t (i :: q) = some n := by
  intro p hp
  by_cases hpr : isPresent (ph t i) = true
  · have hchild : tableChild ph t i = some (pteGetAddr (ph t i)) := if_pos hpr
    have hrec : (if level + 1 > 1 then userPgtableFreeRecursive ph level (pteGetAddr (ph t i)) p
        else p) = userPgtableFreeRecursive ph level (pteGetAddr (ph t i)) p := by
      split_ifs with h
      · rfl
      · obtain rfl : level = 0 := by omega
        rfl
    dsimp only
    rw [if_pos hpr, hrec]
    obtain ⟨h1, h2, h3⟩ :=
      ((ih (pteGetAddr (ph t i))).comp (frees_pmmFreePage (pteGetAddr_dvd (ph t i)))) p hp
    refine ⟨h1, h2, fun n => (h3 n).trans (and_congr_right fun _ => not_congr ?_)⟩
    simp only [Radix.walk, hchild, Option.bind_some, or_and_right, exists_or, exists_eq_left,
      Option.some.injEq]
    rw [or_comm, eq_comm]
  · have hchild : tableChild ph t i = none := if_neg hpr
    dsimp only
    rw [if_neg hpr]
    refine ⟨hp, rfl, fun n => ?_⟩
    simp only [Radix.walk, hchild, Option.bind_none, reduceCtorEq, and_false, exists_false,
      not_false_eq_true, and_true]

/-- `user_pgtable_free_recursive` releases what the walk from the table reaches. -/
theorem frees_userPgtableFreeRecursive (ph : PhysMem) : ∀ (level t : ℕ), level ≤ 4 →
    Frees (userPgtableFreeRecursive ph level t) fun n =>
      ∃ q, Below level q ∧ Radix.walk (tableChild ph) t q = some n
  | 0, t, _ => fun p hp => by
    refine ⟨hp, rfl, fun n => ⟨fun h => ⟨h, ?_⟩, fun h => h.1⟩⟩
    rintro ⟨q, ⟨hne, hlen, -⟩, -⟩
    exact hne (List.length_eq_zero_iff.mp (by omega))
  | level + 1, t, hl => by
    have ih := fun t => frees_userPgtableFreeRecursive ph level t (by omega)
    intro p hp
    have hloop := Frees.foldl fun i (_ : i ∈ List.range (if level + 1 = 4 then 256 else 512)) =>
      frees_entry ph t i ih
    obtain ⟨h1, h2, h3⟩ := hloop p hp
    refine ⟨h1, h2, fun n => ?_⟩
    refine (h3 n).trans (and_congr_right fun _ => not_congr ?_)
    constructor
    · rintro ⟨i, hi, q, hq, hw⟩
      exact ⟨i :: q, (below_cons hl).mpr ⟨hi, hq⟩, hw⟩
    · rintro ⟨_ | ⟨i, q⟩, hq, hw⟩
      · exact absurd rfl hq.1
      · obtain ⟨hi, hq⟩ := (below_cons hl).mp hq
        exact ⟨i, hi, q, hq, hw⟩

end SudoOS
