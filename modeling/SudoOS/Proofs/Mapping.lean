import SudoOS.Rights
import SudoOS.Proofs.Ownership

/-!
# What a mapping needs

`vmm_map_page` returns nothing, so it does not tell its caller when no frame is left for a table.
It needs one for each table that is missing on the way (`Machine.missing`), and maps the page
exactly when there are so many (`nextTables_frames`).
-/

namespace SudoOS

namespace Pmm

/-- With page zero taken the counter tells whether a page is left. -/
theorem pmmAllocPage_exact {p : Pmm} (h : p.Inv) (hz : p.Busy 0) :
    (p.freePages = 0 ∧ p.pmmAllocPage = (0, p))
      ∨ ((p.pmmAllocPage).1 ≠ 0 ∧ (p.pmmAllocPage).2.freePages + 1 = p.freePages) := by
  rcases pmmAllocPage_cases h with ⟨he, hall⟩ | ⟨i, he, hi, hc, -⟩
  · refine .inl ⟨?_, he⟩
    rw [h.count]
    exact ByteMap.countClear_eq_zero.mpr hall
  · right
    have hi0 : i ≠ 0 := by
      rintro rfl
      have hbit : p.bitTest 0 = true := hz.bit
      rw [hbit] at hc
      cases hc
    have hfree : p.freePages ≠ 0 := by
      rw [h.count, Ne, ByteMap.countClear_eq_zero]
      intro hall
      have hbit : p.bitTest i = true := hall i hi
      rw [hbit] at hc
      cases hc
    rw [he]
    refine ⟨by simpa using hi0, ?_⟩
    simp only [takePage]
    omega

end Pmm

/-! ## Walks -/

section Walks

variable {m m' : Machine}

theorem walk_concat (m : Machine) (i : ℕ) : ∀ (p : List ℕ) (t : ℕ),
    m.walk t (p ++ [i]) = m.walk t p ++
      ((m.table t p).elim [] fun n => if isPresent (m.phys n i) then [m.phys n i] else [])
  | [], t => by
    simp only [List.nil_append, Machine.walk, Machine.table, Radix.walk, Option.elim_some]
  | j :: p, t => by
    simp only [List.cons_append, Machine.walk, Machine.table, Radix.walk, tableChild]
    by_cases h : isPresent (m.phys t j) = true
    · simp only [if_pos h, List.cons_append, Option.bind_some]
      rw [walk_concat m i p]
      rfl
    · simp [h]

theorem walk_length_le (m : Machine) : ∀ (p : List ℕ) (t : ℕ), (m.walk t p).length ≤ p.length
  | [], _ => le_rfl
  | i :: p, t => by
    unfold Machine.walk
    split_ifs
    · exact Nat.succ_le_succ (walk_length_le m p _)
    · exact Nat.zero_le _

/-- A walk that meets an entry for each index ends at a table. -/
theorem walk_length (m : Machine) : ∀ (p : List ℕ) (t : ℕ),
    (m.walk t p).length = p.length ↔ m.table t p ≠ none
  | [], t => by simp [Machine.walk, Machine.table, Radix.walk]
  | i :: p, t => by
    simp only [Machine.walk, Machine.table, Radix.walk, tableChild]
    by_cases h : isPresent (m.phys t i) = true
    · simp only [if_pos h, List.length_cons, Nat.add_right_cancel_iff, Option.bind_some]
      exact walk_length m p _
    · simp [h]

theorem mem_walk (m : Machine) {e : BitVec 64} : ∀ {p : List ℕ} {t : ℕ}, e ∈ m.walk t p ↔
    ∃ q i n, q ++ [i] <+: p ∧ m.table t q = some n ∧ isPresent (m.phys n i) = true
      ∧ m.phys n i = e
  | [], t => by simp [Machine.walk]
  | j :: p, t => by
    have ih := fun t => mem_walk m (e := e) (p := p) (t := t)
    unfold Machine.walk
    constructor
    · intro he
      split_ifs at he with h
      · rcases List.mem_cons.mp he with rfl | he
        · exact ⟨[], j, t, by simp, rfl, h, rfl⟩
        · obtain ⟨q, i, n, ⟨s, hs⟩, hq, hpr, hn⟩ := (ih _).mp he
          refine ⟨j :: q, i, n, ⟨s, by simp [← hs]⟩, ?_, hpr, hn⟩
          simp only [Machine.table, Radix.walk, tableChild, if_pos h, Option.bind_some]
          exact hq
      · cases he
    · rintro ⟨_ | ⟨a, q⟩, i, n, hpre, hq, hpr, rfl⟩
      · obtain rfl : i = j := by simpa using hpre
        obtain rfl : t = n := Option.some.inj hq
        rw [if_pos hpr]
        exact List.mem_cons_self
      · rw [List.cons_append] at hpre
        obtain ⟨rfl, hpre'⟩ := List.cons_prefix_cons.mp hpre
        simp only [Machine.table, Radix.walk, tableChild] at hq
        by_cases h : isPresent (m.phys t a) = true
        · simp only [if_pos h, Option.bind_some] at hq
          rw [if_pos h]
          exact List.mem_cons_of_mem _ ((ih _).mpr ⟨q, i, n, hpre', hq, hpr, rfl⟩)
        · simp [h] at hq

/-- A walk sees only the entries on its way, and of an absent one only that. -/
theorem walk_congr : ∀ {p : List ℕ} {t : ℕ},
    (∀ q i n, q ++ [i] <+: p → m.table t q = some n → m'.phys n i = m.phys n i
      ∨ (isPresent (m'.phys n i) = false ∧ isPresent (m.phys n i) = false)) →
    m'.walk t p = m.walk t p
  | [], _, _ => rfl
  | j :: p, t, h => by
    unfold Machine.walk
    rcases h [] j t (by simp) rfl with hw | ⟨h1, h2⟩
    · rw [hw]
      split_ifs with hpr
      · congr 1
        refine walk_congr fun q i n hpre hq => h (j :: q) i n ?_ ?_
        · exact List.cons_prefix_cons.mpr ⟨rfl, hpre⟩
        · simp only [Machine.table, Radix.walk, tableChild, if_pos hpr, Option.bind_some]
          exact hq
      · rfl
    · simp [h1, h2]

end Walks

/-! ## Frames for tables -/

/-- The tables that are missing on the way. -/
def Machine.missing (m : Machine) (t : ℕ) (is : List ℕ) : ℕ := is.length - (m.walk t is).length

section Frames

variable {K : Type*} {root : K → Option ℕ} {adm : K → List ℕ → Prop} {k₀ : K}
  {flags : BitVec 64}

/-- Nothing is below a table that has just been added at the end of the path. -/
theorem Grown.walk_new {m m' : Machine} {P : List ℕ} {x : ℕ}
    (hG : Grown root adm flags m m' k₀ P) (hold : m.node root k₀ P = none) (hP : adm k₀ P)
    (hnew : m'.node root k₀ P = some x) (is : List ℕ) : m'.walk x is = [] := by
  rcases hG.added k₀ P x hP hnew with h | ⟨-, -, -, hz⟩
  · rw [hold] at h
    cases h
  · rcases is with _ | ⟨j, is⟩
    · rfl
    · have hzero : m'.phys x j = 0#64 := by
        rcases hz j with h0 | ⟨hpre, -⟩
        · exact h0
        · have := hpre.length_le
          simp at this
      simp [Machine.walk, hzero, isPresent_eq]

/-- The way down is found if there is a frame for each missing table, which then is taken;
otherwise all frames are. -/
theorem nextTables_frames (hadm : Radix.Closed adm) (hf : FlagsOk flags) :
    ∀ (is : List ℕ) (m : Machine) (p₀ : List ℕ) (t : ℕ), Owned root adm m → m.pmm.Busy 0 →
      m.node root k₀ p₀ = some t → adm k₀ (p₀ ++ is) →
      (m.missing t is ≤ m.pmm.freePages → (m.nextTables true flags t is).1 ≠ none
        ∧ (m.nextTables true flags t is).2.pmm.freePages + m.missing t is = m.pmm.freePages)
      ∧ (m.pmm.freePages < m.missing t is → (m.nextTables true flags t is).1 = none
        ∧ (m.nextTables true flags t is).2.pmm.freePages = 0
        ∧ (m.nextTables true flags t is).2.node root k₀ (p₀ ++ is) = none)
  | [], m, p₀, t, _, _, _, _ => by simp [Machine.missing, Machine.walk, Machine.nextTables]
  | i :: is, m, p₀, t, hO, hz, hn, hp => by
    rw [show p₀ ++ i :: is = p₀ ++ [i] ++ is by simp] at hp ⊢
    obtain ⟨h1, h2, h3⟩ := getNextTable_spec hadm hO hn (hadm.of_append is hp) hf
    have hle := fun t => walk_length_le m is t
    simp only [Machine.nextTables]
    rcases getNextTable_cases m t i flags with ⟨x, hx, he⟩ | ⟨hx, h0, he⟩ | ⟨hx, h0, he⟩ <;>
      rw [he] at h1 h2 h3 ⊢
    · have ih := nextTables_frames hadm hf is m (p₀ ++ [i]) x hO hz (h3 x rfl) hp
      have hmissing : m.missing t (i :: is) = m.missing x is := by
        unfold tableChild at hx
        split_ifs at hx with hpr
        obtain rfl := Option.some.inj hx
        simp only [Machine.missing, Machine.walk, if_pos hpr, List.length_cons]
        omega
      rw [hmissing]
      exact ih
    all_goals
      have hmissing : m.missing t (i :: is) = is.length + 1 := by
        have hpr : isPresent (m.phys t i) ≠ true := by
          intro hpr
          rw [tableChild, if_pos hpr] at hx
          cases hx
        simp [Machine.missing, Machine.walk, hpr]
      rw [hmissing]
      rcases Pmm.pmmAllocPage_exact hO.pmm hz with ⟨hfree, halloc⟩ | ⟨h0', hfree⟩
    · have hnone : m.node root k₀ (p₀ ++ [i] ++ is) = none := by
        refine Radix.node_append_none ?_ is
        simp only [Machine.node, Radix.node_concat] at hn ⊢
        rw [hn, Option.bind_some, hx]
      simp only [halloc, hfree]
      simpa using hnone
    · exact absurd h0 h0'
    · exact absurd (congrArg Prod.fst halloc) h0
    · obtain ⟨k1, k2⟩ := nextTables_frames hadm hf is _ (p₀ ++ [i]) _ h1 (h2.busy 0 hz)
        (h3 _ rfl) hp
      have hnone : m.node root k₀ (p₀ ++ [i]) = none := by
        simp only [Machine.node, Radix.node_concat] at hn ⊢
        rw [hn, Option.bind_some, hx]
      have hempty := h2.walk_new hnone (hadm.of_append is hp) (h3 _ rfl) is
      have hall : ∀ m' : Machine, m'.walk (m.pmm.pmmAllocPage).1 is = [] →
          m'.missing (m.pmm.pmmAllocPage).1 is = is.length := fun m' h => by
        rw [Machine.missing, h, List.length_nil, Nat.sub_zero]
      rw [hall _ hempty] at k1 k2
      dsimp only at k1 k2 ⊢
      refine ⟨fun hle => ?_, fun hlt => k2 (by omega)⟩
      obtain ⟨g1, g2⟩ := k1 (by omega)
      exact ⟨g1, by omega⟩

end Frames

/-! ## One page -/

/-- The tables below the PML4 form a tree of taken frames, page zero being one of the latter. -/
structure MapInv (pml4 : ℕ) (m : Machine) : Prop where
  pmm : m.pmm.Inv
  width : m.pmm.totalPages ≤ 2 ^ 40
  zero : m.pmm.Busy 0
  tree : TableTree m pml4

section Page

variable {m m' : Machine} {pml4 pt va : ℕ} {flags : BitVec 64}

theorem MapInv.owned (h : MapInv pml4 m) :
    Owned (fun _ : Unit => some pml4) (fun _ p => TablePath p) m :=
  h.tree.owned h.pmm h.width

theorem tablePath_of_leaf {q : List ℕ} {i : ℕ} (h : q ++ [i] <+: leafPath va) :
    TablePath q := by
  obtain ⟨s, hs⟩ := h
  have hlen := congrArg List.length hs
  simp only [List.length_append, leafPath, tablePath, List.length_cons, List.length_nil] at hlen
  refine ⟨by omega, fun j hj => leafPath_lt va j ?_⟩
  rw [← hs]
  simp [hj]

/-- `vmm_map_page` adds tables as long as there are frames, and writes the entry of the page if
there are enough. -/
theorem vmmMapPage_split (h : MapInv pml4 m) (hf : FlagsOk flags) (va pa : ℕ) :
    ∃ m₁, MapInv pml4 m₁
      ∧ Grown (fun _ : Unit => some pml4) (fun _ p => TablePath p) flags m m₁ () (tablePath va)
      ∧ ((m.pmm.freePages < m.missing pml4 (tablePath va) ∧ m₁.pmm.freePages = 0
          ∧ m.vmmMapPage pml4 va pa flags = m₁)
        ∨ (m.missing pml4 (tablePath va) ≤ m.pmm.freePages
          ∧ m₁.pmm.freePages + m.missing pml4 (tablePath va) = m.pmm.freePages
          ∧ ∃ pt, m₁.table pml4 (tablePath va) = some pt
            ∧ m.vmmMapPage pml4 va pa flags
              = m₁.setEntry pt (ptIdx va) (BitVec.ofNat 64 pa ||| flags))) := by
  have hroot : m.node (fun _ : Unit => some pml4) () [] = some pml4 := rfl
  obtain ⟨hO, hG, hnode⟩ := nextTables_spec closed_tablePath hf (tablePath va) m [] pml4 h.owned
    hroot (tablePath_ok va)
  obtain ⟨henough, hshort⟩ := nextTables_frames closed_tablePath hf (tablePath va) m [] pml4
    h.owned h.zero hroot (tablePath_ok va)
  rcases hr : m.nextTables true flags pml4 (tablePath va) with ⟨_ | pt, m₁⟩ <;>
    rw [hr] at hO hG hnode henough hshort
  all_goals
    refine ⟨m₁, ⟨hO.pmm, hO.width, hG.busy 0 h.zero, hO.tableTree⟩, hG, ?_⟩
  · have hlt : m.pmm.freePages < m.missing pml4 (tablePath va) := by
      by_contra hge
      exact (henough (by omega)).1 rfl
    refine .inl ⟨hlt, (hshort hlt).2.1, ?_⟩
    unfold Machine.vmmMapPage
    rw [← tablePath, hr]
  · have hle : m.missing pml4 (tablePath va) ≤ m.pmm.freePages := by
      by_contra hlt
      exact absurd (hshort (by omega)).1 (by simp)
    exact .inr ⟨hle, (henough hle).2, pt, hnode pt rfl, vmmMapPage_eq hf hr⟩

/-- Where the frames do not suffice for the tables, the last-level one stays missing. -/
theorem vmmMapPage_short (h : MapInv pml4 m) (hf : FlagsOk flags) (pa : ℕ)
    (hlt : m.pmm.freePages < m.missing pml4 (tablePath va)) :
    (m.vmmMapPage pml4 va pa flags).table pml4 (tablePath va) = none := by
  have hroot : m.node (fun _ : Unit => some pml4) () [] = some pml4 := rfl
  obtain ⟨hnone, -, htable⟩ := (nextTables_frames closed_tablePath hf (tablePath va) m [] pml4
    h.owned h.zero hroot (tablePath_ok va)).2 hlt
  unfold Machine.vmmMapPage
  rw [← tablePath]
  rcases hr : m.nextTables true flags pml4 (tablePath va) with ⟨_ | pt, m₁⟩ <;>
    rw [hr] at hnone htable
  · exact htable
  · cases hnone

/-- Mapping a page leaves the others alone. -/
theorem vmmMapPage_other (h : MapInv pml4 m) (hf : FlagsOk flags) {w : ℕ}
    (hw : leafPath va ≠ leafPath w) (pa : ℕ) :
    (m.vmmMapPage pml4 va pa flags).leafEntry pml4 w = m.leafEntry pml4 w := by
  obtain ⟨m₁, hinv, hG, ⟨-, -, he⟩ | ⟨-, -, pt, hpt, he⟩⟩ := vmmMapPage_split h hf va pa
  · rw [he]
    exact hG.leafEntry_eq h.tree w
  · rw [he, leafEntry_setEntry hinv.tree hpt fun h1 h2 => hw (by rw [leafPath, leafPath, h1, h2])]
    exact hG.leafEntry_eq h.tree w

/-! ## Several pages -/

/-- The missing tables on the way to `va`, by their paths. -/
def Machine.missingPaths (m : Machine) (pml4 va : ℕ) : Finset (List ℕ) :=
  ((tablePath va).inits.filter fun p => (m.table pml4 p).isNone).toFinset

/-- The missing tables on the way to the pages. -/
def Machine.missingFor (m : Machine) (pml4 : ℕ) (vas : List ℕ) : Finset (List ℕ) :=
  vas.toFinset.biUnion (m.missingPaths pml4)

/-- The frames it takes to map the pages: one for each, and one for each missing table. -/
def Machine.framesFor (m : Machine) (pml4 : ℕ) (vas : List ℕ) : ℕ :=
  vas.length + (m.missingFor pml4 vas).card

/-- The frame that a page is mapped to. -/
def Machine.frameAt (m : Machine) (pml4 va : ℕ) : Option ℕ :=
  (m.leafEntry pml4 va).map pteGetAddr

theorem mem_missingPaths {p : List ℕ} :
    p ∈ m.missingPaths pml4 va ↔ p <+: tablePath va ∧ m.table pml4 p = none := by
  simp [Machine.missingPaths]

theorem mem_missingFor {vas : List ℕ} {p : List ℕ} :
    p ∈ m.missingFor pml4 vas ↔ ∃ va ∈ vas, p ∈ m.missingPaths pml4 va := by
  simp [Machine.missingFor]

theorem countP_inits_missing (m : Machine) : ∀ (is : List ℕ) (t : ℕ),
    is.inits.countP (fun p => (m.table t p).isNone) = m.missing t is
  | [], t => by simp [Machine.missing, Machine.table, Radix.walk]
  | i :: is, t => by
    have hle := walk_length_le m is (pteGetAddr (m.phys t i))
    have hroot : (m.table t []).isNone = false := rfl
    rw [List.inits_cons, List.countP_cons, hroot, List.countP_map]
    by_cases h : isPresent (m.phys t i) = true
    · have hstep : ((fun p => (m.table t p).isNone) ∘ fun p => i :: p)
          = fun p => (m.table (pteGetAddr (m.phys t i)) p).isNone := by
        funext p
        simp only [Function.comp, Machine.table, Radix.walk, tableChild, if_pos h,
          Option.bind_some]
      rw [hstep, countP_inits_missing m is]
      simp only [Machine.missing, Machine.walk, if_pos h, List.length_cons, Bool.false_eq_true,
        ↓reduceIte]
      omega
    · have hstep : ((fun p => (m.table t p).isNone) ∘ fun p => i :: p) = fun _ => true := by
        funext p
        simp [Machine.table, Radix.walk, tableChild, h]
      rw [hstep]
      simp [Machine.missing, Machine.walk, h]

theorem card_missingPaths (m : Machine) (pml4 va : ℕ) :
    (m.missingPaths pml4 va).card = m.missing pml4 (tablePath va) := by
  rw [Machine.missingPaths, List.toFinset_card_of_nodup, ← countP_inits_missing,
    List.countP_eq_length_filter]
  exact List.Nodup.filter _ (by simp [tablePath])

@[simp] theorem leafEntry_pmm (m : Machine) (p : Pmm) (pml4 va : ℕ) :
    Machine.leafEntry { m with pmm := p } pml4 va = m.leafEntry pml4 va := by
  rw [Machine.leafEntry, Machine.leafEntry, vmmGetPte_eq, vmmGetPte_eq]
  rfl

theorem leafEntry_of_leafPath {w : ℕ} (h : leafPath w = leafPath va) :
    m.leafEntry pml4 w = m.leafEntry pml4 va := by
  obtain ⟨ht, hi⟩ := List.append_inj' h rfl
  rw [Machine.leafEntry, Machine.leafEntry, vmmGetPte_eq, vmmGetPte_eq, ht,
    List.singleton_inj.mp hi]

theorem frameAt_congr {w : ℕ} (h : leafPath w = leafPath va) :
    m.frameAt pml4 w = m.frameAt pml4 va := by
  rw [Machine.frameAt, Machine.frameAt, leafEntry_of_leafPath h]

variable (pml4 m m') in
/-- The pages of the list have been mapped. New tables are on frames that were free, and a frame in
use that is no table below the PML4 keeps its present entries. -/
structure Mapped (vas : List ℕ) : Prop where
  inv : MapInv pml4 m'
  frames : m'.pmm.freePages + m.framesFor pml4 vas = m.pmm.freePages
  missing : ∀ w, m'.missingPaths pml4 w = m.missingPaths pml4 w \ m.missingFor pml4 vas
  busy : ∀ x, m.pmm.Busy x → m'.pmm.Busy x
  tables : ∀ p n, TablePath p → m'.table pml4 p = some n → m.table pml4 p = some n ∨ ¬ m.pmm.Busy n
  words : ∀ x j, m.pmm.Busy x → (∀ p, TablePath p → p ≠ [] → m.table pml4 p ≠ some x) →
    isPresent (m.phys x j) = true → m'.phys x j = m.phys x j

variable (pml4 m m') in
/-- Every page of the list has been mapped to a frame of its own, not taken before. -/
structure MapsEach (vas : List ℕ) : Prop extends Mapped m m' pml4 vas where
  mapped : ∀ va ∈ vas, ∃ pa, m'.frameAt pml4 va = some pa ∧ ¬ m.pmm.Busy pa ∧ m'.pmm.Busy pa
  distinct : ∀ va ∈ vas, ∀ w ∈ vas, m'.frameAt pml4 va = m'.frameAt pml4 w →
    leafPath va = leafPath w
  frame : ∀ w, (∀ va ∈ vas, leafPath va ≠ leafPath w) → m'.leafEntry pml4 w = m.leafEntry pml4 w
  leaves : ∀ va ∈ vas, ∀ pa, m'.frameAt pml4 va = some pa → ∀ p, TablePath p →
    m'.table pml4 p ≠ some pa

theorem Mapped.nil (h : MapInv pml4 m) : Mapped m m pml4 [] where
  inv := h
  frames := by simp [Machine.framesFor, Machine.missingFor]
  missing w := by simp [Machine.missingFor]
  busy _ hx := hx
  tables _ _ _ hn := .inl hn
  words _ _ _ _ _ := rfl

theorem MapsEach.nil (h : MapInv pml4 m) : MapsEach m m pml4 [] where
  toMapped := Mapped.nil h
  mapped va hva := by cases hva
  distinct va hva := by cases hva
  frame _ _ := rfl
  leaves va hva := by cases hva

theorem missingFor_append (m : Machine) (pml4 : ℕ) (vas ws : List ℕ) :
    m.missingFor pml4 (vas ++ ws) = m.missingFor pml4 vas ∪ m.missingFor pml4 ws := by
  ext p
  simp only [mem_missingFor, Finset.mem_union, List.mem_append]
  constructor
  · rintro ⟨va, hva | hva, hp⟩
    · exact .inl ⟨va, hva, hp⟩
    · exact .inr ⟨va, hva, hp⟩
  · rintro (⟨va, hva, hp⟩ | ⟨va, hva, hp⟩)
    · exact ⟨va, .inl hva, hp⟩
    · exact ⟨va, .inr hva, hp⟩

theorem missingFor_sdiff {S : Finset (List ℕ)}
    (h : ∀ w, m'.missingPaths pml4 w = m.missingPaths pml4 w \ S) (ws : List ℕ) :
    m'.missingFor pml4 ws = m.missingFor pml4 ws \ S := by
  ext p
  simp only [mem_missingFor, h, Finset.mem_sdiff]
  constructor
  · rintro ⟨w, hw, hp, hS⟩
    exact ⟨⟨w, hw, hp⟩, hS⟩
  · rintro ⟨⟨w, hw, hp⟩, hS⟩
    exact ⟨w, hw, hp, hS⟩

theorem framesFor_singleton (m : Machine) (pml4 va : ℕ) :
    m.framesFor pml4 [va] = 1 + m.missing pml4 (tablePath va) := by
  simp [Machine.framesFor, Machine.missingFor, card_missingPaths]

theorem framesFor_append {vas : List ℕ}
    (h : ∀ w, m'.missingPaths pml4 w = m.missingPaths pml4 w \ m.missingFor pml4 vas)
    (ws : List ℕ) :
    m.framesFor pml4 (vas ++ ws) = m.framesFor pml4 vas + m'.framesFor pml4 ws := by
  have hcard := Finset.card_union_of_disjoint
    (Finset.disjoint_sdiff (s := m.missingFor pml4 vas) (t := m.missingFor pml4 ws))
  unfold Machine.framesFor
  rw [missingFor_append, ← Finset.union_sdiff_self_eq_union, hcard, missingFor_sdiff h,
    List.length_append]
  omega

theorem Mapped.trans {m'' : Machine} {vas ws : List ℕ} (h : Mapped m m' pml4 vas)
    (h' : Mapped m' m'' pml4 ws) : Mapped m m'' pml4 (vas ++ ws) where
  inv := h'.inv
  frames := by
    have h1 := h.frames
    have h2 := h'.frames
    have h3 := framesFor_append h.missing ws
    omega
  missing w := by
    rw [h'.missing, h.missing, missingFor_sdiff h.missing, missingFor_append, sdiff_sdiff_left,
      Finset.sup_eq_union, Finset.union_sdiff_self_eq_union]
  busy x hx := h'.busy x (h.busy x hx)
  tables p n hp hn := by
    rcases h'.tables p n hp hn with h1 | h1
    · exact h.tables p n hp h1
    · exact .inr fun hb => h1 (h.busy n hb)
  words x j hx hno hpr := by
    have hword := h.words x j hx hno hpr
    rw [← hword] at hpr ⊢
    refine h'.words x j (h.busy x hx) (fun p hp h0 hn => ?_) hpr
    exact (h.tables p x hp hn).elim (hno p hp h0) fun hc => hc hx

theorem MapsEach.append {m'' : Machine} {vas ws : List ℕ} (h : MapsEach m m' pml4 vas)
    (h' : MapsEach m' m'' pml4 ws) : MapsEach m m'' pml4 (vas ++ ws) := by
  have hkeep : ∀ va, (∀ w ∈ ws, leafPath w ≠ leafPath va) →
      m''.frameAt pml4 va = m'.frameAt pml4 va := fun va hva => by
    rw [Machine.frameAt, h'.frame va hva, Machine.frameAt]
  -- A page of the first list is mapped by the second, if it is of that too, or as it was.
  have hpage : ∀ va ∈ vas ++ ws,
      (∃ w ∈ ws, leafPath w = leafPath va) ∨ (va ∈ vas ∧ ∀ w ∈ ws, leafPath w ≠ leafPath va) := by
    intro va hva
    by_cases hw : ∃ w ∈ ws, leafPath w = leafPath va
    · exact .inl hw
    · push Not at hw
      rcases List.mem_append.mp hva with hva | hva
      · exact .inr ⟨hva, hw⟩
      · exact absurd rfl (hw va hva)
  have hsecond : ∀ va, (∃ w ∈ ws, leafPath w = leafPath va) →
      ∃ pa, m''.frameAt pml4 va = some pa ∧ ¬ m'.pmm.Busy pa ∧ m''.pmm.Busy pa := by
    rintro va ⟨w, hw, heq⟩
    rw [← frameAt_congr heq]
    exact h'.mapped w hw
  have hmixed : ∀ va w, (∃ x ∈ ws, leafPath x = leafPath va) → w ∈ vas →
      (∀ x ∈ ws, leafPath x ≠ leafPath w) → m''.frameAt pml4 va ≠ m''.frameAt pml4 w := by
    intro va w hva hw hoff heq
    obtain ⟨pa, hpa, hnb, -⟩ := hsecond va hva
    obtain ⟨pb, hpb, -, hb⟩ := h.mapped w hw
    rw [hpa, hkeep w hoff, hpb] at heq
    exact hnb (Option.some.inj heq ▸ hb)
  refine ⟨h.toMapped.trans h'.toMapped, fun va hva => ?_, fun va hva w hw heq => ?_,
    fun w hw => ?_, fun va hva pa hpa p hp hn => ?_⟩
  · rcases hpage va hva with hsec | ⟨hfst, hoff⟩
    · obtain ⟨pa, hpa, hnb, hb⟩ := hsecond va hsec
      exact ⟨pa, hpa, fun hc => hnb (h.busy pa hc), hb⟩
    · obtain ⟨pa, hpa, hnb, hb⟩ := h.mapped va hfst
      exact ⟨pa, (hkeep va hoff).trans hpa, hnb, h'.busy pa hb⟩
  · rcases hpage va hva with hv | ⟨hv, hoffv⟩ <;> rcases hpage w hw with hw | ⟨hw, hoffw⟩
    · obtain ⟨x, hx, hxv⟩ := hv
      obtain ⟨y, hy, hyw⟩ := hw
      rw [← frameAt_congr hxv, ← frameAt_congr hyw] at heq
      rw [← hxv, ← hyw]
      exact h'.distinct x hx y hy heq
    · exact absurd heq (hmixed va w hv hw hoffw)
    · exact absurd heq.symm (hmixed w va hw hv hoffv)
    · rw [hkeep va hoffv, hkeep w hoffw] at heq
      exact h.distinct va hv w hw heq
  · rw [h'.frame w fun va hva => hw va (List.mem_append_right _ hva),
      h.frame w fun va hva => hw va (List.mem_append_left _ hva)]
  · rcases hpage va hva with ⟨w, hw, heq⟩ | ⟨hfst, hoff⟩
    · exact h'.leaves w hw pa ((frameAt_congr heq).trans hpa) p hp hn
    · rw [hkeep va hoff] at hpa
      obtain ⟨pb, hpb, -, hb⟩ := h.mapped va hfst
      rcases h'.tables p pa hp hn with h1 | h1
      · exact h.leaves va hfst pa hpa p hp h1
      · exact h1 (Option.some.inj (hpa.symm.trans hpb) ▸ hb)

/-! ## The loop -/

/-- A page frame is taken and mapped at `va`. -/
def Machine.mapNext (m : Machine) (pml4 va : ℕ) (flags : BitVec 64) : Machine :=
  Machine.vmmMapPage { m with pmm := (m.pmm.pmmAllocPage).2 } pml4 va (m.pmm.pmmAllocPage).1 flags

/-- The loop that the callers of `vmm_map_page` share: false when no page is left. -/
def Machine.mapEach (pml4 : ℕ) (flags : BitVec 64) : List ℕ → Machine → Bool × Machine
  | [], m => (true, m)
  | va :: vas, m =>
    if (m.pmm.pmmAllocPage).1 = 0 then (false, { m with pmm := (m.pmm.pmmAllocPage).2 })
    else mapEach pml4 flags vas (m.mapNext pml4 va flags)

theorem MapInv.alloc (h : MapInv pml4 m) :
    MapInv pml4 { m with pmm := (m.pmm.pmmAllocPage).2 } := by
  obtain ⟨a1, a2, a3, -⟩ := Pmm.pmmAllocPage_spec h.pmm
  exact ⟨a1, a2 ▸ h.width, a3 0 h.zero,
    ⟨h.tree.tree, fun p n hp hn => a3 n (h.tree.busy p n hp hn)⟩⟩

theorem MapInv.alloc_eq_zero (h : MapInv pml4 m) :
    (m.pmm.pmmAllocPage).1 = 0 ↔ m.pmm.freePages = 0 := by
  rcases Pmm.pmmAllocPage_exact h.pmm h.zero with ⟨h1, h2⟩ | ⟨h1, h2⟩
  · simp [h1, h2]
  · exact ⟨fun h0 => absurd h0 h1, fun h0 => by omega⟩

theorem mapNext_other (h : MapInv pml4 m) (hf : FlagsOk flags) {w : ℕ}
    (hw : leafPath va ≠ leafPath w) :
    (m.mapNext pml4 va flags).leafEntry pml4 w = m.leafEntry pml4 w :=
  (vmmMapPage_other h.alloc hf hw _).trans (leafEntry_pmm m _ pml4 w)

/-- A round without frames enough for the tables takes what there is, and maps nothing. -/
theorem mapNext_short (h : MapInv pml4 m) (hf : FlagsOk flags)
    (h0 : (m.pmm.pmmAllocPage).1 ≠ 0)
    (hlt : m.pmm.freePages ≤ m.missing pml4 (tablePath va)) :
    MapInv pml4 (m.mapNext pml4 va flags) ∧ (m.mapNext pml4 va flags).pmm.freePages = 0
      ∧ ∀ w, (m.mapNext pml4 va flags).leafEntry pml4 w = m.leafEntry pml4 w := by
  have hfree := (Pmm.pmmAllocPage_exact h.pmm h.zero).resolve_left fun hc => h0 (by rw [hc.2])
  obtain ⟨m₁, hinv, hG, ⟨-, hzero, he⟩ | ⟨hle, -, -⟩⟩ :=
    vmmMapPage_split h.alloc hf va (m.pmm.pmmAllocPage).1
  · rw [Machine.mapNext, he]
    exact ⟨hinv, hzero, fun w => (hG.leafEntry_eq h.alloc.tree w).trans (leafEntry_pmm m _ pml4 w)⟩
  · change m.missing pml4 (tablePath va) ≤ (m.pmm.pmmAllocPage).2.freePages at hle
    omega

theorem tablePath_of_initial {p : List ℕ} (h : p <+: tablePath va) : TablePath p :=
  ⟨h.length_le, fun j hj => tablePath_lt va j (h.subset hj)⟩

theorem Grown.missingPaths
    (hG : Grown (fun _ : Unit => some pml4) (fun _ p => TablePath p) flags m m' () (tablePath va))
    (hpt : m'.table pml4 (tablePath va) = some pt) (w : ℕ) :
    m'.missingPaths pml4 w = m.missingPaths pml4 w \ m.missingPaths pml4 va := by
  ext p
  simp only [Finset.mem_sdiff, mem_missingPaths]
  constructor
  · rintro ⟨hpw, hnone⟩
    have hp := tablePath_of_initial hpw
    refine ⟨⟨hpw, ?_⟩, fun hva => ?_⟩
    · by_contra hc
      obtain ⟨n, hn⟩ := Option.ne_none_iff_exists'.mp hc
      have hkept : m'.table pml4 p = some n := hG.kept () p n hp hn
      rw [hnone] at hkept
      cases hkept
    · obtain ⟨s, hs⟩ := hva.1
      rw [← hs, Machine.table, Radix.walk_append] at hpt
      rw [Machine.table] at hnone
      rw [hnone] at hpt
      cases hpt
  · rintro ⟨⟨hpw, hnone⟩, hva⟩
    have hp := tablePath_of_initial hpw
    refine ⟨hpw, ?_⟩
    by_contra hc
    obtain ⟨n, hn⟩ := Option.ne_none_iff_exists'.mp hc
    rcases hG.added () p n hp hn with ho | ⟨-, hpre, -⟩
    · have ho : m.table pml4 p = some n := ho
      rw [hnone] at ho
      cases ho
    · exact hva ⟨hpre, hnone⟩

/-- With frames enough for the tables, a round maps its page to the frame it has taken. -/
theorem mapNext_frameAt (h : MapInv pml4 m) (hf : FlagsOk flags)
    (h0 : (m.pmm.pmmAllocPage).1 ≠ 0)
    (hlt : m.missing pml4 (tablePath va) < m.pmm.freePages) :
    (m.mapNext pml4 va flags).frameAt pml4 va = some (m.pmm.pmmAllocPage).1 := by
  have hfree := (Pmm.pmmAllocPage_exact h.pmm h.zero).resolve_left fun hc => h0 (by rw [hc.2])
  have hv := ((Pmm.pmmAllocPage_spec h.pmm).2.2.2 h0).1
  have hwidth := h.width
  have hpalt := hv.lt
  obtain ⟨m₁, hinv, -, ⟨hshort, -, -⟩ | ⟨-, -, pt, hpt, he⟩⟩ :=
    vmmMapPage_split h.alloc hf va (m.pmm.pmmAllocPage).1
  · change (m.pmm.pmmAllocPage).2.freePages < m.missing pml4 (tablePath va) at hshort
    omega
  have hpt' := (table_setEntry (i := ptIdx va)
    (e := BitVec.ofNat 64 (m.pmm.pmmAllocPage).1 ||| flags) hinv.tree (tablePath_ok va) rfl hpt
    (tablePath_ok va)).trans hpt
  rw [Machine.mapNext, he, Machine.frameAt, leafEntry_of_some hpt', setEntry_phys_self,
    if_pos (isPresent_entry hf), Option.map_some, pteGetAddr_entry hv.aligned (by omega) hf]

/-- A round with frames enough for the tables maps its page. -/
theorem mapNext_enough (h : MapInv pml4 m) (hf : FlagsOk flags)
    (h0 : (m.pmm.pmmAllocPage).1 ≠ 0)
    (hlt : m.missing pml4 (tablePath va) < m.pmm.freePages) :
    MapsEach m (m.mapNext pml4 va flags) pml4 [va] := by
  have hfree := (Pmm.pmmAllocPage_exact h.pmm h.zero).resolve_left fun hc => h0 (by rw [hc.2])
  obtain ⟨-, -, hbusy, hnew⟩ := Pmm.pmmAllocPage_spec h.pmm
  obtain ⟨hv, hpa⟩ := hnew h0
  have hentry := mapNext_frameAt h hf h0 hlt
  obtain ⟨m₁, hinv, hG, ⟨hshort, -, -⟩ | ⟨hle, hcount, pt, hpt, he⟩⟩ :=
    vmmMapPage_split h.alloc hf va (m.pmm.pmmAllocPage).1
  · change (m.pmm.pmmAllocPage).2.freePages < m.missing pml4 (tablePath va) at hshort
    omega
  change m₁.pmm.freePages + m.missing pml4 (tablePath va) = (m.pmm.pmmAllocPage).2.freePages
    at hcount
  have hmissing := hG.missingPaths hpt
  rw [Machine.mapNext, he] at hentry
  have hsingle : m.missingFor pml4 [va] = m.missingPaths pml4 va := by simp [Machine.missingFor]
  rw [Machine.mapNext, he]
  -- A table is one of those there were, or it is on a frame that was free after the page's.
  have htables : ∀ p n, TablePath p → (m₁.setEntry pt (ptIdx va)
      (BitVec.ofNat 64 (m.pmm.pmmAllocPage).1 ||| flags)).table pml4 p = some n →
      m.table pml4 p = some n ∨ ¬ (m.pmm.pmmAllocPage).2.Busy n := by
    intro p n hp hn
    rw [table_setEntry hinv.tree (tablePath_ok va) rfl hpt hp] at hn
    rcases hG.added () p n hp hn with h1 | ⟨-, -, h1, -⟩
    · exact .inl h1
    · exact .inr h1
  refine ⟨⟨⟨hinv.pmm, hinv.width, hinv.zero,
      tableTree_setEntry hinv.tree (tablePath_ok va) rfl hpt⟩, ?_, fun w => ?_,
      fun x hx => hG.busy x (hbusy x hx), fun p n hp hn => ?_, fun x j hx hno hpr => ?_⟩,
    fun w hw => ?_, fun w hw w' hw' _ => ?_, fun w hw => ?_, fun w hw pa hwpa p hp hn => ?_⟩
  · rw [Machine.framesFor, hsingle, card_missingPaths, setEntry_pmm, List.length_singleton]
    omega
  · rw [hsingle]
    refine Eq.trans ?_ (hmissing w)
    ext p
    simp only [mem_missingPaths]
    refine and_congr_right fun hp => ?_
    rw [table_setEntry hinv.tree (tablePath_ok va) rfl hpt (tablePath_of_initial hp)]
  · exact (htables p n hp hn).imp_right fun h1 hb => h1 (hbusy n hb)
  · have hpt' := (table_setEntry (i := ptIdx va)
      (e := BitVec.ofNat 64 (m.pmm.pmmAllocPage).1 ||| flags) hinv.tree (tablePath_ok va) rfl hpt
      (tablePath_ok va)).trans hpt
    have hne : x ≠ pt := by
      rintro rfl
      rcases htables _ x (tablePath_ok va) hpt' with h1 | h1
      · exact hno _ (tablePath_ok va) (by simp [tablePath]) h1
      · exact h1 (hbusy x hx)
    rw [setEntry_phys_of_ne fun hc => absurd hc hne]
    by_contra hc
    obtain ⟨-, -, -, habs, -⟩ := hG.words x j (hbusy x hx) hc
    exact absurd (hpr.symm.trans habs) (by decide)
  · obtain rfl := List.mem_singleton.mp hw
    exact ⟨_, hentry, hv.not_busy, hG.busy _ ((hpa _).mpr (.inr rfl))⟩
  · rw [List.mem_singleton.mp hw, List.mem_singleton.mp hw']
  · have hne := hw va (List.mem_singleton_self va)
    rw [← he]
    exact mapNext_other h hf hne
  · obtain rfl := List.mem_singleton.mp hw
    obtain rfl := Option.some.inj (hentry.symm.trans hwpa)
    rcases htables p _ hp hn with h1 | h1
    · exact hv.not_busy (h.tree.busy p _ hp h1)
    · exact h1 ((hpa _).mpr (.inr rfl))

/-- With frames for all the loop's next round succeeds, and there are frames for the others. -/
theorem mapNext_of_framesFor {vas : List ℕ} (h : MapInv pml4 m) (hf : FlagsOk flags)
    (hle : m.framesFor pml4 (va :: vas) ≤ m.pmm.freePages) :
    (m.pmm.pmmAllocPage).1 ≠ 0 ∧ MapsEach m (m.mapNext pml4 va flags) pml4 [va]
      ∧ (m.mapNext pml4 va flags).framesFor pml4 vas
        ≤ (m.mapNext pml4 va flags).pmm.freePages := by
  have hsub : m.missingPaths pml4 va ⊆ m.missingFor pml4 (va :: vas) := fun p hp =>
    mem_missingFor.mpr ⟨va, List.mem_cons_self, hp⟩
  have hcard := Finset.card_le_card hsub
  rw [card_missingPaths] at hcard
  have hsum : m.missing pml4 (tablePath va) < m.framesFor pml4 (va :: vas) := by
    rw [Machine.framesFor, List.length_cons]
    omega
  have h0 : (m.pmm.pmmAllocPage).1 ≠ 0 := fun hc => by
    have := h.alloc_eq_zero.mp hc
    omega
  have hone := mapNext_enough h hf h0 (hsum.trans_le hle)
  have happ := framesFor_append hone.missing vas
  have hfrm := hone.frames
  rw [List.singleton_append] at happ
  exact ⟨h0, hone, by omega⟩

/-- With frames for all the loop maps all pages. -/
theorem mapEach_enough (hf : FlagsOk flags) : ∀ {vas : List ℕ} {m : Machine}, MapInv pml4 m →
    m.framesFor pml4 vas ≤ m.pmm.freePages →
    ∃ m', Machine.mapEach pml4 flags vas m = (true, m') ∧ MapsEach m m' pml4 vas
  | [], m, h, _ => ⟨m, rfl, MapsEach.nil h⟩
  | va :: vas, m, h, hle => by
    obtain ⟨h0, hone, hle'⟩ := mapNext_of_framesFor h hf hle
    obtain ⟨m', he, hrest⟩ := mapEach_enough hf hone.inv hle'
    exact ⟨m', by rw [Machine.mapEach, if_neg h0, he], hone.append hrest⟩

/-- Once they run out before the last page, the loop ends with a failure. -/
theorem mapEach_short (hf : FlagsOk flags) (last : ℕ) : ∀ {vas : List ℕ} {m : Machine},
    MapInv pml4 m → m.pmm.freePages ≤ m.framesFor pml4 vas →
    (Machine.mapEach pml4 flags (vas ++ [last]) m).1 = false
  | [], m, h, hle => by
    have h0 := h.alloc_eq_zero.mpr (by simpa [Machine.framesFor, Machine.missingFor] using hle)
    rw [List.nil_append, Machine.mapEach, if_pos h0]
  | va :: vas, m, h, hle => by
    rw [List.cons_append, Machine.mapEach]
    split_ifs with h0
    · rfl
    · rcases lt_or_ge (m.missing pml4 (tablePath va)) m.pmm.freePages with hlt | hge
      · have hone := mapNext_enough h hf h0 hlt
        have happ := framesFor_append hone.missing vas
        have hfrm := hone.frames
        rw [List.singleton_append] at happ
        exact mapEach_short hf last hone.inv (by omega)
      · obtain ⟨hinv, hzero, -⟩ := mapNext_short h hf h0 hge
        exact mapEach_short hf last hinv (by omega)

theorem mapEach_append (pml4 : ℕ) (flags : BitVec 64) (ws : List ℕ) :
    ∀ {vas : List ℕ} {m m' : Machine}, Machine.mapEach pml4 flags vas m = (true, m') →
      Machine.mapEach pml4 flags (vas ++ ws) m = Machine.mapEach pml4 flags ws m'
  | [], m, m', h => by
    obtain rfl := congrArg Prod.snd h
    rfl
  | va :: vas, m, m', h => by
    rw [Machine.mapEach] at h
    rw [List.cons_append, Machine.mapEach]
    split_ifs at h ⊢
    · cases h
    · exact mapEach_append pml4 flags ws h

/-- With frames for all but the tables of the last page, the loop comes to that page with too
few. -/
theorem mapEach_last (hf : FlagsOk flags) {last : ℕ} {vas : List ℕ} (h : MapInv pml4 m)
    (hle : m.framesFor pml4 vas < m.pmm.freePages)
    (hlt : m.pmm.freePages < m.framesFor pml4 (vas ++ [last])) :
    ∃ m₁, MapsEach m m₁ pml4 vas ∧ (m₁.pmm.pmmAllocPage).1 ≠ 0
      ∧ m₁.pmm.freePages ≤ m₁.missing pml4 (tablePath last)
      ∧ Machine.mapEach pml4 flags (vas ++ [last]) m = (true, m₁.mapNext pml4 last flags)
      ∧ (m₁.mapNext pml4 last flags).table pml4 (tablePath last) = none := by
  obtain ⟨m₁, he, hmaps⟩ := mapEach_enough hf h hle.le
  have happ := framesFor_append hmaps.missing [last]
  have hfrm := hmaps.frames
  rw [framesFor_singleton] at happ
  have h0 : (m₁.pmm.pmmAllocPage).1 ≠ 0 := fun hc => by
    have := hmaps.inv.alloc_eq_zero.mp hc
    omega
  have hshort : m₁.pmm.freePages ≤ m₁.missing pml4 (tablePath last) := by omega
  have hfree := (Pmm.pmmAllocPage_exact hmaps.inv.pmm hmaps.inv.zero).resolve_left
    fun hc => h0 (by rw [hc.2])
  refine ⟨m₁, hmaps, h0, hshort, ?_, vmmMapPage_short hmaps.inv.alloc hf _ ?_⟩
  · rw [mapEach_append pml4 flags [last] he, Machine.mapEach, if_neg h0, Machine.mapEach]
  · change (m₁.pmm.pmmAllocPage).2.freePages < m₁.missing pml4 (tablePath last)
    omega

end Page

end SudoOS
