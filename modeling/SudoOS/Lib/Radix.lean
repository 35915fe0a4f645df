import Mathlib.Tactic

/-!
# Radix trees held in a shared store

Nodes of several trees live in one store, `child` reading a node's entry at an index. A tree is
named by a key with a root, and `adm` says which index paths count as its own: they are closed
under prefixes, so a tree may leave part of its root's entries to somebody else.

In a `Forest` no node is reached along two admissible paths of any trees. The effect of one write
is then local: writing an entry of a reached node moves the paths through that entry and no other
(`node_write`), and the forest stays one when the entry is cleared or leads to a node not reached
before (`Forest.write`). A new root is likewise (`node_addRoot`, `Forest.addRoot`).
-/

namespace Radix

variable {N I K : Type*}

def walk (child : N → I → Option N) : N → List I → Option N
  | n, [] => some n
  | n, i :: p => (child n i).bind fun m => walk child m p

theorem walk_append (child : N → I → Option N) : ∀ (p q : List I) (n : N),
    walk child n (p ++ q) = (walk child n p).bind fun m => walk child m q
  | [], q, n => rfl
  | i :: p, q, n => by
    simp only [List.cons_append, walk, Option.bind_assoc]
    congr 1
    funext m
    exact walk_append child p q m

theorem walk_concat (child : N → I → Option N) (p : List I) (i : I) (n : N) :
    walk child n (p ++ [i]) = (walk child n p).bind fun m => child m i := by
  simp [walk_append, walk]

/-- The node at the end of a path of tree `k`. -/
def node (child : N → I → Option N) (root : K → Option N) (k : K) (p : List I) : Option N :=
  (root k).bind fun n => walk child n p

theorem node_nil (child : N → I → Option N) (root : K → Option N) (k : K) :
    node child root k [] = root k := by
  unfold node
  rcases root k with _ | n <;> rfl

theorem node_concat (child : N → I → Option N) (root : K → Option N) (k : K) (p : List I)
    (i : I) : node child root k (p ++ [i]) = (node child root k p).bind fun m => child m i := by
  simp only [node, walk_concat, Option.bind_assoc]

theorem node_append_none {child : N → I → Option N} {root : K → Option N} {k : K} {p : List I}
    (h : node child root k p = none) (s : List I) : node child root k (p ++ s) = none := by
  have happ : node child root k (p ++ s) = (node child root k p).bind fun m => walk child m s := by
    simp only [node, walk_append, Option.bind_assoc]
  rw [happ, h, Option.bind_none]

/-- Admissible paths are closed under prefixes. -/
def Closed (adm : K → List I → Prop) : Prop := ∀ k p i, adm k (p ++ [i]) → adm k p

theorem Closed.of_append {adm : K → List I → Prop} (hadm : Closed adm) {k : K} :
    ∀ {p : List I} (s : List I), adm k (p ++ s) → adm k p
  | p, [], h => by simpa using h
  | p, j :: s, h => by
    have : adm k ((p ++ [j]) ++ s) := by simpa using h
    exact hadm _ _ _ (hadm.of_append s this)

def Forest (child : N → I → Option N) (root : K → Option N) (adm : K → List I → Prop) : Prop :=
  ∀ k p k' p' n, adm k p → adm k' p' → node child root k p = some n →
    node child root k' p' = some n → k = k' ∧ p = p'

/-- No admissible path reaches the node. -/
def Fresh (child : N → I → Option N) (root : K → Option N) (adm : K → List I → Prop) (m : N) :
    Prop :=
  ∀ k p, adm k p → node child root k p ≠ some m

variable {child child' : N → I → Option N} {root root' : K → Option N}
  {adm : K → List I → Prop}

theorem prefix_concat_iff {a p : List I} {j : I} (h : ¬ a <+: p) :
    a <+: p ++ [j] ↔ p ++ [j] = a := by
  rw [List.prefix_concat_iff]
  exact ⟨fun h' => (h'.resolve_right h).symm, fun h' => .inl h'.symm⟩

/-- Where the entries along admissible paths are the same, so are the nodes. -/
theorem node_congr (hadm : Closed adm) (k : K)
    (hsame : ∀ p a j, adm k (p ++ [j]) → node child root k p = some a → child' a j = child a j) :
    ∀ p, adm k p → node child' root k p = node child root k p := by
  intro p
  induction p using List.reverseRecOn with
  | nil => intro _; rw [node_nil, node_nil]
  | append_singleton p j ih =>
    intro hp
    rw [node_concat, node_concat, ih (hadm _ _ _ hp)]
    rcases hn : node child root k p with _ | a
    · rfl
    · exact hsame p a j hp hn

section Write

variable {k₀ : K} {p₀ : List I} {i : I} {n : N} {new : Option N}

/-- The paths after entry `i` of the node at `p₀` has been written: those through the entry end in
its new child, which has no admissible children yet; all others are as before. -/
theorem node_write (hadm : Closed adm) (hF : Forest child root adm)
    (hn : node child root k₀ p₀ = some n) (hp₀ : adm k₀ (p₀ ++ [i])) (hnew : child' n i = new)
    (hsame : ∀ k p a j, adm k (p ++ [j]) → node child root k p = some a → (a = n → j ≠ i) →
      child' a j = child a j)
    (hbelow : ∀ m j, new = some m → adm k₀ (p₀ ++ [i] ++ [j]) → child' m j = none) :
    ∀ (p : List I) (k : K) (x : N), adm k p → (node child' root k p = some x ↔
      (k = k₀ ∧ p = p₀ ++ [i] ∧ new = some x)
        ∨ (node child root k p = some x ∧ ¬ (k = k₀ ∧ p₀ ++ [i] <+: p))) := by
  intro p
  induction p using List.reverseRecOn with
  | nil =>
    intro k x _
    rw [node_nil, node_nil]
    have h1 : [] ≠ p₀ ++ [i] := by simp
    have h2 : ¬ p₀ ++ [i] <+: [] := by simp
    simp [h1, h2]
  | append_singleton q j ih =>
    intro k x hq
    have hqa := hadm _ _ _ hq
    rw [node_concat, node_concat]
    by_cases hpre : k = k₀ ∧ p₀ ++ [i] <+: q
    · obtain ⟨rfl, hpre⟩ := hpre
      have hpre' : p₀ ++ [i] <+: q ++ [j] := hpre.trans (List.prefix_append _ _)
      have hne : q ++ [j] ≠ p₀ ++ [i] := by
        intro h
        have h1 := hpre.length_le
        have h2 := congrArg List.length h
        simp only [List.length_append, List.length_singleton] at h1 h2
        omega
      have hnone : (node child' root k q).bind (fun m => child' m j) = none := by
        rcases hq' : node child' root k q with _ | a
        · rfl
        rcases (ih k a hqa).mp hq' with ⟨-, rfl, ha⟩ | ⟨-, hc⟩
        · exact hbelow a j ha hq
        · exact absurd ⟨rfl, hpre⟩ hc
      simp [hnone, hne, hpre']
    · have hnode : node child' root k q = node child root k q := by
        apply Option.ext
        intro a
        rw [ih k a hqa]
        constructor
        · rintro (⟨rfl, rfl, -⟩ | ⟨h, -⟩)
          · exact absurd ⟨rfl, List.prefix_rfl⟩ hpre
          · exact h
        · exact fun h => .inr ⟨h, hpre⟩
      rw [hnode]
      by_cases hat : k = k₀ ∧ q ++ [j] = p₀ ++ [i]
      · obtain ⟨rfl, hat⟩ := hat
        obtain ⟨rfl, hji⟩ := List.append_inj' hat rfl
        simp only [List.cons.injEq, and_true] at hji
        subst hji
        rw [hn]
        simp [hnew]
      · have hnp : ¬ (k = k₀ ∧ p₀ ++ [i] <+: q ++ [j]) := by
          rintro ⟨rfl, h⟩
          exact hat ⟨rfl, (prefix_concat_iff fun h' => hpre ⟨rfl, h'⟩).mp h⟩
        have hl : ¬ (k = k₀ ∧ q ++ [j] = p₀ ++ [i] ∧ new = some x) := fun h => hat ⟨h.1, h.2.1⟩
        simp only [hl, hnp, not_false_eq_true, and_true, false_or]
        rcases hq' : node child root k q with _ | a
        · simp
        · simp only [Option.bind_some]
          rw [hsame k q a j hq hq']
          rintro rfl rfl
          obtain ⟨rfl, rfl⟩ := hF k q k₀ p₀ a hqa (hadm _ _ _ hp₀) hq' hn
          exact hat ⟨rfl, rfl⟩

/-- Clearing an entry, or leading it to a node not reached before, keeps the forest. -/
theorem Forest.write (hadm : Closed adm) (hF : Forest child root adm)
    (hn : node child root k₀ p₀ = some n) (hp₀ : adm k₀ (p₀ ++ [i])) (hnew : child' n i = new)
    (hsame : ∀ k p a j, adm k (p ++ [j]) → node child root k p = some a → (a = n → j ≠ i) →
      child' a j = child a j)
    (hbelow : ∀ m j, new = some m → adm k₀ (p₀ ++ [i] ++ [j]) → child' m j = none)
    (hfresh : ∀ m, new = some m → Fresh child root adm m) : Forest child' root adm := by
  have hw := node_write hadm hF hn hp₀ hnew hsame hbelow
  intro k p k' p' x hp hp' h h'
  rcases (hw p k x hp).mp h with ⟨rfl, rfl, hx⟩ | ⟨hx, -⟩
  · rcases (hw p' k' x hp').mp h' with ⟨rfl, rfl, -⟩ | ⟨hx', -⟩
    · exact ⟨rfl, rfl⟩
    · exact absurd hx' (hfresh x hx k' p' hp')
  · rcases (hw p' k' x hp').mp h' with ⟨rfl, rfl, hx'⟩ | ⟨hx', -⟩
    · exact absurd hx (hfresh x hx' k p hp)
    · exact hF k p k' p' x hp hp' hx hx'

end Write

section Roots

variable {k : K} {p : List I}

theorem node_of_root (h : root' k = root k) : node child root' k p = node child root k p := by
  unfold node
  rw [h]

theorem node_mono (h : ∀ n, root' k = some n → root k = some n) {x : N}
    (hx : node child root' k p = some x) : node child root k p = some x := by
  obtain ⟨n, hn, hw⟩ := Option.bind_eq_some_iff.mp hx
  exact Option.bind_eq_some_iff.mpr ⟨n, h n hn, hw⟩

/-- Some of the trees of a forest. -/
theorem Forest.mono (hF : Forest child root adm) (h : ∀ k n, root' k = some n → root k = some n) :
    Forest child root' adm := fun k p k' p' x hp hp' hx hx' =>
  hF k p k' p' x hp hp' (node_mono (h k) hx) (node_mono (h k') hx')

/-- The paths once tree `k₀` is a single node without admissible children: it is reached along
the empty path only, and the other trees are as before. -/
theorem node_addRoot (hadm : Closed adm) {k₀ : K} {n : N} (hnew : root' k₀ = some n)
    (hold : ∀ k, k ≠ k₀ → root' k = root k) (hbelow : ∀ j, adm k₀ [j] → child n j = none)
    (hp : adm k p) {x : N} (hx : node child root' k p = some x) :
    (k = k₀ ∧ p = [] ∧ x = n) ∨ (k ≠ k₀ ∧ node child root k p = some x) := by
  by_cases hk : k = k₀
  · subst hk
    unfold node at hx
    rw [hnew, Option.bind_some] at hx
    rcases p with _ | ⟨i, p⟩
    · exact .inl ⟨rfl, rfl, (Option.some.inj hx).symm⟩
    · rw [walk, hbelow i (hadm.of_append (p := [i]) p hp)] at hx
      cases hx
  · rw [node_of_root (hold k hk)] at hx
    exact .inr ⟨hk, hx⟩

/-- A node not reached before is a tree of its own. -/
theorem Forest.addRoot (hadm : Closed adm) (hF : Forest child root adm) {k₀ : K} {n : N}
    (hnew : root' k₀ = some n) (hold : ∀ k, k ≠ k₀ → root' k = root k)
    (hbelow : ∀ j, adm k₀ [j] → child n j = none) (hfresh : Fresh child root adm n) :
    Forest child root' adm := by
  intro k p k' p' x hp hp' hx hx'
  rcases node_addRoot hadm hnew hold hbelow hp hx with ⟨rfl, rfl, rfl⟩ | ⟨-, h⟩
  · rcases node_addRoot hadm hnew hold hbelow hp' hx' with ⟨rfl, rfl, -⟩ | ⟨-, h'⟩
    · exact ⟨rfl, rfl⟩
    · exact absurd h' (hfresh k' p' hp')
  · rcases node_addRoot hadm hnew hold hbelow hp' hx' with ⟨rfl, rfl, rfl⟩ | ⟨-, h'⟩
    · exact absurd h (hfresh k p hp)
    · exact hF k p k' p' x hp hp' h h'

end Roots

end Radix
