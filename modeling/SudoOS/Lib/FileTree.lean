import Mathlib.Data.Set.Card
import Mathlib.Tactic

/-!
# Trees of named nodes

A tree says of every path, the list of the names on it, what stands there. The root is a directory,
and what has a name stands in a directory. A walk goes along components, each a name or one of
`here` and `up`, and all but the last have to lead to directories: it ends at a node, at a name that
is missing in a directory, or nowhere. A node has one path only, so where a component leads does not
depend on the tree (`Component.next`).
-/

inductive FileKind
  | dir
  | file
  deriving Repr, DecidableEq

@[ext]
structure FileTree (ν : Type*) where
  kind : List ν → Option FileKind
  root : kind [] = some .dir
  closed : ∀ path name, kind (path ++ [name]) ≠ none → kind path = some .dir

namespace FileTree

variable {ν : Type*}

inductive Component (ν : Type*)
  | here
  | up
  | name (n : ν)

/-- The path behind a component. -/
def Component.next (path : List ν) : Component ν → List ν
  | .here => path
  | .up => path.dropLast
  | .name n => path ++ [n]

/-- The end of a walk. -/
inductive Target (ν : Type*)
  | found (path : List ν)
  | missing (dir : List ν) (name : ν)
  | lost

/-- The path the walk was to. -/
def Target.path : Target ν → Option (List ν)
  | .found path => some path
  | .missing dir name => some (dir ++ [name])
  | .lost => none

section Walk

variable (t : FileTree ν)

/-- Where the last component leads from a directory. -/
def arrive (path : List ν) : Component ν → Target ν
  | .name n => if t.kind (path ++ [n]) = none then .missing path n else .found (path ++ [n])
  | c => .found (c.next path)

def target : List ν → List (Component ν) → Target ν
  | path, [] => .found path
  | path, [c] => t.arrive path c
  | path, c :: next :: cs =>
    if t.kind (c.next path) = some .dir then target (c.next path) (next :: cs) else .lost

/-- The paths at which something stands. -/
def nodes : Set (List ν) := {path | t.kind path ≠ none}

end Walk

section Insert

variable [DecidableEq ν] (t : FileTree ν)

/-- A new node in a directory, under a name that is free. -/
def insert (dir : List ν) (name : ν) (k : FileKind) (hdir : t.kind dir = some .dir)
    (hfree : t.kind (dir ++ [name]) = none) : FileTree ν where
  kind := Function.update t.kind (dir ++ [name]) (some k)
  root := by
    rw [Function.update_of_ne (by simp), t.root]
  closed path n h := by
    by_cases hnew : path ++ [n] = dir ++ [name]
    · obtain ⟨rfl, -⟩ := List.append_inj' hnew rfl
      rw [Function.update_of_ne (by simp), hdir]
    · rw [Function.update_of_ne hnew] at h
      have hpath := t.closed path n h
      rw [Function.update_of_ne, hpath]
      rintro rfl
      rw [hfree] at hpath
      cases hpath

/-- A new node where a walk has missed one. -/
def make (k : FileKind) : Target ν → FileTree ν
  | .missing dir name =>
    if h : t.kind dir = some .dir ∧ t.kind (dir ++ [name]) = none then t.insert dir name k h.1 h.2
    else t
  | _ => t

/-- The same in a tree that holds `cap` nodes at most. -/
noncomputable def grow (cap : ℕ) (k : FileKind) (e : Target ν) : FileTree ν :=
  if t.nodes.ncard < cap then t.make k e else t

end Insert

/-! ## Ends of walks -/

section Ends

variable {t : FileTree ν}

/-- The directory above a directory is one. -/
theorem kind_dropLast {path : List ν} (h : t.kind path = some .dir) :
    t.kind path.dropLast = some .dir := by
  rcases List.eq_nil_or_concat path with rfl | ⟨ds, n, rfl⟩
  · exact h
  · rw [List.concat_eq_append] at h ⊢
    rw [List.dropLast_concat]
    exact t.closed ds n (by rw [h]; simp)

/-- What a walk from a directory has found is there, and what it has missed is not. -/
def Target.Sound (t : FileTree ν) : Target ν → Prop
  | .found path => t.kind path ≠ none
  | .missing dir name => t.kind dir = some .dir ∧ t.kind (dir ++ [name]) = none
  | .lost => True

theorem arrive_sound {path : List ν} (h : t.kind path = some .dir) (c : Component ν) :
    (t.arrive path c).Sound t := by
  cases c with
  | here => simp [arrive, Component.next, Target.Sound, h]
  | up => simp [arrive, Component.next, Target.Sound, kind_dropLast h]
  | name n =>
    simp only [arrive]
    split_ifs with hn
    · exact ⟨h, hn⟩
    · exact hn

theorem target_sound : ∀ (cs : List (Component ν)) {path : List ν}, t.kind path = some .dir →
    (t.target path cs).Sound t
  | [], path, h => by simp [target, Target.Sound, h]
  | [c], path, h => arrive_sound h c
  | c :: next :: cs, path, h => by
    unfold target
    split_ifs with hc
    · exact target_sound (next :: cs) hc
    · trivial

theorem grow_of_full [DecidableEq ν] {cap : ℕ} (h : ¬ t.nodes.ncard < cap) (k : FileKind)
    (e : Target ν) : t.grow cap k e = t := if_neg h

theorem grow_found [DecidableEq ν] (cap : ℕ) (k : FileKind) (path : List ν) :
    t.grow cap k (.found path) = t := ite_self _

theorem grow_lost [DecidableEq ν] (cap : ℕ) (k : FileKind) : t.grow cap k .lost = t := ite_self _

theorem grow_missing [DecidableEq ν] {cap : ℕ} {dir : List ν} {name : ν} (k : FileKind)
    (hroom : t.nodes.ncard < cap) (hdir : t.kind dir = some .dir)
    (hfree : t.kind (dir ++ [name]) = none) :
    t.grow cap k (.missing dir name) = t.insert dir name k hdir hfree :=
  (if_pos hroom).trans (dif_pos ⟨hdir, hfree⟩)

end Ends

end FileTree
