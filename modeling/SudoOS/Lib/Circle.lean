import Mathlib.Tactic

/-!
# Circular doubly linked lists

Nodes hold a link in either direction. `Path m a l b` says that the links lead from `a` through `l`
to `b` and back. It reads only the links between these nodes (`Path.congr`), so a list changes only
where one of its own links is written: `Path.insert` puts a node behind another one, `Path.remove`
takes one out. A list headed by `h` is a path from `h` to itself.
-/

namespace Circle

variable {N : Type*}

structure Links (N : Type*) where
  next : N → N
  prev : N → N

def Path (m : Links N) : N → List N → N → Prop
  | a, [], b => m.next a = b ∧ m.prev b = a
  | a, x :: l, b => m.next a = x ∧ m.prev x = a ∧ Path m x l b

variable {m m' : Links N} {a b p q r : N} {l pre post : List N}

theorem path_append : ∀ {pre : List N} {a : N},
    Path m a (pre ++ p :: post) b ↔ Path m a pre p ∧ Path m p post b
  | [], a => and_assoc.symm
  | x :: pre, a => by
    rw [List.cons_append, Path, Path, path_append, and_assoc, and_assoc]

theorem Path.congr : ∀ {l : List N} {a : N}, Path m a l b → (∀ x ∈ a :: l, m'.next x = m.next x) →
    (∀ x ∈ l ++ [b], m'.prev x = m.prev x) → Path m' a l b
  | [], a, h, hn, hp => ⟨(hn a List.mem_cons_self).trans h.1, (hp b List.mem_cons_self).trans h.2⟩
  | x :: _, a, ⟨h1, h2, h3⟩, hn, hp =>
    ⟨(hn a List.mem_cons_self).trans h1, (hp x List.mem_cons_self).trans h2,
      h3.congr (fun y hy => hn y (List.mem_cons_of_mem a hy))
        fun y hy => hp y (List.mem_cons_of_mem x hy)⟩

/-- The first node behind `a`. -/
theorem Path.next_mem : ∀ {l : List N}, Path m a l b → m.next a ∈ l ++ [b]
  | [], h => by simp [h.1]
  | _ :: _, h => by simp [h.1]

/-- What follows a node does not stand in front of it. -/
theorem Path.next_notMem (h : Path m p post b) (hnd : (b :: (pre ++ p :: post)).Nodup) :
    m.next p ∉ pre ++ [p] := by
  intro hx
  obtain ⟨hb, hnd⟩ := List.nodup_cons.mp hnd
  rw [← List.singleton_append, ← List.append_assoc] at hb hnd
  rcases List.mem_append.mp h.next_mem with hr | hr
  · exact (List.disjoint_of_nodup_append hnd) hx hr
  · exact hb (List.mem_append_left _ (List.mem_singleton.mp hr ▸ hx))

theorem Path.prev_mem : ∀ {l : List N} {a : N}, Path m a l b → m.prev b ∈ a :: l
  | [], a, h => by simp [h.2]
  | x :: l, a, h => List.mem_cons_of_mem a h.2.2.prev_mem

/-- The last node in front of `b`. -/
theorem Path.prev_eq : ∀ {l : List N} {a : N}, Path m a l b →
    (l = [] ∧ m.prev b = a) ∨ ∃ front, l = front ++ [m.prev b]
  | [], _, h => .inl ⟨rfl, h.2⟩
  | x :: l, _, h => by
    rcases h.2.2.prev_eq with ⟨rfl, hx⟩ | ⟨front, hf⟩
    · exact .inr ⟨[], by rw [hx]; rfl⟩
    · exact .inr ⟨x :: front, congrArg (x :: ·) hf⟩

theorem Path.next_prev : ∀ {l : List N} {a : N}, Path m a l b → m.next (m.prev b) = b
  | [], a, h => by rw [h.2, h.1]
  | _ :: _, _, h => h.2.2.next_prev

/-- In a circle the neighbours of a node are nodes too. -/
theorem Path.next_mem_circle (h : Path m a l a) (hp : p ∈ a :: l) : m.next p ∈ a :: l := by
  have hback : ∀ {x : N} {l' : List N}, x ∈ l' ++ [a] → l' ⊆ l → x ∈ a :: l := by
    intro x l' hx hl
    rcases List.mem_append.mp hx with hx | hx
    · exact List.mem_cons_of_mem a (hl hx)
    · exact List.mem_singleton.mp hx ▸ List.mem_cons_self
  rcases List.mem_cons.mp hp with rfl | hp
  · exact hback h.next_mem fun _ hy => hy
  · obtain ⟨pre, post, rfl⟩ := List.append_of_mem hp
    exact hback (path_append.mp h).2.next_mem fun y hy => by simp [hy]

theorem Path.prev_mem_circle (h : Path m a l a) (hp : p ∈ a :: l) : m.prev p ∈ a :: l := by
  rcases List.mem_cons.mp hp with rfl | hp
  · exact h.prev_mem
  · obtain ⟨pre, post, rfl⟩ := List.append_of_mem hp
    rcases List.mem_cons.mp (path_append.mp h).1.prev_mem with hq | hq
    · exact hq ▸ List.mem_cons_self
    · exact List.mem_cons_of_mem a (List.mem_append_left _ hq)

theorem Path.next_ne_circle (h : Path m a l a) (hnd : (a :: l).Nodup) (hp : p ∈ l) :
    m.next p ≠ p := by
  obtain ⟨pre, post, rfl⟩ := List.append_of_mem hp
  exact fun he => (path_append.mp h).2.next_notMem hnd (by simp [he])

/-- A new node `n` between `q` and the node behind it. -/
theorem Path.insert {n : N} (h : Path m q post b) (hnd : (q :: post).Nodup) (hb : b ∉ post)
    (hn : n ∉ q :: post) (hqn : m'.next q = n) (hnn : m'.next n = m.next q) (hpn : m'.prev n = q)
    (hpr : m'.prev (m.next q) = n) (hnext : ∀ x, x ≠ q → x ≠ n → m'.next x = m.next x)
    (hprev : ∀ x, x ≠ m.next q → x ≠ n → m'.prev x = m.prev x) (hbn : b ≠ n) :
    Path m' q (n :: post) b := by
  rcases post with _ | ⟨y, post⟩
  · obtain rfl := h.1
    exact ⟨hqn, hpn, hnn, hpr⟩
  · obtain ⟨hy, -, hrest⟩ := h
    rw [hy] at hnn hpr hprev
    rw [List.nodup_cons, List.nodup_cons] at hnd
    simp only [List.mem_cons, not_or] at hnd hb hn
    refine ⟨hqn, hpn, hnn, hpr, hrest.congr (fun x hx => hnext x ?_ ?_) fun x hx => hprev x ?_ ?_⟩
    · rintro rfl
      rcases List.mem_cons.mp hx with rfl | hx
      · exact hnd.1.1 rfl
      · exact hnd.1.2 hx
    · rintro rfl
      rcases List.mem_cons.mp hx with rfl | hx
      · exact hn.2.1 rfl
      · exact hn.2.2 hx
    · rintro rfl
      rcases List.mem_append.mp hx with hx | hx
      · exact hnd.2.1 hx
      · exact hb.1 (List.mem_singleton.mp hx).symm
    · rintro rfl
      rcases List.mem_append.mp hx with hx | hx
      · exact hn.2.2 hx
      · exact hbn (List.mem_singleton.mp hx).symm

/-- The nodes in front of `p` linked to those behind it. -/
theorem Path.remove (hp : Path m p post b) (hqr : m'.next (m.prev p) = m.next p)
    (hrq : m'.prev (m.next p) = m.prev p)
    (hnext : ∀ x, x ≠ m.prev p → x ≠ p → m'.next x = m.next x)
    (hprev : ∀ x, x ≠ m.next p → x ≠ p → m'.prev x = m.prev x) :
    ∀ {pre : List N} {a : N}, Path m a pre p → (a :: pre ++ p :: post).Nodup →
      b ∉ pre ++ p :: post → Path m' a (pre ++ post) b
  | [], a, h, hnd, hb => by
    obtain ⟨-, hq⟩ := h
    rw [hq] at hqr hrq hnext
    rcases post with _ | ⟨y, post⟩
    · obtain rfl := hp.1
      exact ⟨hqr, hrq⟩
    · obtain ⟨hy, -, hrest⟩ := hp
      rw [hy] at hqr hrq hprev
      simp only [List.nil_append, List.cons_append, List.nodup_cons, List.mem_cons, not_or] at hnd
      simp only [List.nil_append, List.mem_cons, not_or] at hb
      refine ⟨hqr, hrq, hrest.congr (fun x hx => hnext x ?_ ?_) fun x hx => hprev x ?_ ?_⟩
      · rintro rfl
        rcases List.mem_cons.mp hx with rfl | hx
        · exact hnd.1.2.1 rfl
        · exact hnd.1.2.2 hx
      · rintro rfl
        rcases List.mem_cons.mp hx with rfl | hx
        · exact hnd.2.1.1 rfl
        · exact hnd.2.1.2 hx
      · rintro rfl
        rcases List.mem_append.mp hx with hx | hx
        · exact hnd.2.2.1 hx
        · exact hb.2.1 (List.mem_singleton.mp hx).symm
      · rintro rfl
        rcases List.mem_append.mp hx with hx | hx
        · exact hnd.2.1.2 hx
        · exact hb.1 (List.mem_singleton.mp hx).symm
  | x :: pre, a, h, hnd, hb => by
    obtain ⟨ha, hx, hrest⟩ := h
    have hq := hrest.prev_mem
    have hr := hp.next_mem
    rw [List.cons_append, List.nodup_cons] at hnd
    have hnd' := hnd.2
    rw [List.cons_append, List.nodup_cons] at hnd'
    have hbx : b ∉ x :: (pre ++ p :: post) := hb
    refine ⟨(hnext a ?_ ?_).trans ha, (hprev x ?_ ?_).trans hx,
      remove hp hqr hrq hnext hprev hrest hnd.2 fun h => hbx (List.mem_cons_of_mem x h)⟩
    · intro he
      rw [← he] at hq
      exact hnd.1 (List.mem_append_left _ hq)
    · rintro rfl
      exact hnd.1 (by simp)
    · intro he
      rw [← he] at hr
      rcases List.mem_append.mp hr with hr | hr
      · exact hnd'.1 (by simp [hr])
      · exact hbx (by simp [List.mem_singleton.mp hr])
    · rintro rfl
      exact hnd'.1 (by simp)

end Circle
