import SudoOS.ListNode

/-!
# Lists in memory and their sequences

Where the links of memory represent a set of lists, every operation leaves links that represent the
lists after it (`lists_refine`): one sequence changes, all others stay. A node that has been removed
leads to itself, so removing it again writes nothing (`freeProcNode_removed`).
-/

namespace SudoOS

open Circle SudoOS.Lists

variable {N : Type*} [DecidableEq N] {m m' : Links N} {s : Lists N} {h n p q : N} {xs : List N}

/-- Each list is a circle through its sentinel, and no two have a node in common. -/
structure Represents (m : Links N) (s : Lists N) : Prop where
  circle : ∀ {h xs}, s.seq h = some xs → Path m h xs h
  nodup : ∀ {h xs}, s.seq h = some xs → (h :: xs).Nodup
  disjoint : ∀ {h xs h' xs' n}, s.seq h = some xs → s.seq h' = some xs' → n ∈ h :: xs →
    n ∈ h' :: xs' → h = h'
  removed : ∀ p ∈ s.removed, m.next p = p ∧ m.prev p = p ∧ ¬ s.Used p

/-! ## Sequences -/

theorem insertAfter_append {pre : List N} (hp : p ∉ pre) (n : N) (post : List N) :
    insertAfter p n (pre ++ p :: post) = pre ++ p :: n :: post := by
  induction pre with
  | nil => simp [insertAfter]
  | cons x pre ih =>
    obtain ⟨hx, hp⟩ := not_or.mp (List.mem_cons.not.mp hp)
    rw [List.cons_append, insertAfter, if_neg (Ne.symm hx), ih hp]
    rfl

theorem insertBefore_append {pre : List N} (hp : p ∉ pre) (n : N) (post : List N) :
    insertBefore p n (pre ++ p :: post) = pre ++ n :: p :: post := by
  induction pre with
  | nil => simp [insertBefore]
  | cons x pre ih =>
    obtain ⟨hx, hp⟩ := not_or.mp (List.mem_cons.not.mp hp)
    rw [List.cons_append, insertBefore, if_neg (Ne.symm hx), ih hp]
    rfl

theorem addAfter_perm (hp : p ∈ h :: xs) (n : N) : (addAfter h p n xs).Perm (n :: xs) := by
  unfold addAfter
  split_ifs with hph
  · rfl
  · obtain ⟨pre, post, rfl, hpre⟩ :=
      List.eq_append_cons_of_mem ((List.mem_cons.mp hp).resolve_left hph)
    rw [insertAfter_append hpre]
    exact (List.perm_middle.trans (List.perm_middle.cons p)).trans
      ((List.Perm.swap n p _).trans (List.perm_middle.symm.cons n))

/-! ## Writes -/

theorem listAdd_next (n q r x : N) :
    (listAdd m n q r).next x = if x = q then n else if x = n then r else m.next x := by
  simp only [listAdd, setNext, setPrev, Function.update_apply]

theorem listAdd_prev {r : N} (hnr : n ≠ r) (q x : N) :
    (listAdd m n q r).prev x = if x = r then n else if x = n then q else m.prev x := by
  simp only [listAdd, setNext, setPrev, Function.update_apply]
  by_cases hx : x = r
  · rw [if_neg (fun h => hnr (h.symm.trans hx)), if_pos hx, if_pos hx]
  · rw [if_neg hx, if_neg hx]

theorem listDel_next (hr : m.next p ≠ p) (x : N) : (listDel m p).next x
    = if x = p then p else if x = m.prev p then m.next p else m.next x := by
  simp only [listDel, setNext, setPrev, Function.update_apply, if_neg (Ne.symm hr)]

theorem listDel_prev (hr : m.next p ≠ p) (x : N) : (listDel m p).prev x
    = if x = p then p else if x = m.next p then m.prev p else m.prev x := by
  simp only [listDel, setNext, setPrev, Function.update_apply, if_neg (Ne.symm hr)]

/-- Removing a node that leads to itself. -/
theorem listDel_self (hn : m.next p = p) (hp : m.prev p = p) : listDel m p = m := by
  have h1 : setPrev m p p = m := by
    rw [setPrev, Function.update_eq_self_iff.mpr hp.symm]
  have h2 : setNext m p p = m := by
    rw [setNext, Function.update_eq_self_iff.mpr hn.symm]
  simp only [listDel, hn, hp, h1, h2]

/-! ## One list -/

theorem addAfter_concat {front post : List N} (hnd : (h :: (front ++ [q] ++ post)).Nodup) (n : N) :
    addAfter h q n (front ++ [q] ++ post) = front ++ [q] ++ n :: post := by
  rw [List.append_assoc, List.singleton_append] at hnd ⊢
  have hq : q ≠ h := by
    rintro rfl
    exact (List.nodup_cons.mp hnd).1 (by simp)
  have hqf : q ∉ front := fun hqf =>
    (List.nodup_cons.mp (List.nodup_middle.mp (List.nodup_cons.mp hnd).2)).1 (by simp [hqf])
  rw [addAfter, if_neg hq, insertAfter_append hqf, List.append_assoc]
  rfl

/-- Adding in front of a node is adding behind the one in front of it. -/
theorem circle_prev (hm : Path m h xs h) (hnd : (h :: xs).Nodup) (hp : p ∈ h :: xs) (n : N) :
    m.next (m.prev p) = p ∧ m.prev p ∈ h :: xs
      ∧ addBefore h p n xs = addAfter h (m.prev p) n xs := by
  by_cases hph : p = h
  · subst hph
    refine ⟨hm.next_prev, hm.prev_mem, ?_⟩
    rw [addBefore, if_pos rfl]
    rcases hm.prev_eq with ⟨rfl, hq⟩ | ⟨front, hfront⟩
    · rw [addAfter, if_pos hq]
      rfl
    · generalize m.prev p = q at hfront ⊢
      subst hfront
      have hnd' : (p :: (front ++ [q] ++ [])).Nodup := by simpa using hnd
      have hadd := addAfter_concat hnd' n
      rw [List.append_nil] at hadd
      exact hadd.symm
  · obtain ⟨pre, post, rfl, hpre⟩ :=
      List.eq_append_cons_of_mem ((List.mem_cons.mp hp).resolve_left hph)
    have hfirst := (path_append.mp hm).1
    refine ⟨hfirst.next_prev, hm.prev_mem_circle hp, ?_⟩
    rw [addBefore, if_neg hph, insertBefore_append hpre]
    rcases hfirst.prev_eq with ⟨rfl, hq⟩ | ⟨front, hfront⟩
    · rw [addAfter, if_pos hq]
      rfl
    · generalize m.prev p = q at hfront ⊢
      subst hfront
      exact (addAfter_concat hnd n).symm

theorem circle_addAfter (hm : Path m h xs h) (hnd : (h :: xs).Nodup) (hp : p ∈ h :: xs)
    (hn : n ∉ h :: xs) : Path (listAddAfter m n p) h (addAfter h p n xs) h := by
  have hnp : n ≠ p := fun h => hn (h ▸ hp)
  have hnr : n ≠ m.next p := fun h => hn (h ▸ hm.next_mem_circle hp)
  have hnh : n ≠ h := fun h => hn (h ▸ List.mem_cons_self)
  have hwrites : ∀ {post : List N}, Path m p post h → (p :: post).Nodup → h ∉ post →
      n ∉ p :: post → Path (listAddAfter m n p) p (n :: post) h := by
    intro post hpost hnd hh hn
    refine hpost.insert hnd hh hn ?_ ?_ ?_ ?_ (fun x h1 h2 => ?_) (fun x h1 h2 => ?_) hnh.symm
    · rw [listAddAfter, listAdd_next, if_pos rfl]
    · rw [listAddAfter, listAdd_next, if_neg hnp, if_pos rfl]
    · rw [listAddAfter, listAdd_prev hnr, if_neg hnr, if_pos rfl]
    · rw [listAddAfter, listAdd_prev hnr, if_pos rfl]
    · rw [listAddAfter, listAdd_next, if_neg h1, if_neg h2]
    · rw [listAddAfter, listAdd_prev hnr, if_neg h1, if_neg h2]
  unfold addAfter
  split_ifs with hph
  · subst hph
    exact hwrites hm hnd (List.nodup_cons.mp hnd).1 hn
  · obtain ⟨pre, post, rfl, hpre⟩ :=
      List.eq_append_cons_of_mem ((List.mem_cons.mp hp).resolve_left hph)
    rw [insertAfter_append hpre]
    obtain ⟨hfirst, hrest⟩ := path_append.mp hm
    obtain ⟨hh, hnd'⟩ := List.nodup_cons.mp hnd
    have hndpost := (List.nodup_append'.mp hnd').2.1
    refine path_append.mpr ⟨hfirst.congr (fun x hx => ?_) fun x hx => ?_, hwrites hrest hndpost
      (fun hx => hh (by simp [hx])) fun hx => hn (by simp [List.mem_cons.mp hx])⟩
    · rw [listAddAfter, listAdd_next, if_neg, if_neg]
      · rintro rfl
        rcases List.mem_cons.mp hx with hx | hx
        · exact hnh hx
        · exact hn (List.mem_cons_of_mem h (List.mem_append_left _ hx))
      · rintro rfl
        exact (List.mem_cons.mp hx).elim hph hpre
    · rw [listAddAfter, listAdd_prev hnr, if_neg, if_neg]
      · rintro rfl
        rcases List.mem_append.mp hx with hx | hx
        · exact hn (List.mem_cons_of_mem h (List.mem_append_left _ hx))
        · exact hnp (List.mem_singleton.mp hx)
      · rintro rfl
        exact hrest.next_notMem hnd hx

theorem circle_del (hm : Path m h xs h) (hnd : (h :: xs).Nodup) (hp : p ∈ xs) :
    Path (listDel m p) h (xs.erase p) h := by
  obtain ⟨pre, post, rfl, hpre⟩ := List.eq_append_cons_of_mem hp
  obtain ⟨hfirst, hrest⟩ := path_append.mp hm
  have hr := hm.next_ne_circle hnd hp
  have hq : m.prev p ≠ p := by
    intro hq
    have := hq ▸ hfirst.prev_mem
    rcases List.mem_cons.mp this with rfl | hmem
    · exact (List.nodup_cons.mp hnd).1 (by simp)
    · exact hpre hmem
  rw [List.erase_append_right _ hpre, List.erase_cons_head]
  refine hrest.remove ?_ ?_ (fun x h1 h2 => ?_) (fun x h1 h2 => ?_) hfirst hnd
    (List.nodup_cons.mp hnd).1
  · rw [listDel_next hr, if_neg hq, if_pos rfl]
  · rw [listDel_prev hr, if_neg hr, if_pos rfl]
  · rw [listDel_next hr, if_neg h2, if_neg h1]
  · rw [listDel_prev hr, if_neg h2, if_neg h1]

/-! ## All lists -/

theorem put_seq {h' : N} {ys : List N} {R : Set N} : (s.put h xs R).seq h' = some ys
    ↔ (h' = h ∧ ys = xs) ∨ (h' ≠ h ∧ s.seq h' = some ys) := by
  rw [Lists.put]
  by_cases hh : h' = h
  · subst hh
    simp [eq_comm]
  · simp [hh]

theorem put_used {R : Set N} (hu : (s.put h xs R).Used n) : n ∈ h :: xs ∨ s.Used n := by
  obtain ⟨h', ys, hs, hn⟩ := hu
  rcases put_seq.mp hs with ⟨rfl, rfl⟩ | ⟨-, hs⟩
  · exact .inl hn
  · exact .inr ⟨h', ys, hs, hn⟩

/-- One list is rewritten and no link of another one. -/
theorem Represents.put {R : Set N} (hm : Represents m s) (hpath : Path m' h xs h)
    (hnd : (h :: xs).Nodup)
    (hown : ∀ {h' ys x}, s.seq h' = some ys → x ∈ h' :: ys → x ∈ h :: xs → h' = h)
    (hframe : ∀ {h' ys x}, s.seq h' = some ys → h' ≠ h → x ∈ h' :: ys →
      m'.next x = m.next x ∧ m'.prev x = m.prev x)
    (hrem : ∀ p ∈ R, m'.next p = p ∧ m'.prev p = p ∧ ¬ (s.put h xs R).Used p) :
    Represents m' (s.put h xs R) where
  circle hs := by
    rcases put_seq.mp hs with ⟨rfl, rfl⟩ | ⟨hh, hs⟩
    · exact hpath
    · refine (hm.circle hs).congr (fun x hx => (hframe hs hh hx).1) fun x hx => ?_
      refine (hframe hs hh ?_).2
      rcases List.mem_append.mp hx with hx | hx
      · exact List.mem_cons_of_mem _ hx
      · exact List.mem_singleton.mp hx ▸ List.mem_cons_self
  nodup hs := by
    rcases put_seq.mp hs with ⟨rfl, rfl⟩ | ⟨-, hs⟩
    · exact hnd
    · exact hm.nodup hs
  disjoint hs hs' hn hn' := by
    rcases put_seq.mp hs with ⟨rfl, rfl⟩ | ⟨-, hs₁⟩
    · rcases put_seq.mp hs' with ⟨rfl, rfl⟩ | ⟨-, hs₂⟩
      · rfl
      · exact (hown hs₂ hn' hn).symm
    · rcases put_seq.mp hs' with ⟨rfl, rfl⟩ | ⟨-, hs₂⟩
      · exact hown hs₁ hn hn'
      · exact hm.disjoint hs₁ hs₂ hn hn'
  removed := hrem

theorem Represents.init (hm : Represents m s) (hn : ∀ h xs, s.seq h = some xs → n ∉ xs) :
    Represents (listInit m n) (s.put n [] (s.removed \ {n})) := by
  have hwrite : ∀ x, x ≠ n →
      (listInit m n).next x = m.next x ∧ (listInit m n).prev x = m.prev x := fun x hx =>
    ⟨Function.update_of_ne hx _ _, Function.update_of_ne hx _ _⟩
  have hhead : ∀ {h ys}, s.seq h = some ys → n ∈ h :: ys → h = n := fun hs hmem =>
    ((List.mem_cons.mp hmem).resolve_right (hn _ _ hs)).symm
  refine hm.put ?_ (List.nodup_singleton n) (fun hs hx hx' => ?_) (fun hs hh hx => ?_) ?_
  · exact ⟨Function.update_self _ _ _, Function.update_self _ _ _⟩
  · exact hhead hs (List.mem_singleton.mp hx' ▸ hx)
  · exact hwrite _ fun he => hh (hhead hs (he ▸ hx))
  · rintro p ⟨hp, hpn⟩
    obtain ⟨h1, h2, h3⟩ := hm.removed p hp
    obtain ⟨w1, w2⟩ := hwrite p hpn
    refine ⟨w1.trans h1, w2.trans h2, fun hu => ?_⟩
    exact (put_used hu).elim (fun hp => hpn (List.mem_singleton.mp hp)) h3

theorem Represents.addAfter (hm : Represents m s) (hs : s.seq h = some xs) (hp : p ∈ h :: xs)
    (hn : ¬ s.Used n) :
    Represents (listAddAfter m n p) (s.put h (addAfter h p n xs) (s.removed \ {n})) := by
  have hnew : n ∉ h :: xs := fun h' => hn ⟨h, xs, hs, h'⟩
  have hr := (hm.circle hs).next_mem_circle hp
  have hnr : n ≠ m.next p := fun h => hnew (h ▸ hr)
  have hperm : (h :: Lists.addAfter h p n xs).Perm (n :: h :: xs) :=
    ((addAfter_perm hp n).cons h).trans (List.Perm.swap n h xs)
  have hwrite : ∀ x, x ∉ h :: xs → x ≠ n → (listAddAfter m n p).next x = m.next x
      ∧ (listAddAfter m n p).prev x = m.prev x := by
    intro x hx hxn
    have h1 : x ≠ p := fun h => hx (h ▸ hp)
    have h2 : x ≠ m.next p := fun h => hx (h ▸ hr)
    rw [listAddAfter, listAdd_next, listAdd_prev hnr, if_neg h1, if_neg hxn, if_neg h2, if_neg hxn]
    exact ⟨rfl, rfl⟩
  refine hm.put (circle_addAfter (hm.circle hs) (hm.nodup hs) hp hnew)
    (hperm.nodup_iff.mpr (List.nodup_cons.mpr ⟨hnew, hm.nodup hs⟩)) (fun hs' hx hx' => ?_)
    (fun hs' hh hx => ?_) ?_
  · rcases List.mem_cons.mp (hperm.mem_iff.mp hx') with rfl | hx'
    · exact absurd ⟨_, _, hs', hx⟩ hn
    · exact hm.disjoint hs' hs hx hx'
  · refine hwrite _ (fun hx' => hh (hm.disjoint hs' hs hx hx')) ?_
    rintro rfl
    exact hn ⟨_, _, hs', hx⟩
  · rintro x ⟨hx, hxn⟩
    obtain ⟨h1, h2, h3⟩ := hm.removed x hx
    obtain ⟨w1, w2⟩ := hwrite x (fun hx => h3 ⟨h, xs, hs, hx⟩) hxn
    refine ⟨w1.trans h1, w2.trans h2, fun hu => ?_⟩
    rcases put_used hu with hx | hx
    · rcases List.mem_cons.mp (hperm.mem_iff.mp hx) with rfl | hx
      · exact hxn rfl
      · exact h3 ⟨h, xs, hs, hx⟩
    · exact h3 hx

theorem Represents.addBefore (hm : Represents m s) (hs : s.seq h = some xs) (hp : p ∈ h :: xs)
    (hn : ¬ s.Used n) :
    Represents (listAddBefore m n p) (s.put h (addBefore h p n xs) (s.removed \ {n})) := by
  obtain ⟨hnext, hmem, hadd⟩ := circle_prev (hm.circle hs) (hm.nodup hs) hp n
  have hsame : listAddBefore m n p = listAddAfter m n (m.prev p) := by
    rw [listAddBefore, listAddAfter, hnext]
  rw [hsame, hadd]
  exact hm.addAfter hs hmem hn

theorem Represents.del (hm : Represents m s) (hs : s.seq h = some xs) (hp : p ∈ xs) :
    Represents (listDel m p) (s.put h (xs.erase p) (insert p s.removed)) := by
  have hnd := hm.nodup hs
  obtain ⟨hh, hnd'⟩ := List.nodup_cons.mp hnd
  have hmem : p ∈ h :: xs := List.mem_cons_of_mem h hp
  have hq := (hm.circle hs).prev_mem_circle hmem
  have hr := (hm.circle hs).next_mem_circle hmem
  have hrp : m.next p ≠ p := (hm.circle hs).next_ne_circle hnd hp
  have hsub : ∀ {x}, x ∈ h :: xs.erase p → x ∈ h :: xs := fun hx =>
    (List.cons_subset_cons h List.erase_subset) hx
  have hwrite : ∀ x, x ∉ h :: xs →
      (listDel m p).next x = m.next x ∧ (listDel m p).prev x = m.prev x := by
    intro x hx
    have h1 : x ≠ p := fun h => hx (h ▸ hmem)
    have h2 : x ≠ m.prev p := fun h => hx (h ▸ hq)
    have h3 : x ≠ m.next p := fun h => hx (h ▸ hr)
    rw [listDel_next hrp, listDel_prev hrp, if_neg h1, if_neg h2, if_neg h1, if_neg h3]
    exact ⟨rfl, rfl⟩
  refine hm.put (circle_del (hm.circle hs) hnd hp) ?_ (fun hs' hx hx' => ?_)
    (fun hs' hne hx => ?_) ?_
  · exact List.nodup_cons.mpr ⟨fun hx => hh (List.mem_of_mem_erase hx), hnd'.erase p⟩
  · exact hm.disjoint hs' hs hx (hsub hx')
  · exact hwrite _ fun hx' => hne (hm.disjoint hs' hs hx hx')
  · rintro x hx
    rcases Set.mem_insert_iff.mp hx with rfl | hx
    · refine ⟨by rw [listDel_next hrp, if_pos rfl], by rw [listDel_prev hrp, if_pos rfl], ?_⟩
      rintro ⟨h', ys, hs', hx'⟩
      rcases put_seq.mp hs' with ⟨rfl, rfl⟩ | ⟨hne, hs₁⟩
      · rcases List.mem_cons.mp hx' with rfl | hx'
        · exact hh hp
        · exact hnd'.not_mem_erase hx'
      · exact hne (hm.disjoint hs₁ hs hx' hmem)
    · obtain ⟨h1, h2, h3⟩ := hm.removed x hx
      obtain ⟨w1, w2⟩ := hwrite x fun hx => h3 ⟨h, xs, hs, hx⟩
      refine ⟨w1.trans h1, w2.trans h2, fun hu => ?_⟩
      exact (put_used hu).elim (fun hx => h3 ⟨h, xs, hs, hsub hx⟩) h3

theorem Represents.step {t : Lists N} {op : ListOp N} (hm : Represents m s)
    (hs : Lists.Step s op t) : Represents (listStep m op) t := by
  cases hs with
  | init hn => exact hm.init hn
  | addAfter hs hp hn => exact hm.addAfter hs hp hn
  | addBefore hs hp hn => exact hm.addBefore hs hp hn
  | del hs hp => exact hm.del hs hp
  | delAgain hp =>
    obtain ⟨h1, h2, -⟩ := hm.removed _ hp
    change Represents (listDel m _) s
    rwa [listDel_self h1 h2]

/-- A node that has been removed can be removed again, as `free_proc` does with the scheduler node
of a zombie: nothing is written. -/
theorem freeProcNode_removed (hm : Represents m s) (hp : p ∈ s.removed) (null : N) :
    freeProcNode null m p = m := by
  obtain ⟨h1, h2, -⟩ := hm.removed p hp
  unfold freeProcNode
  rw [listDel_self h1 h2, ite_self]

/-- Memory that represents a set of lists represents, after any run of operations, the lists that
the same operations make of the sequences. -/
theorem lists_refine (m : Links N) (s t : Lists N) (ops : List (ListOp N)) (hm : Represents m s)
    (hs : Lists.Steps s ops t) : Represents (ops.foldl listStep m) t := by
  induction hs generalizing m with
  | nil s => exact hm
  | cons h _ ih => exact ih _ (hm.step h)

/-- No lists. -/
def noLists : Lists ℕ := ⟨fun _ => none, ∅⟩

theorem noLists_represents (m : Links ℕ) : Represents m noLists where
  circle hs := by cases hs
  nodup hs := by cases hs
  disjoint hs := by cases hs
  removed p hp := hp.elim

theorem not_used_put (R : Set N) (hn : n ∉ h :: xs) (hs : ¬ s.Used n) : ¬ (s.put h xs R).Used n :=
  fun hu => (put_used hu).elim hn hs

theorem noLists_not_used (n : ℕ) : ¬ noLists.Used n := by
  rintro ⟨h, xs, hs, -⟩
  cases hs

/-- Two nodes are added, one is removed twice. -/
theorem lists_refine_removed : ∃ t : Lists ℕ, t.seq 0 = some [2] ∧ 1 ∈ t.removed ∧
    Represents ([.init 0, .addAfter 1 0, .addBefore 2 0, .del 1, .del 1].foldl listStep
      ⟨fun _ => 0, fun _ => 0⟩) t := by
  have hinit : Lists.Step noLists (.init 0) _ := .init fun h xs hs => by cases hs
  have hfresh : ∀ n, n ≠ 0 → ¬ (noLists.put 0 [] (noLists.removed \ {0})).Used n := fun n hn =>
    not_used_put _ (by simpa using hn) (noLists_not_used n)
  have hafter := Lists.Step.addAfter (h := 0) (p := 0) rfl List.mem_cons_self
    (hfresh 1 (by decide))
  have hbefore := Lists.Step.addBefore (h := 0) (p := 0) rfl List.mem_cons_self
    (not_used_put ((noLists.put 0 [] (noLists.removed \ {0})).removed \ {1})
      (show 2 ∉ 0 :: Lists.addAfter 0 0 1 [] by decide) (hfresh 2 (by decide)))
  refine ⟨_, ?_, ?_, lists_refine _ noLists _ _ (noLists_represents _) (.cons hinit
    (.cons hafter (.cons hbefore (.cons (.del (h := 0) (p := 1) rfl (by decide))
      (.cons (.delAgain (Set.mem_insert 1 _)) (.nil _))))))⟩
  · rfl
  · exact Set.mem_insert 1 _

end SudoOS
