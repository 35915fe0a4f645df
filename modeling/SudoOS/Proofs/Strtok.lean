import Mathlib.Data.List.TakeWhile
import SudoOS.Lib.Pieces
import SudoOS.Strtok

/-!
# Both tokenizers split alike

A call looks at the string from its place on and nothing else: it skips delimiters, takes the run
behind them and writes a NUL over the delimiter that ends it. So the rest is a shorter string, and
both loops return the runs without delimiters (`tokenizers_agree`).
-/

namespace SudoOS

open Pieces

variable {buf buf' delim : List UInt8} {p : ℕ}

/-! ## The string at a place -/

theorem cstr_eq (buf : List UInt8) (p : ℕ) :
    cstr buf p = if buf.getD p 0 = 0 then [] else buf.getD p 0 :: cstr buf (p + 1) := by
  unfold cstr
  by_cases hp : p < buf.length
  · rw [List.drop_eq_getElem_cons hp, List.takeWhile_cons, List.getD_eq_getElem?_getD,
      List.getElem?_eq_getElem hp, Option.getD_some]
    by_cases hc : buf[p] = 0
    · simp [hc]
    · simp [hc]
  · rw [List.drop_of_length_le (not_lt.mp hp), List.getD_eq_getElem?_getD,
      List.getElem?_eq_none (not_lt.mp hp)]
    rfl

theorem getD_eq_headD (buf : List UInt8) (p : ℕ) : buf.getD p 0 = (cstr buf p).headD 0 := by
  rw [cstr_eq]
  split_ifs with h
  · exact h
  · rfl

theorem zero_notMem_cstr (buf : List UInt8) (p : ℕ) : 0 ∉ cstr buf p := by
  intro h
  simpa using List.mem_takeWhile_imp h

theorem cstr_append_add {s t : List UInt8} : ∀ {p : ℕ}, cstr buf p = s ++ t →
    cstr buf (p + s.length) = t := by
  induction s with
  | nil => exact fun h => h
  | cons c s ih =>
    intro p h
    rw [cstr_eq] at h
    split_ifs at h with h0
    · cases h
    · have := ih (List.cons.inj h).2
      rw [List.length_cons, Nat.add_comm s.length, ← Nat.add_assoc]
      exact this

/-- The bytes of the string and its terminator determine it. -/
theorem cstr_congr : ∀ {s : List UInt8} {p : ℕ}, cstr buf p = s →
    (∀ i, p ≤ i → i ≤ p + s.length → buf'.getD i 0 = buf.getD i 0) → cstr buf' p = s
  | [], p, h, hsame => by
    rw [cstr_eq, hsame p le_rfl (by simp)]
    rw [cstr_eq] at h
    split_ifs at h ⊢ with h0
    · rfl
  | c :: s, p, h, hsame => by
    have htail := cstr_append_add (s := [c]) h
    rw [cstr_eq] at h
    split_ifs at h with h0
    rw [cstr_eq, hsame p le_rfl (by simp), if_neg h0, (List.cons.inj h).1]
    refine congrArg _ (cstr_congr htail fun i hi hi' => hsame i (by omega) ?_)
    rw [List.length_cons]
    omega

theorem getD_set_zero (buf : List UInt8) (i j : ℕ) :
    (buf.set i 0).getD j 0 = if j = i then 0 else buf.getD j 0 := by
  simp only [List.getD_eq_getElem?_getD, List.getElem?_set, eq_comm (a := i)]
  split_ifs <;> rfl

/-- A NUL written behind the first bytes of a string. -/
theorem cstr_set {s t : List UInt8} {c : UInt8} (h : cstr buf p = s ++ c :: t) :
    cstr (buf.set (p + s.length) 0) p = s
      ∧ cstr (buf.set (p + s.length) 0) (p + s.length + 1) = t := by
  constructor
  · induction s generalizing p with
    | nil =>
      rw [cstr_eq, List.length_nil, Nat.add_zero, getD_set_zero, if_pos rfl, if_pos rfl]
    | cons b s ih =>
      have htail := cstr_append_add (s := [b]) h
      rw [cstr_eq] at h
      split_ifs at h with h0
      · cases h
      obtain ⟨hb, -⟩ := List.cons.inj h
      have hset : (buf.set (p + (b :: s).length) 0).getD p 0 = b := by
        rw [getD_set_zero, if_neg (by simp), hb]
      rw [cstr_eq, hset, if_neg (hb ▸ h0)]
      have := ih htail
      rw [show p + [b].length + s.length = p + (b :: s).length by simp; omega] at this
      exact congrArg _ this
  · have hdrop := cstr_append_add (s := s ++ [c]) (by simpa using h)
    rw [List.length_append, List.length_singleton, ← Nat.add_assoc] at hdrop
    unfold cstr at hdrop ⊢
    rw [List.drop_set_of_lt (Nat.lt_succ_self _), hdrop]

/-! ## One call -/

theorem takeWhile_cstr (buf : List UInt8) (p : ℕ) (q : UInt8 → Bool) :
    (buf.drop p).takeWhile (fun c => c != 0 && q c) = (cstr buf p).takeWhile q := by
  unfold cstr
  induction buf.drop p with
  | nil => rfl
  | cons c l ih =>
    by_cases h0 : c = 0
    · simp [h0]
    · by_cases hq : q c = true <;> simp [h0, hq, ih]

/-- What a call sees: delimiters, a token, and the rest, which starts with a delimiter. -/
structure Cut (delim : List UInt8) (s ds ts rs : List UInt8) : Prop where
  split : s = ds ++ (ts ++ rs)
  skipped : ∀ c ∈ ds, c ∈ delim
  token : ∀ c ∈ ts, c ∉ delim
  rest : ∀ c ∈ rs.head?, c ∈ delim
  nonempty : ts = [] → rs = []

theorem exists_cut (delim s : List UInt8) : ∃ ds ts rs, Cut delim s ds ts rs := by
  refine ⟨s.takeWhile delim.contains, (s.dropWhile delim.contains).takeWhile (!delim.contains ·),
    (s.dropWhile delim.contains).dropWhile (!delim.contains ·), ?_, ?_, ?_, ?_, ?_⟩
  · rw [List.takeWhile_append_dropWhile, List.takeWhile_append_dropWhile]
  · exact fun c hc => by simpa using List.mem_takeWhile_imp hc
  · exact fun c hc => by simpa using List.mem_takeWhile_imp hc
  · intro c hc
    have := List.head?_dropWhile_not (!delim.contains ·) (s.dropWhile delim.contains)
    rw [hc] at this
    simpa using this
  · intro hnil
    have := List.head?_dropWhile_not delim.contains s
    rcases hd : s.dropWhile delim.contains with _ | ⟨c, us⟩
    · rfl
    · rw [hd] at this hnil
      simp at this
      simp [this] at hnil

section Call

variable {s ds ts rs : List UInt8}

theorem Cut.takeWhile_delims (h : Cut delim s ds ts rs) :
    s.takeWhile delim.contains = ds ∧ (ts ++ rs).takeWhile (!delim.contains ·) = ts := by
  constructor
  · rw [h.split, List.takeWhile_append_of_pos fun c hc => by simpa using h.skipped c hc]
    rcases ts with _ | ⟨c, ts⟩
    · simp [h.nonempty rfl]
    · simp [h.token c List.mem_cons_self]
  · rw [List.takeWhile_append_of_pos fun c hc => by simp [h.token c hc]]
    rcases rs with _ | ⟨c, rs⟩
    · simp
    · simp [h.rest c rfl]

/-- The places a call computes. -/
theorem Cut.places (h : Cut delim (cstr buf p) ds ts rs) :
    ((buf.drop p).takeWhile fun c => c != 0 && delim.contains c).length = ds.length
      ∧ ((buf.drop (p + ds.length)).takeWhile fun c => c != 0 && !delim.contains c).length
        = ts.length
      ∧ buf.getD (p + ds.length) 0 = (ts ++ rs).headD 0
      ∧ buf.getD (p + ds.length + ts.length) 0 = rs.headD 0 := by
  obtain ⟨hds, hts⟩ := h.takeWhile_delims
  have htail := cstr_append_add h.split
  have hrest := cstr_append_add htail
  refine ⟨?_, ?_, ?_, ?_⟩
  · rw [takeWhile_cstr, hds]
  · rw [takeWhile_cstr buf _ (!delim.contains ·), htail, hts]
  · rw [getD_eq_headD, htail]
  · rw [getD_eq_headD, hrest]

/-- Both functions find no token. -/
theorem call_none (h : Cut delim (cstr buf p) ds [] []) (save : ℕ) {str backup : Option ℕ}
    (hp : str.or backup = some p) :
    strtokR buf delim (some p) save = (none, buf, p + ds.length)
      ∧ strtok buf delim str backup = (none, buf, none) := by
  obtain ⟨h1, -, h3, -⟩ := h.places
  have h0 : buf.getD (p + ds.length) 0 = 0 := h3
  constructor
  · unfold strtokR
    simp only [Option.getD_some]
    rw [h1, if_pos h0]
  · unfold strtok
    rw [hp]
    simp only []
    rw [h1, if_pos h0]

/-- Both find the same token and leave the same buffer. -/
theorem call_some (h : Cut delim (cstr buf p) ds ts rs) (hne : ts ≠ []) (save : ℕ)
    {str backup : Option ℕ} (hp : str.or backup = some p) :
    strtokR buf delim (some p) save
        = (if rs = [] then (some (p + ds.length), buf, p + ds.length + ts.length)
          else (some (p + ds.length), buf.set (p + ds.length + ts.length) 0,
            p + ds.length + ts.length + 1))
      ∧ strtok buf delim str backup
        = (if rs = [] then (some (p + ds.length), buf, none)
          else (some (p + ds.length), buf.set (p + ds.length + ts.length) 0,
            some (p + ds.length + ts.length + 1))) := by
  obtain ⟨h1, h2, h3, h4⟩ := h.places
  have h0 := zero_notMem_cstr buf p
  rw [h.split] at h0
  have htok : buf.getD (p + ds.length) 0 ≠ 0 := by
    rw [h3]
    rcases ts with _ | ⟨c, ts⟩
    · exact absurd rfl hne
    · rintro rfl
      exact h0 (by simp)
  have hstop : buf.getD (p + ds.length + ts.length) 0 = 0 ↔ rs = [] := by
    rw [h4]
    rcases rs with _ | ⟨c, rs⟩
    · simp
    · refine ⟨?_, fun h => by cases h⟩
      rintro rfl
      exact absurd (by simp) h0
  constructor
  · unfold strtokR
    simp only [Option.getD_some]
    rw [h1, if_neg htok, h2]
    simp only [hstop]
  · unfold strtok
    rw [hp]
    simp only []
    rw [h1, if_neg htok, h2]
    simp only [hstop]

end Call

/-! ## All calls -/

/-- Only delimiters among the `n` bytes from `p` on have become NULs. -/
def Overwritten (delim buf buf' : List UInt8) (p n : ℕ) : Prop :=
  buf'.length = buf.length ∧ ∀ i, buf'.getD i 0 = buf.getD i 0
    ∨ (p ≤ i ∧ i < p + n ∧ buf.getD i 0 ∈ delim ∧ buf'.getD i 0 = 0)

/-- What both loops return. -/
structure Splits (delim buf : List UInt8) (p : ℕ) (toks : List (ℕ × List UInt8))
    (buf' : List UInt8) : Prop where
  strtokR : ∀ fuel, (cstr buf p).length < fuel →
    strtokRLoop delim fuel buf p = some (toks, buf')
  strtok : ∀ fuel, (cstr buf p).length < fuel → ∀ str backup, str.or backup = some p →
    strtokLoop delim fuel buf str backup = some (toks, buf')
  runs : toks.map Prod.snd = runs delim.contains (cstr buf p)
  stay : ∀ t ∈ toks, cstr buf' t.1 = t.2
  overwritten : Overwritten delim buf buf' p (cstr buf p).length

theorem Overwritten.refl (delim buf : List UInt8) (p n : ℕ) : Overwritten delim buf buf p n :=
  ⟨rfl, fun _ => .inl rfl⟩

variable {ds ts rs : List UInt8}

theorem runs_cut {s : List UInt8} (h : Cut delim s ds ts rs) (hne : ts ≠ []) :
    runs delim.contains s = ts :: runs delim.contains rs.tail := by
  have hts := runs_of_forall (p := delim.contains)
    (fun c hc => by simpa using h.token c hc) hne
  rw [h.split, runs_skip fun c hc => by simpa using h.skipped c hc]
  rcases rs with _ | ⟨c, rs⟩
  · rw [List.append_nil, hts]
    rfl
  · rw [runs_append (by simpa using h.rest c rfl), hts]
    rfl

theorem splits_none (h : Cut delim (cstr buf p) ds [] []) : Splits delim buf p [] buf where
  strtokR fuel hf := by
    obtain ⟨fuel, rfl⟩ := Nat.exists_eq_add_one.mpr (Nat.zero_lt_of_lt hf)
    rw [strtokRLoop, (call_none h p (Option.or_none (o := some p))).1]
  strtok fuel hf str backup hp := by
    obtain ⟨fuel, rfl⟩ := Nat.exists_eq_add_one.mpr (Nat.zero_lt_of_lt hf)
    rw [strtokLoop, (call_none h p hp).2]
  runs := by
    have := runs_skip (p := delim.contains) (fun c hc => by simpa using h.skipped c hc) []
    rw [h.split, List.append_nil, this]
    rfl
  stay t ht := by cases ht
  overwritten := .refl _ _ _ _

theorem cut_nil (delim : List UInt8) : Cut delim [] [] [] [] :=
  ⟨rfl, by simp, by simp, by simp, fun _ => rfl⟩

/-- The last token reaches to the end of the string. -/
theorem splits_last (h : Cut delim (cstr buf p) ds ts []) (hne : ts ≠ []) :
    Splits delim buf p [(p + ds.length, ts)] buf := by
  have htok := cstr_append_add h.split
  have hend := cstr_append_add htok
  rw [List.append_nil] at htok
  have hpos := List.length_pos_of_ne_nil hne
  have hlen : (cstr buf p).length = ds.length + ts.length := by
    rw [h.split]
    simp
  have hdone : Cut delim (cstr buf (p + ds.length + ts.length)) [] [] [] := hend ▸ cut_nil delim
  refine ⟨fun fuel hf => ?_, fun fuel hf str backup hp => ?_, ?_, ?_, .refl _ _ _ _⟩
  · obtain ⟨fuel, rfl⟩ := Nat.exists_eq_add_of_lt (show 1 < fuel by omega)
    have hnext := (splits_none hdone).strtokR (1 + fuel) (by rw [hend]; simp)
    rw [strtokRLoop, (call_some h hne p (Option.or_none (o := some p))).1, if_pos rfl]
    simp only [hnext, htok]
    rfl
  · obtain ⟨fuel, rfl⟩ := Nat.exists_eq_add_of_lt (show 1 < fuel by omega)
    rw [strtokLoop, (call_some h hne p hp).2, if_pos rfl, Nat.add_comm 1]
    simp only [htok, strtokLoop]
    rfl
  · rw [runs_cut h hne]
    rfl
  · simpa using htok

/-- A token that a delimiter ends; the calls that follow split what is behind it. -/
theorem splits_more {c : UInt8} {toks : List (ℕ × List UInt8)}
    (h : Cut delim (cstr buf p) ds ts (c :: rs)) (hne : ts ≠ [])
    (hnext : Splits delim (buf.set (p + ds.length + ts.length) 0) (p + ds.length + ts.length + 1)
      toks buf') : Splits delim buf p ((p + ds.length, ts) :: toks) buf' := by
  have htok := cstr_append_add h.split
  obtain ⟨hcut, hrest⟩ := cstr_set htok
  have hstop : buf.getD (p + ds.length + ts.length) 0 = c := h.places.2.2.2
  have hlen : (cstr buf p).length = ds.length + ts.length + rs.length + 1 := by
    rw [h.split]
    simp
    omega
  have hc : c ∈ delim := h.rest c rfl
  obtain ⟨hlen', hover⟩ := hnext.overwritten
  rw [hrest] at hover
  refine ⟨fun fuel hf => ?_, fun fuel hf str backup hp => ?_, ?_, ?_, ?_⟩
  · obtain ⟨fuel, rfl⟩ := Nat.exists_eq_add_one.mpr (Nat.zero_lt_of_lt hf)
    rw [strtokRLoop, (call_some h hne p (Option.or_none (o := some p))).1,
      if_neg (List.cons_ne_nil c rs)]
    simp only [hnext.strtokR fuel (by rw [hrest]; omega), hcut]
    rfl
  · obtain ⟨fuel, rfl⟩ := Nat.exists_eq_add_one.mpr (Nat.zero_lt_of_lt hf)
    rw [strtokLoop, (call_some h hne p hp).2, if_neg (List.cons_ne_nil c rs)]
    simp only [hnext.strtok fuel (by rw [hrest]; omega) none _ rfl, hcut]
    rfl
  · rw [runs_cut h hne, List.map_cons, hnext.runs, hrest]
    rfl
  · intro t ht
    rcases List.mem_cons.mp ht with rfl | ht
    · refine cstr_congr hcut fun i hi hi' => ?_
      have hi' : i ≤ p + ds.length + ts.length := hi'
      exact (hover i).resolve_right fun hr => by omega
    · exact hnext.stay t ht
  · refine ⟨hlen'.trans (List.length_set ..), fun i => ?_⟩
    by_cases hi : i = p + ds.length + ts.length
    · subst hi
      refine .inr ⟨by omega, by omega, hstop ▸ hc, ?_⟩
      rw [(hover _).resolve_right fun hr => by omega, getD_set_zero, if_pos rfl]
    · have := hover i
      rw [getD_set_zero, if_neg hi] at this
      exact this.imp_right fun hr => ⟨by omega, by omega, hr.2.2⟩

/-- For every string and every set of delimiters, `strtok_r` and `strtok`, called until they return
`NULL`, return the same tokens at the same places, the runs without delimiters, and leave the same
buffer, in which nothing but delimiters has become NUL. -/
theorem tokenizers_agree (delim buf : List UInt8) (p : ℕ) :
    ∃ toks buf', Splits delim buf p toks buf' := by
  induction hn : (cstr buf p).length using Nat.strong_induction_on generalizing buf p with
  | _ n ih =>
    obtain ⟨ds, ts, rs, h⟩ := exists_cut delim (cstr buf p)
    by_cases hne : ts = []
    · obtain rfl := hne
      obtain rfl := h.nonempty rfl
      exact ⟨_, _, splits_none h⟩
    · rcases rs with _ | ⟨c, rs⟩
      · exact ⟨_, _, splits_last h hne⟩
      · obtain ⟨-, hrest⟩ := cstr_set (cstr_append_add h.split)
        have hlen : rs.length < n := by
          rw [← hn, h.split]
          simp
          omega
        obtain ⟨toks, buf', hnext⟩ := ih _ hlen _ _ (by rw [hrest])
        exact ⟨_, _, splits_more h hne hnext⟩

example : strtokLoop (ascii " ,") 9 (ascii " a, b" ++ [0]) (some 0) none
    = some ([(1, ascii "a"), (4, ascii "b")], [32, 97, 0, 32, 98, 0]) := by decide

end SudoOS
