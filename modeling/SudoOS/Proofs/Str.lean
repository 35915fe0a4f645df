import SudoOS.Str

/-!
# Tokens

`strtok_r` writes a NUL over the delimiter that ends a token, behind the bytes it has yet to scan.
So a buffer that ends in its only NUL keeps that shape in the part still to be scanned, and what
`strtok_r` does there is a plain split (`strtokR_cases`): the delimiters in front are dropped, and
the token runs to the next one.
-/

namespace SudoOS

theorem getD_append_length (pre l : List UInt8) (d : UInt8) :
    (pre ++ l).getD pre.length d = l.head?.getD d := by
  rw [List.getD_eq_getElem?_getD, List.getElem?_append_right le_rfl, Nat.sub_self,
    List.head?_eq_getElem?]

theorem drop_append_length (pre l : List UInt8) : (pre ++ l).drop pre.length = l := by simp

/-- The string at the end of a prefix, up to the NUL behind it. -/
theorem cstr_append (pre : List UInt8) {s : List UInt8} (tail : List UInt8) (hs : (0 : UInt8) ∉ s) :
    cstr (pre ++ (s ++ 0 :: tail)) pre.length = s := by
  unfold cstr
  rw [drop_append_length, List.takeWhile_append_of_pos]
  · simp
  · intro c hc
    simp only [bne_iff_ne, ne_eq]
    rintro rfl
    exact hs hc

theorem span_delim (d : UInt8) : ∀ (r : List UInt8),
    ∃ ds ts, r = ds ++ ts ∧ (∀ c ∈ ds, c = d) ∧ ts.head? ≠ some d
  | [] => ⟨[], [], rfl, by simp, by simp⟩
  | c :: r => by
    by_cases hc : c = d
    · obtain ⟨ds, ts, hr, hds, hts⟩ := span_delim d r
      exact ⟨c :: ds, ts, by rw [hr]; rfl, by simpa using ⟨hc, hds⟩, hts⟩
    · exact ⟨[], c :: r, rfl, by simp, by simpa using hc⟩

theorem span_token (d : UInt8) : ∀ (r : List UInt8),
    ∃ ts rs, r = ts ++ rs ∧ d ∉ ts ∧ (rs = [] ∨ ∃ rs', rs = d :: rs')
  | [] => ⟨[], [], rfl, by simp, .inl rfl⟩
  | c :: r => by
    by_cases hc : c = d
    · exact ⟨[], c :: r, rfl, by simp, .inr ⟨r, by rw [hc]⟩⟩
    · obtain ⟨ts, rs, hr, hts, hrs⟩ := span_token d r
      exact ⟨c :: ts, rs, by rw [hr]; rfl, by simpa [Ne.symm hc] using hts, hrs⟩

section Delim

variable {d : UInt8} {ds ts : List UInt8} (hd : d ≠ 0) (hds : ∀ c ∈ ds, c = d)

include hd hds

theorem takeWhile_delims (rest : List UInt8) (hr : rest.head? ≠ some d) :
    (ds ++ rest).takeWhile (fun c => c != 0 && [d].contains c) = ds := by
  rw [List.takeWhile_append_of_pos]
  · cases rest with
    | nil => simp
    | cons c rest =>
      have hc : c ≠ d := by simpa using hr
      simp [hc]
  · intro c hc
    simp [hds c hc, hd]

theorem strtokR_none (pre : List UInt8) (save : ℕ) :
    strtokR (pre ++ (ds ++ [0])) [d] (some pre.length) save
      = (none, pre ++ (ds ++ [0]), (pre ++ ds).length) := by
  unfold strtokR
  simp only [Option.getD_some, drop_append_length]
  rw [takeWhile_delims hd hds [0] (by simpa using Ne.symm hd), ← List.length_append,
    ← List.append_assoc, getD_append_length]
  simp

theorem strtokR_some (pre rest : List UInt8) (save : ℕ) (hne : ts ≠ []) (hts : d ∉ ts)
    (h0 : (0 : UInt8) ∉ ts) (hrest : rest.head? = some 0 ∨ rest.head? = some d) :
    strtokR (pre ++ (ds ++ (ts ++ rest))) [d] (some pre.length) save
      = if rest.head?.getD 0 = 0 then
          (some (pre ++ ds).length, pre ++ (ds ++ (ts ++ rest)), (pre ++ ds ++ ts).length)
        else
          (some (pre ++ ds).length, pre ++ (ds ++ (ts ++ 0 :: rest.tail)),
            (pre ++ ds ++ ts).length + 1) := by
  obtain ⟨t, ts', rfl⟩ := List.exists_cons_of_ne_nil hne
  simp only [List.mem_cons, not_or] at hts h0
  have hfirst : ((t :: ts') ++ rest).head? ≠ some d := by simpa using Ne.symm hts.1
  have htok : ((t :: ts') ++ rest).takeWhile (fun c => c != 0 && !([d].contains c)) = t :: ts' := by
    rw [List.takeWhile_append_of_pos]
    · cases rest with
      | nil => simp
      | cons c rest =>
        rcases hrest with h | h <;> simp only [List.head?_cons, Option.some.injEq] at h <;> simp [h]
    · intro c hc
      have hcd : c ≠ d := by
        rintro rfl
        exact (List.mem_cons.mp hc).elim (fun h => hts.1 h) (fun h => hts.2 h)
      have hc0 : c ≠ 0 := by
        rintro rfl
        exact (List.mem_cons.mp hc).elim (fun h => h0.1 h) (fun h => h0.2 h)
      simp [hcd, hc0]
  unfold strtokR
  simp only [Option.getD_some, drop_append_length]
  rw [takeWhile_delims hd hds _ hfirst, ← List.length_append, ← List.append_assoc pre ds,
    getD_append_length, drop_append_length, htok, ← List.length_append,
    ← List.append_assoc (pre ++ ds), getD_append_length]
  have ht : ¬ (((t :: ts') ++ rest).head?.getD 0 = 0) := by simpa using Ne.symm h0.1
  rw [if_neg ht]
  split_ifs with hr
  · simp
  · congr 2
    rw [List.set_append_right _ _ le_rfl]
    cases rest with
    | nil => simp at hrest
    | cons c rest => simp

end Delim

/-- What a call finds of which `r` is still to be scanned: a token behind delimiters, and the part
`r'` that is left. -/
structure Token (d : UInt8) (r token r' : List UInt8) : Prop where
  nonempty : token ≠ []
  noDelim : d ∉ token
  split : ∃ ds, (∀ c ∈ ds, c = d) ∧ (r = ds ++ token ∧ r' = [] ∨ r = ds ++ (token ++ d :: r'))

theorem Token.infix {d : UInt8} {r token r' : List UInt8} (h : Token d r token r') :
    token <:+: r := by
  obtain ⟨ds, -, ⟨rfl, -⟩ | rfl⟩ := h.split
  · exact ⟨ds, [], by simp⟩
  · exact ⟨ds, d :: r', by simp⟩

theorem Token.suffix {d : UInt8} {r token r' : List UInt8} (h : Token d r token r') :
    r' <:+ r := by
  obtain ⟨ds, -, ⟨rfl, rfl⟩ | rfl⟩ := h.split
  · exact List.nil_suffix
  · exact ⟨ds ++ token ++ [d], by simp⟩

theorem Token.length_lt {d : UInt8} {r token r' : List UInt8} (h : Token d r token r') :
    r'.length < r.length := by
  have hlen := List.length_pos_of_ne_nil h.nonempty
  obtain ⟨ds, -, ⟨rfl, rfl⟩ | rfl⟩ := h.split
  · rw [List.length_nil, List.length_append]
    omega
  · simp only [List.length_append, List.length_cons]
    omega

/-- One call on a buffer of which `r` is still to be scanned. -/
theorem strtokR_cases {d : UInt8} {pre r : List UInt8} (save : ℕ) (hd : d ≠ 0)
    (hr : (0 : UInt8) ∉ r) :
    ((∀ c ∈ r, c = d)
        ∧ ∃ q, strtokR (pre ++ (r ++ [0])) [d] (some pre.length) save
          = (none, pre ++ (r ++ [0]), q))
      ∨ ∃ pos pre' token r', strtokR (pre ++ (r ++ [0])) [d] (some pre.length) save
          = (some pos, pre' ++ (r' ++ [0]), pre'.length)
        ∧ cstr (pre' ++ (r' ++ [0])) pos = token ∧ Token d r token r' := by
  obtain ⟨ds, us, rfl, hds, hus⟩ := span_delim d r
  obtain ⟨ts, rs, rfl, hts, hrs⟩ := span_token d us
  simp only [List.mem_append, not_or] at hr
  obtain ⟨-, ht0, hr0⟩ := hr
  by_cases hne : ts = []
  · subst hne
    rcases hrs with rfl | ⟨rs, rfl⟩
    · refine .inl ⟨by simpa using hds, (pre ++ ds).length, ?_⟩
      simpa using strtokR_none hd hds pre save
    · simp at hus
  · refine .inr ?_
    rcases hrs with rfl | ⟨rs, rfl⟩
    · refine ⟨(pre ++ ds).length, pre ++ ds ++ ts, ts, [], ?_, ?_, hne, hts, ds, hds,
        .inl ⟨by simp, rfl⟩⟩
      · have := strtokR_some hd hds pre [0] save hne hts ht0 (.inl rfl)
        simpa using this
      · have := cstr_append (pre ++ ds) [] ht0
        simpa using this
    · refine ⟨(pre ++ ds).length, pre ++ ds ++ ts ++ [0], ts, rs, ?_, ?_, hne, hts, ds, hds,
        .inr rfl⟩
      · have := strtokR_some hd hds pre (d :: (rs ++ [0])) save hne hts ht0 (.inr rfl)
        simpa [hd, Nat.add_assoc] using this
      · have := cstr_append (pre ++ ds) (rs ++ [0]) ht0
        simpa using this

end SudoOS
