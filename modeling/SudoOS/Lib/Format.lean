import Mathlib.Tactic

/-!
# Format strings

A formatter walks a string up to its terminator. It prints a character as it is, and at a mark it
hands what follows to a conversion, which may take arguments and says what it prints and how many
characters it has read. A text is the spelling of pieces, each a character or a directive, and what
the formatter prints is put together from them (`run_spell`). The length of a directive is known
from its first character, so every text is a spelling, except that the last directive may be cut
(`exists_spelling`); a formatter reads past the end of a text exactly there (`run_formats`).
-/

namespace Format

variable {α σ : Type*}

/-- The memory `n` places on. -/
def ahead (fmt : ℕ → α) (n : ℕ) : ℕ → α := fun i => fmt (n + i)

/-- The memory with `l` in front. -/
def prepend (l : List α) (fmt : ℕ → α) : ℕ → α := fun i => (l[i]?).getD (fmt (i - l.length))

@[simp] theorem ahead_zero (fmt : ℕ → α) : ahead fmt 0 = fmt := by
  funext i
  simp [ahead]

@[simp] theorem prepend_nil (fmt : ℕ → α) : prepend [] fmt = fmt := by
  funext i
  simp [prepend]

@[simp] theorem prepend_cons_zero (c : α) (l : List α) (fmt : ℕ → α) :
    prepend (c :: l) fmt 0 = c := by
  simp [prepend]

@[simp] theorem ahead_prepend (l : List α) (fmt : ℕ → α) :
    ahead (prepend l fmt) l.length = fmt := by
  funext i
  simp [ahead, prepend]

@[simp] theorem ahead_prepend_cons (c : α) (l : List α) (fmt : ℕ → α) (n : ℕ) :
    ahead (prepend (c :: l) fmt) (n + 1) = ahead (prepend l fmt) n := by
  funext i
  simp [ahead, prepend, show n + 1 + i = n + i + 1 by omega]

theorem prepend_append (l l' : List α) (fmt : ℕ → α) :
    prepend (l ++ l') fmt = prepend l (prepend l' fmt) := by
  funext i
  by_cases hi : i < l.length
  · simp [prepend, List.getElem?_append_left hi, hi]
  · have hsub : i - (l.length + l'.length) = i - l.length - l'.length := by omega
    simp [prepend, List.getElem?_append_right (not_lt.mp hi),
      List.getElem?_eq_none (not_lt.mp hi), hsub]

/-! ## The formatter -/

variable [DecidableEq α] (nul mark : α)

/-- What a conversion prints of the string from behind the mark on, how many characters it has read,
and the arguments it leaves. -/
abbrev Conversion (α σ : Type*) := (ℕ → α) → σ → Option (List α × ℕ × σ)

/-- The loop over the string, with the arguments; `none` if it does not end. -/
def run (conv : Conversion α σ) : ℕ → (ℕ → α) → σ → Option (List α)
  | 0, _, _ => none
  | fuel + 1, fmt, args =>
    if fmt 0 = nul then some []
    else if fmt 0 = mark then
      (conv (ahead fmt 1) args).bind fun r =>
        (run conv fuel (ahead fmt (1 + r.2.1)) r.2.2).map (r.1 ++ ·)
    else (run conv fuel (ahead fmt 1) args).map (fmt 0 :: ·)

inductive Piece (α : Type*)
  | char (c : α)
  | directive (d : List α)
  deriving Repr, DecidableEq

/-- The text of a piece. -/
def Piece.spell : Piece α → List α
  | .char c => [c]
  | .directive d => mark :: d

def spell (ps : List (Piece α)) : List α := ps.flatMap (Piece.spell mark)

/-- A character that stands for itself, or a directive as long as its first character says. -/
def Piece.Ok (width : α → ℕ) : Piece α → Prop
  | .char c => c ≠ nul ∧ c ≠ mark
  | .directive d => nul ∉ d ∧ ∃ c d', d = c :: d' ∧ d.length = width c

/-- What is printed at pieces when `D d args out args'` says what a directive prints of which
arguments and which it leaves. -/
inductive Prints (D : List α → σ → List α → σ → Prop) : List (Piece α) → σ → List α → σ → Prop
  | nil (args : σ) : Prints D [] args [] args
  | char (c : α) {ps : List (Piece α)} {args args' : σ} {out : List α} :
      Prints D ps args out args' → Prints D (.char c :: ps) args (c :: out) args'
  | directive {d : List α} {ps : List (Piece α)} {args args' args'' : σ} {out out' : List α} :
      D d args out args' → Prints D ps args' out' args'' →
      Prints D (.directive d :: ps) args (out ++ out') args''

/-- At a directive the conversion does what `D` says, whatever stands behind, and reads no more. -/
def Meets (width : α → ℕ) (conv : Conversion α σ) (D : List α → σ → List α → σ → Prop) : Prop :=
  ∀ (d : List α) (fmt : ℕ → α) (args : σ) (r : List α × ℕ × σ),
    Piece.Ok nul mark width (.directive d) →
    (conv (prepend d fmt) args = some r ↔ D d args r.1 r.2.2 ∧ r.2.1 = d.length)

variable {nul mark} {conv : Conversion α σ} {width : α → ℕ} {D : List α → σ → List α → σ → Prop}

theorem run_char {c : α} (h0 : c ≠ nul) (hm : c ≠ mark) (fuel : ℕ) (fmt : ℕ → α) (args : σ) :
    run nul mark conv (fuel + 1) (prepend [c] fmt) args
      = (run nul mark conv fuel fmt args).map (c :: ·) := by
  simp [run, h0, hm]

theorem run_directive (hne : mark ≠ nul) (hD : Meets nul mark width conv D) {d : List α}
    (hd : Piece.Ok nul mark width (.directive d)) (fuel : ℕ) (fmt : ℕ → α) (args : σ)
    (text : List α) :
    run nul mark conv (fuel + 1) (prepend (mark :: d) fmt) args = some text
      ↔ ∃ out args' rest, D d args out args' ∧ run nul mark conv fuel fmt args' = some rest
          ∧ text = out ++ rest := by
  have hrest : ahead (prepend (mark :: d) fmt) (1 + d.length) = fmt := by
    rw [Nat.add_comm, ahead_prepend_cons, ahead_prepend]
  rw [run]
  simp only [prepend_cons_zero, hne, if_false, if_true, ahead_prepend_cons, ahead_zero,
    Option.bind_eq_some_iff, Option.map_eq_some_iff]
  constructor
  · rintro ⟨⟨out, n, args'⟩, hr, rest, hrun, rfl⟩
    obtain ⟨hout, rfl⟩ := (hD d fmt args _ hd).mp hr
    rw [hrest] at hrun
    exact ⟨out, args', rest, hout, hrun, rfl⟩
  · rintro ⟨out, args', rest, hout, hrun, rfl⟩
    refine ⟨(out, d.length, args'), (hD d fmt args _ hd).mpr ⟨hout, rfl⟩, rest, ?_, rfl⟩
    rwa [hrest]

/-- A text in front prints what its pieces do, and the rest is formatted with the arguments they
leave. -/
theorem run_spell (hne : mark ≠ nul) (hD : Meets nul mark width conv D) :
    ∀ {ps : List (Piece α)}, (∀ p ∈ ps, p.Ok nul mark width) →
      ∀ (fuel : ℕ) (fmt : ℕ → α) (args : σ) (text : List α),
        run nul mark conv (ps.length + fuel) (prepend (spell mark ps) fmt) args = some text
          ↔ ∃ out args' rest, Prints D ps args out args'
              ∧ run nul mark conv fuel fmt args' = some rest ∧ text = out ++ rest
  | [], _, fuel, fmt, args, text => by
    constructor
    · intro h
      exact ⟨[], args, text, .nil args, by simpa [spell] using h, rfl⟩
    · rintro ⟨_, _, rest, hout, hrun, rfl⟩
      cases hout
      simpa [spell] using hrun
  | .char c :: ps, hps, fuel, fmt, args, text => by
    obtain ⟨h0, hm⟩ := hps _ List.mem_cons_self
    have ih := run_spell hne hD (fun p hp => hps p (List.mem_cons_of_mem _ hp)) fuel fmt args
    change run nul mark conv _ (prepend ([c] ++ spell mark ps) fmt) args = _ ↔ _
    rw [List.length_cons, Nat.add_right_comm, prepend_append, run_char h0 hm,
      Option.map_eq_some_iff]
    constructor
    · rintro ⟨text', h, rfl⟩
      obtain ⟨out, args', rest, hout, hrun, rfl⟩ := (ih text').mp h
      exact ⟨c :: out, args', rest, .char c hout, hrun, rfl⟩
    · rintro ⟨_, args', rest, hout, hrun, rfl⟩
      cases hout with
      | char _ hout => exact ⟨_, (ih _).mpr ⟨_, args', rest, hout, hrun, rfl⟩, rfl⟩
  | .directive d :: ps, hps, fuel, fmt, args, text => by
    have ih := run_spell hne hD (fun p hp => hps p (List.mem_cons_of_mem _ hp)) fuel fmt
    change run nul mark conv _ (prepend ((mark :: d) ++ spell mark ps) fmt) args = _ ↔ _
    rw [List.length_cons, Nat.add_right_comm, prepend_append,
      run_directive hne hD (hps _ List.mem_cons_self)]
    constructor
    · rintro ⟨out, args', rest, hd, hrun, rfl⟩
      obtain ⟨out', args'', rest', hout, hrun', rfl⟩ := (ih args' rest).mp hrun
      exact ⟨out ++ out', args'', rest', .directive hd hout, hrun', (List.append_assoc ..).symm⟩
    · rintro ⟨_, args'', rest, hout, hrun, rfl⟩
      cases hout with
      | directive hd hout =>
        exact ⟨_, _, _, hd, (ih _ _).mpr ⟨_, args'', rest, hout, hrun, rfl⟩,
          List.append_assoc ..⟩

/-- A terminated text is printed whole, whatever stands behind it. -/
theorem run_text (hne : mark ≠ nul) (hD : Meets nul mark width conv D) {ps : List (Piece α)}
    (hps : ∀ p ∈ ps, p.Ok nul mark width) (fuel : ℕ) (behind : ℕ → α) (args : σ) (text : List α) :
    run nul mark conv (ps.length + (fuel + 1)) (prepend (spell mark ps ++ [nul]) behind) args
        = some text ↔ ∃ args', Prints D ps args text args' := by
  rw [prepend_append, run_spell hne hD hps]
  simp [run]

/-- A text as the spelling of pieces and, it may be, a last directive that is shorter than its first
character says. -/
def Spelled (nul mark : α) (width : α → ℕ) (text : List α) : Prop :=
  ∃ ps : List (Piece α), (∀ p ∈ ps, p.Ok nul mark width) ∧ (text = spell mark ps ∨
    ∃ cut, text = spell mark ps ++ mark :: cut ∧ ∀ c ∈ cut.head?, cut.length < width c)

omit [DecidableEq α] in
theorem Spelled.cons {p : Piece α} (hp : p.Ok nul mark width) {rest : List α}
    (h : Spelled nul mark width rest) : Spelled nul mark width (p.spell mark ++ rest) := by
  obtain ⟨ps, hps, h⟩ := h
  refine ⟨p :: ps, List.forall_mem_cons.mpr ⟨hp, hps⟩, ?_⟩
  obtain rfl | ⟨cut, rfl, hcut⟩ := h
  · exact .inl rfl
  · exact .inr ⟨cut, by simp [spell], hcut⟩

/-- Every text is spelled. -/
theorem exists_spelling (hw : ∀ c, 0 < width c) :
    ∀ (n : ℕ) (text : List α), text.length ≤ n → nul ∉ text → Spelled nul mark width text
  | _, [], _, _ => ⟨[], by simp, .inl rfl⟩
  | n + 1, c :: text, hn, h0 => by
    rw [List.length_cons] at hn
    rw [List.mem_cons, not_or] at h0
    by_cases hm : c = mark
    · obtain rfl : mark = c := hm.symm
      by_cases hcut : ∀ d ∈ text.head?, text.length < width d
      · exact ⟨[], by simp, .inr ⟨text, rfl, hcut⟩⟩
      -- the directive is whole
      push Not at hcut
      obtain ⟨d, hd, hlen⟩ := hcut
      obtain ⟨text', rfl⟩ : ∃ text', text = d :: text' := by
        cases text <;> simp_all
      obtain ⟨w, hwd⟩ := Nat.exists_eq_succ_of_ne_zero (hw d).ne'
      have hok : Piece.Ok nul mark width (.directive ((d :: text').take (width d))) := by
        refine ⟨fun h => h0.2 (List.mem_of_mem_take h), d, text'.take w, ?_, ?_⟩
        · rw [hwd, Nat.succ_eq_add_one, List.take_succ_cons]
        · rw [List.length_take]
          omega
      have hrest : Spelled nul mark width ((d :: text').drop (width d)) :=
        exists_spelling hw n _ (by rw [List.length_drop]; omega)
          fun h => h0.2 (List.mem_of_mem_drop h)
      have hsplit := hrest.cons hok
      rwa [Piece.spell, List.cons_append, List.take_append_drop] at hsplit
    · have hok : Piece.Ok nul mark width (.char c) := ⟨fun h => h0.1 h.symm, hm⟩
      exact (exists_spelling hw n text (by omega) h0.2).cons hok

/-- What a formatter prints of a text, which a terminator and any memory follow: at its pieces what
`D` says. At a last directive that is cut it prints what `short` says and goes on behind the
terminator. -/
def Formats (nul mark : α) (format : ℕ → (ℕ → α) → σ → Option (List α)) (width : α → ℕ)
    (D : List α → σ → List α → σ → Prop) (short : List α → List α) (text : List α) : Prop :=
  ∃ ps : List (Piece α), (∀ p ∈ ps, p.Ok nul mark width) ∧
    ((text = spell mark ps ∧ ∀ fuel behind args out,
        format (ps.length + (fuel + 1)) (prepend (text ++ [nul]) behind) args = some out
          ↔ ∃ args', Prints D ps args out args')
      ∨ ∃ cut, text = spell mark ps ++ mark :: cut ∧ (∀ c ∈ cut.head?, cut.length < width c) ∧
        ∀ fuel behind args out,
          format (ps.length + (fuel + 1)) (prepend (text ++ [nul]) behind) args = some out
            ↔ ∃ front args' rest, Prints D ps args front args'
                ∧ format fuel behind args' = some rest ∧ out = front ++ (short cut ++ rest))

theorem run_formats (hne : mark ≠ nul) (hw : ∀ c, 0 < width c) (hD : Meets nul mark width conv D)
    {short : List α → List α}
    (hcut : ∀ cut : List α, nul ∉ cut → (∀ c ∈ cut.head?, cut.length < width c) →
      ∀ (behind : ℕ → α) (args : σ),
        conv (prepend (cut ++ [nul]) behind) args = some (short cut, cut.length + 1, args))
    {text : List α} (h0 : nul ∉ text) :
    Formats nul mark (run nul mark conv) width D short text := by
  have hspelled : Spelled nul mark width text := exists_spelling hw _ text le_rfl h0
  obtain ⟨ps, hps, rfl | ⟨cut, rfl, hlt⟩⟩ := hspelled
  · exact ⟨ps, hps, .inl ⟨rfl, run_text hne hD hps⟩⟩
  refine ⟨ps, hps, .inr ⟨cut, rfl, hlt, fun fuel behind args out => ?_⟩⟩
  have hcut0 : nul ∉ cut := fun h => h0 (List.mem_append_right _ (List.mem_cons_of_mem _ h))
  have hlast : ∀ args, run nul mark conv (fuel + 1) (prepend (mark :: (cut ++ [nul])) behind) args
      = (run nul mark conv fuel behind args).map (short cut ++ ·) := by
    intro args
    have hrest := ahead_prepend (mark :: (cut ++ [nul])) behind
    rw [List.length_cons, List.length_append, List.length_singleton, Nat.add_comm] at hrest
    rw [run]
    simp only [prepend_cons_zero, hne, if_false, if_true, ahead_prepend_cons, ahead_zero,
      hcut cut hcut0 hlt, Option.bind_some, hrest]
  rw [List.append_assoc, prepend_append, run_spell hne hD hps]
  simp only [List.cons_append, hlast, Option.map_eq_some_iff]
  constructor
  · rintro ⟨front, args', _, hout, ⟨rest, hrun, rfl⟩, rfl⟩
    exact ⟨front, args', rest, hout, hrun, rfl⟩
  · rintro ⟨front, args', rest, hout, hrun, rfl⟩
    exact ⟨front, args', _, hout, ⟨rest, hrun, rfl⟩, rfl⟩

end Format
