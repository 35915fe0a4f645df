import SudoOS.Lib.Wire

/-!
# Stacks of words in a memory of bytes

A processor with registers `R` and a stack pointer. `Words mem a ws` reads the memory from `a` on as
a list of words, and `Top` reads it so from the stack pointer on: a push puts a word in front of the
list (`Top.push`) and a pop takes the first one off (`Top.pop`), so registers pushed in one order
come back when they are popped in the other (`assign_map`). What is written leaves every range apart
from it alone (`save_same`, `pushAll_same`).
-/

namespace Stack

abbrev Word := BitVec 64

abbrev Mem := ℕ → UInt8

/-! ## Words in memory -/

def load (mem : Mem) (a : ℕ) : Word := BitVec.ofNat 64 (Wire.readLe mem a 8)

def save (mem : Mem) (a : ℕ) (v : Word) : Mem := Wire.store mem a (Wire.leBytes 8 v.toNat)

/-- The assignment of a structure of `n` bytes. -/
def copy (mem : Mem) (dst src n : ℕ) : Mem :=
  Wire.store mem dst ((List.range n).map fun i => mem (src + i))

/-- The ranges, each a first address and a size, have no byte in common. -/
def Separate (r s : ℕ × ℕ) : Prop := r.1 + r.2 ≤ s.1 ∨ s.1 + s.2 ≤ r.1

instance (r s : ℕ × ℕ) : Decidable (Separate r s) := inferInstanceAs (Decidable (_ ∨ _))

/-- The memories agree on a range. -/
def Same (mem mem' : Mem) (r : ℕ × ℕ) : Prop := ∀ i, r.1 ≤ i → i < r.1 + r.2 → mem' i = mem i

/-- The words `ws` stand one after the other from `a` on. -/
def Words (mem : Mem) : ℕ → List Word → Prop
  | _, [] => True
  | a, w :: ws => load mem a = w ∧ Words mem (a + 8) ws

variable {mem mem' mem'' : Mem} {a b : ℕ} {v : Word} {r s : ℕ × ℕ}

theorem Separate.symm (h : Separate r s) : Separate s r := Or.symm h

/-- Parts of ranges that are apart. -/
theorem Separate.mono {r' s' : ℕ × ℕ} (h : Separate r s) (hr : r.1 ≤ r'.1)
    (hr' : r'.1 + r'.2 ≤ r.1 + r.2) (hs : s.1 ≤ s'.1) (hs' : s'.1 + s'.2 ≤ s.1 + s.2) :
    Separate r' s' := by
  unfold Separate at h ⊢
  omega

theorem Same.trans (h : Same mem mem' r) (h' : Same mem' mem'' r) : Same mem mem'' r :=
  fun i hi hi' => (h' i hi hi').trans (h i hi hi')

theorem Same.mono (h : Same mem mem' r) (hs : r.1 ≤ s.1) (hs' : s.1 + s.2 ≤ r.1 + r.2) :
    Same mem mem' s := fun i hi hi' => h i (hs.trans hi) (by omega)

theorem save_same (mem : Mem) (v : Word) (h : Separate (a, 8) r) : Same mem (save mem a v) r := by
  intro i hi hi'
  refine Wire.store_outside ?_
  rw [Wire.leBytes_length]
  unfold Separate at h
  omega

theorem copy_same (mem : Mem) {dst src n : ℕ} (h : Separate (dst, n) r) :
    Same mem (copy mem dst src n) r := by
  intro i hi hi'
  refine Wire.store_outside ?_
  rw [List.length_map, List.length_range]
  unfold Separate at h
  omega

theorem load_save (mem : Mem) (a : ℕ) (v : Word) : load (save mem a v) a = v := by
  have hat : Wire.At (save mem a v) a (Wire.leBytes 8 v.toNat) := Wire.at_store _ _ _
  unfold load
  rw [Wire.readLe_of_at hat]
  apply BitVec.eq_of_toNat_eq
  have := v.isLt
  rw [BitVec.toNat_ofNat]
  omega

theorem load_of_same (h : Same mem mem' (a, 8)) : load mem' a = load mem a := by
  unfold load
  rw [Wire.readLe_congr fun i hi => h _ (Nat.le_add_right _ _) (by dsimp only; omega)]

/-- A word apart from the one written. -/
theorem load_save_of_separate (h : Separate (a, 8) (b, 8)) : load (save mem a v) b = load mem b :=
  load_of_same (save_same mem v h)

/-- Nothing is written outside the ranges. -/
def Wrote (mem mem' : Mem) (ws : List (ℕ × ℕ)) : Prop :=
  ∀ r, (∀ w ∈ ws, Separate w r) → Same mem mem' r

theorem Wrote.refl (mem : Mem) (ws : List (ℕ × ℕ)) : Wrote mem mem ws := fun _ _ _ _ _ => rfl

theorem Wrote.trans {ws vs : List (ℕ × ℕ)} (h : Wrote mem mem' ws) (h' : Wrote mem' mem'' vs) :
    Wrote mem mem'' (ws ++ vs) := fun r hr =>
  (h r fun w hw => hr w (List.mem_append_left _ hw)).trans
    (h' r fun w hw => hr w (List.mem_append_right _ hw))

/-- The same in fewer or larger ranges. -/
theorem Wrote.mono {ws vs : List (ℕ × ℕ)} (h : Wrote mem mem' ws)
    (hv : ∀ w ∈ ws, ∃ v ∈ vs, v.1 ≤ w.1 ∧ w.1 + w.2 ≤ v.1 + v.2) : Wrote mem mem' vs := by
  intro r hr
  refine h r fun w hw => ?_
  obtain ⟨v, hv, hle, hle'⟩ := hv w hw
  exact (hr v hv).mono hle hle' le_rfl le_rfl

theorem wrote_save (mem : Mem) (a : ℕ) (v : Word) : Wrote mem (save mem a v) [(a, 8)] :=
  fun _ hr => save_same mem v (hr _ (List.mem_singleton_self _))

theorem wrote_store (mem : Mem) (a : ℕ) (bytes : List UInt8) :
    Wrote mem (Wire.store mem a bytes) [(a, bytes.length)] := by
  intro r hr i hi hi'
  refine Wire.store_outside ?_
  have := hr _ (List.mem_singleton_self _)
  unfold Separate at this
  omega

theorem wrote_copy (mem : Mem) (dst src n : ℕ) : Wrote mem (copy mem dst src n) [(dst, n)] :=
  fun _ hr => copy_same mem (hr _ (List.mem_singleton_self _))

/-- One more word within the ranges. -/
theorem Wrote.save {ws : List (ℕ × ℕ)} (h : Wrote mem mem' ws)
    (hw : ∃ w ∈ ws, w.1 ≤ a ∧ a + 8 ≤ w.1 + w.2) (v : Word) : Wrote mem (save mem' a v) ws := by
  obtain ⟨w, hw, hle, hle'⟩ := hw
  refine (h.trans (wrote_save mem' a v)).mono fun w' hw' => ?_
  rw [List.mem_append, List.mem_singleton] at hw'
  rcases hw' with hw' | rfl
  · exact ⟨w', hw', le_rfl, le_rfl⟩
  · exact ⟨w, hw, hle, hle'⟩

/-- A further write into one of the ranges. -/
theorem Wrote.within {ws : List (ℕ × ℕ)} (h : Wrote mem mem' ws) (h' : Wrote mem' mem'' [r])
    (hr : r ∈ ws) : Wrote mem mem'' ws := by
  refine (h.trans h').mono fun w hw => ⟨w, ?_, le_rfl, le_rfl⟩
  rw [List.mem_append, List.mem_singleton] at hw
  exact hw.elim id (· ▸ hr)

/-! ## Lists of words -/

theorem Words.of_shift : ∀ {ws : List Word} {a b : ℕ}, Words mem a ws →
    (∀ i < 8 * ws.length, mem' (b + i) = mem (a + i)) → Words mem' b ws
  | [], _, _, _, _ => trivial
  | w :: ws, a, b, ⟨hw, hws⟩, h => by
    rw [List.length_cons] at h
    refine ⟨?_, hws.of_shift fun i hi => ?_⟩
    · rw [← hw]
      unfold load
      rw [Wire.readLe_shift fun i hi => h i (by omega)]
    · have := h (8 + i) (by omega)
      rwa [← Nat.add_assoc, ← Nat.add_assoc] at this

theorem Words.of_same {ws : List Word} (h : Words mem a ws)
    (hs : Same mem mem' (a, 8 * ws.length)) : Words mem' a ws :=
  h.of_shift fun i hi => hs _ (Nat.le_add_right _ _) (by dsimp only; omega)

/-- A structure assigned word by word. -/
theorem Words.copy {ws : List Word} (h : Words mem a ws) (dst : ℕ) :
    Words (copy mem dst a (8 * ws.length)) dst ws := by
  refine h.of_shift fun i hi => ?_
  have hat := Wire.at_store mem dst ((List.range (8 * ws.length)).map fun i => mem (a + i))
  have := hat i (by simpa using hi)
  rw [List.getD_eq_getElem _ _ (by simpa using hi)] at this
  simpa [Stack.copy] using this

theorem Words.load : ∀ {ws : List Word} {a i : ℕ} (_ : Words mem a ws) (hi : i < ws.length),
    load mem (a + 8 * i) = ws[i]
  | w :: ws, a, 0, ⟨hw, _⟩, _ => hw
  | w :: ws, a, i + 1, ⟨_, hws⟩, hi => by
    have := hws.load (i := i) (by simpa using hi)
    rw [show a + 8 * (i + 1) = a + 8 + 8 * i by ring, this, List.getElem_cons_succ]

/-- One word of the list overwritten. -/
theorem Words.save : ∀ {ws : List Word} {a i : ℕ} (_ : Words mem a ws) (v : Word),
    i < ws.length → Words (save mem (a + 8 * i) v) a (ws.set i v)
  | w :: ws, a, 0, ⟨_, hws⟩, v, _ =>
    ⟨load_save .., hws.of_same (save_same _ _ (.inl (by dsimp only; omega)))⟩
  | w :: ws, a, i + 1, ⟨hw, hws⟩, v, hi => by
    refine ⟨(load_save_of_separate (.inr (by dsimp only; omega))).trans hw, ?_⟩
    have := hws.save (i := i) v (by simpa using hi)
    rwa [show a + 8 + 8 * i = a + 8 * (i + 1) by ring] at this

theorem Words.append : ∀ {ws vs : List Word} {a : ℕ}, Words mem a ws →
    Words mem (a + 8 * ws.length) vs → Words mem a (ws ++ vs)
  | [], _, _, _, h => h
  | w :: ws, vs, a, ⟨hw, hws⟩, h => by
    refine ⟨hw, hws.append ?_⟩
    rwa [List.length_cons, show a + 8 * (ws.length + 1) = a + 8 + 8 * ws.length by ring] at h

/-- A range of zero bytes. -/
theorem words_zero : ∀ {n a : ℕ}, (∀ i < 8 * n, mem (a + i) = 0) →
    Words mem a (List.replicate n 0)
  | 0, _, _ => trivial
  | n + 1, a, h => by
    have hload : load mem a = 0 := by
      rw [load, Wire.readLe_zero fun i hi => h i (by omega)]
      rfl
    refine ⟨hload, words_zero fun i hi => ?_⟩
    rw [Nat.add_assoc]
    exact h _ (by omega)

/-- Whatever stands there. -/
theorem exists_holds (mem : Mem) : ∀ (n a : ℕ), ∃ ws : List Word, ws.length = n ∧ Words mem a ws
  | 0, _ => ⟨[], rfl, trivial⟩
  | n + 1, a => by
    obtain ⟨ws, hn, hws⟩ := exists_holds mem n (a + 8)
    exact ⟨Stack.load mem a :: ws, by rw [List.length_cons, hn], rfl, hws⟩

/-! ## The processor's stack -/

structure Processor (R : Type*) where
  reg : R → Word
  sp : Word
  mem : Mem

namespace Processor

variable {R : Type*} [DecidableEq R]

def push (m : Processor R) (v : Word) : Processor R :=
  { m with sp := m.sp - 8, mem := save m.mem (m.sp - 8).toNat v }

def pop (m : Processor R) (r : R) : Processor R :=
  { m with reg := Function.update m.reg r (load m.mem m.sp.toNat), sp := m.sp + 8 }

def pushAll (m : Processor R) (vs : List Word) : Processor R := vs.foldl push m

def popAll (m : Processor R) (rs : List R) : Processor R := rs.foldl pop m

/-- The topmost words of the stack. -/
structure Top (m : Processor R) (ws : List Word) : Prop where
  fits : m.sp.toNat + 8 * ws.length ≤ 2 ^ 64
  holds : Words m.mem m.sp.toNat ws

omit [DecidableEq R] in
theorem Top.push {m : Processor R} {ws : List Word} (h : m.Top ws) (v : Word)
    (hsp : 8 ≤ m.sp.toNat) : (m.push v).Top (v :: ws) := by
  have hlt := m.sp.isLt
  have hsub : (m.sp - 8).toNat = m.sp.toNat - 8 := by bv_omega
  have hnext : (m.sp - 8).toNat + 8 = m.sp.toNat := by omega
  refine ⟨?_, load_save .., ?_⟩
  · have := h.fits
    rw [List.length_cons]
    show (m.sp - 8).toNat + _ ≤ _
    omega
  · show Words (Stack.save m.mem (m.sp - 8).toNat v) ((m.sp - 8).toNat + 8) ws
    rw [hnext]
    exact h.holds.of_same (save_same _ _ (.inl (by dsimp only; omega)))

theorem Top.pop {m : Processor R} {w : Word} {ws : List Word} (h : m.Top (w :: ws)) (r : R) :
    (m.pop r).Top ws ∧ (m.pop r).reg = Function.update m.reg r w := by
  have hfits := h.fits
  rw [List.length_cons] at hfits
  refine ⟨⟨?_, ?_⟩, ?_⟩
  · show (m.sp + 8).toNat + _ ≤ _
    bv_omega
  · rcases ws with _ | ⟨w', ws⟩
    · trivial
    · have hnext : (m.sp + 8).toNat = m.sp.toNat + 8 := by
        rw [List.length_cons] at hfits
        bv_omega
      show Words m.mem (m.sp + 8).toNat _
      rw [hnext]
      exact h.holds.2
  · unfold Processor.pop
    rw [h.holds.1]

omit [DecidableEq R] in
@[simp] theorem pushAll_reg : ∀ (vs : List Word) (m : Processor R), (m.pushAll vs).reg = m.reg
  | [], _ => rfl
  | v :: vs, m => pushAll_reg vs (m.push v)

omit [DecidableEq R] in
/-- Words pushed one after the other: the last one is on top. -/
theorem Top.pushAll : ∀ (vs : List Word) {m : Processor R} {ws : List Word}, m.Top ws →
    8 * vs.length ≤ m.sp.toNat → (m.pushAll vs).Top (vs.reverse ++ ws)
  | [], _, _, h, _ => h
  | v :: vs, m, ws, h, hsp => by
    rw [List.length_cons] at hsp
    have hrest : 8 * vs.length ≤ (m.push v).sp.toNat := by
      show _ ≤ (m.sp - 8).toNat
      bv_omega
    rw [List.reverse_cons, List.append_assoc]
    exact Top.pushAll vs (h.push v (by omega)) hrest

omit [DecidableEq R] in
theorem pushAll_sp : ∀ (vs : List Word) (m : Processor R),
    (m.pushAll vs).sp = m.sp - BitVec.ofNat 64 (8 * vs.length)
  | [], m => (BitVec.sub_zero _).symm
  | v :: vs, m => by
    refine (pushAll_sp vs (m.push v)).trans ?_
    show m.sp - 8 - _ = _
    rw [List.length_cons, Nat.mul_succ, Nat.add_comm, BitVec.ofNat_add]
    bv_omega

omit [DecidableEq R] in
/-- Pushes write below the stack pointer only. -/
theorem pushAll_same : ∀ (vs : List Word) (m : Processor R), 8 * vs.length ≤ m.sp.toNat →
    Separate (m.sp.toNat - 8 * vs.length, 8 * vs.length) r → Same m.mem (m.pushAll vs).mem r
  | [], _, _, _ => fun _ _ _ => rfl
  | v :: vs, m, hsp, h => by
    rw [List.length_cons] at hsp h
    have hsub : (m.sp - 8).toNat = m.sp.toNat - 8 := by bv_omega
    have hnext : (m.push v).sp.toNat = m.sp.toNat - 8 := hsub
    have hrest := pushAll_same vs (m.push v) (by omega)
      (h.mono (by dsimp only; omega) (by dsimp only; omega) le_rfl le_rfl)
    refine Same.trans (save_same m.mem _ ?_) hrest
    rw [hsub]
    exact h.mono (by dsimp only; omega) (by dsimp only; omega) le_rfl le_rfl

omit [DecidableEq R] in
theorem wrote_pushAll (vs : List Word) (m : Processor R) (hsp : 8 * vs.length ≤ m.sp.toNat) :
    Wrote m.mem (m.pushAll vs).mem [(m.sp.toNat - 8 * vs.length, 8 * vs.length)] :=
  fun _ hr => pushAll_same vs m hsp (hr _ (List.mem_singleton_self _))

/-- The registers after the words were popped into them. -/
def assign : List R → List Word → (R → Word) → R → Word
  | r :: rs, w :: ws, g => assign rs ws (Function.update g r w)
  | _, _, g => g

theorem Top.popAll (rs : List R) {ws rest : List Word} {m : Processor R} (h : m.Top (ws ++ rest))
    (hlen : rs.length = ws.length) : (m.popAll rs).Top rest ∧ (m.popAll rs).mem = m.mem
      ∧ (m.popAll rs).sp = m.sp + BitVec.ofNat 64 (8 * rs.length)
      ∧ (m.popAll rs).reg = assign rs ws m.reg := by
  induction rs generalizing m ws with
  | nil =>
    rw [List.length_nil, eq_comm, List.length_eq_zero_iff] at hlen
    subst hlen
    exact ⟨h, rfl, (BitVec.add_zero _).symm, rfl⟩
  | cons r rs ih =>
    rcases ws with _ | ⟨w, ws⟩
    · cases hlen
    · obtain ⟨htop, hreg⟩ := h.pop r
      obtain ⟨h1, h2, h3, h4⟩ := ih htop (Nat.succ.inj hlen)
      refine ⟨h1, h2, h3.trans ?_, h4.trans (by rw [hreg]; rfl)⟩
      show m.sp + 8 + _ = _
      rw [List.length_cons, Nat.mul_succ, Nat.add_comm (8 * _), BitVec.ofNat_add]
      exact BitVec.add_assoc ..

/-- Registers that are popped from their own values. -/
theorem assign_map (f : R → Word) : ∀ (rs : List R) (g : R → Word) (x : R),
    assign rs (rs.map f) g x = if x ∈ rs then f x else g x
  | [], g, x => by simp [assign]
  | r :: rs, g, x => by
    rw [List.map_cons, assign, assign_map f rs]
    by_cases hx : x ∈ rs
    · rw [if_pos hx, if_pos (List.mem_cons_of_mem _ hx)]
    · rw [if_neg hx]
      by_cases hr : x = r
      · rw [hr, Function.update_self, if_pos List.mem_cons_self]
      · rw [Function.update_of_ne hr, if_neg (by simp [hr, hx])]

end Processor

end Stack
