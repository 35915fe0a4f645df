import Mathlib.Data.List.GetD
import SudoOS.Lib.Numeral
import SudoOS.Numbers

/-!
# Printed numbers

The text of a number is its numeral in the characters of the digits. `itoa_uint64` writes it for
every value and base, `kprint_hex` sends the same characters (`itoaUint64_exact`). The two signed
conversions fail on the least `int`, which has no negation, and the user library's `%x` on every
negative number, which it extends to 64 bits (`itoa_iff`).
-/

namespace SudoOS

/-! ## Texts in memory -/

/-- The memory with a text put at `p`. -/
def putText : Bytes → ℕ → List UInt8 → Bytes
  | mem, _, [] => mem
  | mem, p, c :: text => putText (Function.update mem p c) (p + 1) text

theorem putText_append : ∀ (text rest : List UInt8) (mem : Bytes) (p : ℕ),
    putText mem p (text ++ rest) = putText (putText mem p text) (p + text.length) rest
  | [], rest, mem, p => rfl
  | c :: text, rest, mem, p => by
    rw [List.cons_append, putText, putText_append text rest, List.length_cons, putText,
      Nat.add_right_comm, Nat.add_assoc]

theorem putText_apply : ∀ (text : List UInt8) (mem : Bytes) (p x : ℕ),
    putText mem p text x = if p ≤ x ∧ x < p + text.length then text.getD (x - p) 0 else mem x
  | [], mem, p, x => by
    rw [if_neg (by simp)]
    rfl
  | c :: text, mem, p, x => by
    rw [putText, putText_apply text, Function.update_apply, List.length_cons]
    by_cases hx : x = p
    · rw [if_neg (by omega), if_pos hx, if_pos (by omega), hx, Nat.sub_self, List.getD_cons_zero]
    · rw [if_neg hx]
      by_cases hin : p + 1 ≤ x ∧ x < p + 1 + text.length
      · rw [if_pos hin, if_pos (by omega), show x - p = x - (p + 1) + 1 by omega,
          List.getD_cons_succ]
      · rw [if_neg hin, if_neg (by omega)]

/-- A text can be read back. -/
theorem map_putText (mem : Bytes) (p : ℕ) (text : List UInt8) :
    (List.range text.length).map (fun i => putText mem p text (p + i)) = text := by
  apply List.ext_getElem
  · simp
  intro i hi hi'
  rw [List.getElem_map, List.getElem_range, putText_apply, if_pos (by omega),
    Nat.add_sub_cancel_left, List.getD_eq_getElem _ _ hi']

/-- Different texts with their terminators leave different memories. -/
theorem putText_inj {mem : Bytes} {p : ℕ} {text text' : List UInt8} (h : 0 ∉ text)
    (h' : 0 ∉ text') (heq : putText mem p (text ++ [0]) = putText mem p (text' ++ [0])) :
    text = text' := by
  have key : ∀ {s t : List UInt8}, 0 ∉ t → s.length ≤ t.length →
      putText mem p (s ++ [0]) = putText mem p (t ++ [0]) → s.length = t.length := by
    intro s t ht hle heq
    by_contra hne
    have hlt : s.length < t.length := by omega
    have hend : (s ++ [0]).getD s.length 0 = 0 := by simp
    have hgo : (t ++ [0]).getD s.length 0 = t[s.length] := by
      rw [List.getD_append _ _ _ _ hlt, List.getD_eq_getElem _ _ hlt]
    have hx := congrFun heq (p + s.length)
    rw [putText_apply, putText_apply, if_pos (by simp), if_pos (by simp; omega),
      Nat.add_sub_cancel_left, hend, hgo] at hx
    exact ht (hx ▸ List.getElem_mem _)
  have hlen : text.length = text'.length := by
    rcases le_total text.length text'.length with hle | hle
    · exact key h' hle heq
    · exact (key h hle heq.symm).symm
  have hlen0 : (text ++ [0]).length = (text' ++ [0]).length := by simp [hlen]
  have hread := map_putText mem p (text ++ [0])
  rw [heq, hlen0, map_putText] at hread
  exact (List.append_cancel_right hread).symm

/-! ## The kernel -/

/-- The text of a number. -/
def numText (digit : ℕ → UInt8) (b v : ℕ) : List UInt8 := (Numeral.numeral b v).map digit

/-- The kernel's character of a digit. -/
def upperDigit (d : ℕ) : UInt8 := digitTable.getD d 0

section Kernel

variable {b : ℕ}

theorem digitAt_natCast {d : ℕ} (h : d < 16) : digitAt d = some (upperDigit d) := by
  revert d
  decide

theorem digitLoop_eq (hb : 1 < b) (hb' : b ≤ 16) : ∀ (room v : ℕ) (temp : Bytes) (i : ℕ),
    (Nat.digits b v).length ≤ room → digitLoop b room v temp i
      = some (putText temp i ((Nat.digits b v).map upperDigit), i + (Nat.digits b v).length)
  | 0, v, temp, i, hroom => by
    have hv : v = 0 := Nat.digits_eq_nil_iff_eq_zero.mp
      (List.length_eq_zero_iff.mp (Nat.le_zero.mp hroom))
    simp [hv, digitLoop, putText]
  | room + 1, v, temp, i, hroom => by
    by_cases hv : v = 0
    · simp [hv, digitLoop, putText]
    · have hdigits := Nat.digits_eq_cons_digits_div hb hv
      have hrem : v % b < 16 := (Nat.mod_lt v (by omega)).trans_le hb'
      rw [hdigits, List.length_cons] at hroom ⊢
      rw [digitLoop, if_neg (by exact_mod_cast hv), ← Int.ofNat_tmod, digitAt_natCast hrem,
        Option.bind_some, ← Int.ofNat_tdiv, digitLoop_eq hb hb' room _ _ _ (by omega),
        List.map_cons, putText]
      congr 2
      omega

theorem copyBack_eq (temp : Bytes) : ∀ (i : ℕ) (mem : Bytes) (j : ℕ),
    copyBack temp i mem j = putText mem j ((List.range i).reverse.map temp ++ [0])
  | 0, mem, j => rfl
  | i + 1, mem, j => by
    rw [copyBack, copyBack_eq temp i, List.range_succ, List.reverse_append]
    rfl

theorem copyBack_putText (temp mem : Bytes) (j : ℕ) (text : List UInt8) :
    copyBack (putText temp 0 text) text.length mem j = putText mem j (text.reverse ++ [0]) := by
  have hread := map_putText temp 0 text
  simp only [Nat.zero_add] at hread
  rw [copyBack_eq, List.map_reverse, hread]

theorem numText_of_pos (digit : ℕ → UInt8) {v : ℕ} (hv : v ≠ 0) :
    numText digit b v = ((Nat.digits b v).map digit).reverse := by
  rw [numText, Numeral.numeral, Numeral.digits, if_neg hv, List.map_reverse]

/-- A number that is not negative, or is printed as such. -/
theorem itoaWith_natCast {size : ℕ} (neg : ℤ → ℤ) (hb : 1 < b) (hb' : b ≤ 16) {v : ℕ}
    (hsize : (Nat.digits b v).length ≤ size) (mem : Bytes) (buffer : ℕ) (temp : Bytes) :
    itoaWith size neg v mem buffer b temp
      = some (putText mem buffer (numText upperDigit b v ++ [0])) := by
  unfold itoaWith
  rw [if_neg (by omega)]
  simp only [show ¬ ((v : ℤ) < 0 ∧ (b : ℤ) = 10) by omega, if_false]
  by_cases hv : v = 0
  · subst hv
    rfl
  · rw [if_neg (by exact_mod_cast hv), digitLoop_eq hb hb' size v temp 0 hsize, Option.bind_some,
      Nat.zero_add]
    dsimp only
    rw [← List.length_map (f := upperDigit), copyBack_putText, numText_of_pos upperDigit hv]

/-- A negative number in decimal. -/
theorem itoaWith_neg {size : ℕ} {neg : ℤ → ℤ} {value : ℤ} {v : ℕ} (hneg : value < 0)
    (hv : neg value = v) (h0 : v ≠ 0) (hsize : (Nat.digits 10 v).length < size) (mem : Bytes)
    (buffer : ℕ) (temp : Bytes) : itoaWith size neg value mem buffer 10 temp
      = some (putText mem buffer (45 :: numText upperDigit 10 v ++ [0])) := by
  unfold itoaWith
  rw [if_neg (by omega)]
  simp only [hneg, and_self, if_true, hv]
  rw [if_neg (by exact_mod_cast h0)]
  have hloop := digitLoop_eq (b := 10) (by omega) (by omega) size v temp 0 hsize.le
  rw [Nat.cast_ofNat, Nat.zero_add] at hloop
  rw [hloop, Option.bind_some]
  dsimp only
  have hput : Function.update (putText temp 0 ((Nat.digits 10 v).map upperDigit))
      (Nat.digits 10 v).length 45
      = putText temp 0 ((Nat.digits 10 v).map upperDigit ++ [45]) := by
    rw [putText_append, List.length_map, Nat.zero_add]
    rfl
  rw [if_pos hsize, hput, show (Nat.digits 10 v).length + 1
    = ((Nat.digits 10 v).map upperDigit ++ [45]).length by simp, copyBack_putText,
    numText_of_pos upperDigit h0]
  simp

end Kernel

/-! ## Reading the text -/

section Text

variable {digit digit' : ℕ → UInt8} {read : UInt8 → ℕ} {b v w : ℕ}

theorem numText_read (hb : 1 < b) (h : ∀ d < b, read (digit d) = d) (v : ℕ) :
    (numText digit b v).map read = Numeral.numeral b v := by
  rw [numText, List.map_map]
  exact (List.map_congr_left fun d hd => h d ((Numeral.canonical_numeral hb v).digit d hd)).trans
    (List.map_id _)

theorem numText_inj (hb : 1 < b) (h : ∀ d < b, read (digit d) = d)
    (heq : numText digit b v = numText digit b w) : v = w := by
  apply Numeral.numeral_injective b
  rw [← numText_read hb h, heq, numText_read hb h]

theorem numText_congr (hb : 1 < b) (h : ∀ d < b, digit d = digit' d) (v : ℕ) :
    numText digit b v = numText digit' b v :=
  List.map_congr_left fun d hd => h d ((Numeral.canonical_numeral hb v).digit d hd)

theorem mem_numText (hb : 1 < b) {c : UInt8} (h : c ∈ numText digit b v) :
    ∃ d < b, digit d = c := by
  obtain ⟨d, hd, rfl⟩ := List.mem_map.mp h
  exact ⟨d, (Numeral.canonical_numeral hb v).digit d hd, rfl⟩

/-- The digit that a character of the kernel's stands for. -/
def charValue (c : UInt8) : ℕ := digitTable.idxOf c

theorem charValue_upperDigit : ∀ d < 16, charValue (upperDigit d) = d := by decide

theorem upperDigit_mem : ∀ d < 16, upperDigit d ∈ digitTable := by decide

end Text

theorem kprintHex_eq (v : BitVec 64) (buffer : Bytes) :
    kprintHex v buffer = some (numText upperDigit 16 v.toNat) := by
  unfold kprintHex
  by_cases hv : v = 0
  · subst hv
    rw [if_pos rfl]
    decide
  · have hv' : v.toNat ≠ 0 := fun h => hv (BitVec.toNat_eq.mpr h)
    have hlen : (Nat.digits 16 v.toNat).length ≤ 17 :=
      (Nat.digits_length_le_iff (by omega) _).mpr (v.isLt.trans (by norm_num))
    have hloop := digitLoop_eq (b := 16) (by omega) le_rfl 17 v.toNat buffer 0 hlen
    have hread := map_putText buffer 0 ((Nat.digits 16 v.toNat).map upperDigit)
    rw [List.length_map] at hread
    simp only [Nat.zero_add] at hread
    rw [Nat.cast_ofNat, Nat.zero_add] at hloop
    rw [if_neg hv, hloop, Option.map_some]
    dsimp only
    rw [List.map_reverse, hread, numText_of_pos upperDigit hv']

/-- `itoa_uint64` stays inside its array and writes the canonical numeral of the value, for base 16
the characters that `kprint_hex` prints. -/
theorem itoaUint64_exact (v base : BitVec 64) (mem temp : Bytes) (buffer : ℕ)
    (hb : 2 ≤ base.toNat) (hb' : base.toNat ≤ 16) :
    ∃ text, itoaUint64 v mem buffer base temp = some (putText mem buffer (text ++ [0]))
      ∧ (∀ c ∈ text, c ∈ digitTable)
      ∧ Numeral.Canonical base.toNat (text.map charValue)
      ∧ Numeral.value base.toNat (text.map charValue) = v.toNat
      ∧ (base = 16 → ∀ buffer, kprintHex v buffer = some text) := by
  have hread := numText_read (v := v.toNat) hb
    fun d hd => charValue_upperDigit d (hd.trans_le hb')
  have hlt : v.toNat < base.toNat ^ 64 := v.isLt.trans_le (Nat.pow_le_pow_left hb 64)
  refine ⟨numText upperDigit base.toNat v.toNat, ?_, fun c hc => ?_, ?_, ?_, ?_⟩
  · exact itoaWith_natCast _ hb hb' ((Nat.digits_length_le_iff hb _).mpr hlt) mem buffer temp
  · obtain ⟨d, hd, rfl⟩ := mem_numText hb hc
    exact upperDigit_mem d (hd.trans_le hb')
  · rw [hread]
    exact Numeral.canonical_numeral hb _
  · rw [hread, Numeral.value_numeral]
  · rintro rfl buffer
    exact kprintHex_eq v buffer

/-- The largest value in base 2 fills the array. -/
theorem itoaUint64_exact_full : ∃ text,
    itoaUint64 (BitVec.allOnes 64) (fun _ => 0) 0 2 (fun _ => 0)
        = some (putText (fun _ => 0) 0 (text ++ [0]))
      ∧ (∀ c ∈ text, c ∈ digitTable)
      ∧ Numeral.Canonical 2 (text.map charValue)
      ∧ Numeral.value 2 (text.map charValue) = 2 ^ 64 - 1
      ∧ ((2 : BitVec 64) = 16 → ∀ buffer, kprintHex (BitVec.allOnes 64) buffer = some text) :=
  itoaUint64_exact (BitVec.allOnes 64) 2 (fun _ => 0) (fun _ => 0) 0 (by decide) (by decide)

/-! ## The user library -/

namespace User

theorem digitLoop_eq {b : ℕ} (hb : 1 < b) (ud : ℕ) (mem : Bytes) (p : ℕ) :
    digitLoop b hb ud mem p = (putText mem p ((Numeral.digits b ud).map digitChar),
      p + (Numeral.digits b ud).length) := by
  induction ud using Nat.strong_induction_on generalizing mem p with
  | _ ud ih =>
    rw [digitLoop]
    by_cases hud : ud < b
    · rw [dif_pos (Nat.div_eq_of_lt hud), Numeral.digits_of_lt hud, Nat.mod_eq_of_lt hud]
      rfl
    · have hpos : 0 < ud / b := Nat.div_pos (not_lt.mp hud) (by omega)
      rw [dif_neg hpos.ne', ih _ (Nat.div_lt_self (by omega) hb),
        Numeral.digits_of_le hb (not_lt.mp hud), List.map_cons, putText, List.length_cons]
      congr 1
      omega

theorem reverseLoop_apply (mem : Bytes) (p1 p2 x : ℕ) :
    reverseLoop mem p1 p2 x = if p1 ≤ x ∧ x ≤ p2 then mem (p1 + p2 - x) else mem x := by
  induction mem, p1, p2 using reverseLoop.induct with
  | case1 mem p1 p2 h ih =>
    rw [reverseLoop, if_pos h, ih]
    simp only [Function.update_apply]
    by_cases h1 : x = p1
    · rw [if_neg (by omega), if_neg (by omega), if_pos h1, if_pos (by omega)]
      congr 1
      omega
    by_cases h2 : x = p2
    · rw [if_neg (by omega), if_pos h2, if_pos (by omega)]
      congr 1
      omega
    by_cases hin : p1 < x ∧ x < p2
    · rw [if_pos (by omega), if_neg (by omega), if_neg (by omega), if_pos (by omega)]
      congr 1
      omega
    · rw [if_neg (by omega), if_neg h2, if_neg h1, if_neg (by omega)]
  | case2 mem p1 p2 h =>
    rw [reverseLoop, if_neg h]
    split_ifs with hx
    · congr 1
      omega
    · rfl

/-- Reversing the digits in front of the terminator. -/
theorem reverseLoop_putText (mem : Bytes) (p : ℕ) {text : List UInt8} (h : text ≠ []) :
    reverseLoop (Function.update (putText mem p text) (p + text.length) 0) p (p + text.length - 1)
      = putText mem p (text.reverse ++ [0]) := by
  have hpos := List.length_pos_of_ne_nil h
  funext x
  rw [reverseLoop_apply, putText_append, List.length_reverse]
  simp only [putText, Function.update_apply, putText_apply, List.length_reverse]
  by_cases hx : x = p + text.length
  · rw [if_neg (by omega), if_pos hx, if_pos hx]
  by_cases hin : p ≤ x ∧ x < p + text.length
  · rw [if_pos (by omega), if_neg (by omega), if_pos (by omega), if_neg hx, if_pos hin,
      List.getD_reverse _ (by omega)]
    congr 1
    omega
  · rw [if_neg (by omega), if_neg hx, if_neg hin, if_neg hx, if_neg hin]

theorem put_numText {b : ℕ} (hb : 1 < b) (ud : ℕ) (mem : Bytes) (p : ℕ) :
    reverseLoop (Function.update (digitLoop b hb ud mem p).1 (digitLoop b hb ud mem p).2 0) p
      ((digitLoop b hb ud mem p).2 - 1) = putText mem p (numText digitChar b ud ++ [0]) := by
  have hne : (Numeral.digits b ud).map digitChar ≠ [] := by
    rw [Ne, List.map_eq_nil_iff]
    intro h
    unfold Numeral.digits at h
    split_ifs at h with h0
    exact h0 (Nat.digits_eq_nil_iff_eq_zero.mp h)
  rw [digitLoop_eq, ← List.length_map (f := digitChar), reverseLoop_putText mem p hne, numText,
    Numeral.numeral, List.map_reverse]

/-- The number that is printed, with its sign. -/
theorem itoa_eq (mem : Bytes) (buf : ℕ) (d : BitVec 32) :
    itoa mem buf 10 d = putText mem buf ((if d.toInt < 0 then [45] else []) ++
      numText digitChar 10 ((if d.toInt < 0 then -d else d).signExtend 64).toNat ++ [0]) := by
  unfold itoa
  simp only [true_and, show ¬ (10 : BitVec 32) = 16 by decide, if_false]
  split_ifs
  · rw [put_numText, List.append_assoc]
    rfl
  · rw [put_numText, List.nil_append]

theorem itoa_hex (mem : Bytes) (buf : ℕ) (d : BitVec 32) : itoa mem buf 16 d
    = putText mem buf (numText digitChar 16 (d.signExtend 64).toNat ++ [0]) := by
  unfold itoa
  simp only [show ¬ (16 : BitVec 32) = 10 by decide, false_and, if_false, if_true]
  exact put_numText _ _ _ _

/-- The digit that a character of the user library's stands for. -/
def charValue (c : UInt8) : ℕ := if c < 58 then c.toNat - 48 else c.toNat - 87

theorem charValue_digitChar : ∀ d < 16, charValue (digitChar d) = d := by decide

theorem digitChar_ne_zero : ∀ d < 16, digitChar d ≠ 0 := by decide

theorem digitChar_eq_upperDigit : ∀ d < 10, digitChar d = upperDigit d := by decide

theorem zero_notMem_numText {b : ℕ} (hb : 1 < b) (hb' : b ≤ 16) (v : ℕ) :
    0 ∉ numText digitChar b v := by
  intro h
  obtain ⟨d, hd, h0⟩ := mem_numText hb h
  exact digitChar_ne_zero d (hd.trans_le hb') h0

end User

/-! ## Signed numbers -/

section Signed

variable {d : BitVec 32}

/-- The decimal text of an integer. -/
def decText (v : ℤ) : List UInt8 := (if v < 0 then [45] else []) ++ numText upperDigit 10 v.natAbs

theorem decText_eq (v : ℤ) :
    decText v = (if v < 0 then [45] else []) ++ numText User.digitChar 10 v.natAbs := by
  rw [decText, numText_congr (by omega) User.digitChar_eq_upperDigit]

theorem toInt_neg_eq (h : d ≠ BitVec.intMin 32) (hd : d.toInt < 0) :
    (-d).toInt = d.toInt.natAbs := by
  rw [BitVec.toInt_neg_of_ne_intMin h]
  omega

theorem length_digits_natAbs (d : BitVec 32) : (Nat.digits 10 d.toInt.natAbs).length < 32 := by
  have h1 := BitVec.le_toInt d
  have h2 := BitVec.toInt_lt (x := d)
  have : d.toInt.natAbs < 10 ^ 10 := by omega
  have := (Nat.digits_length_le_iff (by omega) _).mpr this
  omega

theorem itoa_dec (h : d ≠ BitVec.intMin 32) (mem : Bytes) (buf : ℕ) (temp : Bytes) :
    itoa d mem buf 10 temp = some (putText mem buf (decText d.toInt ++ [0])) := by
  have hlen := length_digits_natAbs d
  change itoaWith 32 _ d.toInt mem buf 10 temp = _
  by_cases hd : d.toInt < 0
  · have hneg : (-BitVec.ofInt 32 d.toInt).toInt = d.toInt.natAbs := by
      rw [BitVec.ofInt_toInt, toInt_neg_eq h hd]
    rw [itoaWith_neg hd hneg (by omega) hlen, decText, if_pos hd]
    rfl
  · have hcast : d.toInt = d.toInt.natAbs := by omega
    have hput := itoaWith_natCast (fun v => (-BitVec.ofInt 32 v).toInt) (b := 10) (by omega)
      (by omega) hlen.le mem buf temp
    rw [← hcast] at hput
    rw [decText, if_neg hd, List.nil_append]
    exact hput

/-- The least `int` is its own negation, and its last digit is negative. -/
theorem itoa_intMin (mem : Bytes) (buf : ℕ) (temp : Bytes) :
    itoa (BitVec.intMin 32) mem buf 10 temp = none := by
  rfl

theorem toNat_signExtend_of_nonneg (h : 0 ≤ d.toInt) :
    (d.signExtend 64).toNat = d.toInt.natAbs := by
  have hint : (d.signExtend 64).toInt = d.toInt := BitVec.toInt_signExtend_of_le (by omega)
  rw [BitVec.toInt_eq_toNat_cond] at hint
  have := (d.signExtend 64).isLt
  split_ifs at hint <;> omega

theorem toNat_signExtend_of_neg (h : d.toInt < 0) :
    (d.signExtend 64).toNat = 2 ^ 64 - d.toInt.natAbs := by
  have hint : (d.signExtend 64).toInt = d.toInt := BitVec.toInt_signExtend_of_le (by omega)
  rw [BitVec.toInt_eq_toNat_cond] at hint
  have := (d.signExtend 64).isLt
  split_ifs at hint <;> omega

theorem User.itoa_dec_iff (mem : Bytes) (buf : ℕ) (d : BitVec 32) :
    User.itoa mem buf 10 d = putText mem buf (decText d.toInt ++ [0])
      ↔ d ≠ BitVec.intMin 32 := by
  rw [User.itoa_eq, decText_eq]
  constructor
  · rintro heq rfl
    have hmin : (BitVec.intMin 32).toInt < 0 := by decide
    simp only [hmin, if_true] at heq
    have h0 : ∀ v, 0 ∉ [45] ++ numText User.digitChar 10 v := fun v => by
      simpa using User.zero_notMem_numText (by omega) (by omega) v
    have htext := List.append_cancel_left (putText_inj (h0 _) (h0 _) heq)
    have hval := numText_inj (by omega)
      (fun d hd => User.charValue_digitChar d (hd.trans (by omega))) htext
    exact absurd hval (by decide)
  · intro h
    by_cases hd : d.toInt < 0
    · have hneg := toInt_neg_eq h hd
      rw [if_pos hd, if_pos hd, toNat_signExtend_of_nonneg (by omega), hneg, Int.natAbs_natCast]
    · rw [if_neg hd, if_neg hd, toNat_signExtend_of_nonneg (by omega)]

theorem User.itoa_hex_iff (mem : Bytes) (buf : ℕ) (d : BitVec 32) :
    User.itoa mem buf 16 d = putText mem buf (numText User.digitChar 16 d.toNat ++ [0])
      ↔ 0 ≤ d.toInt := by
  have hcond := BitVec.toInt_eq_toNat_cond d
  have hlt := d.isLt
  rw [User.itoa_hex]
  constructor
  · intro heq
    have h0 := User.zero_notMem_numText (b := 16) (by omega) le_rfl
    have hval := numText_inj (by omega) User.charValue_digitChar (putText_inj (h0 _) (h0 _) heq)
    by_contra hd
    rw [toNat_signExtend_of_neg (by omega)] at hval
    split_ifs at hcond <;> omega
  · intro hd
    rw [toNat_signExtend_of_nonneg hd]
    congr 3
    split_ifs at hcond <;> omega

/-- Both conversions to decimal. -/
def DecOk (mem temp : Bytes) (buf : ℕ) (d : BitVec 32) : Prop :=
  itoa d mem buf 10 temp = some (putText mem buf (decText d.toInt ++ [0]))
    ∧ User.itoa mem buf 10 d = putText mem buf (decText d.toInt ++ [0])

/-- The conversion of `%x`. -/
def HexOk (mem : Bytes) (buf : ℕ) (d : BitVec 32) : Prop :=
  User.itoa mem buf 16 d = putText mem buf (numText User.digitChar 16 d.toNat ++ [0])

end Signed

/-- Both conversions to decimal are right except for the least `int`, `%x` exactly for numbers that
are not negative; all three together exactly for these. -/
theorem itoa_iff (mem temp : Bytes) (buf : ℕ) (d : BitVec 32) :
    (DecOk mem temp buf d ∧ HexOk mem buf d ↔ 0 ≤ d.toInt)
      ∧ (DecOk mem temp buf d ↔ d ≠ BitVec.intMin 32) ∧ (HexOk mem buf d ↔ 0 ≤ d.toInt) := by
  have hdec : DecOk mem temp buf d ↔ d ≠ BitVec.intMin 32 := by
    refine ⟨fun h => (User.itoa_dec_iff mem buf d).mp h.2, fun h => ⟨itoa_dec h mem buf temp, ?_⟩⟩
    exact (User.itoa_dec_iff mem buf d).mpr h
  have hhex : HexOk mem buf d ↔ 0 ≤ d.toInt := User.itoa_hex_iff mem buf d
  refine ⟨?_, hdec, hhex⟩
  rw [hdec, hhex]
  refine ⟨And.right, fun h => ⟨?_, h⟩⟩
  rintro rfl
  exact absurd h (by decide)

/-- `%x` of -1, and the least `int`. -/
theorem itoa_not_ok : ¬ HexOk (fun _ => 0) 0 (-1)
    ∧ ¬ DecOk (fun _ => 0) (fun _ => 0) 0 (BitVec.intMin 32) := by
  refine ⟨fun h => ?_, fun h => ?_⟩
  · exact absurd ((User.itoa_hex_iff _ _ _).mp h) (by decide)
  · exact absurd ((itoa_intMin _ _ _).symm.trans h.1) (by simp)

end SudoOS
