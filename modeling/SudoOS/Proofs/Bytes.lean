import Mathlib.Data.List.GetD
import SudoOS.Bytes

/-!
# Copying and comparing bytes

`memcpy` moves a range downwards, whether or not the two ranges overlap (`memcpy_down`).

`strncpy` does not count the terminator it has copied: a string that fits with room to spare is
followed by one zero too many, behind the buffer (`strncpy_exact_iff`). `strncmp` takes the count it
is left with for a negative `int` not only when it has run out (`strncmp_iff`).
-/

namespace SudoOS

/-! ## Copying -/

theorem memcpy_down : ∀ (n : ℕ) (mem : Bytes) {dst src : ℕ}, dst ≤ src → ∀ x,
    memcpy mem dst src n x = if dst ≤ x ∧ x < dst + n then mem (src + (x - dst)) else mem x
  | 0, mem, dst, src, _, x => by
    rw [if_neg (by omega)]
    rfl
  | n + 1, mem, dst, src, h, x => by
    rw [memcpy, memcpy_down n _ (by omega) x]
    -- The byte just written lies below all that are still to be read.
    simp only [Function.update_apply]
    by_cases hx : x = dst
    · rw [if_neg (by omega), if_pos hx, if_pos (by omega), hx, Nat.sub_self, Nat.add_zero]
    · by_cases hin : dst + 1 ≤ x ∧ x < dst + 1 + n
      · rw [if_pos hin, if_neg (by omega), if_pos (by omega)]
        congr 1
        omega
      · rw [if_neg hin, if_neg hx, if_neg (by omega)]

theorem memset_apply (value : UInt8) : ∀ (n : ℕ) (mem : Bytes) (dst x : ℕ),
    memset mem dst value n x = if dst ≤ x ∧ x < dst + n then value else mem x
  | 0, mem, dst, x => by
    rw [if_neg (by omega)]
    rfl
  | n + 1, mem, dst, x => by
    rw [memset, memset_apply value n]
    simp only [Function.update_apply]
    by_cases hx : x = dst
    · rw [if_neg (by omega), if_pos hx, if_pos (by omega)]
    · rw [if_neg hx]
      exact if_congr (by omega) rfl rfl

/-- The first loop stops behind the terminator, or when `n` bytes are copied. -/
theorem strncpyLoop_eq : ∀ (n : ℕ) (mem : Bytes) (dst : ℕ) {src : List UInt8}, 0 ∉ src →
    (∀ x, (strncpyLoop mem dst src n).1 x
      = if dst ≤ x ∧ x < dst + min n (src.length + 1) then src.getD (x - dst) 0 else mem x)
    ∧ (strncpyLoop mem dst src n).2 = (dst + min n (src.length + 1), n - src.length)
  | 0, mem, dst, src, _ => by
    refine ⟨fun x => ?_, by simp [strncpyLoop]⟩
    rw [if_neg (by omega)]
    rfl
  | n + 1, mem, dst, [], _ => by
    refine ⟨fun x => ?_, by simp [strncpyLoop]⟩
    simp only [strncpyLoop, List.headD_nil, if_pos, List.length_nil, Function.update_apply]
    by_cases hx : x = dst
    · simp [hx]
    · rw [if_neg hx, if_neg (by omega)]
  | n + 1, mem, dst, c :: src, h => by
    have hc : c ≠ 0 := fun hc => h (hc ▸ List.mem_cons_self)
    obtain ⟨hmem, hrest⟩ := strncpyLoop_eq n (Function.update mem dst c) (dst + 1)
      (fun h0 => h (List.mem_cons_of_mem c h0))
    have hstep : strncpyLoop mem dst (c :: src) (n + 1)
        = strncpyLoop (Function.update mem dst c) (dst + 1) src n := if_neg hc
    rw [hstep, List.length_cons]
    refine ⟨fun x => ?_, ?_⟩
    · rw [hmem, Function.update_apply]
      by_cases hx : x = dst
      · rw [if_neg (by omega), if_pos hx, if_pos (by omega), hx, Nat.sub_self, List.getD_cons_zero]
      · rw [if_neg hx]
        by_cases hin : dst + 1 ≤ x ∧ x < dst + 1 + min n (src.length + 1)
        · rw [if_pos hin, if_pos (by omega), show x - dst = x - (dst + 1) + 1 by omega,
            List.getD_cons_succ]
        · rw [if_neg hin, if_neg (by omega)]
    · rw [hrest]
      simp only [Prod.mk.injEq]
      omega

/-- With room to spare one byte more than `n` is written. -/
theorem strncpy_apply (mem : Bytes) (dst : ℕ) {src : List UInt8} (n : ℕ) (h : 0 ∉ src) (x : ℕ) :
    strncpy mem dst src n x
      = if dst ≤ x ∧ x < dst + (if n ≤ src.length then n else n + 1) then src.getD (x - dst) 0
        else mem x := by
  obtain ⟨hmem, hrest⟩ := strncpyLoop_eq n mem dst h
  rcases hl : strncpyLoop mem dst src n with ⟨mem', dst', n'⟩
  rw [hl] at hmem hrest
  obtain ⟨rfl, rfl⟩ := Prod.mk.inj hrest
  dsimp only at hmem
  simp only [strncpy, hl, memset_apply]
  by_cases hfill : dst + min n (src.length + 1) ≤ x
      ∧ x < dst + min n (src.length + 1) + (n - src.length)
  · have hpast : src.length ≤ x - dst := by omega
    rw [if_pos hfill, if_pos (by split_ifs <;> omega), List.getD_eq_default _ _ hpast]
  · rw [if_neg hfill, hmem]
    refine if_congr ?_ rfl rfl
    split_ifs <;> omega

/-- The `n` bytes at `dst` are the string's, then zeros, and all others are as before. -/
def StrncpyExact (mem : Bytes) (dst : ℕ) (src : List UInt8) (n : ℕ) : Prop :=
  (List.range n).map (fun i => strncpy mem dst src n (dst + i))
      = src.take n ++ List.replicate (n - src.length) 0
    ∧ ∀ x, (x < dst ∨ dst + n ≤ x) → strncpy mem dst src n x = mem x

theorem strncpy_prefix (mem : Bytes) (dst : ℕ) {src : List UInt8} (n : ℕ) (h : 0 ∉ src) :
    (List.range n).map (fun i => strncpy mem dst src n (dst + i))
      = src.take n ++ List.replicate (n - src.length) 0 := by
  apply List.ext_getElem
  · simp
    omega
  intro i hi hi'
  have hin : i < n := by simpa using hi
  rw [List.getElem_map, List.getElem_range, strncpy_apply mem dst n h,
    if_pos (by split_ifs <;> omega), Nat.add_sub_cancel_left]
  by_cases hs : i < src.length
  · rw [List.getElem_append_left (by simp; omega), List.getElem_take, List.getD_eq_getElem _ _ hs]
  · rw [List.getElem_append_right (by simp; omega), List.getElem_replicate,
      List.getD_eq_default _ _ (by omega)]

/-- `strncpy` writes `n` bytes if and only if the string is at least as long; else it clears the
byte behind them too, which changes nothing only where that is zero already. -/
theorem strncpy_exact_iff (mem : Bytes) (dst : ℕ) (src : List UInt8) (n : ℕ) (h : 0 ∉ src) :
    StrncpyExact mem dst src n ↔ n ≤ src.length ∨ mem (dst + n) = 0 := by
  rw [StrncpyExact, strncpy_prefix mem dst n h, eq_self, true_and]
  simp only [strncpy_apply mem dst n h]
  by_cases hn : n ≤ src.length
  · simp only [hn, if_true, true_or, iff_true]
    intro x hx
    rw [if_neg (by omega)]
  · simp only [hn, if_false, false_or]
    have hlast : src.getD n 0 = 0 := List.getD_eq_default _ _ (by omega)
    constructor
    · intro hall
      have hn := hall (dst + n) (Or.inr le_rfl)
      rw [if_pos (by omega), Nat.add_sub_cancel_left, hlast] at hn
      exact hn.symm
    · intro h0 x hx
      by_cases hxn : x = dst + n
      · rw [if_pos (by omega), hxn, Nat.add_sub_cancel_left, hlast, h0]
      · rw [if_neg (by omega)]

/-- A name that fills the buffer. -/
theorem strncpy_exact_full : StrncpyExact (fun _ => 255) 16 (ascii "idle") 4 :=
  (strncpy_exact_iff _ 16 (ascii "idle") 4 (by decide)).mpr (by decide)

/-- A name that leaves room. -/
theorem strncpy_not_exact : ¬ StrncpyExact (fun _ => 255) 16 (ascii "idle") 8 := by
  intro h
  have hlast : strncpy (fun _ => 255) 16 (ascii "idle") 8 24 = 0 := by decide
  have := h.2 24 (Or.inr le_rfl)
  rw [hlast] at this
  exact absurd this (by decide)

/-- The name field of a PCB has one byte more than `strncpy` is told, and `set_proc_name` clears
it. -/
theorem setProcName_reads (mem : Bytes) (dst : ℕ) {name : List UInt8} (n : ℕ) (h : 0 ∉ name)
    (x : ℕ) : Function.update (strncpy mem dst name n) (dst + n) 0 x
      = if dst ≤ x ∧ x ≤ dst + n then (name.take n).getD (x - dst) 0 else mem x := by
  rw [Function.update_apply, strncpy_apply mem dst n h]
  by_cases hx : x = dst + n
  · rw [if_pos hx, if_pos (by omega), List.getD_eq_default _ _ (by simp; omega)]
  · rw [if_neg hx]
    by_cases hin : dst ≤ x ∧ x < dst + n
    · rw [if_pos (by split_ifs <;> omega), if_pos (by omega), List.getD_eq_getElem?_getD,
        List.getD_eq_getElem?_getD, List.getElem?_take, if_pos (by omega)]
    · rw [if_neg (by split_ifs <;> omega), if_neg (by omega)]

/-! ## Comparing -/

/-- The strings differ at `i` for the first time. -/
def FirstDiff (a b : List UInt8) (i : ℕ) : Prop :=
  a.getD i 0 ≠ b.getD i 0 ∧ ∀ j < i, a.getD j 0 = b.getD j 0

/-- The result is zero when the first `n` bytes agree, else it has the sign of the first
difference. Behind its end a string counts as zeros. -/
def StrncmpOk (a b : List UInt8) (n : BitVec 64) : Prop :=
  (strncmp a b n = 0 ↔ ∀ i < n.toNat, a.getD i 0 = b.getD i 0)
    ∧ ∀ i < n.toNat, FirstDiff a b i →
      (strncmp a b n).sign = ((a.getD i 0).toNat - (b.getD i 0).toNat : ℤ).sign

section Strncmp

variable {a b : List UInt8} {n : BitVec 64} {i : ℕ}

theorem strncmpLoop_stop (h : n = 0 ∨ a.getD 0 0 = 0 ∨ a.getD 0 0 ≠ b.getD 0 0) :
    strncmpLoop a b n = (a, b, n - 1) := by
  rcases a with _ | ⟨x, a⟩
  · rfl
  · rw [strncmpLoop, if_neg]
    rintro ⟨hn, hx, hb⟩
    rcases h with h | h | h
    · exact hn h
    · exact hx h
    · rcases b with _ | ⟨y, b⟩ <;> exact h hb

/-- The loop passes bytes that agree. -/
theorem strncmpLoop_drop : ∀ (i : ℕ) (a b : List UInt8) (n : BitVec 64), 0 ∉ a → i ≤ n.toNat →
    i ≤ a.length → (∀ j < i, a.getD j 0 = b.getD j 0) →
    strncmpLoop a b n = strncmpLoop (a.drop i) (b.drop i) (n - BitVec.ofNat 64 i)
  | 0, a, b, n, _, _, _, _ => by simp
  | i + 1, [], b, n, _, _, hi, _ => absurd hi (Nat.not_succ_le_zero i)
  | i + 1, x :: a, b, n, h0, hn, hi, hagree => by
    obtain ⟨hx, h0⟩ := List.mem_cons.not.mp h0 |> not_or.mp
    have hhead : x = b.headD 0 := by
      have := hagree 0 (Nat.succ_pos i)
      rcases b with _ | ⟨y, b⟩ <;> exact this
    have hpos : n ≠ 0 := by
      rintro rfl
      simp at hn
    have htail : ∀ j, b.tail.getD j 0 = b.getD (j + 1) 0 := by
      rcases b with _ | ⟨y, b⟩ <;> simp
    have hn' : (n - 1).toNat = n.toNat - 1 := BitVec.toNat_sub_of_le (by
      rw [BitVec.le_def]
      simpa using Nat.one_le_of_lt hn)
    rw [strncmpLoop, if_pos ⟨hpos, Ne.symm hx, hhead⟩,
      strncmpLoop_drop i a b.tail (n - 1) h0 (by omega) (Nat.le_of_succ_le_succ hi)]
    · rw [List.drop_succ_cons, ← List.drop_one, List.drop_drop, BitVec.ofNat_add, Nat.add_comm 1 i]
      congr 1
      rw [BitVec.sub_sub, BitVec.add_comm]
      rfl
    · intro j hj
      rw [htail]
      exact hagree (j + 1) (Nat.succ_lt_succ hj)

/-- What is left of `n` is one less than the bytes not looked at. -/
theorem strncmp_eq (h0 : 0 ∉ a) (hn : i ≤ n.toNat) (hi : i ≤ a.length)
    (hagree : ∀ j < i, a.getD j 0 = b.getD j 0)
    (hstop : i = n.toNat ∨ a.getD i 0 = 0 ∨ a.getD i 0 ≠ b.getD i 0) :
    strncmp a b n = if ((n - BitVec.ofNat 64 i - 1).setWidth 32).toInt < 0 then 0
      else ((a.getD i 0).toNat - (b.getD i 0).toNat : ℤ) := by
  have hdrop : ∀ l : List UInt8, (l.drop i).getD 0 0 = l.getD i 0 := fun l => by
    simp [List.getD_eq_getElem?_getD, List.getElem?_drop]
  have hhead : ∀ l : List UInt8, (l.drop i).headD 0 = l.getD i 0 := fun l => by
    rw [← hdrop]
    rcases l.drop i with _ | ⟨x, l⟩ <;> rfl
  have hz : i = n.toNat → n - BitVec.ofNat 64 i = 0 := by
    rintro rfl
    simp
  unfold strncmp
  rw [strncmpLoop_drop i a b n h0 hn hi hagree, strncmpLoop_stop]
  · simp only [hhead]
  · rw [hdrop, hdrop]
    exact hstop.imp_left hz

theorem toInt_neg_iff (hi : i < n.toNat) :
    ((n - BitVec.ofNat 64 i - 1).setWidth 32).toInt < 0 ↔ 2 ^ 31 ≤ (n.toNat - i - 1) % 2 ^ 32 := by
  have hn := n.isLt
  have hleft : (n - BitVec.ofNat 64 i - 1).toNat = n.toNat - i - 1 := by
    bv_omega
  rw [BitVec.toInt_neg_iff, BitVec.toNat_setWidth, hleft]
  omega

/-- Strings that agree on their first `n` bytes. -/
theorem strncmp_of_agree (ha : 0 ∉ a) (h : ∀ i < n.toNat, a.getD i 0 = b.getD i 0) :
    strncmp a b n = 0 := by
  by_cases hn : n.toNat ≤ a.length
  · rw [strncmp_eq ha le_rfl hn h (.inl rfl)]
    simp
  · have hend : a.getD a.length 0 = 0 := List.getD_eq_default _ _ le_rfl
    rw [strncmp_eq ha (by omega) le_rfl (fun j hj => h j (by omega)) (.inr (.inl hend)),
      ← h _ (by omega), sub_self, ite_self]

/-- A string ends before a first difference only if the other goes on. -/
theorem FirstDiff.le_length (hb : 0 ∉ b) (h : FirstDiff a b i) : i ≤ a.length := by
  by_contra hlt
  have hend : b.getD a.length 0 = 0 := by
    rw [← h.2 _ (by omega)]
    exact List.getD_eq_default _ _ le_rfl
  have hlen : b.length ≤ a.length := by
    by_contra hlt'
    rw [List.getD_eq_getElem _ _ (by omega)] at hend
    exact hb (hend ▸ List.getElem_mem _)
  apply h.1
  rw [List.getD_eq_default _ _ (by omega), List.getD_eq_default _ _ (by omega)]

theorem strncmp_of_firstDiff (ha : 0 ∉ a) (hb : 0 ∉ b) (hi : i < n.toNat) (h : FirstDiff a b i) :
    strncmp a b n = if 2 ^ 31 ≤ (n.toNat - i - 1) % 2 ^ 32 then 0
      else ((a.getD i 0).toNat - (b.getD i 0).toNat : ℤ) := by
  rw [strncmp_eq ha hi.le (h.le_length hb) h.2 (.inr (.inr h.1))]
  exact if_congr (toInt_neg_iff hi) rfl rfl

theorem exists_firstDiff (h : ¬ ∀ i < n.toNat, a.getD i 0 = b.getD i 0) :
    ∃ i < n.toNat, FirstDiff a b i := by
  have hex : ∃ i, i < n.toNat ∧ a.getD i 0 ≠ b.getD i 0 := by
    simpa only [not_forall, exists_prop] using h
  obtain ⟨hlt, hne⟩ := Nat.find_spec hex
  refine ⟨Nat.find hex, hlt, hne, fun j hj => ?_⟩
  by_contra hj'
  exact Nat.find_min hex hj ⟨hj.trans hlt, hj'⟩

theorem sub_toNat_ne_zero {x y : UInt8} (h : x ≠ y) : (x.toNat - y.toNat : ℤ) ≠ 0 := by
  intro h0
  exact h (UInt8.toNat_inj.mp (by omega))

end Strncmp

/-- `strncmp` is right if and only if the strings agree on the first `n` bytes, or what is left of
`n` behind their first difference is not negative when cut to an `int`. -/
theorem strncmp_iff (a b : List UInt8) (n : BitVec 64) (ha : 0 ∉ a) (hb : 0 ∉ b) :
    StrncmpOk a b n ↔ ∀ i < n.toNat, FirstDiff a b i → (n.toNat - i - 1) % 2 ^ 32 < 2 ^ 31 := by
  constructor
  · intro h i hi hd
    by_contra hc
    have hzero := strncmp_of_firstDiff ha hb hi hd
    rw [if_pos (not_lt.mp hc)] at hzero
    exact hd.1 (h.1.mp hzero i hi)
  · intro h
    refine ⟨⟨fun hzero => ?_, strncmp_of_agree ha⟩, fun i hi hd => ?_⟩
    · by_contra hc
      obtain ⟨i, hi, hd⟩ := exists_firstDiff hc
      rw [strncmp_of_firstDiff ha hb hi hd, if_neg (not_le.mpr (h i hi hd))] at hzero
      exact sub_toNat_ne_zero hd.1 hzero
    · rw [strncmp_of_firstDiff ha hb hi hd, if_neg (not_le.mpr (h i hi hd))]

theorem strncmp_ok_names : StrncmpOk (ascii "bin") (ascii "boot") 3 := by
  refine (strncmp_iff (ascii "bin") (ascii "boot") 3 (by decide) (by decide)).mpr ?_
  intro i hi _
  have : i < 3 := hi
  change (3 - i - 1) % 2 ^ 32 < 2 ^ 31
  omega

/-- Two strings that differ at once, compared without a bound. -/
theorem strncmp_not_ok : ¬ StrncmpOk (ascii "bin") (ascii "etc") (-1) := by
  intro h
  have hzero : strncmp (ascii "bin") (ascii "etc") (-1) = 0 := by decide
  exact absurd (h.1.mp hzero 0 (by decide)) (by decide)

end SudoOS
