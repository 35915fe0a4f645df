import SudoOS.Printf
import SudoOS.Proofs.Numbers

/-!
# What formatted output prints

The directives of `printf` and `kprintf` and the text each of them prints, the numbers as numerals.
The user library takes the negation of the least `int` for a 64-bit number, and `%x` of a negative
number prints its 64-bit extension; the kernel prints unsigned numbers as signed ones, except with
`%lu`, which prints signed ones as unsigned, and has no text for the least `int`.
-/

namespace SudoOS

open Wire Format

/-- The mark of a directive. -/
abbrev percent : UInt8 := '%'.toUInt8

theorem readStr_putText {text : List UInt8} (h0 : 0 ∉ text) {n : ℕ} (hn : text.length < n)
    (mem : Bytes) (p : ℕ) : readStr (putText mem p (text ++ [0])) n p = text := by
  refine readStr_of_at (fun i hi => ?_) h0 hn
  rw [putText_apply, if_pos (by omega), Nat.add_sub_cancel_left]

theorem length_numText_le (digit : ℕ → UInt8) {b v k : ℕ} (hb : 1 < b) (hk : 0 < k)
    (hv : v < b ^ k) : (numText digit b v).length ≤ k := by
  rw [numText, List.length_map, Numeral.numeral, List.length_reverse, Numeral.digits]
  split_ifs with h0
  · exact hk
  · exact (Nat.digits_length_le_iff hb _).mpr hv

theorem zero_notMem_decText (v : ℤ) : 0 ∉ decText v := by
  rw [decText_eq, List.mem_append, not_or]
  refine ⟨by split_ifs <;> simp, User.zero_notMem_numText (by omega) (by omega) _⟩

theorem length_decText_le {v : ℤ} {k : ℕ} (hk : 0 < k) (hv : v.natAbs < 10 ^ k) :
    (decText v).length ≤ k + 1 := by
  have := length_numText_le upperDigit (by omega) hk hv
  rw [decText, List.length_append]
  split_ifs <;> simp <;> omega

/-! ## The user library -/

namespace User

/-- What `%d` prints. -/
def decimal (d : BitVec 32) : List UInt8 :=
  if d = BitVec.intMin 32 then ascii "-18446744071562067968" else decText d.toInt

/-- What `%x` prints. -/
def hexadecimal (d : BitVec 32) : List UInt8 := numText digitChar 16 (d.signExtend 64).toNat

theorem itoaText_dec (buf : Bytes) (d : BitVec 32) : itoaText buf 10 d = decimal d := by
  unfold itoaText decimal
  split_ifs with hd
  · rw [hd, itoa_eq]
    refine readStr_putText ?_ ?_ _ _ <;> decide
  · rw [(itoa_dec_iff buf 0 d).mpr hd]
    have hlt : d.toInt.natAbs < 10 ^ 10 := by
      have h1 := BitVec.le_toInt d
      have h2 := BitVec.toInt_lt (x := d)
      omega
    have hlen := length_decText_le (by omega) hlt
    exact readStr_putText (zero_notMem_decText _) (by omega) _ _

theorem itoaText_hex (buf : Bytes) (d : BitVec 32) : itoaText buf 16 d = hexadecimal d := by
  have hlen := length_numText_le digitChar (b := 16) (k := 16) (by omega) (by omega)
    (d.signExtend 64).isLt
  unfold itoaText
  rw [itoa_hex]
  exact readStr_putText (zero_notMem_numText (by omega) le_rfl _) (by omega) _ _

/-- What a directive of `printf` prints of the arguments, and those it leaves. -/
inductive Converts : List UInt8 → List VaArg → List UInt8 → List VaArg → Prop
  | c (w : BitVec 64) (ap : List VaArg) :
    Converts ['c'.toUInt8] (.word w :: ap) [lowByte (w.setWidth 32)] ap
  | s (text : List UInt8) (ap : List VaArg) :
    Converts ['s'.toUInt8] (.str (some text) :: ap) text ap
  | null (ap : List VaArg) : Converts ['s'.toUInt8] (.str none :: ap) (ascii "(null)") ap
  | d (w : BitVec 64) (ap : List VaArg) :
    Converts ['d'.toUInt8] (.word w :: ap) (decimal (w.setWidth 32)) ap
  | x (w : BitVec 64) (ap : List VaArg) :
    Converts ['x'.toUInt8] (.word w :: ap) (hexadecimal (w.setWidth 32)) ap
  | other {c : UInt8} (hc : c ∉ ascii "csdx") (ap : List VaArg) : Converts [c] ap [percent, c] ap

theorem printfSwitch_meets (buf : ℕ → Bytes) :
    Meets 0 percent (fun _ => 1) (printfSwitch buf) Converts := by
  rintro d fmt ap ⟨out, n, ap'⟩ ⟨h0, c, d', rfl, hlen⟩
  obtain rfl : d' = [] := List.length_eq_zero_iff.mp (by simpa using hlen)
  dsimp only [List.length_singleton]
  unfold printfSwitch
  rw [prepend_cons_zero]
  constructor
  · intro h
    split_ifs at h with hc hs hd hx
    · subst hc
      rcases ap with _ | ⟨w | s, ap⟩ <;> simp [VaArg.next, VaArg.int] at h
      obtain ⟨rfl, rfl, rfl⟩ := h
      exact ⟨.c w ap, rfl⟩
    · subst hs
      rcases ap with _ | ⟨w | _ | text, ap⟩ <;> simp [VaArg.next, VaArg.charPtr] at h
      · obtain ⟨rfl, rfl, rfl⟩ := h
        exact ⟨.null ap, rfl⟩
      · obtain ⟨rfl, rfl, rfl⟩ := h
        exact ⟨.s _ ap, rfl⟩
    · subst hd
      rcases ap with _ | ⟨w | s, ap⟩ <;> simp [VaArg.next, VaArg.int] at h
      obtain ⟨rfl, rfl, rfl⟩ := h
      exact ⟨itoaText_dec _ _ ▸ .d w ap, rfl⟩
    · subst hx
      rcases ap with _ | ⟨w | s, ap⟩ <;> simp [VaArg.next, VaArg.int] at h
      obtain ⟨rfl, rfl, rfl⟩ := h
      exact ⟨itoaText_hex _ _ ▸ .x w ap, rfl⟩
    · obtain ⟨rfl, rfl, rfl⟩ : _ ∧ _ ∧ _ := by simpa using h
      exact ⟨.other (by simp [ascii]; exact ⟨hc, hs, hd, hx⟩) ap, rfl⟩
  · rintro ⟨h, rfl⟩
    cases h with
    | c w => rfl
    | s text => rfl
    | null => rfl
    | d w => simpa [VaArg.next, VaArg.int, Char.toUInt8] using itoaText_dec _ _
    | x w => simpa [VaArg.next, VaArg.int, Char.toUInt8] using itoaText_hex _ _
    | other hc =>
      simp [ascii] at hc
      simp [hc, Char.toUInt8]

theorem printf_exact (buf : ℕ → Bytes) {format : List UInt8} (h0 : 0 ∉ format) :
    Formats 0 percent (printf buf) (fun _ => 1) Converts (fun _ => [percent, 0]) format := by
  refine run_formats (by decide) (fun _ => Nat.one_pos) (printfSwitch_meets buf) ?_ h0
  intro cut _ hlt behind args
  obtain rfl : cut = [] := by
    rcases cut with _ | ⟨c, cut⟩
    · rfl
    · simpa using hlt c rfl
  rfl

/-- `%s` at the end of a line, and a mark at the very end. -/
theorem printf_exact_cut :
    Formats 0 percent (printf fun _ _ => 0) (fun _ => 1) Converts (fun _ => [percent, 0])
      (ascii "%s: 100%") :=
  printf_exact _ (by decide)

/-! ### Reading a number back -/

def isDigit (c : UInt8) : Bool := 48 ≤ c ∧ c ≤ 57

/-- The number that the digits of a text make. -/
def digitsValue (str : List UInt8) : ℕ :=
  Numeral.value 10 ((str.filter isDigit).map fun c => c.toNat - 48)

theorem atoiLoop_eq (str : List UInt8) : atoiLoop str = BitVec.ofNat 32 (digitsValue str) := by
  suffices h : ∀ (str : List UInt8) (v : ℕ), str.foldl (fun res c =>
      if 48 ≤ c ∧ c ≤ 57 then res * 10 + BitVec.ofNat 32 c.toNat - 48 else res) (BitVec.ofNat 32 v)
      = BitVec.ofNat 32 (((str.filter isDigit).map fun c => c.toNat - 48).foldl
          (fun v d => v * 10 + d) v) from h str 0
  intro str
  induction str with
  | nil => exact fun v => rfl
  | cons c str ih =>
    intro v
    by_cases hc : 48 ≤ c ∧ c ≤ 57
    · have h48 : 48 ≤ c.toNat := UInt8.le_iff_toNat_le.mp hc.1
      have hstep : BitVec.ofNat 32 v * 10 + BitVec.ofNat 32 c.toNat - 48
          = BitVec.ofNat 32 (v * 10 + (c.toNat - 48)) := by
        bv_omega
      rw [List.foldl_cons, if_pos hc, hstep, ih,
        List.filter_cons_of_pos (by simpa [isDigit] using hc)]
      rfl
    · rw [List.foldl_cons, if_neg hc, ih, List.filter_cons_of_neg (by simpa [isDigit] using hc)]

theorem digitsValue_numText (v : ℕ) : digitsValue (numText upperDigit 10 v) = v := by
  have hdigit : ∀ d < 10, isDigit (upperDigit d) = true := by decide
  have hvalue : ∀ d < 10, (fun c : UInt8 => c.toNat - 48) (upperDigit d) = d := by decide
  have hall : ∀ c ∈ numText upperDigit 10 v, isDigit c = true := by
    intro c hc
    obtain ⟨d, hd, rfl⟩ := mem_numText (by omega) hc
    exact hdigit d hd
  rw [digitsValue, List.filter_eq_self.mpr hall,
    numText_read (by omega) hvalue, Numeral.value_numeral]

theorem digitsValue_minus (str : List UInt8) :
    digitsValue ('-'.toUInt8 :: str) = digitsValue str := by
  rw [digitsValue, List.filter_cons_of_neg (by decide)]
  rfl

theorem atoi_eq (str : List UInt8) : atoi str
    = BitVec.ofInt 32 ((if str.head? = some '-'.toUInt8 then -1 else 1) * digitsValue str) := by
  unfold atoi
  split_ifs with h
  · obtain ⟨rest, rfl⟩ : ∃ rest, str = '-'.toUInt8 :: rest := by
      cases str <;> simp_all
    rw [List.tail_cons, atoiLoop_eq, digitsValue_minus, BitVec.ofInt_mul, BitVec.ofInt_natCast]
    rfl
  · rw [atoiLoop_eq, BitVec.ofInt_mul, BitVec.ofInt_natCast]
    rfl

theorem atoi_decText (v : ℤ) : atoi (decText v) = BitVec.ofInt 32 v := by
  rw [atoi_eq, decText]
  by_cases hneg : v < 0
  · rw [if_pos hneg, List.singleton_append, show (45 : UInt8) = '-'.toUInt8 from rfl,
      List.head?_cons, if_pos rfl, digitsValue_minus, digitsValue_numText]
    congr 1
    omega
  · have hhead : (numText upperDigit 10 v.natAbs).head? ≠ some '-'.toUInt8 := by
      intro h
      obtain ⟨d, hd, hc⟩ := mem_numText (by omega) (List.mem_of_mem_head? h)
      have hne : ∀ d < 10, upperDigit d ≠ '-'.toUInt8 := by decide
      exact hne d hd hc
    rw [if_neg hneg, List.nil_append, if_neg hhead, digitsValue_numText]
    congr 1
    omega

/-- What `%d` prints of a number is read back as that number, the least one included, and any text
as the number of its digits, whatever else is in it. -/
theorem atoi_reads : (∀ (buf : Bytes) (d : BitVec 32), atoi (itoaText buf 10 d) = d)
    ∧ ∀ str : List UInt8, atoi str
      = BitVec.ofInt 32 ((if str.head? = some '-'.toUInt8 then -1 else 1) * digitsValue str) := by
  refine ⟨fun buf d => ?_, atoi_eq⟩
  rw [itoaText_dec, decimal]
  split_ifs with hd
  · rw [hd]
    decide +kernel
  · rw [atoi_decText, BitVec.ofInt_toInt]

end User

/-! ## The kernel -/

theorem kprintInt_eq (val : BitVec 32) (buf temp : Bytes) :
    kprintInt val buf temp
      = if val = BitVec.intMin 32 then none else some (decText val.toInt) := by
  unfold kprintInt
  split_ifs with hval
  · rw [hval, itoa_intMin, Option.map_none]
  · have hlt : val.toInt.natAbs < 10 ^ 10 := by
      have h1 := BitVec.le_toInt val
      have h2 := BitVec.toInt_lt (x := val)
      omega
    have hlen := length_decText_le (by omega) hlt
    rw [itoa_dec hval, Option.map_some, readStr_putText (zero_notMem_decText _) (by omega)]

theorem zero_notMem_numText_upper {b : ℕ} (hb : 1 < b) (hb' : b ≤ 16) (v : ℕ) :
    0 ∉ numText upperDigit b v := by
  intro h
  obtain ⟨d, hd, h0⟩ := mem_numText hb h
  have hne : ∀ d < 16, upperDigit d ≠ 0 := by decide
  exact hne d (by omega) h0

theorem kprintUint64_eq (val : BitVec 64) (buf temp : Bytes) :
    kprintUint64 val buf temp = some (numText upperDigit 10 val.toNat) := by
  have hlt : val.toNat < 10 ^ 20 := val.isLt.trans (by norm_num)
  have hlen := length_numText_le upperDigit (b := 10) (by omega) (by omega) hlt
  have hsize : (Nat.digits 10 val.toNat).length ≤ 64 :=
    ((Nat.digits_length_le_iff (by omega) _).mpr hlt).trans (by omega)
  have hput := itoaWith_natCast (fun v => (-BitVec.ofInt 64 v).toNat) (b := 10) (by omega)
    (by omega) hsize buf 0 temp
  unfold kprintUint64
  change (itoaWith 64 _ val.toNat buf 0 ((10 : ℕ) : ℤ) temp).map _ = _
  rw [hput, Option.map_some,
    readStr_putText (zero_notMem_numText_upper (by omega) (by omega) _) (by omega)]

/-- What a directive of `kprintf` prints of the arguments, and those it leaves. -/
inductive Converts : List UInt8 → List VaArg → List UInt8 → List VaArg → Prop
  | decimal {c : UInt8} (hc : c ∈ ['d'.toUInt8, 'i'.toUInt8, 'u'.toUInt8]) {w : BitVec 64}
    (hw : w.setWidth 32 ≠ BitVec.intMin 32) (args : List VaArg) :
    Converts [c] (.word w :: args) (decText (w.setWidth 32).toInt) args
  | c (w : BitVec 64) (args : List VaArg) :
    Converts ['c'.toUInt8] (.word w :: args) [lowByte (w.setWidth 32)] args
  | s (text : List UInt8) (args : List VaArg) :
    Converts ['s'.toUInt8] (.str (some text) :: args) text args
  | null (args : List VaArg) : Converts ['s'.toUInt8] (.str none :: args) (ascii "(null)") args
  | x (w : BitVec 64) (args : List VaArg) :
    Converts ['x'.toUInt8] (.word w :: args) (numText upperDigit 16 w.toNat) args
  | p (w : BitVec 64) (args : List VaArg) :
    Converts ['p'.toUInt8] (.word w :: args) (ascii "0x" ++ numText upperDigit 16 w.toNat) args
  | long {c : UInt8} (hc : c ∈ ['u'.toUInt8, 'd'.toUInt8]) (w : BitVec 64) (args : List VaArg) :
    Converts ['l'.toUInt8, c] (.word w :: args) (numText upperDigit 10 w.toNat) args
  | longHex (w : BitVec 64) (args : List VaArg) :
    Converts ['l'.toUInt8, 'x'.toUInt8] (.word w :: args) (numText upperDigit 16 w.toNat) args
  | longOther {c : UInt8} (hc : c ∉ ascii "udx") (args : List VaArg) :
    Converts ['l'.toUInt8, c] args [] args
  | percent (args : List VaArg) : Converts [percent] args [percent] args
  | other {c : UInt8} (hc : c ∉ ascii "diucsxpl%") (args : List VaArg) :
    Converts [c] args [SudoOS.percent, c] args

/-- The length of a directive of `kprintf`. -/
def kprintfWidth (c : UInt8) : ℕ := if c = 'l'.toUInt8 then 2 else 1

theorem kprintfSwitch_meets (buf temp : ℕ → Bytes) :
    Meets 0 percent kprintfWidth (kprintfSwitch buf temp) Converts := by
  rintro d fmt args ⟨out, n, args'⟩ ⟨h0, c, d', rfl, hlen⟩
  unfold kprintfSwitch kprintfWidth at *
  rw [prepend_cons_zero]
  constructor
  · intro h
    by_cases hl : c = 'l'.toUInt8
    · subst hl
      obtain ⟨c, rfl⟩ : ∃ c, d' = [c] := List.length_eq_one_iff.mp (by simpa using hlen)
      have h1 : prepend ['l'.toUInt8, c] fmt 1 = c := rfl
      rw [h1] at h
      simp only [show 'l'.toUInt8 ≠ 'd'.toUInt8 by decide, show 'l'.toUInt8 ≠ 'i'.toUInt8 by decide,
        show 'l'.toUInt8 ≠ 'u'.toUInt8 by decide, show 'l'.toUInt8 ≠ 'c'.toUInt8 by decide,
        show 'l'.toUInt8 ≠ 's'.toUInt8 by decide, show 'l'.toUInt8 ≠ 'x'.toUInt8 by decide,
        show 'l'.toUInt8 ≠ 'p'.toUInt8 by decide, or_self, if_false, if_true] at h
      split_ifs at h with hud hx
      · rcases args with _ | ⟨w | s, args⟩ <;>
          simp [VaArg.next, VaArg.uint64, kprintUint64_eq] at h
        obtain ⟨rfl, rfl, rfl⟩ := h
        exact ⟨.long (by simpa using hud) w args, rfl⟩
      · subst hx
        rcases args with _ | ⟨w | s, args⟩ <;>
          simp [VaArg.next, VaArg.uint64, kprintHex_eq] at h
        obtain ⟨rfl, rfl, rfl⟩ := h
        exact ⟨.longHex w args, rfl⟩
      · obtain ⟨rfl, rfl, rfl⟩ : _ ∧ _ ∧ _ := by simpa using h
        have hc : c ∉ ascii "udx" := by
          simp [ascii]
          exact ⟨fun e => hud (.inl e), fun e => hud (.inr e), hx⟩
        exact ⟨.longOther hc args, rfl⟩
    · obtain rfl : d' = [] := List.length_eq_zero_iff.mp (by simpa [hl] using hlen)
      split_ifs at h with hd hc hs hx hp
      · rcases args with _ | ⟨w | s, args⟩
        · simp [VaArg.next] at h
        · simp only [VaArg.next, VaArg.int, Option.map_some, Option.bind_some, kprintInt_eq] at h
          split_ifs at h with hw
          · simp at h
          obtain ⟨rfl, rfl, rfl⟩ : _ ∧ _ ∧ _ := by simpa only [Option.map_some, Option.some.injEq,
            Prod.mk.injEq] using h
          exact ⟨.decimal (by simpa using hd) hw args, rfl⟩
        · simp [VaArg.next, VaArg.int] at h
      · subst hc
        rcases args with _ | ⟨w | s, args⟩ <;> simp [VaArg.next, VaArg.int] at h
        obtain ⟨rfl, rfl, rfl⟩ := h
        exact ⟨.c w args, rfl⟩
      · subst hs
        rcases args with _ | ⟨w | _ | text, args⟩ <;> simp [VaArg.next, VaArg.charPtr] at h
        · obtain ⟨rfl, rfl, rfl⟩ := h
          exact ⟨.null args, rfl⟩
        · obtain ⟨rfl, rfl, rfl⟩ := h
          exact ⟨.s _ args, rfl⟩
      · rcases args with _ | ⟨w | s, args⟩ <;>
          simp [VaArg.next, VaArg.uint64, kprintHex_eq] at h
        obtain ⟨rfl, rfl, rfl⟩ := h
        subst hp
        exact ⟨.p w args, rfl⟩
      · rcases args with _ | ⟨w | s, args⟩ <;>
          simp [VaArg.next, VaArg.uint64, kprintHex_eq] at h
        obtain ⟨rfl, rfl, rfl⟩ := h
        obtain rfl := hx.resolve_right hp
        exact ⟨.x w args, rfl⟩
      · rename_i hp
        subst hp
        obtain ⟨rfl, rfl, rfl⟩ : _ ∧ _ ∧ _ := by simpa using h
        exact ⟨.percent args, rfl⟩
      · rename_i hp
        obtain ⟨rfl, rfl, rfl⟩ : _ ∧ _ ∧ _ := by simpa using h
        simp only [not_or] at hd hx
        have hother : c ∉ ascii "diucsxpl%" := by
          simp [ascii]
          exact ⟨hd.1, hd.2.1, hd.2.2, hc, hs, hx.1, hx.2, hl, hp⟩
        exact ⟨.other hother args, rfl⟩
  · rintro ⟨h, rfl⟩
    cases h with
    | decimal hc hw =>
      have hc' : c = 'd'.toUInt8 ∨ c = 'i'.toUInt8 ∨ c = 'u'.toUInt8 := by simpa using hc
      rw [if_pos hc']
      simp only [VaArg.next, VaArg.int, kprintInt_eq, if_neg hw, Option.map_some, Option.bind_some]
      rfl
    | c w => rfl
    | s text => rfl
    | null => rfl
    | x w =>
      simp only [VaArg.next, VaArg.uint64, kprintHex_eq, Option.map_some, Option.bind_some]
      rfl
    | p w =>
      simp only [VaArg.next, VaArg.uint64, kprintHex_eq, Option.map_some, Option.bind_some]
      rfl
    | long hc w =>
      rename_i c
      have h1 : prepend ['l'.toUInt8, c] fmt 1 = c := rfl
      have hc' : c = 'u'.toUInt8 ∨ c = 'd'.toUInt8 := by simpa using hc
      simp only [VaArg.next, VaArg.uint64, kprintUint64_eq, h1, if_pos hc', Option.map_some,
        Option.bind_some]
      rfl
    | longHex w =>
      simp only [VaArg.next, VaArg.uint64, kprintHex_eq, Option.map_some, Option.bind_some]
      rfl
    | longOther hc =>
      rename_i c
      have h1 : prepend ['l'.toUInt8, c] fmt 1 = c := rfl
      simp [ascii] at hc
      rw [h1]
      simp [hc, Char.toUInt8]
    | percent => rfl
    | other hc =>
      simp [ascii] at hc
      simp [hc, Char.toUInt8]

theorem kprintf_exact (buf temp : ℕ → Bytes) {format : List UInt8} (h0 : 0 ∉ format) :
    Formats 0 percent (kprintf buf temp) kprintfWidth Converts
      (fun cut => if cut = [] then [percent, 0] else []) format := by
  have hpos : ∀ c, 0 < kprintfWidth c := fun c => by
    unfold kprintfWidth
    split_ifs <;> omega
  refine run_formats (by decide) hpos (kprintfSwitch_meets buf temp) ?_ h0
  intro cut hcut hlt behind args
  rcases cut with _ | ⟨c, cut⟩
  · rfl
  -- only `%l` waits for another character
  have hlen := hlt c rfl
  unfold kprintfWidth at hlen
  split_ifs at hlen with hl
  · obtain rfl : cut = [] := List.length_eq_zero_iff.mp (by simpa using hlen)
    subst hl
    rfl
  · simp at hlen

/-- `%lu` and `%d`, and `%l` at the very end. -/
theorem kprintf_exact_cut :
    Formats 0 percent (kprintf (fun _ _ => 0) fun _ _ => 0) kprintfWidth Converts
      (fun cut => if cut = [] then [percent, 0] else []) (ascii "%lu of %d%l") :=
  kprintf_exact _ _ (by decide)

end SudoOS
