import SudoOS.Cpu
import SudoOS.Proofs.DeepCopy

/-!
# Bytes stored through a page table

A store to a mapped range of the user half finds every page, puts its bytes at their addresses and
leaves every other byte of the address space alone (`store_bytes`).
-/

namespace SudoOS

/-! ## Words -/

theorem byteOf_eq (w : BitVec 64) (i : ℕ) : byteOf w i = UInt8.ofNat (w.toNat / 256 ^ i) := by
  unfold byteOf
  rw [BitVec.toNat_ushiftRight, Nat.shiftRight_eq_div_pow, pow_mul]
  rfl

/-- A number of `n` bytes, and what its bytes are. -/
theorem foldr_bytes (f : ℕ → ℕ) (hf : ∀ i, f i < 256) : ∀ (n s : ℕ), n ≤ 8 →
    ∃ v, (List.range' s n).foldr
          (fun i (acc : BitVec 64) => acc <<< 8 ||| BitVec.ofNat 64 (f i)) 0#64
        = BitVec.ofNat 64 v
      ∧ v < 256 ^ n ∧ ∀ i < n, v / 256 ^ i % 256 = f (s + i)
  | 0, s, _ => ⟨0, rfl, by simp, fun i hi => by omega⟩
  | n + 1, s, hn => by
    obtain ⟨v, hv, hlt, hbytes⟩ := foldr_bytes f hf n (s + 1) (by omega)
    have hpow : 256 ^ n ≤ 2 ^ 56 :=
      Nat.pow_le_pow_right (show 0 < 256 by decide) (show n ≤ 7 by omega)
    have hs := hf s
    have hfits : v * 256 + f s < 2 ^ 64 := by omega
    have hv64 : v < 2 ^ 64 := by omega
    refine ⟨v * 256 + f s, ?_, by rw [pow_succ]; omega, fun i hi => ?_⟩
    · rw [List.range'_succ, List.foldr_cons, hv]
      apply BitVec.eq_of_toNat_eq
      have hshl : v <<< 8 = v * 256 := Nat.shiftLeft_eq v 8
      have hvn : (BitVec.ofNat 64 v).toNat = v := by
        rw [BitVec.toNat_ofNat, Nat.mod_eq_of_lt hv64]
      have hf64 : (BitVec.ofNat 64 (f s)).toNat = f s := by
        rw [BitVec.toNat_ofNat, Nat.mod_eq_of_lt (hs.trans (by decide))]
      have hlt64 : v * 256 < 2 ^ 64 := (Nat.le_add_right _ _).trans_lt hfits
      have hor : v <<< 8 ||| f s = v * 256 + f s := by
        rw [← Nat.shiftLeft_add_eq_or_of_lt (i := 8) hs, hshl]
      rw [BitVec.toNat_or, BitVec.toNat_shiftLeft, hvn, hf64, BitVec.toNat_ofNat, hshl,
        Nat.mod_eq_of_lt hlt64, Nat.mod_eq_of_lt hfits, ← hor, hshl]
    · rcases i with _ | i
      · simp only [pow_zero, Nat.div_one, Nat.add_zero]
        omega
      · rw [pow_succ', ← Nat.div_div_eq_div_mul, show (v * 256 + f s) / 256 = v by omega,
          hbytes i (by omega), Nat.add_assoc, Nat.add_comm 1 i]

/-- The bytes of a word after some have been replaced. -/
theorem byteOf_storeWord (w : BitVec 64) (bytes : ℕ → Option UInt8) {i : ℕ} (hi : i < 8) :
    byteOf (storeWord w bytes) i = (bytes i).getD (byteOf w i) := by
  obtain ⟨v, hv, hlt, hbytes⟩ := foldr_bytes
    (fun i => (bytes i).elim ((w >>> (8 * i)).toNat % 256) UInt8.toNat) (fun i => by
      rcases bytes i with _ | b
      · exact Nat.mod_lt _ (by decide)
      · exact b.toNat_lt) 8 0 le_rfl
  have hword : storeWord w bytes = BitVec.ofNat 64 v := by
    unfold storeWord
    rw [List.range_eq_range']
    exact hv
  have hv64 : v < 2 ^ 64 := hlt
  rw [hword, byteOf_eq, BitVec.toNat_ofNat, Nat.mod_eq_of_lt hv64]
  apply UInt8.toNat_inj.mp
  rw [UInt8.toNat_ofNat', hbytes i hi, Nat.zero_add]
  rcases bytes i with _ | b
  · unfold byteOf
    rw [Option.elim_none, Option.getD_none, UInt8.toNat_ofNat']
  · rfl

/-! ## Pages -/

section Pages

variable {m m' : Machine} {pml4 va x : ℕ}

/-- The byte is one of the page that the path leads to. -/
theorem byteAt_eq_table : m.byteAt pml4 x = (m.table pml4 (leafPath x)).map fun pa =>
    byteOf (m.phys pa (x % 4096 / 8)) (x % 4096 % 8) := by
  have hconcat : m.table pml4 (leafPath x)
      = (m.table pml4 (tablePath x)).bind fun pt => tableChild m.phys pt (ptIdx x) :=
    Radix.walk_concat _ _ _ _
  unfold Machine.byteAt
  rw [hconcat]
  rcases ht : m.table pml4 (tablePath x) with _ | pt
  · rw [leafEntry_of_none ht]
    rfl
  · rw [leafEntry_of_some ht, Option.bind_some, tableChild]
    split_ifs <;> rfl

/-- Where nothing is touched, the byte stays. -/
theorem Touches.byteAt_eq {adm T : List ℕ → Prop} (h : Touches adm pml4 T m m')
    (ht : adm (tablePath x)) (hx : adm (leafPath x))
    (hT : ∀ q, T q → ∃ w, q = leafPath w ∧ leafPath w ≠ leafPath x) :
    m'.byteAt pml4 x = m.byteAt pml4 x := by
  unfold Machine.byteAt
  rcases he : m.leafEntry pml4 x with _ | e
  · rw [(h.leafEntry_eq ht hT).trans he]
    rfl
  · obtain ⟨h1, h2⟩ := h.page_eq ht hx hT he
    rw [h1, Option.map_some, Option.map_some, h2]

end Pages

/-! ## Stores -/

section Stores

variable {K : Type*} {root : K → Option ℕ} {adm : K → List ℕ → Prop} {m : Machine} {k₀ : K}
  {pml4 : ℕ}

/-- A store to one page. -/
theorem storePage_bytes (hadm : Radix.Closed adm) (h : TablesOk root adm m)
    (hroot : root k₀ = some pml4) (hleaf : ∀ x < 2 ^ 47, IsLeaf adm k₀ (leafPath x)) {page : ℕ}
    (hpage : page < 2 ^ 47) (bytes : ℕ → Option UInt8) (hmapped : m.byteAt pml4 page ≠ none) :
    ∃ m', m.storePage pml4 page bytes = some m' ∧ m'.pmm = m.pmm
      ∧ (∀ a j, m'.phys a j ≠ m.phys a j → m.pmm.Busy a)
      ∧ ∀ x < 2 ^ 47, m'.byteAt pml4 x = if x / 4096 = page / 4096 then
          (m.byteAt pml4 x).map fun b => (bytes (x % 4096)).getD b
        else m.byteAt pml4 x := by
  obtain ⟨e, he⟩ : ∃ e, m.leafEntry pml4 page = some e := by
    rw [← Option.ne_none_iff_exists']
    intro hc
    exact hmapped (by rw [Machine.byteAt, hc]; rfl)
  have hstore : m.storePage pml4 page bytes
      = some { m with phys := m.phys.storeBytes (pteGetAddr e) bytes } := by
    rw [Machine.storePage, if_pos (.inl hpage), he]
    rfl
  obtain ⟨hk, hnode⟩ := storePage_kept hadm h hroot (hleaf page hpage) hstore
  refine ⟨_, hstore, rfl, fun a j hc => ?_, fun x hx => ?_⟩
  · by_cases ha : a = pteGetAddr e
    · rw [ha]
      exact h.busy k₀ _ _ (hleaf page hpage).1 (node_of_leafEntry hroot he)
    · exact absurd (if_neg fun hp => ha hp.1) hc
  split_ifs with hsame
  · have hpath : leafPath x = leafPath page := by
      rw [leafPath_eq_iff, hsame]
    have htab : m.table pml4 (leafPath x) = some (pteGetAddr e) := by
      rw [hpath]
      exact table_of_leafEntry he
    have htab' := hnode k₀ _ (hleaf x hx).1
    rw [Machine.node_eq_table hroot, Machine.node_eq_table hroot, htab] at htab'
    rw [byteAt_eq_table, byteAt_eq_table, htab, htab', Option.map_some, Option.map_some,
      Option.map_some]
    have hword : m.phys.storeBytes (pteGetAddr e) bytes (pteGetAddr e) (x % 4096 / 8)
        = storeWord (m.phys (pteGetAddr e) (x % 4096 / 8))
          fun j => bytes (8 * (x % 4096 / 8) + j) := if_pos ⟨rfl, by omega⟩
    dsimp only
    rw [hword, byteOf_storeWord _ _ (by omega), Nat.div_add_mod]
  · refine (hk.touches k₀ pml4 hroot).byteAt_eq (hadm _ _ _ (hleaf x hx).1) (hleaf x hx).1 ?_
    rintro q ⟨-, rfl⟩
    exact ⟨page, rfl, leafPath_ne hpage hx (Ne.symm hsame)⟩

theorem storePages_bytes (va n : ℕ) (byte : ℕ → UInt8) (hadm : Radix.Closed adm)
    (hroot : root k₀ = some pml4) (hleaf : ∀ x < 2 ^ 47, IsLeaf adm k₀ (leafPath x)) :
    ∀ (r page : ℕ) (m : Machine),
    4096 ∣ page → page + r * 4096 ≤ 2 ^ 47 → TablesOk root adm m →
    (∀ x, page ≤ x → x < page + r * 4096 → m.byteAt pml4 x ≠ none) →
    ∃ m', Machine.storePages pml4 va n byte r page m = some m' ∧ m'.pmm = m.pmm
      ∧ (∀ a j, m'.phys a j ≠ m.phys a j → m.pmm.Busy a)
      ∧ ∀ x < 2 ^ 47, m'.byteAt pml4 x =
        if (page ≤ x ∧ x < page + r * 4096) ∧ va ≤ x ∧ x < va + n then some (byte (x - va))
        else m.byteAt pml4 x
  | 0, page, m, _, _, _, _ => by
    refine ⟨m, rfl, rfl, fun _ _ hc => absurd rfl hc, fun x _ => ?_⟩
    rw [if_neg (by omega)]
  | r + 1, page, m, hal, hend, h, hmapped => by
    have hpage : page < 2 ^ 47 := by omega
    obtain ⟨m₁, h₁, hpmm₁, hwords₁, hbytes₁⟩ := storePage_bytes hadm h hroot hleaf hpage
      (fun o => if va ≤ page + o ∧ page + o < va + n then some (byte (page + o - va)) else none)
      (hmapped page le_rfl (by omega))
    obtain ⟨hk, -⟩ := storePage_kept hadm h hroot (hleaf page hpage) h₁
    have hsome : ∀ x < 2 ^ 47, m.byteAt pml4 x ≠ none → m₁.byteAt pml4 x ≠ none := by
      intro x hx hne hc
      rw [hbytes₁ x hx] at hc
      by_cases hsame : x / 4096 = page / 4096
      · rw [if_pos hsame] at hc
        exact hne (Option.map_eq_none_iff.mp hc)
      · rw [if_neg hsame] at hc
        exact hne hc
    obtain ⟨m₂, h₂, hpmm₂, hwords₂, hbytes₂⟩ := storePages_bytes va n byte hadm hroot hleaf r
      (page + 4096) m₁
      (by omega) (by omega) hk.tables fun x h1 h2 => hsome x (by omega)
        (hmapped x (by omega) (by omega))
    refine ⟨m₂, ?_, hpmm₂.trans hpmm₁, fun a j hc => ?_, fun x hx => ?_⟩
    · rw [Machine.storePages, show u64 page = page from u64_of_lt (by omega), h₁]
      exact h₂
    · by_cases hc₁ : m₁.phys a j = m.phys a j
      · exact hpmm₁ ▸ hwords₂ a j (hc₁ ▸ hc)
      · exact hwords₁ a j hc₁
    · rw [hbytes₂ x hx, hbytes₁ x hx]
      by_cases hsame : x / 4096 = page / 4096
      · -- The first page.
        have hoff : page + x % 4096 = x := by omega
        rw [if_neg (by omega), if_pos hsame, hoff]
        obtain ⟨b, hb⟩ := Option.ne_none_iff_exists'.mp (hmapped x (by omega) (by omega))
        rw [hb, Option.map_some]
        by_cases hin : va ≤ x ∧ x < va + n
        · rw [if_pos hin, if_pos ⟨by omega, hin⟩, Option.getD_some]
        · rw [if_neg hin, if_neg fun hc => hin hc.2, Option.getD_none]
      · rw [if_neg hsame]
        exact if_congr (and_congr_left fun _ => by omega) rfl rfl

/-- A store to mapped pages of the user half. -/
theorem store_bytes (va n : ℕ) (byte : ℕ → UInt8) (hadm : Radix.Closed adm)
    (h : TablesOk root adm m) (hroot : root k₀ = some pml4)
    (hleaf : ∀ x < 2 ^ 47, IsLeaf adm k₀ (leafPath x))
    (hend : va + n ≤ 2 ^ 47)
    (hmapped : ∀ x, va / 4096 ≤ x / 4096 → x / 4096 * 4096 < va + n → m.byteAt pml4 x ≠ none) :
    ∃ m', m.store pml4 va n byte = some m' ∧ m'.pmm = m.pmm
      ∧ (∀ a j, m'.phys a j ≠ m.phys a j → m.pmm.Busy a)
      ∧ ∀ x < 2 ^ 47, m'.byteAt pml4 x =
        if va ≤ x ∧ x < va + n then some (byte (x - va)) else m.byteAt pml4 x := by
  rcases Nat.eq_zero_or_pos n with rfl | hn
  · refine ⟨m, by simp [Machine.store, Machine.storePages], rfl, fun _ _ hc => absurd rfl hc,
      fun x _ => ?_⟩
    rw [if_neg (by omega)]
  obtain ⟨m', hm, hpmm, hwords, hbytes⟩ := storePages_bytes va n byte hadm hroot hleaf
    ((va - va / 4096 * 4096 + n + 4095) / 4096) (va / 4096 * 4096) m
    ⟨va / 4096, Nat.mul_comm _ _⟩ (by omega) h fun x h1 h2 => hmapped x (by omega) (by omega)
  refine ⟨m', ?_, hpmm, hwords, fun x hx => ?_⟩
  · unfold Machine.store
    dsimp only
    rw [if_neg hn.ne']
    exact hm
  · rw [hbytes x hx]
    exact if_congr ⟨fun hc => hc.2, fun hc => ⟨by omega, hc⟩⟩ rfl rfl

end Stores

end SudoOS
