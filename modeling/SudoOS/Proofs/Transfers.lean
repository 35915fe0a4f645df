import SudoOS.Io
import SudoOS.Proofs.FileData
import SudoOS.Proofs.OpenFailure
import SudoOS.Proofs.Stat

/-!
# How much a transfer moves

`ramfs_read` and `ramfs_write` cut the count where the file ends, on a 64-bit sum that a negative
count wraps unless the offset takes it up: then they move all there is. `SYS_READ` from the keyboard
does not look at the count (`transfers_bounded`).
-/

namespace SudoOS

namespace Ramfs

/-- A descriptor with a file on it, for which the condition holds. -/
def OnRegular (fs : Ramfs) (cur : Pcb) (fd : ℤ) (cond : File → RamfsNode → Prop) : Prop :=
  ∀ f n, fdFile cur fd = some f → (fs.globalFileTable f).node = some n →
    (fs.files n).type ≠ .dir → cond (fs.globalFileTable f) (fs.files n)

/-! ## Lengths -/

theorem u64_neg {offset : ℕ} (ho : offset ≤ 4096) {c : BitVec 32} (h : c.toInt < 0) :
    (u64 (offset + (c.signExtend 64).toNat) : ℤ)
      = if 0 ≤ offset + c.toInt then offset + c.toInt else 2 ^ 64 + (offset + c.toInt) := by
  have hmsb : c.msb = true := by
    by_contra hm
    have := BitVec.toInt_eq_toNat_of_msb (by simpa using hm : c.msb = false)
    omega
  have hlt := c.isLt
  have hint : c.toInt = c.toNat - 2 ^ 32 := by
    rw [BitVec.toInt_eq_msb_cond, if_pos hmsb]
    norm_num
  have hge : 2 ^ 31 ≤ c.toNat := by
    rw [BitVec.msb_eq_decide, decide_eq_true_eq] at hmsb
    simpa using hmsb
  have hext : (c.signExtend 64).toNat = c.toNat + (2 ^ 64 - 2 ^ 32) := by
    rw [BitVec.toNat_signExtend, hmsb, BitVec.toNat_setWidth, if_pos rfl, Nat.mod_eq_of_lt]
    omega
  unfold u64
  rw [hext, hint]
  split_ifs <;> omega

theorem readLen_of_neg {size offset : ℕ} (hs : size ≤ 4096) (ho : offset ≤ size) {c : BitVec 32}
    (h : c.toInt < 0) :
    readLen size offset c = if 0 ≤ offset + c.toInt then c.toInt else (size : ℤ) - offset := by
  have hsum := u64_neg (ho.trans hs) h
  have hlow := BitVec.le_toInt (x := c)
  unfold readLen
  split_ifs at hsum ⊢ with hfull hin
  · omega
  · rw [toInt32_of_lt (by omega)]
    omega
  · rfl
  · omega

theorem writeLen_of_neg {offset : ℕ} (ho : offset ≤ 4096) {c : BitVec 32} (h : c.toInt < 0) :
    writeLen offset c = if 0 ≤ offset + c.toInt then c.toInt else (4096 : ℤ) - offset := by
  have hsum := u64_neg ho h
  have hlow := BitVec.le_toInt (x := c)
  unfold writeLen
  rw [writeLen_room ho]
  split_ifs at hsum ⊢ with hfull hin
  · omega
  · rfl
  · rfl
  · omega

theorem onRegular_of {fs : Ramfs} {cur : Pcb} {fd : ℤ} {f n : ℕ} (hf : fdFile cur fd = some f)
    (hn : (fs.globalFileTable f).node = some n) {cond : File → RamfsNode → Prop}
    (h : (fs.files n).type ≠ .dir → cond (fs.globalFileTable f) (fs.files n)) :
    fs.OnRegular cur fd cond := by
  intro g m hg hm ht
  obtain rfl := Option.some.inj (hf.symm.trans hg)
  obtain rfl := Option.some.inj (hn.symm.trans hm)
  exact h ht

section Bounds

variable {fs fs' : Ramfs} (hI : FsOk fs) {cur : Pcb} {fd : ℤ} {c : BitVec 32} {ret : ℤ}

include hI

theorem ramfsRead_bounded_iff {data : List UInt8}
    (h : fs.ramfsRead cur fd c = some (ret, data, fs')) :
    (data.length ≤ c.toInt.toNat ∧ (c.toInt ≤ 0 → fs' = fs))
      ↔ 0 < c.toInt
        ∨ fs.OnRegular cur fd fun f n => 0 ≤ f.offset + c.toInt ∨ n.size ≤ f.offset := by
  have hsame : data = [] → fs' = fs → data.length ≤ c.toInt.toNat ∧ (c.toInt ≤ 0 → fs' = fs) :=
    fun hd hfs => ⟨by simp [hd], fun _ => hfs⟩
  cases ramfsRead_ends h with
  | noFile hf =>
    exact ⟨fun _ => .inr fun g n hg => by simp [hf] at hg, fun _ => hsame rfl rfl⟩
  | dir f n hf hn hdir =>
    exact ⟨fun _ => .inr (onRegular_of hf hn fun ht => absurd hdir ht), fun _ => hsame rfl rfl⟩
  | atEnd f n hf hn hdir hend =>
    exact ⟨fun _ => .inr (onRegular_of hf hn fun _ => .inr hend), fun _ => hsame rfl rfl⟩
  | nothing f n hf hn hdir hin hpos =>
    obtain ⟨hu, ho⟩ := hI.handles f n hn
    have hok := hI.nodes n hu
    rw [offsetBound, if_neg hdir] at ho
    refine ⟨fun _ => ?_, fun _ => hsame rfl rfl⟩
    by_cases hc : 0 < c.toInt
    · exact .inl hc
    · refine .inr (onRegular_of hf hn fun _ => ?_)
      by_cases hneg : c.toInt < 0
      · rw [readLen_of_neg hok.size_le ho hneg] at hpos
        split_ifs at hpos with hin
        · exact .inl hin
        · omega
      · omega
  | read f n bytes hf hn hdir hin hpos hb =>
    obtain ⟨hu, ho⟩ := hI.handles f n hn
    have hok := hI.nodes n hu
    rw [offsetBound, if_neg hdir] at ho
    have hle := readLen_le hok.size_le ho c
    have hpage := hok.page bytes hb
    have hlen : ((bytes.drop (fs.globalFileTable f).offset).take
        (readLen (fs.files n).size (fs.globalFileTable f).offset c).toNat).length
          = (readLen (fs.files n).size (fs.globalFileTable f).offset c).toNat := by
      have hsz := hok.size_le
      rw [List.length_take, List.length_drop]
      omega
    rw [hlen]
    by_cases hneg : c.toInt < 0
    · -- A negative count that does not wrap reads nothing.
      rw [readLen_of_neg hok.size_le ho hneg] at hpos ⊢
      split_ifs at hpos ⊢ with hin'
      · omega
      · refine ⟨fun hb => absurd hb.1 (by omega), fun hc => ?_⟩
        rcases hc with hc | hc
        · omega
        · rcases hc f n hf hn hdir with hc | hc
          · omega
          · omega
    · rw [readLen_of_nonneg hok.size_le ho (by omega)] at hpos ⊢
      exact ⟨fun _ => .inl (by omega), fun _ => ⟨by omega, fun hc => by omega⟩⟩

omit hI in
/-- A write stores nothing, whatever the buffer holds, or as many bytes of the buffer as it says. -/
theorem ramfsWrite_cases {buf : ℕ → UInt8} (h : fs.ramfsWrite cur fd buf c = some (ret, fs')) :
    (fs' = fs ∧ (∀ buf', fs.ramfsWrite cur fd buf' c = fs.ramfsWrite cur fd buf c)
        ∧ fs.OnRegular cur fd fun f n => n.content ≠ none → writeLen f.offset c ≤ 0)
      ∨ ∃ f n, fdFile cur fd = some f ∧ (fs.globalFileTable f).node = some n
        ∧ (fs.files n).type ≠ .dir ∧ (fs.files n).content ≠ none
        ∧ 0 < writeLen (fs.globalFileTable f).offset c
        ∧ (fs'.globalFileTable f).offset = u64 ((fs.globalFileTable f).offset
          + (writeLen (fs.globalFileTable f).offset c).toNat)
        ∧ ∀ buf', (∀ i < (writeLen (fs.globalFileTable f).offset c).toNat, buf' i = buf i) →
          fs.ramfsWrite cur fd buf' c = fs.ramfsWrite cur fd buf c := by
  unfold ramfsWrite at h ⊢
  rcases hf : fdFile cur fd with _ | f <;> rw [hf] at h <;> dsimp only at h ⊢
  · exact .inl ⟨(Prod.mk.inj (Option.some.inj h)).2.symm, fun _ => rfl,
      fun g n hg => by simp [hf] at hg⟩
  obtain ⟨n, hn, h⟩ := Option.map_eq_some_iff.mp h
  simp only [hn, Option.map_some]
  by_cases hdir : (fs.files n).type = .dir
  · simp only [if_pos hdir] at h ⊢
    exact .inl ⟨(Prod.mk.inj h).2.symm, fun _ => trivial,
      onRegular_of hf hn fun ht => absurd hdir ht⟩
  simp only [if_neg hdir] at h ⊢
  rcases hb : (fs.files n).content with _ | bytes <;> simp only [hb] at h ⊢
  · exact .inl ⟨(Prod.mk.inj h).2.symm, fun _ => trivial,
      onRegular_of hf hn fun _ hc => absurd hb hc⟩
  by_cases hpos : writeLen (fs.globalFileTable f).offset c > 0
  · simp only [if_pos hpos] at h ⊢
    refine .inr ⟨f, n, rfl, hn, hdir, by simp [hb], hpos, ?_, fun buf' hbuf => ?_⟩
    · rw [← (Prod.mk.inj h).2]
      simp [setNode, setFile]
    · have hdata : (List.range (writeLen (fs.globalFileTable f).offset c).toNat).map buf'
          = (List.range (writeLen (fs.globalFileTable f).offset c).toNat).map buf :=
        List.map_congr_left fun i hi => hbuf i (List.mem_range.mp hi)
      rw [hdata]
  · simp only [if_neg hpos] at h ⊢
    exact .inl ⟨(Prod.mk.inj h).2.symm, fun _ => trivial,
      onRegular_of hf hn fun _ _ => not_lt.mp hpos⟩

theorem offset_le_page {f n : ℕ} (hn : (fs.globalFileTable f).node = some n)
    (hdir : (fs.files n).type ≠ .dir) : (fs.globalFileTable f).offset ≤ 4096 := by
  obtain ⟨hu, ho⟩ := hI.handles f n hn
  rw [offsetBound, if_neg hdir] at ho
  exact ho.trans (hI.nodes n hu).size_le

theorem ramfsWrite_same_iff {buf : ℕ → UInt8}
    (h : fs.ramfsWrite cur fd buf c = some (ret, fs')) :
    (c.toInt ≤ 0 → fs' = fs) ↔ 0 < c.toInt ∨ fs.OnRegular cur fd fun f n =>
      n.content ≠ none → 0 ≤ f.offset + c.toInt ∨ 4096 ≤ f.offset := by
  by_cases hc : 0 < c.toInt
  · exact ⟨fun _ => .inl hc, fun _ hc' => absurd hc (by omega)⟩
  rcases ramfsWrite_cases h with ⟨rfl, -, hzero⟩ | ⟨f, n, hf, hn, hdir, hb, hpos, hnew, -⟩
  · refine ⟨fun _ => .inr fun f n hf hn hdir hb => ?_, fun _ _ => rfl⟩
    have hlen := hzero f n hf hn hdir hb
    by_cases hneg : c.toInt < 0
    · rw [writeLen_of_neg (offset_le_page hI hn hdir) hneg] at hlen
      split_ifs at hlen with hin
      · exact .inl hin
      · omega
    · omega
  · have ho := offset_le_page hI hn hdir
    have hroom := writeLen_le ho c
    rw [u64_of_lt (by omega)] at hnew
    refine ⟨fun hsame => ?_, fun hcov _ => ?_⟩
    · rw [hsame (by omega)] at hnew
      omega
    · -- Something is written, so the count is negative and the sum has wrapped.
      by_cases hneg : c.toInt < 0
      · rw [writeLen_of_neg ho hneg] at hpos
        split_ifs at hpos with hin
        · omega
        · have := hcov.resolve_left hc f n hf hn hdir hb
          omega
      · rw [writeLen_of_nonneg ho (by omega)] at hpos
        omega

theorem ramfsWrite_taken {buf : ℕ → UInt8} (h : fs.ramfsWrite cur fd buf c = some (ret, fs'))
    (hcov : 0 < c.toInt ∨ fs.OnRegular cur fd fun f n =>
      n.content ≠ none → 0 ≤ f.offset + c.toInt ∨ 4096 ≤ f.offset) {buf' : ℕ → UInt8}
    (hbuf' : ∀ i < c.toInt.toNat, buf' i = buf i) :
    fs.ramfsWrite cur fd buf' c = fs.ramfsWrite cur fd buf c := by
  rcases ramfsWrite_cases h with ⟨-, hbuf, -⟩ | ⟨f, n, hf, hn, hdir, hb, hpos, hnew, hbuf⟩
  · exact hbuf buf'
  · have ho := offset_le_page hI hn hdir
    by_cases hneg : c.toInt < 0
    · have hroom := writeLen_le ho c
      have hsame := (ramfsWrite_same_iff hI h).mpr hcov hneg.le
      rw [hsame, u64_of_lt (by omega)] at hnew
      omega
    · rw [writeLen_of_nonneg ho (by omega)] at hbuf
      exact hbuf buf' fun i hi => hbuf' i (by omega)

end Bounds

end Ramfs

/-! ## System calls -/

/-- `SYS_READ` keeps to the caller's count. -/
structure ReadBounded (fs : Ramfs) (count : ℤ) (r : ReadResult) : Prop where
  stored : r.stored.length ≤ count.toNat
  none : count ≤ 0 → r.fs = fs

/-- `SYS_WRITE` keeps to the caller's count: it depends on that many bytes of the buffer only. -/
structure WriteBounded (fs : Ramfs) (cur : Pcb) (dev : Devices) (arg1 : BitVec 64)
    (buf : ℕ → UInt8) (arg3 : BitVec 64) (r : WriteResult) : Prop where
  taken : ∀ buf', (∀ i < (intArg arg3).toInt.toNat, buf' i = buf i) →
    sysWrite fs cur dev arg1 buf' arg3 = some r
  none : (intArg arg3).toInt ≤ 0 → r.fs = fs

/-- A count that is not positive meets no key, or a file whose offset takes it up or is at the
end. -/
def ReadCovered (fs : Ramfs) (cur : Pcb) (dev : Devices) (arg1 : BitVec 64) (count : ℤ) : Prop :=
  0 < count ∨ if arg1 = 0 then dev.keyboard.getChar.1 = 0 else
    fs.OnRegular cur (intArg arg1).toInt fun f n => 0 ≤ f.offset + count ∨ n.size ≤ f.offset

/-- A count that is not positive meets a file without content, or an offset that takes it up or is
at the end of the page. -/
def WriteCovered (fs : Ramfs) (cur : Pcb) (arg1 : BitVec 64) (count : ℤ) : Prop :=
  0 < count ∨ fs.OnRegular cur (intArg arg1).toInt fun f n =>
    n.content ≠ none → 0 ≤ f.offset + count ∨ 4096 ≤ f.offset

theorem readBounded_iff {fs : Ramfs} (hI : Ramfs.FsOk fs) {cur : Pcb} {dev : Devices}
    {arg1 arg3 : BitVec 64} {r : ReadResult} (h : sysRead fs cur dev arg1 arg3 = some r) :
    ReadBounded fs (intArg arg3).toInt r
      ↔ ReadCovered fs cur dev arg1 (intArg arg3).toInt := by
  unfold sysRead at h
  unfold ReadCovered
  by_cases hin : arg1 = 0
  · simp only [if_pos hin] at h ⊢
    split_ifs at h with hkey
    · obtain rfl := Option.some.inj h
      refine ⟨fun hb => .inl ?_, fun hc => ?_⟩
      · have := hb.stored
        simp only [List.length_singleton] at this
        omega
      · have hc := hc.resolve_right hkey
        exact ⟨by simp only [List.length_singleton]; omega, fun _ => rfl⟩
    · obtain rfl := Option.some.inj h
      exact ⟨fun _ => .inr (not_not.mp hkey), fun _ => ⟨by simp, fun _ => rfl⟩⟩
  · rw [if_neg hin] at h ⊢
    obtain ⟨⟨ret, data, fs'⟩, hr, rfl⟩ := Option.map_eq_some_iff.mp h
    rw [← Ramfs.ramfsRead_bounded_iff hI hr]
    exact ⟨fun hb => ⟨hb.stored, hb.none⟩, fun hb => ⟨hb.1, hb.2⟩⟩

theorem writeBounded_iff {fs : Ramfs} (hI : Ramfs.FsOk fs) {cur : Pcb} {dev : Devices}
    {arg1 arg3 : BitVec 64} (harg : ¬ (arg1 = 1 ∨ arg1 = 2)) {buf : ℕ → UInt8} {r : WriteResult}
    (h : sysWrite fs cur dev arg1 buf arg3 = some r) :
    WriteBounded fs cur dev arg1 buf arg3 r ↔ WriteCovered fs cur arg1 (intArg arg3).toInt := by
  have hsys : ∀ buf', sysWrite fs cur dev arg1 buf' arg3
      = (fs.ramfsWrite cur (intArg arg1).toInt buf' (intArg arg3)).map fun r =>
        ⟨BitVec.ofInt 64 r.1, r.2, dev⟩ := fun buf' => if_neg harg
  rw [hsys] at h
  obtain ⟨⟨ret, fs'⟩, hw, rfl⟩ := Option.map_eq_some_iff.mp h
  have hiff := Ramfs.ramfsWrite_same_iff hI hw
  refine ⟨fun hb => hiff.mp hb.none, fun hcov => ⟨fun buf' hbuf => ?_, hiff.mpr hcov⟩⟩
  rw [hsys, Ramfs.ramfsWrite_taken hI hw hcov hbuf, hw]
  rfl

namespace Sys

/-- In every reachable state, whatever the keyboard holds, `SYS_READ`, and `SYS_WRITE` to a file,
keep to the caller's count exactly when it is positive, or there is no key, or the offset takes it
up or leaves nothing to move. -/
theorem transfers_bounded (s₀ : Sched) (idle : ℕ) (ops : List (ℕ × SysOp))
    {s₁ : Sched} {s : Sys} (hinit : s₀.procInit idle = some s₁)
    (h : Run.run step (start s₁) ops = some s) (p : ℕ) (dev : Devices)
    (arg1 arg3 : BitVec 64) :
    (∀ r, sysRead s.fs (s.pcb p) dev arg1 arg3 = some r →
        (ReadBounded s.fs (intArg arg3).toInt r
          ↔ ReadCovered s.fs (s.pcb p) dev arg1 (intArg arg3).toInt))
      ∧ ∀ buf r, ¬ (arg1 = 1 ∨ arg1 = 2) → sysWrite s.fs (s.pcb p) dev arg1 buf arg3 = some r →
        (WriteBounded s.fs (s.pcb p) dev arg1 buf arg3 r
          ↔ WriteCovered s.fs (s.pcb p) arg1 (intArg arg3).toInt) := by
  have hI : SysInv s := Run.run_invariant step_inv (start_inv hinit) h
  exact ⟨fun r => readBounded_iff hI.fsOk, fun buf r harg => writeBounded_iff hI.fsOk harg⟩

/-- A console of 25 rows and 80 columns, and the key `a` pressed. -/
def keyPressed : Devices :=
  Devices.keyboardHandler
    ⟨Keyboard.init, ⟨fun _ _ => 0, 0, 0, 0, 25, 80, fun _ _ => 32⟩⟩ 0x1E

/-- Ten bytes have been read: the offset takes up a count of -1. -/
def readSomeOps : List (ℕ × SysOp) :=
  openPathOps (ascii "/usr/shell.c") ++ [(2, .call (.read 3 10))]

theorem transfers_bounded_readSomeOps :
    ∃ s₁ s r, Sched.boot.procInit 1 = some s₁ ∧ Run.run step (start s₁) readSomeOps = some s
      ∧ sysRead s.fs (s.pcb 2) keyPressed 3 (BitVec.ofInt 64 (-1)) = some r
      ∧ r.ret = -1 ∧ ReadBounded s.fs (-1) r := by
  have h : ((Sched.boot.procInit 1).bind fun s => Run.run step (start s) readSomeOps).map
      (fun s => ((sysRead s.fs (s.pcb 2) keyPressed 3 (BitVec.ofInt 64 (-1))).map fun r => r.ret,
        Ramfs.fdFile (s.pcb 2) 3, (s.fs.globalFileTable 0).offset))
      = some (some (-1), some 0, 10) := by
    decide +kernel
  obtain ⟨s₁, s, h₁, hr, he⟩ := Run.exists_of_eval h
  obtain ⟨hread, hfd, hoff⟩ : _ ∧ _ ∧ _ := by simpa only [Prod.mk.injEq] using he
  obtain ⟨r, hread, hret⟩ := Option.map_eq_some_iff.mp hread
  refine ⟨s₁, s, r, h₁, hr, hread, hret, ((transfers_bounded Sched.boot 1 readSomeOps h₁ hr 2
    keyPressed 3 (BitVec.ofInt 64 (-1))).1 r hread).mpr (.inr ?_)⟩
  rw [if_neg (by decide)]
  intro f n hf _ _
  obtain rfl := Option.some.inj (hf.symm.trans hfd)
  rw [hoff]
  exact .inl (by decide)

/-- A count of -1 reads the whole file, and one of 0 reads a key. -/
theorem transfers_exceed :
    ∃ s₁ s r r', Sched.boot.procInit 1 = some s₁
      ∧ Run.run step (start s₁) (openPathOps (ascii "/usr/shell.c")) = some s
      ∧ 2 ∈ s.procList
      ∧ sysRead s.fs (s.pcb 2) keyPressed 3 (BitVec.ofInt 64 (-1)) = some r
      ∧ r.stored.length = 39 ∧ ¬ ReadBounded s.fs (-1) r
      ∧ sysRead s.fs (s.pcb 2) keyPressed 0 0 = some r'
      ∧ r'.stored = ascii "a" ∧ ¬ ReadBounded s.fs 0 r' := by
  have h : ((Sched.boot.procInit 1).bind fun s =>
      Run.run step (start s) (openPathOps (ascii "/usr/shell.c"))).map
      (fun s => (s.procList, (sysRead s.fs (s.pcb 2) keyPressed 3 (BitVec.ofInt 64 (-1))).map
        fun r => r.stored.length, (sysRead s.fs (s.pcb 2) keyPressed 0 0).map
        fun r => r.stored)) = some ([2, 1], some 39, some (ascii "a")) := by
    decide +kernel
  obtain ⟨s₁, s, h₁, hr, he⟩ := Run.exists_of_eval h
  simp only [Prod.mk.injEq] at he
  obtain ⟨hl, hfile, hkey⟩ := he
  obtain ⟨r, hfile, hlen⟩ := Option.map_eq_some_iff.mp hfile
  obtain ⟨r', hkey, hchar⟩ := Option.map_eq_some_iff.mp hkey
  refine ⟨s₁, s, r, r', h₁, hr, by simp [hl], hfile, hlen, fun hb => ?_, hkey, hchar, fun hb => ?_⟩
  · have := hb.stored
    rw [hlen] at this
    exact absurd this (by decide)
  · have := hb.stored
    rw [hchar] at this
    exact absurd this (by decide)

end Sys

end SudoOS
