import SudoOS.Proofs.Elf
import SudoOS.UserHeap

/-!
# Safety of the user heap

Blocks are cut off at the break one after the other, so they tile what lies between the first break
and the current one; all but a block at address zero, which `head` and `tail` take for `NULL`, are
linked in that order. A block is given out again only after it has been released.

`malloc` adds the header to the size without a check. A run is safe as long as no request that has
to ask for a new break takes the sum beyond the last address (`user_heap_safe`); otherwise the sum
wraps, and the block reaches beyond the break (`malloc_wraps`).
-/

namespace SudoOS

open Tiling

namespace UserHeap

variable {h h' : UserHeap} {lo : ℕ} {bs : List ℕ}

/-- The bytes of a block, header included. -/
def width (h : UserHeap) (a : ℕ) : ℕ := userHeaderSize + (h.header a).size

theorem width_pos (h : UserHeap) (a : ℕ) : 0 < h.width a := by
  unfold width userHeaderSize
  omega

/-- The blocks linked from `p` on. -/
def Path (h : UserHeap) : ℕ → List ℕ → Prop
  | p, [] => p = 0
  | p, a :: as => p = a ∧ a ≠ 0 ∧ Path h (h.header a).next as

theorem Path.congr : ∀ {as : List ℕ} {p : ℕ}, h.Path p as →
    (∀ a ∈ as, (h'.header a).next = (h.header a).next) → h'.Path p as
  | [], _, hp, _ => hp
  | a :: as, _, hp, hn => by
    refine ⟨hp.1, hp.2.1, ?_⟩
    rw [hn a List.mem_cons_self]
    exact Path.congr hp.2.2 fun b hb => hn b (List.mem_cons_of_mem _ hb)

/-- The last block is made to lead to a new one. -/
theorem Path.concat {t c : ℕ} (hc : c ≠ 0) (ht : (h'.header t).next = c)
    (hend : (h'.header c).next = 0) : ∀ {as : List ℕ} {p : ℕ}, h.Path p (as ++ [t]) →
    (∀ a ∈ as, (h'.header a).next = (h.header a).next) → h'.Path p (as ++ [t] ++ [c])
  | [], _, hp, _ => ⟨hp.1, hp.2.1, ht, hc, hend⟩
  | a :: as, _, hp, hn => by
    refine ⟨hp.1, hp.2.1, ?_⟩
    rw [hn a List.mem_cons_self]
    exact Path.concat hc ht hend hp.2.2 fun b hb => hn b (List.mem_cons_of_mem _ hb)

def fits (h : UserHeap) (size a : ℕ) : Bool :=
  (h.header a).free && decide ((h.header a).size ≥ size)

theorem search_path {size : ℕ} : ∀ {as : List ℕ} {fuel p : ℕ}, h.Path p as → as.length < fuel →
    h.search size fuel p = some ((as.find? (h.fits size)).getD 0)
  | _, 0, _, _, hlt => absurd hlt (Nat.not_lt_zero _)
  | [], fuel + 1, p, hp, _ => by
    have hp : p = 0 := hp
    simp [search, hp]
  | a :: as, fuel + 1, p, hp, hlt => by
    obtain ⟨rfl, h0, hp⟩ := hp
    have hrest : h.search size fuel (h.header p).next = some ((as.find? (h.fits size)).getD 0) :=
      search_path hp (Nat.lt_of_succ_lt_succ hlt)
    unfold search
    rw [if_neg h0, List.find?_cons]
    unfold fits
    rcases (h.header p).free && decide ((h.header p).size ≥ size) with _ | _
    · exact hrest
    · rfl

/-- The blocks, in the order of their addresses: they tile the heap, and those that are not at
address zero are linked. -/
structure Blocks (h : UserHeap) (lo : ℕ) (bs : List ℕ) : Prop where
  tiles : Tiles id h.width lo bs h.curBrk
  top : h.curBrk < 2 ^ 64
  path : h.Path h.head (bs.filter (· ≠ 0))
  last : h.tail = (bs.filter (· ≠ 0)).getLast?.getD 0

theorem Blocks.findFree_eq (hb : h.Blocks lo bs) (size : ℕ) :
    h.findFree size = some (((bs.filter (· ≠ 0)).find? (h.fits size)).getD 0) := by
  refine search_path hb.path ?_
  have := hb.tiles.length_le h.width_pos
  have := List.length_filter_le (· ≠ 0) bs
  have := hb.top
  omega

@[simp] theorem setHeader_header (h : UserHeap) (addr : ℕ) (f : UserHeader → UserHeader) (a : ℕ) :
    (h.setHeader addr f).header a = if a = addr then f (h.header addr) else h.header a := by
  simp [setHeader, Function.update_apply]

/-- The `free` field is no part of the structure. -/
theorem Blocks.setFree (hb : h.Blocks lo bs) (addr : ℕ) (b : Bool) :
    (h.setHeader addr fun c => { c with free := b }).Blocks lo bs := by
  have hsize : ∀ a, (h.setHeader addr fun c => { c with free := b }).width a = h.width a := by
    intro a
    unfold width
    rw [setHeader_header]
    split_ifs with ha
    · rw [ha]
    · rfl
  refine ⟨hb.tiles.congr fun a _ => hsize a, hb.top, hb.path.congr fun a _ => ?_, hb.last⟩
  rw [setHeader_header]
  split_ifs with ha
  · rw [ha]
  · rfl

/-- The heap once the break has moved up for a block of `size` bytes and the block is linked. -/
def grow (h : UserHeap) (size : ℕ) : UserHeap :=
  { h with curBrk := h.curBrk + (userHeaderSize + size) }.link h.curBrk size

theorem link_curBrk (h : UserHeap) (block size : ℕ) : (h.link block size).curBrk = h.curBrk := by
  unfold link setHeader
  dsimp only
  split_ifs <;> rfl

theorem link_tail (h : UserHeap) (block size : ℕ) : (h.link block size).tail = block := by
  unfold link
  rfl

theorem link_head (h : UserHeap) (block size : ℕ) :
    (h.link block size).head = if h.head = 0 then block else h.head := by
  unfold link setHeader
  dsimp only
  split_ifs <;> rfl

theorem link_header (h : UserHeap) (block size a : ℕ) :
    (h.link block size).header a =
      if h.tail ≠ 0 ∧ a = h.tail then
        { if a = block then ⟨size, 0, false⟩ else h.header a with next := block }
      else if a = block then ⟨size, 0, false⟩ else h.header a := by
  unfold link setHeader
  dsimp only
  by_cases h0 : h.head = 0 <;> by_cases ht : h.tail = 0 <;>
    simp [h0, ht, Function.update_apply] <;> split_ifs <;> simp_all

section Grow

theorem Blocks.lt_brk (hb : h.Blocks lo bs) {a : ℕ} (ha : a ∈ bs) : a < h.curBrk :=
  hb.tiles.start_lt h.width_pos ha

theorem Blocks.tail_mem (hb : h.Blocks lo bs) (ht : h.tail ≠ 0) : h.tail ∈ bs := by
  have hlast := hb.last
  rcases hg : (bs.filter (· ≠ 0)).getLast? with _ | t <;> rw [hg] at hlast
  · exact absurd hlast ht
  · have hmem := List.mem_of_getLast? hg
    rw [hlast]
    exact (List.mem_filter.mp hmem).1

theorem Blocks.header_grow (hb : h.Blocks lo bs) (size : ℕ) {a : ℕ} (ha : a ∈ bs) :
    ((h.grow size).header a).size = (h.header a).size
      ∧ ((h.grow size).header a).free = (h.header a).free := by
  have hne := (hb.lt_brk ha).ne
  unfold grow
  rw [link_header]
  split_ifs <;> simp_all

theorem Blocks.header_grow_new (hb : h.Blocks lo bs) (size : ℕ) :
    (h.grow size).header h.curBrk = ⟨size, 0, false⟩ := by
  unfold grow
  rw [link_header, if_neg, if_pos rfl]
  rintro ⟨ht, heq⟩
  exact absurd heq (hb.lt_brk (hb.tail_mem ht)).ne'

theorem Blocks.eq_nil (hb : h.Blocks lo bs) (hc : h.curBrk = 0) : bs = [] := by
  rcases bs with _ | ⟨a, bs⟩
  · rfl
  · have := hb.lt_brk List.mem_cons_self
    omega

theorem Blocks.path_grow (hb : h.Blocks lo bs) (size : ℕ) :
    (h.grow size).Path (h.grow size).head ((bs ++ [h.curBrk]).filter (· ≠ 0)) := by
  have hnew : ((h.grow size).header h.curBrk).next = 0 := by rw [hb.header_grow_new size]
  have hhead : (h.grow size).head = if h.head = 0 then h.curBrk else h.head := link_head _ _ _
  have hpath := hb.path
  have hlast := hb.last
  rw [List.filter_append]
  by_cases hc : h.curBrk = 0
  · rw [hb.eq_nil hc] at hpath ⊢
    have h0 : h.head = 0 := hpath
    simp [hhead, h0, hc, Path]
  have hcur : [h.curBrk].filter (· ≠ 0) = [h.curBrk] := by simp [hc]
  rw [hcur]
  rcases List.eq_nil_or_concat (bs.filter (· ≠ 0)) with hls | ⟨ls, t, hls⟩
  · rw [hls] at hpath ⊢
    have h0 : h.head = 0 := hpath
    rw [hhead, if_pos h0]
    exact ⟨rfl, hc, hnew⟩
  · rw [List.concat_eq_append] at hls
    have htail : h.tail = t := by
      rw [hlast, hls, List.getLast?_concat, Option.getD_some]
    have hmem : ∀ a ∈ ls ++ [t], a ∈ bs ∧ a ≠ 0 := by
      intro a ha
      rw [← hls, List.mem_filter] at ha
      exact ⟨ha.1, of_decide_eq_true ha.2⟩
    have ht0 : h.tail ≠ 0 := htail ▸ (hmem t (by simp)).2
    have hsorted : (ls ++ [t]).Pairwise (· < ·) :=
      hls ▸ (hb.tiles.pairwise_lt h.width_pos).filter _
    rw [hls] at hpath ⊢
    have hne : h.head ≠ 0 := by
      rcases ls with _ | ⟨a, ls⟩
      · exact hpath.1 ▸ hpath.2.1
      · exact hpath.1 ▸ hpath.2.1
    rw [hhead, if_neg hne]
    refine hpath.concat hc ?_ hnew fun a ha => ?_
    · unfold UserHeap.grow
      rw [link_header, if_pos ⟨ht0, htail.symm⟩]
    · have hat : a < t := (List.pairwise_append.mp hsorted).2.2 a ha t (by simp)
      have hac := hb.lt_brk (hmem a (by simp [ha])).1
      unfold UserHeap.grow
      rw [link_header, if_neg (fun heq => (heq.2.trans htail ▸ hat).false), if_neg hac.ne]

theorem Blocks.grow (hb : h.Blocks lo bs) {size : ℕ}
    (hroom : h.curBrk + userHeaderSize + size < 2 ^ 64) :
    (h.grow size).Blocks lo (bs ++ [h.curBrk]) := by
  have hbrk : (h.grow size).curBrk = h.curBrk + (userHeaderSize + size) := link_curBrk _ _ _
  have hnew := hb.header_grow_new size
  refine ⟨?_, ?_, ?_, ?_⟩
  · rw [hbrk]
    refine tiles_append.mpr ⟨h.curBrk, ?_, rfl, ?_⟩
    · refine hb.tiles.congr fun a ha => ?_
      unfold width
      rw [(hb.header_grow size ha).1]
    · simp only [Tiles, width, hnew]
  · rw [hbrk]
    omega
  · exact hb.path_grow size
  · unfold UserHeap.grow
    rw [link_tail, List.filter_append]
    by_cases hc : h.curBrk = 0
    · simp [hc, hb.eq_nil hc]
    · simp [hc]

end Grow

/-! ## Calls -/

theorem sbrk_eq {inc : ℕ} (h : UserHeap) (moved : Bool) (hpos : 0 < inc)
    (hroom : h.curBrk + inc < 2 ^ 64) :
    h.sbrk moved inc =
      if moved then (h.curBrk, h.curBrk + inc) else (sbrkFailed, h.curBrk) := by
  have hcur : h.curBrk ≠ sbrkFailed := by
    unfold sbrkFailed
    omega
  have hwrap := u64_of_lt hroom
  unfold sbrk brk
  cases moved <;> simp [hcur, hpos.ne', hwrap]

/-- `SYS_BRK` is a `brk` of this kind. -/
theorem sysBrk_eq_brk (h : UserHeap) {k k' : Kernel} {mm addr ret : ℕ}
    (hcur : h.curBrk = (k.mms mm).heap) (hs : k.sysBrk mm addr = some (ret, k')) :
    ∃ moved, ret = h.brk moved addr ∧ (k'.mms mm).heap = ret := by
  rcases sysBrk_cases hs with ⟨rfl, rfl⟩ | ⟨hlt, ok, k₁, hmap, hres⟩
  · refine ⟨false, ?_, rfl⟩
    simp [brk, hcur]
  · obtain ⟨l, n, hmm⟩ := mmMapRange_mms hmap mm
    rcases hres with ⟨-, rfl, rfl⟩ | ⟨-, rfl, rfl⟩
    · refine ⟨false, by simp [brk, hcur], ?_⟩
      rw [hmm]
    · refine ⟨true, ?_, by rw [Kernel.setMm_self]⟩
      simp [brk, show ret ≠ 0 by omega]

/-- `malloc` returns, with nothing changed, with a block released before, or with a new one. -/
theorem Blocks.malloc_cases (hb : h.Blocks lo bs) {size : ℕ} (moved : Bool)
    (hok : size ≠ 0 → h.findFree size = some 0 → h.curBrk + userHeaderSize + size < 2 ^ 64) :
    ∃ p h', h.malloc size moved = some (p, h')
      ∧ ((p = 0 ∧ h' = h)
        ∨ (∃ a ∈ bs, (h.header a).free = true ∧ size ≤ (h.header a).size
          ∧ p = a + userHeaderSize ∧ h' = h.setHeader a fun b => { b with free := false })
        ∨ (p = h.curBrk + userHeaderSize ∧ h.curBrk + userHeaderSize + size < 2 ^ 64
          ∧ h' = h.grow size)) := by
  unfold malloc
  by_cases h0 : size = 0
  · exact ⟨0, h, by rw [if_pos h0], .inl ⟨rfl, rfl⟩⟩
  rw [if_neg h0]
  have hfind := hb.findFree_eq size
  rcases hf : (bs.filter (· ≠ 0)).find? (h.fits size) with _ | a <;> rw [hf] at hfind
  · have hroom := hok h0 hfind
    rw [Option.getD_none] at hfind
    rw [hfind]
    dsimp only
    unfold userHeaderSize at hroom ⊢
    rw [u64_of_lt (n := 24 + size) (by omega), sbrk_eq h moved (by omega) (by omega)]
    cases moved with
    | false => exact ⟨0, h, rfl, .inl ⟨rfl, rfl⟩⟩
    | true =>
      have hcur : h.curBrk ≠ sbrkFailed := by
        unfold sbrkFailed
        omega
      refine ⟨h.curBrk + 24, h.grow size, ?_, .inr (.inr ⟨rfl, hroom, rfl⟩)⟩
      simp only [↓reduceIte, if_neg hcur]
      rw [u64_of_lt (by omega)]
      rfl
  · obtain ⟨hmem, hne⟩ := List.mem_filter.mp (List.mem_of_find?_eq_some hf)
    have hfit := List.find?_some hf
    unfold fits at hfit
    simp only [Bool.and_eq_true, decide_eq_true_eq] at hfit hne
    have hend := (hb.tiles.within hmem).2
    have htop := hb.top
    refine ⟨a + userHeaderSize, _, ?_, .inr (.inl ⟨a, hmem, hfit.1, hfit.2, rfl, rfl⟩)⟩
    rw [Option.getD_some] at hfind
    rw [hfind]
    obtain ⟨a, rfl⟩ := Nat.exists_eq_add_one_of_ne_zero hne
    have hwrap : u64 (a + 1 + userHeaderSize) = a + 1 + userHeaderSize := by
      unfold width at hend
      dsimp only [id] at hend
      exact u64_of_lt (by omega)
    simp only [hwrap]

end UserHeap

/-! ## Programs -/

/-- Live payloads lie between the first break and the current one, and with their headers apart
from each other. -/
structure UserHeapSafe (lo : ℕ) (s : UserHeapRun) : Prop where
  inside : ∀ a ∈ s.live, lo + userHeaderSize ≤ a.1 ∧ a.1 + a.2 ≤ s.heap.curBrk
  apart : s.live.Pairwise fun a b =>
    a.1 + a.2 + userHeaderSize ≤ b.1 ∨ b.1 + b.2 + userHeaderSize ≤ a.1

/-- A request that no block can meet ends, with its header above the break, below the last
address. -/
def RequestOk (s : UserHeapRun) : UserHeapOp → Prop
  | .malloc size _ => size ≠ 0 → s.heap.findFree size = some 0 →
    s.heap.curBrk + userHeaderSize + size < 2 ^ 64
  | .free _ => True

instance (s : UserHeapRun) : (op : UserHeapOp) → Decidable (RequestOk s op)
  | .malloc _ _ => inferInstanceAs (Decidable (_ → _ → _))
  | .free _ => isTrue trivial

/-- A block in use has its payload at `a.1`, of at least `a.2` bytes. -/
def UserHeap.Holds (h : UserHeap) (bs : List ℕ) (a : ℕ × ℕ) : Prop :=
  ∃ b ∈ bs, a.1 = b + userHeaderSize ∧ a.2 ≤ (h.header b).size ∧ (h.header b).free = false

structure UserHeapInv (lo : ℕ) (s : UserHeapRun) : Prop where
  blocks : ∃ bs, s.heap.Blocks lo bs ∧ ∀ a ∈ s.live, s.heap.Holds bs a
  distinct : (s.live.map Prod.fst).Nodup

theorem UserHeapInv.safe {lo : ℕ} {s : UserHeapRun} (h : UserHeapInv lo s) :
    UserHeapSafe lo s := by
  obtain ⟨bs, hb, hheld⟩ := h.blocks
  refine ⟨fun a ha => ?_, ?_⟩
  · obtain ⟨b, hmem, hab, hsize, -⟩ := hheld a ha
    have := hb.tiles.within hmem
    unfold UserHeap.width at this
    dsimp only [id] at this
    omega
  · have hpw : s.live.Pairwise fun a b => a.1 ≠ b.1 := List.pairwise_map.mp h.distinct
    refine hpw.imp_of_mem fun {a b} ha hb' hne => ?_
    obtain ⟨c, hc, hac, hcs, -⟩ := hheld a ha
    obtain ⟨d, hd, hbd, hds, -⟩ := hheld b hb'
    have := hb.tiles.apart hc hd
    unfold UserHeap.width at this
    dsimp only [id] at this
    omega

theorem UserHeap.Holds.grow {h : UserHeap} {lo size : ℕ} {bs : List ℕ} {a : ℕ × ℕ}
    (hb : h.Blocks lo bs) (ha : h.Holds bs a) : (h.grow size).Holds (bs ++ [h.curBrk]) a := by
  obtain ⟨b, hmem, hab, hsize, hfree⟩ := ha
  obtain ⟨hs, hf⟩ := hb.header_grow size hmem
  exact ⟨b, by simp [hmem], hab, hs ▸ hsize, hf.trans hfree⟩

theorem UserHeap.Holds.setFree {h : UserHeap} {bs : List ℕ} {a : ℕ × ℕ} {addr : ℕ} {f : Bool}
    (ha : h.Holds bs a) (hne : a.1 ≠ addr + userHeaderSize) :
    (h.setHeader addr fun c => { c with free := f }).Holds bs a := by
  obtain ⟨b, hmem, hab, hsize, hfree⟩ := ha
  have hb : b ≠ addr := fun h => hne (h ▸ hab)
  exact ⟨b, hmem, hab, by simpa [hb] using hsize, by simpa [hb] using hfree⟩

/-- A new allocation besides the live ones. -/
theorem UserHeapInv.cons {lo p size : ℕ} {h : UserHeap} {live : List (ℕ × ℕ)} {bs : List ℕ}
    (hb : h.Blocks lo bs) (hheld : ∀ a ∈ live, h.Holds bs a ∧ a.1 ≠ p)
    (hnew : h.Holds bs (p, size)) (hnd : (live.map Prod.fst).Nodup) :
    UserHeapInv lo ⟨h, (p, size) :: live⟩ := by
  refine ⟨⟨bs, hb, fun a ha => ?_⟩, List.nodup_cons.mpr ⟨fun hin => ?_, hnd⟩⟩
  · rcases List.mem_cons.mp ha with rfl | ha
    · exact hnew
    · exact (hheld a ha).1
  · obtain ⟨a, ha, hap⟩ := List.mem_map.mp hin
    exact (hheld a ha).2 hap

theorem userHeapStep_inv {lo : ℕ} (s : UserHeapRun) (op : UserHeapOp) (s' : UserHeapRun)
    (hI : UserHeapInv lo s) (hok : RequestOk s op) (h : userHeapStep s op = some s') :
    UserHeapInv lo s' := by
  obtain ⟨bs, hb, hheld⟩ := hI.blocks
  cases op with
  | malloc size moved =>
    obtain ⟨p, h', hm, hcases⟩ := hb.malloc_cases moved hok
    simp only [userHeapStep, hm, Option.map_some, Option.some.injEq] at h
    subst h
    rcases hcases with ⟨rfl, rfl⟩ | ⟨b, hmem, hfree, hsize, rfl, rfl⟩ | ⟨rfl, hroom, rfl⟩
    · simpa using hI
    · have hp : b + userHeaderSize ≠ 0 := by simp [userHeaderSize]
      rw [if_neg hp]
      have hne : ∀ a ∈ s.live, a.1 ≠ b + userHeaderSize := by
        intro a ha heq
        obtain ⟨c, -, hac, -, hf⟩ := hheld a ha
        have hcb : c = b := by omega
        rw [hcb, hfree] at hf
        cases hf
      refine UserHeapInv.cons (hb.setFree b false)
        (fun a ha => ⟨(hheld a ha).setFree (hne a ha), hne a ha⟩) ?_ hI.distinct
      exact ⟨b, hmem, rfl, by simpa using hsize, by simp⟩
    · have hp : s.heap.curBrk + userHeaderSize ≠ 0 := by simp [userHeaderSize]
      rw [if_neg hp]
      refine UserHeapInv.cons (hb.grow hroom) (fun a ha => ⟨(hheld a ha).grow hb, ?_⟩) ?_
        hI.distinct
      · obtain ⟨c, hc, hac, -⟩ := hheld a ha
        have := hb.lt_brk hc
        omega
      · have hnew := hb.header_grow_new size
        exact ⟨s.heap.curBrk, by simp, rfl, by rw [hnew], by rw [hnew]⟩
  | free ptr =>
    unfold userHeapStep at h
    dsimp only at h
    split_ifs at h with hin
    simp only [Option.some.injEq] at h
    subst h
    obtain ⟨a, ha, rfl⟩ := List.mem_map.mp hin
    obtain ⟨b, hmem, hab, -, -⟩ := hheld a ha
    have hfree : s.heap.free a.1 = s.heap.setHeader b fun c => { c with free := true } := by
      unfold UserHeap.free
      rw [hab, u64Sub_of_le (by omega), Nat.add_sub_cancel, if_neg (by simp [userHeaderSize])]
    refine ⟨⟨bs, ?_, fun d hd => ?_⟩, ?_⟩
    · dsimp only
      rw [hfree]
      exact hb.setFree b true
    · dsimp only at hd ⊢
      rw [hfree]
      refine (hheld d (List.mem_of_mem_eraseP hd)).setFree fun hdb => ?_
      have hd' : d.1 ∈ (s.live.map Prod.fst).erase a.1 := by
        rw [← map_fst_eraseP]
        exact List.mem_map_of_mem hd
      exact (hI.distinct.mem_erase_iff.mp hd').1 (hdb.trans hab.symm)
    · dsimp only
      rw [map_fst_eraseP]
      exact hI.distinct.erase _

/-- In every run whose requests stay below the last address the live allocations are safe, and
whatever is requested next, `malloc` returns. -/
theorem user_heap_safe (header : ℕ → UserHeader) {brk : ℕ} (hbrk : brk < 2 ^ 64)
    (ops : List UserHeapOp) {s : UserHeapRun}
    (hok : Run.Meets userHeapStep RequestOk (userHeapInit header brk) ops)
    (h : Run.run userHeapStep (userHeapInit header brk) ops = some s) :
    UserHeapSafe brk s
      ∧ ∀ size moved, RequestOk s (.malloc size moved) → (s.heap.malloc size moved).isSome := by
  have hI : UserHeapInv brk (userHeapInit header brk) :=
    ⟨⟨[], ⟨rfl, hbrk, rfl, rfl⟩, by simp [userHeapInit]⟩, List.nodup_nil⟩
  have hs := Run.run_invariant_of_meets userHeapStep_inv hI hok h
  refine ⟨hs.safe, fun size moved hreq => ?_⟩
  obtain ⟨bs, hb, -⟩ := hs.blocks
  obtain ⟨p, h', hm, -⟩ := hb.malloc_cases moved hreq
  rw [hm]
  rfl

/-- A request that reuses a block, and one that moves the break. -/
def smallUserHeapOps : List UserHeapOp :=
  [.malloc 16 true, .malloc 32 true, .free 0x1040, .malloc 8 true, .malloc 100 true]

theorem user_heap_safe_small :
    ∃ s, Run.run userHeapStep (userHeapInit (fun _ => ⟨0, 0, false⟩) 0x1000) smallUserHeapOps
        = some s ∧ UserHeapSafe 0x1000 s := by
  obtain ⟨s, hs, -⟩ := Option.map_eq_some_iff.mp (show (Run.run userHeapStep
    (userHeapInit (fun _ => ⟨0, 0, false⟩) 0x1000) smallUserHeapOps).map (fun s => s.heap.curBrk)
      = some 0x10DC by decide +kernel)
  exact ⟨s, hs, (user_heap_safe (fun _ => ⟨0, 0, false⟩) (by decide) smallUserHeapOps
    (by decide +kernel) hs).1⟩

/-- The header and a size of `2 ^ 64 - 24` bytes add up to zero: nothing is asked for. -/
theorem malloc_wraps :
    ∃ s, Run.run userHeapStep (userHeapInit (fun _ => ⟨0, 0, false⟩) 0x1000)
        [.malloc 16 true, .malloc (2 ^ 64 - 24) true] = some s ∧ ¬ UserHeapSafe 0x1000 s := by
  obtain ⟨s, hs, hlive⟩ := Option.map_eq_some_iff.mp (show (Run.run userHeapStep
    (userHeapInit (fun _ => ⟨0, 0, false⟩) 0x1000)
      [.malloc 16 true, .malloc (2 ^ 64 - 24) true]).map (fun s => (s.live, s.heap.curBrk))
      = some ([(0x1040, 2 ^ 64 - 24), (0x1018, 16)], 0x1028) by decide +kernel)
  simp only [Prod.mk.injEq] at hlive
  refine ⟨s, hs, fun hsafe => ?_⟩
  have hin := (hsafe.inside (0x1040, 2 ^ 64 - 24) (by rw [hlive.1]; simp)).2
  rw [hlive.2] at hin
  exact absurd hin (by decide)

end SudoOS
