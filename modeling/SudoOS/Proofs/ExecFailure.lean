import SudoOS.Proofs.DeepCopy
import SudoOS.Proofs.Execve
import SudoOS.Proofs.MapFailure

/-!
# What a failing `execve` leaves

`do_execve` loads the new image into the address space that its caller runs in, and undoes nothing.
So when it returns -1 the caller is as before exactly if `load_elf` has entered no area: it has not
been called, the file has no segment to load, or the request for the first one fails before it has
its area (`failing_execve`). A process without an address space does not come that far: `load_elf`
faults there.
-/

namespace SudoOS

open Ramfs

/-! ## Areas that a load enters -/

namespace Kernel

/-- A request of `size` bytes fails before it has an area. -/
def NoArea (k : Kernel) (size : ℕ) : Prop :=
  size = 0 ∨ (k.heap.firstFit vmaStructSize = none
    ∧ ((k.pmm.pmmAllocPage).1 = 0 ∨ ¬ KMem.TailFree k.heap.kheapList))

/-- `load_elf` enters no area: there is none for the first segment that it loads. -/
def EntersNone (k : Kernel) (elf : ℕ → UInt8) : Prop :=
  Elf.magic elf = true → ∀ i < Elf.ePhnum elf, Elf.pType elf i = Elf.ptLoad →
    (∀ j < i, Elf.pType elf j ≠ Elf.ptLoad) → k.NoArea (Elf.pMemsz elf i)

/-- From `k` to `k'` the kernel has changed its own memory only. -/
structure Quiet (live : List ℕ) (k k' : Kernel) : Prop where
  kept : SpacesKept (fun _ => False) live (fun _ _ => False) k k'
  mms : k'.mms = k.mms
  vmas : k'.vmas = k.vmas

end Kernel

section Loading

variable {live : List ℕ} {k k' k'' : Kernel} {mm va size : ℕ} {vmFlags : BitVec 64}
  {elf : ℕ → UInt8} {ok : Bool}

open Kernel

theorem Kernel.Quiet.refl (hI : SpacesInv (fun _ => False) live k) : Quiet live k k :=
  ⟨SpacesKept.refl hI, rfl, rfl⟩

theorem Kernel.Quiet.trans (h : Quiet live k k') (h' : Quiet live k' k'') : Quiet live k k'' :=
  ⟨h.kept.trans h'.kept, h'.mms.trans h.mms, h'.vmas.trans h.vmas⟩

theorem Kernel.Quiet.kmalloc {km : KMem} {p : ℕ} (hI : SpacesInv (fun _ => False) live k)
    (h : k.kmalloc size = some (p, km)) : Quiet live k { k with toKMem := km } := by
  obtain ⟨frames, hmem⟩ := hI.mem
  exact ⟨hI.setMem (kmallocLoop_kept hmem (heapClear_false _) h), rfl, rfl⟩

theorem Kernel.Quiet.kfree (hI : SpacesInv (fun _ => False) live k) (ptr : ℕ) :
    Quiet live k (k.kfree ptr) :=
  ⟨hI.kfree ptr, rfl, rfl⟩

/-- Without an area, a request has changed the heap at most. -/
theorem mmMapRange_noArea (hI : SpacesInv (fun _ => False) live k) (hno : k.NoArea size)
    (h : k.mmMapRange mm va size vmFlags = some (ok, k')) : ok = false ∧ Quiet live k k' := by
  obtain ⟨frames, hmem⟩ := hI.mem
  rcases mmMapRange_cases h with
    ⟨hok, -, rfl⟩ | ⟨hmm, hs, vma, km, halloc, ⟨hok, -, rfl⟩ | ⟨hv, -⟩⟩
  · exact ⟨hok, .refl hI⟩
  · exact ⟨hok, .kmalloc hI halloc⟩
  · have hfull := hno.resolve_left hs.ne'
    have hzero := (KMem.kmalloc_eq_zero_iff (by decide) (by decide) hmem.heapInv halloc).mpr hfull
    exact absurd hzero hv

/-- A request enters its area, whatever happens then, unless it is refused or has none. -/
theorem mmMapRange_list (h : k.mmMapRange mm va size vmFlags = some (ok, k')) :
    ((k'.mms mm).vmaList = (k.mms mm).vmaList
        ∧ (mm = 0 ∨ size = 0 ∨ ∃ km, k.kmalloc vmaStructSize = some (0, km)))
      ∨ ∃ vma, (k'.mms mm).vmaList = (k.mms mm).vmaList ++ [vma] := by
  rcases mmMapRange_cases h with
    ⟨-, hargs, rfl⟩ | ⟨-, -, vma, km, halloc, ⟨-, rfl, rfl⟩ | ⟨-, hmap⟩⟩
  · exact .inl ⟨rfl, hargs.imp_right .inl⟩
  · exact .inl ⟨rfl, .inr (.inr ⟨km, halloc⟩)⟩
  · have hmms := mapArea_mms { k with toKMem := km } mm vma (requestArea mm va size vmFlags)
    rw [hmap] at hmms
    exact .inr ⟨vma, by rw [hmms, Kernel.linkVma_mms, if_pos rfl]⟩

theorem mmMapRange_enters (hI : SpacesInv (fun _ => False) live k) (hmm : mm ≠ 0)
    (hno : ¬ k.NoArea size) (h : k.mmMapRange mm va size vmFlags = some (ok, k')) :
    ∃ vma, (k'.mms mm).vmaList = (k.mms mm).vmaList ++ [vma] := by
  obtain ⟨frames, hmem⟩ := hI.mem
  refine (mmMapRange_list h).resolve_left fun hnone => hno ?_
  rcases hnone.2 with h0 | hs | ⟨km, halloc⟩
  · exact absurd h0 hmm
  · exact .inl hs
  · have hfull := KMem.kmalloc_eq_zero_iff (by decide) (by decide) hmem.heapInv halloc
    exact .inr (hfull.mp rfl)

theorem mmMapRange_lists (h : k.mmMapRange mm va size vmFlags = some (ok, k')) :
    (k.mms mm).vmaList <+: (k'.mms mm).vmaList := by
  rcases mmMapRange_list h with ⟨hsame, -⟩ | ⟨vma, hlist⟩
  · exact hsame ▸ List.prefix_rfl
  · exact hlist ▸ List.prefix_append _ _

theorem loadSegment_lists {i : ℕ} (h : k.loadSegment mm elf i = some (ok, k')) :
    (k.mms mm).vmaList <+: (k'.mms mm).vmaList := by
  rcases loadSegment_cases h with ⟨-, -, rfl⟩ | ⟨-, k₁, hmap, ⟨-, rfl⟩ |
    ⟨-, m₁, m₂, n, byte, byte', -, -, rfl⟩⟩
  · exact List.prefix_rfl
  · exact mmMapRange_lists hmap
  · have h₁ := mmMapRange_lists hmap
    exact h₁

theorem loadSegments_lists : ∀ (n i : ℕ) {k k' : Kernel} {ok : Bool},
    loadSegments mm elf n i k = some (ok, k') → (k.mms mm).vmaList <+: (k'.mms mm).vmaList
  | 0, i, k, k', ok, h => by
    simp only [loadSegments, Option.some.injEq, Prod.mk.injEq] at h
    exact h.2 ▸ List.prefix_rfl
  | n + 1, i, k, k', ok, h => by
    unfold loadSegments at h
    rcases hr : k.loadSegment mm elf i with _ | ⟨_ | _, k₁⟩ <;> rw [hr] at h
    · cases h
    · simp only [Option.some.injEq, Prod.mk.injEq] at h
      exact h.2 ▸ loadSegment_lists hr
    · exact (loadSegment_lists hr).trans (loadSegments_lists n (i + 1) h)

/-- The loop from header `i` on, up to the first segment that it loads. -/
theorem loadSegments_first : ∀ (n i : ℕ) {k k' : Kernel},
    loadSegments mm elf n i k = some (ok, k') →
    ((∀ j, i ≤ j → j < i + n → Elf.pType elf j ≠ Elf.ptLoad) ∧ k' = k)
      ∨ ∃ j, i ≤ j ∧ j < i + n ∧ Elf.pType elf j = Elf.ptLoad
        ∧ (∀ l, i ≤ l → l < j → Elf.pType elf l ≠ Elf.ptLoad)
        ∧ ∃ ok₁ k₁, k.mmMapRange mm (Elf.pVaddr elf j) (Elf.pMemsz elf j) (Elf.vmFlags elf j)
            = some (ok₁, k₁)
          ∧ (ok₁ = false → k' = k₁) ∧ (k₁.mms mm).vmaList <+: (k'.mms mm).vmaList
  | 0, i, k, k', h => by
    simp only [loadSegments, Option.some.injEq, Prod.mk.injEq] at h
    exact .inl ⟨fun j h1 h2 => by omega, h.2.symm⟩
  | n + 1, i, k, k', h => by
    unfold loadSegments at h
    rcases hr : k.loadSegment mm elf i with _ | ⟨ok₁, k₁⟩ <;> rw [hr] at h
    · cases h
    rcases loadSegment_cases hr with ⟨hother, rfl, rfl⟩ | ⟨hload, k₂, hmap, ⟨rfl, rfl⟩ |
      ⟨rfl, m₁, m₂, _, byte, byte', -, -, rfl⟩⟩
    · rcases loadSegments_first n (i + 1) h with ⟨hnone, hk⟩ | ⟨j, h1, h2, h3, h4, h5⟩
      · refine .inl ⟨fun j h1 h2 => ?_, hk⟩
        rcases Nat.eq_or_lt_of_le h1 with rfl | h1
        · exact hother
        · exact hnone j h1 (by omega)
      · refine .inr ⟨j, by omega, by omega, h3, fun l h6 h7 => ?_, h5⟩
        rcases Nat.eq_or_lt_of_le h6 with rfl | h6
        · exact hother
        · exact h4 l h6 h7
    · simp only [Option.some.injEq, Prod.mk.injEq] at h
      exact .inr ⟨i, le_rfl, by omega, hload, fun l h1 h2 => by omega, false, _, hmap,
        fun _ => h.2.symm, h.2 ▸ List.prefix_rfl⟩
    · have hrest := loadSegments_lists n (i + 1) h
      exact .inr ⟨i, le_rfl, by omega, hload, fun l h1 h2 => by omega, true, _, hmap,
        fun hc => absurd hc (by decide), hrest⟩

/-- A load that enters no area changes the heap at most, and any other one changes the list of
areas. -/
theorem loadElf_enters {entry : ℕ} (hI : SpacesInv (fun _ => False) live k)
    (h : k.loadElf mm elf = some (entry, k')) :
    (k.EntersNone elf → Quiet live k k')
      ∧ (¬ k.EntersNone elf → (k'.mms mm).vmaList ≠ (k.mms mm).vmaList) := by
  unfold loadElf at h
  split_ifs at h with hmagic hmm
  swap
  · simp only [Option.some.injEq, Prod.mk.injEq] at h
    exact ⟨fun _ => h.2 ▸ .refl hI, fun hc => absurd (fun hm => absurd hm hmagic) hc⟩
  obtain ⟨⟨ok, k₁⟩, hr, h⟩ := Option.map_eq_some_iff.mp h
  obtain ⟨-, rfl⟩ := Prod.mk.inj h
  rcases loadSegments_first _ 0 hr with ⟨hnone, rfl⟩ | ⟨j, -, hj, hload, hfirst, ok₁, k₂, hmap, hk⟩
  · refine ⟨fun _ => .refl hI, fun hc => absurd (fun _ i hi hload _ => ?_) hc⟩
    exact absurd hload (hnone i (Nat.zero_le _) (by omega))
  by_cases hno : k.NoArea (Elf.pMemsz elf j)
  · obtain ⟨rfl, hq⟩ := mmMapRange_noArea hI hno hmap
    refine ⟨fun _ => (hk.1 rfl) ▸ hq, fun hc => absurd (fun _ i hi hl hf => ?_) hc⟩
    rcases lt_trichotomy i j with hlt | rfl | hgt
    · exact absurd hl (hfirst i (Nat.zero_le _) hlt)
    · exact hno
    · exact absurd hload (hf j hgt)
  · refine ⟨fun hc => absurd (hc hmagic j (by omega) hload fun i hi => ?_) hno, fun _ => ?_⟩
    · exact hfirst i (Nat.zero_le _) hi
    · obtain ⟨vma, hlist⟩ := mmMapRange_enters hI hmm hno hmap
      intro hc
      have hlen := hk.2.length_le
      rw [hc, hlist, List.length_append, List.length_singleton] at hlen
      omega

end Loading

/-! ## The file -/

namespace Ramfs

variable {fs fs' : Ramfs} {cur cur' : Pcb}

/-- What an open can do to the descriptors. -/
theorem ramfsOpen_cases (hI : FsOk fs) (hc : fs.DirIdx cur.cwdInode) {path : Option (List UInt8)}
    {flags : BitVec 32} {mem : Bool} {ret : ℤ}
    (h : fs.ramfsOpen cur path flags mem = some (ret, fs', cur')) :
    (ret < 0 ∧ cur' = cur
        ∧ ∀ g, (fs.globalFileTable g).refCount ≠ 0 → fs'.globalFileTable g = fs.globalFileTable g)
      ∨ ∃ f i, ret = (i : ℕ) ∧ freeFd cur = some i ∧ (fs.globalFileTable f).refCount = 0
        ∧ cur' = { cur with fdTable := cur.fdTable.set i (some f) }
        ∧ ∀ g, g ≠ f → fs'.globalFileTable g = fs.globalFileTable g := by
  have hstep := (ramfsOpen_opens hI hc h).2.1
  obtain ⟨r, hr, he⟩ := ramfsOpen_ends h
  cases he with
  | noInode _ => exact .inl ⟨by decide, rfl, fun _ _ => rfl⟩
  | noFile n _ _ _ => exact .inl ⟨by decide, rfl, fun g hg => hstep.table_eq hg⟩
  | noFd n f fs₁ fs₂ _ _ _ => exact .inl ⟨by decide, rfl, fun g hg => hstep.table_eq hg⟩
  | opened n f i fs₁ fs₂ hn ha hfd =>
    obtain ⟨-, htab, -⟩ :=
      openInode_step (resolvePath_ok hI.toTreeInv hc true hr) (resolvePath_name hr) hn
    obtain ⟨-, hfree, -⟩ := allocFileHandle_cases ha
    refine .inr ⟨f, i, rfl, hfd, htab ▸ hfree, rfl, fun g hg => ?_⟩
    simp [setFile, hg, htab]

/-- A read moves the offset of its own open file. -/
theorem ramfsRead_table {fd ret : ℤ} {f : ℕ} {count : BitVec 32} {bytes : List UInt8}
    (hf : fdFile cur fd = some f) (h : fs.ramfsRead cur fd count = some (ret, bytes, fs')) {g : ℕ}
    (hg : g ≠ f) : fs'.globalFileTable g = fs.globalFileTable g := by
  cases ramfsRead_ends h with
  | noFile => rfl
  | dir => rfl
  | atEnd => rfl
  | nothing => rfl
  | read f' n content hf' =>
    obtain rfl := Option.some.inj (hf.symm.trans hf')
    exact Function.update_of_ne hg _ _

end Ramfs

namespace ExecState

/-- What a failing call should leave: the pages of the address space, if there is one, its areas,
the registers and the open files. -/
structure Intact (s s' : ExecState) : Prop where
  mapped : s.cur.mm ≠ 0 → ∀ va, pml4Idx va < 256 →
    s'.mem.leafEntry (s'.mem.mms s.cur.mm).pml4Pa va
      = s.mem.leafEntry (s.mem.mms s.cur.mm).pml4Pa va
  contents : s.cur.mm ≠ 0 → ∀ va, pml4Idx va < 256 → ∀ e,
    s.mem.leafEntry (s.mem.mms s.cur.mm).pml4Pa va = some e →
      ∀ j, s'.mem.phys (pteGetAddr e) j = s.mem.phys (pteGetAddr e) j
  list : (s'.mem.mms s.cur.mm).vmaList = (s.mem.mms s.cur.mm).vmaList
  areas : ∀ v ∈ (s.mem.mms s.cur.mm).vmaList, s'.mem.vmas v = s.mem.vmas v
  frame : s'.trapFrame = s.trapFrame
  fds : s'.cur.fdTable = s.cur.fdTable
  opened : ∀ fd f, fdFile s.cur fd = some f → s'.fs.globalFileTable f = s.fs.globalFileTable f

/-- The part of the state that the file is read with, and the rest. -/
structure Reads (live : List ℕ) (s s' : ExecState) : Prop where
  quiet : Kernel.Quiet live s.mem s'.mem
  cur : s'.cur = s.cur
  frame : s'.trapFrame = s.trapFrame
  opened : ∀ g, (s.fs.globalFileTable g).refCount ≠ 0 →
    s'.fs.globalFileTable g = s.fs.globalFileTable g

section Failing

variable {live : List ℕ} {s s' : ExecState} {path : Option (List UInt8)} {st heap : ℕ → UInt8}

theorem Reads.intact (h : Reads live s s') (hmm : s.cur.mm = 0 ∨ s.cur.mm ∈ live)
    (hfds : ∀ fd f, fdFile s.cur fd = some f → (s.fs.globalFileTable f).refCount ≠ 0) :
    Intact s s' := by
  have htouch := fun h0 : s.cur.mm ≠ 0 =>
    h.quiet.kept.kept.user s.cur.mm _ (if_pos (hmm.resolve_left h0))
  have hpml4 : (s'.mem.mms s.cur.mm).pml4Pa = (s.mem.mms s.cur.mm).pml4Pa := by rw [h.quiet.mms]
  have hva : ∀ va, pml4Idx va < 256 → UserPath (leafPath va) := fun va => leafPath_userPath
  refine ⟨fun h0 va hlow => ?_, fun h0 va hlow e he => ?_, by rw [h.quiet.mms], fun v _ => by
    rw [h.quiet.vmas], h.frame, by rw [h.cur], fun fd f hf => h.opened f (hfds fd f hf)⟩
  · rw [hpml4]
    exact (htouch h0).leafEntry_eq (UserPath.of_append (hva va hlow)) fun _ hq => hq.elim
  · exact ((htouch h0).page_eq (UserPath.of_append (hva va hlow)) (hva va hlow)
      (fun _ hq => hq.elim) he).2

/-- Closing the file again. -/
theorem close_open {cur : Pcb} {i f : ℕ} {e : ExecState} (hi : freeFd cur = some i)
    (hlen : cur.fdTable.length = maxFd)
    (he : e.cur = { cur with fdTable := cur.fdTable.set i (some f) }) :
    (e.close i).cur = cur ∧ (e.close i).mem = e.mem ∧ (e.close i).trapFrame = e.trapFrame
      ∧ ∀ g, g ≠ f → (e.close i).fs.globalFileTable g = e.fs.globalFileTable g := by
  obtain ⟨-, hlt, hfree⟩ := freeFd_cases hi
  have hf : fdFile e.cur (i : ℤ) = some f := by
    rw [he]
    unfold fdFile
    rw [if_neg (by omega), Int.toNat_natCast, Sys.getD_set (by omega), if_pos rfl]
  have hset : (cur.fdTable.set i (some f)).set i none = cur.fdTable := by
    rw [List.set_set]
    refine List.ext_getElem (by simp) fun j h1 h2 => ?_
    rw [List.getElem_set]
    split_ifs with hj
    · subst hj
      rw [List.getD_eq_getElem _ _ h2] at hfree
      exact hfree.symm
    · rfl
  unfold close ramfsClose
  rw [hf]
  dsimp only
  refine ⟨?_, rfl, rfl, fun g hg => ?_⟩
  · rw [he]
    dsimp only
    rw [Int.toNat_natCast, hset]
  · simp [freeFileHandle, setFile, hg]

/-- Reading the opened file and closing it. -/
theorem readElf_reads {cur : Pcb} {i f size : ℕ} {e e' : ExecState} {o : Option ElfBuf}
    (hI : SpacesInv (fun _ => False) live e.mem) (hi : freeFd cur = some i)
    (hlen : cur.fdTable.length = maxFd)
    (he : e.cur = { cur with fdTable := cur.fdTable.set i (some f) })
    (h : e.readElf i size heap = some (o, e')) :
    Kernel.Quiet live e.mem e'.mem ∧ e'.cur = cur ∧ e'.trapFrame = e.trapFrame
      ∧ ∀ g, g ≠ f → e'.fs.globalFileTable g = e.fs.globalFileTable g := by
  have hf : fdFile e.cur (i : ℤ) = some f := by
    obtain ⟨-, hlt, -⟩ := freeFd_cases hi
    rw [he]
    unfold fdFile
    rw [if_neg (by omega), Int.toNat_natCast, Sys.getD_set (by omega), if_pos rfl]
  unfold readElf at h
  rcases hkm : e.mem.kmalloc size with _ | ⟨a, km⟩ <;> rw [hkm] at h
  · cases h
  have hq := Kernel.Quiet.kmalloc hI hkm
  dsimp only at h
  split_ifs at h with ha
  · obtain ⟨-, rfl⟩ := Prod.mk.inj (Option.some.inj h)
    obtain ⟨h1, h2, h3, h4⟩ :=
      close_open (e := { e with mem := { e.mem with toKMem := km } }) hi hlen he
    exact ⟨h2 ▸ hq, h1, h3, h4⟩
  rcases hr : e.fs.ramfsRead e.cur i (BitVec.ofNat 32 size) with _ | ⟨n, bytes, fs⟩ <;>
    rw [hr] at h
  · cases h
  obtain ⟨h1, h2, h3, h4⟩ :=
    close_open (e := { e with mem := { e.mem with toKMem := km }, fs := fs }) hi hlen he
  have h5 : ∀ g, g ≠ f → _ := fun g hg => (h4 g hg).trans (ramfsRead_table hf hr hg)
  dsimp only at h
  split_ifs at h
  · obtain ⟨-, rfl⟩ := Prod.mk.inj (Option.some.inj h)
    refine ⟨?_, h1, h3, h5⟩
    dsimp only
    rw [h2]
    exact hq.trans (.kfree hq.kept.inv a)
  · obtain ⟨-, rfl⟩ := Prod.mk.inj (Option.some.inj h)
    exact ⟨h2 ▸ hq, h1, h3, h5⟩

theorem openElf_reads (hI : FsOk s.fs) (hc : s.fs.DirIdx s.cur.cwdInode)
    (hlen : s.cur.fdTable.length = maxFd) (hmem : SpacesInv (fun _ => False) live s.mem)
    {o : Option ElfBuf} (h : s.openElf path st heap = some (o, s')) : Reads live s s' := by
  unfold openElf at h
  rcases ho : s.fs.ramfsOpen s.cur path 0 false with _ | ⟨fd, fs, cur⟩ <;> rw [ho] at h
  · cases h
  dsimp only at h
  rcases ramfsOpen_cases hI hc ho with ⟨hneg, rfl, htab⟩ | ⟨f, i, rfl, hi, hfree, rfl, htab⟩
  · rw [if_pos hneg] at h
    obtain ⟨-, rfl⟩ := Prod.mk.inj (Option.some.inj h)
    exact ⟨.refl hmem, rfl, rfl, htab⟩
  · rw [if_neg (by omega)] at h
    rcases hs : fs.ramfsFstat { s.cur with fdTable := s.cur.fdTable.set i (some f) } i st with
      _ | ⟨ret, st'⟩ <;> rw [hs] at h <;> dsimp only at h
    · cases h
    split_ifs at h
    obtain ⟨e, he⟩ : ∃ e : ExecState, e = ⟨fs,
      { s.cur with fdTable := s.cur.fdTable.set i (some f) }, s.mem, s.trapFrame⟩ := ⟨_, rfl⟩
    have hread : e.readElf i (Wire.readLe st' 0 8) heap = some (o, s') := he ▸ h
    have hemem : e.mem = s.mem := by rw [he]
    obtain ⟨h1, h2, h3, h4⟩ := readElf_reads (hemem ▸ hmem) hi hlen (by rw [he]) hread
    rw [hemem] at h1
    rw [he] at h3 h4
    refine ⟨h1, h2, h3, fun g hg => ?_⟩
    have hne : g ≠ f := fun hgf => hg (hgf ▸ hfree)
    exact (h4 g hne).trans (htab g hne)

end Failing

open Sys in
/-- A call that returns -1 leaves the caller as it was exactly if it does not come to `load_elf`, or
that enters no area. -/
theorem failing_execve (s₀ : Sched) (idle : ℕ) (ops : List (ℕ × SysOp)) {s₁ : Sched}
    {s : Sys} (hinit : s₀.procInit idle = some s₁) (h : Run.run step (start s₁) ops = some s)
    {p : ℕ} (hp : s.Runs p) {own : ℕ → Prop} {live : List ℕ} {k : Kernel}
    (hk : SpacesInv own live k) (hmm : (s.pcb p).mm = 0 ∨ (s.pcb p).mm ∈ live)
    (tf : Option TrapFrame) (path : Option (List UInt8)) (st heap : ℕ → UInt8) {s' : ExecState}
    (hfail : doExecve ⟨s.fs, s.pcb p, k, tf⟩ path st heap = some (-1, s')) :
    Intact ⟨s.fs, s.pcb p, k, tf⟩ s' ↔
      ∀ n elfBuf km, Comes ⟨s.fs, s.pcb p, k, tf⟩ path (Wire.readLe st 0 8) n elfBuf km →
        Kernel.EntersNone { k with toKMem := km } (image s.fs n (Wire.readLe st 0 8) heap) := by
  have hI : SysInv s := Run.run_invariant step_inv (start_inv hinit) h
  have hfds : ∀ fd f, fdFile (s.pcb p) fd = some f → (s.fs.globalFileTable f).refCount ≠ 0 := by
    intro fd f hf hc
    have := (hI.fds.opens p hp.1 fd.toNat f (fdFile_cases hf).2).2.2.1
    rw [hc] at this
    cases this
  have hreads : ∀ {o e}, openElf ⟨s.fs, s.pcb p, k, tf⟩ path st heap = some (o, e) →
      Reads live ⟨s.fs, s.pcb p, k, tf⟩ e := fun ho =>
    openElf_reads hI.fsOk (hI.cwds p hp.1) (hI.fdLen p hp.1) hk.clear ho
  have hopen : ∀ b k', (∃ s', openElf ⟨s.fs, s.pcb p, k, tf⟩ path st heap = some (some b, s')
      ∧ s'.mem = k') ↔ _ :=
    openElf_iff hI.fsOk (hI.cwds p hp.1) (hI.fdLen p hp.1) st heap
  unfold doExecve at hfail
  rcases ho : openElf ⟨s.fs, s.pcb p, k, tf⟩ path st heap with _ | ⟨_ | b, e⟩ <;> rw [ho] at hfail
  · cases hfail
  · obtain ⟨-, rfl⟩ := Prod.mk.inj (Option.some.inj hfail)
    refine ⟨fun _ n a km hc => ?_, fun _ => (hreads ho).intact hmm hfds⟩
    obtain ⟨e', he', -⟩ := (hopen _ _).mpr ⟨n, a, km, hc, rfl, rfl⟩
    rw [ho] at he'
    cases he'
  have hr := hreads ho
  have hcur : e.cur = s.pcb p := hr.cur
  -- The buffer and the memory are those that the condition speaks of.
  have hcond : (∀ n elfBuf km, Comes ⟨s.fs, s.pcb p, k, tf⟩ path (Wire.readLe st 0 8) n elfBuf km →
      Kernel.EntersNone { k with toKMem := km } (image s.fs n (Wire.readLe st 0 8) heap))
      ↔ e.mem.EntersNone b.mem := by
    constructor
    · intro hall
      obtain ⟨n, a, km, hc, rfl, hmem⟩ := (hopen b e.mem).mp ⟨e, ho, rfl⟩
      rw [hmem]
      exact hall n a km hc
    · intro hnone n a km hc
      obtain ⟨e', he', hmem⟩ := (hopen _ _).mpr ⟨n, a, km, hc, rfl, rfl⟩
      obtain ⟨hb, rfl⟩ := Prod.mk.inj (Option.some.inj (ho.symm.trans he'))
      rw [hmem, Option.some.inj hb] at hnone
      exact hnone
  rw [hcond]
  dsimp only at hfail
  unfold loadBuf at hfail
  rw [hcur] at hfail
  rcases hl : e.mem.loadElf (s.pcb p).mm b.mem with _ | ⟨entry, k'⟩ <;> rw [hl] at hfail
  · cases hfail
  obtain ⟨hquiet, hlist⟩ := loadElf_enters hr.quiet.kept.inv hl
  dsimp only at hfail
  split_ifs at hfail with hentry
  · obtain ⟨-, rfl⟩ := Prod.mk.inj (Option.some.inj hfail)
    constructor
    · intro hintact
      by_contra hno
      refine hlist hno ?_
      have := hintact.list
      rw [← congrArg (fun m : ℕ → MmStruct => (m (s.pcb p).mm).vmaList) hr.quiet.mms] at this
      exact this
    · intro hnone
      have hq := hquiet hnone
      refine Reads.intact ⟨hr.quiet.trans (hq.trans (.kfree hq.kept.inv b.addr)), rfl, hr.frame,
        hr.opened⟩ hmm hfds
  · cases congrArg Prod.fst (Option.some.inj hfail)

/-- A user process in the first address space, with a program in the file `a` of another
directory. -/
def programOps : List (ℕ × SysOp) :=
  [(1, .createUserProcess [] { ProcSys.attemptAt 2 with mm := some (firstMm, 0x2000) }),
    (2, .call (.open (some (ascii "/usr/a")) 64#32 true)),
    (2, .call (.write 3 (elfImage 0 [(0x400000, 0x800)]) 120#32)), (2, .call (.close 3))]

/-- A call of that process, with `size` in the first bytes of its stack. -/
def programCall (path : List UInt8) (size : ℕ) : Option (Sys × Kernel × List ℕ × ℤ × ExecState) :=
  (Sched.boot.procInit 1).bind fun s₁ => (Run.run Sys.step (Sys.start s₁) programOps).bind
    fun s => bootKernel.bind fun k => (Run.run mmStep ⟨k, []⟩ [.mmAlloc]).bind fun r =>
      (doExecve ⟨s.fs, s.pcb 2, r.k, none⟩ (some path) (stackOf size) fun _ => 0).map fun x =>
        (s, r.k, r.live, x)

/-- What is known of such a call that fails. -/
theorem programCall_state {path : List UInt8} {size : ℕ} {s : Sys} {k : Kernel} {live : List ℕ}
    {ret : ℤ} {s' : ExecState} (h : programCall path size = some (s, k, live, ret, s')) :
    ∃ s₁, Sched.boot.procInit 1 = some s₁
      ∧ Run.run Sys.step (Sys.start s₁) programOps = some s ∧ s.Runs 2
      ∧ SpacesInv (fun _ => False) live k ∧ (s.pcb 2).mm ∈ live
      ∧ doExecve ⟨s.fs, s.pcb 2, k, none⟩ (some path) (stackOf size) (fun _ => 0)
        = some (ret, s') := by
  obtain ⟨s₁, hinit, h⟩ := Option.bind_eq_some_iff.mp h
  obtain ⟨t, hrun, h⟩ := Option.bind_eq_some_iff.mp h
  obtain ⟨k₀, hboot, h⟩ := Option.bind_eq_some_iff.mp h
  obtain ⟨r, hmem, h⟩ := Option.bind_eq_some_iff.mp h
  obtain ⟨x, hx, heq⟩ := Option.map_eq_some_iff.mp h
  simp only [Prod.mk.injEq] at heq
  obtain ⟨rfl, rfl, rfl, rfl⟩ := heq
  have hsys : ((Sched.boot.procInit 1).bind fun s₁ =>
      (Run.run Sys.step (Sys.start s₁) programOps).map fun s =>
        (decide (s.Runs 2), (s.pcb 2).mm)) = some (true, firstMm) := by
    decide +kernel
  have hspace : (bootKernel.bind fun k => (Run.run mmStep ⟨k, []⟩ [.mmAlloc]).map fun r =>
      (r.live, decide (Run.Meets mmStep MmOk ⟨k, []⟩ [.mmAlloc]))) = some ([firstMm], true) := by
    decide +kernel
  rw [hinit, Option.bind_some, hrun] at hsys
  rw [hboot, Option.bind_some, hmem] at hspace
  simp only [Option.map_some, Option.some.injEq, Prod.mk.injEq, decide_eq_true_eq] at hsys hspace
  refine ⟨s₁, hinit, hrun, hsys.1,
    mmRun_inv (by unfold MemoryFits; decide) hboot hspace.2 hmem, ?_, hx⟩
  rw [hsys.2, hspace.1]
  exact List.mem_singleton_self _

/-- A file that is no program. -/
theorem failing_execve_programCall :
    ∃ s k live s', programCall (ascii "/usr/shell.c") 39 = some (s, k, live, -1, s')
      ∧ Intact ⟨s.fs, s.pcb 2, k, none⟩ s' := by
  obtain ⟨⟨s, k, live, ret, s'⟩, h, hret⟩ := Option.map_eq_some_iff.mp
    (show (programCall (ascii "/usr/shell.c") 39).map (fun r => (r.2.2.2.1,
      (r.1.fs.resolvePath (r.1.pcb 2).cwdInode true (some (ascii "/usr/shell.c"))).map
        Resolved.inode, Elf.magic (image r.1.fs 5 (Wire.readLe (stackOf 39) 0 8) fun _ => 0)))
          = some (-1, some 5, false) by decide +kernel)
  simp only [Prod.mk.injEq] at hret
  obtain ⟨rfl, hpath, hmagic⟩ := hret
  obtain ⟨s₁, hinit, hrun, hp, hk, hmm, hx⟩ := programCall_state h
  refine ⟨s, k, live, s', h, (failing_execve Sched.boot 1 programOps hinit hrun hp hk (.inr hmm)
    none _ _ _ hx).mpr fun n a km hc hm => ?_⟩
  obtain ⟨r, hr, hn⟩ := hc.leads
  rw [hr, Option.map_some, hn] at hpath
  obtain rfl : n = 5 := by
    have := Option.some.inj hpath
    omega
  rw [hmagic] at hm
  cases hm

/-- A program without an entry point: its segment has been mapped. -/
theorem failing_execve_leaves_area :
    ∃ s k live s', programCall (ascii "/usr/a") 120 = some (s, k, live, -1, s')
      ∧ SpacesInv (fun _ => False) live k ∧ (s.pcb 2).mm ∈ live
      ∧ ¬ Intact ⟨s.fs, s.pcb 2, k, none⟩ s' := by
  obtain ⟨⟨s, k, live, ret, s'⟩, h, hret⟩ := Option.map_eq_some_iff.mp
    (show (programCall (ascii "/usr/a") 120).map (fun r => (r.2.2.2.1,
      (r.2.1.mms (r.1.pcb 2).mm).vmaList.length,
      (r.2.2.2.2.mem.mms (r.1.pcb 2).mm).vmaList.length)) = some (-1, 0, 1) by decide +kernel)
  simp only [Prod.mk.injEq] at hret
  obtain ⟨rfl, hlist, hlist'⟩ := hret
  obtain ⟨s₁, hinit, hrun, hp, hk, hmm, hx⟩ := programCall_state h
  refine ⟨s, k, live, s', h, hk, hmm, fun hi => ?_⟩
  have := congrArg List.length hi.list
  dsimp only at this
  rw [hlist, hlist'] at this
  cases this

end ExecState

end SudoOS
