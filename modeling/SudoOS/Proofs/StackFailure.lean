import SudoOS.Exec
import SudoOS.Proofs.Fork
import SudoOS.Proofs.KernelHalf
import SudoOS.Proofs.Teardown

/-!
# A kernel stack that cannot be allocated

`kstack_init` moves `kstack_ptr` before it takes the first page and releases nothing when a later
page is missing, and its callers hear of the stack only on success. So a failure leaves a trace
whenever a page was taken before (`kstack_failure`); what it took is in no tree that `free_proc`
goes through.
-/

namespace SudoOS

/-- The frames free before are free, but for those that have become page tables of the kernel. -/
def FramesKept (pml4 : ℕ) (m m' : Machine) : Prop :=
  ∀ x, m.pmm.Vacant x → m'.pmm.Vacant x ∨ ∃ p, TablePath p ∧ m'.table pml4 p = some x

/-- The failed call has changed neither the free frames, nor a mapping, nor `kstack_ptr`. -/
structure Traceless (s s' : MmState) : Prop where
  frames : FramesKept s.kernelPml4 s.toMachine s'.toMachine
  maps : ∀ va, s'.leafEntry s.kernelPml4 va = s.leafEntry s.kernelPml4 va
  ptr : s'.kstackPtr = s.kstackPtr

namespace MmState

/-- The frames run out before the last of the pages asked for, as they do where there is no last
one. -/
def RunsOut (s : MmState) (size : ℕ) : Prop :=
  s.stackPages size ≠ 0 ∧ s.Short s.kernelPml4 s.stackBottom (s.stackPages size)

end MmState

/-! ## What the loop takes -/

section Loop

variable {m : Machine} {pml4 : ℕ} {flags : BitVec 64}

/-- A frame that is taken and no page table. -/
def Apart (pml4 : ℕ) (m : Machine) (x : ℕ) : Prop :=
  m.pmm.Busy x ∧ ∀ p, TablePath p → m.table pml4 p ≠ some x

theorem vmmMapPage_apart (h : MapInv pml4 m) (hf : FlagsOk flags) (va pa : ℕ) :
    MapInv pml4 (m.vmmMapPage pml4 va pa flags)
      ∧ ∀ x, Apart pml4 m x → Apart pml4 (m.vmmMapPage pml4 va pa flags) x := by
  obtain ⟨m₁, hinv, hG, hcase⟩ := vmmMapPage_split h hf va pa
  have hgrown : ∀ x, Apart pml4 m x → Apart pml4 m₁ x := by
    rintro x ⟨hb, hno⟩
    refine ⟨hG.busy x hb, fun p hp hx => ?_⟩
    rcases hG.added () p x hp hx with hold | ⟨-, -, hnew, -⟩
    · exact hno p hp hold
    · exact hnew hb
  rcases hcase with ⟨-, -, he⟩ | ⟨-, -, pt, hpt, he⟩ <;> rw [he]
  · exact ⟨hinv, hgrown⟩
  · refine ⟨⟨hinv.pmm, hinv.width, hinv.zero,
      tableTree_setEntry hinv.tree (tablePath_ok va) rfl hpt⟩, fun x hx => ?_⟩
    obtain ⟨hb, hno⟩ := hgrown x hx
    exact ⟨hb, fun p hp => by
      rw [table_setEntry hinv.tree (tablePath_ok va) rfl hpt hp]
      exact hno p hp⟩

theorem MapInv.apart_alloc (h : MapInv pml4 m) {x : ℕ} (hx : Apart pml4 m x) :
    Apart pml4 { m with pmm := (m.pmm.pmmAllocPage).2 } x :=
  ⟨(Pmm.pmmAllocPage_spec h.pmm).2.2.1 x hx.1, hx.2⟩

/-- The loop gives nothing back. -/
theorem mapEach_apart (hf : FlagsOk flags) {x : ℕ} : ∀ {vas : List ℕ} {m : Machine},
    MapInv pml4 m → Apart pml4 m x → Apart pml4 (Machine.mapEach pml4 flags vas m).2 x
  | [], _, _, hx => hx
  | va :: vas, m, h, hx => by
    rw [Machine.mapEach]
    split_ifs with h0
    · exact h.apart_alloc hx
    · obtain ⟨hinv, hkeep⟩ := vmmMapPage_apart h.alloc hf va (m.pmm.pmmAllocPage).1
      exact mapEach_apart hf hinv (hkeep x (h.apart_alloc hx))

/-- The first frame it takes stays taken. -/
theorem mapEach_takes (h : MapInv pml4 m) (hf : FlagsOk flags) (hfree : m.pmm.freePages ≠ 0)
    (va : ℕ) (vas : List ℕ) :
    ∃ x, m.pmm.Vacant x ∧ Apart pml4 (Machine.mapEach pml4 flags (va :: vas) m).2 x := by
  have h0 : (m.pmm.pmmAllocPage).1 ≠ 0 := fun hc => hfree (h.alloc_eq_zero.mp hc)
  obtain ⟨hv, hb⟩ := (Pmm.pmmAllocPage_spec h.pmm).2.2.2 h0
  refine ⟨_, hv, ?_⟩
  rw [Machine.mapEach, if_neg h0]
  obtain ⟨hinv, hkeep⟩ := vmmMapPage_apart h.alloc hf va (m.pmm.pmmAllocPage).1
  refine mapEach_apart hf hinv (hkeep _ ⟨(hb _).mpr (.inr rfl), fun p hp hx => ?_⟩)
  exact hv.not_busy (h.tree.busy p _ hp hx)

theorem Apart.not_framesKept {m' : Machine} {x : ℕ} (h : Apart pml4 m' x) (hv : m.pmm.Vacant x) :
    ¬ FramesKept pml4 m m' := by
  intro hk
  rcases hk x hv with hv' | ⟨p, hp, hx⟩
  · exact hv'.not_busy h.1
  · exact h.2 p hp hx

/-- Without a free frame there is none to keep. -/
theorem framesKept_of_none (h : m.pmm.Inv) (h0 : m.pmm.freePages = 0) (m' : Machine) :
    FramesKept pml4 m m' := by
  intro x hv
  rw [h.count, ByteMap.countClear_eq_zero] at h0
  have hbit := hv.bit
  rw [Pmm.bitTest, h0 _ hv.lt] at hbit
  cases hbit

end Loop

/-! ## The call -/

section Call

variable {s : MmState} (h : MapInv s.kernelPml4 s.toMachine)

theorem stackPages_of_top_zero {size : ℕ} (h0 : s.stackTop size = 0) : s.stackPages size = 0 := by
  have hrounds : s.stackRounds size = 0 := by
    unfold MmState.stackRounds pageSize
    omega
  have hbottom : s.stackBottom < 2 ^ 64 := u64_lt _
  unfold MmState.stackPages
  rw [hrounds, Nat.zero_mul, Nat.add_zero, if_pos hbottom]

include h

theorem mapEach_runsOut (size : ℕ) :
    (Machine.mapEach s.kernelPml4 kernelFlags (pagesFrom s.stackBottom 0 (s.stackPages size))
      s.toMachine).1 = false ↔ s.RunsOut size := by
  unfold MmState.RunsOut
  rcases le_or_gt (s.framesFor s.kernelPml4 (pagesFrom s.stackBottom 0 (s.stackPages size)))
    s.pmm.freePages with hle | hlt
  · obtain ⟨m', he, -⟩ := mapEach_enough kernelFlags_ok h hle
    rw [he]
    refine ⟨fun hc => (by cases hc), fun ⟨hn, hs⟩ => ?_⟩
    obtain ⟨n, hn⟩ := Nat.exists_eq_succ_of_ne_zero hn
    have hgrow := framesFor_concat s.toMachine s.kernelPml4 (pagesFrom s.stackBottom 0 n)
      (u64 (s.stackBottom + (0 + n) * pageSize))
    rw [hn, Nat.succ_eq_add_one] at hle hs
    rw [pagesFrom_concat] at hle
    rw [Machine.Short, Nat.add_sub_cancel] at hs
    omega
  · have hn : s.stackPages size ≠ 0 := fun hn => by
      simp [hn, pagesFrom, Machine.framesFor, Machine.missingFor] at hlt
    rcases mapEach_of_not_enough h kernelFlags_ok hlt with ⟨hs, hf⟩ | ⟨hs, -, m', he, -⟩
    · exact ⟨fun _ => ⟨hn, hs⟩, fun _ => hf⟩
    · rw [he]
      exact ⟨fun hc => (by cases hc), fun hc => absurd hc.2 hs⟩

theorem kstackInit_eq_zero_iff (size : ℕ) :
    (s.kstackInit size).1 = 0 ↔ s.RunsOut size ∨ s.stackTop size = 0 := by
  rw [kstackInit_eq, ← mapEach_runsOut h size]
  rcases (Machine.mapEach s.kernelPml4 kernelFlags (pagesFrom s.stackBottom 0 (s.stackPages size))
    s.toMachine).1 with _ | _ <;> simp

/-- Without a page to map, or a frame for the first, the loop does nothing. -/
theorem kstackInit_idle {size : ℕ} (hidle : s.stackPages size = 0 ∨ s.pmm.freePages = 0) :
    (s.kstackInit size).2.toMachine = s.toMachine := by
  rw [kstackInit_eq]
  dsimp only
  rcases hn : s.stackPages size with _ | n
  · rfl
  · have h0 := h.alloc_eq_zero.mpr (hidle.resolve_left (by omega))
    have he := Pmm.pmmAllocPage_of_eq_zero h.pmm h.zero h0
    rw [pagesFrom_succ, Machine.mapEach, if_pos h0, he]

/-- A frame that is lost when the frames run out after the first page. -/
theorem kstackInit_loses {size : ℕ} (hout : s.RunsOut size) (hfree : s.pmm.freePages ≠ 0) :
    ∃ x, s.pmm.Vacant x ∧ Apart s.kernelPml4 (s.kstackInit size).2.toMachine x := by
  obtain ⟨n, hn⟩ := Nat.exists_eq_succ_of_ne_zero hout.1
  rw [kstackInit_eq, hn, Nat.succ_eq_add_one, pagesFrom_succ]
  exact mapEach_takes h kernelFlags_ok hfree _ _

theorem traceless_iff (size : ℕ) :
    ((s.kstackInit size).1 = 0 → Traceless s (s.kstackInit size).2)
      ↔ (¬ s.RunsOut size ∧ s.stackTop size ≠ 0)
        ∨ (s.stackTop size = s.kstackPtr ∧ (s.pmm.freePages = 0 ∨ ¬ s.RunsOut size)) := by
  have hptr : (s.kstackInit size).2.kstackPtr = s.stackTop size := by rw [kstackInit_eq]
  rw [kstackInit_eq_zero_iff h]
  constructor
  · intro hall
    by_cases hout : s.RunsOut size
    · obtain ⟨hframes, -, hp⟩ := hall (.inl hout)
      refine .inr ⟨hptr.symm.trans hp, .inl ?_⟩
      by_contra hfree
      obtain ⟨x, hv, hx⟩ := kstackInit_loses h hout hfree
      exact hx.not_framesKept hv hframes
    · by_cases h0 : s.stackTop size = 0
      · exact .inr ⟨hptr.symm.trans (hall (.inr h0)).ptr, .inr hout⟩
      · exact .inl ⟨hout, h0⟩
  · rintro (⟨hout, h0⟩ | ⟨htop, hidle⟩) hnull
    · exact absurd hnull (not_or.mpr ⟨hout, h0⟩)
    · have hsame : (s.kstackInit size).2.toMachine = s.toMachine := by
        refine kstackInit_idle h (hidle.symm.imp_left fun hout => ?_)
        exact stackPages_of_top_zero (hnull.resolve_left hout)
      refine ⟨?_, fun va => ?_, hptr.trans htop⟩
      · rw [hsame]
        exact fun x hv => .inl hv
      · rw [hsame]

end Call

/-! ## The callers -/

section Callers

variable {live : List ℕ} {k : Kernel} {root : Tree → Option ℕ} {pml4 : ℕ} {m : Machine}

/-- The loop touches the kernel's tree only. -/
theorem mapEach_outside (hroot : root .kernel = some pml4) {flags : BitVec 64}
    (hf : FlagsOk flags) : ∀ {vas : List ℕ} {m : Machine},
    TablesOk root (treePath fun _ => False) m →
      Kept root (treePath fun _ => False) (fun t _ => t = .kernel) m
        (Machine.mapEach pml4 flags vas m).2
  | [], _, h => Kept.refl h
  | va :: vas, m, h => by
    have halloc := h.alloc (T := fun t _ => t = .kernel) closed_treePath
    rw [Machine.mapEach]
    split_ifs
    · exact halloc
    · have hout : ¬ treePath (fun _ => False) .kernel (leafPath va) := by
        rintro (⟨hlen, -⟩ | ⟨-, -, -, -, hno⟩)
        · rw [leafPath_length] at hlen
          omega
        · exact hno
      have hP : treePath (fun _ => False) .kernel (tablePath va) := .inl (tablePath_ok va)
      have hmap := (vmmMapPage_outside .kernel closed_treePath halloc.tables
        (m.pmm.pmmAllocPage).1 hroot hP hout hf).1.mono
        (fun t _ => t = .kernel) fun _ _ hp => hp.1
      exact (halloc.trans hmap).trans (mapEach_outside hroot hf hmap.tables)

/-- What `mm_free` does to the frames: it gives back those of the address space. -/
theorem mmFree_frames (hI : k.pmm.Inv) {mm : ℕ} (hal : 4096 ∣ (k.mms mm).pml4Pa) :
    (k.mmFree mm).phys = k.phys ∧ (k.mmFree mm).pmm.totalPages = k.pmm.totalPages
      ∧ (∀ x, (k.mmFree mm).pmm.Busy x → k.pmm.Busy x)
      ∧ ∀ x, k.pmm.Busy x → ¬ k.UserFrame mm x → (k.mmFree mm).pmm.Busy x := by
  obtain ⟨heap, hheap⟩ := foldl_kfree_eq (k.mms mm).vmaList k
  obtain ⟨-, htot, hbusy⟩ := frees_space k.phys hal k.pmm hI
  unfold Kernel.mmFree Kernel.releaseTables
  dsimp only
  rw [hheap]
  split_ifs
  · exact ⟨rfl, rfl, fun _ hx => hx, fun _ hx _ => hx⟩
  · exact ⟨rfl, rfl, fun _ hx => hx, fun _ hx _ => hx⟩
  · exact ⟨rfl, htot, fun x hx => ((hbusy x).mp hx).1, fun x hx hno => (hbusy x).mpr ⟨hx, hno⟩⟩

namespace ForkState

variable {s : ForkState} {proc : ℕ}

/-- `free_proc` takes nothing, and gives back no frame but those of the address space. -/
theorem freeProc_frames (s : ForkState) (proc : ℕ) (hI : s.mem.pmm.Inv)
    (hal : (s.sched.pcbs proc).mm ≠ 0 → 4096 ∣ (s.mem.mms (s.sched.pcbs proc).mm).pml4Pa) :
    (s.freeProc proc).mem.phys = s.mem.phys
      ∧ (∀ x, s.mem.pmm.Vacant x → (s.freeProc proc).mem.pmm.Vacant x)
      ∧ ∀ x, s.mem.pmm.Busy x →
        ((s.sched.pcbs proc).mm ≠ 0 → ¬ s.mem.UserFrame (s.sched.pcbs proc).mm x) →
        (s.freeProc proc).mem.pmm.Busy x := by
  unfold freeProc
  dsimp only
  split_ifs with h0
  · exact ⟨rfl, fun _ hx => hx, fun _ hx _ => hx⟩
  · obtain ⟨hphys, htot, hback, hkeep⟩ := mmFree_frames hI (hal h0)
    refine ⟨hphys, fun x hx => ⟨hx.aligned, ?_, ?_⟩, fun x hx hno => hkeep x hx (hno h0)⟩
    · exact htot ▸ hx.lt
    · by_contra hbit
      exact hx.not_busy (hback x ⟨hx.aligned, htot ▸ hx.lt, eq_true_of_ne_false hbit⟩)

/-- A failure of `kstack_init` in a caller. -/
def stackFailed (s : ForkState) (proc : ℕ) : ForkState :=
  { s with mem := (s.mem.kstackInit kstackSize).2 }.freeProc proc

theorem forkStack_failed (h0 : (s.mem.kstackInit kstackSize).1 = 0) :
    s.forkStack proc = (-1, s.stackFailed proc) := by
  unfold forkStack
  dsimp only
  rw [if_pos h0]
  rfl

theorem createStack_failed (h0 : (s.mem.kstackInit kstackSize).1 = 0) :
    s.createStack proc = (0, s.stackFailed proc) := by
  unfold createStack
  dsimp only
  rw [if_pos h0]
  rfl

/-- `free_proc` undoes nothing of what `kstack_init` has done. -/
theorem stackFailed_frames (hI : SpacesInv (fun _ => False) live s.mem.toKernel)
    (hmm : (s.sched.pcbs proc).mm = 0 ∨ (s.sched.pcbs proc).mm ∈ live) :
    (s.stackFailed proc).mem.phys = (s.mem.kstackInit kstackSize).2.phys
      ∧ (∀ x, (s.mem.kstackInit kstackSize).2.pmm.Vacant x →
        (s.stackFailed proc).mem.pmm.Vacant x)
      ∧ ∀ x, s.mem.pmm.Vacant x → (s.mem.kstackInit kstackSize).2.pmm.Busy x →
        (s.stackFailed proc).mem.pmm.Busy x := by
  obtain ⟨frames, hm⟩ := hI.mem
  have hkept : Kept (treeRoot s.mem.kernelPml4 frames (s.mem.spaces live))
      (treePath fun _ => False) (fun t _ => t = .kernel) s.mem.toMachine
      (s.mem.kstackInit kstackSize).2.toMachine := by
    rw [kstackInit_eq]
    exact mapEach_outside rfl kernelFlags_ok hm.tables
  have hmms := kstackInit_mms s.mem kstackSize
  unfold stackFailed
  generalize (s.mem.kstackInit kstackSize).2 = m at hkept hmms ⊢
  have hspace : (s.sched.pcbs proc).mm ∈ live → s.mem.spaces live (s.sched.pcbs proc).mm
      = some (s.mem.mms (s.sched.pcbs proc).mm).pml4Pa := fun hin => if_pos hin
  have htaken : ∀ q x, UserPath q → (s.sched.pcbs proc).mm ∈ live →
      s.mem.table (s.mem.mms (s.sched.pcbs proc).mm).pml4Pa q = some x → s.mem.pmm.Busy x :=
    fun q x hq hin hx => hm.tables.busy (.mm (s.sched.pcbs proc).mm) q x hq
      ((Machine.node_eq_table (hspace hin) q).trans hx)
  have hal : (s.sched.pcbs proc).mm ≠ 0 →
      4096 ∣ (m.mms (s.sched.pcbs proc).mm).pml4Pa := fun h0 => by
    rw [hmms]
    exact (htaken [] _ ⟨by simp, by simp, by simp⟩ (hmm.resolve_left h0) rfl).aligned
  obtain ⟨hphys, hvac, hbusy⟩ := freeProc_frames { s with mem := m } proc hkept.tables.pmm hal
  refine ⟨hphys, hvac, fun x hv hx => hbusy x hx ?_⟩
  rintro h0 ⟨q, hq, hw⟩
  have hin := hmm.resolve_left h0
  rw [hmms] at hw
  rcases (hkept.touches (.mm (s.sched.pcbs proc).mm) _ (hspace hin)).added q x hq hw
    with hold | hno | ⟨⟨-, hno, -⟩, -⟩
  · exact hv.not_busy (htaken q x hq hin hold)
  · cases hno
  · cases hno

/-- The caller gives everything back exactly if there was nothing to give. -/
theorem stackFailed_framesKept_iff (h : MapInv s.mem.kernelPml4 s.mem.toMachine)
    (hI : SpacesInv (fun _ => False) live s.mem.toKernel)
    (hmm : (s.sched.pcbs proc).mm = 0 ∨ (s.sched.pcbs proc).mm ∈ live) :
    ((s.mem.kstackInit kstackSize).1 = 0 →
        FramesKept s.mem.kernelPml4 s.mem.toMachine (s.stackFailed proc).mem.toMachine)
      ↔ ¬ s.mem.RunsOut kstackSize ∨ s.mem.pmm.freePages = 0 := by
  obtain ⟨hphys, hvac, hbusy⟩ := stackFailed_frames hI hmm
  rw [kstackInit_eq_zero_iff h]
  constructor
  · intro hall
    by_cases hout : s.mem.RunsOut kstackSize
    · right
      by_contra hfree
      obtain ⟨x, hv, hx, hno⟩ := kstackInit_loses h hout hfree
      have hlost : Apart s.mem.kernelPml4 (s.stackFailed proc).mem.toMachine x :=
        ⟨hbusy x hv hx, fun p hp => by
          rw [Machine.table, hphys]
          exact hno p hp⟩
      exact hlost.not_framesKept hv (hall (.inl hout))
    · exact .inl hout
  · rintro (hout | hfree) hnull
    · have htop := hnull.resolve_left hout
      refine fun x hv => .inl (hvac x ?_)
      rw [kstackInit_idle h (.inl (stackPages_of_top_zero htop))]
      exact hv
    · exact framesKept_of_none h.pmm hfree _

end ForkState

end Callers

/-- `kstack_init` fails without a trace exactly if no frame was free and `kstack_ptr` comes out as
it was. The frames come back from its callers exactly if none was free. -/
theorem kstack_failure (s : MmState) (size : ℕ) (f : ForkState) (live : List ℕ) (proc : ℕ) :
    (MapInv s.kernelPml4 s.toMachine →
      (((s.kstackInit size).1 = 0 → Traceless s (s.kstackInit size).2)
        ↔ (¬ s.RunsOut size ∧ s.stackTop size ≠ 0)
          ∨ (s.stackTop size = s.kstackPtr ∧ (s.pmm.freePages = 0 ∨ ¬ s.RunsOut size))))
    ∧ (MapInv f.mem.kernelPml4 f.mem.toMachine →
      SpacesInv (fun _ => False) live f.mem.toKernel →
      ((f.sched.pcbs proc).mm = 0 ∨ (f.sched.pcbs proc).mm ∈ live) →
      (((f.mem.kstackInit kstackSize).1 = 0 →
          FramesKept f.mem.kernelPml4 f.mem.toMachine (f.forkStack proc).2.mem.toMachine
            ∧ FramesKept f.mem.kernelPml4 f.mem.toMachine (f.createStack proc).2.mem.toMachine)
        ↔ ¬ f.mem.RunsOut kstackSize ∨ f.mem.pmm.freePages = 0)) := by
  refine ⟨fun h => traceless_iff h size, fun h hI hmm => ?_⟩
  rw [← ForkState.stackFailed_framesKept_iff h hI hmm]
  refine forall_congr' fun h0 => ?_
  rw [ForkState.forkStack_failed h0, ForkState.createStack_failed h0, and_self]

/-! ## Three free frames -/

/-- The booted kernel with one address space, after the heap has grown by `pgnum` pages. -/
def grownKernel (pgnum : ℕ) : Option KernelRun :=
  bootState.bind fun s₀ => Run.run kernelStep ⟨s₀, []⟩ [.mmAlloc, .kheapExpand pgnum]

/-- A process in that kernel. -/
def lateProcess (s : MmState) : ForkState := ⟨s, (ForkState.oneProcess 0 []).sched⟩

theorem grownKernel_inv {pgnum : ℕ} {s : KernelRun} (h : grownKernel pgnum = some s)
    (hok : (bootState.map fun s₀ =>
      decide (Run.Meets kernelStep KernelOk ⟨s₀, []⟩ [.mmAlloc, .kheapExpand pgnum])) = some true)
    (hzero : (grownKernel pgnum).map (fun s => decide (s.mem.pmm.bitTest 0 = true
      ∧ 0 < s.mem.pmm.totalPages ∧ s.mem.pmm.totalPages ≤ 2 ^ 40 ∧ firstMm ∈ s.live))
        = some true) :
    MapInv s.mem.kernelPml4 s.mem.toMachine
      ∧ SpacesInv (fun _ => False) s.live s.mem.toKernel ∧ firstMm ∈ s.live := by
  rw [h, Option.map_some, Option.some.injEq] at hzero
  obtain ⟨hbit, hpos, hw, hlive⟩ := of_decide_eq_true hzero
  have h0 : s.mem.pmm.Busy 0 := ⟨dvd_zero _, by simpa using hpos, by simpa using hbit⟩
  obtain ⟨s₀, hs₀, hrun⟩ := Option.bind_eq_some_iff.mp h
  rw [hs₀, Option.map_some, Option.some.injEq] at hok
  have hI := (run_inv (by unfold MemoryFits; decide) bootClear_bootMmap hs₀ (of_decide_eq_true hok)
    hrun).half.spaces
  obtain ⟨frames, hm⟩ := hI.mem
  have hO : Owned (fun _ : Unit => some s.mem.kernelPml4) (fun _ p => TablePath p)
      s.mem.toMachine := by
    refine ⟨hm.tables.pmm, hw, ?_, ?_⟩
    · rintro ⟨⟩ p ⟨⟩ q n hp hq hpn hqn
      exact ⟨rfl, (hm.tables.forest .kernel p .kernel q n (.inl hp) (.inl hq) hpn hqn).2⟩
    · rintro ⟨⟩ p n hp hn
      exact hm.tables.busy .kernel p n (.inl hp) hn
  exact ⟨⟨hm.tables.pmm, hw, h0, hO.tableTree⟩, hI.clear, hlive⟩

theorem kstack_failure_grownKernel :
    ∃ s, grownKernel 1 = some s
      ∧ (((s.mem.kstackInit kstackSize).1 = 0 → Traceless s.mem (s.mem.kstackInit kstackSize).2)
        ↔ (¬ s.mem.RunsOut kstackSize ∧ s.mem.stackTop kstackSize ≠ 0)
          ∨ (s.mem.stackTop kstackSize = s.mem.kstackPtr
            ∧ (s.mem.pmm.freePages = 0 ∨ ¬ s.mem.RunsOut kstackSize)))
      ∧ (((s.mem.kstackInit kstackSize).1 = 0 →
          FramesKept s.mem.kernelPml4 s.mem.toMachine
              ((lateProcess s.mem).forkStack 0).2.mem.toMachine
            ∧ FramesKept s.mem.kernelPml4 s.mem.toMachine
              ((lateProcess s.mem).createStack 0).2.mem.toMachine)
        ↔ ¬ s.mem.RunsOut kstackSize ∨ s.mem.pmm.freePages = 0) := by
  obtain ⟨s, hs, -⟩ := Option.map_eq_some_iff.mp
    (show (grownKernel 1).map (fun s => s.live) = some [firstMm] by decide +kernel)
  obtain ⟨h, hI, hlive⟩ := grownKernel_inv hs (by decide +kernel) (by decide +kernel)
  obtain ⟨hstack, hcallers⟩ := kstack_failure s.mem kstackSize (lateProcess s.mem) s.live 0
  exact ⟨s, hs, hstack h, hcallers h hI (.inr hlive)⟩

/-- With three frames left a fork loses all of them, and the address of the stack too. -/
theorem kstackInit_leaves_trace :
    ∃ s, grownKernel 14 = some s ∧ s.mem.pmm.freePages = 3
      ∧ (s.mem.kstackInit kstackSize).1 = 0
      ∧ (s.mem.kstackInit kstackSize).2.pmm.freePages = 0
      ∧ (s.mem.kstackInit kstackSize).2.kstackPtr = s.mem.kstackPtr + 0x5000
      ∧ ¬ Traceless s.mem (s.mem.kstackInit kstackSize).2
      ∧ ¬ FramesKept s.mem.kernelPml4 s.mem.toMachine
        ((lateProcess s.mem).forkStack 0).2.mem.toMachine := by
  have hrun : (grownKernel 14).map (fun s => decide (s.mem.pmm.freePages = 3
      ∧ (s.mem.kstackInit kstackSize).1 = 0
      ∧ (s.mem.kstackInit kstackSize).2.pmm.freePages = 0
      ∧ (s.mem.kstackInit kstackSize).2.kstackPtr = s.mem.kstackPtr + 0x5000
      ∧ s.mem.stackTop kstackSize ≠ 0)) = some true := by
    decide +kernel
  obtain ⟨s, hs, hall⟩ := Option.map_eq_some_iff.mp hrun
  obtain ⟨hfree, hnull, hgone, hptr, htop⟩ := of_decide_eq_true hall
  obtain ⟨h, hI, hlive⟩ := grownKernel_inv hs (by decide +kernel) (by decide +kernel)
  refine ⟨s, hs, hfree, hnull, hgone, hptr, fun ht => ?_, fun hk => ?_⟩
  · have hkept := hptr.symm.trans ht.ptr
    omega
  · rw [ForkState.forkStack_failed (s := lateProcess s.mem) hnull] at hk
    have hout := ((kstackInit_eq_zero_iff h kstackSize).mp hnull).resolve_right htop
    rcases (ForkState.stackFailed_framesKept_iff (s := lateProcess s.mem) h hI
      (.inr hlive)).mp fun _ => hk with hno | h0
    · exact hno hout
    · exact absurd (hfree.symm.trans h0) (by decide)

end SudoOS
