import SudoOS.Proofs.Tasks

/-!
# Tasks do not disturb each other

`Inv` ties the machine to what its tasks have saved: the frames on every stack, innermost first, lie
one above the other up to its top (`Layers`), and a task that waits has the registers of its call
below them (`Waits`). Every step keeps it, and changes nothing of a task that waits before and after
it (`Inv.step`). So the machine with its one memory behaves, event by event, as tasks that each have
their own (`refines`): what an interrupt saves is what its return restores, whatever ran in between.
-/

namespace SudoOS.Trap

open Stack

/-! ## Stacks -/

/-- A frame at `a`, below the marks `above`. -/
structure Layer (mem : Mem) (p : Site) (a : Word) (above : List Word) (f : Frame) : Prop where
  words : Words mem a.toNat f.words
  base : p.base.toNat ≤ a.toNat
  room : a.toNat + 176 ≤ (above.headD p.top).toNat
  gate : f.intNo ∈ gates
  ring : f.cpu.cs = userCode ∧ above = [] ∧ a.toNat + 176 = p.top.toNat
    ∨ f.cpu.cs = kernelCode ∧ f.intNo ≠ 128 ∧ a.toNat + 176 ≤ f.cpu.rsp.toNat
      ∧ f.cpu.rsp.toNat ≤ (above.headD p.top).toNat

def Layers (mem : Mem) (p : Site) : List Word → List Frame → Prop
  | [], [] => True
  | a :: above, f :: fs => Layer mem p a above f ∧ Layers mem p above fs
  | _, _ => False

/-- A task that waits, with the frames of its stack from `mark` on. -/
structure Waits (mem : Mem) (p : Site) (mark : Word) (call : Call) : Prop where
  base : p.base.toNat ≤ (load mem (field p.pcb pcbContext)).toNat
  room : (load mem (field p.pcb pcbContext)).toNat + 64 ≤ mark.toNat
  rsp : call.rsp = load mem (field p.pcb pcbContext) + 64#64
  regs : Words mem (load mem (field p.pcb pcbContext)).toNat (contextRegs.map call.reg)

/-- Nothing that belongs to a task is written. -/
def Keeps (mem mem' : Mem) (p : Site) : Prop := Same mem mem' p.stack ∧ Same mem mem' p.pointers

variable {mem mem' : Mem} {p q : Site}

theorem Layers.mark_le : ∀ {above : List Word} {fs : List Frame}, Layers mem p above fs →
    (above.headD p.top).toNat ≤ p.top.toNat
  | [], [], _ => le_rfl
  | _ :: _, _ :: _, ⟨h, hs⟩ => by
    have := hs.mark_le
    have := h.room
    simp only [List.headD_cons]
    omega

theorem Layers.base_le (hp : p.Fits) : ∀ {above : List Word} {fs : List Frame},
    Layers mem p above fs → p.base.toNat ≤ (above.headD p.top).toNat
  | [], [], _ => (Nat.le_add_right _ _).trans hp.room
  | _ :: _, _ :: _, ⟨h, _⟩ => h.base

/-- Every mark has its frame. -/
theorem Layers.nil_iff {above : List Word} {fs : List Frame} (h : Layers mem p above fs) :
    above = [] ↔ fs = [] := by
  rcases above with _ | ⟨a, above⟩ <;> rcases fs with _ | ⟨f, fs⟩
  · simp
  · exact h.elim
  · exact h.elim
  · simp

theorem Layer.of_same {a : Word} {above : List Word} {f : Frame} (h : Layer mem p a above f)
    (hs : Same mem mem' (a.toNat, 176)) : Layer mem' p a above f :=
  ⟨h.words.of_same hs, h.base, h.room, h.gate, h.ring⟩

/-- Frames depend on the memory from the last mark on. -/
theorem Layers.of_same : ∀ {above : List Word} {fs : List Frame}, Layers mem p above fs →
    Same mem mem' ((above.headD p.top).toNat, p.top.toNat - (above.headD p.top).toNat) →
    Layers mem' p above fs
  | [], [], _, _ => trivial
  | a :: above, f :: fs, ⟨h, hs⟩, hsame => by
    have hroom := h.room
    have hle := hs.mark_le
    simp only [List.headD_cons] at hsame
    exact ⟨h.of_same (hsame.mono le_rfl (by dsimp only; omega)),
      hs.of_same (hsame.mono (by dsimp only; omega) (by dsimp only; omega))⟩

theorem Layers.keeps (hp : p.Fits) {above : List Word} {fs : List Frame}
    (h : Layers mem p above fs) (hk : Keeps mem mem' p) : Layers mem' p above fs := by
  have hbase := h.base_le hp
  have hle := h.mark_le
  refine h.of_same (hk.1.mono hbase ?_)
  simp only [Site.stack]
  omega

/-- The pointers of a PCB, by their addresses. -/
theorem Keeps.pointer (hp : p.Fits) (hk : Keeps mem mem' p) :
    load mem' (field p.pcb pcbContext) = load mem (field p.pcb pcbContext)
      ∧ load mem' (field p.pcb pcbTrapFrame) = load mem (field p.pcb pcbTrapFrame) := by
  obtain ⟨-, -, h16, h24⟩ := hp.fields
  rw [h16, h24]
  constructor <;>
  · refine load_of_same (hk.2.mono ?_ ?_) <;>
    · simp only [Site.pointers, pcbContext]
      omega

theorem Waits.keeps (hp : p.Fits) {mark : Word} {call : Call} (h : Waits mem p mark call)
    (hmark : mark.toNat ≤ p.top.toNat) (hk : Keeps mem mem' p) : Waits mem' p mark call := by
  have hbase := h.base
  have hroom := h.room
  have hregs := h.regs
  have hrsp := h.rsp
  obtain ⟨hctx, -⟩ := hk.pointer hp
  rw [← hctx] at hbase hroom hregs hrsp
  refine ⟨hbase, hroom, hrsp, hregs.of_same (hk.1.mono hbase ?_)⟩
  simp only [Site.stack, List.length_map, contextRegs_length]
  omega

/-- What is written within one task's ranges keeps another task. -/
theorem Keeps.of_wrote {ws : List (ℕ × ℕ)} (h : Wrote mem mem' ws) (ha : p.Apart q)
    (hw : ∀ w ∈ ws, ∃ r ∈ p.ranges, r.1 ≤ w.1 ∧ w.1 + w.2 ≤ r.1 + r.2) : Keeps mem mem' q := by
  constructor <;> refine h _ fun w hmem => ?_ <;> obtain ⟨r, hr, hle, hle'⟩ := hw w hmem
  · exact (ha r hr q.stack (by simp [Site.ranges])).mono hle hle' le_rfl le_rfl
  · refine (ha r hr (q.pcb.toNat, pcbSize) (by simp [Site.ranges])).mono hle hle' ?_ ?_ <;>
    · simp only [Site.pointers, pcbContext, pcbSize]
      omega

theorem Site.Apart.symm (h : p.Apart q) : q.Apart p := fun r hr s hs => (h s hs r hr).symm

/-- No task is apart from itself. -/
theorem Site.Apart.ne (hp : p.Fits) (h : p.Apart q) : p ≠ q := by
  rintro rfl
  have hroom := hp.room
  have := h p.stack (by simp [Site.ranges]) p.stack (by simp [Site.ranges])
  simp only [Separate, Site.stack, kstackSize] at this hroom
  omega

/-! ## The invariant -/

namespace Machine

structure Inv (m : Machine) (frames : Site → List Frame) (call : Site → Call) : Prop where
  fits : ∀ p ∈ m.sites, p.Fits
  apart : m.sites.Pairwise Site.Apart
  layers : ∀ p ∈ m.sites, Layers m.mem p (m.marks p) (frames p)
  waits : ∀ p ∈ m.waiting, Waits m.mem p (m.mark p) (call p)
  ring : m.cpu.cs = userCode ∧ m.marks m.current = []
    ∨ m.cpu.cs = kernelCode ∧ m.current.base.toNat ≤ m.cpu.rsp.toNat
      ∧ m.cpu.rsp.toNat ≤ (m.mark m.current).toNat
  trapFrame : ∀ p ∈ m.sites, ∀ a ∈ (m.marks p).getLast?, ∀ f ∈ (frames p).getLast?,
    f.intNo = 128 → load m.mem (field p.pcb pcbTrapFrame) = a

variable {m m' : Machine} {frames frames' : Site → List Frame} {call call' : Site → Call}

@[simp] theorem core_sp (m : Machine) : m.core.sp = m.cpu.rsp := rfl

@[simp] theorem core_mem (m : Machine) : m.core.mem = m.mem := rfl

theorem started_mem (m : Machine) (entryPoint userStack rflags : Word) :
    (m.started entryPoint userStack rflags).mem
      = (enterUserMode entryPoint userStack rflags m.core).mem := rfl

theorem started_cpu (m : Machine) (entryPoint userStack rflags : Word) :
    (m.started entryPoint userStack rflags).cpu
      = iretq (enterUserMode entryPoint userStack rflags m.core) := rfl

/-- What `switch_to` leaves in registers and memory. -/
theorem switched_core (m : Machine) (next : Site) (ret : Word) :
    (m.switched next ret).core = callSwitchTo m.current.pcb next.pcb ret m.core := by
  unfold switched core
  generalize callSwitchTo m.current.pcb next.pcb ret _ = c
  rfl

theorem switched_cs (m : Machine) (next : Site) (ret : Word) :
    (m.switched next ret).cpu.cs = m.cpu.cs := by
  unfold switched
  generalize callSwitchTo m.current.pcb next.pcb ret _ = c
  rfl

namespace Inv

theorem current_fits (I : m.Inv frames call) : m.current.Fits := I.fits _ List.mem_cons_self

theorem current_layers (I : m.Inv frames call) :
    Layers m.mem m.current (m.marks m.current) (frames m.current) :=
  I.layers _ List.mem_cons_self

theorem apart_waiting (I : m.Inv frames call) (hq : q ∈ m.waiting) : m.current.Apart q :=
  List.rel_of_pairwise_cons I.apart hq

theorem ne_current (I : m.Inv frames call) (hq : q ∈ m.waiting) : q ≠ m.current :=
  ((I.apart_waiting hq).ne I.current_fits).symm

theorem mark_le (I : m.Inv frames call) (hp : p ∈ m.sites) : (m.mark p).toNat ≤ p.top.toNat :=
  (I.layers p hp).mark_le

theorem kernel (I : m.Inv frames call) (hm : m.cpu.cs = kernelCode) :
    m.current.base.toNat ≤ m.cpu.rsp.toNat
      ∧ m.cpu.rsp.toNat ≤ (m.mark m.current).toNat := by
  rcases I.ring with ⟨hcs, -⟩ | ⟨-, h⟩
  · exact absurd (hcs.symm.trans hm) (by decide)
  · exact h

theorem user (I : m.Inv frames call) (hm : m.cpu.cs = userCode) : m.marks m.current = [] := by
  rcases I.ring with ⟨-, h⟩ | ⟨hcs, -⟩
  · exact h
  · exact absurd (hcs.symm.trans hm) (by decide)

/-- A step of the task that runs: the other tasks are as they were. -/
theorem of_current (I : m.Inv frames call) (hcur : m'.current = m.current)
    (hwait : m'.waiting = m.waiting) (hmarks : ∀ q ∈ m.waiting, m'.marks q = m.marks q)
    (hframes : ∀ q ∈ m.waiting, frames' q = frames q)
    (hkeeps : ∀ q ∈ m.waiting, Keeps m.mem m'.mem q)
    (hlayers : Layers m'.mem m.current (m'.marks m.current) (frames' m.current))
    (hring : m'.cpu.cs = userCode ∧ m'.marks m.current = []
      ∨ m'.cpu.cs = kernelCode ∧ m.current.base.toNat ≤ m'.cpu.rsp.toNat
        ∧ m'.cpu.rsp.toNat ≤ (m'.mark m.current).toNat)
    (htf : ∀ a ∈ (m'.marks m.current).getLast?, ∀ f ∈ (frames' m.current).getLast?,
      f.intNo = 128 → load m'.mem (field m.current.pcb pcbTrapFrame) = a) :
    m'.Inv frames' call where
  fits := by
    rw [sites, hcur, hwait]
    exact I.fits
  apart := by
    rw [sites, hcur, hwait]
    exact I.apart
  layers := by
    rw [sites, hcur, hwait]
    intro p hp
    rcases List.mem_cons.mp hp with rfl | hq
    · exact hlayers
    · rw [hmarks p hq, hframes p hq]
      exact (I.layers p hp).keeps (I.fits p hp) (hkeeps p hq)
  waits := by
    rw [hwait]
    intro p hp
    have hsite := List.mem_cons_of_mem m.current hp
    rw [mark, hmarks p hp]
    exact (I.waits p hp).keeps (I.fits p hsite) (I.mark_le hsite) (hkeeps p hp)
  ring := by
    rw [hcur]
    exact hring
  trapFrame := by
    rw [sites, hcur, hwait]
    intro p hp
    rcases List.mem_cons.mp hp with rfl | hq
    · exact htf
    · rw [hmarks p hq, hframes p hq, ((hkeeps p hq).pointer (I.fits p hp)).2]
      exact I.trapFrame p hp

/-- What is written on the current stack, or in the current PCB's pointers. -/
theorem keeps (I : m.Inv frames call) {ws : List (ℕ × ℕ)} (h : Wrote m.mem mem' ws)
    (hw : ∀ w ∈ ws, m.current.base.toNat ≤ w.1 ∧ w.1 + w.2 ≤ m.current.top.toNat
      ∨ m.current.pcb.toNat ≤ w.1 ∧ w.1 + w.2 ≤ m.current.pcb.toNat + 32)
    (hq : q ∈ m.waiting) : Keeps m.mem mem' q := by
  have hroom := I.current_fits.room
  refine .of_wrote h (I.apart_waiting hq) fun w hmem => ?_
  rcases hw w hmem with ⟨hle, hle'⟩ | ⟨hle, hle'⟩
  · refine ⟨m.current.stack, by simp [Site.ranges], hle, ?_⟩
    simp only [Site.stack]
    omega
  · refine ⟨(m.current.pcb.toNat, pcbSize), by simp [Site.ranges], hle, ?_⟩
    simp only [pcbSize]
    omega

/-! ### The task that runs -/

theorem compute (I : m.Inv frames call) {u : User} (hm : m.cpu.cs = userCode)
    (hu : u.cs = userCode) : Machine.Inv { m with cpu := u } frames call :=
  I.of_current rfl rfl (fun _ _ => rfl) (fun _ _ => rfl)
    (fun _ _ => ⟨fun _ _ _ => rfl, fun _ _ _ => rfl⟩) I.current_layers (.inl ⟨hu, I.user hm⟩)
    (I.trapFrame _ List.mem_cons_self)

theorem work (I : m.Inv frames call) {c : Core} (rflags ss : Word) (hc : m.Work c) :
    Machine.Inv { m with cpu := ⟨c.reg, kernelCode, rflags, c.sp, ss⟩, mem := c.mem }
      frames call := by
  refine I.of_current rfl rfl (fun _ _ => rfl) (fun _ _ => rfl) hc.others
    (I.current_layers.of_same hc.kept) (.inr ⟨rfl, hc.base, hc.below⟩) ?_
  intro a ha f hf h128
  obtain ⟨-, -, -, h24⟩ := I.current_fits.fields
  rw [← I.trapFrame _ List.mem_cons_self a ha f hf h128, h24]
  refine load_of_same (hc.pointers.mono ?_ ?_) <;>
  · simp only [Site.pointers, pcbContext]
    omega

/-- Where a frame is put. -/
theorem frameTop_spec (I : m.Inv frames call) {n : ℕ}
    (hm : m.cpu.cs = userCode ∨ m.cpu.cs = kernelCode ∧ n ≠ 128 ∧ m.Room 192) :
    m.current.base.toNat + 176 ≤ m.frameTop.toNat
      ∧ m.frameTop.toNat ≤ (m.mark m.current).toNat
      ∧ (m.cpu.cs = userCode ∧ m.frameTop = m.current.top
        ∨ m.cpu.cs = kernelCode ∧ n ≠ 128 ∧ m.frameTop.toNat ≤ m.cpu.rsp.toNat
          ∧ m.cpu.rsp.toNat ≤ (m.mark m.current).toNat) := by
  have hfit := I.current_fits.room
  unfold kstackSize at hfit
  unfold frameTop
  rcases hm with hcs | ⟨hcs, hn, hroom⟩
  · have hmark : m.mark m.current = m.current.top := by rw [mark, I.user hcs, List.headD_nil]
    rw [if_pos hcs, hmark]
    exact ⟨by omega, le_rfl, .inl ⟨hcs, rfl⟩⟩
  · obtain ⟨-, hle⟩ := I.kernel hcs
    have hne : m.cpu.cs ≠ userCode := by
      rw [hcs]
      decide
    unfold Room at hroom
    have hmod : (m.cpu.rsp - m.cpu.rsp % 16).toNat = m.cpu.rsp.toNat - m.cpu.rsp.toNat % 16 := by
      have hlt := m.cpu.rsp.isLt
      have hrem : (m.cpu.rsp % 16).toNat = m.cpu.rsp.toNat % 16 := BitVec.toNat_umod
      rw [BitVec.toNat_sub_of_le, hrem]
      rw [BitVec.le_def, hrem]
      exact Nat.mod_le _ _
    rw [if_neg hne, hmod]
    exact ⟨by omega, by omega, .inr ⟨hcs, hn, by omega, hle⟩⟩

/-- A part of the stack and the pointers of the PCB. -/
theorem own_apart (I : m.Inv frames call) {a n : ℕ} (ha : m.current.base.toNat ≤ a)
    (hn : a + n ≤ m.current.top.toNat) {i k : ℕ} (hi : i + k ≤ 32) :
    Separate (m.current.pcb.toNat + i, k) (a, n) := by
  refine I.current_fits.apart.symm.mono ?_ ?_ ha ?_
  · exact Nat.le_add_right _ _
  · simp only [pcbSize]
    omega
  · simp only [Site.stack]
    omega

theorem interrupt (I : m.Inv frames call) {n : ℕ} (err : Word) (hn : n ∈ gates)
    (hm : m.cpu.cs = userCode ∨ m.cpu.cs = kernelCode ∧ n ≠ 128 ∧ m.Room 192) :
    (m.interrupted n err).Inv
        (Function.update frames m.current (⟨m.cpu, n, err⟩ :: frames m.current)) call
      ∧ ∀ q ∈ m.waiting, Keeps m.mem (m.interrupted n err).mem q := by
  obtain ⟨hbase, hle, hcpl⟩ := I.frameTop_spec hm
  have htop := I.mark_le (List.mem_cons_self (a := m.current))
  obtain ⟨-, -, -, h24⟩ := I.current_fits.fields
  obtain ⟨hwords, hsp, hwrote⟩ := @entry_frame n hn err m.cpu m.frameTop m.mem (by omega)
  have ha : (m.frameTop - 176#64).toNat = m.frameTop.toNat - 176 := sub_toNat (by omega)
  have hmem : (m.interrupted n err).mem
      = if n = 128 then save (entry n err m.cpu m.frameTop m.mem).mem (m.current.pcb.toNat + 24)
        (m.frameTop - 176#64) else (entry n err m.cpu m.frameTop m.mem).mem := by
    rw [← hsp, ← h24]
    rfl
  have hmarks : (m.interrupted n err).marks m.current
      = (m.frameTop - 176#64) :: m.marks m.current := by
    rw [← hsp]
    exact Function.update_self ..
  have hcpu : (m.interrupted n err).cpu.rsp = m.frameTop - 176#64 := hsp
  generalize entry n err m.cpu m.frameTop m.mem = c at hwords hwrote hmem
  have hall : Wrote m.mem (m.interrupted n err).mem
      [(m.frameTop.toNat - 176, 176), (m.current.pcb.toNat + 24, 8)] := by
    rw [hmem]
    split
    · exact hwrote.trans (wrote_save _ _ _)
    · exact hwrote.mono fun w hw => ⟨w, List.mem_append_left _ hw, le_rfl, le_rfl⟩
  have hkeeps : ∀ q ∈ m.waiting, Keeps m.mem (m.interrupted n err).mem q := by
    refine fun q hq => I.keeps hall (fun w hw => ?_) hq
    simp only [List.mem_cons, List.not_mem_nil, or_false] at hw
    rcases hw with rfl | rfl
    · exact .inl ⟨by dsimp only; omega, by dsimp only; omega⟩
    · exact .inr ⟨by dsimp only; omega, by dsimp only; omega⟩
  refine ⟨I.of_current rfl rfl (fun q hq => Function.update_of_ne (I.ne_current hq) ..)
    (fun q hq => Function.update_of_ne (I.ne_current hq) ..) hkeeps ?_ (.inr ⟨rfl, ?_, ?_⟩) ?_,
    hkeeps⟩
  · rw [hmarks, Function.update_self]
    refine ⟨⟨?_, by omega, ?_, hn, ?_⟩, I.current_layers.of_same (hall _ fun w hw => ?_)⟩
    · rw [ha, hmem]
      split
      · refine hwords.of_same (save_same _ _ (I.own_apart (by omega) ?_ (by omega)))
        rw [Frame.words_length]
        omega
      · exact hwords
    · rw [ha]
      have : (m.mark m.current).toNat = ((m.marks m.current).headD m.current.top).toNat := rfl
      omega
    · rcases hcpl with ⟨hcs, htop⟩ | ⟨hcs, h128, hbelow, habove⟩
      · exact .inl ⟨hcs, I.user hcs, by rw [ha, htop]; omega⟩
      · exact .inr ⟨hcs, h128, by dsimp only; omega, habove⟩
    · have hmark : (m.mark m.current).toNat = ((m.marks m.current).headD m.current.top).toNat := rfl
      simp only [List.mem_cons, List.not_mem_nil, or_false] at hw
      rcases hw with rfl | rfl
      · exact .inl (by dsimp only; omega)
      · exact I.own_apart (by omega) (by omega) (by omega)
  · rw [hcpu]
    omega
  · rw [hcpu, mark, hmarks, List.headD_cons]
  · rw [hmarks, Function.update_self]
    intro a hlast f hf h128
    rcases hnil : m.marks m.current with _ | ⟨a', as⟩
    · have hframes := I.current_layers.nil_iff.mp hnil
      rw [hnil] at hlast
      rw [hframes] at hf
      obtain rfl : a = m.frameTop - 176#64 := by simpa [eq_comm] using hlast
      obtain rfl : f = ⟨m.cpu, n, err⟩ := by simpa [eq_comm] using hf
      rw [h24, hmem, if_pos h128, load_save]
    · obtain ⟨f', fs, hframes⟩ : ∃ f' fs, frames m.current = f' :: fs := by
        rcases h : frames m.current with _ | ⟨f', fs⟩
        · exact absurd (I.current_layers.nil_iff.mpr h) (by simp [hnil])
        · exact ⟨f', fs, rfl⟩
      have hne : n ≠ 128 := by
        rcases hcpl with ⟨hcs, -⟩ | ⟨-, hne, -⟩
        · exact absurd (I.user hcs) (by simp [hnil])
        · exact hne
      have hold := I.trapFrame _ List.mem_cons_self
      rw [hnil, hframes] at hold
      rw [hnil, List.getLast?_cons_cons] at hlast
      rw [hframes, List.getLast?_cons_cons] at hf
      rw [hmem, if_neg hne, h24, ← hold a hlast f hf h128, h24]
      refine load_of_same (hwrote _ fun w hw => ?_)
      obtain rfl := List.mem_singleton.mp hw
      exact (I.own_apart (by omega) (by omega) (by omega)).symm

/-- In a system call, the task's one frame is the one of the call. -/
theorem syscall (I : m.Inv frames call) (hmark : m.marks m.current ≠ [])
    (hsys : load m.mem (field (m.mark m.current) (offsetOf registersT .intNo)) = 128) :
    ∃ a f, m.marks m.current = [a] ∧ frames m.current = [f] ∧ f.intNo = 128
      ∧ f.cpu.cs = userCode ∧ a.toNat + 176 = m.current.top.toNat
      ∧ Layer m.mem m.current a [] f := by
  have hlayers := I.current_layers
  rcases hmarks : m.marks m.current with _ | ⟨a, above⟩
  · exact absurd hmarks hmark
  rcases hframes : frames m.current with _ | ⟨f, fs⟩
  · exact absurd (hlayers.nil_iff.mpr hframes) hmark
  rw [hmarks, hframes] at hlayers
  obtain ⟨h, hs⟩ := hlayers
  have hroom := h.room
  have hle := hs.mark_le
  have hlt := m.current.top.isLt
  have hint : f.intNo = 128 := by
    have hload : load m.mem (a.toNat + 8 * 15) = BitVec.ofNat 64 f.intNo :=
      h.words.load (i := 15) (by simp)
    have hat : field a (offsetOf registersT .intNo) = a.toNat + 8 * 15 := by
      rw [show offsetOf registersT .intNo = 8 * 15 from rfl, field_toNat (by omega)]
    rw [mark, hmarks, List.headD_cons, hat, hload] at hsys
    have hgate := h.gate
    simp only [gates, List.mem_cons, List.not_mem_nil, or_false] at hgate
    rcases hgate with hn | hn | hn | hn | hn <;> rw [hn] at hsys ⊢ <;> revert hsys <;> decide
  rcases h.ring with ⟨hcs, rfl, htop⟩ | ⟨-, hne, -⟩
  · exact ⟨a, f, rfl, by rw [hs.nil_iff.mp rfl], hint, hcs, htop, h⟩
  · exact absurd hint hne

theorem store (I : m.Inv frames call) {s : Slot} (v : Word) (hm : m.cpu.cs = kernelCode)
    (hmark : m.marks m.current ≠ []) (hs : s ∈ syscallSlots)
    (hsys : load m.mem (field (m.mark m.current) (offsetOf registersT .intNo)) = 128) :
    ∃ f, frames m.current = [f]
      ∧ (m.stored s v).Inv (Function.update frames m.current [f.store s v]) call
      ∧ ∀ q ∈ m.waiting, Keeps m.mem (m.stored s v).mem q := by
  obtain ⟨a, f, hmarks, hframes, h128, hcs, htop, hlayer⟩ := I.syscall hmark hsys
  have hlt := m.current.top.isLt
  have hbase := hlayer.base
  have hidx : registersT.idxOf s < 22 := by
    simp only [syscallSlots, List.mem_cons, List.not_mem_nil, or_false] at hs
    rcases hs with rfl | rfl | rfl | rfl | rfl <;> decide
  have hat : field (m.mark m.current) (offsetOf registersT s)
      = a.toNat + 8 * registersT.idxOf s := by
    rw [mark, hmarks, List.headD_cons]
    exact field_toNat (by unfold offsetOf; omega)
  have hmem : (m.stored s v).mem = save m.mem (a.toNat + 8 * registersT.idxOf s) v := by
    rw [← hat]
    rfl
  have hkeeps : ∀ q ∈ m.waiting, Keeps m.mem (m.stored s v).mem q := by
    refine fun q hq => I.keeps (hmem ▸ wrote_save _ _ _) (fun w hw => ?_) hq
    obtain rfl := List.mem_singleton.mp hw
    exact .inl ⟨by dsimp only; omega, by dsimp only; omega⟩
  refine ⟨f, hframes, I.of_current rfl rfl (fun _ _ => rfl)
    (fun q hq => Function.update_of_ne (I.ne_current hq) ..) hkeeps ?_ (.inr ⟨hm, I.kernel hm⟩) ?_,
    hkeeps⟩
  · rw [show (m.stored s v).marks = m.marks from rfl, hmarks, Function.update_self]
    refine ⟨⟨?_, hbase, hlayer.room, ?_, .inl ⟨?_, rfl, htop⟩⟩, trivial⟩
    · rw [hmem, ← f.words_store hs]
      exact hlayer.words.save v (by simpa using hidx)
    · have : (f.store s v).intNo = f.intNo := by cases s <;> rfl
      exact this ▸ hlayer.gate
    · have : (f.store s v).cpu.cs = f.cpu.cs := by cases s <;> rfl
      exact this.trans hcs
  · rw [show (m.stored s v).marks = m.marks from rfl, hmarks, Function.update_self]
    intro a' ha' _ _ _
    obtain ⟨-, -, -, h24⟩ := I.current_fits.fields
    rw [hmem, h24, load_save_of_separate (I.own_apart (by omega) (by omega) (by omega)).symm, ← h24]
    refine I.trapFrame _ List.mem_cons_self a' (by rwa [hmarks]) f (by rw [hframes]; simp) h128

theorem iret (I : m.Inv frames call) {code : List Instr}
    (hcode : code ∈ [isrReturn, forkRetEntry]) (hmark : m.marks m.current ≠ [])
    (hsp : m.cpu.rsp = m.mark m.current) :
    ∃ f fs, frames m.current = f :: fs ∧ (m.returned code).cpu = f.cpu
      ∧ (m.returned code).mem = m.mem
      ∧ (m.returned code).Inv (Function.update frames m.current fs) call := by
  obtain rfl : code = isrReturn := by simpa [show forkRetEntry = isrReturn from rfl] using hcode
  have hlayers := I.current_layers
  rcases hmarks : m.marks m.current with _ | ⟨a, above⟩
  · exact absurd hmarks hmark
  rcases hframes : frames m.current with _ | ⟨f, fs⟩
  · exact absurd (hlayers.nil_iff.mpr hframes) hmark
  rw [hmarks, hframes] at hlayers
  obtain ⟨h, hs⟩ := hlayers
  have hroom := h.room
  have hle := hs.mark_le
  have hlt := m.current.top.isLt
  have hbase := h.base
  have ha : m.cpu.rsp = a := by rw [hsp, mark, hmarks, List.headD_cons]
  have htop : m.core.Top f.words := by
    refine ⟨?_, ?_⟩ <;> rw [show m.core.sp = a from ha]
    · rw [Frame.words_length]
      omega
    · exact h.words
  have hcpu : (m.returned isrReturn).cpu = f.cpu := isrReturn_words htop
  have hnew : (m.returned isrReturn).marks m.current = above := by
    refine (Function.update_self ..).trans ?_
    rw [hmarks, List.tail_cons]
  refine ⟨f, fs, rfl, hcpu, rfl, I.of_current rfl rfl
    (fun q hq => Function.update_of_ne (I.ne_current hq) ..)
    (fun q hq => Function.update_of_ne (I.ne_current hq) ..)
    (fun _ _ => ⟨fun _ _ _ => rfl, fun _ _ _ => rfl⟩) ?_ ?_ ?_⟩
  · rw [hnew, Function.update_self]
    exact hs
  · rw [hcpu, mark, hnew]
    rcases h.ring with ⟨hcs, hnil, -⟩ | ⟨hcs, -, hbelow, habove⟩
    · exact .inl ⟨hcs, hnil⟩
    · exact .inr ⟨hcs, by omega, habove⟩
  · rw [hnew, Function.update_self]
    intro a' ha' f' hf' h128
    rcases above with _ | ⟨b, above⟩
    · simp at ha'
    rcases fs with _ | ⟨g, fs⟩
    · simp at hf'
    refine I.trapFrame _ List.mem_cons_self a' ?_ f' ?_ h128
    · rwa [hmarks, List.getLast?_cons_cons]
    · rwa [hframes, List.getLast?_cons_cons]

theorem enterUser (I : m.Inv frames call) (entryPoint userStack rflags : Word)
    (hm : m.cpu.cs = kernelCode) (hmark : m.marks m.current = []) (hroom : m.Room 40) :
    (m.started entryPoint userStack rflags).Inv frames call
      ∧ ((m.started entryPoint userStack rflags).cpu.cs = userCode
        ∧ (m.started entryPoint userStack rflags).cpu.reg .rip = entryPoint
        ∧ (m.started entryPoint userStack rflags).cpu.rsp = userStack)
      ∧ ∀ q ∈ m.waiting, Keeps m.mem (m.started entryPoint userStack rflags).mem q := by
  obtain ⟨-, hle⟩ := I.kernel hm
  rw [mark, hmark, List.headD_nil] at hle
  unfold Room at hroom
  have hsp : 40 ≤ m.core.sp.toNat := by
    rw [core_sp]
    omega
  obtain ⟨hrip, hcs, -, hrsp, -⟩ := enterUserMode_iretq entryPoint userStack rflags hsp
  rw [← started_cpu] at hrip hcs hrsp
  have hwrote : Wrote m.mem (m.started entryPoint userStack rflags).mem
      [(m.cpu.rsp.toNat - 40, 40)] := by
    rw [started_mem, ← core_mem, ← core_sp]
    exact enterUserMode_wrote entryPoint userStack rflags hsp
  have hkeeps : ∀ q ∈ m.waiting, Keeps m.mem (m.started entryPoint userStack rflags).mem q := by
    refine fun q hq => I.keeps hwrote (fun w hw => ?_) hq
    obtain rfl := List.mem_singleton.mp hw
    exact .inl ⟨by dsimp only; omega, by dsimp only; omega⟩
  have hnil := I.current_layers.nil_iff.mp hmark
  refine ⟨I.of_current rfl rfl (fun _ _ => rfl) (fun _ _ => rfl) hkeeps ?_ (.inl ⟨hcs, hmark⟩) ?_,
    ⟨hcs, hrip, hrsp⟩, hkeeps⟩
  · rw [show (m.started entryPoint userStack rflags).marks = m.marks from rfl, hmark, hnil]
    trivial
  · rw [show (m.started entryPoint userStack rflags).marks = m.marks from rfl, hmark]
    simp

/-! ### The other tasks -/

/-- The call of `switch_to` that is left behind. -/
def leaving (m : Machine) (ret : Word) : Call :=
  ⟨callRegs m.current.pcb ret m.core, m.cpu.rsp⟩

theorem switchTo (I : m.Inv frames call) {next : Site} (ret : Word)
    (hm : m.cpu.cs = kernelCode) (hnext : next ∈ m.waiting) (hroom : m.Room 64) :
    (m.switched next ret).Inv frames (Function.update call m.current (leaving m ret))
      ∧ (∀ r ∈ contextRegs, (m.switched next ret).cpu.reg r = (call next).reg r)
      ∧ (m.switched next ret).cpu.rsp = (call next).rsp
      ∧ (∀ q ∈ m.waiting, Keeps m.mem (m.switched next ret).mem q)
      ∧ Wrote m.mem (m.switched next ret).mem
        [(m.cpu.rsp.toNat - 64, 64), (m.current.pcb.toNat + 16, 8)] := by
  obtain ⟨-, hle⟩ := I.kernel hm
  unfold Room at hroom
  have hcur := List.mem_cons_self (a := m.current) (l := m.waiting)
  have htop := I.mark_le hcur
  have hsite := List.mem_cons_of_mem m.current hnext
  obtain ⟨-, -, h16, h24⟩ := I.current_fits.fields
  have hsp : 64 ≤ m.core.sp.toNat := by
    rw [core_sp]
    omega
  have hsub : (m.cpu.rsp - 64#64).toNat = m.cpu.rsp.toNat - 64 := sub_toNat (by omega)
  have hpcb : Separate (m.core.sp.toNat - 64, 64) (field m.current.pcb pcbContext, 8) := by
    rw [h16, core_sp]
    exact (I.own_apart (a := m.cpu.rsp.toNat - 64) (by omega) (by omega) (by omega)).symm
  obtain ⟨hwords, hload, hwrote⟩ := @callSwitchTo_leaves _ next.pcb ret _ hsp hpcb
  rw [← switched_core, core_mem] at hwords hload hwrote
  rw [core_mem, core_sp, h16] at hwrote
  rw [core_sp] at hwords hload
  have hkeeps : ∀ q ∈ m.waiting, Keeps m.mem (m.switched next ret).mem q := by
    refine fun q hq => I.keeps hwrote (fun w hw => ?_) hq
    simp only [List.mem_cons, List.not_mem_nil, or_false] at hw
    rcases hw with rfl | rfl
    · exact .inl ⟨by dsimp only; omega, by dsimp only; omega⟩
    · exact .inr ⟨by dsimp only; omega, by dsimp only; omega⟩
  have hw := I.waits next hnext
  have hwk := hw.keeps (I.fits next hsite) (I.mark_le hsite) (hkeeps next hnext)
  obtain ⟨hctx, -⟩ := (hkeeps next hnext).pointer (I.fits next hsite)
  have hlt := next.top.isLt
  have hnexttop := I.mark_le hsite
  have hnextroom := hw.room
  have hregs := hwk.regs
  rw [hctx] at hregs
  rw [← core_mem (m.switched next ret), switched_core, ← core_mem m] at hregs
  obtain ⟨htakes, hrsp⟩ := callSwitchTo_takes rfl (by rw [core_mem]; omega) hregs
  rw [← switched_core] at htakes hrsp
  rw [core_mem, core_sp] at hrsp
  have hperm : (m.switched next ret).sites.Perm m.sites := by
    refine (List.Perm.swap m.current next (m.waiting.erase next)).trans (.cons _ ?_)
    exact (List.perm_cons_erase hnext).symm
  have hne := I.ne_current hnext
  have hspnat : (m.switched next ret).cpu.rsp.toNat
      = (load m.mem (field next.pcb pcbContext)).toNat + 64 := by
    rw [hrsp, BitVec.toNat_add]
    exact Nat.mod_eq_of_lt (by
      show _ + 64 < 2 ^ 64
      omega)
  -- What is below the last mark does not matter for the frames of the task that leaves.
  have hcurlayers : Layers (m.switched next ret).mem m.current (m.marks m.current)
      (frames m.current) := by
    refine I.current_layers.of_same (hwrote _ fun w hw => ?_)
    have hmark : (m.mark m.current).toNat = ((m.marks m.current).headD m.current.top).toNat := rfl
    simp only [List.mem_cons, List.not_mem_nil, or_false] at hw
    rcases hw with rfl | rfl
    · exact .inl (by dsimp only; omega)
    · exact I.own_apart (by omega) (by omega) (by omega)
  refine ⟨⟨?_, ?_, ?_, ?_, ?_, ?_⟩, htakes, ?_, hkeeps, hwrote⟩
  · exact fun p hp => I.fits p (hperm.mem_iff.mp hp)
  · exact (hperm.pairwise_iff fun h => h.symm).mpr I.apart
  · intro p hp
    rcases List.mem_cons.mp (hperm.mem_iff.mp hp) with rfl | hq
    · exact hcurlayers
    · exact (I.layers p (List.mem_cons_of_mem _ hq)).keeps
        (I.fits p (List.mem_cons_of_mem _ hq)) (hkeeps p hq)
  · intro p hp
    rcases List.mem_cons.mp hp with rfl | hq
    · rw [Function.update_self]
      refine ⟨?_, ?_, ?_, ?_⟩ <;> rw [hload]
      · rw [hsub]
        omega
      · rw [hsub]
        show _ ≤ (m.mark m.current).toNat
        omega
      · exact (BitVec.sub_add_cancel ..).symm
      · rw [hsub]
        exact hwords
    · have hq' := List.mem_of_mem_erase hq
      rw [Function.update_of_ne (I.ne_current hq')]
      have hs := List.mem_cons_of_mem m.current hq'
      exact (I.waits p hq').keeps (I.fits p hs) (I.mark_le hs) (hkeeps p hq')
  · refine .inr ⟨hm, ?_, ?_⟩
    · rw [hspnat]
      have := hw.base
      show next.base.toNat ≤ _
      omega
    · rw [hspnat]
      exact hnextroom
  · intro p hp
    rcases List.mem_cons.mp (hperm.mem_iff.mp hp) with rfl | hq
    · have hsame : load (m.switched next ret).mem (field m.current.pcb pcbTrapFrame)
          = load m.mem (field m.current.pcb pcbTrapFrame) := by
        rw [h24]
        refine load_of_same (hwrote _ fun w hw => ?_)
        simp only [List.mem_cons, List.not_mem_nil, or_false] at hw
        rcases hw with rfl | rfl
        · exact (I.own_apart (by omega) (by omega) (by omega)).symm
        · exact .inl (by dsimp only; omega)
      rw [hsame]
      exact I.trapFrame _ hcur
    · have hs := List.mem_cons_of_mem m.current hq
      rw [((hkeeps p hq).pointer (I.fits p hs)).2]
      exact I.trapFrame p hs
  · exact hrsp.trans hw.rsp.symm

/-! ### New tasks -/

theorem fresh_ne {child : Site} (hc : m.Fresh child) (hq : q ∈ m.sites) : q ≠ child :=
  ((hc.apart q hq).ne hc.fits).symm

theorem spawn (I : m.Inv frames call) {child : Site} (hc : m.Fresh child) {n : ℕ}
    (hn : n ≤ kstackSize) {above : List Word} {fs : List Frame} {cl : Call}
    (hwrote : Wrote m.mem mem' (child.newRanges n)) (hlayers : Layers mem' child above fs)
    (hwaits : Waits mem' child (above.headD child.top) cl)
    (htf : ∀ a ∈ above.getLast?, ∀ f ∈ fs.getLast?, f.intNo = 128 →
      load mem' (field child.pcb pcbTrapFrame) = a) :
    (m.spawned child above mem').Inv (Function.update frames child fs)
        (Function.update call child cl)
      ∧ ∀ q ∈ m.sites, Keeps m.mem (m.spawned child above mem').mem q := by
  have hroom := hc.fits.room
  have hkeeps : ∀ q ∈ m.sites, Keeps m.mem mem' q := by
    refine fun q hq => .of_wrote hwrote (hc.apart q hq) fun w hw => ?_
    simp only [Site.newRanges, List.mem_cons, List.not_mem_nil, or_false] at hw
    rcases hw with rfl | rfl
    · exact ⟨(child.pcb.toNat, pcbSize), by simp [Site.ranges], le_rfl, by
        simp only [pcbSize]
        omega⟩
    · refine ⟨child.stack, by simp [Site.ranges], ?_, ?_⟩ <;>
      · simp only [Site.stack]
        omega
  have hmarks : ∀ q ∈ m.sites, (m.spawned child above mem').marks q = m.marks q :=
    fun q hq => Function.update_of_ne (fresh_ne hc hq) ..
  have hnew : (m.spawned child above mem').marks child = above := Function.update_self ..
  have hsites : ∀ p ∈ (m.spawned child above mem').sites, p = child ∨ p ∈ m.sites := by
    intro p hp
    simp only [sites, spawned, List.mem_cons] at hp ⊢
    tauto
  refine ⟨⟨?_, ?_, ?_, ?_, ?_, ?_⟩, hkeeps⟩
  · intro p hp
    rcases hsites p hp with rfl | hp
    · exact hc.fits
    · exact I.fits p hp
  · have hperm : (m.spawned child above mem').sites.Perm (child :: m.sites) :=
      List.Perm.swap child m.current m.waiting
    exact (hperm.pairwise_iff fun h => h.symm).mpr
      (List.pairwise_cons.mpr ⟨hc.apart, I.apart⟩)
  · intro p hp
    rcases hsites p hp with rfl | hp
    · rw [hnew, Function.update_self]
      exact hlayers
    · rw [hmarks p hp, Function.update_of_ne (fresh_ne hc hp)]
      exact (I.layers p hp).keeps (I.fits p hp) (hkeeps p hp)
  · intro p hp
    rcases List.mem_cons.mp hp with rfl | hp
    · rw [mark, hnew, Function.update_self]
      exact hwaits
    · have hs := List.mem_cons_of_mem m.current hp
      rw [mark, hmarks p hs, Function.update_of_ne (fresh_ne hc hs)]
      exact (I.waits p hp).keeps (I.fits p hs) (I.mark_le hs) (hkeeps p hs)
  · show m.cpu.cs = userCode ∧ (m.spawned child above mem').marks m.current = [] ∨ _
    rw [mark, show (m.spawned child above mem').current = m.current from rfl,
      hmarks _ List.mem_cons_self]
    exact I.ring
  · intro p hp
    rcases hsites p hp with rfl | hp
    · rw [hnew, Function.update_self]
      exact htf
    · rw [hmarks p hp, Function.update_of_ne (fresh_ne hc hp),
        show (m.spawned child above mem').mem = mem' from rfl,
        ((hkeeps p hp).pointer (I.fits p hp)).2]
      exact I.trapFrame p hp

/-- The registers that stand at the top of an empty stack. -/
theorem waits_top {child : Site} (hc : child.Fits) {reg : Reg → Word}
    (hwords : Words mem' (child.top.toNat - 64) (contextRegs.map reg))
    (hctx : load mem' (field child.pcb pcbContext) = child.top - 64#64) :
    Waits mem' child child.top ⟨reg, child.top⟩ := by
  have hroom := hc.room
  unfold kstackSize at hroom
  obtain ⟨hsub, -⟩ := hc.context
  refine ⟨?_, ?_, ?_, ?_⟩ <;> rw [hctx]
  · rw [hsub]
    omega
  · rw [hsub]
    omega
  · exact (BitVec.sub_add_cancel ..).symm
  · rw [hsub]
    exact hwords

theorem kthreadCreate (I : m.Inv frames call) {child : Site} (hc : m.Fresh child)
    (entry func arg : Word) :
    (m.spawned child [] (Trap.kthreadCreate child.pcb child.top entry func arg m.mem)).Inv
        (Function.update frames child [])
        (Function.update call child ⟨kthreadRegs entry func arg, child.top⟩)
      ∧ ∀ q ∈ m.sites, Keeps m.mem
        (m.spawned child [] (Trap.kthreadCreate child.pcb child.top entry func arg m.mem)).mem
        q := by
  obtain ⟨hwords, hctx, hwrote⟩ := kthreadCreate_lays hc.fits entry func arg m.mem
  exact I.spawn hc (by unfold kstackSize; omega) hwrote trivial (waits_top hc.fits hwords hctx)
    (by simp)

theorem createUserProcess (I : m.Inv frames call) {child : Site} (hc : m.Fresh child)
    (entry entryPoint userStackTop : Word) :
    (m.spawned child []
        (Trap.createUserProcess child.pcb child.top entry entryPoint userStackTop m.mem)).Inv
        (Function.update frames child [])
        (Function.update call child ⟨userProcessRegs entry entryPoint userStackTop, child.top⟩)
      ∧ ∀ q ∈ m.sites, Keeps m.mem (m.spawned child []
        (Trap.createUserProcess child.pcb child.top entry entryPoint userStackTop m.mem)).mem
        q := by
  obtain ⟨hwords, hctx, hwrote⟩ :=
    createUserProcess_lays hc.fits entry entryPoint userStackTop m.mem
  exact I.spawn hc (by unfold kstackSize; omega) hwrote trivial (waits_top hc.fits hwords hctx)
    (by simp)

/-- The fork of a task in a system call finds what `Placed` asks for. -/
theorem placed (I : m.Inv frames call) {child : Site} (hc : m.Fresh child) (entry : Word) :
    (m.forkSite child entry).Placed := by
  have hroom := I.current_fits.room
  have hcroom := hc.fits.room
  have hbase := hc.base
  have hlt := m.current.top.isLt
  have hk : kstackSize = 0x4000 := rfl
  have hcbase : child.base.toNat = child.top.toNat - kstackSize := by
    rw [hbase, sub_toNat (by omega)]
  have hstack : kstack child.top = child.stack := by
    simp only [kstack, Site.stack, hcbase, Prod.mk.injEq, true_and]
    omega
  -- The parent's 16 KiB are part of its stack.
  have hsub : ∀ r, Separate m.current.stack r → Separate (kstack m.current.top) r := by
    refine fun r h => h.mono ?_ ?_ le_rfl le_rfl <;>
    · simp only [kstack, Site.stack]
      omega
  have ha := hc.apart _ (List.mem_cons_self (a := m.current) (l := m.waiting))
  refine ⟨I.current_fits.pcb, I.current_fits.pcbFits, hc.fits.pcbFits, ?_, ?_, ?_⟩
  · show kstackSize ≤ m.current.top.toNat
    omega
  · show kstackSize ≤ child.top.toNat
    omega
  · have h₁ := hsub _ (ha child.stack (by simp [Site.ranges]) _
      (List.mem_cons_self (a := m.current.stack))).symm
    have h₂ := hsub _ I.current_fits.apart
    have h₃ := hsub _ (ha (child.pcb.toNat, pcbSize) (by simp [Site.ranges]) _
      (List.mem_cons_self (a := m.current.stack))).symm
    have h₄ := (ha child.stack (by simp [Site.ranges]) (m.current.pcb.toNat, pcbSize)
      (by simp [Site.ranges]))
    have h₅ := hc.fits.apart
    have h₆ := (ha (child.pcb.toNat, pcbSize) (by simp [Site.ranges])
      (m.current.pcb.toNat, pcbSize) (by simp [Site.ranges])).symm
    simp only [List.pairwise_cons, List.mem_cons, List.not_mem_nil, or_false, forall_eq_or_imp,
      forall_eq, List.Pairwise.nil, and_true, IsEmpty.forall_iff, implies_true, forkSite, hstack]
    exact ⟨⟨h₁, h₂, h₃⟩, ⟨h₄, h₅⟩, h₆⟩

/-- The registers of a context that nothing has been written into. -/
theorem exists_regs {ws : List Word} (h : ws.length = 8) : ∃ reg, contextRegs.map reg = ws := by
  refine ⟨fun r => ws.getD (contextRegs.idxOf r) 0, ?_⟩
  match ws, h with
  | [_, _, _, _, _, _, _, _], _ => rfl

theorem sysFork (I : m.Inv frames call) {child : Site} (hc : m.Fresh child) (entry : Word)
    (hmark : m.marks m.current ≠ [])
    (hsys : load m.mem (field (m.mark m.current) (offsetOf registersT .intNo)) = 128) :
    ∃ f cl, frames m.current = [f] ∧ cl.reg .rip = entry
      ∧ cl.rsp = child.top - 176#64
      ∧ (m.spawned child [child.top - BitVec.ofNat 64 (sizeof trapFrameT)]
          ((m.forkSite child entry).sysFork m.mem)).Inv
          (Function.update frames child [f.store (.reg .rax) 0]) (Function.update call child cl)
      ∧ ∀ q ∈ m.sites, Keeps m.mem
        (m.spawned child [child.top - BitVec.ofNat 64 (sizeof trapFrameT)]
          ((m.forkSite child entry).sysFork m.mem)).mem q := by
  obtain ⟨a, f, hmarks, hframes, h128, hcs, htop, hlayer⟩ := I.syscall hmark hsys
  have hk := I.placed hc entry
  have hlt := m.current.top.isLt
  have hclt := child.top.isLt
  have hcroom := hc.fits.room
  unfold kstackSize at hcroom
  obtain ⟨-, -, -, h24⟩ := I.current_fits.fields
  obtain ⟨-, -, hc16, hc24⟩ := hc.fits.fields
  have ha : a = m.current.top - 176#64 := by
    apply BitVec.eq_of_toNat_eq
    rw [sub_toNat (by omega)]
    omega
  obtain ⟨u, n, err⟩ := f
  obtain rfl : n = 128 := h128
  have htf : load m.mem (m.current.pcb.toNat + 24) = m.current.top - 176#64 := by
    rw [← h24, ← ha]
    exact I.trapFrame _ List.mem_cons_self a (by rw [hmarks]; simp) ⟨u, 128, err⟩
      (by rw [hframes]; simp) rfl
  have hframe : Words m.mem (m.current.top.toNat - 176) u.frame := by
    have := hlayer.words
    rwa [ha, sub_toNat (by omega)] at this
  obtain ⟨⟨hrip, hwords⟩, hctx, -⟩ := ForkSite.sysFork_lays hk htf hframe
  obtain ⟨htrap, hwrote⟩ := ForkSite.sysFork_wrote hk m.mem
  generalize (m.forkSite child entry).sysFork m.mem = mem' at hrip hwords hctx htrap hwrote ⊢
  simp only [forkSite] at hrip hwords hctx htrap hwrote
  have hsub : (child.top - 176#64).toNat = child.top.toNat - 176 := sub_toNat (by omega)
  have hsub' : (child.top - 240#64).toNat = child.top.toNat - 240 := sub_toNat (by omega)
  have hnext : child.top.toNat - 184 + 8 = child.top.toNat - 176 := by omega
  have hat : child.top.toNat - 240 + 8 * 7 = child.top.toNat - 184 := by omega
  rw [hnext] at hwords
  obtain ⟨old, hlen, hold⟩ := exists_holds mem' 7 (child.top.toNat - 240)
  obtain ⟨reg, hreg⟩ := @exists_regs (old ++ [entry]) (by simp [hlen])
  have hregs : Words mem' (child.top.toNat - 240) (contextRegs.map reg) := by
    rw [hreg]
    refine hold.append ?_
    rw [hlen, hat]
    exact ⟨hrip, trivial⟩
  have hentry : reg .rip = entry := by
    have := congrArg (·.getLast?) hreg
    simpa [contextRegs] using this
  refine ⟨⟨u, 128, err⟩, ⟨reg, child.top - 176#64⟩, hframes, hentry, rfl, ?_⟩
  refine I.spawn hc (n := 184) (by unfold kstackSize; omega) hwrote ⟨⟨?_, ?_, ?_, ?_, ?_⟩, trivial⟩
    ⟨?_, ?_, ?_, ?_⟩ ?_
  · show Words mem' (child.top - 176#64).toNat (u.setRax 0).frame
    rw [hsub]
    exact hwords
  · show _ ≤ (child.top - 176#64).toNat
    omega
  · show (child.top - 176#64).toNat + 176 ≤ child.top.toNat
    omega
  · exact hlayer.gate
  · refine .inl ⟨hcs, rfl, ?_⟩
    show (child.top - 176#64).toNat + 176 = child.top.toNat
    omega
  · rw [hc16, hctx, hsub']
    omega
  · rw [hc16, hctx, hsub']
    show _ ≤ (child.top - 176#64).toNat
    omega
  · rw [hc16, hctx]
    show child.top - 176#64 = child.top - 240#64 + 64#64
    bv_omega
  · rw [hc16, hctx, hsub']
    exact hregs
  · intro a' ha' _ _ _
    obtain rfl : a' = child.top - BitVec.ofNat 64 (sizeof trapFrameT) := by
      simpa [eq_comm] using ha'
    rw [hc24]
    exact htrap

theorem release (I : m.Inv frames call) {q : Site} :
    (m.released q).Inv frames call := by
  have hsub : ∀ {p}, p ∈ (m.released q).waiting → p ∈ m.waiting := List.mem_of_mem_erase
  have hsite : ∀ {p}, p ∈ (m.released q).sites → p ∈ m.sites := fun hp =>
    (List.mem_cons.mp hp).elim (· ▸ List.mem_cons_self) fun h => List.mem_cons_of_mem _ (hsub h)
  exact ⟨fun p hp => I.fits p (hsite hp),
    I.apart.sublist (List.Sublist.cons_cons _ List.erase_sublist),
    fun p hp => I.layers p (hsite hp), fun p hp => I.waits p (hsub hp), I.ring,
    fun p hp => I.trapFrame p (hsite hp)⟩

/-- A step keeps the invariant, is a step of the tasks, and leaves those that wait alone. -/
theorem step {e : Event} (I : m.Inv frames call) (h : m.Does e m') :
    ∃ frames' call', m'.Inv frames' call'
      ∧ (m.tasks frames call).Step e (m'.tasks frames' call')
      ∧ ∀ q ∈ m.waiting, q ∈ m'.waiting → Keeps m.mem m'.mem q ∧ call' q = call q := by
  have hrefl : ∀ q ∈ m.waiting, Keeps m.mem m.mem q :=
    fun _ _ => ⟨fun _ _ _ => rfl, fun _ _ _ => rfl⟩
  have hsites : ∀ q ∈ m.waiting, q ∈ m.sites := fun q hq => List.mem_cons_of_mem _ hq
  have hnew : ∀ {child : Site}, m.Fresh child → child ∉ m.sites :=
    fun hc hmem => fresh_ne hc hmem rfl
  cases h with
  | compute u hm hu =>
    exact ⟨frames, call, I.compute hm hu, .compute u hm hu, fun q hq _ =>
      ⟨hrefl q hq, rfl⟩⟩
  | work c rflags ss hm hc =>
    exact ⟨frames, call, I.work rflags ss hc, .work _ hm rfl, fun q hq _ =>
      ⟨hc.others q hq, rfl⟩⟩
  | interrupt n err hn hm =>
    obtain ⟨I', hkeeps⟩ := I.interrupt err hn hm
    exact ⟨_, call, I', .interrupt _ n err rfl, fun q hq _ => ⟨hkeeps q hq, rfl⟩⟩
  | store s v hm hmark hs hsys =>
    obtain ⟨f, hf, I', hkeeps⟩ := I.store v hm hmark hs hsys
    exact ⟨_, call, I', .store s v hf, fun q hq _ => ⟨hkeeps q hq, rfl⟩⟩
  | iret code hcode hm hmark hsp =>
    obtain ⟨f, fs, hf, hcpu, hmem, I'⟩ := I.iret hcode hmark hsp
    refine ⟨_, call, I', ?_, fun q hq _ => ⟨hmem ▸ hrefl q hq, rfl⟩⟩
    have := Tasks.Step.iret (t := m.tasks frames call) hf
    unfold tasks at this ⊢
    rw [hcpu]
    exact this
  | switchTo next ret hm hnext hroom =>
    obtain ⟨I', hregs, hsp, hkeeps, -⟩ := I.switchTo ret hm hnext hroom
    have hstep := Tasks.Step.switchTo (t := m.tasks frames call) next (m.switched next ret).cpu
      (m.current.pcb + BitVec.ofNat 64 pcbContext) ret hnext hregs hsp
      (m.switched_cs next ret)
    exact ⟨frames, _, I', hstep, fun q hq _ =>
      ⟨hkeeps q hq, Function.update_of_ne (I.ne_current hq) ..⟩⟩
  | enterUser entryPoint userStack rflags hm hmark hroom =>
    obtain ⟨I', ⟨hcs, hrip, hsp⟩, hkeeps⟩ :=
      I.enterUser entryPoint userStack rflags hm hmark hroom
    exact ⟨frames, call, I', .enterUser _ _ _ (I.current_layers.nil_iff.mp hmark) hcs hrip hsp,
      fun q hq _ => ⟨hkeeps q hq, rfl⟩⟩
  | kthreadCreate child entry func arg hm hc =>
    obtain ⟨I', hkeeps⟩ := I.kthreadCreate hc entry func arg
    exact ⟨_, _, I', .kthreadCreate child entry func arg (hnew hc), fun q hq _ =>
      ⟨hkeeps q (hsites q hq), Function.update_of_ne (fresh_ne hc (hsites q hq)) ..⟩⟩
  | createUserProcess child entry entryPoint userStackTop hm hc =>
    obtain ⟨I', hkeeps⟩ := I.createUserProcess hc entry entryPoint userStackTop
    exact ⟨_, _, I', .createUserProcess child entry entryPoint userStackTop (hnew hc),
      fun q hq _ => ⟨hkeeps q (hsites q hq), Function.update_of_ne (fresh_ne hc (hsites q hq)) ..⟩⟩
  | sysFork child entry hm hmark hsys hc =>
    obtain ⟨f, cl, hf, hrip, hsp, I', hkeeps⟩ := I.sysFork hc entry hmark hsys
    exact ⟨_, _, I', .sysFork child entry cl (hnew hc) hf hrip hsp, fun q hq _ =>
      ⟨hkeeps q (hsites q hq), Function.update_of_ne (fresh_ne hc (hsites q hq)) ..⟩⟩
  | freeProc q hq =>
    exact ⟨frames, call, I.release, .release q hq, fun q hq _ => ⟨hrefl q hq, rfl⟩⟩

end Inv

/-- The kernel before the first task. -/
theorem Boot.inv (hb : m.Boot) (call : Site → Call) : m.Inv (fun _ => []) call where
  fits := by
    rw [sites, hb.waiting]
    exact fun p hp => List.mem_singleton.mp hp ▸ hb.fits
  apart := by
    rw [sites, hb.waiting]
    exact List.pairwise_singleton ..
  layers := by
    rw [sites, hb.waiting]
    intro p hp
    rw [List.mem_singleton.mp hp, hb.marks]
    trivial
  waits := by
    rw [hb.waiting]
    exact fun p hp => absurd hp (List.not_mem_nil)
  ring := .inr ⟨hb.cs, hb.base, by rw [mark, hb.marks]; exact hb.below⟩
  trapFrame := by
    rw [sites, hb.waiting]
    intro p hp
    rw [List.mem_singleton.mp hp, hb.marks]
    simp

theorem Inv.run (I : m.Inv frames call) (hr : Relation.ReflTransGen Step m m') :
    ∃ frames' call', m'.Inv frames' call' := by
  induction hr with
  | refl => exact ⟨frames, call, I⟩
  | tail _ hs ih =>
    obtain ⟨frames₁, call₁, I₁⟩ := ih
    obtain ⟨e, hs⟩ := hs
    obtain ⟨frames₂, call₂, I₂, -⟩ := I₁.step hs
    exact ⟨frames₂, call₂, I₂⟩

/-- The step is taken while `p` waits, and leaves it waiting. -/
def StepBeside (p : Site) (m m' : Machine) : Prop := p ∈ m.waiting ∧ Step m m' ∧ p ∈ m'.waiting

theorem Inv.beside (I : m.Inv frames call) {p : Site}
    (hr : Relation.ReflTransGen (StepBeside p) m m') :
    ∃ frames' call', m'.Inv frames' call' ∧ Keeps m.mem m'.mem p ∧ call' p = call p := by
  induction hr with
  | refl => exact ⟨frames, call, I, ⟨fun _ _ _ => rfl, fun _ _ _ => rfl⟩, rfl⟩
  | tail _ hs ih =>
    obtain ⟨frames₁, call₁, I₁, hk₁, hc₁⟩ := ih
    obtain ⟨hp, ⟨e, hs⟩, hp'⟩ := hs
    obtain ⟨frames₂, call₂, I₂, -, hkeeps⟩ := I₁.step hs
    obtain ⟨hk₂, hc₂⟩ := hkeeps p hp hp'
    exact ⟨frames₂, call₂, I₂, ⟨hk₁.1.trans hk₂.1, hk₁.2.trans hk₂.2⟩, hc₂.trans hc₁⟩

/-! ## Runs -/

/-- Every run of the machine is one of tasks that share nothing, step by step and event by event:
only what belongs to the running task changes, a return from an interrupt brings back the state that
this task's interrupt has saved, and a dispatch the registers of its own call of `switch_to`. -/
theorem refines (hb : m.Boot) {es : List Event} (hr : Run.Trace Does m es m')
    (call : Site → Call) :
    ∃ frames' call', Run.Trace
      (Run.InStep Does Tasks.Step fun m t => ∃ frames call, t = m.tasks frames call)
      (m, m.tasks (fun _ => []) call) es (m', m'.tasks frames' call') := by
  obtain ⟨t, htrace, frames', call', rfl, -⟩ := hr.simulate
    (I := fun m t => ∃ frames call, t = m.tasks frames call ∧ m.Inv frames call)
    (R := fun m t => ∃ frames call, t = m.tasks frames call)
    (fun m t e m' ⟨frames, call, ht, I⟩ hs => by
      obtain ⟨frames', call', I', hs', -⟩ := I.step hs
      exact ⟨_, ht ▸ hs', ⟨frames', call', rfl⟩, frames', call', rfl, I'⟩)
    ⟨fun _ => [], call, rfl, hb.inv call⟩
  exact ⟨frames', call', htrace⟩

/-- A call of `switch_to` returns like any other, whatever the other tasks do until the caller is
dispatched again: the registers a C function keeps, the stack pointer and the stack above it are
as they were, and the processor goes on behind the call. -/
theorem switchTo_returns {m₀ m₁ : Machine} {next : Site} {ret ret' : Word} (hb : m₀.Boot)
    (hr : Relation.ReflTransGen Step m₀ m) (hm : m.cpu.cs = kernelCode)
    (hnext : next ∈ m.waiting) (hroom : m.Room 64)
    (hbeside : Relation.ReflTransGen (StepBeside m.current) (m.switched next ret) m₁)
    (hm₁ : m₁.cpu.cs = kernelCode) (hwaits : m.current ∈ m₁.waiting) (hroom₁ : m₁.Room 64) :
    (∀ r ∈ [Reg.rbx, .rbp, .r12, .r13, .r14, .r15],
        (m₁.switched m.current ret').cpu.reg r = m.cpu.reg r)
      ∧ (m₁.switched m.current ret').cpu.reg .rip = ret
      ∧ (m₁.switched m.current ret').cpu.rsp = m.cpu.rsp
      ∧ Same m.mem (m₁.switched m.current ret').mem
        (m.cpu.rsp.toNat, m.current.top.toNat - m.cpu.rsp.toNat) := by
  obtain ⟨frames, call, I⟩ := (hb.inv fun _ => ⟨fun _ => 0, 0⟩).run hr
  obtain ⟨hbase, hle⟩ := I.kernel hm
  have htop := I.mark_le (List.mem_cons_self (a := m.current) (l := m.waiting))
  obtain ⟨I', -, -, -, hwrote⟩ := I.switchTo ret hm hnext hroom
  obtain ⟨frames₁, call₁, I₁, hkeeps, hcall⟩ := I'.beside hbeside
  obtain ⟨-, hregs, hsp, hkeeps₁, -⟩ := I₁.switchTo ret' hm₁ hwaits hroom₁
  rw [hcall, Function.update_self] at hregs hsp
  refine ⟨fun r hr => ?_, ?_, hsp, ?_⟩
  · rw [hregs r (by revert r; decide)]
    have hrip : r ≠ .rip := by
      rintro rfl
      simp at hr
    have hrdi : r ≠ .rdi := by
      rintro rfl
      simp at hr
    simp only [Inv.leaving, callRegs, Function.update_of_ne hrip, Function.update_of_ne hrdi, core]
  · rw [hregs .rip (by decide)]
    simp only [Inv.leaving, callRegs, Function.update_self]
  · have hown : Same m.mem (m.switched next ret).mem
        (m.cpu.rsp.toNat, m.current.top.toNat - m.cpu.rsp.toNat) := by
      refine hwrote _ fun w hw => ?_
      simp only [List.mem_cons, List.not_mem_nil, or_false] at hw
      rcases hw with rfl | rfl
      · unfold Room at hroom
        exact .inl (by dsimp only; omega)
      · exact I.own_apart (by omega) (by omega) (by omega)
    have hlater := hkeeps.1.trans (hkeeps₁ _ hwaits).1
    refine hown.trans (hlater.mono ?_ ?_)
    · exact hbase
    · simp only [Site.stack]
      omega

/-- Whatever else runs between `kthread_create` and the first dispatch, the thread's function is
called with its argument on an empty stack. -/
theorem kernelThread_starts {m₀ m₁ : Machine} {child : Site} {entry func arg ret ret' : Word}
    (hb : m₀.Boot) (hr : Relation.ReflTransGen Step m₀ m) (hc : m.Fresh child)
    (hbeside : Relation.ReflTransGen (StepBeside child)
      (m.spawned child [] (Trap.kthreadCreate child.pcb child.top entry func arg m.mem)) m₁)
    (hm₁ : m₁.cpu.cs = kernelCode) (hwaits : child ∈ m₁.waiting) (hroom₁ : m₁.Room 64) :
    (m₁.switched child ret).cpu.reg .rip = entry
      ∧ (kernelThreadEntry ret' (m₁.switched child ret).core).reg .rip = func
      ∧ (kernelThreadEntry ret' (m₁.switched child ret).core).reg .rdi = arg
      ∧ (kernelThreadEntry ret' (m₁.switched child ret).core).sp = child.top - 8
      ∧ load (kernelThreadEntry ret' (m₁.switched child ret).core).mem (child.top - 8).toNat
        = ret' := by
  obtain ⟨frames, call, I⟩ := (hb.inv fun _ => ⟨fun _ => 0, 0⟩).run hr
  obtain ⟨frames₁, call₁, I₁, -, hcall⟩ := (I.kthreadCreate hc entry func arg).1.beside hbeside
  obtain ⟨-, hregs, hsp, -⟩ := I₁.switchTo ret hm₁ hwaits hroom₁
  rw [hcall, Function.update_self] at hregs hsp
  generalize m₁.switched child ret = m₂ at hregs hsp ⊢
  have hrip : m₂.cpu.reg .rip = entry := hregs .rip (by decide)
  have hrbx : m₂.cpu.reg .rbx = func := hregs .rbx (by decide)
  have hrdi : m₂.cpu.reg .rdi = arg := hregs .rdi (by decide)
  have hcsp : m₂.core.sp = child.top := hsp
  refine ⟨hrip, ?_, ?_, ?_, ?_⟩
  · simp only [kernelThreadEntry, Processor.push, core, Function.update_self, hrbx]
  · have hne : Reg.rdi ≠ .rip := by decide
    simp only [kernelThreadEntry, Processor.push, core, Function.update_of_ne hne, hrdi]
  · simp only [kernelThreadEntry, Processor.push, hcsp]
  · simp only [kernelThreadEntry, Processor.push, hcsp, load_save]

/-- Whatever else runs between `create_user_process` and the first dispatch, `user_entry` finds in
its registers what `enter_user_mode` needs to start the program in user mode. -/
theorem userProcess_starts {m₀ m₁ : Machine} {child : Site}
    {entry entryPoint userStackTop ret : Word} (hb : m₀.Boot)
    (hr : Relation.ReflTransGen Step m₀ m) (hc : m.Fresh child)
    (hbeside : Relation.ReflTransGen (StepBeside child)
      (m.spawned child []
        (Trap.createUserProcess child.pcb child.top entry entryPoint userStackTop m.mem)) m₁)
    (hm₁ : m₁.cpu.cs = kernelCode) (hwaits : child ∈ m₁.waiting) (hroom₁ : m₁.Room 64)
    (rflags : Word) (c : Core) (hcsp : 40 ≤ c.sp.toNat) :
    (m₁.switched child ret).cpu.reg .rip = entry
      ∧ (m₁.switched child ret).cpu.rsp = child.top
      ∧ ∃ u, iretq (enterUserMode ((m₁.switched child ret).cpu.reg .r12)
          ((m₁.switched child ret).cpu.reg .r13) rflags c) = u
        ∧ u.reg .rip = entryPoint ∧ u.rsp = userStackTop ∧ u.cs = userCode ∧ u.ss = userData
        ∧ u.rflags = rflags ||| 0x200 := by
  obtain ⟨frames, call, I⟩ := (hb.inv fun _ => ⟨fun _ => 0, 0⟩).run hr
  obtain ⟨frames₁, call₁, I₁, -, hcall⟩ :=
    (I.createUserProcess hc entry entryPoint userStackTop).1.beside hbeside
  obtain ⟨-, hregs, hsp, -⟩ := I₁.switchTo ret hm₁ hwaits hroom₁
  rw [hcall, Function.update_self] at hregs hsp
  have hr12 : (m₁.switched child ret).cpu.reg .r12 = entryPoint := hregs .r12 (by decide)
  have hr13 : (m₁.switched child ret).cpu.reg .r13 = userStackTop := hregs .r13 (by decide)
  obtain ⟨hrip, hcs, hflags, hrsp, hss⟩ := enterUserMode_iretq entryPoint userStackTop rflags hcsp
  rw [hr12, hr13]
  exact ⟨hregs .rip (by decide), hsp, _, rfl, hrip, hrsp, hcs, hss, hflags⟩

/-! ## A first run -/

/-- The idle process on the boot stack. -/
def idle : Site := ⟨0xFFFF800000200030, 0xFFFFFFFF80100000, 0xFFFFFFFF80110000⟩

/-- A task on the first kernel stack. -/
def firstTask : Site := ⟨0xFFFF800000200240, 0xFFFFB00000001000, 0xFFFFB00000005000⟩

def boot : Machine where
  cpu := ⟨fun _ => 0, kernelCode, 0x2, 0xFFFFFFFF8010FF00, 0⟩
  mem _ := 0
  current := idle
  waiting := []
  marks _ := []

theorem boot_boot : boot.Boot :=
  ⟨rfl, rfl, rfl, ⟨by decide, by decide, by decide, by decide⟩, by decide, by decide⟩

theorem firstTask_fresh : boot.Fresh firstTask :=
  ⟨⟨by decide, by decide, by decide, by decide⟩, by decide, by decide⟩

/-- The machine with a kernel thread that has not run. -/
def withThread : Machine :=
  boot.spawned firstTask [] (Trap.kthreadCreate firstTask.pcb firstTask.top 0xFFFFFFFF80004C00
    0xFFFFFFFF80001000 7 boot.mem)

theorem boot_withThread :
    Does boot (.kthreadCreate firstTask 0xFFFFFFFF80004C00 0xFFFFFFFF80001000 7) withThread :=
  .kthreadCreate _ _ _ _ rfl firstTask_fresh

/-- A timer interrupt in the idle process. -/
def ticked : Machine := withThread.interrupted 32 0

theorem withThread_ticked : Does withThread (.interrupt 32 0) ticked :=
  .interrupt 32 0 (by decide) (.inr ⟨rfl, by decide, by unfold Room; decide⟩)

/-- The tick dispatches the thread, which dispatches the idle process, and that returns from its
interrupt. -/
theorem refines_ticked : ∃ frames' call', Run.Trace
    (Run.InStep Does Tasks.Step fun m t => ∃ frames call, t = m.tasks frames call)
    (boot, boot.tasks (fun _ => []) fun _ => ⟨fun _ => 0, 0⟩)
    [.kthreadCreate firstTask 0xFFFFFFFF80004C00 0xFFFFFFFF80001000 7, .interrupt 32 0,
      .switchTo firstTask 0xFFFFFFFF80004B00, .switchTo idle 0xFFFFFFFF80004B00, .iret]
    ((((ticked.switched firstTask 0xFFFFFFFF80004B00).switched idle 0xFFFFFFFF80004B00).returned
      isrReturn), (((ticked.switched firstTask 0xFFFFFFFF80004B00).switched idle
        0xFFFFFFFF80004B00).returned isrReturn).tasks frames' call') := by
  have hfirst : ticked.Room 64 := by
    unfold Room
    decide +kernel
  have hback : (ticked.switched firstTask 0xFFFFFFFF80004B00).Room 64 := by
    unfold Room
    decide +kernel
  refine refines boot_boot (.cons boot_withThread (.cons withThread_ticked
    (.cons (.switchTo _ _ rfl List.mem_cons_self hfirst)
      (.cons (.switchTo _ _ (ticked.switched_cs ..) List.mem_cons_self hback)
        (.cons (.iret isrReturn (by simp) ?_ ?_ ?_) (.nil _)))))) _
  · exact (switched_cs ..).trans (switched_cs ..)
  · decide +kernel
  · decide +kernel

/-- The idle process dispatches the thread and, after a tick in it, is dispatched by it. -/
theorem switchTo_returns_idle :
    (((withThread.switched firstTask 0xFFFFFFFF80004B00).interrupted 32 0).switched idle 1).cpu.reg
        .rip = 0xFFFFFFFF80004B00
      ∧ (((withThread.switched firstTask 0xFFFFFFFF80004B00).interrupted 32 0).switched idle
        1).cpu.rsp = 0xFFFFFFFF8010FF00 := by
  have hroom : (withThread.switched firstTask 0xFFFFFFFF80004B00).Room 192 := by
    unfold Room
    decide +kernel
  have hroom' : ((withThread.switched firstTask 0xFFFFFFFF80004B00).interrupted 32 0).Room 64 := by
    unfold Room
    decide +kernel
  have htick : StepBeside idle (withThread.switched firstTask 0xFFFFFFFF80004B00)
      ((withThread.switched firstTask 0xFFFFFFFF80004B00).interrupted 32 0) :=
    ⟨List.mem_cons_self, ⟨_, .interrupt 32 0 (by decide)
      (.inr ⟨withThread.switched_cs .., by decide, hroom⟩)⟩, List.mem_cons_self⟩
  obtain ⟨-, hrip, hsp, -⟩ := @switchTo_returns withThread boot _ firstTask
    0xFFFFFFFF80004B00 1 boot_boot (.single ⟨_, boot_withThread⟩) rfl List.mem_cons_self
    (by unfold Room; decide) (.single htick) rfl List.mem_cons_self hroom'
  exact ⟨hrip, hsp⟩

/-- There is a tick between the creation of the thread and its dispatch. -/
theorem kernelThread_starts_firstTask :
    (kernelThreadEntry 0xFFFFFFFF80004C03
        (ticked.switched firstTask 0xFFFFFFFF80004B00).core).reg .rip = 0xFFFFFFFF80001000
      ∧ (kernelThreadEntry 0xFFFFFFFF80004C03
        (ticked.switched firstTask 0xFFFFFFFF80004B00).core).reg .rdi = 7 := by
  have hroom : ticked.Room 64 := by
    unfold Room
    decide +kernel
  obtain ⟨-, hrip, hrdi, -⟩ := @kernelThread_starts boot boot ticked firstTask
    0xFFFFFFFF80004C00 0xFFFFFFFF80001000 7 0xFFFFFFFF80004B00 0xFFFFFFFF80004C03 boot_boot .refl
    firstTask_fresh
    (.single ⟨List.mem_cons_self, ⟨_, withThread_ticked⟩, List.mem_cons_self⟩) rfl
    List.mem_cons_self hroom
  exact ⟨hrip, hrdi⟩

/-- The machine with a user process that has not run. -/
def withProcess : Machine :=
  boot.spawned firstTask [] (Trap.createUserProcess firstTask.pcb firstTask.top 0xFFFFFFFF80004D00
    0x401000 0x80000000 boot.mem)

/-- There is a tick between the creation of the process and its dispatch. -/
theorem userProcess_starts_firstTask :
    ∃ u, iretq (enterUserMode
        (((withProcess.interrupted 32 0).switched firstTask 0xFFFFFFFF80004B00).cpu.reg .r12)
        (((withProcess.interrupted 32 0).switched firstTask 0xFFFFFFFF80004B00).cpu.reg .r13)
        0x2 boot.core) = u
      ∧ u.reg .rip = 0x401000 ∧ u.rsp = 0x80000000 ∧ u.cs = userCode := by
  have hroom : (withProcess.interrupted 32 0).Room 64 := by
    unfold Room
    decide +kernel
  have htick : Does withProcess (.interrupt 32 0) (withProcess.interrupted 32 0) :=
    .interrupt 32 0 (by decide) (.inr ⟨rfl, by decide, by unfold Room; decide⟩)
  obtain ⟨-, -, u, hu, hrip, hsp, hcs, -⟩ := @userProcess_starts boot boot
    (withProcess.interrupted 32 0) firstTask 0xFFFFFFFF80004D00 0x401000 0x80000000
    0xFFFFFFFF80004B00 boot_boot .refl firstTask_fresh
    (.single ⟨List.mem_cons_self, ⟨_, htick⟩, List.mem_cons_self⟩) rfl List.mem_cons_self hroom 0x2
    boot.core (by decide)
  exact ⟨u, hu, hrip, hsp, hcs⟩

end Machine

end SudoOS.Trap
