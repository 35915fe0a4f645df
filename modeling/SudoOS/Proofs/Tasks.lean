import SudoOS.Proofs.Trap
import SudoOS.Tasks

/-!
# What the instruction sequences do

Each entry of the IDT leaves a `Frame` on the stack (`entry_frame`) and `isrReturn` takes one off
again, for every vector alike (`isrReturn_words`). `switch_to` writes the registers of the task that
leaves below its stack pointer and its PCB's `context`, and takes over those that stand at the other
task's (`callSwitchTo_leaves`, `callSwitchTo_takes`). `kthread_create`, `create_user_process` and
`sys_fork` lay out such registers for a task that has not run (`kthreadCreate_lays`,
`createUserProcess_lays`, `sysFork_lays`), and write nothing but its stack and its PCB.
-/

namespace SudoOS.Trap

open Stack

/-! ## Frames -/

@[simp] theorem Frame.words_length (f : Frame) : f.words.length = 22 := rfl

theorem Frame.words_eq (f : Frame) :
    f.words = saved.reverse.map f.cpu.reg
      ++ [f.slot .intNo, f.slot .errCode, f.cpu.reg .rip, f.cpu.cs, f.cpu.rflags, f.cpu.rsp,
        f.cpu.ss] := rfl

/-- A field of a frame that a system call writes. -/
theorem Frame.words_store (f : Frame) {s : Slot} (hs : s ∈ Machine.syscallSlots) (v : Word) :
    f.words.set (registersT.idxOf s) v = (f.store s v).words := by
  simp only [Machine.syscallSlots, List.mem_cons, List.not_mem_nil, or_false] at hs
  rcases hs with rfl | rfl | rfl | rfl | rfl <;> rfl

theorem entry_eq {n : ℕ} (hn : n ∈ gates) (err : Word) (u : User) (rsp : Word) (mem : Mem) :
    entry n err u rsp mem
      = Instr.exec (Processor.pushAll ⟨u.reg, rsp, mem⟩ (Frame.words ⟨u, n, err⟩).reverse)
        (.movRsp .rdi) := by
  simp only [gates, List.mem_cons, List.not_mem_nil, or_false] at hn
  rcases hn with rfl | rfl | rfl | rfl | rfl <;> rfl

/-- What `isr_handler` finds on the stack. -/
theorem entry_frame {n : ℕ} (hn : n ∈ gates) (err : Word) (u : User) {rsp : Word} (mem : Mem)
    (h : 176 ≤ rsp.toNat) :
    Words (entry n err u rsp mem).mem (rsp.toNat - 176) (Frame.words ⟨u, n, err⟩)
      ∧ (entry n err u rsp mem).sp = rsp - 176#64
      ∧ Wrote mem (entry n err u rsp mem).mem [(rsp.toNat - 176, 176)] := by
  have h0 : Processor.Top (⟨u.reg, rsp, mem⟩ : Core) [] := ⟨rsp.isLt.le, trivial⟩
  have hlen : 8 * (Frame.words ⟨u, n, err⟩).reverse.length ≤ rsp.toNat := by simpa using h
  have htop := h0.pushAll _ hlen
  have hsp := Processor.pushAll_sp (Frame.words ⟨u, n, err⟩).reverse (⟨u.reg, rsp, mem⟩ : Core)
  have hwrote := Processor.wrote_pushAll _ (⟨u.reg, rsp, mem⟩ : Core) hlen
  rw [List.length_reverse, Frame.words_length] at hsp hwrote
  rw [List.reverse_reverse, List.append_nil] at htop
  rw [entry_eq hn]
  generalize Processor.pushAll _ _ = c at htop hsp hwrote
  refine ⟨?_, hsp, hwrote⟩
  have := htop.holds
  rwa [hsp, sub_toNat h] at this

/-- From a frame on top of the stack, the pops and `iretq` bring back the state it holds. -/
theorem isrReturn_words {c : Core} {f : Frame} (h : c.Top f.words) :
    iretq (exec isrReturn c) = f.cpu := by
  rw [Frame.words_eq] at h
  obtain ⟨htop, -, -, hreg⟩ := h.popAll saved.reverse (by simp)
  obtain ⟨-, hrip, hcs, hflags, hrsp, hss, -⟩ := ((htop.pop .rax).1.pop .rax).1
  have h16 : (c.popAll saved.reverse).sp + 8 + 8 = (c.popAll saved.reverse).sp + 16 :=
    BitVec.add_assoc ..
  simp only [Processor.pop, h16] at hrip hcs hflags hrsp hss
  have hregs : Function.update (c.popAll saved.reverse).reg .rip (f.cpu.reg .rip) = f.cpu.reg := by
    funext r
    by_cases hr : r = .rip
    · rw [hr, Function.update_self]
    · rw [Function.update_of_ne hr, hreg, Processor.assign_map, if_pos (mem_saved hr)]
  rw [isrReturn_eq]
  unfold iretq
  simp only [hrip, hcs, hflags, hrsp, hss, hregs]

/-- `enter_user_mode` builds on the stack what `iretq` takes. -/
theorem enterUserMode_iretq {c : Core} (entryPoint userStack rflags : Word)
    (hsp : 40 ≤ c.sp.toNat) :
    (iretq (enterUserMode entryPoint userStack rflags c)).reg .rip = entryPoint
      ∧ (iretq (enterUserMode entryPoint userStack rflags c)).cs = userCode
      ∧ (iretq (enterUserMode entryPoint userStack rflags c)).rflags = rflags ||| 0x200
      ∧ (iretq (enterUserMode entryPoint userStack rflags c)).rsp = userStack
      ∧ (iretq (enterUserMode entryPoint userStack rflags c)).ss = userData := by
  have hlt := c.sp.isLt
  have h0 : c.Top [] := ⟨c.sp.isLt.le, trivial⟩
  have h1 := h0.push userData (by omega)
  have h2 := h1.push userStack (by simp only [Processor.push]; bv_omega)
  have h3 := h2.push rflags (by simp only [Processor.push]; bv_omega)
  have h4 := (h3.pop .rax).1
  have hrax := congrFun (h3.pop .rax).2 .rax
  rw [Function.update_self] at hrax
  have hdsp : ((((c.push userData).push userStack).push rflags).pop .rax).sp.toNat
      = c.sp.toNat - 16 := by
    simp only [Processor.push, Processor.pop]
    bv_omega
  obtain ⟨d, hd⟩ : ∃ d, d = (((c.push userData).push userStack).push rflags).pop .rax := ⟨_, rfl⟩
  have hdef : enterUserMode entryPoint userStack rflags c
      = ((Processor.push
          ({ d with reg := Function.update d.reg .rax (d.reg .rax ||| 0x200) } : Core)
          (Function.update d.reg .rax (d.reg .rax ||| 0x200) .rax)).push userCode).push
          entryPoint := by
    rw [hd]
    rfl
  rw [← hd] at h4 hrax hdsp
  rw [hdef, Function.update_self, hrax]
  generalize Function.update d.reg .rax (rflags ||| 0x200) = reg
  have h5 : Processor.Top ({ d with reg := reg } : Core) [userStack, userData] :=
    ⟨h4.fits, h4.holds⟩
  have h6 := (h5.push (rflags ||| 0x200) (by dsimp only; omega)).push userCode
    (by simp only [Processor.push]; bv_omega)
  have h7 := h6.push entryPoint (by simp only [Processor.push]; bv_omega)
  generalize Processor.push (Processor.push (Processor.push ({ d with reg := reg } : Core)
    (rflags ||| 0x200)) userCode) entryPoint = e at h7
  obtain ⟨hrip, hcs, hflags, hrsp, hss, -⟩ := h7.holds
  simp only [Nat.add_assoc, Nat.reduceAdd] at hcs hflags hrsp hss
  refine ⟨?_, hcs, hflags, hrsp, hss⟩
  simp only [iretq, Function.update_self, hrip]

theorem enterUserMode_wrote {c : Core} (entryPoint userStack rflags : Word)
    (hsp : 40 ≤ c.sp.toNat) :
    Wrote c.mem (enterUserMode entryPoint userStack rflags c).mem [(c.sp.toNat - 40, 40)] := by
  have hlt := c.sp.isLt
  have hdown : ∀ {v : Word}, 8 ≤ v.toNat → (v - 8).toNat = v.toNat - 8 := fun {v} hv => by
    have := v.isLt
    bv_omega
  have h1 := hdown (v := c.sp) (by omega)
  have h2 := hdown (v := c.sp - 8) (by omega)
  have h3 := hdown (v := c.sp - 8 - 8) (by omega)
  have h4 := hdown (v := c.sp - 8 - 8 - 8) (by omega)
  have h5 := hdown (v := c.sp - 8 - 8 - 8 - 8) (by omega)
  have hin : ∀ a, c.sp.toNat - 40 ≤ a → a + 8 ≤ c.sp.toNat →
      ∃ w ∈ [(c.sp.toNat - 40, 40)], w.1 ≤ a ∧ a + 8 ≤ w.1 + w.2 :=
    fun a hle hle' => ⟨_, List.mem_singleton_self _, hle, by dsimp only; omega⟩
  unfold enterUserMode
  simp only [Processor.push, Processor.pop, BitVec.sub_add_cancel]
  exact ((((((Wrote.refl c.mem _).save (hin _ (by omega) (by omega)) _).save
    (hin _ (by omega) (by omega)) _).save (hin _ (by omega) (by omega)) _).save
    (hin _ (by omega) (by omega)) _).save (hin _ (by omega) (by omega)) _).save
    (hin _ (by omega) (by omega)) _

/-! ## `switch_to` -/

@[simp] theorem contextRegs_length : contextRegs.length = 8 := rfl

/-- The registers that a call of `switch_to` saves. -/
def callRegs (prev ret : Word) (c : Core) : Reg → Word :=
  Function.update (Function.update c.reg .rdi (prev + BitVec.ofNat 64 pcbContext)) .rip ret

/-- The stack of the task that leaves, and its PCB. -/
theorem callSwitchTo_leaves {prev next ret : Word} {c : Core} (hsp : 64 ≤ c.sp.toNat)
    (hpcb : Separate (c.sp.toNat - 64, 64) (field prev pcbContext, 8)) :
    Words (callSwitchTo prev next ret c).mem (c.sp.toNat - 64)
        (contextRegs.map (callRegs prev ret c))
      ∧ load (callSwitchTo prev next ret c).mem (field prev pcbContext) = c.sp - 64#64
      ∧ Wrote c.mem (callSwitchTo prev next ret c).mem
        [(c.sp.toNat - 64, 64), (field prev pcbContext, 8)] := by
  set reg := Function.update (Function.update c.reg .rdi (prev + BitVec.ofNat 64 pcbContext))
    .rsi (load c.mem (field next pcbContext)) with hreg
  set c' : Core := ⟨reg, c.sp, c.mem⟩ with hc'
  have hwords : (contextRegs.map (callRegs prev ret c)).reverse
      = ret :: calleeSaved.map reg := rfl
  have hmem : (callSwitchTo prev next ret c).mem
      = save (c'.pushAll (contextRegs.map (callRegs prev ret c)).reverse).mem
        (field prev pcbContext)
        (c'.pushAll (contextRegs.map (callRegs prev ret c)).reverse).sp := by
    rw [hwords]
    rfl
  have hlen : 8 * (contextRegs.map (callRegs prev ret c)).reverse.length ≤ c'.sp.toNat := by
    simpa using hsp
  have h0 : c'.Top [] := ⟨c.sp.isLt.le, trivial⟩
  have htop := (h0.pushAll _ hlen).holds
  have hspAll := Processor.pushAll_sp (contextRegs.map (callRegs prev ret c)).reverse c'
  have hwrote := Processor.wrote_pushAll _ c' hlen
  rw [List.length_reverse, List.length_map, contextRegs_length] at hspAll hwrote
  rw [List.reverse_reverse, List.append_nil, hspAll, sub_toNat hsp] at htop
  rw [hmem, hspAll]
  generalize Processor.pushAll _ _ = d at htop hwrote
  refine ⟨?_, load_save .., hwrote.trans (wrote_save _ _ _)⟩
  exact htop.of_same (save_same _ _ (by simpa using hpcb.symm))

/-- The registers of the task that goes on. -/
theorem callSwitchTo_takes {prev next ret : Word} {c : Core} {ctx : Word} {reg : Reg → Word}
    (hctx : load c.mem (field next pcbContext) = ctx) (hfits : ctx.toNat + 64 ≤ 2 ^ 64)
    (hheld : Words (callSwitchTo prev next ret c).mem ctx.toNat (contextRegs.map reg)) :
    (∀ r ∈ contextRegs, (callSwitchTo prev next ret c).reg r = reg r)
      ∧ (callSwitchTo prev next ret c).sp = ctx + 64#64 := by
  set call : Core := Processor.push
    { c with
      reg := Function.update (Function.update c.reg .rdi (prev + BitVec.ofNat 64 pcbContext))
        .rsi (load c.mem (field next pcbContext)) } ret with hcall
  have hdef : callSwitchTo prev next ret c = (switched call).popAll contextRegs := rfl
  have hsp : (switched call).sp = ctx := by
    simp [switched, hcall, Processor.push, hctx]
  have htop : (switched call).Top (contextRegs.map reg ++ []) := by
    refine ⟨?_, ?_⟩
    · rw [hsp, List.append_nil, List.length_map, contextRegs_length]
      omega
    · rw [hsp, List.append_nil]
      exact hheld
  obtain ⟨-, -, hpop, hreg⟩ := htop.popAll contextRegs (by simp)
  rw [hdef]
  refine ⟨fun r hr => ?_, ?_⟩
  · rw [hreg, Processor.assign_map, if_pos hr]
  · rw [hpop, hsp]
    rfl

/-! ## New tasks -/

theorem words_clear (mem : Mem) (a n : ℕ) :
    Words (clear mem a (8 * n)) a (List.replicate n 0) := by
  refine words_zero fun i hi => ?_
  have hat := Wire.at_store mem a (List.replicate (8 * n) 0) i (by simpa using hi)
  rw [List.getD_replicate _ hi] at hat
  exact hat

theorem wrote_clear (mem : Mem) (a n : ℕ) : Wrote mem (clear mem a n) [(a, n)] := by
  have := wrote_store mem a (List.replicate n 0)
  rwa [List.length_replicate] at this

namespace Site

variable {p : Site}

/-- The pointers at the front of a PCB. -/
theorem Fits.fields (hp : p.Fits) :
    field p.pcb pcbRsp = p.pcb.toNat ∧ field p.pcb pcbKstackBase = p.pcb.toNat + 8
      ∧ field p.pcb pcbContext = p.pcb.toNat + 16
      ∧ field p.pcb pcbTrapFrame = p.pcb.toNat + 24 := by
  have := hp.pcbFits
  unfold pcbSize at this
  refine ⟨field_toNat ?_, field_toNat ?_, field_toNat ?_, field_toNat ?_⟩ <;>
  · simp only [pcbRsp, pcbKstackBase, pcbContext, pcbTrapFrame]
    omega

/-- The context below the top of a stack. -/
theorem Fits.context (hp : p.Fits) :
    (p.top - 64#64).toNat = p.top.toNat - 64 ∧ ∀ off ≤ 56,
      field (p.top - 64#64) off = p.top.toNat - 64 + off := by
  have hroom := hp.room
  have hlt := p.top.isLt
  unfold kstackSize at hroom
  have hsub : (p.top - 64#64).toNat = p.top.toNat - 64 := sub_toNat (by omega)
  exact ⟨hsub, fun off hoff => by rw [field_toNat (by omega), hsub]⟩

/-- The front of the PCB and the top of the stack. -/
theorem Fits.front (hp : p.Fits) {n : ℕ} (hn : n ≤ kstackSize) :
    Separate (p.pcb.toNat, 32) (p.top.toNat - n, n) := by
  have hroom := hp.room
  refine hp.apart.symm.mono le_rfl ?_ ?_ ?_
  · show p.pcb.toNat + 32 ≤ p.pcb.toNat + pcbSize
    unfold pcbSize
    omega
  · show p.base.toNat ≤ p.top.toNat - n
    omega
  · show p.top.toNat - n + n ≤ p.base.toNat + (p.top.toNat - p.base.toNat)
    omega

end Site

/-- The ranges that a new task is laid out in. -/
def Site.newRanges (p : Site) (n : ℕ) : List (ℕ × ℕ) := [(p.pcb.toNat, 32), (p.top.toNat - n, n)]

theorem Site.mem_newRanges_stack (p : Site) {n : ℕ} (i : ℕ) (hi : 8 * i + 8 ≤ n) :
    ∃ w ∈ p.newRanges n, w.1 ≤ p.top.toNat - n + 8 * i ∧ p.top.toNat - n + 8 * i + 8 ≤ w.1 + w.2 :=
  ⟨_, List.mem_cons_of_mem _ (List.mem_singleton_self _), Nat.le_add_right _ _, by
    dsimp only
    omega⟩

theorem Site.mem_newRanges_pcb (p : Site) {n : ℕ} (i : ℕ) (hi : i ≤ 24) :
    ∃ w ∈ p.newRanges n, w.1 ≤ p.pcb.toNat + i ∧ p.pcb.toNat + i + 8 ≤ w.1 + w.2 :=
  ⟨_, List.mem_cons_self, Nat.le_add_right _ _, by
    dsimp only
    omega⟩

theorem kthreadCreate_lays {p : Site} (hp : p.Fits) (entry func arg : Word) (mem : Mem) :
    Words (kthreadCreate p.pcb p.top entry func arg mem) (p.top.toNat - 64)
        (contextRegs.map (kthreadRegs entry func arg))
      ∧ load (kthreadCreate p.pcb p.top entry func arg mem) (field p.pcb pcbContext)
        = p.top - 64#64
      ∧ Wrote mem (kthreadCreate p.pcb p.top entry func arg mem) (p.newRanges 64) := by
  obtain ⟨h0, h8, h16, -⟩ := hp.fields
  obtain ⟨hctx, hoff⟩ := hp.context
  have hfront := hp.front (n := 64) (by unfold kstackSize; omega)
  have hroom := hp.room
  have hlt := p.top.isLt
  unfold kstackSize at hroom
  simp only [Separate] at hfront
  have hbase : ∀ m v, load (save m (p.pcb.toNat + 8) v) p.pcb.toNat = load m p.pcb.toNat :=
    fun m v => load_save_of_separate (.inr le_rfl)
  have hsize : sizeof contextT = 8 * 8 := rfl
  have heq : kthreadCreate p.pcb p.top entry func arg mem
      = save (save (save (save (save (clear (save (save mem p.pcb.toNat p.top) (p.pcb.toNat + 8)
          (p.top - BitVec.ofNat 64 kstackSize)) (p.top.toNat - 64) (8 * 8)) (p.pcb.toNat + 16)
          (p.top - 64#64)) p.pcb.toNat (p.top - 64#64)) (p.top.toNat - 64 + 8 * 7) entry)
          (p.top.toNat - 64 + 8 * 6) arg) (p.top.toNat - 64 + 8 * 4) func := by
    unfold kthreadCreate
    simp only [h0, h8, h16, hbase, load_save, hsize, hctx, hoff 56 le_rfl, hoff 48 (by omega),
      hoff 32 (by omega), show offsetOf contextT (.reg .rip) = 56 from rfl,
      show offsetOf contextT (.reg .rdi) = 48 from rfl,
      show offsetOf contextT (.reg .rbx) = 32 from rfl]
  rw [h16, heq]
  set m := clear (save (save mem p.pcb.toNat p.top) (p.pcb.toNat + 8)
    (p.top - BitVec.ofNat 64 kstackSize)) (p.top.toNat - 64) (8 * 8) with hm
  refine ⟨?_, ?_, ?_⟩
  · have hzero : Words (save (save m (p.pcb.toNat + 16) (p.top - 64#64)) p.pcb.toNat
        (p.top - 64#64)) (p.top.toNat - 64) (List.replicate 8 0) := by
      refine ((words_clear _ _ 8).of_same (save_same _ _ ?_)).of_same (save_same _ _ ?_) <;>
      · simp only [Separate, List.length_replicate]
        omega
    exact ((hzero.save entry (by simp)).save arg (by simp)).save func (by simp)
  · rw [load_save_of_separate (by simp only [Separate]; omega),
      load_save_of_separate (by simp only [Separate]; omega),
      load_save_of_separate (by simp only [Separate]; omega),
      load_save_of_separate (by simp only [Separate]; omega), load_save]
  · have hclear : Wrote mem m (p.newRanges 64) :=
      (((Wrote.refl mem _).save (p.mem_newRanges_pcb 0 (by omega)) _).save
        (p.mem_newRanges_pcb 8 (by omega)) _).within (wrote_clear _ _ _)
        (List.mem_cons_of_mem _ (List.mem_singleton_self _))
    exact ((((hclear.save (p.mem_newRanges_pcb 16 (by omega)) _).save
      (p.mem_newRanges_pcb 0 (by omega)) _).save (p.mem_newRanges_stack 7 (by omega)) _).save
      (p.mem_newRanges_stack 6 (by omega)) _).save (p.mem_newRanges_stack 4 (by omega)) _

theorem createUserProcess_lays {p : Site} (hp : p.Fits) (entry entryPoint userStackTop : Word)
    (mem : Mem) :
    Words (createUserProcess p.pcb p.top entry entryPoint userStackTop mem) (p.top.toNat - 64)
        (contextRegs.map (userProcessRegs entry entryPoint userStackTop))
      ∧ load (createUserProcess p.pcb p.top entry entryPoint userStackTop mem)
          (field p.pcb pcbContext) = p.top - 64#64
      ∧ Wrote mem (createUserProcess p.pcb p.top entry entryPoint userStackTop mem)
        (p.newRanges 64) := by
  obtain ⟨h0, h8, h16, h24⟩ := hp.fields
  obtain ⟨hctx, hoff⟩ := hp.context
  have hfront := hp.front (n := 64) (by unfold kstackSize; omega)
  have hroom := hp.room
  have hlt := p.top.isLt
  unfold kstackSize at hroom
  simp only [Separate] at hfront
  have hbase : ∀ m v, load (save m (p.pcb.toNat + 8) v) p.pcb.toNat = load m p.pcb.toNat :=
    fun m v => load_save_of_separate (.inr le_rfl)
  have hsize : sizeof contextT = 8 * 8 := rfl
  have heq : createUserProcess p.pcb p.top entry entryPoint userStackTop mem
      = save (save (save (save (save (clear (save (save (save mem p.pcb.toNat p.top)
          (p.pcb.toNat + 8) (p.top - BitVec.ofNat 64 kstackSize)) p.pcb.toNat (p.top - 64#64))
          (p.top.toNat - 64) (8 * 8)) (p.top.toNat - 64 + 8 * 7) entry)
          (p.top.toNat - 64 + 8 * 3) entryPoint) (p.top.toNat - 64 + 8 * 2) userStackTop)
          (p.pcb.toNat + 16) (p.top - 64#64)) (p.pcb.toNat + 24) 0 := by
    unfold createUserProcess
    simp only [h0, h8, h16, h24, hbase, load_save, hsize, hctx, hoff 56 le_rfl,
      hoff 24 (by omega), hoff 16 (by omega), show offsetOf contextT (.reg .rip) = 56 from rfl,
      show offsetOf contextT (.reg .r12) = 24 from rfl,
      show offsetOf contextT (.reg .r13) = 16 from rfl]
  rw [h16, heq]
  set m := clear (save (save (save mem p.pcb.toNat p.top) (p.pcb.toNat + 8)
    (p.top - BitVec.ofNat 64 kstackSize)) p.pcb.toNat (p.top - 64#64)) (p.top.toNat - 64) (8 * 8)
    with hm
  refine ⟨?_, ?_, ?_⟩
  · have hzero : Words m (p.top.toNat - 64) (List.replicate 8 0) := words_clear _ _ 8
    refine ((((hzero.save entry (by simp)).save entryPoint (by simp)).save userStackTop
      (by simp)).of_same (save_same _ _ ?_)).of_same (save_same _ _ ?_) <;>
    · simp only [Separate, List.length_set, List.length_replicate]
      omega
  · rw [load_save_of_separate (by simp only [Separate]; omega), load_save]
  · have hclear : Wrote mem m (p.newRanges 64) :=
      ((((Wrote.refl mem _).save (p.mem_newRanges_pcb 0 (by omega)) _).save
        (p.mem_newRanges_pcb 8 (by omega)) _).save
        (p.mem_newRanges_pcb 0 (by omega)) _).within (wrote_clear _ _ _)
        (List.mem_cons_of_mem _ (List.mem_singleton_self _))
    exact ((((hclear.save (p.mem_newRanges_stack 7 (by omega)) _).save
      (p.mem_newRanges_stack 3 (by omega)) _).save (p.mem_newRanges_stack 2 (by omega)) _).save
      (p.mem_newRanges_pcb 16 (by omega)) _).save (p.mem_newRanges_pcb 24 le_rfl) _

namespace ForkSite

variable {k : ForkSite}

/-- Beside what `switch_to` and `iretq` take, `sys_fork` writes nothing but the child's PCB. -/
theorem sysFork_wrote (hk : k.Placed) (mem : Mem) :
    load (k.sysFork mem) (k.child.toNat + 24) = k.childTop - 176#64
      ∧ Wrote mem (k.sysFork mem) [(k.child.toNat, 32), (k.childTop.toNat - 184, 184)] := by
  have hc := hk.childFits
  have hT := hk.childTop
  have hlt := k.childTop.isLt
  obtain ⟨-, ⟨-, hsc⟩, -⟩ : _ ∧ (_ ∧ Separate (kstack k.childTop) (pcb k.child)) ∧ _ := by
    simpa using hk.apart
  simp only [Separate, kstack, pcb, kstackSize, pcbSize] at hc hT hsc
  rw [sysFork_eq hk]
  constructor
  · rw [load_save_of_separate (.inl (by dsimp only; omega)),
      load_save_of_separate (by simp only [Separate]; omega),
      load_save_of_separate (.inl (by dsimp only; omega)), load_save]
  · have hbelow : k.childTop.toNat - 176 = k.childTop.toNat - 184 + 8 := by omega
    rw [hbelow, Nat.add_assoc]
    generalize k.childTop.toNat - 184 = b
    have hpcb : ∀ i ≤ 24, ∃ w ∈ [(k.child.toNat, 32), (b, 184)],
        w.1 ≤ k.child.toNat + i ∧ k.child.toNat + i + 8 ≤ w.1 + w.2 :=
      fun i hi => ⟨_, List.mem_cons_self, by dsimp only; omega, by dsimp only; omega⟩
    have hstack : ∀ i ≤ 176, ∃ w ∈ [(k.child.toNat, 32), (b, 184)],
        w.1 ≤ b + i ∧ b + i + 8 ≤ w.1 + w.2 :=
      fun i hi => ⟨_, List.mem_cons_of_mem _ (List.mem_singleton_self _), by dsimp only; omega,
        by dsimp only; omega⟩
    have hcopy : ∀ (m : Mem) (n : ℕ), Wrote m (copy m (b + 8) n 176)
        [(k.child.toNat, 32), (b, 184)] :=
      fun m n => (wrote_copy m _ n 176).mono fun w hw => by
        obtain rfl := List.mem_singleton.mp hw
        exact ⟨_, List.mem_cons_of_mem _ (List.mem_singleton_self _), by dsimp only; omega,
          by dsimp only; omega⟩
    have hfirst := (((Wrote.refl mem _).save (hpcb 0 (by omega)) k.childTop).save
      (hpcb 8 (by omega)) (k.childTop - 0x4000#64)).save (hpcb 0 (by omega)) (k.childTop - 176#64)
    have hboth := hfirst.trans (hcopy _ (load mem (k.parent.toNat + 24)).toNat)
    have hall := ((((hboth.mono fun w hw => ⟨w, (List.mem_append.mp hw).elim id id, le_rfl,
      le_rfl⟩).save (hstack 120 (by omega)) 0).save (hpcb 24 le_rfl) (k.childTop - 176#64)).save
      (hpcb 0 (by omega)) (k.childTop - 240#64)).save (hstack 0 (by omega)) k.entry
    exact hall.save (hpcb 16 (by omega)) _

end ForkSite

end SudoOS.Trap
