import SudoOS.Trap

/-!
# The child resumes where the parent was

`isr128` and `isr_common_stub` leave on the kernel stack the words that `registers_t` and
`trap_frame_t` describe (`trap_frame`), and the pops after `isr_handler` and those of
`fork_ret_entry` bring a task back from such a frame (`isrReturn_frame`). `sys_fork` leaves the
child's copy of it below the top of its stack, under the address that `switch_to` returns to
(`ForkSite.sysFork_lays`), so the first dispatch of the child gives the parent's task with RAX zero,
and the parent's own return the same task with RAX the child's PID (`fork_resumes`).
-/

namespace SudoOS.Trap

open Stack

/-! ## Programs -/

@[simp] theorem exec_append (code code' : List Instr) (c : Core) :
    exec (code ++ code') c = exec code' (exec code c) := List.foldl_append

theorem exec_push : ∀ (rs : List Reg) (c : Core), exec (rs.map .push) c = c.pushAll (rs.map c.reg)
  | [], _ => rfl
  | r :: rs, c => exec_push rs (c.push (c.reg r))

theorem exec_pop : ∀ (rs : List Reg) (c : Core), exec (rs.map .pop) c = c.popAll rs
  | [], _ => rfl
  | r :: rs, c => exec_pop rs (c.pop r)

/-- The order in which `isr_common_stub` saves the registers. -/
def saved : List Reg :=
  [.rax, .rbx, .rcx, .rdx, .rsi, .rdi, .rbp, .r8, .r9, .r10, .r11, .r12, .r13, .r14, .r15]

/-- The order in which `switch_to` does. -/
def calleeSaved : List Reg := [.rdi, .rbp, .rbx, .r12, .r13, .r14, .r15]

theorem mem_saved {r : Reg} (h : r ≠ .rip) : r ∈ saved.reverse := by
  cases r <;> simp [saved] at h ⊢

/-! ## Frames -/

/-- The frame of a task that made a system call, field by field. -/
def User.slot (u : User) : Slot → Word
  | .reg r => u.reg r
  | .intNo => 128
  | .errCode => 0
  | .cs => u.cs
  | .rflags => u.rflags
  | .rsp => u.rsp
  | .ss => u.ss

def User.setRax (u : User) (v : Word) : User := { u with reg := Function.update u.reg .rax v }

def User.frame (u : User) : List Word := trapFrameT.map u.slot

theorem User.frame_eq (u : User) :
    u.frame = saved.reverse.map u.reg ++ [128, 0, u.reg .rip, u.cs, u.rflags, u.rsp, u.ss] := rfl

@[simp] theorem User.frame_length (u : User) : u.frame.length = 22 := rfl

/-- Overwriting the field RAX of a frame. -/
theorem User.frame_set (u : User) (v : Word) :
    u.frame.set (trapFrameT.idxOf (.reg .rax)) v = (u.setRax v).frame := rfl

theorem trap_eq (u : User) (rsp0 : Word) (mem : Mem) :
    trap u rsp0 mem
      = Instr.exec (Processor.pushAll ⟨u.reg, rsp0, mem⟩ u.frame.reverse) (.movRsp .rdi) := rfl

/-- What the entry to `isr_handler` finds: the frame on top of the stack, its address in RDI. -/
theorem trap_frame (u : User) (rsp0 : Word) (mem : Mem) (h : 176 ≤ rsp0.toNat) :
    (trap u rsp0 mem).Top u.frame ∧ (trap u rsp0 mem).sp = rsp0 - 176#64
      ∧ (trap u rsp0 mem).reg .rdi = rsp0 - 176#64 := by
  have h0 : Processor.Top (⟨u.reg, rsp0, mem⟩ : Core) [] := ⟨rsp0.isLt.le, trivial⟩
  have hlen : 8 * u.frame.reverse.length ≤ rsp0.toNat := by simpa using h
  have htop := h0.pushAll u.frame.reverse hlen
  have hsp := Processor.pushAll_sp u.frame.reverse (⟨u.reg, rsp0, mem⟩ : Core)
  rw [List.length_reverse, User.frame_length] at hsp
  rw [List.reverse_reverse, List.append_nil] at htop
  rw [trap_eq]
  generalize Processor.pushAll _ _ = c at htop hsp
  refine ⟨⟨htop.fits, htop.holds⟩, hsp, ?_⟩
  simp only [Instr.exec, Function.update_self, hsp]

/-- The interrupt number and the error code dropped, the other pops done. -/
theorem isrReturn_eq (c : Core) :
    exec isrReturn c = { c.popAll saved.reverse with sp := (c.popAll saved.reverse).sp + 16 } := rfl

/-- From a frame on top of the stack, the pops and `iretq` bring back the task, and take the frame
off the stack word for word. -/
theorem isrReturn_frame {c : Core} {u : User} (h : c.Top u.frame) :
    iretq (exec isrReturn c) = u ∧ (exec isrReturn c).sp = c.sp + 136 := by
  rw [User.frame_eq] at h
  obtain ⟨htop, -, hsp, hreg⟩ := h.popAll saved.reverse (by simp)
  obtain ⟨hfits, hrip, hcs, hflags, hrsp, hss, -⟩ := ((htop.pop .rax).1.pop .rax).1
  have h16 : (c.popAll saved.reverse).sp + 8 + 8 = (c.popAll saved.reverse).sp + 16 :=
    BitVec.add_assoc ..
  simp only [Processor.pop, h16] at hrip hcs hflags hrsp hss
  rw [isrReturn_eq]
  refine ⟨?_, ?_⟩
  · have hregs : Function.update (c.popAll saved.reverse).reg .rip (u.reg .rip) = u.reg := by
      funext r
      by_cases hr : r = .rip
      · rw [hr, Function.update_self]
      · rw [Function.update_of_ne hr, hreg, Processor.assign_map, if_pos (mem_saved hr)]
    unfold iretq
    simp only [hrip, hcs, hflags, hrsp, hss, hregs]
  · rw [hsp]
    exact BitVec.add_assoc ..

/-! ## The stores of a fork -/

theorem field_toNat {p : Word} {off : ℕ} (h : p.toNat + off < 2 ^ 64) :
    field p off = p.toNat + off := by
  unfold field
  rw [BitVec.toNat_add, BitVec.toNat_ofNat]
  omega

theorem sub_toNat {p : Word} {n : ℕ} (h : n ≤ p.toNat) :
    (p - BitVec.ofNat 64 n).toNat = p.toNat - n := by
  have := p.isLt
  rw [BitVec.toNat_sub, BitVec.toNat_ofNat]
  omega

/-- The kernel stack below a top. -/
def kstack (top : Word) : ℕ × ℕ := (top.toNat - kstackSize, kstackSize)

def pcb (p : Word) : ℕ × ℕ := (p.toNat, pcbSize)

namespace ForkSite

variable (k : ForkSite)

/-- Kernel stacks come from `kstack_init` and PCBs from `kmalloc`: none has a byte of another. -/
structure Placed : Prop where
  parent : k.parent ≠ 0
  parentFits : k.parent.toNat + pcbSize ≤ 2 ^ 64
  childFits : k.child.toNat + pcbSize ≤ 2 ^ 64
  parentTop : kstackSize ≤ k.parentTop.toNat
  childTop : kstackSize ≤ k.childTop.toNat
  apart : [kstack k.parentTop, kstack k.childTop, pcb k.parent, pcb k.child].Pairwise Separate

/-- The trap frame of the parent. -/
def parentFrame : ℕ × ℕ := (k.parentTop.toNat - 176, 176)

/-- What `sys_fork` lays out on the child's stack: the address to return to and the trap frame. -/
def laidOut : ℕ × ℕ := (k.childTop.toNat - 184, 184)

variable {k}

/-- The stores in order, with what their addresses come to. -/
theorem sysFork_eq (hk : k.Placed) (mem : Mem) :
    k.sysFork mem
      = save (save (save (save (save (copy (save (save (save mem
          k.child.toNat k.childTop) (k.child.toNat + 8) (k.childTop - 0x4000#64))
          k.child.toNat (k.childTop - 176#64))
          (k.childTop.toNat - 176) (load mem (k.parent.toNat + 24)).toNat 176)
          (k.childTop.toNat - 176 + 112) 0)
          (k.child.toNat + 24) (k.childTop - 176#64))
          k.child.toNat (k.childTop - 240#64))
          (k.childTop.toNat - 184) k.entry)
          (k.child.toNat + 16) (k.childTop - 240#64) := by
  have hc := hk.childFits
  have hp := hk.parentFits
  have hT := hk.childTop
  have hlt := k.childTop.isLt
  obtain ⟨-, ⟨-, hsc⟩, hpc⟩ : _ ∧ (_ ∧ Separate (kstack k.childTop) (pcb k.child))
      ∧ Separate (pcb k.parent) (pcb k.child) := by simpa using hk.apart
  simp only [Separate, kstack, pcb, kstackSize, pcbSize] at hc hp hT hsc hpc
  have h0 : field k.child pcbRsp = k.child.toNat := field_toNat (by unfold pcbRsp; omega)
  have h8 : field k.child pcbKstackBase = k.child.toNat + 8 :=
    field_toNat (by unfold pcbKstackBase; omega)
  have h16 : field k.child pcbContext = k.child.toNat + 16 :=
    field_toNat (by unfold pcbContext; omega)
  have h24 : field k.child pcbTrapFrame = k.child.toNat + 24 :=
    field_toNat (by unfold pcbTrapFrame; omega)
  have hp24 : field k.parent pcbTrapFrame = k.parent.toNat + 24 :=
    field_toNat (by unfold pcbTrapFrame; omega)
  have htf : (k.childTop - 176#64).toNat = k.childTop.toNat - 176 := sub_toNat (by omega)
  have hctx : (k.childTop - 240#64).toNat = k.childTop.toNat - 240 := sub_toNat (by omega)
  have hrax : field (k.childTop - 176#64) (offsetOf trapFrameT (.reg .rax))
      = k.childTop.toNat - 176 + 112 := by
    rw [show offsetOf trapFrameT (.reg .rax) = 112 from rfl, field_toNat (by omega), htf]
  have hrip : field (k.childTop - 240#64) (offsetOf contextT (.reg .rip))
      = k.childTop.toNat - 184 := by
    rw [show offsetOf contextT (.reg .rip) = 56 from rfl, field_toNat (by omega), hctx]
    omega
  have hctxsize : BitVec.ofNat 64 (sizeof contextT) = 64#64 := rfl
  have hbelow : k.childTop - 176#64 - 64#64 = k.childTop - 240#64 := by bv_omega
  -- Which of the stores the pointers read back have passed over.
  have hbase : ∀ m v, load (save m (k.child.toNat + 8) v) k.child.toNat = load m k.child.toNat :=
    fun m v => load_save_of_separate (.inr le_rfl)
  have hkept : ∀ m v, load (save m (k.child.toNat + 24) v) k.child.toNat = load m k.child.toNat :=
    fun m v => load_save_of_separate (.inr (by dsimp only; omega))
  have hcopy : ∀ m n, load (copy m (k.childTop.toNat - 176) n 176) k.child.toNat
      = load m k.child.toNat :=
    fun m n => load_of_same (copy_same m (by simp only [Separate]; omega))
  have hset : ∀ m v, load (save m (k.childTop.toNat - 176 + 112) v) k.child.toNat
      = load m k.child.toNat :=
    fun m v => load_save_of_separate (by simp only [Separate]; omega)
  have hparent : ∀ m v, load (save m k.child.toNat v) (k.parent.toNat + 24)
      = load m (k.parent.toNat + 24) :=
    fun m v => load_save_of_separate (by simp only [Separate]; omega)
  have hparent' : ∀ m v, load (save m (k.child.toNat + 8) v) (k.parent.toNat + 24)
      = load m (k.parent.toNat + 24) :=
    fun m v => load_save_of_separate (by simp only [Separate]; omega)
  unfold sysFork
  simp only [h0, h8, h16, h24, hp24, load_save, hbase, hparent, hparent', htf, hrax,
    show sizeof trapFrameT = 176 from rfl, hkept, hset, hcopy, hctxsize, hbelow, hrip]
  rfl

/-- On the child's stack: the address for `switch_to` and the parent's frame with RAX zero. The
child's PCB leads to its context, and the parent's frame stays. -/
theorem sysFork_lays (hk : k.Placed) {u : User} {mem : Mem}
    (htf : load mem (k.parent.toNat + 24) = k.parentTop - 176#64)
    (hframe : Words mem (k.parentTop.toNat - 176) u.frame) :
    Words (k.sysFork mem) (k.childTop.toNat - 184) (k.entry :: (u.setRax 0).frame)
      ∧ load (k.sysFork mem) (k.child.toNat + 16) = k.childTop - 240#64
      ∧ Words (k.sysFork mem) (k.parentTop.toNat - 176) u.frame := by
  have hP := hk.parentTop
  have hT := hk.childTop
  obtain ⟨⟨hst, -, hsp⟩, ⟨-, hsc⟩, -⟩ :
      (Separate (kstack k.parentTop) (kstack k.childTop) ∧ _
          ∧ Separate (kstack k.parentTop) (pcb k.child))
        ∧ (_ ∧ Separate (kstack k.childTop) (pcb k.child)) ∧ _ := by
    simpa using hk.apart
  simp only [Separate, kstack, pcb, kstackSize, pcbSize] at hP hT hst hsp hsc
  have hfrom : (k.parentTop - 176#64).toNat = k.parentTop.toNat - 176 := sub_toNat (by omega)
  rw [sysFork_eq hk, htf, hfrom]
  set m := save (save (save mem k.child.toNat k.childTop) (k.child.toNat + 8)
    (k.childTop - 0x4000#64)) k.child.toNat (k.childTop - 176#64) with hm
  have hparent : Words m (k.parentTop.toNat - 176) u.frame := by
    refine hframe.of_same (Same.trans (save_same _ _ ?_)
      (Same.trans (save_same _ _ ?_) (save_same _ _ ?_))) <;>
    · simp only [Separate, User.frame_length]
      omega
  have hchild := (hparent.copy (k.childTop.toNat - 176)).save (i := 14) 0 (by simp)
  rw [show u.frame.set 14 0 = (u.setRax 0).frame from u.frame_set 0] at hchild
  refine ⟨?_, load_save .., ?_⟩
  · have hnext : k.childTop.toNat - 184 + 8 = k.childTop.toNat - 176 := by omega
    refine ⟨(load_save_of_separate ?_).trans (load_save ..), ?_⟩
    · simp only [Separate]
      omega
    · rw [hnext]
      refine hchild.of_same (Same.trans (save_same _ _ ?_) (Same.trans (save_same _ _ ?_)
        (Same.trans (save_same _ _ ?_) (save_same _ _ ?_)))) <;>
      · simp only [Separate, User.frame_length]
        omega
  · refine hparent.of_same (Same.trans (copy_same _ ?_) (Same.trans (save_same _ _ ?_)
      (Same.trans (save_same _ _ ?_) (Same.trans (save_same _ _ ?_) (Same.trans (save_same _ _ ?_)
        (save_same _ _ ?_)))))) <;>
    · simp only [Separate, User.frame_length]
      omega

end ForkSite

/-! ## The dispatch -/

/-- The stack pointer of `switch_to` changed. -/
def switched (c : Core) : Core :=
  { reg := c.reg
    sp := c.reg .rsi
    mem := save (c.pushAll (calleeSaved.map c.reg)).mem (c.reg .rdi).toNat
      (c.pushAll (calleeSaved.map c.reg)).sp }

theorem switchTo_eq (c : Core) :
    exec switchTo c = ((switched c).popAll calleeSaved.reverse).pop .rip := rfl

/-- A task that waits with its stack at RSI goes on at the address above the saved registers,
whatever these are. -/
theorem switchTo_resumes {c : Core} {entry : Word} {ws : List Word} (hsp : 56 ≤ c.sp.toNat)
    (hfits : (c.reg .rsi).toNat + 64 + 8 * ws.length ≤ 2 ^ 64)
    (hheld : Words c.mem ((c.reg .rsi).toNat + 56) (entry :: ws))
    (hstack : Separate (c.sp.toNat - 56, 56) ((c.reg .rsi).toNat + 56, 8 + 8 * ws.length))
    (hsaved : Separate ((c.reg .rdi).toNat, 8) ((c.reg .rsi).toNat + 56, 8 + 8 * ws.length)) :
    (exec switchTo c).reg .rip = entry ∧ (exec switchTo c).Top ws
      ∧ (exec switchTo c).sp = c.reg .rsi + 64#64 := by
  have hsame : Same c.mem (switched c).mem ((c.reg .rsi).toNat + 56, 8 + 8 * ws.length) :=
    (Processor.pushAll_same (calleeSaved.map c.reg) c hsp hstack).trans (save_same _ _ hsaved)
  obtain ⟨old, hlen, hold⟩ := exists_holds (switched c).mem 7 (c.reg .rsi).toNat
  have htop : (switched c).Top (old ++ entry :: ws) := by
    refine ⟨?_, hold.append ?_⟩
    · rw [List.length_append, hlen, List.length_cons]
      show (c.reg .rsi).toNat + _ ≤ _
      omega
    · rw [hlen]
      refine hheld.of_same (hsame.mono le_rfl ?_)
      simp only [List.length_cons]
      omega
  obtain ⟨htop, -, hpop, -⟩ := htop.popAll calleeSaved.reverse hlen.symm
  obtain ⟨hrest, hreg⟩ := htop.pop .rip
  rw [switchTo_eq]
  refine ⟨?_, hrest, ?_⟩
  · rw [hreg, Function.update_self]
  · show ((switched c).popAll calleeSaved.reverse).sp + 8 = _
    rw [hpop]
    exact BitVec.add_assoc ..

/-! ## A fork from the system call to both returns -/

/-- Kernel memory at the system call, when `kstack_init` has returned, when `sys_fork` has, and when
the child is dispatched for the first time. -/
structure ForkMems where
  call : Mem
  stack : Mem
  ret : Mem
  dispatch : Mem

namespace ForkSite

variable (k : ForkSite)

/-- Memory when `syscall_handler` has stored the address of the frame. -/
def handled (u : User) (mem : Mem) : Mem :=
  k.saveTrapFrame ((trap u k.parentTop mem).reg .rdi) (trap u k.parentTop mem).mem

/-- In between, the kernel writes neither the parent's frame, nor what leads to it, nor what stands
ready for the child. -/
structure Kept (u : User) (m : ForkMems) : Prop where
  frame : Same (k.handled u m.call) m.stack k.parentFrame
  trapFrame : Same (k.handled u m.call) m.stack (k.parent.toNat + pcbTrapFrame, 8)
  ret : Same (k.sysFork m.stack) m.ret k.parentFrame
  laidOut : Same (k.sysFork m.stack) m.dispatch k.laidOut
  context : Same (k.sysFork m.stack) m.dispatch (k.child.toNat + pcbContext, 8)

/-- In `schedule`, a process that is not on the child's stack is about to be switched away from. -/
structure Leaves (prev : Word) (c : Core) : Prop where
  room : 64 ≤ c.sp.toNat
  stack : Separate (c.sp.toNat - 64, 64) (kstack k.childTop)
  pcb : Separate (field prev pcbContext, 8) (kstack k.childTop)

/-- The parent at `iretq`, whatever `isr_handler` left in the registers. -/
def parentReturns (u : User) (m : ForkMems) (pid : ℤ) (reg : Reg → Word) : Core :=
  let c := trap u k.parentTop m.call
  exec isrReturn ⟨reg, c.sp, setRet (c.reg .rdi) pid m.ret⟩

variable {k}

theorem handled_frame (hk : k.Placed) (u : User) (mem : Mem) :
    Words (k.handled u mem) (k.parentTop.toNat - 176) u.frame
      ∧ load (k.handled u mem) (k.parent.toNat + 24) = k.parentTop - 176#64 := by
  have hP := hk.parentTop
  have hp := hk.parentFits
  obtain ⟨⟨-, hsp, -⟩, -⟩ : (_ ∧ Separate (kstack k.parentTop) (pcb k.parent) ∧ _) ∧ _ := by
    simpa using hk.apart
  simp only [Separate, kstack, pcb, kstackSize, pcbSize] at hP hp hsp
  obtain ⟨htop, hrsp, hrdi⟩ := trap_frame u k.parentTop mem (by omega)
  have hfrom : (k.parentTop - 176#64).toNat = k.parentTop.toNat - 176 := sub_toNat (by omega)
  have h24 : field k.parent pcbTrapFrame = k.parent.toNat + 24 :=
    field_toNat (by unfold pcbTrapFrame; omega)
  have hholds := htop.holds
  rw [hrsp, hfrom] at hholds
  unfold handled saveTrapFrame
  rw [if_pos hk.parent, h24, hrdi]
  refine ⟨hholds.of_same (save_same _ _ ?_), load_save ..⟩
  simp only [Separate, User.frame_length]
  omega

/-- `sys_fork` finds the frame of the system call. -/
theorem Kept.lays (hk : k.Placed) {u : User} {m : ForkMems} (hm : k.Kept u m) :
    Words (k.sysFork m.stack) (k.childTop.toNat - 184) (k.entry :: (u.setRax 0).frame)
      ∧ load (k.sysFork m.stack) (k.child.toNat + 16) = k.childTop - 240#64
      ∧ Words (k.sysFork m.stack) (k.parentTop.toNat - 176) u.frame := by
  obtain ⟨hframe, htf⟩ := handled_frame hk u m.call
  exact sysFork_lays hk ((load_of_same hm.trapFrame).trans htf) (hframe.of_same hm.frame)

theorem parent_resumes (hk : k.Placed) {u : User} {m : ForkMems} (hm : k.Kept u m) (pid : ℤ)
    (reg : Reg → Word) :
    iretq (k.parentReturns u m pid reg) = u.setRax (BitVec.ofInt 64 pid)
      ∧ (k.parentReturns u m pid reg).sp = k.parentTop - 40#64 := by
  have hP := hk.parentTop
  have hlt := k.parentTop.isLt
  unfold kstackSize at hP
  have hfrom : (k.parentTop - 176#64).toNat = k.parentTop.toNat - 176 := sub_toNat (by omega)
  have hrax : field (k.parentTop - 176#64) (offsetOf registersT (.reg .rax))
      = k.parentTop.toNat - 176 + 8 * 14 := by
    rw [show offsetOf registersT (.reg .rax) = 112 from rfl, field_toNat (by omega), hfrom]
  obtain ⟨-, hrsp, hrdi⟩ := trap_frame u k.parentTop m.call (by omega)
  obtain ⟨-, -, hparent⟩ := hm.lays hk
  have hheld := (hparent.of_same hm.ret).save (i := 14) (BitVec.ofInt 64 pid) (by simp)
  rw [show u.frame.set 14 (BitVec.ofInt 64 pid) = (u.setRax (BitVec.ofInt 64 pid)).frame from
    u.frame_set _, ← hrax, ← hfrom] at hheld
  unfold parentReturns setRet
  dsimp only
  rw [hrsp, hrdi]
  have htop : Processor.Top (⟨reg, k.parentTop - 176#64, _⟩ : Core) _ := ⟨?_, hheld⟩
  · obtain ⟨hiret, hsp⟩ := isrReturn_frame htop
    exact ⟨hiret, hsp.trans (by bv_omega)⟩
  · rw [hfrom, User.frame_length]
    omega

theorem child_resumes (hk : k.Placed) {u : User} {m : ForkMems} (hm : k.Kept u m)
    {prev ret : Word} {c : Core} (hc : c.mem = m.dispatch) (hl : k.Leaves prev c) :
    (callSwitchTo prev k.child ret c).reg .rip = k.entry
      ∧ iretq (exec forkRetEntry (callSwitchTo prev k.child ret c)) = u.setRax 0
      ∧ (exec forkRetEntry (callSwitchTo prev k.child ret c)).sp = k.childTop - 40#64 := by
  have hT := hk.childTop
  have hlt := k.childTop.isLt
  have hcf := hk.childFits
  obtain ⟨hroom, hstack, hpcb⟩ := hl
  simp only [Separate, kstack, kstackSize, pcbSize] at hT hcf hstack hpcb
  obtain ⟨hlaid, hctx, -⟩ := hm.lays hk
  have hctxat : field k.child pcbContext = k.child.toNat + 16 :=
    field_toNat (by unfold pcbContext; omega)
  have hload : load c.mem (field k.child pcbContext) = k.childTop - 240#64 := by
    rw [hctxat, hc]
    exact (load_of_same hm.context).trans hctx
  have hto : (k.childTop - 240#64).toNat = k.childTop.toNat - 240 := sub_toNat (by omega)
  have hat : k.childTop.toNat - 240 + 56 = k.childTop.toNat - 184 := by omega
  have hdown : (c.sp - 8).toNat = c.sp.toNat - 8 := by
    have := c.sp.isLt
    bv_omega
  -- The call of `switch_to`, with its return address on the stack of the process that leaves.
  set call : Core := Processor.push
    { c with
      reg := Function.update (Function.update c.reg .rdi (prev + BitVec.ofNat 64 pcbContext))
        .rsi (load c.mem (field k.child pcbContext)) } ret with hcall
  have hsp : call.sp = c.sp - 8 := rfl
  have hrsi : call.reg .rsi = k.childTop - 240#64 := by simp [hcall, Processor.push, hload]
  have hrdi : (call.reg .rdi).toNat = field prev pcbContext := rfl
  have hheld : Words call.mem (k.childTop.toNat - 184) (k.entry :: (u.setRax 0).frame) := by
    refine (hlaid.of_same (hm.laidOut.mono le_rfl ?_)).of_same (hc ▸ save_same c.mem _ ?_)
    · show k.childTop.toNat - 184 + 8 * (22 + 1) ≤ k.childTop.toNat - 184 + 184
      exact le_rfl
    · simp only [Separate, List.length_cons, User.frame_length, hdown]
      omega
  have hswitch : (exec switchTo call).reg .rip = k.entry
      ∧ (exec switchTo call).Top (u.setRax 0).frame
      ∧ (exec switchTo call).sp = call.reg .rsi + 64#64 := by
    refine switchTo_resumes ?_ ?_ ?_ ?_ ?_
    · rw [hsp, hdown]
      omega
    · rw [hrsi, hto, User.frame_length]
      omega
    · rw [hrsi, hto, hat]
      exact hheld
    · rw [hrsi, hto, hsp, hdown, User.frame_length]
      simp only [Separate]
      omega
    · rw [hrsi, hto, hrdi, User.frame_length]
      simp only [Separate]
      omega
  obtain ⟨hrip, htop, hsp'⟩ := hswitch
  obtain ⟨hiret, hend⟩ := isrReturn_frame htop
  refine ⟨hrip, hiret, hend.trans ?_⟩
  rw [hsp', hrsi]
  bv_omega

end ForkSite

/-- At every fork both tasks go on as the parent was at its system call, but for RAX: zero in the
child, at its first dispatch, and the child's PID in the parent. Both have then taken the words off
their stack that were laid out there, up to the five that `iretq` takes. -/
theorem fork_resumes (k : ForkSite) (hk : k.Placed) (u : User) (pid : ℤ) {m : ForkMems}
    (hm : k.Kept u m) :
    (∀ reg, iretq (k.parentReturns u m pid reg) = u.setRax (BitVec.ofInt 64 pid)
        ∧ (k.parentReturns u m pid reg).sp = k.parentTop - 40#64)
      ∧ ∀ prev ret c, c.mem = m.dispatch → k.Leaves prev c →
        (callSwitchTo prev k.child ret c).reg .rip = k.entry
          ∧ iretq (exec forkRetEntry (callSwitchTo prev k.child ret c)) = u.setRax 0
          ∧ (exec forkRetEntry (callSwitchTo prev k.child ret c)).sp = k.childTop - 40#64 :=
  ⟨ForkSite.parent_resumes hk hm pid, fun _ _ _ hc hl => ForkSite.child_resumes hk hm hc hl⟩

/-- A fork on the first two kernel stacks. -/
def firstFork : ForkSite where
  parent := 0xFFFF800000200030#64
  child := 0xFFFF800000200240#64
  parentTop := 0xFFFFB00000005000#64
  childTop := 0xFFFFB0000000A000#64
  entry := 0xFFFFFFFF80004C20#64

/-- A task whose registers all differ. -/
def forker : User where
  reg r := if r = .rax then 57 else if r = .rip then 0x401136 else BitVec.ofNat 64 (saved.idxOf r)
  cs := 0x23
  rflags := 0x246
  rsp := 0x7FFFFFFFE000
  ss := 0x1B

/-- Nothing else is written in between. -/
def firstMems : ForkMems where
  call _ := 0
  stack := firstFork.handled forker fun _ => 0
  ret := firstFork.sysFork (firstFork.handled forker fun _ => 0)
  dispatch := firstFork.sysFork (firstFork.handled forker fun _ => 0)

theorem firstFork_placed : firstFork.Placed := by
  refine ⟨?_, ?_, ?_, ?_, ?_, ?_⟩ <;> decide

theorem firstFork_kept : firstFork.Kept forker firstMems := by
  refine ⟨?_, ?_, ?_, ?_, ?_⟩ <;> exact fun _ _ _ => rfl

/-- The parent itself is switched away from. -/
theorem fork_resumes_firstFork :
    (∀ reg, iretq (firstFork.parentReturns forker firstMems 2 reg) = forker.setRax 2)
      ∧ iretq (exec forkRetEntry (callSwitchTo firstFork.parent firstFork.child 0xFFFFFFFF80004B00
          ⟨forker.reg, 0xFFFFB00000004E00, firstMems.dispatch⟩)) = forker.setRax 0 := by
  obtain ⟨hparent, hchild⟩ := fork_resumes firstFork firstFork_placed forker 2 firstFork_kept
  have hl : firstFork.Leaves firstFork.parent
      ⟨forker.reg, 0xFFFFB00000004E00, firstMems.dispatch⟩ := by
    refine ⟨?_, ?_, ?_⟩ <;> decide
  exact ⟨fun reg => (hparent reg).1, (hchild _ _ _ rfl hl).2.1⟩

end SudoOS.Trap
