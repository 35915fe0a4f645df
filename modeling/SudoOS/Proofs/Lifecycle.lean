import SudoOS.Lifecycle

/-!
# What creation and release keep

A creating call that fails takes a pid and nothing else: wherever it loaded another PML4 it has put
the old one back. One that succeeds adds a PCB whose address space is its own or its parent's
(`step_cases`). So the registers always hold what the current process needs (`hardware_follows`).
`free_proc` releases an address space without asking who else uses it and leaves the children's
parent pointers as they are: references stay valid in exactly the runs that release a process only
when no other one refers to it or to its address space (`no_dangling_references`).
-/

namespace SudoOS

namespace Sched

@[simp] theorem loadElf_fst (s : Sched) (pml4Pa : ℕ) (o : ElfOutcome) :
    (s.loadElf pml4Pa o).1 = s := by
  cases o <;> rfl

end Sched

namespace ProcSys

/-! ## What a step does -/

/-- A new process at `addr`, with its parent's address space or one of its own. -/
structure Creates (s s' : ProcSys) (addr : ℕ) (child : Pcb) : Prop where
  fresh : s.sched.Fresh addr
  list : s'.sched.procList = addr :: s.sched.procList
  pcbs : s'.sched.pcbs = Function.update s.sched.pcbs addr child
  current : s'.sched.currentProc = s.sched.currentProc
  idle : s'.sched.idleProc = s.sched.idleProc
  cr3 : s'.sched.cr3 = s.sched.cr3
  rsp0 : s'.sched.rsp0 = s.sched.rsp0
  state : child.procState = .ready
  fds : child.fdTable = List.replicate maxFd none
  cwd : child.cwdInode = 0 ∨ child.cwdInode = (s.sched.pcbs s.sched.currentProc).cwdInode
  parent : child.parent = 0 ∨ child.parent ∈ s.sched.procList
    ∨ child.parent = s.sched.currentProc
  mm : (s'.mms = s.mms ∧ s'.sched.pml4Pa = s.sched.pml4Pa
      ∧ ∃ q ∈ s.sched.procList, child.mm = (s.sched.pcbs q).mm)
    ∨ (child.mm ≠ 0 ∧ child.mm ∉ s.mms ∧ s'.mms = child.mm :: s.mms
      ∧ ∀ m, m ≠ child.mm → s'.sched.pml4Pa m = s.sched.pml4Pa m)

theorem kthreadCreate_cases {s : ProcSys} {parent : ℕ} (name : List UInt8) {a : Attempt}
    (hf : s.Fresh a) (hp : parent ∈ s.sched.procList) :
    s.kthreadCreate parent name a = s.fails
      ∨ ∃ child, Creates s (s.kthreadCreate parent name a) a.pcb child := by
  unfold kthreadCreate
  split_ifs
  · exact .inl rfl
  · exact .inr ⟨_, hf.1, rfl, rfl, rfl, rfl, rfl, rfl, rfl, rfl, .inl rfl, .inr (.inl hp),
      .inl ⟨rfl, rfl, parent, hp, rfl⟩⟩

theorem createUserProcess_cases {s : ProcSys} (name : List UInt8) {a : Attempt} (hf : s.Fresh a) :
    s.createUserProcess name a = s.fails
      ∨ ∃ child, Creates s (s.createUserProcess name a) a.pcb child := by
  unfold createUserProcess
  rcases hm : a.mm with _ | ⟨mm, pml4Pa⟩
  · exact .inl rfl
  · obtain ⟨h0, hnew⟩ := hf.2 (mm, pml4Pa) (by simp [hm])
    dsimp only
    rw [Sched.loadElf_fst]
    split_ifs
    · exact .inl rfl
    · exact .inl rfl
    · exact .inl rfl
    · refine .inr ⟨_, hf.1, rfl, rfl, rfl, rfl, rfl, rfl, rfl, rfl, .inl rfl, .inl rfl,
        .inr ⟨h0, hnew, rfl, fun m hne => ?_⟩⟩
      exact Function.update_of_ne hne _ _

theorem sysFork_cases {s : ProcSys} {a : Attempt} (hf : s.Fresh a) :
    s.sysFork a = s.fails ∨ ∃ child, Creates s (s.sysFork a) a.pcb child := by
  unfold sysFork
  rcases hm : a.mm with _ | ⟨mm, pml4Pa⟩
  · exact .inl rfl
  · obtain ⟨h0, hnew⟩ := hf.2 (mm, pml4Pa) (by simp [hm])
    dsimp only
    split_ifs
    · exact .inl rfl
    · exact .inl rfl
    · refine .inr ⟨_, hf.1, rfl, rfl, rfl, rfl, rfl, rfl, rfl, rfl, .inr rfl, .inr (.inr rfl),
        .inr ⟨h0, hnew, rfl, fun m hne => ?_⟩⟩
      exact Function.update_of_ne hne _ _

def Op.Creating : Op → Prop
  | .kthreadCreate .. | .createUserProcess .. | .sysFork _ => True
  | .tick | .yield | .exit _ => False

theorem creating_cases {s s' : ProcSys} {op : Op} (h : s.step op = some s') (hop : op.Creating) :
    s' = s.fails ∨ ∃ addr child, Creates s s' addr child := by
  unfold step at h
  cases op with
  | kthreadCreate parent name a =>
    dsimp only at h
    split_ifs at h with hf
    rw [← Option.some.inj h]
    exact (kthreadCreate_cases name hf.1 hf.2).imp_right fun ⟨child, hc⟩ => ⟨_, child, hc⟩
  | createUserProcess name a =>
    dsimp only at h
    split_ifs at h with hf
    rw [← Option.some.inj h]
    exact (createUserProcess_cases name hf).imp_right fun ⟨child, hc⟩ => ⟨_, child, hc⟩
  | sysFork a =>
    dsimp only at h
    split_ifs at h with hf
    rw [← Option.some.inj h]
    exact (sysFork_cases hf).imp_right fun ⟨child, hc⟩ => ⟨_, child, hc⟩
  | tick => exact hop.elim
  | yield => exact hop.elim
  | exit code => exact hop.elim

/-- A step fails to create a process, creates one, or only moves on. -/
theorem step_cases {s s' : ProcSys} {op : Op} (h : s.step op = some s') :
    s' = s.fails ∨ (∃ addr child, Creates s s' addr child)
      ∨ (s'.mms = s.mms ∧ Sched.Moves s.sched s'.sched) := by
  cases op with
  | kthreadCreate parent name a => exact (creating_cases h trivial).imp_right .inl
  | createUserProcess name a => exact (creating_cases h trivial).imp_right .inl
  | sysFork a => exact (creating_cases h trivial).imp_right .inl
  | tick =>
    rw [← Option.some.inj h]
    exact .inr (.inr ⟨rfl, Sched.timerCallback_moves _⟩)
  | yield =>
    rw [← Option.some.inj h]
    exact .inr (.inr ⟨rfl, Sched.schedule_moves _⟩)
  | exit code =>
    unfold step at h
    dsimp only at h
    split_ifs at h
    rw [← Option.some.inj h]
    exact .inr (.inr ⟨rfl, Sched.exit_moves _ _⟩)

theorem takePid_queueInv {s : Sched} (h : Sched.QueueInv s) : Sched.QueueInv s.takePid :=
  ⟨⟨h.nodup, h.current, h.idle, h.ready, h.listed, h.currentListed, h.idleListed, h.idleRunning,
    h.nonzero, h.slice_le⟩, h.alive, h.slice_pos⟩

theorem step_queueInv {s s' : ProcSys} {op : Op} (hI : Sched.QueueInv s.sched)
    (h : s.step op = some s') : Sched.QueueInv s'.sched := by
  have hstep : ∀ (op : Sched.Op) (t : Sched), s.sched.step op = some t → Sched.QueueInv t :=
    fun op t => Sched.step_queueInv s.sched op t hI
  unfold step at h
  cases op with
  | kthreadCreate parent name a =>
    dsimp only at h
    split_ifs at h with hf
    rw [← Option.some.inj h]
    unfold kthreadCreate
    split_ifs
    · exact takePid_queueInv hI
    · exact hstep (.kthreadCreate parent name ⟨a.pcb, 0, 0, a.kstackTop⟩) _ (if_pos hf.1.1)
  | createUserProcess name a =>
    dsimp only at h
    split_ifs at h with hf
    rw [← Option.some.inj h]
    unfold createUserProcess
    rcases a.mm with _ | ⟨mm, pml4Pa⟩
    · exact takePid_queueInv hI
    · dsimp only
      rw [Sched.loadElf_fst]
      split_ifs
      · exact takePid_queueInv hI
      · exact takePid_queueInv hI
      · exact takePid_queueInv hI
      · exact hstep (.createUserProcess name ⟨a.pcb, mm, pml4Pa, a.kstackTop⟩) _ (if_pos hf.1)
  | sysFork a =>
    dsimp only at h
    split_ifs at h with hf
    rw [← Option.some.inj h]
    unfold sysFork
    rcases a.mm with _ | ⟨mm, pml4Pa⟩
    · exact takePid_queueInv hI
    · dsimp only
      split_ifs
      · exact takePid_queueInv hI
      · exact takePid_queueInv hI
      · exact hstep (.sysFork ⟨a.pcb, mm, pml4Pa, a.kstackTop⟩) _ (if_pos hf.1)
  | tick => exact Option.some.inj h ▸ hstep .tick _ rfl
  | yield => exact Option.some.inj h ▸ hstep .yield _ rfl
  | exit code =>
    dsimp only at h
    split_ifs at h with hi
    exact Option.some.inj h ▸ hstep (.exit code) _ (if_pos hi)

/-! ## References -/

/-- Every process refers to live objects only. -/
structure NoDangling (s : ProcSys) : Prop where
  mm : ∀ p ∈ s.sched.procList, (s.sched.pcbs p).mm = 0 ∨ (s.sched.pcbs p).mm ∈ s.mms
  parent : ∀ p ∈ s.sched.procList,
    (s.sched.pcbs p).parent = 0 ∨ (s.sched.pcbs p).parent ∈ s.sched.procList

structure RefInv (s : ProcSys) : Prop extends NoDangling s where
  queue : Sched.QueueInv s.sched
  nodup : s.sched.procList.Nodup
  mmsNodup : s.mms.Nodup

theorem Creates.refInv {s s' : ProcSys} {addr : ℕ} {child : Pcb} (h : Creates s s' addr child)
    (hI : RefInv s) (hq : Sched.QueueInv s'.sched) : RefInv s' := by
  have hmms : ∀ m ∈ s.mms, m ∈ s'.mms := by
    intro m hm
    rcases h.mm with ⟨he, -⟩ | ⟨-, -, he, -⟩ <;> simp [he, hm]
  have hpcb : ∀ p ∈ s.sched.procList, s'.sched.pcbs p = s.sched.pcbs p := by
    intro p hp
    rw [h.pcbs, Function.update_of_ne]
    exact fun he => h.fresh.2 (he ▸ hp)
  have hself : s'.sched.pcbs addr = child := by rw [h.pcbs, Function.update_self]
  refine ⟨⟨fun p hp => ?_, fun p hp => ?_⟩, hq, ?_, ?_⟩
  · rw [h.list] at hp
    rcases List.mem_cons.mp hp with rfl | hp
    · rw [hself]
      rcases h.mm with ⟨-, -, q, hq, he⟩ | ⟨-, -, he, -⟩
      · rw [he]
        exact (hI.mm q hq).imp_right (hmms _)
      · simp [he]
    · rw [hpcb p hp]
      exact (hI.mm p hp).imp_right (hmms _)
  · rw [h.list] at hp ⊢
    rcases List.mem_cons.mp hp with rfl | hp
    · rw [hself]
      rcases h.parent with h0 | hl | hc
      · exact .inl h0
      · exact .inr (List.mem_cons_of_mem _ hl)
      · exact .inr (List.mem_cons_of_mem _ (hc ▸ hI.queue.currentListed))
    · rw [hpcb p hp]
      exact (hI.parent p hp).imp_right (List.mem_cons_of_mem _)
  · rw [h.list]
    exact List.nodup_cons.mpr ⟨h.fresh.2, hI.nodup⟩
  · rcases h.mm with ⟨he, -⟩ | ⟨-, hnew, he, -⟩
    · rw [he]
      exact hI.mmsNodup
    · rw [he]
      exact List.nodup_cons.mpr ⟨hnew, hI.mmsNodup⟩

theorem step_refInv {s s' : ProcSys} {op : Op} (hI : RefInv s) (h : s.step op = some s') :
    RefInv s' := by
  have hq := step_queueInv hI.queue h
  rcases step_cases h with rfl | ⟨addr, child, hc⟩ | ⟨hm, hmv⟩
  · exact ⟨⟨hI.mm, hI.parent⟩, hq, hI.nodup, hI.mmsNodup⟩
  · exact hc.refInv hI hq
  · refine ⟨⟨fun p hp => ?_, fun p hp => ?_⟩, hq, hmv.list ▸ hI.nodup, hm ▸ hI.mmsNodup⟩
    · rw [hmv.list] at hp
      rw [(hmv.pcb p).mm, hm]
      exact hI.mm p hp
    · rw [hmv.list] at hp ⊢
      rw [(hmv.pcb p).parent]
      exact hI.parent p hp

theorem procInit_refInv {s₀ s : Sched} {idle : ℕ} (h : s₀.procInit idle = some s) :
    RefInv ⟨s, []⟩ ∧ (s.pcbs idle).mm = 0 := by
  obtain ⟨hQ, hlist, -, -, -⟩ := Sched.procInit_queueInv h
  have hpcb : (s.pcbs idle).mm = 0 ∧ (s.pcbs idle).parent = 0 := by
    unfold Sched.procInit at h
    split_ifs at h
    rw [← Option.some.inj h]
    simp [Sched.newPcb, Pcb.setProcName, Sched.allocNewPcb]
  refine ⟨⟨⟨fun p hp => ?_, fun p hp => ?_⟩, hQ, ?_, List.nodup_nil⟩, hpcb.1⟩
  · rw [show p = idle by simpa [hlist] using hp]
    exact .inl hpcb.1
  · rw [show p = idle by simpa [hlist] using hp]
    exact .inl hpcb.2
  · simp [hlist]

/-! ## The registers -/

theorem step_loaded {s s' : ProcSys} {op : Op} (hI : RefInv s) (hl : Sched.Loaded s.sched)
    (h : s.step op = some s') : Sched.Loaded s'.sched := by
  rcases step_cases h with rfl | ⟨addr, child, hc⟩ | ⟨-, hmv⟩
  · exact ⟨hl.cr3, hl.rsp0⟩
  · have hcur : s'.sched.pcbs s.sched.currentProc = s.sched.pcbs s.sched.currentProc := by
      rw [hc.pcbs, Function.update_of_ne]
      exact fun he => hc.fresh.2 (he ▸ hI.queue.currentListed)
    refine ⟨fun hmm => ?_, fun hne => ?_⟩
    · rw [hc.current, hcur] at hmm ⊢
      have hpa : s'.sched.pml4Pa (s.sched.pcbs s.sched.currentProc).mm
          = s.sched.pml4Pa (s.sched.pcbs s.sched.currentProc).mm := by
        rcases hc.mm with ⟨-, he, -⟩ | ⟨-, hnew, -, he⟩
        · rw [he]
        · refine he _ fun hm => hnew (hm ▸ ?_)
          exact (hI.mm _ hI.queue.currentListed).resolve_left hmm
      rw [hc.cr3, hpa]
      exact hl.cr3 hmm
    · rw [hc.current, hc.idle] at hne
      rw [hc.rsp0, hc.current, hcur]
      exact hl.rsp0 hne
  · exact hmv.loaded hl

/-- In every reachable state the task state segment and CR3 hold what the current process needs. -/
theorem hardware_follows (s₀ : Sched) (idle : ℕ) (ops : List Op) {s₁ : Sched} {s : ProcSys}
    (hinit : s₀.procInit idle = some s₁) (h : Run.run step ⟨s₁, []⟩ ops = some s) :
    (s.sched.currentProc ≠ s.sched.idleProc →
        s.sched.rsp0 = (s.sched.pcbs s.sched.currentProc).kstackBase + kstackSize)
      ∧ ((s.sched.pcbs s.sched.currentProc).mm ≠ 0 →
        s.sched.cr3 = s.sched.pml4Pa (s.sched.pcbs s.sched.currentProc).mm) := by
  obtain ⟨hI₁, hmm⟩ := procInit_refInv hinit
  obtain ⟨-, -, hcur, hidle, -⟩ := Sched.procInit_queueInv hinit
  have hl₁ : Sched.Loaded s₁ :=
    ⟨fun h => absurd (hcur ▸ hmm) h, fun h => absurd (hcur.trans hidle.symm) h⟩
  have hI : RefInv s ∧ Sched.Loaded s.sched :=
    Run.run_invariant (I := fun s => RefInv s ∧ Sched.Loaded s.sched)
      (fun _ _ _ hs hstep => ⟨step_refInv hs.1 hstep, step_loaded hs.1 hs.2 hstep⟩)
        ⟨hI₁, hl₁⟩ h
  exact ⟨hI.2.rsp0, hI.2.cr3⟩

/-- What a creating call gets that takes its PCB at `pcb` and succeeds. -/
def attemptAt (pcb : ℕ) : Attempt where
  pcb := pcb
  mm := some (pcb + 8, 0x1000 * pcb)
  elf := .loaded 0x400000
  stackMapped := true
  copied := true
  kstackTop := 0x8000 * pcb

/-- A process forks and has a thread; two creations fail while it runs. -/
def threadOps : List Op :=
  [.createUserProcess [] (attemptAt 2), .yield,
    .createUserProcess [] { attemptAt 3 with elf := .unmapped }, .kthreadCreate 2 [] (attemptAt 3),
    .createUserProcess [] { attemptAt 4 with stackMapped := false }, .sysFork (attemptAt 4)]

theorem hardware_follows_threadOps :
    ∃ s₁ s, Sched.boot.procInit 1 = some s₁ ∧ Run.run step ⟨s₁, []⟩ threadOps = some s
      ∧ s.sched.currentProc ≠ s.sched.idleProc ∧ (s.sched.pcbs s.sched.currentProc).mm ≠ 0
      ∧ s.sched.cr3 = s.sched.pml4Pa (s.sched.pcbs s.sched.currentProc).mm := by
  have h : ((Sched.boot.procInit 1).bind fun s => Run.run step ⟨s, []⟩ threadOps).map
      (fun s => (s.sched.currentProc, s.sched.idleProc, (s.sched.pcbs s.sched.currentProc).mm))
        = some (2, 1, 10) := by
    decide +kernel
  obtain ⟨s₁, s, h₁, hr, he⟩ := Run.exists_of_eval h
  simp only [Prod.mk.injEq] at he
  obtain ⟨hc, hi, hm⟩ := he
  have hm' : (s.sched.pcbs s.sched.currentProc).mm ≠ 0 := by simp [hm]
  exact ⟨s₁, s, h₁, hr, by simp [hc, hi], hm',
    (hardware_follows Sched.boot 1 threadOps h₁ hr).2 hm'⟩

/-! ## Release -/

/-- No other process is a child of a released one or shares its address space. -/
def ReleaseOk (s : ProcSys) : LifeOp → Prop
  | .op _ => True
  | .freeProc p => ∀ q ∈ s.sched.procList, q ≠ p →
    (s.sched.pcbs q).parent ≠ p
      ∧ ((s.sched.pcbs p).mm ≠ 0 → (s.sched.pcbs q).mm ≠ (s.sched.pcbs p).mm)

instance (s : ProcSys) : (op : LifeOp) → Decidable (ReleaseOk s op)
  | .op _ => isTrue trivial
  | .freeProc _ => inferInstanceAs (Decidable (∀ q ∈ s.sched.procList, _))

theorem freeProc_queueInv {s : ProcSys} (hI : Sched.QueueInv s.sched) {p : ℕ}
    (hz : s.sched.state p = .zombie) : Sched.QueueInv (s.freeProc p).sched := by
  have hrq : p ∉ s.sched.readyQueue := by
    intro hp
    rw [hI.ready p hp] at hz
    cases hz
  have hpi : s.sched.idleProc ≠ p := by
    intro he
    rw [← he, hI.idleRunning] at hz
    cases hz
  have hpc : s.sched.currentProc ≠ p := fun he => hI.alive (he ▸ hz)
  have hqueue : (s.freeProc p).sched.readyQueue = s.sched.readyQueue := List.erase_of_not_mem hrq
  refine ⟨⟨hqueue ▸ hI.nodup, hqueue ▸ hI.current, hqueue ▸ hI.idle, hqueue ▸ hI.ready, ?_, ?_, ?_,
    hI.idleRunning, ?_, hI.slice_le⟩, hI.alive, hI.slice_pos⟩
  · intro q hq
    rw [hqueue] at hq
    exact (List.mem_erase_of_ne fun he : q = p => hrq (he ▸ hq)).mpr (hI.listed q hq)
  · exact (List.mem_erase_of_ne hpc).mpr hI.currentListed
  · exact (List.mem_erase_of_ne hpi).mpr hI.idleListed
  · exact fun q hq => hI.nonzero q (List.mem_of_mem_erase hq)

theorem freeProc_refInv {s : ProcSys} (hI : RefInv s) {p : ℕ} (hz : s.sched.state p = .zombie)
    (hok : ReleaseOk s (.freeProc p)) : RefInv (s.freeProc p) := by
  have hother : ∀ q ∈ (s.freeProc p).sched.procList, q ∈ s.sched.procList ∧ q ≠ p := by
    intro q hq
    exact ⟨List.mem_of_mem_erase hq, fun he => hI.nodup.not_mem_erase (he ▸ hq)⟩
  refine ⟨⟨fun q hq => ?_, fun q hq => ?_⟩, freeProc_queueInv hI.queue hz, hI.nodup.erase p, ?_⟩
  · obtain ⟨hl, hne⟩ := hother q hq
    refine (hI.mm q hl).imp_right fun hm => ?_
    unfold freeProc
    dsimp only
    split_ifs with h0
    · exact (List.mem_erase_of_ne ((hok q hl hne).2 h0)).mpr hm
    · exact hm
  · obtain ⟨hl, hne⟩ := hother q hq
    refine (hI.parent q hl).imp_right fun hp => ?_
    exact (List.mem_erase_of_ne (hok q hl hne).1).mpr hp
  · unfold freeProc
    dsimp only
    split_ifs
    · exact hI.mmsNodup.erase _
    · exact hI.mmsNodup

/-- A release that does not meet the condition leaves a reference dangling at once. -/
theorem freeProc_dangles {s : ProcSys} (hI : RefInv s) {p : ℕ} (hp : p ∈ s.sched.procList)
    (hno : ¬ ReleaseOk s (.freeProc p)) : ¬ NoDangling (s.freeProc p) := by
  intro hd
  refine hno fun q hq hne => ?_
  have hq' : q ∈ (s.freeProc p).sched.procList := (List.mem_erase_of_ne hne).mpr hq
  refine ⟨fun hpar => ?_, fun h0 hmm => ?_⟩
  · rcases hd.parent q hq' with hz | hl
    · exact hI.queue.nonzero p hp (hpar.symm.trans hz)
    · exact hI.nodup.not_mem_erase (show p ∈ s.sched.procList.erase p from hpar ▸ hl)
  · have hmms : (s.freeProc p).mms = s.mms.erase (s.sched.pcbs p).mm := if_pos h0
    rcases hd.mm q hq' with hz | hl
    · exact h0 (hmm.symm.trans hz)
    · rw [hmms] at hl
      exact hI.mmsNodup.not_mem_erase (show (s.sched.pcbs p).mm ∈ s.mms.erase _ from hmm ▸ hl)

theorem lifeStep_refInv (s : ProcSys) (op : LifeOp) (s' : ProcSys) (hI : RefInv s)
    (hok : ReleaseOk s op) (h : s.lifeStep op = some s') : RefInv s' := by
  cases op with
  | op op => exact step_refInv hI h
  | freeProc p =>
    unfold lifeStep at h
    dsimp only at h
    split_ifs at h with hp
    exact Option.some.inj h ▸ freeProc_refInv hI hp.2 hok

/-- No process refers to what has been released, in every state of a run, if and only if every
process is released while no other one is its child or shares its address space. -/
theorem no_dangling_references (s₀ : Sched) (idle : ℕ) (ops : List LifeOp) {s₁ : Sched}
    {s : ProcSys} (hinit : s₀.procInit idle = some s₁)
    (h : Run.run lifeStep ⟨s₁, []⟩ ops = some s) :
    (∀ pre t, pre <+: ops → Run.run lifeStep ⟨s₁, []⟩ pre = some t → NoDangling t)
      ↔ Run.Meets lifeStep ReleaseOk ⟨s₁, []⟩ ops := by
  refine (Run.meets_iff_forall_run lifeStep_refInv (fun s hs => hs.toNoDangling) ?_
    (procInit_refInv hinit).1 h).symm
  intro s op s' hI hno hstep
  cases op with
  | op op => exact absurd trivial hno
  | freeProc p =>
    unfold lifeStep at hstep
    dsimp only at hstep
    split_ifs at hstep with hp
    exact Option.some.inj hstep ▸ freeProc_dangles hI hp.1 hno

/-- A process and a thread of the idle process exit, and the thread is released. -/
def threadExits : List LifeOp :=
  [.op (.createUserProcess [] (attemptAt 2)), .op .yield, .op (.kthreadCreate 1 [] (attemptAt 3)),
    .op (.exit 0), .op (.exit 0), .freeProc 3]

theorem no_dangling_references_threadExits :
    ∃ s₁ s, Sched.boot.procInit 1 = some s₁ ∧ Run.run lifeStep ⟨s₁, []⟩ threadExits = some s
      ∧ NoDangling s := by
  have h : ((Sched.boot.procInit 1).bind fun s =>
      (Run.run lifeStep ⟨s, []⟩ threadExits).map fun t =>
        (t.sched.procList, decide (Run.Meets lifeStep ReleaseOk ⟨s, []⟩ threadExits)))
      = some ([2, 1], true) := by
    decide +kernel
  obtain ⟨s₁, h₁, hr⟩ := Option.bind_eq_some_iff.mp h
  obtain ⟨s, hs, he⟩ := Option.map_eq_some_iff.mp hr
  simp only [Prod.mk.injEq, decide_eq_true_eq] at he
  exact ⟨s₁, s, h₁, hs,
    (no_dangling_references Sched.boot 1 threadExits h₁ hs).mpr he.2 threadExits s
      List.prefix_rfl hs⟩

/-- A process is released while its thread, which has its address space, is alive. -/
theorem released_mm_in_use :
    ∃ s₁ s, Sched.boot.procInit 1 = some s₁
      ∧ Run.run lifeStep ⟨s₁, []⟩
        [.op (.createUserProcess [] (attemptAt 2)), .op .yield,
          .op (.kthreadCreate 2 [] (attemptAt 3)), .op (.exit 0), .freeProc 2] = some s
      ∧ ¬ NoDangling s := by
  have h : ((Sched.boot.procInit 1).bind fun s => Run.run lifeStep ⟨s, []⟩
      [.op (.createUserProcess [] (attemptAt 2)), .op .yield,
        .op (.kthreadCreate 2 [] (attemptAt 3)), .op (.exit 0), .freeProc 2]).map
      (fun t => (t.sched.procList, (t.sched.pcbs 3).mm, t.mms)) = some ([3, 1], 10, []) := by
    decide +kernel
  obtain ⟨s₁, s, h₁, hr, he⟩ := Run.exists_of_eval h
  simp only [Prod.mk.injEq] at he
  obtain ⟨hl, hm, hms⟩ := he
  refine ⟨s₁, s, h₁, hr, fun hd => ?_⟩
  have := hd.mm 3 (by simp [hl])
  simp [hm, hms] at this

end ProcSys

end SudoOS
