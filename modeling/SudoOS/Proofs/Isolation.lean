import SudoOS.Proofs.Names
import SudoOS.Proofs.Sys

/-!
# What other processes leave alone

A process that is not running keeps its PCB, its open files and their offsets, and an inode in use
changes only when it is written through a descriptor on it. So what a process reads next is the same
after any steps of the others in which its file is not written (`reads_undisturbed`).
-/

namespace SudoOS

namespace Ramfs

/-! ## Inodes in use -/

section Files

variable {fs fs' : Ramfs} {cur cur' : Pcb} {n : ℕ} (hu : fs.Used n)

include hu

theorem openInode_file {r : Resolved} {flags : BitVec 32} {i : ℕ}
    (h : fs.openInode r flags = some (i, fs')) : fs'.files n = fs.files n := by
  rcases openInode_cases h with ⟨-, -, rfl⟩ | ⟨-, -, hc⟩
  · rfl
  · exact (createInode_adds hc).1.files_eq hu

theorem ramfsOpen_file {path : Option (List UInt8)} {flags : BitVec 32} {mem : Bool} {ret : ℤ}
    (h : fs.ramfsOpen cur path flags mem = some (ret, fs', cur')) :
    fs'.files n = fs.files n := by
  obtain ⟨r, -, hends⟩ := ramfsOpen_ends h
  cases hends with
  | noInode => rfl
  | noFile _ _ hn => exact openInode_file hu hn
  | noFd _ _ fs₁ _ hn => exact (openInode_file hu hn : fs₁.files n = fs.files n)
  | opened _ _ _ fs₁ _ hn => exact (openInode_file hu hn : fs₁.files n = fs.files n)

theorem ramfsMkdir_file {path : Option (List UInt8)} {ret : ℤ}
    (h : fs.ramfsMkdir cur path = some (ret, fs')) : fs'.files n = fs.files n := by
  obtain ⟨r, -, ⟨-, rfl⟩ | ⟨-, -, k, hc⟩⟩ := ramfsMkdir_ends h
  · rfl
  · exact (createInode_adds hc).1.files_eq hu

end Files

/-- The inode a call writes to. -/
def Call.writes (fs : Ramfs) (cur : Pcb) : Call → Option ℕ
  | .write fd _ _ => (fdFile cur fd).bind fun f => (fs.globalFileTable f).node
  | _ => none

/-- A call changes no other inode in use. -/
theorem perform_file {fs fs' : Ramfs} {cur cur' : Pcb} {n : ℕ} (hu : fs.Used n) {c : Call}
    (hno : c.writes fs cur ≠ some n) (h : fs.perform cur c = some (fs', cur')) :
    fs'.files n = fs.files n := by
  cases c with
  | «open» path flags mem =>
    obtain ⟨⟨ret, r⟩, hr, rfl⟩ := Option.map_eq_some_iff.mp h
    exact ramfsOpen_file hu hr
  | mkdir path =>
    obtain ⟨⟨ret, r⟩, hr, he⟩ := Option.map_eq_some_iff.mp h
    obtain ⟨rfl, rfl⟩ := Prod.mk.inj he
    exact ramfsMkdir_file hu hr
  | chdir path =>
    obtain ⟨⟨ret, r⟩, hr, he⟩ := Option.map_eq_some_iff.mp h
    obtain ⟨rfl, rfl⟩ := Prod.mk.inj he
    rfl
  | read fd count =>
    obtain ⟨⟨ret, data, r⟩, hr, he⟩ := Option.map_eq_some_iff.mp h
    obtain ⟨rfl, rfl⟩ := Prod.mk.inj he
    exact congrFun (ramfsRead_files hr) n
  | write fd buf count =>
    obtain ⟨⟨ret, r⟩, hr, he⟩ := Option.map_eq_some_iff.mp h
    obtain ⟨rfl, rfl⟩ := Prod.mk.inj he
    rcases ramfsWrite_ends hr with rfl | ⟨f, m, bytes, hf, hm, -, -, -, rfl⟩
    · rfl
    · have hnm : n ≠ m := by
        rintro rfl
        exact hno (by rw [Call.writes, hf]; exact hm)
      exact Function.update_of_ne hnm ..
  | close fd =>
    obtain ⟨rfl, rfl⟩ := Prod.mk.inj (Option.some.inj h)
    exact congrFun (ramfsClose_files fs cur fd) n

/-- What `ramfs_read` returns and reads rests on the open file and its inode alone. -/
theorem ramfsRead_congr {fs fs' : Ramfs} {cur : Pcb} {fd : ℤ} {f n : ℕ}
    (hf : fdFile cur fd = some f) (hn : (fs.globalFileTable f).node = some n)
    (hopen : fs'.globalFileTable f = fs.globalFileTable f) (hfile : fs'.files n = fs.files n)
    (count : BitVec 32) :
    (fs'.ramfsRead cur fd count).map (fun r => (r.1, r.2.1))
      = (fs.ramfsRead cur fd count).map fun r => (r.1, r.2.1) := by
  unfold ramfsRead
  rw [hf]
  dsimp only
  rw [hopen, hn, Option.bind_some, Option.bind_some, hfile]
  split_ifs
  · rfl
  · rfl
  · rw [Option.map_map, Option.map_map]
    rfl
  · rfl

end Ramfs

namespace Sys

/-! ## Steps of other processes -/

/-- The inode a step writes to. -/
def writes (s : Sys) (e : ℕ × SysOp) : Option ℕ :=
  match e.2 with
  | .call c => c.writes s.fs (s.pcb e.1)
  | _ => none

/-- A step of another process than `p` that does not write to inode `n`. -/
def Elsewhere (p n : ℕ) (s : Sys) (e : ℕ × SysOp) : Prop := e.1 ≠ p ∧ s.writes e ≠ some n

instance (p n : ℕ) (s : Sys) (e : ℕ × SysOp) : Decidable (Elsewhere p n s e) :=
  inferInstanceAs (Decidable (_ ∧ _))

/-- From `s` to `t` nothing changed of process `p`, its open files and inode `n`. -/
structure Undisturbed (p n : ℕ) (s t : Sys) : Prop where
  runs : t.Runs p
  pcb : t.pcb p = s.pcb p
  handles : ∀ i f, s.fd p i = some f → t.fs.globalFileTable f = s.fs.globalFileTable f
  used : t.fs.Used n
  file : t.fs.files n = s.fs.files n

section Step

variable {s s' : Sys} (hI : SysInv s) {p n : ℕ} {e : ℕ × SysOp}

include hI

/-- An open file of one process is not the business of another's call. -/
theorem handles_kept {q : ℕ} (hp : p ∈ s.procList) (hq : q ∈ s.procList) (hne : q ≠ p)
    {fs' : Ramfs} {cur' : Pcb} (hs : Ramfs.HandlesStep s.fs fs' (s.pcb q) cur') {i f : ℕ}
    (hf : s.fd p i = some f) : fs'.globalFileTable f = s.fs.globalFileTable f := by
  have hother : ∀ fd g, Ramfs.fdFile (s.pcb q) fd = some g → f ≠ g := by
    rintro fd g hg rfl
    exact hne (hI.fds.inj q hq p hp _ _ f (Ramfs.fdFile_cases hg).2 hf).1
  rcases hs with (⟨htab, -⟩ | ⟨k, g, m, -, -, hfree, -, htab, -⟩ | ⟨g, hfree, htab, -⟩)
    | ⟨fd, g, hg, htab, -⟩ | ⟨fd, g, m, offset, hg, -, -, htab, -⟩
  · rw [htab]
  · rw [htab, Function.update_of_ne (hI.fds.ne_free hp hf hfree)]
  · rw [htab, Function.update_of_ne (hI.fds.ne_free hp hf hfree)]
  · rw [htab, Function.update_of_ne (hother fd g hg)]
  · rw [htab, Function.update_of_ne (hother fd g hg)]

theorem step_handles (hp : s.Runs p) (hne : e.1 ≠ p) (h : s.step e = some s') :
    s'.Runs p ∧ s'.pcb p = s.pcb p
      ∧ ∀ i f, s.fd p i = some f → s'.fs.globalFileTable f = s.fs.globalFileTable f := by
  obtain ⟨hr, ⟨fs', cur', hs, -, rfl⟩ | ⟨hfs, hc⟩ | ⟨code, -, rfl⟩ | ⟨q, -, hz, rfl⟩⟩ :=
    step_cases hI h
  · have hpcb : (s.called e.1 fs' cur').pcb p = s.pcb p := by rw [called_pcb, if_neg hne.symm]
    exact ⟨⟨hp.1, hpcb ▸ hp.2⟩, hpcb,
      fun i f hf => handles_kept hI hp.1 hr.1 hne hs.handles hf⟩
  · obtain ⟨fs, t⟩ := s'
    obtain rfl : fs = s.fs := hfs
    rcases hc with rfl | ⟨addr, child, hc⟩
    · exact ⟨hp, rfl, fun _ _ _ => rfl⟩
    · have hlist : (⟨s.fs, t⟩ : Sys).procList = addr :: s.procList := hc.list
      have hpcb : (⟨s.fs, t⟩ : Sys).pcb p = s.pcb p := creates_pcb hc hp.1
      exact ⟨⟨hlist ▸ List.mem_cons_of_mem addr hp.1, hpcb ▸ hp.2⟩, hpcb, fun _ _ _ => rfl⟩
  · have hpcb : (⟨s.fs, (s.switched e.1).withSched ((s.switched e.1).sched.exited code)⟩
        : Sys).pcb p = s.pcb p := by
      rw [exited_pcb, if_neg hne.symm]
    exact ⟨⟨hp.1, hpcb ▸ hp.2⟩, hpcb, fun _ _ _ => rfl⟩
  · have hpq : p ≠ q := by
      rintro rfl
      exact hp.2 hz
    exact ⟨⟨(List.mem_erase_of_ne hpq).mpr hp.1, hp.2⟩, rfl, fun _ _ _ => rfl⟩

omit hI in
theorem step_file (hu : s.fs.Used n) (hno : s.writes e ≠ some n) (h : s.step e = some s') :
    s'.fs.files n = s.fs.files n := by
  obtain ⟨q, op⟩ := e
  unfold step at h
  by_cases hr : s.Runs q
  swap
  · rw [if_neg hr] at h
    cases h
  rw [if_pos hr] at h
  dsimp only at h
  cases op with
  | call c =>
    obtain ⟨⟨fs', cur'⟩, hc, rfl⟩ := Option.map_eq_some_iff.mp h
    exact Ramfs.perform_file hu hno hc
  | getdents64 fd dirp count =>
    obtain ⟨⟨ret, buf, fs'⟩, hc, rfl⟩ := Option.map_eq_some_iff.mp h
    exact congrFun (Ramfs.ramfsGetdents64_files hc) n
  | kthreadCreate parent name a =>
    obtain ⟨t, -, rfl⟩ := Option.map_eq_some_iff.mp h
    rfl
  | createUserProcess name a =>
    obtain ⟨t, -, rfl⟩ := Option.map_eq_some_iff.mp h
    rfl
  | sysFork a =>
    obtain ⟨t, -, rfl⟩ := Option.map_eq_some_iff.mp h
    rfl
  | exit code =>
    dsimp only at h
    split_ifs at h
    rw [← Option.some.inj h]
  | freeProc p =>
    obtain ⟨t, -, rfl⟩ := Option.map_eq_some_iff.mp h
    rfl

/-- One step. -/
theorem step_undisturbed {s₀ : Sys} (hd : Undisturbed p n s₀ s) (he : Elsewhere p n s e)
    (h : s.step e = some s') : Undisturbed p n s₀ s' := by
  obtain ⟨hruns, hpcb, hhandles⟩ := step_handles hI hd.runs he.1 h
  have hfile := step_file hd.used he.2 h
  refine ⟨hruns, hpcb.trans hd.pcb, fun i f hf => ?_, ⟨hd.used.1, ?_⟩, hfile.trans hd.file⟩
  · have hf' : s.fd p i = some f := by
      rw [fd, hd.pcb]
      exact hf
    exact (hhandles i f hf').trans (hd.handles i f hf)
  · rw [hfile]
    exact hd.used.2

end Step

/-- In every run, whatever steps other processes take, a process that takes none keeps its PCB, the
scheduler's fields apart, and its open files, and its next read of a file that none of these steps
wrote returns what it would have returned before them. -/
theorem reads_undisturbed (s₀ : Sched) (idle : ℕ) (ops others : List (ℕ × SysOp))
    {s₁ : Sched} {s s' : Sys} (hinit : s₀.procInit idle = some s₁)
    (h : Run.run step (start s₁) ops = some s) {p : ℕ} (hp : s.Runs p) {fd : ℤ} {f n : ℕ}
    (hf : Ramfs.fdFile (s.pcb p) fd = some f) (hn : (s.fs.globalFileTable f).node = some n)
    (hothers : Run.Meets step (Elsewhere p n) s others) (h' : Run.run step s others = some s') :
    s'.Runs p ∧ s'.pcb p = s.pcb p
      ∧ (∀ i g, s.fd p i = some g → s'.fs.globalFileTable g = s.fs.globalFileTable g)
      ∧ ∀ count, (s'.fs.ramfsRead (s'.pcb p) fd count).map (fun r => (r.1, r.2.1))
        = (s.fs.ramfsRead (s.pcb p) fd count).map fun r => (r.1, r.2.1) := by
  have hI : SysInv s := Run.run_invariant step_inv (start_inv hinit) h
  have hu : s.fs.Used n := (hI.fsOk.handles f n hn).1
  have hstart : Undisturbed p n s s := ⟨hp, rfl, fun _ _ _ => rfl, hu, rfl⟩
  have hstep : ∀ t e t', SysInv t ∧ Undisturbed p n s t → Elsewhere p n t e →
      step t e = some t' → SysInv t' ∧ Undisturbed p n s t' :=
    fun t e t' ht he ht' => ⟨step_inv t e t' ht.1 ht', step_undisturbed ht.1 ht.2 he ht'⟩
  obtain ⟨-, hd⟩ := Run.run_invariant_of_meets hstep ⟨hI, hstart⟩ hothers h'
  refine ⟨hd.runs, hd.pcb, hd.handles, fun count => ?_⟩
  rw [hd.pcb]
  exact Ramfs.ramfsRead_congr hf hn (hd.handles _ f (Ramfs.fdFile_cases hf).2) hd.file count

/-- A process writes a file, opens it again and forks. -/
def writtenOps : List (ℕ × SysOp) :=
  [(1, .createUserProcess [] (ProcSys.attemptAt 2)),
    (2, .call (.open (some (ascii "a")) 64#32 true)),
    (2, .call (.write 3 (fun i => UInt8.ofNat (65 + i)) 3#32)),
    (2, .call (.open (some (ascii "a")) 0#32 true)), (2, .sysFork (ProcSys.attemptAt 3))]

/-- The child writes a file of its own, reads the other and exits. -/
def childOps : List (ℕ × SysOp) :=
  [(3, .call (.open (some (ascii "b")) 64#32 true)),
    (3, .call (.write 3 (fun i => UInt8.ofNat (97 + i)) 2#32)),
    (3, .call (.open (some (ascii "a")) 0#32 true)), (3, .call (.read 4 2#32)), (3, .exit 0)]

theorem reads_undisturbed_writtenOps :
    ∃ s₁ s s', Sched.boot.procInit 1 = some s₁ ∧ Run.run step (start s₁) writtenOps = some s
      ∧ Run.run step s childOps = some s'
      ∧ (s'.fs.ramfsRead (s'.pcb 2) 4 8#32).map (fun r => (r.1, r.2.1))
        = some (3, ascii "ABC") := by
  have h : ((Sched.boot.procInit 1).bind fun s => Run.run step (start s) writtenOps).map
      (fun s => decide (s.Runs 2 ∧ Ramfs.fdFile (s.pcb 2) 4 = some 1
        ∧ (s.fs.globalFileTable 1).node = some 7 ∧ Run.Meets step (Elsewhere 2 7) s childOps
        ∧ (Run.run step s childOps).isSome
        ∧ (s.fs.ramfsRead (s.pcb 2) 4 8#32).map (fun r => (r.1, r.2.1)) = some (3, ascii "ABC")))
        = some true := by
    decide +kernel
  obtain ⟨s₁, s, h₁, hr, he⟩ := Run.exists_of_eval h
  obtain ⟨hruns, hf, hn, hothers, hsome, hread⟩ := of_decide_eq_true he
  obtain ⟨s', hr'⟩ := Option.isSome_iff_exists.mp hsome
  obtain ⟨-, -, -, hsame⟩ := reads_undisturbed Sched.boot 1 writtenOps childOps h₁ hr hruns hf
    hn hothers hr'
  exact ⟨s₁, s, s', h₁, hr, hr', (hsame 8#32).trans hread⟩

end Sys

end SudoOS
