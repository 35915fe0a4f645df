import SudoOS.Sys
import SudoOS.Proofs.Calls
import SudoOS.Proofs.Lifecycle

/-!
# Open files

An open file has one descriptor: `alloc_file_handle` takes an entry no descriptor names, a new PCB
has no descriptors, and a closed one gives its entry back (`open_files_injective`). Only
`ramfs_close` gives an entry back, so entries are lost in exactly the runs in which a process exits
with an open descriptor (`no_handle_leak`).
-/

namespace SudoOS

namespace Sys

/-! ## Steps of the system -/

/-- The open file of descriptor `i` of process `p`. -/
def fd (s : Sys) (p i : ℕ) : Option ℕ := (s.pcb p).fdTable.getD i none

/-- The descriptors of the processes in `live`: each has an open file of its own. -/
structure FdsOk (table : ℕ → File) (fd : ℕ → ℕ → Option ℕ) (live : List ℕ) : Prop where
  opens : ∀ p ∈ live, ∀ i f, fd p i = some f → 3 ≤ i ∧ f < maxSystemOpenFiles
    ∧ (table f).refCount = 1 ∧ (table f).node ≠ none
  inj : ∀ p ∈ live, ∀ q ∈ live, ∀ i j f, fd p i = some f → fd q j = some f → p = q ∧ i = j

/-- The directories, processes and descriptors of every reachable state. -/
structure SysInv (s : Sys) : Prop where
  fsOk : Ramfs.FsOk s.fs
  nodup : s.procList.Nodup
  cwds : ∀ p ∈ s.procList, s.fs.DirIdx (s.pcb p).cwdInode
  fdLen : ∀ p ∈ s.procList, (s.pcb p).fdTable.length = maxFd
  fds : FdsOk s.fs.globalFileTable s.fd s.procList

section Fds

variable {table : ℕ → File} {fd : ℕ → ℕ → Option ℕ} {live : List ℕ} (h : FdsOk table fd live)

include h

theorem FdsOk.ne_free {p i f g : ℕ} (hp : p ∈ live) (hf : fd p i = some f)
    (hg : (table g).refCount = 0) : f ≠ g := by
  intro he
  have := (h.opens p hp i f hf).2.2.1
  rw [he, hg] at this
  cases this

theorem FdsOk.update_free {f : ℕ} {x : File} (hf : (table f).refCount = 0) :
    FdsOk (Function.update table f x) fd live := by
  refine ⟨fun p hp i g hg => ?_, h.inj⟩
  rw [Function.update_of_ne (h.ne_free hp hg hf)]
  exact h.opens p hp i g hg

theorem FdsOk.add {p k f : ℕ} {x : File} (hf : (table f).refCount = 0)
    (hlt : f < maxSystemOpenFiles) (hk : 3 ≤ k) (hx : x.refCount = 1) (hn : x.node ≠ none) :
    FdsOk (Function.update table f x) (fun q i => if q = p ∧ i = k then some f else fd q i)
      live := by
  refine ⟨fun q hq i g hg => ?_, fun q hq q' hq' i j g hg hg' => ?_⟩
  · split_ifs at hg with hc
    · obtain rfl := Option.some.inj hg
      rw [Function.update_self, hc.2]
      exact ⟨hk, hlt, hx, hn⟩
    · rw [Function.update_of_ne (h.ne_free hq hg hf)]
      exact h.opens q hq i g hg
  · split_ifs at hg hg' with hc hc' hc'
    · exact ⟨hc.1.trans hc'.1.symm, hc.2.trans hc'.2.symm⟩
    · exact absurd (Option.some.inj hg).symm (h.ne_free hq' hg' hf)
    · exact absurd (Option.some.inj hg').symm (h.ne_free hq hg hf)
    · exact h.inj q hq q' hq' i j g hg hg'

theorem FdsOk.remove {p k f : ℕ} (hp : p ∈ live) (hf : fd p k = some f) (x : File) :
    FdsOk (Function.update table f x) (fun q i => if q = p ∧ i = k then none else fd q i) live := by
  refine ⟨fun q hq i g hg => ?_, fun q hq q' hq' i j g hg hg' => ?_⟩
  · split_ifs at hg with hc
    have hne : g ≠ f := by
      intro he
      exact hc (h.inj q hq p hp i k f (he ▸ hg) hf)
    rw [Function.update_of_ne hne]
    exact h.opens q hq i g hg
  · split_ifs at hg hg'
    exact h.inj q hq q' hq' i j g hg hg'

theorem FdsOk.move (f offset : ℕ) :
    FdsOk (Function.update table f { table f with offset := offset }) fd live := by
  refine ⟨fun p hp i g hg => ?_, h.inj⟩
  by_cases hgf : g = f
  · subst hgf
    rw [Function.update_self]
    exact h.opens p hp i g hg
  · rw [Function.update_of_ne hgf]
    exact h.opens p hp i g hg

theorem FdsOk.mono {live' : List ℕ} (hl : ∀ p ∈ live', p ∈ live) : FdsOk table fd live' :=
  ⟨fun p hp => h.opens p (hl p hp), fun p hp q hq => h.inj p (hl p hp) q (hl q hq)⟩

/-- A process without descriptors joins. -/
theorem FdsOk.join {addr : ℕ} {fd' : ℕ → ℕ → Option ℕ} (ha : ∀ i, fd' addr i = none)
    (hold : ∀ p ∈ live, fd' p = fd p) : FdsOk table fd' (addr :: live) := by
  have hin : ∀ p ∈ addr :: live, ∀ i f, fd' p i = some f → p ∈ live ∧ fd p i = some f := by
    intro p hp i f hf
    rcases List.mem_cons.mp hp with rfl | hp
    · rw [ha] at hf
      cases hf
    · exact ⟨hp, hold p hp ▸ hf⟩
  refine ⟨fun p hp i f hf => ?_, fun p hp q hq i j f hf hf' => ?_⟩
  · obtain ⟨hp, hf⟩ := hin p hp i f hf
    exact h.opens p hp i f hf
  · obtain ⟨hp, hf⟩ := hin p hp i f hf
    obtain ⟨hq, hf'⟩ := hin q hq j f hf'
    exact h.inj p hp q hq i j f hf hf'

end Fds

/-- A step is a call, the creation of a process or its failure, an exit, or a release. -/
theorem step_cases {s s' : Sys} {e : ℕ × SysOp} (hI : SysInv s) (h : s.step e = some s') :
    s.Runs e.1
      ∧ ((∃ fs' cur', Ramfs.CallStep s.fs fs' (s.pcb e.1) cur' ∧ Ramfs.CallOk s.fs fs' cur'
          ∧ s' = s.called e.1 fs' cur')
        ∨ (s'.fs = s.fs ∧ (s'.procs = (s.switched e.1).fails
          ∨ ∃ addr child, ProcSys.Creates (s.switched e.1) s'.procs addr child))
        ∨ (∃ code, e.2 = .exit code
          ∧ s' = ⟨s.fs, (s.switched e.1).withSched ((s.switched e.1).sched.exited code)⟩)
        ∨ ∃ q ∈ s.procList, (s.pcb q).procState = .zombie
          ∧ s' = ⟨s.fs, (s.switched e.1).freeProc q⟩) := by
  obtain ⟨p, op⟩ := e
  unfold step at h
  by_cases hr : s.Runs p
  · rw [if_pos hr] at h
    refine ⟨hr, ?_⟩
    dsimp only at h ⊢
    have hcwd := hI.cwds p hr.1
    have hmade : ∀ op : ProcSys.Op, op.Creating →
        ((s.switched p).step op).map (fun t => (⟨s.fs, t⟩ : Sys)) = some s' →
        s'.fs = s.fs ∧ (s'.procs = (s.switched p).fails
          ∨ ∃ addr child, ProcSys.Creates (s.switched p) s'.procs addr child) := by
      intro op hop hmap
      obtain ⟨t, ht, rfl⟩ := Option.map_eq_some_iff.mp hmap
      exact ⟨rfl, ProcSys.creating_cases ht hop⟩
    cases op with
    | call c =>
      obtain ⟨⟨fs', cur'⟩, hc, rfl⟩ := Option.map_eq_some_iff.mp h
      exact .inl ⟨fs', cur', Ramfs.perform_step hI.fsOk hcwd hc,
        Ramfs.perform_ok hI.fsOk.toTreeInv hcwd hc, rfl⟩
    | getdents64 fd dirp count =>
      obtain ⟨⟨ret, buf, fs'⟩, hc, rfl⟩ := Option.map_eq_some_iff.mp h
      have hs := Ramfs.ramfsGetdents64_step hI.fsOk hc
      have hsame := Ramfs.SameTree.rfl_of_files (Ramfs.ramfsGetdents64_files hc)
      exact .inl ⟨fs', _, hs, hsame.callOk hI.fsOk.toTreeInv hcwd, rfl⟩
    | kthreadCreate parent name a =>
      exact .inr (.inl (hmade (.kthreadCreate parent name a) trivial h))
    | createUserProcess name a => exact .inr (.inl (hmade (.createUserProcess name a) trivial h))
    | sysFork a => exact .inr (.inl (hmade (.sysFork a) trivial h))
    | exit code =>
      dsimp only at h
      split_ifs at h
      exact .inr (.inr (.inl ⟨code, rfl, (Option.some.inj h).symm⟩))
    | freeProc q =>
      obtain ⟨t, ht, rfl⟩ := Option.map_eq_some_iff.mp h
      unfold ProcSys.lifeStep at ht
      dsimp only at ht
      split_ifs at ht with hq
      exact .inr (.inr (.inr ⟨q, hq.1, hq.2, by rw [← Option.some.inj ht]⟩))
  · rw [if_neg hr] at h
    cases h

theorem getD_set {l : List (Option ℕ)} {k : ℕ} (hk : k < l.length) (x : Option ℕ) (i : ℕ) :
    (l.set k x).getD i none = if i = k then x else l.getD i none := by
  rw [List.getD_eq_getElem?_getD, List.getD_eq_getElem?_getD, List.getElem?_set]
  split_ifs with h1 h2 h2
  · simp
  · exact absurd h1.symm h2
  · exact absurd h2.symm h1
  · rfl

theorem called_pcb (s : Sys) (p : ℕ) (fs' : Ramfs) (cur' : Pcb) (q : ℕ) :
    (s.called p fs' cur').pcb q = if q = p then cur' else s.pcb q := by
  by_cases hq : q = p
  · simp [called, pcb, Sched.modify, switched, ProcSys.withSched, hq]
  · simp [called, pcb, Sched.modify, switched, ProcSys.withSched, hq]

theorem called_pcb_self (s : Sys) (p : ℕ) (fs' : Ramfs) (q : ℕ) :
    (s.called p fs' (s.pcb p)).pcb q = s.pcb q := by
  rw [called_pcb]
  split_ifs with hq
  · rw [hq]
  · rfl

theorem called_fd {s : Sys} {p : ℕ} (fs' : Ramfs) {cur' : Pcb} {k : ℕ} {x : Option ℕ}
    (hk : k < (s.pcb p).fdTable.length) (h : cur'.fdTable = (s.pcb p).fdTable.set k x) :
    (s.called p fs' cur').fd = fun q i => if q = p ∧ i = k then x else s.fd q i := by
  funext q i
  unfold fd
  rw [called_pcb]
  by_cases hq : q = p
  · rw [if_pos hq, h, getD_set hk]
    simp [hq]
  · simp [hq]

theorem called_fd_same {s : Sys} {p : ℕ} {fs' : Ramfs} {cur' : Pcb}
    (h : cur'.fdTable = (s.pcb p).fdTable) : (s.called p fs' cur').fd = s.fd := by
  funext q i
  unfold fd
  rw [called_pcb]
  by_cases hq : q = p
  · rw [if_pos hq, h, hq]
  · rw [if_neg hq]

theorem called_inv {s : Sys} (hI : SysInv s) {p : ℕ} (hp : p ∈ s.procList) {fs' : Ramfs}
    {cur' : Pcb} (hs : Ramfs.CallStep s.fs fs' (s.pcb p) cur') (hok : Ramfs.CallOk s.fs fs' cur') :
    SysInv (s.called p fs' cur') := by
  have hlen := hI.fdLen p hp
  have hlen' : cur'.fdTable.length = maxFd := by
    rcases hs.handles with (⟨-, h⟩ | ⟨k, f, n, -, -, -, -, -, h⟩ | ⟨f, -, -, h⟩) | ⟨fd, f, -, -, h⟩
      | ⟨fd, f, n, offset, -, -, -, -, h⟩ <;> rw [h] <;> simpa using hlen
  refine ⟨hs.fsOk hI.fsOk hok.tree, hI.nodup, fun q hq => ?_, fun q hq => ?_, ?_⟩
  · rw [called_pcb]
    split_ifs
    · exact hok.cwd
    · exact hok.dirs.dirIdx (hI.cwds q hq)
  · rw [called_pcb]
    split_ifs
    · exact hlen'
    · exact hI.fdLen q hq
  · change FdsOk fs'.globalFileTable (s.called p fs' cur').fd s.procList
    rcases hs.handles with
      (⟨htab, h⟩ | ⟨k, f, n, hfd, hlt, hfree, -, htab, h⟩ | ⟨f, hfree, htab, h⟩)
      | ⟨fd, f, hf, htab, h⟩ | ⟨fd, f, n, offset, -, -, -, htab, h⟩
    · rw [htab, called_fd_same h]
      exact hI.fds
    · obtain ⟨hk, hk', -⟩ := Ramfs.freeFd_cases hfd
      rw [htab, called_fd fs' (by omega) h]
      exact hI.fds.add hfree hlt hk rfl (by simp)
    · rw [htab, called_fd_same h]
      exact hI.fds.update_free hfree
    · obtain ⟨hk, hf⟩ := Ramfs.fdFile_cases hf
      rw [htab, called_fd fs' (by omega) h]
      exact hI.fds.remove hp hf _
    · rw [htab, called_fd_same h]
      exact hI.fds.move f offset

theorem getD_replicate_none (n i : ℕ) :
    (List.replicate n (none : Option ℕ)).getD i none = none := by
  simp [List.getD_eq_getElem?_getD]

theorem creates_pcb {s : Sys} {p : ℕ} {t : ProcSys} {addr : ℕ} {child : Pcb}
    (h : ProcSys.Creates (s.switched p) t addr child) {q : ℕ} (hq : q ∈ s.procList) :
    (⟨s.fs, t⟩ : Sys).pcb q = s.pcb q := by
  have hne : q ≠ addr := fun he => h.fresh.2 (he ▸ hq)
  simp [pcb, h.pcbs, Function.update_of_ne hne, switched, ProcSys.withSched]

theorem creates_inv {s : Sys} (hI : SysInv s) {p : ℕ} (hp : p ∈ s.procList) {t : ProcSys}
    {addr : ℕ} {child : Pcb} (h : ProcSys.Creates (s.switched p) t addr child) :
    SysInv ⟨s.fs, t⟩ := by
  have hlist : (⟨s.fs, t⟩ : Sys).procList = addr :: s.procList := h.list
  have hself : (⟨s.fs, t⟩ : Sys).pcb addr = child := by simp [pcb, h.pcbs]
  have hpcb : ∀ q ∈ s.procList, (⟨s.fs, t⟩ : Sys).pcb q = s.pcb q := fun q hq => creates_pcb h hq
  refine ⟨hI.fsOk, ?_, fun q hq => ?_, fun q hq => ?_, ?_⟩
  · rw [hlist]
    exact List.nodup_cons.mpr ⟨h.fresh.2, hI.nodup⟩
  · rw [hlist] at hq
    rcases List.mem_cons.mp hq with rfl | hq
    · rw [hself]
      rcases h.cwd with h0 | hc
      · exact ⟨0, h0, hI.fsOk.root.1⟩
      · rw [hc]
        exact hI.cwds p hp
    · rw [hpcb q hq]
      exact hI.cwds q hq
  · rw [hlist] at hq
    rcases List.mem_cons.mp hq with rfl | hq
    · rw [hself, h.fds, List.length_replicate]
    · rw [hpcb q hq]
      exact hI.fdLen q hq
  · rw [hlist]
    refine hI.fds.join (fun i => ?_) fun q hq => ?_
    · unfold fd
      rw [hself, h.fds, getD_replicate_none]
    · funext i
      unfold fd
      rw [hpcb q hq]

theorem exited_pcb (s : Sys) (p : ℕ) (code : ℤ) (q : ℕ) :
    (⟨s.fs, (s.switched p).withSched ((s.switched p).sched.exited code)⟩ : Sys).pcb q
      = if q = p then { s.pcb p with procState := .zombie, exitCode := code } else s.pcb q := by
  by_cases hq : q = p
  · simp [pcb, Sched.exited, Sched.modify, switched, ProcSys.withSched, hq]
  · simp [pcb, Sched.exited, Sched.modify, switched, ProcSys.withSched, hq]

theorem step_inv (s : Sys) (e : ℕ × SysOp) (s' : Sys) (hI : SysInv s) (h : s.step e = some s') :
    SysInv s' := by
  obtain ⟨hr, ⟨fs', cur', hs, hok, rfl⟩ | ⟨hfs, hc⟩ | ⟨code, -, rfl⟩ | ⟨q, hq, -, rfl⟩⟩ :=
    step_cases hI h
  · exact called_inv hI hr.1 hs hok
  · obtain ⟨fs, t⟩ := s'
    obtain rfl : fs = s.fs := hfs
    rcases hc with rfl | ⟨addr, child, hc⟩
    · exact ⟨hI.fsOk, hI.nodup, hI.cwds, hI.fdLen, hI.fds⟩
    · exact creates_inv hI hr.1 hc
  · have hfd : (⟨s.fs, (s.switched e.1).withSched ((s.switched e.1).sched.exited code)⟩ : Sys).fd
        = s.fd := by
      funext q i
      unfold fd
      rw [exited_pcb]
      split_ifs with hq
      · rw [hq]
      · rfl
    refine ⟨hI.fsOk, hI.nodup, fun q hq => ?_, fun q hq => ?_, ?_⟩
    · rw [exited_pcb]
      split_ifs
      · exact hI.cwds e.1 hr.1
      · exact hI.cwds q hq
    · rw [exited_pcb]
      split_ifs
      · exact hI.fdLen e.1 hr.1
      · exact hI.fdLen q hq
    · rw [hfd]
      exact hI.fds
  · have hsub : ∀ p ∈ s.procList.erase q, p ∈ s.procList := fun p => List.mem_of_mem_erase
    exact ⟨hI.fsOk, hI.nodup.erase q, fun p hp => hI.cwds p (hsub p hp),
      fun p hp => hI.fdLen p (hsub p hp), hI.fds.mono hsub⟩

theorem start_inv {s₀ s₁ : Sched} {idle : ℕ} (h : s₀.procInit idle = some s₁) :
    SysInv (start s₁) := by
  have hpcb : (s₁.pcbs idle).cwdInode = 0 ∧ (s₁.pcbs idle).fdTable = List.replicate maxFd none := by
    unfold Sched.procInit at h
    split_ifs at h
    rw [← Option.some.inj h]
    simp [Sched.newPcb, Pcb.setProcName, Sched.allocNewPcb]
  have hlist : (start s₁).procList = [idle] := (Sched.procInit_queueInv h).2.1
  have hfd : ∀ i, (start s₁).fd idle i = none := by
    intro i
    unfold fd pcb start
    rw [hpcb.2, getD_replicate_none]
  refine ⟨Ramfs.ramfsInit_fsOk, ?_, fun p hp => ?_, fun p hp => ?_, ?_⟩
  · simp [hlist]
  · rw [hlist, List.mem_singleton] at hp
    exact hp ▸ ⟨0, hpcb.1, (Ramfs.ramfsInit_treeInv none 0).root.1⟩
  · rw [hlist, List.mem_singleton] at hp
    exact hp ▸ hpcb.2 ▸ List.length_replicate
  · rw [hlist]
    have hnone : FdsOk (start s₁).fs.globalFileTable (start s₁).fd [] :=
      ⟨fun p hp => absurd hp List.not_mem_nil, fun p hp => absurd hp List.not_mem_nil⟩
    exact hnone.join hfd fun p hp => absurd hp List.not_mem_nil

/-- In every reachable state a descriptor is not below 3, its open file is in use once and refers to
a used inode, and no other descriptor of any process has the same open file. -/
theorem open_files_injective (s₀ : Sched) (idle : ℕ) (ops : List (ℕ × SysOp))
    {s₁ : Sched} {s : Sys} (hinit : s₀.procInit idle = some s₁)
    (h : Run.run step (start s₁) ops = some s) :
    (∀ p ∈ s.procList, ∀ i f, s.fd p i = some f → 3 ≤ i ∧ f < maxSystemOpenFiles
        ∧ (s.fs.globalFileTable f).refCount = 1
        ∧ ∃ n, (s.fs.globalFileTable f).node = some n ∧ s.fs.Used n)
      ∧ ∀ p ∈ s.procList, ∀ q ∈ s.procList, ∀ i j f, s.fd p i = some f → s.fd q j = some f →
        p = q ∧ i = j := by
  have hI : SysInv s := Run.run_invariant step_inv (start_inv hinit) h
  refine ⟨fun p hp i f hf => ?_, hI.fds.inj⟩
  obtain ⟨h3, hlt, href, hnode⟩ := hI.fds.opens p hp i f hf
  obtain ⟨n, hn⟩ := Option.ne_none_iff_exists'.mp hnode
  exact ⟨h3, hlt, href, n, hn, (hI.fsOk.handles f n hn).1⟩

/-- Two processes with open files, one of them closed and its entry taken again. -/
def shareOps : List (ℕ × SysOp) :=
  [(1, .createUserProcess [] (ProcSys.attemptAt 2)),
    (2, .call (.open (some (ascii "a")) 64#32 true)), (2, .sysFork (ProcSys.attemptAt 3)),
    (3, .call (.open (some (ascii "/usr")) 0#32 true)), (2, .call (.close 3)),
    (3, .call (.open (some (ascii "a")) 0#32 true)), (2, .exit 0)]

theorem open_files_injective_shareOps :
    ∃ s₁ s, Sched.boot.procInit 1 = some s₁ ∧ Run.run step (start s₁) shareOps = some s
      ∧ s.fd 3 4 = some 0 ∧ (s.fs.globalFileTable 0).refCount = 1 := by
  have h : ((Sched.boot.procInit 1).bind fun s => Run.run step (start s) shareOps).map
      (fun s => (s.procList, s.fd 3 4)) = some ([3, 2, 1], some 0) := by
    decide +kernel
  obtain ⟨s₁, s, h₁, hr, he⟩ := Run.exists_of_eval h
  simp only [Prod.mk.injEq] at he
  obtain ⟨hl, hf⟩ := he
  have hopen := (open_files_injective Sched.boot 1 shareOps h₁ hr).1 3 (by simp [hl]) 4 0 hf
  exact ⟨s₁, s, h₁, hr, hf, hopen.2.2.1⟩

/-! ## Leaks -/

/-- Every entry in use belongs to a descriptor of a process that has not exited. -/
def NoLeak (s : Sys) : Prop :=
  ∀ f < maxSystemOpenFiles, (s.fs.globalFileTable f).refCount ≠ 0 →
    ∃ p i, s.Runs p ∧ s.fd p i = some f

/-- The open descriptors of the processes that have not exited. -/
def descriptors (s : Sys) : List (ℕ × ℕ) :=
  (s.procList.filter fun p => s.Runs p).flatMap fun p =>
    ((List.range maxFd).filter fun i => (s.fd p i).isSome).map fun i => (p, i)

/-- A process exits with its descriptors closed. -/
def ExitOk (s : Sys) (e : ℕ × SysOp) : Prop :=
  match e.2 with
  | .exit _ => ∀ i < maxFd, s.fd e.1 i = none
  | _ => True

instance (s : Sys) : (e : ℕ × SysOp) → Decidable (ExitOk s e)
  | (_, .exit _) => inferInstanceAs (Decidable (∀ i < maxFd, _))
  | (_, .call _) | (_, .getdents64 ..) | (_, .kthreadCreate ..) | (_, .createUserProcess ..)
  | (_, .sysFork _) | (_, .freeProc _) => isTrue trivial

theorem SysInv.fd_lt {s : Sys} (hI : SysInv s) {p : ℕ} (hp : p ∈ s.procList) {i f : ℕ}
    (h : s.fd p i = some f) : i < maxFd := by
  by_contra hge
  unfold fd at h
  rw [List.getD_eq_default _ _ (by rw [hI.fdLen p hp]; omega)] at h
  cases h

/-- While fewer descriptors are open than there are entries, there is a free one. -/
theorem NoLeak.allocFileHandle {s : Sys} (hI : SysInv s) (h : NoLeak s)
    (hlt : s.descriptors.length < maxSystemOpenFiles) : (s.fs.allocFileHandle).isSome := by
  unfold Ramfs.allocFileHandle
  rw [Option.isSome_map, List.find?_isSome]
  by_contra hall
  push Not at hall
  have hsub : List.range maxSystemOpenFiles ⊆ s.descriptors.map fun d => (s.fd d.1 d.2).getD 0 := by
    intro f hf
    have href : (s.fs.globalFileTable f).refCount ≠ 0 := by simpa using hall f hf
    obtain ⟨p, i, hr, hfd⟩ := h f (List.mem_range.mp hf) href
    refine List.mem_map.mpr ⟨(p, i), ?_, by simp [hfd]⟩
    simp only [descriptors, List.mem_flatMap, List.mem_filter, decide_eq_true_eq, List.mem_map,
      List.mem_range]
    exact ⟨p, ⟨hr.1, hr⟩, i, ⟨hI.fd_lt hr.1 hfd, by simp [hfd]⟩, rfl⟩
  have hcard := List.nodup_range.length_le_of_subset hsub
  simp only [List.length_range, List.length_map] at hcard
  omega

/-- What the leak property promises of a state. -/
def HandlesKept (s : Sys) : Prop :=
  NoLeak s ∧ (s.descriptors.length < maxSystemOpenFiles → s.fs.allocFileHandle.isSome)

theorem called_runs {s : Sys} {p : ℕ} {fs' : Ramfs} {cur' : Pcb}
    (hs : Ramfs.CallStep s.fs fs' (s.pcb p) cur') {q : ℕ} (hq : s.Runs q) :
    (s.called p fs' cur').Runs q := by
  refine ⟨hq.1, ?_⟩
  rw [called_pcb]
  split_ifs with he
  · rw [hs.caller]
    exact he ▸ hq.2
  · exact hq.2

theorem called_noLeak {s : Sys} (hI : SysInv s) (hl : NoLeak s) {p : ℕ} (hp : s.Runs p)
    {fs' : Ramfs} {cur' : Pcb} (hs : Ramfs.CallStep s.fs fs' (s.pcb p) cur') :
    NoLeak (s.called p fs' cur') := by
  have hlen := hI.fdLen p hp.1
  intro g hg href
  change (fs'.globalFileTable g).refCount ≠ 0 at href
  rcases hs.handles with (⟨htab, h⟩ | ⟨k, f, n, hfd, hlt, hfree, -, htab, h⟩ | ⟨f, hfree, htab, h⟩)
    | ⟨fd, f, hf, htab, h⟩ | ⟨fd, f, n, offset, -, -, -, htab, h⟩
  · rw [htab] at href
    obtain ⟨q, i, hq, hqi⟩ := hl g hg href
    exact ⟨q, i, called_runs hs hq, called_fd_same h ▸ hqi⟩
  · obtain ⟨-, hk, hnone⟩ := Ramfs.freeFd_cases hfd
    have hfds := called_fd fs' (by omega) h
    by_cases hgf : g = f
    · exact ⟨p, k, called_runs hs hp, by simp [hfds, hgf]⟩
    · rw [htab, Function.update_of_ne hgf] at href
      obtain ⟨q, i, hq, hqi⟩ := hl g hg href
      refine ⟨q, i, called_runs hs hq, ?_⟩
      have hne : ¬ (q = p ∧ i = k) := by
        rintro ⟨rfl, rfl⟩
        exact absurd (hqi.symm.trans hnone) (by simp)
      simp [hfds, hne, hqi]
  · have hgf : g ≠ f := by
      rintro rfl
      simp [htab] at href
    rw [htab, Function.update_of_ne hgf] at href
    obtain ⟨q, i, hq, hqi⟩ := hl g hg href
    exact ⟨q, i, called_runs hs hq, called_fd_same h ▸ hqi⟩
  · obtain ⟨hk, hf⟩ := Ramfs.fdFile_cases hf
    have hfds := called_fd fs' (by omega) h
    have hgf : g ≠ f := by
      rintro rfl
      simp [htab] at href
    rw [htab, Function.update_of_ne hgf] at href
    obtain ⟨q, i, hq, hqi⟩ := hl g hg href
    refine ⟨q, i, called_runs hs hq, ?_⟩
    have hne : ¬ (q = p ∧ i = fd.toNat) := by
      rintro ⟨rfl, rfl⟩
      exact hgf (Option.some.inj (hqi.symm.trans hf))
    simp [hfds, hne, hqi]
  · have href' : (s.fs.globalFileTable g).refCount ≠ 0 := by
      by_cases hgf : g = f
      · simpa [htab, hgf] using href
      · simpa [htab, Function.update_of_ne hgf] using href
    obtain ⟨q, i, hq, hqi⟩ := hl g hg href'
    exact ⟨q, i, called_runs hs hq, called_fd_same h ▸ hqi⟩

theorem step_noLeak (s : Sys) (e : ℕ × SysOp) (s' : Sys) (hI : SysInv s ∧ NoLeak s)
    (hok : ExitOk s e) (h : s.step e = some s') : SysInv s' ∧ NoLeak s' := by
  obtain ⟨hI, hl⟩ := hI
  refine ⟨step_inv s e s' hI h, ?_⟩
  obtain ⟨hr, ⟨fs', cur', hs, -, rfl⟩ | ⟨hfs, hc⟩ | ⟨code, hop, rfl⟩ | ⟨q, hq, hz, rfl⟩⟩ :=
    step_cases hI h
  · exact called_noLeak hI hl hr hs
  · obtain ⟨fs, t⟩ := s'
    obtain rfl : fs = s.fs := hfs
    rcases hc with rfl | ⟨addr, child, hc⟩
    · exact hl
    · intro f hf href
      obtain ⟨q, i, hq, hqi⟩ := hl f hf href
      have hpcb : (⟨s.fs, t⟩ : Sys).pcb q = s.pcb q := creates_pcb hc hq.1
      have hlist : (⟨s.fs, t⟩ : Sys).procList = addr :: s.procList := hc.list
      refine ⟨q, i, ⟨?_, hpcb ▸ hq.2⟩, ?_⟩
      · rw [hlist]
        exact List.mem_cons_of_mem _ hq.1
      · unfold fd
        rw [hpcb]
        exact hqi
  · unfold ExitOk at hok
    rw [hop] at hok
    intro f hf href
    obtain ⟨q, i, hq, hqi⟩ := hl f hf href
    have hne : q ≠ e.1 := by
      intro he
      have := hok i (hI.fd_lt hq.1 hqi)
      rw [← he, hqi] at this
      cases this
    refine ⟨q, i, ⟨hq.1, ?_⟩, ?_⟩
    · rw [exited_pcb, if_neg hne]
      exact hq.2
    · unfold fd
      rw [exited_pcb, if_neg hne]
      exact hqi
  · intro f hf href
    obtain ⟨p, i, hp, hpi⟩ := hl f hf href
    have hne : p ≠ q := by
      intro he
      exact hp.2 (he ▸ hz)
    exact ⟨p, i, ⟨(List.mem_erase_of_ne hne).mpr hp.1, hp.2⟩, hpi⟩

/-- The file of a descriptor left open at exit is referenced by nobody. -/
theorem exit_leaks {s s' : Sys} {e : ℕ × SysOp} (hI : SysInv s) (hno : ¬ ExitOk s e)
    (h : s.step e = some s') : ¬ NoLeak s' := by
  obtain ⟨p, op⟩ := e
  cases op with
  | exit code =>
    simp only [ExitOk, not_forall] at hno
    obtain ⟨i, -, hi⟩ := hno
    obtain ⟨f, hf⟩ := Option.ne_none_iff_exists'.mp hi
    unfold step at h
    split_ifs at h with hr
    rw [← Option.some.inj h]
    intro hl
    obtain ⟨-, hlt, href, -⟩ := hI.fds.opens p hr.1 i f hf
    obtain ⟨q, j, hq, hqj⟩ := hl f hlt (by rw [href]; simp)
    have hrun := hq.2
    unfold fd at hqj
    rw [exited_pcb] at hqj hrun
    split_ifs at hqj hrun with hqp
    · exact hrun rfl
    · exact hqp (hI.fds.inj q hq.1 p hr.1 j i f hqj hf).1
  | call c => exact absurd trivial hno
  | getdents64 fd dirp count => exact absurd trivial hno
  | kthreadCreate parent name a => exact absurd trivial hno
  | createUserProcess name a => exact absurd trivial hno
  | sysFork a => exact absurd trivial hno
  | freeProc q => exact absurd trivial hno

/-- No open file leaks, in every state of a run, if and only if every process exits with its
descriptors closed. -/
theorem no_handle_leak (s₀ : Sched) (idle : ℕ) (ops : List (ℕ × SysOp))
    {s₁ : Sched} {s : Sys} (hinit : s₀.procInit idle = some s₁)
    (h : Run.run step (start s₁) ops = some s) :
    (∀ pre t, pre <+: ops → Run.run step (start s₁) pre = some t → HandlesKept t)
      ↔ Run.Meets step ExitOk (start s₁) ops := by
  have hstart : NoLeak (start s₁) := fun f _ href => absurd rfl href
  refine (Run.meets_iff_forall_run step_noLeak (fun s hs => ⟨hs.2, hs.2.allocFileHandle hs.1⟩) ?_
    ⟨start_inv hinit, hstart⟩ h).symm
  exact fun s e s' hI hno hstep hk => exit_leaks hI.1 hno hstep hk.1

/-- A process closes what it opened and exits. -/
def closeOps : List (ℕ × SysOp) :=
  [(1, .createUserProcess [] (ProcSys.attemptAt 2)),
    (2, .call (.open (some (ascii "a")) 64#32 true)), (2, .call (.close 3)), (2, .exit 0),
    (1, .freeProc 2)]

theorem no_handle_leak_closeOps :
    ∃ s₁ s, Sched.boot.procInit 1 = some s₁ ∧ Run.run step (start s₁) closeOps = some s
      ∧ HandlesKept s := by
  have h : ((Sched.boot.procInit 1).bind fun s =>
      (Run.run step (start s) closeOps).map fun t =>
        (t.procList, decide (Run.Meets step ExitOk (start s) closeOps)))
          = some ([1], true) := by
    decide +kernel
  obtain ⟨s₁, h₁, hr⟩ := Option.bind_eq_some_iff.mp h
  obtain ⟨s, hs, he⟩ := Option.map_eq_some_iff.mp hr
  simp only [Prod.mk.injEq, decide_eq_true_eq] at he
  exact ⟨s₁, s, h₁, hs, (no_handle_leak Sched.boot 1 closeOps h₁ hs).mpr he.2 closeOps s
    List.prefix_rfl hs⟩

/-- A process exits with a file open and is released; the entry stays taken. -/
theorem open_file_leaked :
    ∃ s₁ s, Sched.boot.procInit 1 = some s₁
      ∧ Run.run step (start s₁)
        [(1, .createUserProcess [] (ProcSys.attemptAt 2)),
          (2, .call (.open (some (ascii "a")) 64#32 true)), (2, .exit 0), (1, .freeProc 2)] = some s
      ∧ ¬ HandlesKept s := by
  have h : ((Sched.boot.procInit 1).bind fun s => Run.run step (start s)
      [(1, .createUserProcess [] (ProcSys.attemptAt 2)),
        (2, .call (.open (some (ascii "a")) 64#32 true)), (2, .exit 0), (1, .freeProc 2)]).map
      (fun s => (s.procList, (s.pcb 1).fdTable, (s.fs.globalFileTable 0).refCount))
        = some ([1], List.replicate maxFd none, 1) := by
    decide +kernel
  obtain ⟨s₁, s, h₁, hr, he⟩ := Run.exists_of_eval h
  simp only [Prod.mk.injEq] at he
  obtain ⟨hl, hf, href⟩ := he
  refine ⟨s₁, s, h₁, hr, fun hk => ?_⟩
  obtain ⟨p, i, hp, hpi⟩ := hk.1 0 (by decide) (by simp [href])
  obtain rfl : p = 1 := by simpa [hl] using hp.1
  unfold fd at hpi
  rw [hf, getD_replicate_none] at hpi
  cases hpi

end Sys

end SudoOS
