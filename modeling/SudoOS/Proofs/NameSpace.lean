import SudoOS.Proofs.PathTree

/-!
# The names as processes see them

A name space knows the tree of paths and the directory each process is in, and nothing of inodes.
Every run of the system is a run of a name space, whose steps are what the calls say of their paths
(`run_named`), and in every state reached the calls succeed, open and answer as it says
(`names_refine`).
-/

namespace SudoOS

open FileTree

/-- The names as processes see them: the tree, and the directory each process is in. -/
structure NameSpace where
  tree : NameTree
  cwd : ℕ → List (List UInt8)

namespace NameSpace

/-- Where a path leads process `p`. -/
def target (v : NameSpace) (p : ℕ) (path : Option (List UInt8)) : Target (List UInt8) :=
  Ramfs.pathTarget v.tree (v.cwd p) path

/-- A call by process `p`: only `mkdir` and an `open` that may create change the tree, and only
`chdir` a directory. -/
noncomputable def call (v : NameSpace) (p : ℕ) : Ramfs.Call → NameSpace
  | .open path flags _ =>
    { v with
      tree := if flags &&& oCreat = 0 then v.tree
        else v.tree.grow maxFiles .file (v.target p path) }
  | .mkdir path => { v with tree := v.tree.grow maxFiles .dir (v.target p path) }
  | .chdir path =>
    match v.target p path with
    | .found dir =>
      if v.tree.kind dir = some .dir then { v with cwd := Function.update v.cwd p dir } else v
    | _ => v
  | .read .. | .write .. | .close .. => v

/-- The PCB of the process a step of `p` can create, and the directory it starts in: a child of
`fork` is where its parent is, and any other process in the root. -/
def child (v : NameSpace) (p : ℕ) : SysOp → Option (ℕ × List (List UInt8))
  | .kthreadCreate _ _ a | .createUserProcess _ a => some (a.pcb, [])
  | .sysFork a => some (a.pcb, v.cwd p)
  | .call _ | .getdents64 .. | .exit _ | .freeProc _ => none

/-- A step of process `p`. -/
inductive Step : NameSpace → ℕ × SysOp → NameSpace → Prop
  | call (v : NameSpace) (p : ℕ) (c : Ramfs.Call) : Step v (p, .call c) (v.call p c)
  | spawn (v : NameSpace) (p : ℕ) (op : SysOp) (addr : ℕ) (dir : List (List UInt8))
      (hchild : v.child p op = some (addr, dir)) :
      Step v (p, op) { v with cwd := Function.update v.cwd addr dir }
  | same (v : NameSpace) (p : ℕ) (op : SysOp) (hop : ∀ c, op ≠ .call c) : Step v (p, op) v

inductive Steps : NameSpace → List (ℕ × SysOp) → NameSpace → Prop
  | nil (v : NameSpace) : Steps v [] v
  | cons {v v' v'' : NameSpace} {e : ℕ × SysOp} {es : List (ℕ × SysOp)} (step : Step v e v')
      (steps : Steps v' es v'') : Steps v (e :: es) v''

/-- The names after `ramfs_init`, with all processes in the root. -/
def start : NameSpace := ⟨Ramfs.startTree, fun _ => []⟩

end NameSpace

/-! ## New processes -/

theorem Sched.enlist_pcb (s : Sched) (addr : ℕ) (f : Pcb → Pcb) :
    ((s.newPcb addr f).enlist addr).pcbs addr = f s.allocNewPcb := Function.update_self ..

namespace ProcSys

variable {s t : ProcSys} {a : Attempt}

/-- A failed call makes no PCB. -/
theorem Creates.ne_fails {addr : ℕ} {child : Pcb} (h : Creates s t addr child) : t ≠ s.fails := by
  rintro rfl
  exact absurd h.list.symm (List.cons_ne_self _ _)

theorem Creates.pcb_eq {addr : ℕ} {child : Pcb} (h : Creates s t addr child) :
    t.sched.pcbs addr = child := by
  rw [h.pcbs, Function.update_self]

/-- Where each PCB a call makes has its directory, so has the child it creates. -/
theorem child_cwd {addr : ℕ} {cwd : ℤ} (hends : t = s.fails ∨ ∃ child, Creates s t addr child)
    (hcwd : t = s.fails ∨ (t.sched.pcbs addr).cwdInode = cwd) :
    t = s.fails ∨ ∃ child, Creates s t addr child ∧ child.cwdInode = cwd := by
  refine hends.imp_right fun ⟨child, hc⟩ => ⟨child, hc, ?_⟩
  rw [← hc.pcb_eq]
  exact hcwd.resolve_left hc.ne_fails

/-- A kernel thread starts in the root. -/
theorem kthreadCreate_child {parent : ℕ} {name : List UInt8}
    (h : s.step (.kthreadCreate parent name a) = some t) :
    t = s.fails ∨ ∃ child, Creates s t a.pcb child ∧ child.cwdInode = 0 := by
  have hcwd : s.kthreadCreate parent name a = s.fails
      ∨ ((s.kthreadCreate parent name a).sched.pcbs a.pcb).cwdInode = 0 := by
    unfold kthreadCreate
    split_ifs
    · exact .inl rfl
    · exact .inr ((congrArg Pcb.cwdInode (Sched.enlist_pcb ..)).trans rfl)
  unfold step at h
  dsimp only at h
  split_ifs at h with hf
  obtain rfl := Option.some.inj h
  exact child_cwd (kthreadCreate_cases name hf.1 hf.2) hcwd

/-- A user process starts in the root. -/
theorem createUserProcess_child {name : List UInt8}
    (h : s.step (.createUserProcess name a) = some t) :
    t = s.fails ∨ ∃ child, Creates s t a.pcb child ∧ child.cwdInode = 0 := by
  have hcwd : s.createUserProcess name a = s.fails
      ∨ ((s.createUserProcess name a).sched.pcbs a.pcb).cwdInode = 0 := by
    unfold createUserProcess
    rcases a.mm with _ | ⟨mm, pml4Pa⟩
    · exact .inl rfl
    · dsimp only
      rw [Sched.loadElf_fst]
      split_ifs
      · exact .inl rfl
      · exact .inl rfl
      · exact .inl rfl
      · exact .inr ((congrArg Pcb.cwdInode (Sched.enlist_pcb ..)).trans rfl)
  unfold step at h
  dsimp only at h
  split_ifs at h with hf
  obtain rfl := Option.some.inj h
  exact child_cwd (createUserProcess_cases name hf) hcwd

/-- A child of `fork` is where its parent is. -/
theorem sysFork_child (h : s.step (.sysFork a) = some t) :
    t = s.fails ∨ ∃ child, Creates s t a.pcb child
      ∧ child.cwdInode = (s.sched.pcbs s.sched.currentProc).cwdInode := by
  have hcwd : s.sysFork a = s.fails ∨ ((s.sysFork a).sched.pcbs a.pcb).cwdInode
      = (s.sched.pcbs s.sched.currentProc).cwdInode := by
    unfold sysFork
    rcases a.mm with _ | ⟨mm, pml4Pa⟩
    · exact .inl rfl
    · dsimp only
      split_ifs
      · exact .inl rfl
      · exact .inl rfl
      · exact .inr ((congrArg Pcb.cwdInode (Sched.enlist_pcb ..)).trans rfl)
  unfold step at h
  dsimp only at h
  split_ifs at h with hf
  obtain rfl := Option.some.inj h
  exact child_cwd (sysFork_cases hf) hcwd

end ProcSys

/-! ## Runs -/

namespace Sys

/-- The file system and the working directories are those of the name space. -/
structure Named (s : Sys) (v : NameSpace) : Prop where
  shows : Ramfs.Shows s.fs v.tree
  cwds : ∀ p ∈ s.procList, ∃ i : ℕ, (s.pcb p).cwdInode = i ∧ s.fs.IsDir i
    ∧ s.fs.Stands i (v.cwd p)

section Step

variable {s : Sys} {v : NameSpace} (hI : SysInv s) (hv : Named s v) {p : ℕ} (hp : p ∈ s.procList)

include hv in
theorem Named.called {fs' : Ramfs} {cur' : Pcb} {t : NameTree} (dir : List (List UInt8))
    (ht : Ramfs.Shows fs' t) (hkept : Ramfs.StandsKept s.fs fs') (hdirs : Ramfs.KeepsDirs s.fs fs')
    (hcur : ∃ i : ℕ, cur'.cwdInode = i ∧ fs'.IsDir i ∧ fs'.Stands i dir) :
    Named (s.called p fs' cur') ⟨t, Function.update v.cwd p dir⟩ := by
  refine ⟨ht, fun q hq => ?_⟩
  rw [called_pcb]
  by_cases hqp : q = p
  · rw [if_pos hqp]
    dsimp only
    rw [hqp, Function.update_self]
    exact hcur
  · rw [if_neg hqp]
    dsimp only
    rw [Function.update_of_ne hqp]
    obtain ⟨i, hi, hdir, hs⟩ := hv.cwds q hq
    exact ⟨i, hi, hdirs i hdir, hkept i _ hs⟩

include hv hp in
/-- A call that stays in its directory. -/
theorem Named.stays {fs' : Ramfs} {cur' : Pcb} {t : NameTree} (ht : Ramfs.Shows fs' t)
    (hkept : Ramfs.StandsKept s.fs fs') (hdirs : Ramfs.KeepsDirs s.fs fs')
    (hcur : cur'.cwdInode = (s.pcb p).cwdInode) :
    Named (s.called p fs' cur') { v with tree := t } := by
  obtain ⟨i, hi, hdir, hs⟩ := hv.cwds p hp
  have hnamed := hv.called (p := p) (v.cwd p) ht hkept hdirs
    ⟨i, hcur.trans hi, hdirs i hdir, hkept i _ hs⟩
  rwa [Function.update_eq_self] at hnamed

include hI hv hp

/-- Each call does to the names what the call of the name space does. -/
theorem call_named {c : Ramfs.Call} {fs' : Ramfs} {cur' : Pcb}
    (h : s.fs.perform (s.pcb p) c = some (fs', cur')) :
    Named (s.called p fs' cur') (v.call p c) := by
  obtain ⟨d, hcwd, hdir, hd⟩ := hv.cwds p hp
  have hok := Ramfs.perform_ok hI.fsOk.toTreeInv (hI.cwds p hp) h
  have hsame : Ramfs.SameTree s.fs fs' → cur'.cwdInode = (s.pcb p).cwdInode →
      Named (s.called p fs' cur') v :=
    fun hs hcur => hv.stays hp (hs.shows hv.shows) (fun _ _ => hs.stands_iff.mpr) hok.dirs hcur
  cases c with
  | «open» path flags mem =>
    obtain ⟨⟨ret, r⟩, hr, rfl⟩ := Option.map_eq_some_iff.mp h
    obtain ⟨hshows, hkept, hcur, -⟩ :=
      Ramfs.ramfsOpen_shows hI.fsOk hv.shows hcwd hdir hd hr
    exact hv.stays hp hshows hkept hok.dirs hcur
  | mkdir path =>
    obtain ⟨⟨ret, r⟩, hr, he⟩ := Option.map_eq_some_iff.mp h
    obtain ⟨rfl, rfl⟩ := Prod.mk.inj he
    obtain ⟨hshows, hkept, -⟩ := Ramfs.ramfsMkdir_shows hI.fsOk hv.shows hcwd hdir hd hr
    exact hv.stays hp hshows hkept hok.dirs rfl
  | chdir path =>
    obtain ⟨⟨ret, r⟩, hr, he⟩ := Option.map_eq_some_iff.mp h
    obtain ⟨rfl, rfl⟩ := Prod.mk.inj he
    rcases Ramfs.ramfsChdir_stands hI.fsOk hv.shows hcwd hdir hd hr with
      ⟨-, q, i, hq, hk, hi, hidir, hs⟩ | ⟨-, rfl, hno⟩
    · have hcall : v.call p (.chdir path) = ⟨v.tree, Function.update v.cwd p q⟩ := by
        rw [NameSpace.call, NameSpace.target, hq]
        exact if_pos hk
      rw [hcall]
      exact hv.called q hv.shows (fun _ _ => id) hok.dirs ⟨i, hi, hidir, hs⟩
    · have hcall : v.call p (.chdir path) = v := by
        rw [NameSpace.call, NameSpace.target]
        rcases hq : Ramfs.pathTarget v.tree (v.cwd p) path with q | ⟨ds, name⟩ | _
        · exact if_neg (hno q hq)
        · rfl
        · rfl
      rw [hcall]
      exact hsame (.rfl_of_files rfl) rfl
  | read fd count =>
    obtain ⟨⟨ret, data, r⟩, hr, he⟩ := Option.map_eq_some_iff.mp h
    obtain ⟨rfl, rfl⟩ := Prod.mk.inj he
    exact hsame (.rfl_of_files (Ramfs.ramfsRead_files hr)) rfl
  | write fd buf count =>
    obtain ⟨⟨ret, r⟩, hr, he⟩ := Option.map_eq_some_iff.mp h
    obtain ⟨rfl, rfl⟩ := Prod.mk.inj he
    refine hsame ?_ rfl
    rcases Ramfs.ramfsWrite_ends hr with rfl | ⟨f, n, bytes, -, -, -, -, -, rfl⟩
    · exact .rfl_of_files rfl
    · exact Ramfs.sameTree_setNode ..
  | close fd =>
    obtain ⟨rfl, rfl⟩ := Prod.mk.inj (Option.some.inj h)
    have hcur : (s.fs.ramfsClose (s.pcb p) fd).2.cwdInode = (s.pcb p).cwdInode := by
      unfold Ramfs.ramfsClose
      rcases Ramfs.fdFile (s.pcb p) fd with _ | f
      · rfl
      · rfl
    exact hsame (.rfl_of_files (Ramfs.ramfsClose_files ..)) hcur

theorem creates_named {t : ProcSys} {addr : ℕ} {child : Pcb} {dir : List (List UInt8)}
    (h : ProcSys.Creates (s.switched p) t addr child)
    (hcwd : (child.cwdInode = 0 ∧ dir = [])
      ∨ (child.cwdInode = (s.pcb p).cwdInode ∧ dir = v.cwd p)) :
    Named ⟨s.fs, t⟩ { v with cwd := Function.update v.cwd addr dir } := by
  have hlist : (⟨s.fs, t⟩ : Sys).procList = addr :: s.procList := h.list
  have hself : (⟨s.fs, t⟩ : Sys).pcb addr = child := by simp [pcb, h.pcbs]
  have hstands : ∃ i : ℕ, child.cwdInode = i ∧ s.fs.IsDir i ∧ s.fs.Stands i dir := by
    rcases hcwd with ⟨h0, rfl⟩ | ⟨hc, rfl⟩
    · exact ⟨0, h0, hI.fsOk.root.1, Ramfs.stands_root hI.fsOk⟩
    · obtain ⟨i, hi, hdir, hs⟩ := hv.cwds p hp
      exact ⟨i, hc.trans hi, hdir, hs⟩
  refine ⟨hv.shows, fun q hq => ?_⟩
  rw [hlist] at hq
  dsimp only
  by_cases hqa : q = addr
  · rw [hqa, hself, Function.update_self]
    exact hstands
  · have hq := (List.mem_cons.mp hq).resolve_left hqa
    rw [creates_pcb h hq, Function.update_of_ne hqa]
    exact hv.cwds q hq

end Step

/-- One step. -/
theorem step_named {s s' : Sys} {v : NameSpace} (hI : SysInv s) (hv : Named s v) {e : ℕ × SysOp}
    (h : s.step e = some s') : ∃ v', NameSpace.Step v e v' ∧ Named s' v' := by
  obtain ⟨p, op⟩ := e
  unfold step at h
  dsimp only at h
  by_cases hr : s.Runs p
  swap
  · rw [if_neg hr] at h
    cases h
  rw [if_pos hr] at h
  have hp := hr.1
  have hmade : ∀ (op' : ProcSys.Op) (a : Attempt) (dir : List (List UInt8)),
      (∀ c, op ≠ .call c) → v.child p op = some (a.pcb, dir) →
      (∀ t, (s.switched p).step op' = some t → t = (s.switched p).fails
        ∨ ∃ child, ProcSys.Creates (s.switched p) t a.pcb child
          ∧ ((child.cwdInode = 0 ∧ dir = [])
            ∨ (child.cwdInode = (s.pcb p).cwdInode ∧ dir = v.cwd p))) →
      ((s.switched p).step op').map (fun t => (⟨s.fs, t⟩ : Sys)) = some s' →
      ∃ v', NameSpace.Step v (p, op) v' ∧ Named s' v' := by
    intro op' a dir hop hchild hcases hmap
    obtain ⟨t, ht, rfl⟩ := Option.map_eq_some_iff.mp hmap
    rcases hcases t ht with rfl | ⟨child, hc, hcwd⟩
    · exact ⟨v, .same v p op hop, hv.shows, hv.cwds⟩
    · exact ⟨_, .spawn v p op a.pcb dir hchild, creates_named hI hv hp hc hcwd⟩
  cases op with
  | call c =>
    obtain ⟨⟨fs', cur'⟩, hc, rfl⟩ := Option.map_eq_some_iff.mp h
    exact ⟨v.call p c, .call v p c, call_named hI hv hp hc⟩
  | getdents64 fd dirp count =>
    obtain ⟨⟨ret, buf, fs'⟩, hc, rfl⟩ := Option.map_eq_some_iff.mp h
    have hsame := Ramfs.SameTree.rfl_of_files (Ramfs.ramfsGetdents64_files hc)
    exact ⟨v, .same v p _ nofun, hv.stays hp (hsame.shows hv.shows)
      (fun _ _ => hsame.stands_iff.mpr) hsame.keepsDirs rfl⟩
  | kthreadCreate parent name a =>
    exact hmade (.kthreadCreate parent name a) a [] nofun rfl (fun t ht =>
      (ProcSys.kthreadCreate_child ht).imp_right fun ⟨c, hc, h0⟩ => ⟨c, hc, .inl ⟨h0, rfl⟩⟩) h
  | createUserProcess name a =>
    exact hmade (.createUserProcess name a) a [] nofun rfl (fun t ht =>
      (ProcSys.createUserProcess_child ht).imp_right fun ⟨c, hc, h0⟩ => ⟨c, hc, .inl ⟨h0, rfl⟩⟩) h
  | sysFork a =>
    exact hmade (.sysFork a) a (v.cwd p) nofun rfl (fun t ht =>
      (ProcSys.sysFork_child ht).imp_right fun ⟨c, hc, h0⟩ => ⟨c, hc, .inr ⟨h0, rfl⟩⟩) h
  | exit code =>
    dsimp only at h
    split_ifs at h
    obtain rfl := Option.some.inj h
    refine ⟨v, .same v p _ nofun, hv.shows, fun q hq => ?_⟩
    rw [exited_pcb]
    split_ifs with hqp
    · exact hqp ▸ hv.cwds p hp
    · exact hv.cwds q hq
  | freeProc q =>
    obtain ⟨t, ht, rfl⟩ := Option.map_eq_some_iff.mp h
    unfold ProcSys.lifeStep at ht
    dsimp only at ht
    split_ifs at ht
    obtain rfl := Option.some.inj ht
    exact ⟨v, .same v p _ nofun, hv.shows, fun p hp => hv.cwds p (List.mem_of_mem_erase hp)⟩

/-- A run of the system is a run of the name space. -/
theorem run_named : ∀ (ops : List (ℕ × SysOp)) {s s' : Sys} {v : NameSpace}, SysInv s →
    Named s v → Run.run step s ops = some s' → ∃ v', NameSpace.Steps v ops v' ∧ Named s' v'
  | [], s, s', v, _, hv, h => by
    obtain rfl := Option.some.inj h
    exact ⟨v, .nil v, hv⟩
  | e :: ops, s, s', v, hI, hv, h => by
    obtain ⟨s₁, hstep, hrun⟩ := Run.run_cons h
    obtain ⟨v₁, hv₁, hn₁⟩ := step_named hI hv hstep
    obtain ⟨v', hv', hn'⟩ := run_named ops (step_inv s e s₁ hI hstep) hn₁ hrun
    exact ⟨v', .cons hv₁ hv', hn'⟩

theorem start_named {s₀ s₁ : Sched} {idle : ℕ} (h : s₀.procInit idle = some s₁) :
    Named (start s₁) .start := by
  refine ⟨Ramfs.ramfsInit_shows, fun p hp => ?_⟩
  have hlist : (start s₁).procList = [idle] := (Sched.procInit_queueInv h).2.1
  rw [hlist, List.mem_singleton] at hp
  have hcwd : (s₁.pcbs idle).cwdInode = 0 := by
    unfold Sched.procInit at h
    split_ifs at h
    rw [← Option.some.inj h]
    simp [Sched.newPcb, Pcb.setProcName, Sched.allocNewPcb]
  have hI := Ramfs.ramfsInit_fsOk
  exact ⟨0, hp ▸ hcwd, hI.root.1, Ramfs.stands_root hI⟩

/-- What the calls of process `p` say of a path, in a system with these names. -/
structure CallsNamed (s : Sys) (v : NameSpace) (p : ℕ) (path : Option (List UInt8)) : Prop where
  mkdir : ∀ ret fs', s.fs.ramfsMkdir (s.pcb p) path = some (ret, fs') →
    (ret = 0 ↔ (∃ dir name, v.target p path = .missing dir name)
      ∧ v.tree.nodes.ncard < maxFiles)
  chdir : ∀ ret cur', s.fs.ramfsChdir (s.pcb p) path = some (ret, cur') →
    (ret = 0 ↔ ∃ dir, v.target p path = .found dir ∧ v.tree.kind dir = some .dir)
  «open» : ∀ flags mem ret fs' cur',
    s.fs.ramfsOpen (s.pcb p) path flags mem = some (ret, fs', cur') → 0 ≤ ret →
      ∃ f n dest, Ramfs.fdFile cur' ret = some f ∧ fs'.globalFileTable f = ⟨some n, 0, 1⟩
        ∧ (v.target p path).path = some dest ∧ fs'.Stands n dest
  getcwd : ∀ (buf : ℕ → UInt8) (size : ℕ), ∃ r,
    s.fs.ramfsGetcwd (s.pcb p) (some buf) size = some r
      ∧ (r = none ↔ size < (Ramfs.pathText (v.cwd p)).length + 1)
      ∧ ∀ buf' ∈ r, Wire.At buf' 0 (Ramfs.pathText (v.cwd p) ++ [0])

theorem callsNamed {s : Sys} {v : NameSpace} (hI : SysInv s) (hv : Named s v) {p : ℕ}
    (hp : p ∈ s.procList) (path : Option (List UInt8)) : CallsNamed s v p path := by
  obtain ⟨d, hcwd, hdir, hd⟩ := hv.cwds p hp
  refine ⟨fun ret fs' h => ?_, fun ret cur' h => ?_, fun flags mem ret fs' cur' h hret => ?_,
    fun buf size => ?_⟩
  · exact (Ramfs.ramfsMkdir_shows hI.fsOk hv.shows hcwd hdir hd h).2.2
  · rcases Ramfs.ramfsChdir_stands hI.fsOk hv.shows hcwd hdir hd h with
      ⟨rfl, q, i, hq, hk, -⟩ | ⟨rfl, -, hno⟩
    · exact ⟨fun _ => ⟨q, hq, hk⟩, fun _ => rfl⟩
    · exact ⟨by simp, fun ⟨q, hq, hk⟩ => absurd hk (hno q hq)⟩
  · obtain ⟨-, -, -, hopen⟩ := Ramfs.ramfsOpen_shows hI.fsOk hv.shows hcwd hdir hd h
    obtain ⟨f, n, q, hfd, hset, hfile, hq, hs⟩ := hopen hret
    obtain ⟨h3, hlt, -⟩ := Ramfs.freeFd_cases hfd
    refine ⟨f, n, q, ?_, hfile, hq, hs⟩
    unfold Ramfs.fdFile
    rw [if_neg (by omega), hset, getD_set (by rw [hI.fdLen p hp]; exact hlt), if_pos rfl]
  · obtain ⟨r, hr, hnone, hsome⟩ :=
      Ramfs.ramfsGetcwd_spec hI.fsOk.toTreeInv hcwd hd.1 buf size
    rw [hd.absPath hI.fsOk] at hnone hsome
    exact ⟨r, hr, hnone, fun buf' hb => (hsome buf' hb).1⟩

/-- In every run the inodes are the nodes of a tree of paths that `mkdir`, `open` and `chdir` walk
and change as the paths say, with a directory of it for each process, and in every state reached the
calls succeed, open and answer as that tree says. -/
theorem names_refine (s₀ : Sched) (idle : ℕ) (ops : List (ℕ × SysOp)) {s₁ : Sched}
    {s : Sys} (hinit : s₀.procInit idle = some s₁) (h : Run.run step (start s₁) ops = some s) :
    ∃ v, NameSpace.Steps .start ops v ∧ Named s v
      ∧ ∀ p ∈ s.procList, ∀ path, CallsNamed s v p path := by
  obtain ⟨v, hsteps, hv⟩ := run_named ops (start_inv hinit) (start_named hinit) h
  have hI : SysInv s := Run.run_invariant step_inv (start_inv hinit) h
  exact ⟨v, hsteps, hv, fun p hp path => callsNamed hI hv hp path⟩

theorem names_refine_deepOps :
    ∃ s₁ s v, Sched.boot.procInit 1 = some s₁ ∧ Run.run step (start s₁) deepOps = some s
      ∧ NameSpace.Steps .start deepOps v ∧ v.cwd 2 = [ascii "usr", ascii "x"]
      ∧ v.tree.kind [ascii "usr", ascii "x"] = some .dir := by
  have h : ((Sched.boot.procInit 1).bind fun s => Run.run step (start s) deepOps).map
      (fun s => (s.procList, (s.pcb 2).cwdInode, s.fs.components maxFiles 7))
        = some ([2, 1], 7, [ascii "usr", ascii "x"]) := by
    decide +kernel
  obtain ⟨s₁, s, h₁, hr, he⟩ := Run.exists_of_eval h
  simp only [Prod.mk.injEq] at he
  obtain ⟨hl, hc, hpath⟩ := he
  obtain ⟨v, hsteps, hv, -⟩ := names_refine Sched.boot 1 deepOps h₁ hr
  obtain ⟨i, hi, hdir, hs⟩ := hv.cwds 2 (by simp [hl])
  obtain rfl : i = 7 := by omega
  have hcwd : v.cwd 2 = [ascii "usr", ascii "x"] := hs.2.symm.trans hpath
  exact ⟨s₁, s, v, h₁, hr, hsteps, hcwd, (Ramfs.kind_dir_iff hv.shows (hcwd ▸ hs)).mpr hdir⟩

end Sys

end SudoOS
