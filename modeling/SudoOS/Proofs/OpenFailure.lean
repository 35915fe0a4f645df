import SudoOS.Proofs.Walk

/-!
# Opens that fail

`ramfs_open` takes an inode, an open file and a descriptor one after the other, and on a failure
gives back the open file alone. So a file it has made stays, and the entry of the open file, cleared
for the new one, keeps no offset of its last use (`failing_open`).
-/

namespace SudoOS

namespace Ramfs

/-- What a failing open has to leave alone. -/
def OpenUntouched (fs fs' : Ramfs) (cur cur' : Pcb) : Prop :=
  fs'.files = fs.files ∧ fs'.globalFileTable = fs.globalFileTable ∧ cur'.fdTable = cur.fdTable

/-- The open makes an inode for the path. -/
def OpenMakes (fs : Ramfs) (r : Resolved) (flags : BitVec 32) : Prop :=
  r.inode = -1 ∧ flags &&& oCreat ≠ 0 ∧ r.parentOut.getD (-1) ≠ -1 ∧ fs.allocInode ≠ none

/-- A new file has an open file and a descriptor left, and where the descriptors of an old one have
run out, the entry its open file would get has a zero offset. -/
structure OpenCovered (fs : Ramfs) (cur : Pcb) (r : Resolved) (flags : BitVec 32) : Prop where
  made : fs.OpenMakes r flags → fs.allocFileHandle ≠ none ∧ freeFd cur ≠ none
  found : r.inode ≠ -1 → freeFd cur = none → ∀ f fs₁, fs.allocFileHandle = some (f, fs₁) →
    (fs.globalFileTable f).offset = 0

/-- An entry that is free refers to no inode. -/
def FreeEntries (fs : Ramfs) : Prop :=
  ∀ f, (fs.globalFileTable f).refCount = 0 → (fs.globalFileTable f).node = none

theorem HandlesStep.freeEntries {fs fs' : Ramfs} {cur cur' : Pcb}
    (h : HandlesStep fs fs' cur cur') (hf : FreeEntries fs) : FreeEntries fs' := by
  have hother : ∀ {f : ℕ} {x : File},
      fs'.globalFileTable = Function.update fs.globalFileTable f x →
      (x.refCount = 0 → x.node = none) → FreeEntries fs' := by
    intro f x htab hx g hg
    rw [htab] at hg ⊢
    by_cases hgf : g = f
    · subst hgf
      rw [Function.update_self] at hg ⊢
      exact hx hg
    · rw [Function.update_of_ne hgf] at hg ⊢
      exact hf g hg
  rcases h with (⟨htab, -⟩ | ⟨k, f, n, -, -, -, -, htab, -⟩ | ⟨f, -, htab, -⟩)
    | ⟨fd, f, -, htab, -⟩ | ⟨fd, f, n, offset, -, -, -, htab, -⟩
  · exact fun g => htab ▸ hf g
  · exact hother htab (by simp)
  · exact hother htab (by simp)
  · exact hother htab (by simp)
  · exact hother htab (hf f)

theorem createInode_grows {fs fs' : Ramfs} {r : Resolved} {type : RamfsType}
    {content : Option (List UInt8)} {k : ℕ} (h : fs.createInode r type content = some (k, fs')) :
    r.parentOut.getD (-1) ≠ -1 ∧ fs.allocInode ≠ none ∧ fs'.files ≠ fs.files
      ∧ fs'.globalFileTable = fs.globalFileTable := by
  obtain ⟨hp, hlt, hfree, -, rfl⟩ := createInode_cases h
  refine ⟨hp, fun hno => ?_, fun hfiles => ?_, rfl⟩
  · rw [allocInode_eq_none_iff.mp hno k hlt] at hfree
    cases hfree
  · rw [← hfiles] at hfree
    simp [setNode] at hfree

theorem openInode_grows {fs fs₁ : Ramfs} {r : Resolved} {flags : BitVec 32} {n : ℕ}
    (h : fs.openInode r flags = some (n, fs₁)) :
    (r.inode ≠ -1 ∧ fs₁ = fs) ∨ (fs.OpenMakes r flags ∧ fs₁.files ≠ fs.files
      ∧ fs₁.globalFileTable = fs.globalFileTable) := by
  rcases openInode_cases h with ⟨hr, -, rfl⟩ | ⟨hr, hflags, hcr⟩
  · exact .inl ⟨hr, rfl⟩
  · obtain ⟨hp, hi, hfiles, htab⟩ := createInode_grows hcr
    exact .inr ⟨⟨hr, hflags, hp, hi⟩, hfiles, htab⟩

theorem openInode_none {fs : Ramfs} {r : Resolved} {flags : BitVec 32}
    (h : fs.openInode r flags = none) : r.inode = -1 ∧ ¬ fs.OpenMakes r flags := by
  unfold openInode at h
  split_ifs at h with hr hflags
  · exact ⟨not_not.mp hr, fun hm => hm.2.1 hflags⟩
  all_goals
    refine ⟨not_not.mp hr, fun hm => ?_⟩
    unfold createInode at h
    dsimp only at h
    rw [if_neg hm.2.2.1] at h
    exact hm.2.2.2 (Option.map_eq_none_iff.mp h)

theorem allocFileHandle_congr {fs fs' : Ramfs} (h : fs'.globalFileTable = fs.globalFileTable) :
    fs'.allocFileHandle.map Prod.fst = fs.allocFileHandle.map Prod.fst := by
  unfold allocFileHandle
  rw [h, Option.map_map, Option.map_map]
  rfl

theorem ramfsOpen_untouched_iff {fs fs' : Ramfs} {cur cur' : Pcb} (hfree : FreeEntries fs)
    {r : Resolved} {flags : BitVec 32} {ret : ℤ}
    (h : OpenEnds fs cur r flags ret fs' cur') :
    (ret = -1 → OpenUntouched fs fs' cur cur') ↔ OpenCovered fs cur r flags := by
  cases h with
  | noInode hn =>
    obtain ⟨hr, hno⟩ := openInode_none hn
    exact ⟨fun _ => ⟨fun hm => absurd hm hno, fun hf => absurd hr hf⟩, fun _ _ => ⟨rfl, rfl, rfl⟩⟩
  | noFile n _ hn hf =>
    rcases openInode_grows hn with ⟨hr, rfl⟩ | ⟨hm, hfiles, htab⟩
    · refine ⟨fun _ => ⟨fun hm => absurd hm.1 hr, fun _ _ f fs₁ hf' => ?_⟩,
        fun _ _ => ⟨rfl, rfl, rfl⟩⟩
      rw [hf] at hf'
      cases hf'
    · have hnone : fs.allocFileHandle = none := by
        have := allocFileHandle_congr htab
        rwa [hf, Option.map_none, eq_comm, Option.map_eq_none_iff] at this
      exact ⟨fun hu => absurd (hu rfl).1 hfiles, fun hc => absurd hnone (hc.made hm).1⟩
  | noFd n f fs₁ fs₂ hn hf hfd =>
    rcases openInode_grows hn with ⟨hr, rfl⟩ | ⟨hm, hfiles, htab⟩
    · obtain ⟨-, href, -⟩ := allocFileHandle_cases hf
      have hnode := hfree f href
      refine ⟨fun hu => ⟨fun hm => absurd hm.1 hr, fun _ _ g fs₃ hg => ?_⟩,
        fun hc _ => ⟨rfl, ?_, rfl⟩⟩
      · obtain ⟨rfl, -⟩ := Prod.mk.inj (Option.some.inj (hf.symm.trans hg))
        have := congrFun (hu rfl).2.1 f
        rw [setFile_self] at this
        rw [← this]
      · have hoff := hc.found hr hfd f fs₂ hf
        have hentry : fs₁.globalFileTable f = ⟨none, 0, 0⟩ := by
          rcases he : fs₁.globalFileTable f with ⟨node, offset, refCount⟩
          simp only [he] at hnode href hoff
          rw [hnode, href, hoff]
        rw [← hentry]
        exact Function.update_eq_self f _
    · exact ⟨fun hu => absurd (hu rfl).1 hfiles, fun hc => absurd hfd (hc.made hm).2⟩
  | opened n f i fs₁ fs₂ hn hf hfd =>
    refine ⟨fun _ => ⟨fun hm => ⟨fun hnone => ?_, by simp [hfd]⟩, fun _ hnone => ?_⟩,
      fun _ hret => ?_⟩
    · have htab : fs₁.globalFileTable = fs.globalFileTable := by
        rcases openInode_grows hn with ⟨-, rfl⟩ | ⟨-, -, htab⟩
        · rfl
        · exact htab
      have := allocFileHandle_congr htab
      rw [hf, hnone] at this
      cases this
    · rw [hfd] at hnone
      cases hnone
    · have : (i : ℤ) = -1 := hret
      omega

end Ramfs

namespace Sys

theorem step_freeEntries (s : Sys) (e : ℕ × SysOp) (s' : Sys)
    (hI : SysInv s ∧ Ramfs.FreeEntries s.fs) (h : s.step e = some s') :
    SysInv s' ∧ Ramfs.FreeEntries s'.fs := by
  refine ⟨step_inv s e s' hI.1 h, ?_⟩
  obtain ⟨-, ⟨fs', cur', hs, -, rfl⟩ | ⟨hfs, -⟩ | ⟨code, -, rfl⟩ | ⟨q, -, -, rfl⟩⟩ :=
    step_cases hI.1 h
  · exact hs.handles.freeEntries hI.2
  · rw [hfs]
    exact hI.2
  · exact hI.2
  · exact hI.2

/-- In every reachable state an open that fails leaves the inodes, the open files and the
descriptors as they were exactly when a file it makes has an open file and a descriptor left, and an
entry it clears has a zero offset. -/
theorem failing_open (s₀ : Sched) (idle : ℕ) (ops : List (ℕ × SysOp)) {s₁ : Sched}
    {s : Sys} (hinit : s₀.procInit idle = some s₁) (h : Run.run step (start s₁) ops = some s)
    (p : ℕ) (path : Option (List UInt8)) (flags : BitVec 32) (mem' : Bool) {ret : ℤ} {fs' : Ramfs}
    {cur' : Pcb} (ho : s.fs.ramfsOpen (s.pcb p) path flags mem' = some (ret, fs', cur')) :
    ∃ r, s.fs.resolvePath (s.pcb p).cwdInode true path = some r
      ∧ ((ret = -1 → Ramfs.OpenUntouched s.fs fs' (s.pcb p) cur')
        ↔ Ramfs.OpenCovered s.fs (s.pcb p) r flags) := by
  have hI : SysInv s ∧ Ramfs.FreeEntries s.fs :=
    Run.run_invariant step_freeEntries ⟨start_inv hinit, fun _ _ => rfl⟩ h
  obtain ⟨r, hr, he⟩ := Ramfs.ramfsOpen_ends ho
  exact ⟨r, hr, Ramfs.ramfsOpen_untouched_iff hI.2 he⟩

/-- A process with `n` descriptors on the file it made. -/
def openOps (n : ℕ) : List (ℕ × SysOp) :=
  (1, .createUserProcess [] (ProcSys.attemptAt 2))
    :: List.replicate n (2, .call (.open (some (ascii "a")) 64#32 true))

theorem failing_open_openOps :
    ∃ s₁ s, Sched.boot.procInit 1 = some s₁ ∧ Run.run step (start s₁) (openOps 13) = some s
      ∧ ∃ fs' cur', s.fs.ramfsOpen (s.pcb 2) (some (ascii "a" ++ [0])) 64#32 true
          = some (-1, fs', cur')
        ∧ Ramfs.OpenUntouched s.fs fs' (s.pcb 2) cur' := by
  have h : ((Sched.boot.procInit 1).bind fun s => Run.run step (start s) (openOps 13)).map
      (fun s => ((s.fs.ramfsOpen (s.pcb 2) (some (ascii "a" ++ [0])) 64#32 true).map Prod.fst,
        (s.fs.resolvePath (s.pcb 2).cwdInode true (some (ascii "a" ++ [0]))).map (·.inode),
        s.fs.allocFileHandle.map fun r => (s.fs.globalFileTable r.1).offset))
        = some (some (-1), some 7, some 0) := by
    decide +kernel
  obtain ⟨s₁, s, h₁, hr, he⟩ := Run.exists_of_eval h
  simp only [Prod.mk.injEq] at he
  obtain ⟨ho, hres, hoff⟩ := he
  obtain ⟨⟨ret, fs', cur'⟩, ho, rfl⟩ := Option.map_eq_some_iff.mp ho
  obtain ⟨r, hr', hiff⟩ := failing_open Sched.boot 1 (openOps 13) h₁ hr 2 _ _ _ ho
  have hi : r.inode = 7 := by
    rw [hr', Option.map_some] at hres
    exact Option.some.inj hres
  refine ⟨s₁, s, h₁, hr, fs', cur', ho, hiff.mpr ⟨fun hm => ?_, fun _ _ f fs₁ hf => ?_⟩ rfl⟩
  · rw [hm.1] at hi
    cases hi
  · rw [hf, Option.map_some] at hoff
    exact Option.some.inj hoff

/-- A file is made, and stays when there is no descriptor for it. -/
theorem failing_open_makes :
    ∃ s₁ s, Sched.boot.procInit 1 = some s₁ ∧ Run.run step (start s₁) (openOps 13) = some s
      ∧ 2 ∈ s.procList
      ∧ ∃ fs' cur', s.fs.ramfsOpen (s.pcb 2) (some (ascii "b" ++ [0])) 64#32 true
          = some (-1, fs', cur')
        ∧ (s.fs.files 8).isUsed = false ∧ (fs'.files 8).isUsed = true
        ∧ ¬ Ramfs.OpenUntouched s.fs fs' (s.pcb 2) cur' := by
  have h : ((Sched.boot.procInit 1).bind fun s => Run.run step (start s) (openOps 13)).map
      (fun s => ((s.fs.ramfsOpen (s.pcb 2) (some (ascii "b" ++ [0])) 64#32 true).map
        (fun r => (r.1, (r.2.1.files 8).isUsed)), (s.fs.files 8).isUsed, s.procList))
        = some (some (-1, true), false, [2, 1]) := by
    decide +kernel
  obtain ⟨s₁, s, h₁, hr, he⟩ := Run.exists_of_eval h
  simp only [Prod.mk.injEq] at he
  obtain ⟨ho, hfree, hl⟩ := he
  obtain ⟨⟨ret, fs', cur'⟩, ho, he⟩ := Option.map_eq_some_iff.mp ho
  obtain ⟨rfl, hused⟩ := Prod.mk.inj he
  refine ⟨s₁, s, h₁, hr, by simp [hl], fs', cur', ho, hfree, hused, fun hu => ?_⟩
  rw [hu.1, hfree] at hused
  cases hused

end Sys

end SudoOS
