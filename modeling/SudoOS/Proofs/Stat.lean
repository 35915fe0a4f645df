import SudoOS.Proofs.Execve
import SudoOS.Proofs.Names

/-!
# What fstat describes

`ramfs_fstat` hands the name of the open file's inode to `ramfs_stat`, which looks for it from the
caller's directory. So it finds the open file in its own directory only, and the root, whose name is
empty, in the root (`fstat_describes`).
-/

namespace SudoOS

open Pieces

namespace Ramfs

/-- The inode's name leads to it from directory `cwd`. -/
def NamedIn (fs : Ramfs) (cwd n : ℕ) : Prop :=
  if n = 0 then cwd = 0 else (fs.files n).parentIdx = cwd

/-- The number of the inode can be read off what is stored. -/
theorem storeStat_ino (fs : Ramfs) (i : ℕ) (buf : ℕ → UInt8) :
    Wire.readLe (fs.storeStat i buf) 8 8 = (i + 1) % 256 ^ 8 := by
  have hat : Wire.At (fs.storeStat i buf) 8 (Wire.leBytes 8 (i + 1)) := by
    unfold storeStat
    refine Wire.At.store (Wire.At.store ?_ (by simp)) (by simp)
    exact Wire.at_store _ _ _
  rw [Wire.readLe_of_at hat]

theorem storeStat_inj {fs : Ramfs} {i j : ℕ} (hi : i < maxFiles) (hj : j < maxFiles)
    {buf : ℕ → UInt8} (h : fs.storeStat i buf = fs.storeStat j buf) : i = j := by
  have hsame := congrArg (fun mem => Wire.readLe mem 8 8) h
  simp only [storeStat_ino] at hsame
  unfold maxFiles at hi hj
  omega

/-- What a stat comes to, once the path is resolved. -/
theorem ramfsStat_eq_iff {fs : Ramfs} {cur : Pcb} {path : Option (List UInt8)} {r : Resolved}
    {i : Option ℕ} {n : ℕ} (hr : fs.resolvePath cur.cwdInode false path = some r)
    (hi : r.inode = index i) (hu : ∀ j ∈ i, fs.Used j) (hn : fs.Used n) (buf : ℕ → UInt8) :
    fs.ramfsStat cur path buf = some (0, fs.storeStat n buf) ↔ i = some n := by
  unfold ramfsStat
  rw [hr, Option.map_some, hi]
  rcases i with _ | j
  · simp [index]
  · have hj : ¬ (j : ℤ) = -1 := by omega
    rw [index, if_neg hj]
    refine ⟨fun h => ?_, fun h => by rw [Option.some.inj h]⟩
    exact congrArg some (storeStat_inj (hu j rfl).1 hn.1 (Prod.mk.inj (Option.some.inj h)).2)

section Stat

variable {fs : Ramfs} (hI : FsOk fs)

include hI

theorem resolvePath_nodeName {cwd n : ℕ} (hc : fs.IsDir cwd) (h0 : n ≠ 0) (hn : fs.Used n) :
    ∃ r, fs.resolvePath cwd false (some (fs.files n).name) = some r
      ∧ r.inode = index (fs.childNamed cwd (fs.files n).name) := by
  obtain ⟨-, hname, -⟩ := hI.node n h0 hn
  have hok := hI.nodes n hn
  have hcstr : cstr (fs.files n).name 0 = (fs.files n).name := by
    unfold cstr
    rw [List.drop_zero, List.takeWhile_eq_self_iff]
    intro c hcm
    have : c ≠ 0 := by
      rintro rfl
      exact hok.noNul hcm
    simpa using this
  have hhead : (fs.files n).name.head? ≠ some slash := fun hh =>
    hname.noSlash (List.mem_of_mem_head? hh)
  have hlast : (fs.files n).name.getLast? ≠ some slash := fun hl =>
    hname.noSlash (List.mem_of_getLast? hl)
  have hrel : relPath (fs.files n).name = (fs.files n).name := if_neg hhead
  have hcopy : copyLen (fs.files n).name = (fs.files n).name.length := by
    have := hok.short
    unfold copyLen
    rw [toInt32_of_lt (by omega)]
    omega
  have hheard : heard (fs.files n).name = [(fs.files n).name] := by
    unfold heard
    rw [hrel, hcopy, Int.toNat_natCast, List.take_length, tokens_eq_pieces hlast,
      pieces_of_notMem hname.noSlash hname.nonempty]
  have hres := resolvePath_buf hI.toTreeInv hc false (fs.files n).name
  rw [hcstr, hrel, hcopy, if_neg (by omega), hheard, startDir, if_neg hhead] at hres
  have hfits : false = true → ∀ name ∈ [(fs.files n).name], name.length ≤ 31 := by simp
  obtain ⟨r, hr, hwalk⟩ := resolved_walkedTo fs cwd hfits
  refine ⟨r, hres.trans hr, ?_⟩
  rw [hwalk.inode, walk, follow, if_neg hname.notDot, if_neg hname.notDotDot]

theorem ramfsFstat_eq_iff {cur : Pcb} {cwd : ℕ} (hcwd : cur.cwdInode = cwd) (hc : fs.IsDir cwd)
    (hroot : (fs.files 0).name = []) {fd : ℤ} {f n : ℕ} (hf : fdFile cur fd = some f)
    (hnode : (fs.globalFileTable f).node = some n) (buf : ℕ → UInt8) :
    fs.ramfsFstat cur fd buf = some (0, fs.storeStat n buf) ↔ fs.NamedIn cwd n := by
  obtain ⟨hn, -⟩ := hI.handles f n hnode
  have hstat : fs.ramfsFstat cur fd buf = fs.ramfsStat cur (some (fs.files n).name) buf := by
    unfold ramfsFstat
    rw [hf]
    dsimp only
    rw [hnode, Option.bind_some]
  rw [hstat]
  unfold NamedIn
  split_ifs with h0
  · subst h0
    have hres : fs.resolvePath cur.cwdInode false (some (fs.files 0).name)
        = some ⟨cwd, some (fs.node cwd).parentIdx, none⟩ := by
      rw [hcwd, hroot]
      rfl
    have hi : ∀ j ∈ some cwd, fs.Used j := fun j hj => Option.some.inj hj ▸ hc.1
    rw [ramfsStat_eq_iff hres rfl hi hn buf, Option.some.injEq]
  · obtain ⟨r, hr, hi⟩ := resolvePath_nodeName hI hc h0 hn
    have hchild : ∀ j ∈ fs.childNamed cwd (fs.files n).name, fs.Used j :=
      fun j hj => ((childNamed_eq_some hI.toTreeInv).mp hj).1.1
    rw [ramfsStat_eq_iff (hcwd ▸ hr) hi hchild hn buf, childNamed_eq_some hI.toTreeInv]
    exact ⟨fun hc => hc.1.2, fun hp => ⟨⟨hn, hp⟩, rfl⟩⟩

theorem ramfsStat_absPath_iff {n : ℕ} (hn : fs.Used n) (cur : Pcb) (rest : List UInt8)
    (buf : ℕ → UInt8) :
    fs.ramfsStat cur (some (fs.absPath n ++ 0 :: rest)) buf = some (0, fs.storeStat n buf)
      ↔ (fs.absPath n).length ≤ 128 := by
  obtain ⟨r, hr, hi, hu⟩ := resolvePath_absPath hI hn cur.cwdInode rest
  rw [ramfsStat_eq_iff hr hi hu hn buf, walk_heard_iff hI hn]

/-- `fstat` describes the open file, as `stat` does by the absolute path. -/
structure Described (fs : Ramfs) (cur : Pcb) (fd : ℤ) (n : ℕ) : Prop where
  fstat : ∀ buf, fs.ramfsFstat cur fd buf = some (0, fs.storeStat n buf)
  stat : ∀ rest buf, fs.ramfsStat cur (some (fs.absPath n ++ 0 :: rest)) buf
    = fs.ramfsFstat cur fd buf

theorem described_iff {cur : Pcb} {cwd : ℕ} (hcwd : cur.cwdInode = cwd) (hc : fs.IsDir cwd)
    (hroot : (fs.files 0).name = []) {fd : ℤ} {f n : ℕ} (hf : fdFile cur fd = some f)
    (hnode : (fs.globalFileTable f).node = some n) :
    Described fs cur fd n ↔ fs.NamedIn cwd n ∧ (fs.absPath n).length ≤ 128 := by
  have hfstat := ramfsFstat_eq_iff hI hcwd hc hroot hf hnode
  have hstat := ramfsStat_absPath_iff hI (hI.handles f n hnode).1 cur
  constructor
  · intro h
    have hf := h.fstat fun _ => 0
    exact ⟨(hfstat _).mp hf, (hstat [] _).mp ((h.stat [] _).trans hf)⟩
  · rintro ⟨hn, hlen⟩
    refine ⟨fun buf => (hfstat buf).mpr hn, fun rest buf => ?_⟩
    rw [(hstat rest buf).mpr hlen, (hfstat buf).mpr hn]

end Stat

end Ramfs

namespace Sys

theorem step_rootName (s : Sys) (e : ℕ × SysOp) (s' : Sys)
    (hI : SysInv s ∧ (s.fs.files 0).name = []) (h : s.step e = some s') :
    SysInv s' ∧ (s'.fs.files 0).name = [] := by
  refine ⟨step_inv s e s' hI.1 h, ?_⟩
  obtain ⟨-, ⟨fs', cur', hs, -, rfl⟩ | ⟨hfs, -⟩ | ⟨code, -, rfl⟩ | ⟨q, -, -, rfl⟩⟩ :=
    step_cases hI.1 h
  · exact (hs.nodes.keeps hI.1.fsOk.root.1.1).name.trans hI.2
  · rw [hfs]
    exact hI.2
  · exact hI.2
  · exact hI.2

/-- In every reachable state `ramfs_fstat` describes the inode of an open descriptor exactly when
that is an entry of the caller's directory, or both are the root, and `ramfs_stat` agrees on its
absolute path when that has at most 128 bytes. -/
theorem fstat_describes (s₀ : Sched) (idle : ℕ) (ops : List (ℕ × SysOp)) {s₁ : Sched}
    {s : Sys} (hinit : s₀.procInit idle = some s₁) (h : Run.run step (start s₁) ops = some s)
    {p : ℕ} (hp : p ∈ s.procList) {fd : ℤ} {f : ℕ} (hf : Ramfs.fdFile (s.pcb p) fd = some f) :
    ∃ cwd n : ℕ, (s.pcb p).cwdInode = cwd ∧ (s.fs.globalFileTable f).node = some n
      ∧ (∀ buf, s.fs.ramfsFstat (s.pcb p) fd buf = some (0, s.fs.storeStat n buf)
        ↔ s.fs.NamedIn cwd n)
      ∧ (Ramfs.Described s.fs (s.pcb p) fd n
        ↔ s.fs.NamedIn cwd n ∧ (s.fs.absPath n).length ≤ 128) := by
  have hI : SysInv s ∧ (s.fs.files 0).name = [] :=
    Run.run_invariant step_rootName ⟨start_inv hinit, rfl⟩ h
  obtain ⟨cwd, hcwd, hdir⟩ := hI.1.cwds p hp
  obtain ⟨-, -, -, hnode⟩ := hI.1.fds.opens p hp _ f (Ramfs.fdFile_cases hf).2
  obtain ⟨n, hn⟩ := Option.ne_none_iff_exists'.mp hnode
  exact ⟨cwd, n, hcwd, hn, Ramfs.ramfsFstat_eq_iff hI.1.fsOk hcwd hdir hI.2 hf hn,
    Ramfs.described_iff hI.1.fsOk hcwd hdir hI.2 hf hn⟩

/-- A process opens a file by a path. -/
def openPathOps (path : List UInt8) : List (ℕ × SysOp) :=
  [(1, .createUserProcess [] (ProcSys.attemptAt 2)), (2, .call (.open (some path) 64#32 true))]

theorem fstat_describes_openPathOps :
    ∃ s₁ s, Sched.boot.procInit 1 = some s₁
      ∧ Run.run step (start s₁) (openPathOps (ascii "/init")) = some s
      ∧ Ramfs.Described s.fs (s.pcb 2) 3 1 := by
  have h : ((Sched.boot.procInit 1).bind fun s =>
      Run.run step (start s) (openPathOps (ascii "/init"))).map
      (fun s => (s.procList, (s.pcb 2).cwdInode, Ramfs.fdFile (s.pcb 2) 3,
        (s.fs.globalFileTable 0).node, (s.fs.files 1).parentIdx, (s.fs.absPath 1).length))
        = some ([2, 1], 0, some 0, some 1, 0, 5) := by
    decide +kernel
  obtain ⟨s₁, s, h₁, hr, he⟩ := Run.exists_of_eval h
  simp only [Prod.mk.injEq] at he
  obtain ⟨hl, hc, hf, hnode, hpar, hlen⟩ := he
  obtain ⟨cwd, n, hcwd, hn, -, hd⟩ := fstat_describes Sched.boot 1
    (openPathOps (ascii "/init")) h₁ hr (by simp [hl] : 2 ∈ s.procList) hf
  obtain rfl := Option.some.inj (hn.symm.trans hnode)
  obtain rfl : cwd = 0 := by omega
  refine ⟨s₁, s, h₁, hr, hd.mpr ⟨?_, by omega⟩⟩
  unfold Ramfs.NamedIn
  rw [if_neg (by omega), hpar]
  rfl

/-- The file is not in the caller's directory. -/
theorem fstat_describes_elsewhere :
    ∃ s₁ s, Sched.boot.procInit 1 = some s₁
      ∧ Run.run step (start s₁) (openPathOps (ascii "/usr/shell.c")) = some s
      ∧ 2 ∈ s.procList ∧ Ramfs.fdFile (s.pcb 2) 3 = some 0
      ∧ (s.fs.globalFileTable 0).node = some 5
      ∧ (s.fs.ramfsFstat (s.pcb 2) 3 fun _ => 0).map Prod.fst = some (-1)
      ∧ ¬ Ramfs.Described s.fs (s.pcb 2) 3 5 := by
  have h : ((Sched.boot.procInit 1).bind fun s =>
      Run.run step (start s) (openPathOps (ascii "/usr/shell.c"))).map
      (fun s => (s.procList, Ramfs.fdFile (s.pcb 2) 3, (s.fs.globalFileTable 0).node,
        (s.fs.ramfsFstat (s.pcb 2) 3 fun _ => 0).map Prod.fst))
        = some ([2, 1], some 0, some 5, some (-1)) := by
    decide +kernel
  obtain ⟨s₁, s, h₁, hr, he⟩ := Run.exists_of_eval h
  simp only [Prod.mk.injEq] at he
  obtain ⟨hl, hf, hnode, hstat⟩ := he
  refine ⟨s₁, s, h₁, hr, by simp [hl], hf, hnode, hstat, fun hd => ?_⟩
  rw [hd.fstat] at hstat
  cases hstat

end Sys

end SudoOS
