import SudoOS.Proofs.Transfers

/-!
# Reading back what was written

`ramfs_write` returns how much it could store, whether the inode has a buffer to store it in or not.
Where it has one, the bytes are there for whoever opens the file again; `ramfs_init(0, 0)` gives
`/init` none (`write_then_read`).
-/

namespace SudoOS

open ByteFile

namespace Ramfs

section Reopen

variable {fs fs' : Ramfs} (hI : FsOk fs) {cur cur' : Pcb} {fd : ℤ} {f n : ℕ}

include hI

/-- A file opened again is as it was, with the new open file at its start. -/
theorem ramfsOpen_again (hc : fs.DirIdx cur.cwdInode) (hn : fs.Used n)
    {path : Option (List UInt8)} {flags : BitVec 32} {mem : Bool}
    (h : fs.ramfsOpen cur path flags mem = some (fd, fs', cur')) (hfd : 0 ≤ fd)
    (hf : fdFile cur' fd = some f) (hnode : (fs'.globalFileTable f).node = some n)
    (hlen : cur.fdTable.length = maxFd) :
    FsOk fs' ∧ (fs'.globalFileTable f).offset = 0 ∧ fs'.files n = fs.files n := by
  have hok := (ramfsOpen_step hI hc h).fsOk hI (ramfsOpen_ok hI.toTreeInv hc h).tree
  obtain ⟨r, -, he⟩ := ramfsOpen_ends h
  cases he with
  | noInode hn => exact absurd hfd (by decide)
  | noFile m _ hm hf => exact absurd hfd (by decide)
  | noFd m g fs₁ fs₂ hm hg hi => exact absurd hfd (by decide)
  | opened m g i fs₁ fs₂ hm hg hi =>
    obtain ⟨-, hlt, -⟩ := freeFd_cases hi
    have hgf : g = f := by
      have := (fdFile_cases hf).2
      dsimp only at this
      rw [Int.toNat_natCast, Sys.getD_set (by omega), if_pos rfl] at this
      exact Option.some.inj this
    subst hgf
    rw [setFile_self] at hnode ⊢
    obtain rfl : m = n := Option.some.inj hnode
    refine ⟨hok, rfl, ?_⟩
    rcases openInode_cases hm with ⟨-, -, rfl⟩ | ⟨-, -, hcr⟩
    · rfl
    · -- The inode was there, so it is not a new one.
      exact absurd hn (createInode_adds hcr).1.fresh.2

/-- A read from the start that goes up to the size at most. -/
theorem ramfsRead_front (hf : fdFile cur fd = some f)
    (hnode : (fs.globalFileTable f).node = some n) (ho : (fs.globalFileTable f).offset = 0)
    (hdir : (fs.files n).type ≠ .dir) {bytes : List UInt8} (hb : (fs.files n).content = some bytes)
    {k : ℕ} (hk : 0 < k) (hsize : k ≤ (fs.files n).size) :
    ∃ fs', fs.ramfsRead cur fd (BitVec.ofNat 32 k) = some ((k : ℤ), bytes.take k, fs') := by
  obtain ⟨hu, -⟩ := hI.handles f n hnode
  have hle := (hI.nodes n hu).size_le
  have hint : (BitVec.ofNat 32 k).toInt = k := toInt32_of_lt (by omega)
  have hlen := readLen_of_nonneg hle (Nat.zero_le _) (by omega : 0 ≤ (BitVec.ofNat 32 k).toInt)
  rw [hint, Int.toNat_natCast, Nat.sub_zero, Nat.min_eq_left hsize] at hlen
  unfold ramfsRead
  rw [hf]
  dsimp only
  rw [hnode, Option.bind_some, if_neg hdir, ho, if_neg (by omega), hlen, if_pos (by omega), hb]
  exact ⟨_, rfl⟩

/-- What a write puts into the buffer of an inode. -/
theorem ramfsWrite_stored (hf : fdFile cur fd = some f)
    (hnode : (fs.globalFileTable f).node = some n) (hdir : (fs.files n).type ≠ .dir)
    {bytes : List UInt8} (hb : (fs.files n).content = some bytes) {buf : ℕ → UInt8} {c : BitVec 32}
    (hc : 0 < c.toInt) {ret : ℤ} (h : fs.ramfsWrite cur fd buf c = some (ret, fs')) :
    ∃ k : ℕ, ret = k ∧ (fs'.files n).content
        = some (overwrite bytes ((List.range k).map buf) (fs.globalFileTable f).offset)
      ∧ (fs.globalFileTable f).offset + k ≤ (fs'.files n).size ∧ (fs'.files n).type ≠ .dir := by
  obtain ⟨hu, -⟩ := hI.handles f n hnode
  obtain ⟨b, hrep⟩ := exists_represents hI hu hdir (by simp [hb])
  have hw := ramfsWrite_eq hrep hI hf hnode hc.le buf rfl hb
  obtain ⟨k, hk⟩ : ∃ k, k = (b.write f ((List.range c.toInt.toNat).map buf)).1 := ⟨_, rfl⟩
  have hkc : k ≤ c.toInt.toNat := by
    rw [hk]
    simp [ByteFile.write, room]
  have hdata : ((List.range c.toInt.toNat).map buf).take k = (List.range k).map buf := by
    rw [← List.map_take, List.take_range, Nat.min_eq_left hkc]
  rw [h, ← hk, hdata, Option.some.injEq, Prod.mk.injEq] at hw
  refine ⟨k, hw.1, ?_⟩
  rw [hw.2]
  refine ⟨by simp [setNode], ?_, ?_⟩
  · simp [setNode]
  · simpa [setNode] using hdir

theorem ramfsWrite_no_content (hf : fdFile cur fd = some f)
    (hnode : (fs.globalFileTable f).node = some n) (hb : (fs.files n).content = none)
    {buf : ℕ → UInt8} {c : BitVec 32} {ret : ℤ}
    (h : fs.ramfsWrite cur fd buf c = some (ret, fs')) : fs' = fs := by
  rcases ramfsWrite_cases h with ⟨rfl, -, -⟩ | ⟨g, m, hg, hm, -, hcontent, -⟩
  · rfl
  · obtain rfl := Option.some.inj (hf.symm.trans hg)
    obtain rfl := Option.some.inj (hnode.symm.trans hm)
    exact absurd hb hcontent

omit hI in
/-- What a read from the start of a file without a buffer comes to. -/
theorem ramfsRead_no_content (hf : fdFile cur fd = some f)
    (hnode : (fs.globalFileTable f).node = some n) (hb : (fs.files n).content = none)
    {c : BitVec 32} {ret : ℤ} {data : List UInt8}
    (h : fs.ramfsRead cur fd c = some (ret, data, fs')) : data = [] := by
  cases ramfsRead_ends h with
  | noFile => rfl
  | dir => rfl
  | atEnd => rfl
  | nothing => rfl
  | read g m bytes hg hm _ _ _ hbytes =>
    obtain rfl := Option.some.inj (hf.symm.trans hg)
    obtain rfl := Option.some.inj (hnode.symm.trans hm)
    rw [hb] at hbytes
    cases hbytes

end Reopen

/-- The first `k` bytes of `buf` are read back at `offset` of the file descriptor `fd` has. -/
def ReadsBack (fs : Ramfs) (cur : Pcb) (fd : ℤ) (offset k : ℕ) (buf : ℕ → UInt8) : Prop :=
  ∃ ret data fs', fs.ramfsRead cur fd (BitVec.ofNat 32 (offset + k)) = some (ret, data, fs')
    ∧ (data.drop offset).take k = (List.range k).map buf

end Ramfs

namespace Sys

/-- In every reachable state what `ramfs_write` reports as written to a file is read back by whoever
opens the file again exactly when the file has a buffer. -/
theorem write_then_read (s₀ : Sched) (idle : ℕ) (ops : List (ℕ × SysOp)) {s₁ : Sched}
    {s : Sys} (hinit : s₀.procInit idle = some s₁) (h : Run.run step (start s₁) ops = some s)
    {p q : ℕ} (hp : p ∈ s.procList) (hq : q ∈ s.procList) {fd : ℤ} {f n : ℕ}
    (hf : Ramfs.fdFile (s.pcb p) fd = some f) (hn : (s.fs.globalFileTable f).node = some n)
    (hfile : (s.fs.files n).type ≠ .dir)
    {buf : ℕ → UInt8} {count : BitVec 32} (hcount : 0 < count.toInt) {ret : ℤ} {fs' : Ramfs}
    (hw : s.fs.ramfsWrite (s.pcb p) fd buf count = some (ret, fs')) (hret : 0 < ret)
    {path : Option (List UInt8)} {flags : BitVec 32} {mem' : Bool} {fd' : ℤ} {f' : ℕ}
    {fs'' : Ramfs} {cur : Pcb}
    (ho : fs'.ramfsOpen (s.pcb q) path flags mem' = some (fd', fs'', cur)) (hfd' : 0 ≤ fd')
    (hf' : Ramfs.fdFile cur fd' = some f') (hn' : (fs''.globalFileTable f').node = some n) :
    fs''.ReadsBack cur fd' (s.fs.globalFileTable f).offset ret.toNat buf
      ↔ (s.fs.files n).content ≠ none := by
  have hI : SysInv s := Run.run_invariant step_inv (start_inv hinit) h
  obtain ⟨hu, hoff⟩ := hI.fsOk.handles f n hn
  have hstep := Ramfs.ramfsWrite_step hI.fsOk hw
  have hcall := Ramfs.ramfsWrite_ok hI.fsOk.toTreeInv (hI.cwds p hp) hw
  have hok := hstep.fsOk hI.fsOk hcall.tree
  obtain ⟨hok'', hstart, hnode⟩ := Ramfs.ramfsOpen_again hok (hcall.dirs.dirIdx (hI.cwds q hq))
    (hstep.nodes.keeps hu).used ho hfd' hf' hn' (hI.fdLen q hq)
  rcases hb : (s.fs.files n).content with _ | bytes
  · have hb'' : (fs''.files n).content = none := by
      rw [hnode, Ramfs.ramfsWrite_no_content hI.fsOk hf hn hb hw, hb]
    refine ⟨fun hback => ?_, fun hne => absurd rfl hne⟩
    obtain ⟨_, data, _, hread, hdata⟩ := hback
    rw [Ramfs.ramfsRead_no_content hf' hn' hb'' hread] at hdata
    have := congrArg List.length hdata
    simp at this
    omega
  · obtain ⟨k, rfl, hcontent, hsize, hdir⟩ :=
      Ramfs.ramfsWrite_stored hI.fsOk hf hn hfile hb hcount hw
    rw [← hnode] at hcontent hsize hdir
    obtain ⟨fs₃, hread⟩ := Ramfs.ramfsRead_front hok'' hf' hn' hstart hdir hcontent
      (by omega : 0 < (s.fs.globalFileTable f).offset + k) hsize
    refine ⟨fun _ => by simp, fun _ => ⟨_, _, _, hread, ?_⟩⟩
    have hlen : ((List.range k).map buf).length = k := by simp
    have hpage := (hI.fsOk.nodes n hu).page bytes hb
    have hle := Ramfs.offset_le_page hI.fsOk hn hfile
    have hback := drop_take_overwrite ((List.range k).map buf) (hpage.symm ▸ hle)
    rw [hlen] at hback
    rw [List.drop_take, List.take_take, Int.toNat_natCast, Nat.add_sub_cancel_left,
      Nat.min_self, hback]

/-- Process 2 writes `hi!` to descriptor 3, opens the path again and reads three bytes: what the
calls return, the new open file and its inode. -/
def writeAndReopen (s : Sys) (path : List UInt8) :
    Option (ℤ × ℤ × Option ℕ × Option ℕ × List UInt8) :=
  (s.fs.ramfsWrite (s.pcb 2) 3 (fun i => (ascii "hi!").getD i 0) 3).bind fun w =>
    (w.2.ramfsOpen (s.pcb 2) (some path) 0 true).map fun o =>
      (w.1, o.1, Ramfs.fdFile o.2.2 o.1, (o.2.1.globalFileTable 1).node,
        ((o.2.1.ramfsRead o.2.2 o.1 3).map fun r => r.2.1).getD [])

theorem write_then_read_openPathOps :
    ∃ s₁ s fs' fs'' cur, Sched.boot.procInit 1 = some s₁
      ∧ Run.run step (start s₁) (openPathOps (ascii "/usr/shell.c")) = some s
      ∧ s.fs.ramfsWrite (s.pcb 2) 3 (fun i => (ascii "hi!").getD i 0) 3 = some (3, fs')
      ∧ fs'.ramfsOpen (s.pcb 2) (some (ascii "usr/shell.c")) 0 true = some (4, fs'', cur)
      ∧ fs''.ReadsBack cur 4 0 3 fun i => (ascii "hi!").getD i 0 := by
  have h : ((Sched.boot.procInit 1).bind fun s =>
      Run.run step (start s) (openPathOps (ascii "/usr/shell.c"))).map
      (fun s => decide (2 ∈ s.procList ∧ Ramfs.fdFile (s.pcb 2) 3 = some 0
        ∧ (s.fs.globalFileTable 0).node = some 5 ∧ (s.fs.globalFileTable 0).offset = 0
        ∧ (s.fs.files 5).type ≠ .dir ∧ (s.fs.files 5).content.isSome
        ∧ s.writeAndReopen (ascii "usr/shell.c") = some (3, 4, some 1, some 5, ascii "hi!")))
        = some true := by
    decide +kernel
  obtain ⟨s₁, s, h₁, hr, he⟩ := Run.exists_of_eval h
  obtain ⟨hp, hf, hn, hoff, hdir, hb, hre⟩ := of_decide_eq_true he
  obtain ⟨⟨ret, fs'⟩, hw, hre⟩ := Option.bind_eq_some_iff.mp hre
  obtain ⟨⟨fd', fs'', cur⟩, ho, hre⟩ := Option.map_eq_some_iff.mp hre
  simp only [Prod.mk.injEq] at hre
  obtain ⟨rfl, rfl, hf', hn', -⟩ := hre
  have hback := (write_then_read Sched.boot 1 (openPathOps (ascii "/usr/shell.c")) h₁ hr
    hp hp hf hn hdir (by decide) hw (by decide) ho (by decide) hf' hn').mpr
    (Option.isSome_iff_ne_none.mp hb)
  rw [hoff] at hback
  exact ⟨s₁, s, fs', fs'', cur, h₁, hr, hw, ho, hback⟩

/-- `/init` takes three bytes and has none. -/
theorem write_then_read_init :
    ∃ s₁ s fs' fs'' cur, Sched.boot.procInit 1 = some s₁
      ∧ Run.run step (start s₁) (openPathOps (ascii "/init")) = some s
      ∧ 2 ∈ s.procList ∧ Ramfs.fdFile (s.pcb 2) 3 = some 0
      ∧ (s.fs.globalFileTable 0).node = some 1 ∧ (s.fs.files 1).type = .file
      ∧ s.fs.ramfsWrite (s.pcb 2) 3 (fun i => (ascii "hi!").getD i 0) 3 = some (3, fs')
      ∧ fs'.ramfsOpen (s.pcb 2) (some (ascii "init")) 0 true = some (4, fs'', cur)
      ∧ Ramfs.fdFile cur 4 = some 1 ∧ (fs''.globalFileTable 1).node = some 1
      ∧ ¬ fs''.ReadsBack cur 4 0 3 fun i => (ascii "hi!").getD i 0 := by
  have h : ((Sched.boot.procInit 1).bind fun s =>
      Run.run step (start s) (openPathOps (ascii "/init"))).map
      (fun s => decide (2 ∈ s.procList ∧ Ramfs.fdFile (s.pcb 2) 3 = some 0
        ∧ (s.fs.globalFileTable 0).node = some 1 ∧ (s.fs.files 1).type = .file
        ∧ s.writeAndReopen (ascii "init") = some (3, 4, some 1, some 1, [])))
        = some true := by
    decide +kernel
  obtain ⟨s₁, s, h₁, hr, he⟩ := Run.exists_of_eval h
  obtain ⟨hp, hf, hn, htype, hre⟩ := of_decide_eq_true he
  obtain ⟨⟨ret, fs'⟩, hw, hre⟩ := Option.bind_eq_some_iff.mp hre
  obtain ⟨⟨fd', fs'', cur⟩, ho, hre⟩ := Option.map_eq_some_iff.mp hre
  simp only [Prod.mk.injEq] at hre
  obtain ⟨rfl, rfl, hf', hn', hread⟩ := hre
  refine ⟨s₁, s, fs', fs'', cur, h₁, hr, hp, hf, hn, htype, hw, ho, hf', hn', fun hback => ?_⟩
  obtain ⟨_, data, _, hread', hsame⟩ := hback
  have hthree : BitVec.ofNat 32 (0 + 3) = 3 := rfl
  rw [hthree] at hread'
  rw [hread'] at hread
  obtain rfl : data = [] := hread
  exact absurd hsame (by decide)

end Sys

end SudoOS
