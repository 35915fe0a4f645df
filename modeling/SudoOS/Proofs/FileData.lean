import SudoOS.Proofs.Sys

/-!
# Files are bounded byte arrays

An inode with a page of content and the open files on it represent a `ByteFile` of at most 4096
bytes: the first `size` bytes of the page, and the offset of each open file. `ramfs_read` and
`ramfs_write` with a count that is not negative do on the page what `read` and `write` do there, so
any sequence of such calls by any processes agrees with the byte file (`files_refine`).
-/

namespace SudoOS

open ByteFile

namespace Ramfs

/-- Inode `n` and the open files on it represent the byte file. -/
structure Represents (fs : Ramfs) (n : ℕ) (b : ByteFile ℕ UInt8 4096) : Prop where
  used : fs.Used n
  file : (fs.files n).type ≠ .dir
  page : ∃ bytes, (fs.files n).content = some bytes ∧ b.bytes = bytes.take (fs.files n).size
  offset : ∀ h, (fs.globalFileTable h).node = some n → b.offset h = (fs.globalFileTable h).offset

/-- Every file with content represents a byte file. -/
theorem exists_represents {fs : Ramfs} (hI : FsOk fs) {n : ℕ} (hu : fs.Used n)
    (hfile : (fs.files n).type ≠ .dir) (hc : (fs.files n).content ≠ none) :
    ∃ b, Represents fs n b := by
  obtain ⟨bytes, hb⟩ := Option.ne_none_iff_exists'.mp hc
  have hok := hI.nodes n hu
  have hlen : (bytes.take (fs.files n).size).length = (fs.files n).size := by
    rw [List.length_take, hok.page bytes hb, Nat.min_eq_left hok.size_le]
  refine ⟨⟨bytes.take (fs.files n).size,
    fun h => if (fs.globalFileTable h).node = some n then (fs.globalFileTable h).offset else 0,
    hlen.trans_le hok.size_le, fun h => ?_⟩, hu, hfile, ⟨bytes, hb, rfl⟩, fun h hh => if_pos hh⟩
  split_ifs with hh
  · have ho := (hI.handles h n hh).2
    rw [offsetBound, if_neg hfile] at ho
    exact ho.trans hlen.ge
  · exact Nat.zero_le _

section Spec

variable {fs : Ramfs} {cur : Pcb} {fd : ℤ} {f n : ℕ} {b : ByteFile ℕ UInt8 4096} {c : BitVec 32}

theorem Represents.size_eq (h : Represents fs n b) (hI : FsOk fs) :
    b.bytes.length = (fs.files n).size := by
  obtain ⟨bytes, hb, hbytes⟩ := h.page
  have hok := hI.nodes n h.used
  rw [hbytes, List.length_take, hok.page bytes hb, Nat.min_eq_left hok.size_le]

theorem setFile_eq_self (fs : Ramfs) (f : ℕ) : fs.setFile f (fs.globalFileTable f) = fs := by
  simp [setFile]

/-- `ramfs_read` returns what the byte file's `read` does. -/
theorem ramfsRead_eq (h : Represents fs n b) (hI : FsOk fs) (hf : fdFile cur fd = some f)
    (hn : (fs.globalFileTable f).node = some n) (hc : 0 ≤ c.toInt) :
    fs.ramfsRead cur fd c = some (((b.read f c.toInt.toNat).1.length : ℤ),
      (b.read f c.toInt.toNat).1, fs.setFile f
        { fs.globalFileTable f with offset := (b.read f c.toInt.toNat).2.offset f }) := by
  have hsize := h.size_eq hI
  have hin := b.inside f
  have ho := h.offset f hn
  have hle := b.short
  obtain ⟨bytes, hb, hbytes⟩ := h.page
  have hdata : (b.read f c.toInt.toNat).1 = (bytes.drop (fs.globalFileTable f).offset).take
      (min c.toInt.toNat ((fs.files n).size - (fs.globalFileTable f).offset)) := by
    simp only [ByteFile.read, hbytes, ho, List.drop_take, List.take_take]
  have hlen : (b.read f c.toInt.toNat).1.length
      = min c.toInt.toNat ((fs.files n).size - (fs.globalFileTable f).offset) := by
    simp only [ByteFile.read, ho, List.length_take, List.length_drop, hsize]
  have hoff : (b.read f c.toInt.toNat).2.offset f
      = (fs.globalFileTable f).offset + (b.read f c.toInt.toNat).1.length := by
    simp [ByteFile.read, ho]
  unfold ramfsRead
  rw [hf]
  simp only [hn, Option.bind_some, if_neg h.file, hb, Option.map_some]
  have hend : (fs.globalFileTable f).offset ≤ (fs.files n).size := by omega
  have hread := readLen_of_nonneg (hsize ▸ hle) hend hc
  have hself : fs.setFile f ⟨some n, (fs.globalFileTable f).offset,
      (fs.globalFileTable f).refCount⟩ = fs := by
    rw [← hn]
    exact setFile_eq_self fs f
  split_ifs with hfull hpos
  · have hz : (b.read f c.toInt.toNat).1 = [] := List.length_eq_zero_iff.mp (by omega)
    rw [hoff, hz, List.length_nil, Nat.add_zero, hself]
    rfl
  · rw [hread] at hpos ⊢
    rw [Int.toNat_natCast, u64_of_lt (by omega), hoff, hlen, hdata]
  · have hz : (b.read f c.toInt.toNat).1 = [] := List.length_eq_zero_iff.mp (by omega)
    rw [hoff, hz, List.length_nil, Nat.add_zero, hself, hread]
    simp only [Option.some.injEq, Prod.mk.injEq, and_true]
    omega

theorem setNode_eq_self (fs : Ramfs) (n : ℕ) : fs.setNode n (fs.files n) = fs := by
  simp [setNode]

/-- `ramfs_write` stores what the byte file's `write` does. -/
theorem ramfsWrite_eq (h : Represents fs n b) (hI : FsOk fs) (hf : fdFile cur fd = some f)
    (hn : (fs.globalFileTable f).node = some n) (hc : 0 ≤ c.toInt) (buf : ℕ → UInt8)
    {data : List UInt8} (hdata : data = (List.range c.toInt.toNat).map buf) {bytes : List UInt8}
    (hb : (fs.files n).content = some bytes) :
    fs.ramfsWrite cur fd buf c = some (((b.write f data).1 : ℤ),
      (fs.setFile f { fs.globalFileTable f with offset := (b.write f data).2.offset f }).setNode n
        { fs.files n with
          content :=
            some (overwrite bytes (data.take (b.write f data).1) (fs.globalFileTable f).offset)
          size :=
            max (fs.files n).size ((fs.globalFileTable f).offset + (b.write f data).1) }) := by
  have hsize := h.size_eq hI
  have hin := b.inside f
  have ho := h.offset f hn
  have hle := b.short
  have hnum : (b.write f data).1 = min c.toInt.toNat (4096 - (fs.globalFileTable f).offset) := by
    simp [ByteFile.write, room, hdata, ho]
  have hoff : (b.write f data).2.offset f = (fs.globalFileTable f).offset + (b.write f data).1 := by
    simp [ByteFile.write, ho]
  have hend : (fs.globalFileTable f).offset ≤ 4096 := by omega
  have hwrite := writeLen_of_nonneg hend hc
  have htake : data.take (b.write f data).1 = (List.range (b.write f data).1).map buf := by
    rw [hdata, ← List.map_take, List.take_range, ← hdata, hnum,
      Nat.min_eq_left (Nat.min_le_left ..)]
  rw [hoff, htake]
  unfold ramfsWrite
  rw [hf]
  simp only [hn, Option.map_some, if_neg h.file, hb]
  rw [hwrite, ← hnum, Int.toNat_natCast, u64_of_lt (by omega)]
  have hgrow : (if (fs.globalFileTable f).offset + (b.write f data).1 > (fs.files n).size then
      (fs.globalFileTable f).offset + (b.write f data).1 else (fs.files n).size)
        = max (fs.files n).size ((fs.globalFileTable f).offset + (b.write f data).1) := by
    split_ifs <;> omega
  rw [hgrow]
  split_ifs with hpos
  · simp only [overwrite, List.length_map, List.length_range]
  · have hk : (b.write f data).1 = 0 := by omega
    have hover :
        overwrite bytes ((List.range 0).map buf) (fs.globalFileTable f).offset = bytes := by
      simp [overwrite]
    have hkeep : max (fs.files n).size ((fs.globalFileTable f).offset + 0) = (fs.files n).size := by
      omega
    have hself : fs.setFile f ⟨some n, (fs.globalFileTable f).offset + 0,
        (fs.globalFileTable f).refCount⟩ = fs := by
      rw [← hn]
      exact setFile_eq_self fs f
    rw [hk, hover, hkeep, hself, ← hb]
    exact congrArg (fun x => some ((0 : ℤ), x)) (setNode_eq_self fs n).symm

end Spec

/-! ## Calls -/

/-- A call on an open file. -/
inductive FileCall
  | read (count : BitVec 32)
  | write (buf : ℕ → UInt8) (count : BitVec 32)

def FileCall.count : FileCall → BitVec 32
  | .read count => count
  | .write _ count => count

/-- What the call does to a byte file. -/
def FileCall.toOp : FileCall → ByteFile.Op UInt8
  | .read count => .read count.toInt.toNat
  | .write buf count => .write ((List.range count.toInt.toNat).map buf)

/-- The result of a call, the bytes read, and the file system. -/
def fileCall (fs : Ramfs) (cur : Pcb) (fd : ℤ) : FileCall → Option ((ℤ × List UInt8) × Ramfs)
  | .read count => (fs.ramfsRead cur fd count).map fun r => ((r.1, r.2.1), r.2.2)
  | .write buf count => (fs.ramfsWrite cur fd buf count).map fun r => ((r.1, []), r.2)

/-- Everything but inode `n` and the offsets of the open files on it is the same. -/
structure OnlyFile (fs fs' : Ramfs) (n : ℕ) : Prop where
  node : ∀ h, (fs'.globalFileTable h).node = (fs.globalFileTable h).node
  table : ∀ h, (fs.globalFileTable h).node ≠ some n → fs'.globalFileTable h = fs.globalFileTable h
  files : ∀ m, m ≠ n → fs'.files m = fs.files m

theorem OnlyFile.trans {fs fs' fs'' : Ramfs} {n : ℕ} (h : OnlyFile fs fs' n)
    (h' : OnlyFile fs' fs'' n) : OnlyFile fs fs'' n where
  node f := (h'.node f).trans (h.node f)
  table f hf := (h'.table f (by rw [h.node]; exact hf)).trans (h.table f hf)
  files m hm := (h'.files m hm).trans (h.files m hm)

theorem onlyFile_setFile {fs : Ramfs} {f n : ℕ} (hn : (fs.globalFileTable f).node = some n)
    (offset : ℕ) : OnlyFile fs (fs.setFile f { fs.globalFileTable f with offset := offset }) n := by
  refine ⟨fun h => ?_, fun h hh => ?_, fun m _ => rfl⟩
  · by_cases hf : h = f
    · simp [setFile, hf]
    · simp [setFile, Function.update_of_ne hf]
  · have hf : h ≠ f := by
      intro he
      exact hh (he ▸ hn)
    simp [setFile, Function.update_of_ne hf]

section Refines

variable {fs : Ramfs} {n : ℕ} {b : ByteFile ℕ UInt8 4096} (h : Represents fs n b) (hI : FsOk fs)
  {cur : Pcb} {fd : ℤ} {f : ℕ} (hf : fdFile cur fd = some f)
  (hn : (fs.globalFileTable f).node = some n) {c : BitVec 32} (hc : 0 ≤ c.toInt)

include h hI hf hn hc

theorem ramfsRead_refines :
    ∃ fs', fs.ramfsRead cur fd c
        = some (((b.read f c.toInt.toNat).1.length : ℤ), (b.read f c.toInt.toNat).1, fs')
      ∧ Represents fs' n (b.read f c.toInt.toNat).2 ∧ OnlyFile fs fs' n := by
  refine ⟨_, ramfsRead_eq h hI hf hn hc, ⟨h.used, h.file, h.page, fun g hg => ?_⟩,
    onlyFile_setFile hn _⟩
  by_cases hgf : g = f
  · simp [setFile, hgf]
  · simp only [setFile, Function.update_of_ne hgf] at hg ⊢
    simpa [ByteFile.read, Function.update_of_ne hgf] using h.offset g hg

theorem ramfsWrite_refines (buf : ℕ → UInt8) {data : List UInt8}
    (hdata : data = (List.range c.toInt.toNat).map buf) :
    ∃ fs', fs.ramfsWrite cur fd buf c = some (((b.write f data).1 : ℤ), fs')
      ∧ Represents fs' n (b.write f data).2 ∧ OnlyFile fs fs' n := by
  obtain ⟨bytes, hb, hbytes⟩ := h.page
  have hok := hI.nodes n h.used
  have hsize : (fs.files n).size ≤ bytes.length := hok.size_le.trans (hok.page bytes hb).ge
  have hoff := (hI.handles f n hn).2
  rw [offsetBound, if_neg h.file] at hoff
  have htake : (data.take (b.write f data).1).length = (b.write f data).1 := by
    rw [List.length_take]
    exact Nat.min_eq_left (Nat.min_le_left ..)
  have hpage : (b.write f data).2.bytes
      = (overwrite bytes (data.take (b.write f data).1) (fs.globalFileTable f).offset).take
        (max (fs.files n).size ((fs.globalFileTable f).offset + (b.write f data).1)) := by
    have hover := take_overwrite (data.take (b.write f data).1) hoff hsize
    rw [htake] at hover
    rw [hover, ← hbytes, ← h.offset f hn]
    rfl
  refine ⟨_, ramfsWrite_eq h hI hf hn hc buf hdata hb,
    ⟨?_, ?_, ⟨overwrite bytes (data.take (b.write f data).1) (fs.globalFileTable f).offset, ?_, ?_⟩,
      fun g hg => ?_⟩, ?_⟩
  · simpa [Used, setNode, setFile] using h.used
  · simpa [setNode, setFile] using h.file
  · simp only [setNode, Function.update_self]
  · simpa [setNode, setFile] using hpage
  · by_cases hgf : g = f
    · simp [setNode, setFile, hgf]
    · simp only [setNode, setFile, Function.update_of_ne hgf] at hg ⊢
      simpa [ByteFile.write, Function.update_of_ne hgf] using h.offset g hg
  · obtain ⟨h1, h2, -⟩ := onlyFile_setFile hn ((b.write f data).2.offset f)
    exact ⟨h1, h2, fun m hm => by simp [setNode, setFile, Function.update_of_ne hm]⟩

end Refines

/-- One call agrees with the byte file and leaves everything else alone. -/
theorem fileCall_refines {fs : Ramfs} {n : ℕ} {b : ByteFile ℕ UInt8 4096} (h : Represents fs n b)
    (hI : FsOk fs) {cur : Pcb} {fd : ℤ} {f : ℕ} (hf : fdFile cur fd = some f)
    (hn : (fs.globalFileTable f).node = some n) (c : FileCall) (hc : 0 ≤ c.count.toInt) :
    ∃ fs', fs.fileCall cur fd c = some ((b.apply f c.toOp).1, fs')
      ∧ Represents fs' n (b.apply f c.toOp).2 ∧ OnlyFile fs fs' n := by
  cases c with
  | read count =>
    obtain ⟨fs', he, hr⟩ := ramfsRead_refines h hI hf hn hc
    simp only [FileCall.count] at he
    exact ⟨fs', by rw [fileCall, he]; rfl, hr⟩
  | write buf count =>
    obtain ⟨fs', he, hr⟩ := ramfsWrite_refines h hI hf hn hc buf rfl
    simp only [FileCall.count] at he
    exact ⟨fs', by rw [fileCall, he]; rfl, hr⟩

end Ramfs

namespace Sys

/-- A call by process `p` on its descriptor `fd`. -/
structure FileEvent where
  p : ℕ
  fd : ℤ
  call : Ramfs.FileCall

/-- The calls one after the other, with their results. -/
def fileRun (s : Sys) : List FileEvent → Option (List (ℤ × List UInt8) × Sys)
  | [] => some ([], s)
  | e :: es =>
    (s.fs.fileCall (s.pcb e.p) e.fd e.call).bind fun r =>
      ((s.called e.p r.2 (s.pcb e.p)).fileRun es).map fun t => (r.1 :: t.1, t.2)

/-- The open file the call uses. -/
def handle (s : Sys) (e : FileEvent) : ℕ := (Ramfs.fdFile (s.pcb e.p) e.fd).getD 0

/-- The call is made by a process that has not exited, on a descriptor open on inode `n`, with a
count that is not negative. -/
structure OnFile (s : Sys) (n : ℕ) (e : FileEvent) : Prop where
  runs : s.Runs e.p
  opened : Ramfs.fdFile (s.pcb e.p) e.fd = some (s.handle e)
  node : (s.fs.globalFileTable (s.handle e)).node = some n
  count : 0 ≤ e.call.count.toInt

theorem OnFile.called {s : Sys} {n : ℕ} {e e' : FileEvent} (h : OnFile s n e') {fs' : Ramfs}
    (ho : Ramfs.OnlyFile s.fs fs' n) : OnFile (s.called e.p fs' (s.pcb e.p)) n e' := by
  have hh : (s.called e.p fs' (s.pcb e.p)).handle e' = s.handle e' := by
    unfold handle
    rw [called_pcb_self]
  refine ⟨⟨h.runs.1, ?_⟩, ?_, ?_, h.count⟩
  · rw [called_pcb_self]
    exact h.runs.2
  · rw [called_pcb_self, hh]
    exact h.opened
  · rw [hh]
    exact (ho.node _).trans h.node

theorem fileCall_step {s : Sys} (hI : SysInv s) {p : ℕ} (hp : p ∈ s.procList) {fd : ℤ}
    {c : Ramfs.FileCall} {r : ℤ × List UInt8} {fs' : Ramfs}
    (h : s.fs.fileCall (s.pcb p) fd c = some (r, fs')) : SysInv (s.called p fs' (s.pcb p)) := by
  have hcwd := hI.cwds p hp
  cases c with
  | read count =>
    obtain ⟨⟨ret, data, fs₁⟩, hr, he⟩ := Option.map_eq_some_iff.mp h
    obtain rfl := (Prod.mk.inj he).2
    exact called_inv hI hp (Ramfs.ramfsRead_step hI.fsOk hr)
      (Ramfs.ramfsRead_ok hI.fsOk.toTreeInv hcwd hr)
  | write buf count =>
    obtain ⟨⟨ret, fs₁⟩, hr, he⟩ := Option.map_eq_some_iff.mp h
    obtain rfl := (Prod.mk.inj he).2
    exact called_inv hI hp (Ramfs.ramfsWrite_step hI.fsOk hr)
      (Ramfs.ramfsWrite_ok hI.fsOk.toTreeInv hcwd hr)

/-- What the calls do to the byte file. -/
def fileOps (s : Sys) (es : List FileEvent) : List (ℕ × ByteFile.Op UInt8) :=
  es.map fun e => (s.handle e, e.call.toOp)

theorem fileRun_refines {n : ℕ} : ∀ (es : List FileEvent) {s : Sys} {b : ByteFile ℕ UInt8 4096},
    SysInv s → Ramfs.Represents s.fs n b → (∀ e ∈ es, OnFile s n e) →
      ∃ s', s.fileRun es = some ((b.run (s.fileOps es)).1, s') ∧ SysInv s'
        ∧ Ramfs.Represents s'.fs n (b.run (s.fileOps es)).2 ∧ Ramfs.OnlyFile s.fs s'.fs n
  | [], s, b, hI, hb, _ => ⟨s, rfl, hI, hb, fun _ => rfl, fun _ _ => rfl, fun _ _ => rfl⟩
  | e :: es, s, b, hI, hb, hall => by
    have he := hall e List.mem_cons_self
    obtain ⟨fs', hcall, hb', ho⟩ :=
      Ramfs.fileCall_refines hb hI.fsOk he.opened he.node e.call he.count
    have hI' := fileCall_step hI he.runs.1 hcall
    obtain ⟨s', hrun, hI'', hb'', ho'⟩ := fileRun_refines es hI' hb' fun e' he' =>
      (hall e' (List.mem_cons_of_mem _ he')).called (e := e) ho
    have hops : (s.called e.p fs' (s.pcb e.p)).fileOps es = s.fileOps es := by
      unfold fileOps handle
      simp only [called_pcb_self]
    rw [hops] at hrun hb''
    refine ⟨s', ?_, hI'', hb'', ho.trans ho'⟩
    rw [fileRun, hcall]
    simp only [Option.bind_some, hrun, Option.map_some]
    rfl

/-- In every reachable state a regular file with content is a byte file of at most 4096 bytes with
an offset for each open file, and any reads and writes on it agree with the byte file and leave all
other files and their offsets alone. -/
theorem files_refine (s₀ : Sched) (idle : ℕ) (ops : List (ℕ × SysOp)) {s₁ : Sched}
    {s : Sys} (hinit : s₀.procInit idle = some s₁) (h : Run.run step (start s₁) ops = some s)
    {n : ℕ} (hu : s.fs.Used n) (hfile : (s.fs.files n).type = .file)
    (hcontent : (s.fs.files n).content ≠ none) :
    ∃ b : ByteFile ℕ UInt8 4096, Ramfs.Represents s.fs n b ∧ ∀ es, (∀ e ∈ es, OnFile s n e) →
      ∃ s', s.fileRun es = some ((b.run (s.fileOps es)).1, s')
        ∧ Ramfs.Represents s'.fs n (b.run (s.fileOps es)).2 ∧ Ramfs.OnlyFile s.fs s'.fs n
        ∧ (s'.fs.files n).size ≤ 4096
        ∧ ∀ f, (s'.fs.globalFileTable f).node = some n →
          (s'.fs.globalFileTable f).offset ≤ (s'.fs.files n).size := by
  have hI : SysInv s := Run.run_invariant step_inv (start_inv hinit) h
  have hdir : (s.fs.files n).type ≠ .dir := by simp [hfile]
  obtain ⟨b, hb⟩ := Ramfs.exists_represents hI.fsOk hu hdir hcontent
  refine ⟨b, hb, fun es hall => ?_⟩
  obtain ⟨s', hrun, hI', hb', ho⟩ := fileRun_refines es hI hb hall
  refine ⟨s', hrun, hb', ho, (hI'.fsOk.nodes n hb'.used).size_le, fun f hf => ?_⟩
  have hoff := (hI'.fsOk.handles f n hf).2
  rwa [Ramfs.offsetBound, if_neg hb'.file] at hoff

/-- A process opens a new file twice. -/
def twoHandles : List (ℕ × SysOp) :=
  [(1, .createUserProcess [] (ProcSys.attemptAt 2)),
    (2, .call (.open (some (ascii "a")) 64#32 true)),
    (2, .call (.open (some (ascii "a")) 0#32 true))]

/-- It writes through one descriptor and reads through the other. -/
def writeRead : List FileEvent :=
  [⟨2, 3, .write (fun i => UInt8.ofNat (65 + i)) 3#32⟩, ⟨2, 4, .read 2#32⟩]

theorem files_refine_twoHandles :
    ∃ s₁ s, Sched.boot.procInit 1 = some s₁ ∧ Run.run step (start s₁) twoHandles = some s
      ∧ ∃ (b : ByteFile ℕ UInt8 4096) (s' : Sys), Ramfs.Represents s.fs 7 b
        ∧ s.fileRun writeRead = some ([(3, []), (2, [65, 66])], s')
        ∧ (b.run (s.fileOps writeRead)).1 = [(3, []), (2, [65, 66])] := by
  have h : ((Sched.boot.procInit 1).bind fun s => Run.run step (start s) twoHandles).map
      (fun s => (decide (s.Runs 2 ∧ s.fs.Used 7 ∧ (s.fs.files 7).type = .file
        ∧ (s.fs.files 7).content.isSome), [Ramfs.fdFile (s.pcb 2) 3, Ramfs.fdFile (s.pcb 2) 4,
          (s.fs.globalFileTable 0).node, (s.fs.globalFileTable 1).node]))
      = some (true, [some 0, some 1, some 7, some 7]) := by
    decide +kernel
  have hres : ((Sched.boot.procInit 1).bind fun s => Run.run step (start s) twoHandles).bind
      (fun s => (s.fileRun writeRead).map Prod.fst) = some [(3, []), (2, [65, 66])] := by
    decide +kernel
  obtain ⟨s, hs, he⟩ := Option.map_eq_some_iff.mp h
  obtain ⟨s₁, h₁, hr⟩ := Option.bind_eq_some_iff.mp hs
  simp only [Prod.mk.injEq, decide_eq_true_eq, List.cons.injEq] at he
  obtain ⟨⟨hrun, hu, ht, hc⟩, hf3, hf4, hn0, hn1, -⟩ := he
  have hon : ∀ e ∈ writeRead, OnFile s 7 e := by
    intro e he
    rcases List.mem_pair.mp he with rfl | rfl
    · refine ⟨hrun, ?_, ?_, by decide⟩ <;> simp [handle, hf3, hn0]
    · refine ⟨hrun, ?_, ?_, by decide⟩ <;> simp [handle, hf4, hn1]
  obtain ⟨b, hb, hall⟩ := files_refine Sched.boot 1 twoHandles h₁ hr (n := 7)
    hu ht (Option.isSome_iff_ne_none.mp hc)
  obtain ⟨s', hfr, -⟩ := hall writeRead hon
  rw [hs, Option.bind_some, hfr, Option.map_some, Option.some.injEq] at hres
  exact ⟨s₁, s, h₁, hr, b, s', hb, hres ▸ hfr, hres⟩

end Sys

end SudoOS
