import MCertiKOS.FileSystem.FileRefs

/-!
# Processes that wait for pipes

The system calls of `kern/fs/sysfile.c` as processes make them, with the places where they sleep on a pipe:
`sys_read` and `sys_write` with `file_read` and `file_write`, and `sys_exit` as the sequence of closes that it is.
Between two sleeps a call is one step; a process that was woken goes on with the test of the loop it slept in.

What the console and the inode layer deliver to a read is an input of the step. Three histories are kept for each
process: the bytes its reads returned, the bytes its writes stored in pipes, and those they showed on the console.

No wakeup is lost: a process that sleeps on `&p->nread` sleeps on an empty pipe whose write end is open, and one that
sleeps on `&p->nwrite` on a full pipe whose read end is open (`Kernel.Inv`).
-/

namespace MCertiKOS.FileSystem

open Library Memory Thread
open Function (update update_eq_self_iff update_of_ne update_self)

variable {ι : Type*}

/-! ### Reading and writing -/

/-- Where a segment of a read ends. -/
inductive ReadSeg where
  /-- It returns. -/
  | ret (r : ℤ) (bytes : List UInt8)
  /-- It sleeps on `&p->nread`. -/
  | sleep (k : Fin NPIPE)

/-- Where a segment of a write ends, with the bytes it stored in a pipe or showed on the console. -/
inductive WriteSeg where
  /-- It returns. -/
  | ret (r : ℤ) (stored shown : List UInt8)
  /-- It sleeps on `&p->nwrite`. -/
  | sleep (k : Fin NPIPE) (stored rest : List UInt8)

namespace Files

/-- A segment of `pipe_read`. -/
def pipeReadSeg (s : Files ι) (k : Fin NPIPE) (n : ℕ) : Files ι × List (FileCall ι) × ReadSeg :=
  match pipeRead n (s.pipe k) with
  | none => (s, [], .sleep k)
  | some (p, bytes) => (s.setPipe k p, [.wakeup k .nwrite], .ret bytes.length bytes)

/-- A segment of `pipe_write` of `n` bytes, of which `bytes` are left. -/
def pipeWriteSeg (s : Files ι) (k : Fin NPIPE) (n : ℕ) (bytes : List UInt8) :
    Files ι × List (FileCall ι) × WriteSeg :=
  let r := pipeWriteRun bytes (s.pipe k)
  let stored := bytes.take (bytes.length - r.2.rest.length)
  match r.2 with
  | .done => (s.setPipe k r.1, [.wakeup k .nread], .ret n stored [])
  | .broken _ => (s.setPipe k r.1, [], .ret (-1) stored [])
  | .sleep rest => (s.setPipe k r.1, [.wakeup k .nread], .sleep k stored rest)

/-- The checks of `sys_read` and `sys_write`, and the file they come to. -/
def ioFile (s : Files ι) (pid fd : ℕ) (userBuf : UInt32) (n : ℕ) : Option (Fin NFILE) :=
  if userBuf < VM_USERLO ∨ VM_USERHI < userBuf + UInt32.ofNat n ∨ 4096 < n then none
  else (s.lookup pid fd).filter fun f => ¬ ((s.file f).type = .inode ∧ (s.file f).ip.isNone)

/-- `file_read`; `input` is what `console_read` or `inode_read` deliver, `none` if they fail. -/
def fileRead (s : Files ι) (f : Fin NFILE) (n : ℕ) (input : Option (List UInt8)) :
    Except FilePanic (Files ι × List (FileCall ι) × ReadSeg) :=
  let ff := s.file f
  if ff.readable = false then .ok (s, [], .ret (-1) [])
  else
    match ff.type with
    | .pipe =>
      match ff.pipe with
      | none => .error .null
      | some k => .ok (s.pipeReadSeg k n)
    | .consoleIn =>
      match input with
      | none => .ok (s, [], .ret (-1) [])
      | some bytes => .ok (s, [], .ret bytes.length bytes)
    | .inode =>
      match input with
      | none => .ok (s, [], .ret (-1) [])
      | some bytes =>
        .ok (s.setFile f { ff with off := ff.off + UInt32.ofNat bytes.length }, [], .ret bytes.length bytes)
    | _ => .error .fileRead

/-- `file_write`; `output` is the number of bytes that the loop over `inode_write` has written when it ends. -/
def fileWrite (s : Files ι) (f : Fin NFILE) (bytes : List UInt8) (output : ℕ) :
    Except FilePanic (Files ι × List (FileCall ι) × WriteSeg) :=
  let ff := s.file f
  if ff.writable = false then .ok (s, [], .ret (-1) [] [])
  else
    match ff.type with
    | .pipe =>
      match ff.pipe with
      | none => .error .null
      | some k => .ok (s.pipeWriteSeg k bytes.length bytes)
    | .consoleOut => .ok (s, [], .ret bytes.length [] bytes)
    | .inode =>
      .ok (s.setFile f { ff with off := ff.off + UInt32.ofNat output }, [],
        .ret (if output = bytes.length then bytes.length else -1) [] [])
    | _ => .error .fileWrite

end Files

/-! ### Processes -/

/-- Where a process is. -/
inductive Place where
  /-- In its program, or in a call that does not wait for a pipe. -/
  | user
  /-- In `pipe_read` for `n` bytes, at `thread_sleep(&p->nread)`. -/
  | reading (k : Fin NPIPE) (n : ℕ) (asleep : Bool)
  /-- In `pipe_write` of `n` bytes, of which `rest` are left, at `thread_sleep(&p->nwrite)`. -/
  | writing (k : Fin NPIPE) (n : ℕ) (rest : List UInt8) (asleep : Bool)
  /-- In the loop of `sys_exit`, with these descriptors to go. -/
  | exiting (fds : List (Fin NOFILE))
  /-- `TSTATE_DEAD`. -/
  | dead
  deriving DecidableEq

/-- The kernel as far as pipes are concerned. -/
structure Kernel (ι : Type*) where
  procs : FileProcs ι
  place : ℕ → Place
  got : ℕ → List UInt8
  put : ℕ → List UInt8
  shown : ℕ → List UInt8

/-- The system calls a process makes. -/
inductive UserCall (ι : Type*) where
  /-- `sys_open`; what `create` or `namei` came to. -/
  | open (omode : BitVec 32) (ip : Except Errno ι)
  /-- `sys_pipe`. -/
  | pipe (userFdsAddr : UInt32)
  /-- `sys_close`. -/
  | close (fd : ℕ)
  /-- `sys_spawn`. -/
  | spawn (elfId : ℕ) (quota : UInt32) (stdinFd stdoutFd : ℤ)
  /-- `sys_read`. -/
  | read (fd : ℕ) (userBuf : UInt32) (n : ℕ) (input : Option (List UInt8))
  /-- `sys_write`; the bytes in the buffer. -/
  | write (fd : ℕ) (userBuf : UInt32) (bytes : List UInt8) (output : ℕ)
  /-- `sys_exit`. -/
  | exit
  /-- A call that does not concern descriptors; what it returns. -/
  | other (r : ℤ)
  deriving DecidableEq

/-- What a call returns to the program. -/
inductive Ret where
  /-- `sys_open`. -/
  | opened (r : Except Errno (Fin NOFILE))
  /-- `sys_pipe`. -/
  | piped (r : Except Errno (Fin NOFILE × Fin NOFILE))
  /-- `sys_close`. -/
  | closed (r : Errno)
  /-- `sys_spawn`. -/
  | spawned (r : Except Errno ℕ)
  /-- `sys_read`. -/
  | read (r : ℤ) (bytes : List UInt8)
  /-- `sys_write`. -/
  | wrote (r : ℤ)
  /-- Some other call. -/
  | other (r : ℤ)

/-- Whether the calls wake a channel of pipe `k`. -/
def woken (c : List (FileCall ι)) (k : Fin NPIPE) (chan : PipeChan) : Bool :=
  c.any fun
    | .wakeup k' chan' => k' = k ∧ chan' = chan
    | .inodePut _ => false

variable {c : List (FileCall ι)} {s : Files ι}

theorem woken_iff {k : Fin NPIPE} {chan : PipeChan} :
    woken c k chan = true ↔ .wakeup k chan ∈ c := by
  rw [woken, List.any_eq_true]
  constructor
  · rintro ⟨_ | _, hx, he⟩
    · obtain ⟨rfl, rfl⟩ := of_decide_eq_true he
      exact hx
    · cases he
  · exact fun h => ⟨_, h, by simp⟩

def Place.Asleep : Place → Prop
  | .reading _ _ asleep => asleep = true
  | .writing _ _ _ asleep => asleep = true
  | _ => False

theorem Place.Asleep.cases : ∀ {pl : Place}, pl.Asleep → (∃ k n, pl = .reading k n true) ∨ ∃ k n rest, pl = .writing k n rest true
  | .reading _ _ true, _ => .inl ⟨_, _, rfl⟩
  | .writing _ _ _ true, _ => .inr ⟨_, _, _, rfl⟩

/-- `sys_exit` was called. -/
def Place.Exited : Place → Prop
  | .exiting _ => True
  | .dead => True
  | _ => False

/-- `thread_wakeup`, as it finds a process. -/
def Place.wake (c : List (FileCall ι)) : Place → Place
  | .reading k n true => .reading k n (!woken c k .nread)
  | .writing k n rest true => .writing k n rest (!woken c k .nwrite)
  | p => p

@[simp] theorem Place.wake_nil (pl : Place) : pl.wake ([] : List (FileCall ι)) = pl := by
  rcases pl with _ | ⟨k, n, _ | _⟩ | ⟨k, n, rest, _ | _⟩ | _ | _ <;> rfl

namespace Kernel

abbrev files (s : Kernel ι) : Files ι := s.procs.files

def after (s : Kernel ι) (t : Files ι) (c : List (FileCall ι)) : Kernel ι :=
  { s with
    procs := { s.procs with files := t }
    place := fun p => (s.place p).wake c }

def setPlace (s : Kernel ι) (pid : ℕ) (p : Place) : Kernel ι := { s with place := update s.place pid p }

/-- A segment of a read for `n` bytes ends. -/
def readDone (s : Kernel ι) (pid n : ℕ) (r : Files ι × List (FileCall ι) × ReadSeg) : Kernel ι × Option Ret :=
  match r with
  | (t, c, .ret ret bytes) =>
    ({ (s.after t c).setPlace pid .user with got := update s.got pid (s.got pid ++ bytes) },
      some (.read ret bytes))
  | (t, c, .sleep k) => ((s.after t c).setPlace pid (.reading k n true), none)

/-- A segment of a write of `n` bytes ends. -/
def writeDone (s : Kernel ι) (pid n : ℕ) (r : Files ι × List (FileCall ι) × WriteSeg) : Kernel ι × Option Ret :=
  match r with
  | (t, c, .ret ret stored shown) =>
    ({ (s.after t c).setPlace pid .user with
        put := update s.put pid (s.put pid ++ stored)
        shown := update s.shown pid (s.shown pid ++ shown) },
      some (.wrote ret))
  | (t, c, .sleep k stored rest) =>
    ({ (s.after t c).setPlace pid (.writing k n rest true) with
        put := update s.put pid (s.put pid ++ stored) }, none)

@[simp] theorem readDone_procs (s : Kernel ι) (pid n : ℕ) (r : Files ι × List (FileCall ι) × ReadSeg) :
    (s.readDone pid n r).1.procs = { s.procs with files := r.1 } := by
  obtain ⟨u, c, _ | _⟩ := r <;> rfl

@[simp] theorem writeDone_procs (s : Kernel ι) (pid n : ℕ) (r : Files ι × List (FileCall ι) × WriteSeg) :
    (s.writeDone pid n r).1.procs = { s.procs with files := r.1 } := by
  obtain ⟨u, c, _ | _⟩ := r <;> rfl

/-- `sys_open`, with what `create` or `namei` came to. -/
def sysOpen (s : Kernel ι) (pid : ℕ) (omode : BitVec 32) (ip : Except Errno ι) :
    Except FilePanic (Kernel ι × Option Ret) :=
  match ip with
  | .error e => .ok (s, some (.opened (.error e)))
  | .ok ip => do
    let (t, c, r) ← s.files.sysOpen pid omode ip
    .ok (s.after t c, some (.opened r))

def sysPipe (s : Kernel ι) (pid : ℕ) (addr : UInt32) : Except FilePanic (Kernel ι × Option Ret) := do
  let (t, c, r) ← s.files.sysPipe pid addr
  .ok (s.after t c, some (.piped r))

def sysClose (s : Kernel ι) (pid fd : ℕ) : Except FilePanic (Kernel ι × Option Ret) := do
  let (t, c, r) ← s.files.sysClose pid fd
  .ok (s.after t c, some (.closed r))

def sysSpawn (s : Kernel ι) (pid elfId : ℕ) (quota : UInt32) (stdinFd stdoutFd : ℤ) :
    Except FilePanic (Kernel ι × Option Ret) :=
  match spawnError s.procs.container pid elfId quota with
  | some e => .ok (s, some (.spawned (.error e)))
  | none => do
    let child := (containerSplit s.procs.container pid quota).1
    let t ← s.files.spawnFds pid child stdinFd stdoutFd
    .ok ({ s with procs := ⟨t, (containerSplit s.procs.container pid quota).2, child :: s.procs.spawned⟩ },
      some (.spawned (.ok child)))

/-- `sys_read`, up to where it returns or sleeps. -/
def sysRead (s : Kernel ι) (pid fd : ℕ) (userBuf : UInt32) (n : ℕ) (input : Option (List UInt8)) :
    Except FilePanic (Kernel ι × Option Ret) :=
  match s.files.ioFile pid fd userBuf n with
  | none => .ok (s, some (.read (-1) []))
  | some f => do
    let r ← s.files.fileRead f n input
    .ok (s.readDone pid n r)

/-- `sys_write`, up to where it returns or sleeps. -/
def sysWrite (s : Kernel ι) (pid fd : ℕ) (userBuf : UInt32) (bytes : List UInt8) (output : ℕ) :
    Except FilePanic (Kernel ι × Option Ret) :=
  match s.files.ioFile pid fd userBuf bytes.length with
  | none => .ok (s, some (.wrote (-1)))
  | some f => do
    let r ← s.files.fileWrite f bytes output
    .ok (s.writeDone pid bytes.length r)

/-- `sys_exit`, up to the first descriptor. -/
def sysExit (s : Kernel ι) (pid : ℕ) : Kernel ι := s.setPlace pid (.exiting (List.finRange NOFILE))

/-- A system call of process `pid`, up to where it returns or sleeps. -/
def call (s : Kernel ι) (pid : ℕ) : UserCall ι → Except FilePanic (Kernel ι × Option Ret)
  | .open omode ip => s.sysOpen pid omode ip
  | .pipe addr => s.sysPipe pid addr
  | .close fd => s.sysClose pid fd
  | .spawn elfId quota stdinFd stdoutFd => s.sysSpawn pid elfId quota stdinFd stdoutFd
  | .read fd userBuf n input => s.sysRead pid fd userBuf n input
  | .write fd userBuf bytes output => s.sysWrite pid fd userBuf bytes output
  | .exit => .ok (s.sysExit pid, none)
  | .other r => .ok (s, some (.other r))

/-- A process that is in a call goes on: one that was woken tests its condition again, one that exits closes its next
descriptor. -/
def resume (s : Kernel ι) (pid : ℕ) : Except FilePanic (Kernel ι × Option Ret) :=
  match s.place pid with
  | .reading k n false => .ok (s.readDone pid n (s.files.pipeReadSeg k n))
  | .writing k n rest false => .ok (s.writeDone pid n (s.files.pipeWriteSeg k n rest))
  | .exiting (fd :: fds) => do
    let (t, c) ← s.files.closeFd pid fd
    .ok ((s.after t c).setPlace pid (.exiting fds), none)
  | .exiting [] =>
    .ok ({ s.setPlace pid .dead with
      procs := { s.procs with
        container := containerRefundUsage s.procs.container (s.procs.container pid).parent (s.procs.container pid).quota } },
      none)
  | _ => .ok (s, none)

end Kernel

theorem Held.exists_slot (h : Held s 0) {f : Fin NFILE} (hpos : 0 < (s.file f).ref) :
    ∃ x, s.openfiles x = some f := by
  rw [h.count, Pi.zero_apply, Nat.add_zero, holders_pos_iff] at hpos
  obtain ⟨x, -, hx⟩ := hpos
  exact ⟨x, hx⟩

/-! ### Holding an end of a pipe -/

namespace Pipe

variable {p q : Pipe}

theorem empty_congr (h : q.ring = p.ring) : q.empty ↔ p.empty := by
  rw [ring, ring, Ring.mk.injEq, UInt32.toNat_inj, UInt32.toNat_inj] at h
  rw [empty, empty, h.2.1, h.2.2]

theorem full_congr (h : q.ring = p.ring) : q.full ↔ p.full := by
  rw [ring, ring, Ring.mk.injEq, UInt32.toNat_inj, UInt32.toNat_inj] at h
  rw [full, full, h.2.1, h.2.2]

end Pipe

theorem pipeWriteRun_of_full {bytes : List UInt8} {p : Pipe} (h : p.full) : (pipeWriteRun bytes p).1 = p := by
  cases bytes with
  | nil => rfl
  | cons b bytes =>
    rw [pipeWriteRun, if_pos h]
    split_ifs <;> rfl

namespace Files

variable {s t : Files ι} {x : ℕ × Fin NOFILE} {k : Fin NPIPE} {w : Bool}

/-- Descriptor `x` is an end of pipe `k`. -/
def Holds (s : Files ι) (x : ℕ × Fin NOFILE) (k : Fin NPIPE) (w : Bool) : Prop :=
  ∃ f, s.openfiles x = some f ∧ (s.file f).IsEnd k w

/-- Descriptor `fd` of process `pid`, as a program names it, is an end of pipe `k`. -/
def HoldsAt (s : Files ι) (pid : ℕ) (fd : ℤ) (k : Fin NPIPE) (w : Bool) : Prop :=
  ∃ f, s.lookup pid fd = some f ∧ (s.file f).IsEnd k w

theorem holdsAt_iff {pid : ℕ} {fd : ℤ} : s.HoldsAt pid fd k w ↔ ∃ fd' : Fin NOFILE, (fd'.val : ℤ) = fd ∧
    s.Holds (pid, fd') k w := by
  unfold HoldsAt lookup
  split_ifs with hfd
  · have hval : ((Fin.ofNat NOFILE fd.toNat).val : ℤ) = fd := by
      rw [Fin.val_ofNat, Nat.mod_eq_of_lt (by omega)]
      omega
    refine ⟨fun h => ⟨_, hval, h⟩, ?_⟩
    rintro ⟨fd', he, h⟩
    obtain rfl : fd' = Fin.ofNat NOFILE fd.toNat := Fin.ext (by omega)
    exact h
  · refine iff_of_false (by simp) ?_
    rintro ⟨fd', he, -⟩
    have := fd'.isLt
    omega

theorem Holds.unique {k' : Fin NPIPE} {w' : Bool} (h : s.Holds x k w) (h' : s.Holds x k' w') : k = k' ∧ w = w' := by
  obtain ⟨f, hf, -, hk, hw⟩ := h
  obtain ⟨g, hg, -, hk', hw'⟩ := h'
  obtain rfl : f = g := by simpa [hf] using hg
  exact ⟨by simpa [hk] using hk', hw.symm.trans hw'⟩

theorem Holds.isOpen (h : s.Holds x k w) (hs : FileInv s) : (s.pipe k).isOpen w = true := by
  obtain ⟨f, -, hf⟩ := h
  exact (hs.open_iff k w).mpr ⟨f, hf⟩

theorem Holds.ref_ne_zero (h : s.Holds x k w) (hs : FileInv s) : (s.pipe k).ref ≠ 0 := fun e => by
  have := (hs.ref_iff k).mp e w
  rw [h.isOpen hs] at this
  cases this

theorem exists_holds (hs : Held s 0) (ho : (s.pipe k).isOpen w = true) : ∃ x, s.Holds x k w := by
  obtain ⟨f, hf⟩ := (hs.inv.open_iff k w).mp ho
  obtain ⟨x, hx⟩ := hs.exists_slot (hs.inv.ref_pos (f := f) (by simp [hf.1]))
  exact ⟨x, f, hx, hf⟩

/-- What descriptor `x` is: its structure without the count. -/
def view (s : Files ι) (x : ℕ × Fin NOFILE) : Option (File ι) := (s.openfiles x).map fun f => { s.file f with ref := 0 }

theorem holds_iff_view : s.Holds x k w ↔ ∃ v, s.view x = some v ∧ v.IsEnd k w := by
  unfold view
  constructor
  · rintro ⟨f, hf, hend⟩
    exact ⟨{ s.file f with ref := 0 }, by rw [hf, Option.map_some], hend⟩
  · rintro ⟨v, hv, hend⟩
    obtain ⟨f, hf, rfl⟩ := Option.map_eq_some_iff.mp hv
    exact ⟨f, hf, hend⟩

theorem view_of_quiet {c : List (FileCall ι)} (hq : Quiet s t c) (hs : Held s 0) (ht : Held t 0) (hx : x.1 < NUM_IDS)
    (ho : t.openfiles x = s.openfiles x) : t.view x = s.view x := by
  unfold view
  rw [ho]
  cases hf : s.openfiles x with
  | none => rfl
  | some f =>
    have hfile := hq.file f (hs.ref_pos hx hf) (ht.ref_pos hx (ho.trans hf))
    rw [Option.map_some, Option.map_some, hfile]

theorem holds_setOff (s : Files ι) (f : Fin NFILE) (off : UInt32) :
    (s.setFile f { s.file f with off := off }).Holds x k w ↔ s.Holds x k w := by
  refine exists_congr fun g => and_congr_right fun _ => ?_
  rw [setFile_file]
  split_ifs with e
  · rw [e]
    rfl
  · rfl

theorem holds_pipeReadSeg (s : Files ι) (k' : Fin NPIPE) (n : ℕ) : (s.pipeReadSeg k' n).1.Holds x k w ↔ s.Holds x k w := by
  unfold pipeReadSeg
  split <;> rfl

theorem holds_pipeWriteSeg (s : Files ι) (k' : Fin NPIPE) (n : ℕ) (bytes : List UInt8) :
    (s.pipeWriteSeg k' n bytes).1.Holds x k w ↔ s.Holds x k w := by
  unfold pipeWriteSeg
  dsimp only
  split <;> rfl

variable {f : Fin NFILE}

theorem holds_fileRead {n : ℕ} {input : Option (List UInt8)}
    {r : Files ι × List (FileCall ι) × ReadSeg} (hr : s.fileRead f n input = .ok r) : r.1.Holds x k w ↔ s.Holds x k w := by
  unfold fileRead at hr
  dsimp only at hr
  split_ifs at hr
  · cases hr
    rfl
  · split at hr
    · split at hr
      · cases hr
      · cases hr
        exact holds_pipeReadSeg s _ n
    · split at hr <;> cases hr <;> rfl
    · split at hr
      · cases hr
        rfl
      · cases hr
        exact holds_setOff s f _
    · cases hr

theorem holds_fileWrite {bytes : List UInt8} {output : ℕ}
    {r : Files ι × List (FileCall ι) × WriteSeg} (hr : s.fileWrite f bytes output = .ok r) :
    r.1.Holds x k w ↔ s.Holds x k w := by
  unfold fileWrite at hr
  dsimp only at hr
  by_cases hw : (s.file f).writable = false
  · rw [if_pos hw] at hr
    cases hr
    rfl
  · rw [if_neg hw] at hr
    split at hr
    · split at hr
      · cases hr
      · cases hr
        exact holds_pipeWriteSeg s _ _ bytes
    · cases hr
      rfl
    · cases hr
      exact holds_setOff s f _
    · cases hr

/-- From `s` to `t`, with the calls `c`, nothing happens that process `q` would have to know of and is not told. -/
structure Stable (s t : Files ι) (c : List (FileCall ι)) (q : ℕ) : Prop where
  openfiles : ∀ fd, t.openfiles (q, fd) = s.openfiles (q, fd)
  holds : ∀ fd k w, s.Holds (q, fd) k w → t.Holds (q, fd) k w
  /-- A pipe it reads gets bytes, or loses its write end, only with a wakeup. -/
  empty : ∀ fd k, s.Holds (q, fd) k false → (s.pipe k).empty ∧ (s.pipe k).writeopen = true →
    .wakeup k .nread ∈ c ∨ (t.pipe k).empty ∧ (t.pipe k).writeopen = true
  /-- A pipe it writes gets room, or loses its read end, only with a wakeup. -/
  full : ∀ fd k, s.Holds (q, fd) k true → (s.pipe k).full ∧ (s.pipe k).readopen = true →
    .wakeup k .nwrite ∈ c ∨ (t.pipe k).full ∧ (t.pipe k).readopen = true

variable {c : List (FileCall ι)} {q : ℕ}

theorem Stable.of_quiet (hq : Quiet s t c) (hs : Held s 0) (ht : Held t 0) (hlt : q < NUM_IDS)
    (ho : ∀ fd, t.openfiles (q, fd) = s.openfiles (q, fd)) : Stable s t c q := by
  have hholds : ∀ fd k w, s.Holds (q, fd) k w → t.Holds (q, fd) k w := fun fd k w h => by
    rw [holds_iff_view, view_of_quiet (x := (q, fd)) hq hs ht hlt (ho fd), ← holds_iff_view]
    exact h
  refine ⟨ho, hholds, fun fd k h ⟨he, hw⟩ => ?_, fun fd k h ⟨hf, hr⟩ => ?_⟩
  · have href := h.ref_ne_zero hs.inv
    rcases hq.isOpen k true href with e | e
    · refine .inr ⟨(Pipe.empty_congr (hq.ring k href)).mpr he, e.trans hw⟩
    · exact .inl e
  · have href := h.ref_ne_zero hs.inv
    rcases hq.isOpen k false href with e | e
    · refine .inr ⟨(Pipe.full_congr (hq.ring k href)).mpr hf, e.trans hr⟩
    · exact .inl e

theorem Stable.pipeReadSeg (hs : Held s 0) (k : Fin NPIPE) (n : ℕ) (q : ℕ) :
    Stable s (s.pipeReadSeg k n).1 (s.pipeReadSeg k n).2.1 q := by
  unfold Files.pipeReadSeg
  split
  · exact ⟨fun _ => rfl, fun _ _ _ h => h, fun _ _ _ h => .inr h, fun _ _ _ h => .inr h⟩
  · rename_i p bytes hread
    have hspec := pipeReadRun_spec n (hs.inv.ok k)
    unfold pipeRead at hread
    split_ifs at hread with hc
    rw [Option.some.injEq] at hread
    rw [hread] at hspec
    refine ⟨fun _ => rfl, fun _ _ _ h => h, fun fd k' h he => .inr ?_, fun fd k' h hf => ?_⟩
    · have hne : k' ≠ k := by
        rintro rfl
        exact hc he
      simpa [setPipe, hne] using he
    · by_cases hk : k' = k
      · exact .inl (by simp [hk])
      · exact .inr (by simpa [setPipe, hk] using hf)

theorem Stable.pipeWriteSeg (hs : Held s 0) (k : Fin NPIPE) (n : ℕ) (bytes : List UInt8) (q : ℕ) :
    Stable s (s.pipeWriteSeg k n bytes).1 (s.pipeWriteSeg k n bytes).2.1 q := by
  have hspec := pipeWriteRun_spec bytes (hs.inv.ok k)
  have hfile : (s.pipeWriteSeg k n bytes).1 = s.setPipe k (pipeWriteRun bytes (s.pipe k)).1 := by
    unfold Files.pipeWriteSeg
    dsimp only
    split <;> rfl
  rw [hfile]
  refine ⟨fun _ => rfl, fun _ _ _ h => h, fun fd k' h he => ?_, fun fd k' h hf => .inr ?_⟩
  · by_cases hk : k' = k
    · subst hk
      refine .inl ?_
      unfold Files.pipeWriteSeg
      dsimp only
      split
      · simp
      · -- nobody reads a pipe whose read end is closed
        rename_i rest hb
        have hro := (hspec.broken rest hb).2
        rw [hspec.ends.readopen, show (s.pipe k').readopen = true from h.isOpen hs.inv] at hro
        cases hro
      · simp
    · exact .inr (by simpa [setPipe, hk] using he)
  · by_cases hk : k' = k
    · subst hk
      rw [pipeWriteRun_of_full hf.1]
      simpa [setPipe] using hf
    · simpa [setPipe, hk] using hf

theorem Stable.setOff (s : Files ι) (f : Fin NFILE) (off : UInt32) (q : ℕ) :
    Stable s (s.setFile f { s.file f with off := off }) [] q := by
  refine ⟨fun _ => rfl, fun fd k w h => ?_, fun _ _ _ h => .inr h, fun _ _ _ h => .inr h⟩
  obtain ⟨g, hg, he⟩ := h
  refine ⟨g, hg, ?_⟩
  rw [setFile_file]
  split_ifs with e
  · rw [e] at he
    exact he
  · exact he

end Files

/-! ### No wakeup is lost -/

def PlaceOk (s : Files ι) (p : ℕ) : Place → Prop
  | .user => True
  | .reading k _ asleep => (∃ fd, s.Holds (p, fd) k false) ∧
      (asleep = true → (s.pipe k).empty ∧ (s.pipe k).writeopen = true)
  | .writing k _ _ asleep => (∃ fd, s.Holds (p, fd) k true) ∧
      (asleep = true → (s.pipe k).full ∧ (s.pipe k).readopen = true)
  | .exiting fds => ∀ fd, fd ∉ fds → s.openfiles (p, fd) = none
  | .dead => ∀ fd, s.openfiles (p, fd) = none

theorem PlaceOk.wake {t : Files ι} {q : ℕ} {pl : Place} (h : PlaceOk s q pl)
    (hst : Files.Stable s t c q) : PlaceOk t q (pl.wake c) := by
  cases pl with
  | user => trivial
  | reading k n asleep =>
    obtain ⟨⟨fd, hfd⟩, hasleep⟩ := h
    have hfd' := hst.holds fd k false hfd
    cases asleep with
    | false => exact ⟨⟨fd, hfd'⟩, nofun⟩
    | true =>
      refine ⟨⟨fd, hfd'⟩, fun hw => ?_⟩
      rcases hst.empty fd k hfd (hasleep rfl) with hc | he
      · rw [woken_iff.mpr hc] at hw
        cases hw
      · exact he
  | writing k n rest asleep =>
    obtain ⟨⟨fd, hfd⟩, hasleep⟩ := h
    have hfd' := hst.holds fd k true hfd
    cases asleep with
    | false => exact ⟨⟨fd, hfd'⟩, nofun⟩
    | true =>
      refine ⟨⟨fd, hfd'⟩, fun hw => ?_⟩
      rcases hst.full fd k hfd (hasleep rfl) with hc | he
      · rw [woken_iff.mpr hc] at hw
        cases hw
      · exact he
  | exiting fds => exact fun fd hfd => (hst.openfiles fd).trans (h fd hfd)
  | dead => exact fun fd => (hst.openfiles fd).trans (h fd)

namespace Kernel

/-- The invariant of the kernel. -/
structure Inv (s : Kernel ι) : Prop where
  procs : s.procs.Inv
  place : ∀ p, PlaceOk s.files p (s.place p)
  fresh : ∀ p, p ∉ s.procs.spawned → s.place p = .user

variable {s t : Kernel ι} {pid : ℕ}

theorem Inv.step (h : s.Inv) (hp : pid ∈ s.procs.spawned) {u : Files ι} {c : List (FileCall ι)} (pl : Place)
    (hk : Keeps s.files u pid) (hst : ∀ q < NUM_IDS, q ≠ pid → Files.Stable s.files u c q) (hpl : PlaceOk u pid pl)
    (hprocs : t.procs = { s.procs with files := u })
    (hplace : t.place = update (fun q => (s.place q).wake c) pid pl) : t.Inv := by
  refine ⟨hprocs ▸ h.procs.keeps hp hk, fun q => ?_, fun q hq => ?_⟩
  · rw [hplace, files, hprocs]
    by_cases hqp : q = pid
    · rw [hqp, update_self]
      exact hpl
    rw [update_of_ne hqp]
    by_cases hqs : q ∈ s.procs.spawned
    · exact (h.place q).wake (hst q (h.procs.bound q hqs) hqp)
    · rw [h.fresh q hqs]
      trivial
  · rw [hprocs] at hq
    have hqp : q ≠ pid := fun e => hq (e ▸ hp)
    rw [hplace, update_of_ne hqp, h.fresh q hq]
    rfl

theorem Inv.after (h : s.Inv) (hp : pid ∈ s.procs.spawned) (hu : s.place pid = .user) {u : Files ι}
    {c : List (FileCall ι)} (hk : Keeps s.files u pid) (hq : Quiet s.files u c) : (s.after u c).Inv := by
  have hpl : Place.user = (s.place pid).wake c := by
    rw [hu]
    rfl
  refine h.step hp .user hk (fun q hlt hne => ?_) trivial rfl (update_eq_self_iff.mpr hpl).symm
  exact .of_quiet hq h.procs.held hk.held hlt fun fd => hk.other q fd hne

variable {n : ℕ} {fd : Fin NOFILE} {f : Fin NFILE} {r : Option Ret}

theorem Inv.readDone (h : s.Inv) (hp : pid ∈ s.procs.spawned) {u : Files ι} {c : List (FileCall ι)} {seg : ReadSeg}
    (hk : Keeps s.files u pid) (hst : ∀ q, Files.Stable s.files u c q)
    (hsleep : ∀ k, seg = .sleep k → PlaceOk u pid (.reading k n true)) : (s.readDone pid n (u, c, seg)).1.Inv := by
  cases seg with
  | ret r bytes => exact h.step hp .user hk (fun q _ _ => hst q) trivial rfl rfl
  | sleep k => exact h.step hp _ hk (fun q _ _ => hst q) (hsleep k rfl) rfl rfl

theorem Inv.writeDone (h : s.Inv) (hp : pid ∈ s.procs.spawned) {u : Files ι} {c : List (FileCall ι)} {seg : WriteSeg}
    (hk : Keeps s.files u pid) (hst : ∀ q, Files.Stable s.files u c q)
    (hsleep : ∀ k stored rest, seg = .sleep k stored rest → PlaceOk u pid (.writing k n rest true)) :
    (s.writeDone pid n (u, c, seg)).1.Inv := by
  cases seg with
  | ret r stored shown => exact h.step hp .user hk (fun q _ _ => hst q) trivial rfl rfl
  | sleep k stored rest => exact h.step hp _ hk (fun q _ _ => hst q) (hsleep k stored rest rfl) rfl rfl

theorem keeps_refl {u : Files ι} (h : Held u 0) (pid : ℕ) : Keeps u u pid := ⟨h, fun _ _ _ => rfl⟩

theorem stable_refl (u : Files ι) (q : ℕ) : Files.Stable u u [] q :=
  ⟨fun _ => rfl, fun _ _ _ hx => hx, fun _ _ _ hx => .inr hx, fun _ _ _ hx => .inr hx⟩

theorem Inv.pipeReadSeg (h : s.Inv) (hp : pid ∈ s.procs.spawned) {k : Fin NPIPE}
    (hfd : s.files.Holds (pid, fd) k false) (n : ℕ) : (s.readDone pid n (s.files.pipeReadSeg k n)).1.Inv := by
  have hst := Files.Stable.pipeReadSeg h.procs.held k n
  unfold Files.pipeReadSeg at hst ⊢
  split at hst
  · rename_i hnone
    simp only [hnone]
    refine h.readDone hp (keeps_refl h.procs.held pid) hst ?_
    rintro _ ⟨⟩
    refine ⟨⟨fd, hfd⟩, fun _ => ?_⟩
    unfold pipeRead at hnone
    split_ifs at hnone with hc
    exact hc
  · rename_i p bytes hsome
    simp only [hsome]
    refine h.readDone hp ⟨?_, fun _ _ _ => rfl⟩ hst nofun
    have hspec := pipeReadRun_spec n (h.procs.held.inv.ok k)
    unfold pipeRead at hsome
    split_ifs at hsome
    rw [Option.some.injEq] at hsome
    rw [hsome] at hspec
    exact Files.setPipe_held h.procs.held hspec.1 hspec.2.1

theorem Inv.pipeWriteSeg (h : s.Inv) (hp : pid ∈ s.procs.spawned) {k : Fin NPIPE}
    (hfd : s.files.Holds (pid, fd) k true) (n : ℕ) (bytes : List UInt8) :
    (s.writeDone pid n (s.files.pipeWriteSeg k n bytes)).1.Inv := by
  have hst := Files.Stable.pipeWriteSeg h.procs.held k n bytes
  have hspec := pipeWriteRun_spec bytes (h.procs.held.inv.ok k)
  have hk : Keeps s.files (s.files.setPipe k (pipeWriteRun bytes (s.files.pipe k)).1) pid :=
    ⟨Files.setPipe_held h.procs.held hspec.ok hspec.ends, fun _ _ _ => rfl⟩
  unfold Files.pipeWriteSeg at hst ⊢
  dsimp only at hst ⊢
  cases he : (pipeWriteRun bytes (s.files.pipe k)).2 with
  | done =>
    simp only [he] at hst ⊢
    exact h.writeDone hp hk hst nofun
  | broken rest =>
    simp only [he] at hst ⊢
    exact h.writeDone hp hk hst nofun
  | sleep rest =>
    simp only [he] at hst ⊢
    refine h.writeDone hp hk hst ?_
    rintro _ _ _ ⟨⟩
    obtain ⟨hfull, hopen, -⟩ := hspec.sleep rest he
    exact ⟨⟨fd, hfd⟩, fun _ => by simpa [Files.setPipe] using ⟨hfull, hopen⟩⟩

theorem keeps_setOff {u : Files ι} (h : Held u 0) (pid : ℕ) (hf : (u.file f).type = .inode)
    (off : UInt32) : Keeps u (u.setFile f { u.file f with off := off }) pid := by
  refine ⟨h.setOther (by simp [hf]) (by simp [hf]) rfl ?_ fun _ => (h.inv.file_ok f).inode hf, fun _ _ _ => rfl⟩
  exact (h.inv.ref_pos (by simp [hf])).ne'

theorem Inv.fileRead (h : s.Inv) (hp : pid ∈ s.procs.spawned)
    (hfd : s.files.openfiles (pid, fd) = some f) {input : Option (List UInt8)}
    {r : Files ι × List (FileCall ι) × ReadSeg} (hr : s.files.fileRead f n input = .ok r) :
    (s.readDone pid n r).1.Inv := by
  have hsame : ∀ (ret : ℤ) bytes, (s.readDone pid n (s.files, [], .ret ret bytes)).1.Inv := fun ret bytes =>
    h.readDone hp (keeps_refl h.procs.held pid) (stable_refl _) nofun
  unfold Files.fileRead at hr
  dsimp only at hr
  by_cases hread : (s.files.file f).readable = false
  · rw [if_pos hread] at hr
    cases hr
    exact hsame _ _
  rw [if_neg hread] at hr
  cases htype : (s.files.file f).type with
  | pipe =>
    obtain ⟨k, hk⟩ := Option.ne_none_iff_exists'.mp ((h.procs.held.inv.file_ok f).pipe htype).1
    simp only [htype, hk] at hr
    cases hr
    have hw : (s.files.file f).writable = false := by
      have := ((h.procs.held.inv.file_ok f).pipe htype).2
      simpa [this] using hread
    exact h.pipeReadSeg hp ⟨f, hfd, htype, hk, hw⟩ n
  | consoleIn =>
    simp only [htype] at hr
    cases input <;> cases hr <;> exact hsame _ _
  | inode =>
    simp only [htype] at hr
    cases input with
    | none =>
      cases hr
      exact hsame _ _
    | some bytes =>
      cases hr
      rw [← htype]
      exact h.readDone hp (keeps_setOff h.procs.held pid htype _) (Files.Stable.setOff _ f _) nofun
  | none => simp [htype] at hr
  | consoleOut => simp [htype] at hr

theorem Inv.fileWrite (h : s.Inv) (hp : pid ∈ s.procs.spawned)
    (hfd : s.files.openfiles (pid, fd) = some f) {bytes : List UInt8} {output : ℕ}
    {r : Files ι × List (FileCall ι) × WriteSeg} (hr : s.files.fileWrite f bytes output = .ok r) :
    (s.writeDone pid bytes.length r).1.Inv := by
  have hsame : ∀ (ret : ℤ) stored shown, (s.writeDone pid bytes.length (s.files, [], .ret ret stored shown)).1.Inv :=
    fun ret stored shown => h.writeDone hp (keeps_refl h.procs.held pid) (stable_refl _) nofun
  unfold Files.fileWrite at hr
  dsimp only at hr
  by_cases hwrite : (s.files.file f).writable = false
  · rw [if_pos hwrite] at hr
    cases hr
    exact hsame _ _ _
  rw [if_neg hwrite] at hr
  cases htype : (s.files.file f).type with
  | pipe =>
    obtain ⟨k, hk⟩ := Option.ne_none_iff_exists'.mp ((h.procs.held.inv.file_ok f).pipe htype).1
    simp only [htype, hk] at hr
    cases hr
    exact h.pipeWriteSeg hp ⟨f, hfd, htype, hk, by simpa using hwrite⟩ _ bytes
  | consoleOut =>
    simp only [htype] at hr
    cases hr
    exact hsame _ _ _
  | inode =>
    simp only [htype] at hr
    cases hr
    rw [← htype]
    exact h.writeDone hp (keeps_setOff h.procs.held pid htype _) (Files.Stable.setOff _ f _) nofun
  | none => simp [htype] at hr
  | consoleIn => simp [htype] at hr

theorem exists_fd {u : Files ι} {fd : ℤ} (h : u.lookup pid fd = some f) :
    ∃ fd', u.openfiles (pid, fd') = some f := by
  unfold Files.lookup at h
  split_ifs at h
  exact ⟨_, h⟩

theorem lookup_of_ioFile {u : Files ι} {fd : ℕ} {userBuf : UInt32}
    (h : u.ioFile pid fd userBuf n = some f) : u.lookup pid fd = some f := by
  unfold Files.ioFile at h
  split_ifs at h
  exact (Option.filter_eq_some_iff.mp h).1

/-- What a call of process `pid` does. -/
inductive Does (s : Kernel ι) (pid : ℕ) : UserCall ι → Kernel ι → Option Ret → Prop
  /-- `sys_open` without an inode. -/
  | openFail {omode : BitVec 32} {e : Errno} : Does s pid (.open omode (.error e)) s (some (.opened (.error e)))
  /-- `sys_open`. -/
  | open {omode : BitVec 32} {ip : ι} {u : Files ι} {c : List (FileCall ι)} {r : Except Errno (Fin NOFILE)}
      (held : Held u 0) (quiet : Quiet s.files u c) (ret : Files.OpenRet s.files u pid omode ip r) :
      Does s pid (.open omode (.ok ip)) (s.after u c) (some (.opened r))
  /-- `sys_pipe`. -/
  | pipe {addr : UInt32} {u : Files ι} {c : List (FileCall ι)} {r : Except Errno (Fin NOFILE × Fin NOFILE)}
      (held : Held u 0) (quiet : Quiet s.files u c) (ret : Files.PipeRet s.files u pid r) :
      Does s pid (.pipe addr) (s.after u c) (some (.piped r))
  /-- `sys_close`. -/
  | close {fd : ℕ} {u : Files ι} {c : List (FileCall ι)} {r : Errno} (held : Held u 0) (quiet : Quiet s.files u c)
      (openfiles : u.openfiles = if fd < NOFILE then update s.files.openfiles (pid, Fin.ofNat NOFILE fd) none
        else s.files.openfiles) : Does s pid (.close fd) (s.after u c) (some (.closed r))
  /-- `sys_spawn` that fails. -/
  | spawnFail {elfId : ℕ} {quota : UInt32} {stdinFd stdoutFd : ℤ} {e : Errno} :
      Does s pid (.spawn elfId quota stdinFd stdoutFd) s (some (.spawned (.error e)))
  /-- `sys_spawn`. -/
  | spawn {elfId : ℕ} {quota : UInt32} {stdinFd stdoutFd : ℤ} {procs : FileProcs ι} {child : ℕ}
      (inv : procs.Inv) (spawned : procs.spawned = child :: s.procs.spawned) (fresh : child ∉ s.procs.spawned)
      (spawns : Files.Spawns s.files procs.files pid child stdinFd stdoutFd) :
      Does s pid (.spawn elfId quota stdinFd stdoutFd) { s with procs := procs } (some (.spawned (.ok child)))
  /-- `sys_read` that its checks stop. -/
  | readFail {fd n : ℕ} {userBuf : UInt32} {input : Option (List UInt8)} (lookup : s.files.ioFile pid fd userBuf n = none) :
      Does s pid (.read fd userBuf n input) s (some (.read (-1) []))
  /-- `sys_read`. -/
  | read {fd n : ℕ} {userBuf : UInt32} {input : Option (List UInt8)} {f : Fin NFILE}
      {r : Files ι × List (FileCall ι) × ReadSeg} (lookup : s.files.ioFile pid fd userBuf n = some f)
      (ret : s.files.fileRead f n input = .ok r) :
      Does s pid (.read fd userBuf n input) (s.readDone pid n r).1 (s.readDone pid n r).2
  /-- `sys_write` that its checks stop. -/
  | writeFail {fd : ℕ} {userBuf : UInt32} {bytes : List UInt8} {output : ℕ}
      (lookup : s.files.ioFile pid fd userBuf bytes.length = none) :
      Does s pid (.write fd userBuf bytes output) s (some (.wrote (-1)))
  /-- `sys_write`. -/
  | write {fd : ℕ} {userBuf : UInt32} {bytes : List UInt8} {output : ℕ} {f : Fin NFILE}
      {r : Files ι × List (FileCall ι) × WriteSeg} (lookup : s.files.ioFile pid fd userBuf bytes.length = some f)
      (ret : s.files.fileWrite f bytes output = .ok r) :
      Does s pid (.write fd userBuf bytes output) (s.writeDone pid bytes.length r).1 (s.writeDone pid bytes.length r).2
  /-- `sys_exit`. -/
  | exit : Does s pid .exit (s.sysExit pid) none
  /-- Some other call. -/
  | other {r : ℤ} : Does s pid (.other r) s (some (.other r))

theorem Does.closed {fd : ℕ} {r : Ret} (h : Does s pid (.close fd) t (some r)) : ∃ e, r = .closed e := by
  cases h
  exact ⟨_, rfl⟩

section

variable (h : s.Inv) (hp : pid ∈ s.procs.spawned)
include h hp

theorem Inv.does {u : UserCall ι}
    (he : s.call pid u = .ok (t, r)) : Does s pid u t r := by
  have hlt := h.procs.bound pid hp
  cases u with
  | «open» omode ip =>
    cases ip with
    | error e =>
      simp only [Kernel.call, Kernel.sysOpen, Except.ok.injEq, Prod.mk.injEq] at he
      obtain ⟨rfl, rfl⟩ := he
      exact .openFail
    | ok ip =>
      obtain ⟨f, c, r', hf, hheld, hq, hr⟩ := Files.sysOpen_spec h.procs.held hlt omode ip
      simp only [Kernel.call, Kernel.sysOpen, hf, bind, Except.bind, Except.ok.injEq, Prod.mk.injEq] at he
      obtain ⟨rfl, rfl⟩ := he
      exact .open hheld hq hr
  | pipe addr =>
    obtain ⟨f, c, r', hf, hheld, hq, hr⟩ := Files.sysPipe_spec h.procs.held hlt addr
    simp only [Kernel.call, Kernel.sysPipe, hf, bind, Except.bind, Except.ok.injEq, Prod.mk.injEq] at he
    obtain ⟨rfl, rfl⟩ := he
    exact .pipe hheld hq hr
  | close fd =>
    obtain ⟨f, c, r', hf, hheld, hq, ho⟩ := Files.sysClose_spec h.procs.held hlt fd
    simp only [Kernel.call, Kernel.sysClose, hf, bind, Except.bind, Except.ok.injEq, Prod.mk.injEq] at he
    obtain ⟨rfl, rfl⟩ := he
    exact .close hheld hq ho
  | spawn elfId quota stdinFd stdoutFd =>
    cases hs : spawnError s.procs.container pid elfId quota with
    | some e =>
      simp only [Kernel.call, Kernel.sysSpawn, hs, Except.ok.injEq, Prod.mk.injEq] at he
      obtain ⟨rfl, rfl⟩ := he
      exact .spawnFail
    | none =>
      obtain ⟨hn, hchild⟩ := child_lt_of_spawnError (h.procs.family.le_max _) hs
      have hfresh := h.procs.family.child_notMem hn
      obtain ⟨f, hf, hi⟩ := h.procs.spawn hp hs stdinFd stdoutFd
      obtain ⟨f', hf', hsp⟩ := Files.spawnFds_spec h.procs.held hlt hchild (fun e => hfresh (e ▸ hp))
        (fun fd => h.procs.unused _ fd hfresh) stdinFd stdoutFd
      obtain rfl : f = f' := Except.ok.inj (hf.symm.trans hf')
      simp only [Kernel.call, Kernel.sysSpawn, hs, files, hf, bind, Except.bind, Except.ok.injEq, Prod.mk.injEq] at he
      obtain ⟨rfl, rfl⟩ := he
      exact .spawn hi rfl hfresh hsp
  | read fd userBuf n input =>
    cases hl : s.files.ioFile pid fd userBuf n with
    | none =>
      rw [Kernel.call] at he
      unfold Kernel.sysRead at he
      simp only [hl, Except.ok.injEq, Prod.mk.injEq] at he
      obtain ⟨rfl, rfl⟩ := he
      exact .readFail hl
    | some f =>
      cases hf : s.files.fileRead f n input with
      | error e =>
        rw [Kernel.call] at he
        unfold Kernel.sysRead at he
        simp only [hl, hf, bind, Except.bind] at he
        cases he
      | ok seg =>
        rw [Kernel.call] at he
        unfold Kernel.sysRead at he
        simp only [hl, hf, bind, Except.bind, Except.ok.injEq] at he
        obtain ⟨rfl, rfl⟩ : (s.readDone pid n seg).1 = t ∧ (s.readDone pid n seg).2 = r := by rw [he]; exact ⟨rfl, rfl⟩
        exact .read hl hf
  | write fd userBuf bytes output =>
    cases hl : s.files.ioFile pid fd userBuf bytes.length with
    | none =>
      rw [Kernel.call] at he
      unfold Kernel.sysWrite at he
      simp only [hl, Except.ok.injEq, Prod.mk.injEq] at he
      obtain ⟨rfl, rfl⟩ := he
      exact .writeFail hl
    | some f =>
      cases hf : s.files.fileWrite f bytes output with
      | error e =>
        rw [Kernel.call] at he
        unfold Kernel.sysWrite at he
        simp only [hl, hf, bind, Except.bind] at he
        cases he
      | ok seg =>
        rw [Kernel.call] at he
        unfold Kernel.sysWrite at he
        simp only [hl, hf, bind, Except.bind, Except.ok.injEq] at he
        obtain ⟨rfl, rfl⟩ : (s.writeDone pid bytes.length seg).1 = t ∧ (s.writeDone pid bytes.length seg).2 = r := by
          rw [he]
          exact ⟨rfl, rfl⟩
        exact .write hl hf
  | exit =>
    simp only [Kernel.call, Except.ok.injEq, Prod.mk.injEq] at he
    obtain ⟨rfl, rfl⟩ := he
    exact .exit
  | other r =>
    simp only [Kernel.call, Except.ok.injEq, Prod.mk.injEq] at he
    obtain ⟨rfl, rfl⟩ := he
    exact .other

theorem Inv.of_does (hu : s.place pid = .user) {u : UserCall ι}
    (hd : Does s pid u t r) : t.Inv := by
  cases hd with
  | openFail | spawnFail | readFail | writeFail | other => exact h
  | «open» held quiet ret => exact h.after hp hu (ret.keeps held) quiet
  | pipe held quiet ret => exact h.after hp hu (ret.keeps held) quiet
  | close held quiet openfiles => exact h.after hp hu (Files.keeps_close held openfiles) quiet
  | @spawn _ _ _ _ procs child inv spawned fresh spawns =>
    refine ⟨inv, fun q => ?_, fun q hq => h.fresh q fun hqs => hq ?_⟩
    · by_cases hqs : q ∈ s.procs.spawned
      · have hne : q ≠ child := fun e => fresh (e ▸ hqs)
        have hst : Files.Stable s.files procs.files [] q :=
          .of_quiet spawns.quiet h.procs.held spawns.held (h.procs.bound q hqs) fun fd => spawns.other q fd hne
        simpa using (h.place q).wake hst
      · show PlaceOk procs.files q (s.place q)
        rw [h.fresh q hqs]
        trivial
    · rw [spawned]
      exact List.mem_cons_of_mem _ hqs
  | read lookup ret =>
    obtain ⟨fd', hfd⟩ := exists_fd (lookup_of_ioFile lookup)
    exact h.fileRead hp hfd ret
  | write lookup ret =>
    obtain ⟨fd', hfd⟩ := exists_fd (lookup_of_ioFile lookup)
    exact h.fileWrite hp hfd ret
  | exit =>
    refine h.step hp (.exiting (List.finRange NOFILE)) (keeps_refl h.procs.held pid) (fun q _ _ => stable_refl _ q)
      (fun fd hfd => absurd (List.mem_finRange fd) hfd) rfl ?_
    simp [sysExit, setPlace]

theorem Inv.resume (he : s.resume pid = .ok (t, r)) :
    t.Inv := by
  have hpl := h.place pid
  unfold Kernel.resume at he
  split at he
  · rename_i k n hplace
    rw [hplace] at hpl
    obtain ⟨⟨fd, hfd⟩, -⟩ := hpl
    have := h.pipeReadSeg hp hfd n
    rw [Except.ok.injEq] at he
    rwa [he] at this
  · rename_i k n rest hplace
    rw [hplace] at hpl
    obtain ⟨⟨fd, hfd⟩, -⟩ := hpl
    have := h.pipeWriteSeg hp hfd n rest
    rw [Except.ok.injEq] at he
    rwa [he] at this
  · rename_i fd fds hplace
    rw [hplace] at hpl
    obtain ⟨u, c, hc, hheld, ho, hq⟩ := Files.closeFd_spec h.procs.held (h.procs.bound pid hp) fd
    simp only [files, hc, bind, Except.bind, Except.ok.injEq, Prod.mk.injEq] at he
    obtain ⟨rfl, rfl⟩ := he
    have hk : Keeps s.files u pid := .of_update hheld ho
    refine h.step hp (.exiting fds) hk (fun q hlt hne => ?_) (fun fd' hfd' => ?_) rfl rfl
    · exact .of_quiet hq h.procs.held hheld hlt fun fd' => hk.other q fd' hne
    · rw [ho]
      by_cases e : fd' = fd
      · rw [e, update_self]
      · rw [update_of_ne (by simp [e])]
        exact hpl fd' (by simp [e, hfd'])
  · rename_i hplace
    rw [hplace] at hpl
    rw [Except.ok.injEq, Prod.mk.injEq] at he
    obtain ⟨rfl, rfl⟩ := he
    have hi : FileProcs.Inv ⟨s.files, containerRefundUsage s.procs.container (s.procs.container pid).parent
        (s.procs.container pid).quota, s.procs.spawned⟩ :=
      ⟨h.procs.held, h.procs.family.congr fun i => by simp, h.procs.bound, h.procs.unused⟩
    refine ⟨hi, fun q => ?_, fun q hq => ?_⟩
    · show PlaceOk s.files q (update s.place pid .dead q)
      by_cases e : q = pid
      · rw [e, update_self]
        exact fun fd => hpl fd List.not_mem_nil
      · rw [update_of_ne e]
        exact h.place q
    · have hne : q ≠ pid := fun e => hq (e ▸ hp)
      simpa [setPlace, hne] using h.fresh q hq
  · rw [Except.ok.injEq, Prod.mk.injEq] at he
    rw [← he.1]
    exact h

end

/-! ### Who has which end -/

variable {u : Files ι} {c : List (FileCall ι)} {x : ℕ × Fin NOFILE} {k : Fin NPIPE} {w : Bool}

section

variable (h : s.Inv)
include h

theorem Inv.mem_of_holds (hx : s.files.Holds x k w) : x.1 ∈ s.procs.spawned := by
  obtain ⟨f, hf, -⟩ := hx
  by_contra hno
  rw [h.procs.unused x.1 x.2 hno] at hf
  cases hf

section

variable (hq : Quiet s.files u c)
include hq

theorem Inv.view_eq (hu : Held u 0) (ho : u.openfiles x = s.files.openfiles x) :
    u.view x = s.files.view x := by
  by_cases hx : x.1 ∈ s.procs.spawned
  · exact Files.view_of_quiet hq h.procs.held hu (h.procs.bound _ hx) ho
  · have hnone : s.files.openfiles x = none := h.procs.unused x.1 x.2 hx
    rw [Files.view, Files.view, ho, hnone]
    rfl

theorem Inv.holds_iff (hu : Held u 0) (ho : u.openfiles x = s.files.openfiles x) :
    u.Holds x k w ↔ s.files.Holds x k w := by
  rw [Files.holds_iff_view, Files.holds_iff_view, h.view_eq hq hu ho]

theorem Inv.contents_eq (hx : s.files.Holds x k w) :
    (u.pipe k).contents = (s.files.pipe k).contents := by
  rw [Pipe.contents, hq.ring k (hx.ref_ne_zero h.procs.held.inv), Pipe.contents]

theorem Inv.holds_open (hu : Held u 0) {omode : BitVec 32} {ip : ι}
    {r : Except Errno (Fin NOFILE)} (hr : Files.OpenRet s.files u pid omode ip r) :
    u.Holds x k w ↔ s.files.Holds x k w := by
  rcases r with e | fd
  · exact h.holds_iff hq hu (congrFun hr x)
  · obtain ⟨hnone, f, -, ho, hf⟩ := hr
    by_cases e : x = (pid, fd)
    · refine iff_of_false ?_ ?_
      · rintro ⟨g, hg, hend⟩
        rw [ho, e, update_self, Option.some.injEq] at hg
        rw [← hg, hf] at hend
        cases hend.1
      · rintro ⟨g, hg, -⟩
        rw [e, hnone] at hg
        cases hg
    · exact h.holds_iff hq hu (by rw [ho, update_of_ne e])

theorem Inv.holds_close (hu : Held u 0) {y : ℕ × Fin NOFILE}
    (ho : u.openfiles = update s.files.openfiles y none) :
    u.Holds x k w ↔ x ≠ y ∧ s.files.Holds x k w := by
  by_cases e : x = y
  · refine iff_of_false ?_ (fun hx => hx.1 e)
    rintro ⟨g, hg, -⟩
    rw [ho, e, update_self] at hg
    cases hg
  · rw [h.holds_iff hq hu (by rw [ho, update_of_ne e])]
    exact ⟨fun hx => ⟨e, hx⟩, And.right⟩

theorem Inv.holds_pipe (hu : Held u 0) {fd0 fd1 : Fin NOFILE}
    (hr : Files.PipeRet s.files u pid (.ok (fd0, fd1))) :
    ∃ k0, (s.files.pipe k0).ref = 0 ∧ u.pipe k0 = (s.files.pipe k0).opened ∧ ∀ x k w, u.Holds x k w ↔
      k ≠ k0 ∧ s.files.Holds x k w ∨ k = k0 ∧ x = (pid, if w then fd1 else fd0) := by
  obtain ⟨hne, hnone0, hnone1, f0, f1, k0, href, hopened, hend0, hend1, ho⟩ := hr
  refine ⟨k0, href, hopened, fun x k w => ?_⟩
  have hno : ∀ {y k w}, s.files.Holds y k w → k ≠ k0 := by
    rintro y k w hy rfl
    exact hy.ref_ne_zero h.procs.held.inv href
  have hfree : ∀ fd, s.files.openfiles (pid, fd) = none → ¬ s.files.Holds (pid, fd) k w := by
    rintro fd hfd ⟨g, hg, -⟩
    rw [hfd] at hg
    cases hg
  by_cases e1 : x = (pid, fd1)
  · have hx : u.openfiles x = some f1 := by rw [ho, e1, update_self]
    constructor
    · rintro ⟨g, hg, hend⟩
      obtain rfl : f1 = g := by simpa [hx] using hg
      obtain ⟨rfl, rfl⟩ := Files.Holds.unique (s := u) ⟨f1, hx, hend1⟩ ⟨f1, hx, hend⟩
      exact .inr ⟨rfl, e1⟩
    · rintro (⟨-, hx'⟩ | ⟨rfl, hx'⟩)
      · exact absurd (e1 ▸ hx') (hfree fd1 hnone1)
      · cases w with
        | true => exact ⟨f1, hx, hend1⟩
        | false => exact absurd ((Prod.mk.inj (hx'.symm.trans e1)).2) hne
  · by_cases e0 : x = (pid, fd0)
    · have hx : u.openfiles x = some f0 := by rw [ho, e0, update_of_ne (by simp [hne]), update_self]
      constructor
      · rintro ⟨g, hg, hend⟩
        obtain rfl : f0 = g := by simpa [hx] using hg
        obtain ⟨rfl, rfl⟩ := Files.Holds.unique (s := u) ⟨f0, hx, hend0⟩ ⟨f0, hx, hend⟩
        exact .inr ⟨rfl, e0⟩
      · rintro (⟨-, hx'⟩ | ⟨rfl, hx'⟩)
        · exact absurd (e0 ▸ hx') (hfree fd0 hnone0)
        · cases w with
          | true => exact absurd ((Prod.mk.inj (e0.symm.trans hx')).2) hne
          | false => exact ⟨f0, hx, hend0⟩
    · rw [h.holds_iff hq hu (by rw [ho, update_of_ne e1, update_of_ne e0])]
      constructor
      · exact fun hx => .inl ⟨hno hx, hx⟩
      · rintro (⟨-, hx⟩ | ⟨-, hx⟩)
        · exact hx
        · cases w
          · exact absurd hx e0
          · exact absurd hx e1

end

theorem Inv.holds_spawn (hp : pid ∈ s.procs.spawned) {child : ℕ} {stdinFd stdoutFd : ℤ}
    (hfresh : child ∉ s.procs.spawned) (hsp : Files.Spawns s.files u pid child stdinFd stdoutFd) :
    u.Holds x k w ↔ s.files.Holds x k w ∨ x = (child, 0) ∧ s.files.HoldsAt pid stdinFd k w ∨
      x = (child, 1) ∧ s.files.HoldsAt pid stdoutFd k w := by
  have hsame : ∀ {fd : ℤ} {f}, s.files.lookup pid fd = some f → ((u.file f).IsEnd k w ↔ (s.files.file f).IsEnd k w) := by
    intro fd f hl
    obtain ⟨fd', hfd⟩ := exists_fd hl
    rw [(hsp.file f (h.procs.held.ref_pos (h.procs.bound pid hp) hfd)).2]
    rfl
  by_cases hx : x.1 = child
  · obtain ⟨p, fd⟩ := x
    obtain rfl : p = child := hx
    constructor
    · rintro ⟨f, hf, hend⟩
      rcases hsp.own fd f hf with ⟨rfl, hl⟩ | ⟨rfl, hl⟩ | ⟨-, hne⟩
      · exact .inr (.inl ⟨rfl, f, hl, (hsame hl).mp hend⟩)
      · exact .inr (.inr ⟨rfl, f, hl, (hsame hl).mp hend⟩)
      · exact absurd hend.1 hne
    · rintro (hold | ⟨e, f, hl, hend⟩ | ⟨e, f, hl, hend⟩)
      · exact absurd (h.mem_of_holds hold) hfresh
      · rw [e]
        exact ⟨f, hsp.stdin f hl, (hsame hl).mpr hend⟩
      · rw [e]
        exact ⟨f, hsp.stdout f hl, (hsame hl).mpr hend⟩
  · rw [h.holds_iff hsp.quiet hsp.held (hsp.other x.1 x.2 hx)]
    refine ⟨.inl, ?_⟩
    rintro (hold | ⟨rfl, -⟩ | ⟨rfl, -⟩)
    · exact hold
    · exact absurd rfl hx
    · exact absurd rfl hx

end

/-- After `kern_main`. -/
def boot (quota : UInt32) : Kernel ι := ⟨.boot quota, fun _ => .user, fun _ => [], fun _ => [], fun _ => []⟩

theorem inv_boot (quota : UInt32) : (boot quota : Kernel ι).Inv :=
  ⟨FileProcs.inv_boot quota, fun _ => trivial, fun _ _ => rfl⟩

theorem not_holds_boot (quota : UInt32) {x : ℕ × Fin NOFILE} {k : Fin NPIPE} {w : Bool} :
    ¬ (boot quota : Kernel ι).files.Holds x k w := by
  intro h
  have hopen := h.isOpen (FileProcs.inv_boot quota).held.inv
  have hpipe := (Files.consoleInitFds_spec (FileProcs.held_init : Held (Files.init : Files ι) 0)
    (show 2 < NUM_IDS by decide) (fun _ => rfl) (show 0 < NUM_IDS by decide) (by decide)).pipe
  have hk : (boot quota : Kernel ι).files.pipe k = zeroPipe := congrFun hpipe k
  rw [hk] at hopen
  cases w <;> cases hopen

end Kernel

end MCertiKOS.FileSystem
