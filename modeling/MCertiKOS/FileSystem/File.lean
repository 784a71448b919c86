import MCertiKOS.FileSystem.Pipe
import MCertiKOS.Thread.Scheduler

/-!
# The file table

File structures, descriptors and the pipe cache: `kern/fs/file.c`, the
descriptor side of `sys_open`, `sys_pipe` and `sys_close` in
`kern/fs/sysfile.c`, and the descriptors of `sys_spawn` and `sys_exit` in
`kern/trap/TSyscall/TSyscall.c`.

Inodes are left abstract: `ι` is the type of pointers into the inode cache. The
functions here call two others that leave the file table alone, `thread_wakeup`
and `inode_put` (inside a transaction of its own); they return these calls, in
order, and the layers that schedule and store take them up. `KERN_PANIC` and a
dereference of `NULL` are errors.
-/

namespace MCertiKOS.FileSystem

open Memory Thread

abbrev NFILE : ℕ := 100

abbrev NOFILE : ℕ := 16

abbrev NPIPE : ℕ := 10

namespace Sizes

scoped instance neZero_nfile : NeZero NFILE := ⟨by decide⟩

scoped instance neZero_nofile : NeZero NOFILE := ⟨by decide⟩

scoped instance neZero_npipe : NeZero NPIPE := ⟨by decide⟩

end Sizes

abbrev VM_USERLO : UInt32 := 0x40000000

abbrev VM_USERHI : UInt32 := 0xf0000000

/-- The types of a file structure. -/
inductive FdType where
  /-- `FD_NONE`. -/
  | none
  /-- `FD_PIPE`. -/
  | pipe
  /-- `FD_INODE`. -/
  | inode
  /-- `FD_CONSOLE_IN`. -/
  | consoleIn
  /-- `FD_CONSOLE_OUT`. -/
  | consoleOut
  deriving DecidableEq

/-- `struct file`. A pointer is `none` when it is `NULL`. -/
structure File (ι : Type*) where
  type : FdType
  ref : ℕ
  readable : Bool
  writable : Bool
  /-- The pipe, for `FD_PIPE`. -/
  pipe : Option (Fin NPIPE)
  /-- The inode, for `FD_INODE`. -/
  ip : Option ι
  /-- The offset, for `FD_INODE`. -/
  off : UInt32

/-- `ftable`, `pipe_cache` and the `openfiles` of the thread control blocks. -/
structure Files (ι : Type*) where
  /-- `ftable.file`. -/
  file : Fin NFILE → File ι
  /-- `pipe_cache.pipe`. -/
  pipe : Fin NPIPE → Pipe
  /-- `TCBPool[pid].openfiles[fd]`. -/
  openfiles : ℕ × Fin NOFILE → Option (Fin NFILE)

/-- Why the kernel stops. -/
inductive FilePanic where
  /-- `KERN_PANIC("file_dup")`. -/
  | fileDup
  /-- `KERN_PANIC("file_close")`. -/
  | fileClose
  /-- `KERN_PANIC("file_read")`. -/
  | fileRead
  /-- `KERN_PANIC("file_write")`. -/
  | fileWrite
  /-- A dereference of `NULL`. -/
  | null

/-- The calls made of other layers. -/
inductive FileCall (ι : Type*) where
  /-- `thread_wakeup` on a channel of a pipe. -/
  | wakeup (p : Fin NPIPE) (chan : PipeChan)
  /-- `begin_trans(); inode_put(ip); commit_trans()`. -/
  | inodePut (ip : ι)

namespace Files

variable {ι : Type*}

/-! ### File structures -/

def setFile (s : Files ι) (f : Fin NFILE) (v : File ι) : Files ι := { s with file := Function.update s.file f v }

def setPipe (s : Files ι) (k : Fin NPIPE) (p : Pipe) : Files ι := { s with pipe := Function.update s.pipe k p }

/-- `tcb_set_openfiles`. -/
def setOpenfiles (s : Files ι) (pid : ℕ) (fd : Fin NOFILE) (f : Option (Fin NFILE)) : Files ι :=
  { s with openfiles := Function.update s.openfiles (pid, fd) f }

def fileAlloc (s : Files ι) : Option (Fin NFILE × Files ι) :=
  match (List.finRange NFILE).find? fun f => (s.file f).ref = 0 with
  | none => none
  | some f => some (f, s.setFile f { s.file f with ref := 1 })

def fileDup (s : Files ι) (f : Fin NFILE) : Except FilePanic (Files ι) :=
  if (s.file f).ref < 1 then .error .fileDup
  else .ok (s.setFile f { s.file f with ref := (s.file f).ref + 1 })

def pipeClose (s : Files ι) (p : Option (Fin NPIPE)) (writable : Bool) :
    Except FilePanic (Files ι × List (FileCall ι)) :=
  match p with
  | none => .error .null
  | some k =>
    let r := (s.pipe k).close writable
    .ok (s.setPipe k r.1, [.wakeup k r.2])

def fileClose (s : Files ι) (f : Fin NFILE) : Except FilePanic (Files ι × List (FileCall ι)) :=
  let ff := s.file f
  if ff.ref < 1 then .error .fileClose
  else if 0 < ff.ref - 1 then .ok (s.setFile f { ff with ref := ff.ref - 1 }, [])
  else
    let s₁ := s.setFile f { ff with ref := 0, type := .none }
    match ff.type with
    | .pipe => s₁.pipeClose ff.pipe ff.writable
    | .inode =>
      match ff.ip with
      | none => .error .null
      | some ip => .ok (s₁, [.inodePut ip])
    | _ => .ok (s₁, [])

/-- The ends of pipe `k`, stored in `f₀` and `f₁` at the end of `pipe_alloc`. -/
def setEnds (s : Files ι) (f₀ f₁ : Fin NFILE) (k : Fin NPIPE) : Files ι :=
  let s₁ := s.setFile f₀ { s.file f₀ with type := .pipe, readable := true, writable := false, pipe := some k }
  s₁.setFile f₁ { s₁.file f₁ with type := .pipe, readable := false, writable := true, pipe := some k }

/-- `pipe_alloc`: the read and the write end, if there are two file structures and a pipe. -/
def pipeAlloc (s : Files ι) :
    Except FilePanic (Files ι × List (FileCall ι) × Option (Fin NFILE × Fin NFILE)) :=
  match s.fileAlloc with
  | none => .ok (s, [], none)
  | some (f₀, s₁) =>
    match s₁.fileAlloc with
    | none => do
      let (s₂, c) ← s₁.fileClose f₀
      .ok (s₂, c, none)
    | some (f₁, s₂) =>
      match (List.finRange NPIPE).find? fun k => (s₂.pipe k).ref = 0 with
      | none => do
        let (s₃, c) ← s₂.fileClose f₀
        let (s₄, c') ← s₃.fileClose f₁
        .ok (s₄, c ++ c', none)
      | some k => .ok ((s₂.setPipe k (s₂.pipe k).opened).setEnds f₀ f₁ k, [], some (f₀, f₁))

/-! ### Descriptors -/

def fdalloc (s : Files ι) (pid : ℕ) (f : Fin NFILE) : Option (Fin NOFILE × Files ι) :=
  match (List.finRange NOFILE).find? fun fd => s.openfiles (pid, fd) = none with
  | none => none
  | some fd => some (fd, s.setOpenfiles pid fd (some f))

/-- A console file structure of its own in descriptor `fd`, if there is one left. -/
def consoleFd (s : Files ι) (pid : ℕ) (fd : Fin NOFILE) (type : FdType) (readable writable : Bool) : Files ι :=
  match s.fileAlloc with
  | none => s
  | some (f, s₁) =>
    (s₁.setFile f { s₁.file f with type := type, readable := readable, writable := writable, ref := 1 }).setOpenfiles
      pid fd (some f)

def consoleInitFds (s : Files ι) (pid : ℕ) : Files ι :=
  let s₁ := s.consoleFd pid 0 .consoleIn true false
  let s₂ := s₁.consoleFd pid 1 .consoleOut false true
  s₂.consoleFd pid 2 .consoleOut false true

/-- The structure behind descriptor `fd`, if `fd` is in range and open. -/
def lookup (s : Files ι) (pid : ℕ) (fd : ℤ) : Option (Fin NFILE) :=
  if 0 ≤ fd ∧ fd < NOFILE then s.openfiles (pid, Fin.ofNat NOFILE fd.toNat) else none

/-- One descriptor of `sys_spawn`: the parent's descriptor `src`, or a console for `-1`. -/
def inheritFd (s : Files ι) (curid newPid : ℕ) (fd : Fin NOFILE) (src : ℤ) (type : FdType)
    (readable writable : Bool) : Except FilePanic (Files ι) :=
  match s.lookup curid src with
  | some f => do
    let s₁ ← s.fileDup f
    .ok (s₁.setOpenfiles newPid fd (some f))
  | none => .ok (if src = -1 then s.consoleFd newPid fd type readable writable else s)

/-- The descriptors of `sys_spawn`. -/
def spawnFds (s : Files ι) (curid newPid : ℕ) (stdinFd stdoutFd : ℤ) : Except FilePanic (Files ι) :=
  if stdinFd = -1 ∧ stdoutFd = -1 then .ok (s.consoleInitFds newPid)
  else do
    let s₁ ← s.inheritFd curid newPid 0 stdinFd .consoleIn true false
    s₁.inheritFd curid newPid 1 stdoutFd .consoleOut false true

def closeFd (s : Files ι) (pid : ℕ) (fd : Fin NOFILE) : Except FilePanic (Files ι × List (FileCall ι)) :=
  match s.openfiles (pid, fd) with
  | none => .ok (s, [])
  | some f => do
    let (s₁, c) ← s.fileClose f
    .ok (s₁.setOpenfiles pid fd none, c)

/-- The loop of `sys_exit` over the descriptors `fds`. -/
def closeFds (s : Files ι) (pid : ℕ) : List (Fin NOFILE) → Except FilePanic (Files ι × List (FileCall ι))
  | [] => .ok (s, [])
  | fd :: fds => do
    let (s₁, c) ← s.closeFd pid fd
    let (s₂, c') ← s₁.closeFds pid fds
    .ok (s₂, c ++ c')

/-! ### System calls -/

/-- `sys_open`, once it has the inode `ip`. When it fails it puts `ip` again. -/
def sysOpen (s : Files ι) (pid : ℕ) (omode : BitVec 32) (ip : ι) :
    Except FilePanic (Files ι × List (FileCall ι) × Except Errno (Fin NOFILE)) :=
  match s.fileAlloc with
  | none => .ok (s, [], .error .diskOp)
  | some (f, s₁) =>
    match s₁.fdalloc pid f with
    | none => do
      let (s₂, c) ← s₁.fileClose f
      .ok (s₂, c, .error .diskOp)
    | some (fd, s₂) =>
      .ok (s₂.setFile f { s₂.file f with
          type := .inode
          ip := some ip
          off := 0
          readable := !omode.getLsbD 0
          writable := omode.getLsbD 0 || omode.getLsbD 1 }, [], .ok fd)

def sysPipe (s : Files ι) (pid : ℕ) (userFdsAddr : UInt32) :
    Except FilePanic (Files ι × List (FileCall ι) × Except Errno (Fin NOFILE × Fin NOFILE)) :=
  if userFdsAddr < VM_USERLO ∨ VM_USERHI < userFdsAddr + 8 then .ok (s, [], .error .invalAddr)
  else do
    let (s₁, c, ends) ← s.pipeAlloc
    match ends with
    | none => .ok (s₁, c, .error .badf)
    | some (rf, wf) =>
      match s₁.fdalloc pid rf with
      | none =>
        let (s₂, c₁) ← s₁.fileClose rf
        let (s₃, c₂) ← s₂.fileClose wf
        .ok (s₃, c ++ (c₁ ++ c₂), .error .badf)
      | some (fd₀, s₂) =>
        match s₂.fdalloc pid wf with
        | none =>
          let (s₃, c₁) ← (s₂.setOpenfiles pid fd₀ none).fileClose rf
          let (s₄, c₂) ← s₃.fileClose wf
          .ok (s₄, c ++ (c₁ ++ c₂), .error .badf)
        | some (fd₁, s₃) => .ok (s₃, c, .ok (fd₀, fd₁))

def sysClose (s : Files ι) (pid fd : ℕ) : Except FilePanic (Files ι × List (FileCall ι) × Errno) :=
  match s.lookup pid fd with
  | none => .ok (s, [], .badf)
  | some _ => do
    let (s₁, c) ← s.closeFd pid (Fin.ofNat NOFILE fd)
    .ok (s₁, c, .succ)

/-- What a segment of `sys_read` does when the descriptor is a pipe: `file_read` and `pipe_read`. -/
def readPipe (s : Files ι) (pid fd n : ℕ) : Files ι :=
  match s.lookup pid fd with
  | none => s
  | some f =>
    match (s.file f).readable, (s.file f).type, (s.file f).pipe with
    | true, .pipe, some k =>
      match pipeRead n (s.pipe k) with
      | none => s
      | some (p, _) => s.setPipe k p
    | _, _, _ => s

/-- What a segment of `sys_write` does when the descriptor is a pipe: `file_write` and `pipe_write`. -/
def writePipe (s : Files ι) (pid fd : ℕ) (bs : List UInt8) : Files ι :=
  match s.lookup pid fd with
  | none => s
  | some f =>
    match (s.file f).writable, (s.file f).type, (s.file f).pipe with
    | true, .pipe, some k => s.setPipe k (pipeWriteRun bs (s.pipe k)).1
    | _, _, _ => s

end Files

/-! ### Processes and their calls -/

/-- The file table and the processes that use it. -/
structure FileProcs (ι : Type*) where
  files : Files ι
  /-- `CONTAINER`, for the ids of children. -/
  container : Containers
  spawned : List ℕ

/-- The system calls that concern descriptors. -/
inductive FileOp (ι : Type*) where
  /-- `sys_open`; what `create` or `namei` came to. -/
  | open (omode : BitVec 32) (ip : Except Errno ι)
  /-- `sys_pipe`. -/
  | pipe (userFdsAddr : UInt32)
  /-- `sys_close`. -/
  | close (fd : ℕ)
  /-- `sys_spawn`. -/
  | spawn (elfId : ℕ) (quota : UInt32) (stdinFd stdoutFd : ℤ)
  /-- `sys_exit`. -/
  | exit
  /-- A segment of `sys_read` on a pipe. -/
  | read (fd n : ℕ)
  /-- A segment of `sys_write` on a pipe. -/
  | write (fd : ℕ) (bs : List UInt8)

/-- The call `op` of process `pid`. -/
def FileProcs.call {ι : Type*} (s : FileProcs ι) (pid : ℕ) : FileOp ι → Except FilePanic (FileProcs ι)
  | .open _ (.error _) => .ok s
  | .open omode (.ok ip) => do
    let (t, _, _) ← s.files.sysOpen pid omode ip
    .ok { s with files := t }
  | .pipe addr => do
    let (t, _, _) ← s.files.sysPipe pid addr
    .ok { s with files := t }
  | .close fd => do
    let (t, _, _) ← s.files.sysClose pid fd
    .ok { s with files := t }
  | .spawn elfId quota stdinFd stdoutFd =>
    match spawnError s.container pid elfId quota with
    | some _ => .ok s
    | none => do
      let child := (containerSplit s.container pid quota).1
      let t ← s.files.spawnFds pid child stdinFd stdoutFd
      .ok ⟨t, (containerSplit s.container pid quota).2, child :: s.spawned⟩
  | .exit => do
    let (t, _) ← s.files.closeFds pid (List.finRange NOFILE)
    .ok { s with
      files := t
      container := containerRefundUsage s.container (s.container pid).parent (s.container pid).quota }
  | .read fd n => .ok { s with files := s.files.readPipe pid fd n }
  | .write fd bs => .ok { s with files := s.files.writePipe pid fd bs }

/-- The file table before `kern_main`: zeros. -/
def Files.init {ι : Type*} : Files ι := ⟨fun _ => ⟨.none, 0, false, false, none, none, 0⟩, fun _ => zeroPipe, fun _ => none⟩

/-- After `kern_main`: the idle process and the shell, which has the console. -/
def FileProcs.boot {ι : Type*} (quota : UInt32) : FileProcs ι where
  files := Files.init.consoleInitFds 2
  container := (containerSplit (containerSplit (containerInit quota) 0 1000).2 0 200000).2
  spawned := [2, 1]

end MCertiKOS.FileSystem
