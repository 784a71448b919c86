import MCertiKOS.FileSystem.Path

/-!
# The system calls of the file system

`kern/fs/sysfile.c`, the inode part of `kern/fs/file.c`, and `sys_ls`,
`sys_pwd`, `sys_spawn` and `sys_exit` of `kern/trap/TSyscall/TSyscall.c` as far
as they concern the file system. Paths and data have been copied from the
process (`Memory.UserCopy`), and what is to be copied back is returned; what
`sys_ls` and `sys_pwd` put in their buffers from the names is in
`FileSystem.Listing` and `FileSystem.WorkingDir`. Reading and writing pipes and
the console is in `FileSystem.PipeWait`.
-/

namespace MCertiKOS.FileSystem.Fs

open Library Memory Thread

/-- A path copied from the process: at most `127` bytes, up to a zero. -/
def userPath (bs : List UInt8) : List UInt8 := (bs.take 127).takeWhile (· ≠ 0)

/-- `nlink++`, in 16 bits. -/
def Dinode.incLink (d : Dinode) : Dinode := { d with nlink := (d.nlink + 1) % 2 ^ 16 }

/-- `nlink--`, in 16 bits. -/
def Dinode.decLink (d : Dinode) : Dinode := { d with nlink := (d.nlink + (2 ^ 16 - 1)) % 2 ^ 16 }

/-- `ip->nlink++; inode_update(ip)`. -/
def incLink (ip : InodePtr) : Code FsOp PUnit := do
  let n ← Code.op (.node ip)
  Code.op (.setNode ip n.d.incLink)
  inodeUpdate ip

/-- `ip->nlink--; inode_update(ip)`. -/
def decLink (ip : InodePtr) : Code FsOp PUnit := do
  let n ← Code.op (.node ip)
  Code.op (.setNode ip n.d.decLink)
  inodeUpdate ip

/-! ### Files -/

/-- What `file_close` does besides the file table. -/
def runCalls : List (FileCall InodePtr) → Code FsOp PUnit
  | [] => pure ⟨⟩
  | .wakeup _ _ :: cs => runCalls cs
  | .inodePut ip :: cs => do
    beginTrans
    inodePut ip
    commitTrans
    runCalls cs

def fileClose (f : Fin NFILE) : Code FsOp PUnit := do
  let cs ← Code.op (.fileClose f)
  runCalls cs

/-- `f->ip`. -/
def fileInode (f : Fin NFILE) : Code FsOp InodePtr := do
  let ff ← Code.op (.file f)
  match ff.ip with
  | none => stop .null
  | some ip => return ip

/-- `file_read` of an inode: the bytes, or `none` for `-1`. -/
def fileRead (f : Fin NFILE) (n : ℕ) : Code FsOp (Option (List UInt8)) := do
  let ip ← fileInode f
  inodeLock ip
  let ff ← Code.op (.file f)
  match ← inodeRead ip ff.off.toNat n with
  | none => do
    inodeUnlock ip
    return none
  | some bs => do
    Code.op (.advance f bs.length)
    inodeUnlock ip
    return some bs

/-- `max` of `file_write`. -/
def maxWrite : ℕ := ((LOGSIZE - 1 - 1 - 2) / 2) * 512

/-- The loop of `file_write` of an inode, with at most `fuel` rounds; `false` for `-1`. -/
def writeChunks (f : Fin NFILE) : ℕ → List UInt8 → Code FsOp Bool
  | 0, _ => pure true
  | fuel + 1, bs =>
    if bs = [] then pure true
    else do
      let n1 := min bs.length maxWrite
      beginTrans
      let ip ← fileInode f
      inodeLock ip
      let ff ← Code.op (.file f)
      match ← inodeWrite ip (bs.take n1) ff.off.toNat with
      | none => do
        inodeUnlock ip
        commitTrans
        return false
      | some r => do
        Code.op (.advance f r)
        inodeUnlock ip
        commitTrans
        if r ≠ n1 then stop .shortWrite else writeChunks f fuel (bs.drop n1)

/-- `file_write` of an inode. Each round writes a byte at least. -/
def fileWrite (f : Fin NFILE) (bs : List UInt8) : Code FsOp Bool := writeChunks f bs.length bs

open scoped FileSystem.Sizes in
/-- The structure behind descriptor `fd`, if `fd` is in range and open. -/
def fdFile (fd : ℤ) : Code FsOp (Option (Fin NFILE)) :=
  if 0 ≤ fd ∧ fd < NOFILE then Code.op (.openfile (Fin.ofNat NOFILE fd.toNat)) else pure none

/-- The buffer of a process that `sys_read` and `sys_write` refuse. -/
def badBuffer (userBuf n : UInt32) : Bool := userBuf < VM_USERLO ∨ VM_USERHI < userBuf + n ∨ 4096 < n

/-- `sys_read`, of a file: what is read, or `none` for `-1`. -/
def sysRead (fd : ℤ) (userBuf n : UInt32) : Code FsOp (Except Errno (Option (List UInt8))) := do
  if ¬ (0 ≤ fd ∧ fd < NOFILE) then return .error .badf
  else if badBuffer userBuf n then return .error .invalAddr
  else do
    match ← fdFile fd with
    | none => return .error .badf
    | some f => do
      let ff ← Code.op (.file f)
      if ff.type = .inode ∧ ff.ip = none then return .error .badf
      else if ff.readable = false then return .ok none
      else
        match ff.type with
        | .inode => do
          let bs ← fileRead f n.toNat
          return .ok bs
        | .none => stop (.file .fileRead)
        | .consoleOut => stop (.file .fileRead)
        | .pipe => return .ok none
        | .consoleIn => return .ok none

/-- `sys_write`, of a file: whether all is written. -/
def sysWrite (fd : ℤ) (userBuf : UInt32) (bs : List UInt8) : Code FsOp (Except Errno Bool) := do
  if ¬ (0 ≤ fd ∧ fd < NOFILE) then return .error .badf
  else if badBuffer userBuf (UInt32.ofNat bs.length) then return .error .invalAddr
  else do
    match ← fdFile fd with
    | none => return .error .badf
    | some f => do
      let ff ← Code.op (.file f)
      if ff.type = .inode ∧ ff.ip = none then return .error .badf
      else if ff.writable = false then return .ok false
      else
        match ff.type with
        | .inode => do
          let ok ← fileWrite f bs
          return .ok ok
        | .none => stop (.file .fileWrite)
        | .consoleIn => stop (.file .fileWrite)
        | .pipe => return .ok true
        | .consoleOut => return .ok true

open scoped FileSystem.Sizes in
def sysClose (fd : ℕ) : Code FsOp Errno := do
  match ← fdFile fd with
  | none => return .badf
  | some f => do
    fileClose f
    Code.op (.clearFd (Fin.ofNat NOFILE fd))
    return .succ

/-! ### Names -/

/-- `bad` of `sys_link`. -/
def linkBad (ip : InodePtr) : Code FsOp Errno := do
  inodeLock ip
  decLink ip
  inodeUnlockput ip
  commitTrans
  return .diskOp

def sysLink (old new : List UInt8) : Code FsOp Errno := do
  match ← namei (userPath old) with
  | none => return .nexist
  | some ip => do
    beginTrans
    inodeLock ip
    let n ← Code.op (.node ip)
    if n.d.type = T_DIR then do
      inodeUnlockput ip
      commitTrans
      return .diskOp
    else do
      incLink ip
      inodeUnlock ip
      match ← nameiparent (userPath new) with
      | none => linkBad ip
      | some (dp, name) => do
        inodeLock dp
        let n ← Code.op (.node ip)
        let ok ← dirLink dp name n.inum
        inodeUnlockput dp
        if ok then do
          inodePut ip
          commitTrans
          return .succ
        else linkBad ip

/-- The loop of `isdirempty`, for `n` entries from `off` on. -/
def emptyLoop (dp : InodePtr) : ℕ → ℕ → Code FsOp Bool
  | 0, _ => pure true
  | n + 1, off => do
    match ← inodeRead dp off DESIZE with
    | none => stop .isdirempty
    | some bs =>
      if bs.length ≠ DESIZE then stop .isdirempty
      else if (getDirent bs).inum ≠ 0 then return false
      else emptyLoop dp n (off + DESIZE)

def isdirempty (dp : InodePtr) : Code FsOp Bool := do
  let n ← Code.op (.node dp)
  emptyLoop dp (entries n.d.size (2 * DESIZE)) (2 * DESIZE)

/-- `bad` of `sys_unlink`. -/
def unlinkBad (dp : InodePtr) : Code FsOp Errno := do
  inodeUnlockput dp
  commitTrans
  return .diskOp

/-- `sys_unlink`, once the entry has been found and may be removed. -/
def unlinkEntry (dp ip : InodePtr) (off : ℕ) (isDir : Bool) : Code FsOp Errno := do
  if (← inodeWrite dp (List.replicate DESIZE 0) off) = some DESIZE then do
    (if isDir then decLink dp else pure ⟨⟩ : Code FsOp PUnit)
    inodeUnlockput dp
    decLink ip
    inodeUnlockput ip
    commitTrans
    return .succ
  else stop .unlink

def sysUnlink (path : List UInt8) : Code FsOp Errno := do
  match ← nameiparent (userPath path) with
  | none => return .diskOp
  | some (dp, name) => do
    beginTrans
    inodeLock dp
    if dirNamecmp name dot ∨ dirNamecmp name dotdot then unlinkBad dp
    else do
      match ← dirLookup dp name with
      | none => unlinkBad dp
      | some (ip, off) => do
        inodeLock ip
        let n ← Code.op (.node ip)
        if n.d.nlink = 0 ∨ 2 ^ 15 ≤ n.d.nlink then stop .nlink
        else if n.d.type = T_DIR then do
          if ← isdirempty ip then unlinkEntry dp ip off true
          else do
            inodeUnlockput ip
            unlinkBad dp
        else unlinkEntry dp ip off false

/-- `create`, of a name that is new, in the directory `dp`. -/
def createNew (dp : InodePtr) (name : List UInt8) (type major minor : ℕ) : Code FsOp InodePtr := do
  let ip ← inodeAlloc type
  inodeLock ip
  let n ← Code.op (.node ip)
  Code.op (.setNode ip { n.d with major := major, minor := minor, nlink := 1 })
  inodeUpdate ip
  (if type = T_DIR then do
    incLink dp
    let d ← Code.op (.node dp)
    if ← dirLink ip dot n.inum then
      if ← dirLink ip dotdot d.inum then pure ⟨⟩ else stop .createDots
    else stop .createDots
  else pure ⟨⟩ : Code FsOp PUnit)
  if ← dirLink dp name n.inum then do
    inodeUnlockput dp
    return ip
  else stop .createLink

/-- `create`: the inode, locked. -/
def create (path : List UInt8) (type major minor : ℕ) : Code FsOp (Option InodePtr) := do
  match ← nameiparent path with
  | none => return none
  | some (dp, name) => do
    inodeLock dp
    match ← dirLookup dp name with
    | some (ip, _) => do
      inodeUnlockput dp
      inodeLock ip
      let n ← Code.op (.node ip)
      if type = T_FILE ∧ n.d.type = T_FILE then return some ip
      else do
        inodeUnlockput ip
        return none
    | none => do
      let ip ← createNew dp name type major minor
      return some ip

def logInit : Code FsOp PUnit := do
  let sb ← readSuperblock
  Code.op (.setPlace (sb.size - sb.nlog) sb.nlog)
  recoverFromLog

/-- `sys_open`, once it has the inode `ip`, locked. -/
def openInode (omode : BitVec 32) (ip : InodePtr) : Code FsOp (Except Errno (Fin NOFILE)) := do
  let (cs, r) ← Code.op (.openFd omode ip)
  match r with
  | .error e => do
    runCalls cs
    inodeUnlockput ip
    return .error e
  | .ok fd => do
    inodeUnlock ip
    return .ok fd

/-- `sys_open`. `O_CREATE` is `0x200`, `O_RDONLY` is `0`. -/
def sysOpen (path : List UInt8) (omode : BitVec 32) : Code FsOp (Except Errno (Fin NOFILE)) := do
  (if ← Code.op .first then logInit else pure ⟨⟩ : Code FsOp PUnit)
  if omode.getLsbD 9 then do
    beginTrans
    let ip ← create (userPath path) T_FILE 0 0
    commitTrans
    match ip with
    | none => return .error .create
    | some ip => openInode omode ip
  else do
    match ← namei (userPath path) with
    | none => return .error .nexist
    | some ip => do
      inodeLock ip
      let n ← Code.op (.node ip)
      if n.d.type = T_DIR ∧ omode ≠ 0 then do
        inodeUnlockput ip
        return .error .diskOp
      else openInode omode ip

def sysMkdir (path : List UInt8) : Code FsOp Errno := do
  beginTrans
  match ← create (userPath path) T_DIR 0 0 with
  | none => do
    commitTrans
    return .diskOp
  | some ip => do
    inodeUnlockput ip
    commitTrans
    return .succ

def sysChdir (path : List UInt8) : Code FsOp Errno := do
  match ← namei (userPath path) with
  | none => return .diskOp
  | some ip => do
    inodeLock ip
    let n ← Code.op (.node ip)
    if n.d.type ≠ T_DIR then do
      inodeUnlockput ip
      return .diskOp
    else do
      inodeUnlock ip
      match ← Code.op .oldCwd with
      | none => stop .null
      | some old => do
        inodePut old
        Code.op (.setCwd ip)
        return .succ

/-! ### Listing, spawning and exiting -/

/-- The loop of `sys_ls`, for `n` entries from `off` on: the names. -/
def lsLoop (dp : InodePtr) : ℕ → ℕ → Code FsOp (List (List UInt8))
  | 0, _ => pure []
  | n + 1, off => do
    match ← inodeRead dp off DESIZE with
    | none => stop .dirLookup
    | some bs =>
      if bs.length ≠ DESIZE then stop .dirLookup
      else do
        let names ← lsLoop dp n (off + DESIZE)
        return if (getDirent bs).inum = 0 then names else (getDirent bs).name :: names

def sysLs : Code FsOp (List (List UInt8)) := do
  let dp ← getCwd
  inodeLock dp
  let n ← Code.op (.node dp)
  let names ← lsLoop dp (entries n.d.size 0) 0
  inodeUnlock dp
  return names

/-- The inner loop of `sys_pwd`, for `n` entries of `parent` from `off` on: the name of inode `inum`. -/
def pwdName (parent : InodePtr) (inum : ℕ) : ℕ → ℕ → Code FsOp (Option (List UInt8))
  | 0, _ => pure none
  | n + 1, off => do
    match ← inodeRead parent off DESIZE with
    | none => return none
    | some bs =>
      if bs.length ≠ DESIZE then return none
      else if (getDirent bs).inum = inum then return some (getDirent bs).name
      else pwdName parent inum n (off + DESIZE)

/-- The outer loop of `sys_pwd`, with at most `fuel` rounds: the names from the working directory up. -/
def pwdLoop : ℕ → InodePtr → Code FsOp (List (List UInt8))
  | 0, _ => stop .running
  | fuel + 1, curi => do
    match ← dirLookup curi dotdot with
    | none => stop .null
    | some (parent, _) => do
      let c ← Code.op (.node curi)
      let p ← Code.op (.node parent)
      if p.inum = c.inum then return []
      else do
        let name ← pwdName parent c.inum (entries p.d.size 0) 0
        let names ← pwdLoop fuel parent
        return name.toList ++ names

/-- `sys_pwd`, with at most `fuel` rounds of its loop. -/
def sysPwd (fuel : ℕ) : Code FsOp (List (List UInt8)) := do
  let curi ← getCwd
  pwdLoop fuel curi

/-- The loop of `sys_exit`. -/
def exitLoop : List (Fin NOFILE) → Code FsOp PUnit
  | [] => pure ⟨⟩
  | fd :: fds => do
    match ← Code.op (.openfile fd) with
    | none => exitLoop fds
    | some f => do
      fileClose f
      Code.op (.clearFd fd)
      exitLoop fds

def sysExit : Code FsOp PUnit := do
  exitLoop (List.finRange NOFILE)
  Code.op .die

/-- The system calls. -/
inductive FsCall where
  /-- `sys_open`. -/
  | open (path : List UInt8) (omode : BitVec 32)
  /-- `sys_close`. -/
  | close (fd : ℕ)
  /-- `sys_read`. -/
  | read (fd : ℤ) (userBuf n : UInt32)
  /-- `sys_write`. -/
  | write (fd : ℤ) (userBuf : UInt32) (bs : List UInt8)
  /-- `sys_mkdir`. -/
  | mkdir (path : List UInt8)
  /-- `sys_chdir`. -/
  | chdir (path : List UInt8)
  /-- `sys_link`. -/
  | link (old new : List UInt8)
  /-- `sys_unlink`. -/
  | unlink (path : List UInt8)
  /-- `sys_ls`. -/
  | ls
  /-- `sys_pwd`, with at most `fuel` rounds of its loop. -/
  | pwd (fuel : ℕ)
  /-- `sys_spawn`. -/
  | spawn (elfId : ℕ) (quota : UInt32) (stdinFd stdoutFd : ℤ)
  /-- `sys_exit`. -/
  | exit
  /-- `sys_kill` with `SIGKILL`. -/
  | kill (pid : ℤ)
  /-- The process is terminated on the way back to the user program. -/
  | terminate

def syscall {α : Type} (c : Code FsOp α) : Code FsOp PUnit := do
  Code.op .enter
  let _ ← c
  Code.op .leave

def FsCall.code : FsCall → Code FsOp PUnit
  | .open path omode => syscall (sysOpen path omode)
  | .close fd => syscall (sysClose fd)
  | .read fd userBuf n => syscall (sysRead fd userBuf n)
  | .write fd userBuf bs => syscall (sysWrite fd userBuf bs)
  | .mkdir path => syscall (sysMkdir path)
  | .chdir path => syscall (sysChdir path)
  | .link old new => syscall (sysLink old new)
  | .unlink path => syscall (sysUnlink path)
  | .ls => syscall sysLs
  | .pwd fuel => syscall (sysPwd fuel)
  | .spawn elfId quota stdinFd stdoutFd => syscall (Code.op (.spawn elfId quota stdinFd stdoutFd))
  | .exit => do
    Code.op .enter
    sysExit
  | .kill pid => syscall (Code.op (.kill pid))
  | .terminate => Code.op .terminate

/-- The machine after `kern_main`, on the disk `d`. -/
def FS.boot (d : Disk) (quota : UInt32) : FS where
  store := Store.boot d 0 0
  inode _ := ⟨0, 0, false, false, ⟨0, 0, 0, 0, 0, fun _ => 0⟩⟩
  procs := FileProcs.boot quota
  cwd _ := none
  first := true
  dead _ := false
  taken := []

end MCertiKOS.FileSystem.Fs
