import MCertiKOS.FileSystem.File
import MCertiKOS.FileSystem.Log
import MCertiKOS.Library.Code
import Mathlib.Data.Fintype.Basic
import Mathlib.Data.List.FinRange

/-!
# The file system: its state and its operations

What the functions of `kern/fs` work on: the store of `FileSystem.Bufcache` and `FileSystem.Log`, the inode cache,
the file table and the working directories. Their code is written once, as programs of the operations `FsOp`. Run
alone it is a computation (`Code.run`); run by several processes it may be interrupted between any two operations.

All inodes are on `ROOTDEV`. The 16- and 32-bit fields of an inode are numbers below `2 ^ 16` and `2 ^ 32`. `taken`
is not in the source: it has the blocks that `block_alloc` has found, latest first. Nor are the operations `enter`,
`leave`, `allocating`, `freeing`, `scan` and `took`, which say where a process is; `taken` apart they do nothing.
-/

namespace MCertiKOS.FileSystem.Fs

open Library Memory Thread

abbrev NINODE : ℕ := 50

abbrev NDIRECT : ℕ := 12

abbrev NINDIRECT : ℕ := 128

abbrev MAXFILE : ℕ := 140

abbrev ROOTINO : ℕ := 1

abbrev NDEV : ℕ := 10

abbrev T_DIR : ℕ := 1

abbrev T_FILE : ℕ := 2

abbrev T_DEV : ℕ := 3

namespace Sizes

scoped instance neZero_ninode : NeZero NINODE := ⟨by decide⟩

scoped instance (priority := 2000) neZero_addrs : NeZero (NDIRECT + 1) := ⟨by decide⟩

end Sizes

/-- `struct dinode`. -/
@[ext]
structure Dinode where
  /-- The type; `0` for a free inode. -/
  type : ℕ
  major : ℕ
  minor : ℕ
  nlink : ℕ
  size : ℕ
  /-- Block addresses; the last one is that of the indirect block. -/
  addrs : Fin (NDIRECT + 1) → ℕ

/-- `struct inode`. -/
structure Inode where
  inum : ℕ
  ref : ℤ
  /-- `I_BUSY`. -/
  busy : Bool
  /-- `I_VALID`. -/
  valid : Bool
  d : Dinode

abbrev InodePtr := Fin NINODE

/-- The state of the file system. -/
structure FS where
  store : Store
  /-- `inode_cache.inode`. -/
  inode : InodePtr → Inode
  procs : FileProcs InodePtr
  /-- `TCBPool[pid].cwd`. -/
  cwd : ℕ → Option InodePtr
  /-- `first` of `sys_open`. -/
  first : Bool
  /-- The processes whose state has been set to `TSTATE_DEAD`. -/
  dead : ℕ → Bool
  /-- The blocks found by `block_alloc`. -/
  taken : List ℕ

/-- Why a process stops. -/
inductive FsStop where
  /-- In the buffer cache or the log. -/
  | store (e : Stop)
  /-- `thread_sleep` in `inode_lock`. -/
  | sleep
  /-- `block_alloc` finds no free block and returns nothing. -/
  | noBlocks
  /-- `KERN_PANIC("freeing free block")`. -/
  | freeBlock
  /-- `KERN_PANIC("inode_alloc: no inodes")`. -/
  | inodeAlloc
  /-- `KERN_PANIC("inode_get: no inodes")`. -/
  | inodeGet
  /-- `KERN_PANIC("inode_lock")`. -/
  | inodeLock
  /-- `KERN_PANIC("inode_lock: no type")`. -/
  | noType
  /-- `KERN_PANIC("inode_unlock")`. -/
  | inodeUnlock
  /-- `KERN_PANIC("inode_put busy")`. -/
  | putBusy
  /-- `KERN_PANIC("bmap: out of range")`. -/
  | bmap
  /-- `devsw` is `NULL`. -/
  | devsw
  /-- `KERN_PANIC("dir_lookup not DIR")`. -/
  | notDir
  /-- `KERN_PANIC("wrong in dir_lookup")`. -/
  | dirLookup
  /-- `KERN_PANIC("entry size … is not correct, dir_link")`. -/
  | dirLink
  /-- `KERN_PANIC("isdirempty: readi")`. -/
  | isdirempty
  /-- `KERN_PANIC("unlink: nlink < 1")`. -/
  | nlink
  /-- `KERN_PANIC("unlink: writei")`. -/
  | unlink
  /-- `KERN_PANIC("create dots")`. -/
  | createDots
  /-- `KERN_PANIC("create: dir_link")`. -/
  | createLink
  /-- `KERN_PANIC("short file_write")`. -/
  | shortWrite
  /-- In the file table. -/
  | file (e : FilePanic)
  /-- A dereference of `NULL`. -/
  | null
  /-- A loop that is not over. -/
  | running
  /-- The process is dead. -/
  | dead

/-- What a process does without being interrupted. -/
inductive FsOp : Type → Type where
  /-- A system call begins. -/
  | enter : FsOp PUnit
  /-- A system call is over. -/
  | leave : FsOp PUnit
  /-- `bufcache_get`. -/
  | bget (x : ℕ) : FsOp (Fin NBUF)
  /-- `bufcache_get` of a sector of the log. -/
  | lget (x : ℕ) : FsOp (Fin NBUF)
  /-- `b->flags & B_VALID`. -/
  | valid (b : Fin NBUF) : FsOp Bool
  | ideRw (b : Fin NBUF) : FsOp PUnit
  /-- `b->flags |= B_DIRTY` in `bufcache_write`. -/
  | markDirty (b : Fin NBUF) : FsOp PUnit
  /-- `bufcache_release`. -/
  | brelse (b : Fin NBUF) : FsOp PUnit
  /-- `b->data` is read. -/
  | data (b : Fin NBUF) : FsOp Block
  /-- `b->data` is stored in. -/
  | setData (b : Fin NBUF) (v : Block) : FsOp PUnit
  /-- `memmove(c->data, b->data, BSIZE)`. -/
  | copy (c b : Fin NBUF) : FsOp PUnit
  /-- `log` is read. -/
  | log : FsOp Log
  /-- `log.start` and `log.size` are set. -/
  | setPlace (start size : ℕ) : FsOp PUnit
  /-- The header in `b` is copied to `log.lh`. -/
  | getHead (b : Fin NBUF) : FsOp PUnit
  /-- `log.lh` is copied to the header in `b`. -/
  | putHead (b : Fin NBUF) : FsOp PUnit
  /-- `log.lh.n = 0`. -/
  | clearN : FsOp PUnit
  /-- `log_write`, up to `bufcache_read`: the index, the sector of the log to read, and the sector of `b`. -/
  | logStart (b : Fin NBUF) : FsOp (ℕ × ℕ × ℕ)
  /-- `log_write` of sector `x`, from `bufcache_release` on. -/
  | logEnd (b : Fin NBUF) (i x : ℕ) : FsOp PUnit
  | beginTrans : FsOp PUnit
  /-- `log.busy = 0` in `commit_trans`. -/
  | endTrans : FsOp PUnit
  /-- `block_alloc` is called. -/
  | allocating : FsOp PUnit
  /-- `block_free` is called for block `x`. -/
  | freeing (x : ℕ) : FsOp PUnit
  /-- `block_alloc` has found block `x`. -/
  | took (x : ℕ) : FsOp PUnit
  /-- `inode_alloc` is called. -/
  | scan : FsOp PUnit
  /-- The fields of `*ip` are read. -/
  | node (ip : InodePtr) : FsOp Inode
  /-- `ip->addrs[NDIRECT]` is read. -/
  | indirect (ip : InodePtr) : FsOp ℕ
  /-- The copy of the inode on disk is changed. -/
  | setNode (ip : InodePtr) (d : Dinode) : FsOp PUnit
  /-- `inode_get` of the root. -/
  | igetRoot : FsOp InodePtr
  /-- `inode_get` of the inode that the entry `name` of `dp` names. -/
  | igetEntry (dp : InodePtr) (name : List UInt8) (inum : ℕ) : FsOp InodePtr
  /-- `inode_get` of the inode that `inode_alloc` has found. -/
  | igetNew (inum : ℕ) : FsOp InodePtr
  /-- `inode_dup`. -/
  | idup (ip : InodePtr) : FsOp PUnit
  /-- `inode_lock`, up to the setting of `I_BUSY`: whether the inode is valid. -/
  | ilock (ip : InodePtr) : FsOp Bool
  /-- `inode_lock` copies the inode from disk and sets `I_VALID`. -/
  | iload (ip : InodePtr) (d : Dinode) : FsOp PUnit
  /-- `inode_unlock`. -/
  | iunlock (ip : InodePtr) : FsOp PUnit
  /-- `inode_put`, up to `inode_trunc` if the inode is to be freed. -/
  | iput (ip : InodePtr) : FsOp Bool
  /-- `inode_put`, after the inode has been freed. -/
  | ifreed (ip : InodePtr) : FsOp PUnit
  /-- `tcb_get_cwd(get_curid())`. -/
  | cwd : FsOp (Option InodePtr)
  /-- `tcb_get_cwd(get_curid())` in `sys_chdir`. -/
  | oldCwd : FsOp (Option InodePtr)
  /-- `tcb_set_cwd(get_curid(), ip)`. -/
  | setCwd (ip : InodePtr) : FsOp PUnit
  /-- `first` of `sys_open` is read and cleared. -/
  | first : FsOp Bool
  /-- `tcb_get_openfiles(get_curid())[fd]`. -/
  | openfile (fd : Fin NOFILE) : FsOp (Option (Fin NFILE))
  /-- `tcb_set_openfiles(get_curid(), fd, 0)`. -/
  | clearFd (fd : Fin NOFILE) : FsOp PUnit
  /-- `*f` is read. -/
  | file (f : Fin NFILE) : FsOp (File InodePtr)
  /-- `f->off += r`. -/
  | advance (f : Fin NFILE) (r : ℕ) : FsOp PUnit
  /-- The table part of `sys_open`, for the inode `ip`. -/
  | openFd (omode : BitVec 32) (ip : InodePtr) : FsOp (List (FileCall InodePtr) × Except Errno (Fin NOFILE))
  /-- The table part of `file_close`. -/
  | fileClose (f : Fin NFILE) : FsOp (List (FileCall InodePtr))
  /-- `sys_spawn`, which does not sleep. -/
  | spawn (elfId : ℕ) (quota : UInt32) (stdinFd stdoutFd : ℤ) : FsOp (Except Errno ℕ)
  /-- The end of `sys_exit`. -/
  | die : FsOp PUnit
  /-- `sys_kill` with `SIGKILL`. -/
  | kill (pid : ℤ) : FsOp Errno
  /-- `terminate_process`, of the process itself. -/
  | terminate : FsOp PUnit
  /-- The process panics, or does what is undefined. -/
  | stop (e : FsStop) : FsOp Empty

def onStore {α : Type} (m : StoreM α) : Prog FS FsStop α := ExceptT.mk fun s =>
  match m.run s.store with
  | (.ok a, t) => (.ok a, { s with store := t })
  | (.error e, t) => (.error (.store e), { s with store := t })

variable {α : Type} {E : FsStop → FS → Prop} {s : FS}

theorem wp_onStore {m : StoreM α} {Q : α → FS → Prop} :
    wp (onStore m) Q E s ↔
      wp m (fun a t => Q a { s with store := t }) (fun e t => E (.store e) { s with store := t }) s.store := by
  have h : (onStore m).run s = match m.run s.store with
      | (.ok a, t) => (.ok a, { s with store := t })
      | (.error e, t) => (.error (.store e), { s with store := t }) := rfl
  unfold wp
  rw [h]
  rcases m.run s.store with ⟨e | a, t⟩ <;> exact Iff.rfl

def onFiles {α : Type} (f : Files InodePtr → Except FilePanic (Files InodePtr × α)) : Prog FS FsStop α := do
  let s ← get
  match f s.procs.files with
  | .ok (t, a) =>
    set { s with procs := { s.procs with files := t } }
    return a
  | .error e => throw (.file e)

theorem wp_onFiles {f : Files InodePtr → Except FilePanic (Files InodePtr × α)} {Q : α → FS → Prop}
    :
    wp (onFiles f) Q E s ↔ match f s.procs.files with
      | .ok (t, a) => Q a { s with procs := { s.procs with files := t } }
      | .error e => E (.file e) s := by
  unfold onFiles
  rw [wp_bind, wp_get]
  split <;> exact Iff.rfl

def FS.setInode (s : FS) (ip : InodePtr) (v : Inode) : FS := { s with inode := Function.update s.inode ip v }

/-- `inode_get`: the entry of the inode, or else the first that is empty. -/
def inodeGet (inum : ℕ) : Prog FS FsStop InodePtr := do
  let s ← get
  match (List.finRange NINODE).find? fun ip => 0 < (s.inode ip).ref ∧ (s.inode ip).inum = inum with
  | some ip =>
    set (s.setInode ip { s.inode ip with ref := (s.inode ip).ref + 1 })
    return ip
  | none =>
    match (List.finRange NINODE).find? fun ip => (s.inode ip).ref = 0 with
    | some ip =>
      set (s.setInode ip { s.inode ip with inum := inum, ref := 1, busy := false, valid := false })
      return ip
    | none => throw .inodeGet

/-- `inode_lock`, up to the setting of `I_BUSY`. -/
def lockInode (ip : InodePtr) : Prog FS FsStop Bool := do
  let s ← get
  if (s.inode ip).ref < 1 then throw .inodeLock
  else if (s.inode ip).busy then throw .sleep
  else
    set (s.setInode ip { s.inode ip with busy := true })
    return (s.inode ip).valid

/-- `inode_unlock`. -/
def unlockInode (ip : InodePtr) : Prog FS FsStop PUnit := do
  let s ← get
  if (s.inode ip).busy = false ∨ (s.inode ip).ref < 1 then throw .inodeUnlock
  else set (s.setInode ip { s.inode ip with busy := false })

/-- `inode_put`, up to `inode_trunc` if the inode is to be freed. -/
def putInode (ip : InodePtr) : Prog FS FsStop Bool := do
  let s ← get
  if (s.inode ip).ref = 1 ∧ (s.inode ip).valid = true ∧ (s.inode ip).d.nlink = 0 then
    if (s.inode ip).busy then throw .putBusy
    else
      set (s.setInode ip { s.inode ip with busy := true })
      return true
  else
    set (s.setInode ip { s.inode ip with ref := (s.inode ip).ref - 1 })
    return false

/-- `inode_dup`. -/
def dupInode (ip : InodePtr) : Prog FS FsStop PUnit :=
  modify fun s => s.setInode ip { s.inode ip with ref := (s.inode ip).ref + 1 }

/-- `tcb_set_cwd`. -/
def setCwd (pid : ℕ) (ip : InodePtr) : Prog FS FsStop PUnit :=
  modify fun s => { s with cwd := Function.update s.cwd pid (some ip) }

/-- The working directory that `sys_spawn` gives the child. -/
def spawnCwd (pid child : ℕ) : Prog FS FsStop PUnit := do
  let s ← get
  match s.cwd pid with
  | some ip =>
    dupInode ip
    setCwd child ip
  | none =>
    let ip ← inodeGet ROOTINO
    setCwd pid ip
    dupInode ip
    setCwd child ip

/-- `sys_spawn`. -/
def spawn (pid elfId : ℕ) (quota : UInt32) (stdinFd stdoutFd : ℤ) : Prog FS FsStop (Except Errno ℕ) := do
  let s ← get
  match spawnError s.procs.container pid elfId quota with
  | some e => return .error e
  | none =>
    let r := containerSplit s.procs.container pid quota
    set { s with procs := { s.procs with container := r.2, spawned := r.1 :: s.procs.spawned } }
    spawnCwd pid r.1
    onFiles fun s => do
      let t ← s.spawnFds pid r.1 stdinFd stdoutFd
      .ok (t, ⟨⟩)
    return .ok r.1

/-- The quota of `pid` is given back to its parent. -/
def FS.refund (s : FS) (pid : ℕ) : FS :=
  { s with procs := { s.procs with
    container := containerRefundUsage s.procs.container (s.procs.container pid).parent (s.procs.container pid).quota } }

/-- `tcb_set_state(pid, TSTATE_DEAD)`. -/
def FS.setDead (s : FS) (pid : ℕ) : FS := { s with dead := Function.update s.dead pid true }

/-- The state of `pid` is not `TSTATE_DEAD`, as it is for a process that has not been spawned. -/
def FS.alive (s : FS) (pid : ℕ) : Bool := pid ∈ s.procs.spawned ∧ s.dead pid = false

/-- `sys_kill` with `SIGKILL`. -/
def kill (pid : ℤ) : Prog FS FsStop Errno := do
  let s ← get
  if pid < 0 ∨ (NUM_IDS : ℤ) ≤ pid ∨ s.alive pid.toNat = false then return .invalPid
  else
    set ((s.setDead pid.toNat).refund pid.toNat)
    return .succ

/-- `log_write`, up to `bufcache_read`. -/
def logStart (b : Fin NBUF) : StoreM (ℕ × ℕ × ℕ) := do
  let s ← get
  if LOGSIZE ≤ s.log.n ∨ s.log.size - 1 ≤ s.log.n then throw .tooBig
  else if s.log.busy = false then throw .outsideTrans
  else
    match (s.buf b).sector with
    | none => throw .notBusy -- a busy buffer has a sector
    | some x =>
      let i := logIndex s.log x
      set { s with log := { s.log with sector := Function.update s.log.sector i x } }
      return (i, s.log.start + i + 1, x)

/-- `log_write`, from `bufcache_release` on. -/
def logEnd (b : Fin NBUF) (i x : ℕ) : StoreM PUnit := do
  modify fun s => { s with log := { s.log with n := if i = s.log.n then s.log.n + 1 else s.log.n } }
  modify fun s => { s.setBuf b { s.buf b with dirty := true } with logged := s.logged ++ [(x, (s.buf b).data)] }

/-- `b->flags |= B_DIRTY` in `bufcache_write`. -/
def markDirty (b : Fin NBUF) : StoreM PUnit := do
  let s ← get
  if (s.buf b).busy = false then throw .bwrite
  else set (s.setBuf b { s.buf b with dirty := true })

/-- What the operations of process `pid` do. -/
def sem (pid : ℕ) : Sem FsOp FS FsStop
  | _, .enter => pure ⟨⟩
  | _, .leave => pure ⟨⟩
  | _, .bget x => onStore (bufcacheGet x)
  | _, .lget x => onStore (bufcacheGet x)
  | _, .valid b => onStore do return ((← get).buf b).valid
  | _, .ideRw b => onStore (FileSystem.ideRw b)
  | _, .markDirty b => onStore (Fs.markDirty b)
  | _, .brelse b => onStore (bufcacheRelease b)
  | _, .data b => onStore do return ((← get).buf b).data
  | _, .setData b v => onStore (FileSystem.setData b v)
  | _, .copy c b => onStore do FileSystem.setData c ((← get).buf b).data
  | _, .log => onStore do return (← get).log
  | _, .setPlace start size => onStore (modify fun s => { s with log := { s.log with start := start, size := size } })
  | _, .getHead b => onStore (modify fun s =>
      let v := (s.buf b).data
      { s with log := { s.log with
        n := headN v
        sector := fun i => if i < headN v then headSector v i else s.log.sector i } })
  | _, .putHead b => onStore do
      let s ← get
      FileSystem.setData b (FileSystem.putHead s.log.n s.log.sector (s.buf b).data s.log.n)
  | _, .clearN => onStore FileSystem.clearN
  | _, .logStart b => onStore (Fs.logStart b)
  | _, .logEnd b i x => onStore (Fs.logEnd b i x)
  | _, .beginTrans => onStore FileSystem.beginTrans
  | _, .endTrans => onStore (modify fun s => { s with log := { s.log with busy := false } })
  | _, .allocating => pure ⟨⟩
  | _, .freeing _ => pure ⟨⟩
  | _, .scan => pure ⟨⟩
  | _, .took x => modify fun s => { s with taken := x :: s.taken }
  | _, .node ip => do return (← get).inode ip
  | _, .setNode ip d => modify fun s => s.setInode ip { s.inode ip with d := d }
  | _, .indirect ip => do return ((← get).inode ip).d.addrs (Fin.last NDIRECT)
  | _, .igetRoot => inodeGet ROOTINO
  | _, .igetEntry _ _ inum => inodeGet inum
  | _, .igetNew inum => inodeGet inum
  | _, .idup ip => dupInode ip
  | _, .ilock ip => lockInode ip
  | _, .iload ip d => modify fun s => s.setInode ip { s.inode ip with d := d, valid := true }
  | _, .iunlock ip => unlockInode ip
  | _, .iput ip => putInode ip
  | _, .ifreed ip => modify fun s =>
      s.setInode ip { s.inode ip with busy := false, valid := false, ref := (s.inode ip).ref - 1 }
  | _, .cwd => do return (← get).cwd pid
  | _, .oldCwd => do return (← get).cwd pid
  | _, .setCwd ip => Fs.setCwd pid ip
  | _, .first => do
      let s ← get
      set { s with first := false }
      return s.first
  | _, .openfile fd => do return (← get).procs.files.openfiles (pid, fd)
  | _, .clearFd fd => onFiles fun s => .ok (s.setOpenfiles pid fd none, ⟨⟩)
  | _, .file f => do return (← get).procs.files.file f
  | _, .advance f r => onFiles fun s =>
      .ok (s.setFile f { s.file f with off := (s.file f).off + UInt32.ofNat r }, ⟨⟩)
  | _, .openFd omode ip => onFiles fun s => s.sysOpen pid omode ip
  | _, .fileClose f => onFiles fun s => s.fileClose f
  | _, .spawn elfId quota stdinFd stdoutFd => Fs.spawn pid elfId quota stdinFd stdoutFd
  | _, .die => modify fun s => (s.setDead pid).refund pid
  | _, .kill p => Fs.kill p
  | _, .terminate => modify fun s => s.setDead pid
  | _, .stop e => throw e

def stop {α : Type} (e : FsStop) : Code FsOp α := .act (.stop e) Empty.elim

/-! ### The buffer cache and the log -/

/-- `bufcache_read`, from `bufcache_get` on. -/
def bufcacheFill (b : Fin NBUF) : Code FsOp PUnit := do
  let v ← Code.op (.valid b)
  if v then return ⟨⟩ else Code.op (.ideRw b)

def bufcacheRead (x : ℕ) : Code FsOp (Fin NBUF) := do
  let b ← Code.op (.bget x)
  bufcacheFill b
  return b

/-- `bufcache_read` of a sector of the log. -/
def logRead (x : ℕ) : Code FsOp (Fin NBUF) := do
  let b ← Code.op (.lget x)
  bufcacheFill b
  return b

def bufcacheWrite (b : Fin NBUF) : Code FsOp PUnit := do
  Code.op (.markDirty b)
  Code.op (.ideRw b)

def bufcacheRelease (b : Fin NBUF) : Code FsOp PUnit := Code.op (.brelse b)

def readHead : Code FsOp PUnit := do
  let l ← Code.op .log
  let b ← logRead l.start
  Code.op (.getHead b)
  bufcacheRelease b

def writeHead : Code FsOp PUnit := do
  let l ← Code.op .log
  let b ← logRead l.start
  Code.op (.putHead b)
  bufcacheWrite b
  bufcacheRelease b

/-- One round of `install_trans`. -/
def installOne (tail : ℕ) : Code FsOp PUnit := do
  let l ← Code.op .log
  let lbuf ← logRead (l.start + tail + 1)
  let dbuf ← bufcacheRead (l.sector tail)
  Code.op (.copy dbuf lbuf)
  bufcacheWrite dbuf
  bufcacheRelease lbuf
  bufcacheRelease dbuf

/-- `for (i = 0; i < n; i++) body(i)`. -/
def loop (n : ℕ) (body : ℕ → Code FsOp PUnit) : Code FsOp PUnit :=
  match n with
  | 0 => pure ⟨⟩
  | n + 1 => do
    loop n body
    body n

def installTrans : Code FsOp PUnit := do
  let l ← Code.op .log
  loop l.n installOne

def recoverFromLog : Code FsOp PUnit := do
  readHead
  installTrans
  Code.op .clearN
  writeHead

def beginTrans : Code FsOp PUnit := Code.op .beginTrans

def commitTrans : Code FsOp PUnit := do
  let l ← Code.op .log
  if 0 < l.n then do
    writeHead
    installTrans
    Code.op .clearN
    writeHead
    Code.op .endTrans
  else Code.op .endTrans

def logWrite (b : Fin NBUF) : Code FsOp PUnit := do
  let (i, y, x) ← Code.op (.logStart b)
  let lbuf ← logRead y
  Code.op (.copy lbuf b)
  bufcacheWrite lbuf
  bufcacheRelease lbuf
  Code.op (.logEnd b i x)

end MCertiKOS.FileSystem.Fs
