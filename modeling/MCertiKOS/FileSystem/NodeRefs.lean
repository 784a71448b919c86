import MCertiKOS.FileSystem.FileRefs
import MCertiKOS.FileSystem.Syscall
import MCertiKOS.Library.Alone

/-!
# References to inodes

The reference count of an inode in the cache is the number of file structures
and of working directories that point to it, and inside a system call also of
the references that the call has (`Refs`). Every function takes and gives back
what it should, on every path and whatever it finds on disk, with one exception:
`sys_pwd` keeps a reference to every directory it passes through.

The calls run one after another here, each of them to its end.
-/

namespace MCertiKOS.FileSystem

open Library Memory Thread Relation Finset
open Function (update update_apply update_eq_self update_eq_self_iff update_idem update_of_ne update_self)

/-! ### Inodes behind file structures -/

namespace Files

variable {ι : Type*} {s t : Files ι} {f : Fin NFILE}

/-- The inode behind a file structure, and whether it may be written. -/
def openNode (s : Files ι) (f : Fin NFILE) : Option (ι × Bool) :=
  if (s.file f).type = .inode then (s.file f).ip.map fun ip => (ip, (s.file f).writable) else none

theorem openNode_setFile (s : Files ι) (f : Fin NFILE) (v : File ι) :
    (s.setFile f v).openNode = update s.openNode f
      (if v.type = .inode then v.ip.map fun ip => (ip, v.writable) else none) := by
  funext g
  by_cases hg : g = f
  · subst hg
    rw [update_self, openNode, setFile_file, if_pos rfl]
  · rw [update_of_ne hg, openNode, setFile_file, if_neg hg, openNode]

variable {v : File ι} {curid pid : ℕ} {c : List (FileCall ι)}

theorem openNode_setFile_same (ht : v.type = (s.file f).type) (hi : v.ip = (s.file f).ip)
    (hw : v.writable = (s.file f).writable) : (s.setFile f v).openNode = s.openNode := by
  rw [openNode_setFile, ht, hi, hw]
  exact update_eq_self ..

theorem openNode_setFile_none (hs : s.openNode f = none) (hv : v.type ≠ .inode) :
    (s.setFile f v).openNode = s.openNode := by
  rw [openNode_setFile, if_neg hv, ← hs, update_eq_self]

section

variable (h : FreeOk s)
include h

theorem FreeOk.setFile (hv : v.ref = 0 → v.type = .none) : FreeOk (s.setFile f v) := by
  intro g
  rw [setFile_file]
  split_ifs
  · exact hv
  · exact h g

omit h in
theorem openNode_of_none (h : (s.file f).type = .none) : s.openNode f = none := by
  rw [openNode, h, if_neg (by decide)]

theorem FreeOk.alloc (ha : s.fileAlloc = some (f, t)) :
    FreeOk t ∧ t.openNode = s.openNode ∧ (t.file f).type = .none ∧ (t.file f).ref = 1 := by
  unfold fileAlloc at ha
  split at ha
  · cases ha
  · rename_i g hfind
    cases ha
    have hfree : (s.file f).ref = 0 := by simpa using List.find?_some hfind
    have ht := h f hfree
    refine ⟨h.setFile (by simp), openNode_setFile_none (openNode_of_none ht) ?_, ?_, ?_⟩
    · rw [show ({ s.file f with ref := 1 } : File ι).type = (s.file f).type from rfl, ht]
      decide
    · rw [setFile_file, if_pos rfl]
      exact ht
    · rw [setFile_file, if_pos rfl]

theorem FreeOk.dup (hd : s.fileDup f = .ok t) : FreeOk t ∧ t.openNode = s.openNode := by
  unfold fileDup at hd
  split_ifs at hd
  cases hd
  exact ⟨h.setFile (by simp), openNode_setFile_same rfl rfl rfl⟩

theorem FreeOk.consoleFd (pid : ℕ) (fd : Fin NOFILE) (type : FdType) (ht : type ≠ .inode) (r w : Bool) :
    FreeOk (s.consoleFd pid fd type r w) ∧ (s.consoleFd pid fd type r w).openNode = s.openNode := by
  unfold Files.consoleFd
  split
  · exact ⟨h, rfl⟩
  · rename_i f s1 ha
    obtain ⟨h1, ho, htype, -⟩ := h.alloc ha
    refine ⟨h1.setFile (by simp), ?_⟩
    rw [← ho]
    exact openNode_setFile_none (openNode_of_none htype) ht

theorem FreeOk.inheritFd {fd : Fin NOFILE} {src : ℤ} {type : FdType} (ht : type ≠ .inode)
    {r w : Bool} (hi : s.inheritFd curid pid fd src type r w = .ok t) : FreeOk t ∧ t.openNode = s.openNode := by
  unfold Files.inheritFd at hi
  split at hi
  · rename_i f _
    cases hd : s.fileDup f with
    | error e => simp [hd, bind, Except.bind] at hi
    | ok s1 =>
      simp only [hd, bind, Except.bind, Except.ok.injEq] at hi
      subst hi
      exact ⟨(h.dup hd).1, (h.dup hd).2⟩
  · cases hi
    split_ifs
    · exact h.consoleFd pid fd _ ht r w
    · exact ⟨h, rfl⟩

theorem FreeOk.spawnFds {stdinFd stdoutFd : ℤ}
    (hs : s.spawnFds curid pid stdinFd stdoutFd = .ok t) : FreeOk t ∧ t.openNode = s.openNode := by
  unfold Files.spawnFds at hs
  split_ifs at hs
  · cases hs
    obtain ⟨h0, e0⟩ := h.consoleFd pid 0 .consoleIn (by decide) true false
    obtain ⟨h1, e1⟩ := h0.consoleFd pid 1 .consoleOut (by decide) false true
    obtain ⟨h2, e2⟩ := h1.consoleFd pid 2 .consoleOut (by decide) false true
    exact ⟨h2, e2.trans (e1.trans e0)⟩
  · cases h0 : s.inheritFd curid pid 0 stdinFd .consoleIn true false with
    | error e => simp [h0, bind, Except.bind] at hs
    | ok s1 =>
      simp only [h0, bind, Except.bind] at hs
      obtain ⟨hf1, e1⟩ := h.inheritFd (by decide) h0
      obtain ⟨hf2, e2⟩ := hf1.inheritFd (by decide) hs
      exact ⟨hf2, e2.trans e1⟩

def puts : List (FileCall ι) → List ι
  | [] => []
  | .wakeup _ _ :: cs => puts cs
  | .inodePut ip :: cs => ip :: puts cs

theorem FreeOk.close (hc : s.fileClose f = .ok (t, c)) :
    FreeOk t ∧ ((puts c = [] ∧ t.openNode = s.openNode) ∨
      ∃ ip w, puts c = [ip] ∧ s.openNode f = some (ip, w) ∧ t.openNode = update s.openNode f none) := by
  unfold fileClose at hc
  simp only at hc
  split_ifs at hc with h1 h2
  · cases hc
    exact ⟨h.setFile (by simp; omega), .inl ⟨rfl, openNode_setFile_same rfl rfl rfl⟩⟩
  · have hfree : FreeOk (s.setFile f { s.file f with ref := 0, type := .none }) := h.setFile fun _ => rfl
    have hopen : (s.setFile f { s.file f with ref := 0, type := .none }).openNode = update s.openNode f none := by
      rw [openNode_setFile, if_neg (by simp)]
    generalize s.setFile f { s.file f with ref := 0, type := .none } = s1 at hc hfree hopen
    have hnone : (s.file f).type ≠ .inode → s1.openNode = s.openNode := fun e => by
      rw [hopen, update_eq_self_iff, openNode, if_neg e]
    cases htype : (s.file f).type with
    | pipe =>
      simp only [htype, pipeClose] at hc
      cases hp : (s.file f).pipe with
      | none => simp [hp] at hc
      | some k =>
        simp only [hp, Except.ok.injEq, Prod.mk.injEq] at hc
        obtain ⟨rfl, rfl⟩ := hc
        exact ⟨hfree, .inl ⟨rfl, hnone (by simp [htype])⟩⟩
    | inode =>
      simp only [htype] at hc
      cases hip : (s.file f).ip with
      | none => simp [hip] at hc
      | some ip =>
        simp only [hip, Except.ok.injEq, Prod.mk.injEq] at hc
        obtain ⟨rfl, rfl⟩ := hc
        exact ⟨hfree, .inr ⟨ip, (s.file f).writable, rfl, by simp [openNode, htype, hip], hopen⟩⟩
    | none | consoleIn | consoleOut =>
      simp only [htype, Except.ok.injEq, Prod.mk.injEq] at hc
      obtain ⟨rfl, rfl⟩ := hc
      exact ⟨hfree, .inl ⟨rfl, hnone (by simp [htype])⟩⟩

theorem FreeOk.sysOpen {omode : BitVec 32} {ip : ι}
    {r : Except Errno (Fin NOFILE)} (ho : s.sysOpen pid omode ip = .ok (t, c, r)) :
    FreeOk t ∧ ((c = [] ∧ (∃ e, r = .error e) ∧ t.openNode = s.openNode) ∨
      ∃ fd f, r = .ok fd ∧ s.openNode f = none ∧
        t.openNode = update s.openNode f (some (ip, omode.getLsbD 0 || omode.getLsbD 1))) := by
  unfold Files.sysOpen at ho
  split at ho
  · cases ho
    exact ⟨h, .inl ⟨rfl, ⟨_, rfl⟩, rfl⟩⟩
  · rename_i f s1 ha
    obtain ⟨h1, e1, htype, href⟩ := h.alloc ha
    have hnone : s1.openNode f = none := openNode_of_none htype
    split at ho
    · -- no descriptor: the structure is given back
      cases hc : s1.fileClose f with
      | error e => simp [hc, bind, Except.bind] at ho
      | ok p =>
        obtain ⟨s2, c2⟩ := p
        simp only [hc, bind, Except.bind, Except.ok.injEq, Prod.mk.injEq] at ho
        obtain ⟨rfl, rfl, rfl⟩ := ho
        have hcs : c2 = [] := by
          simp [fileClose, href, htype] at hc
          exact hc.2
        obtain ⟨h2, ⟨-, e2⟩ | ⟨ip', w, hp, hs, -⟩⟩ := h1.close hc
        · exact ⟨h2, .inl ⟨hcs, ⟨_, rfl⟩, e2.trans e1⟩⟩
        · rw [hnone] at hs
          cases hs
    · rename_i fd s2 hfd
      obtain ⟨-, rfl⟩ := fdalloc_eq hfd
      cases ho
      refine ⟨FreeOk.setFile h1 fun e => ?_, .inr ⟨fd, f, rfl, by rw [← e1]; exact hnone, ?_⟩⟩
      · exact absurd (show (s1.file f).ref = 0 from e) (by rw [href]; exact one_ne_zero)
      · rw [openNode_setFile, if_pos rfl]
        exact congrArg (update · f _) e1

end

end Files

namespace Fs

/-! ### Operations that leave the references alone -/

/-- Nothing that concerns references changes. -/
structure Still (s t : FS) : Prop where
  node : ∀ ip, (t.inode ip).ref = (s.inode ip).ref ∧ (t.inode ip).inum = (s.inode ip).inum ∧
    (t.inode ip).busy = (s.inode ip).busy
  openNode : t.procs.files.openNode = s.procs.files.openNode
  free : s.procs.files.FreeOk → t.procs.files.FreeOk
  cwd : t.cwd = s.cwd
  spawned : t.procs.spawned = s.procs.spawned
  nchildren : ∀ i, (t.procs.container i).nchildren = (s.procs.container i).nchildren

namespace Still

variable {s t u : FS}

theorem refl (s : FS) : Still s s := ⟨fun _ => ⟨rfl, rfl, rfl⟩, rfl, id, rfl, rfl, fun _ => rfl⟩

theorem trans (h : Still s t) (h' : Still t u) : Still s u := by
  refine ⟨fun ip => ?_, h'.openNode.trans h.openNode, h'.free ∘ h.free, h'.cwd.trans h.cwd, h'.spawned.trans h.spawned,
    fun i => (h'.nchildren i).trans (h.nchildren i)⟩
  obtain ⟨h₁, h₂, h₃⟩ := h.node ip
  obtain ⟨h₁', h₂', h₃'⟩ := h'.node ip
  exact ⟨h₁'.trans h₁, h₂'.trans h₂, h₃'.trans h₃⟩

theorem of_eq (hi : t.inode = s.inode) (hp : t.procs = s.procs) (hc : t.cwd = s.cwd) : Still s t :=
  ⟨fun ip => by rw [hi]; exact ⟨rfl, rfl, rfl⟩, by rw [hp], by rw [hp]; exact id, hc, by rw [hp], fun _ => by rw [hp]⟩

theorem setInode {ip : InodePtr} {v : Inode} (h : v.ref = (s.inode ip).ref ∧ v.inum = (s.inode ip).inum ∧
    v.busy = (s.inode ip).busy) : Still s (s.setInode ip v) := by
  refine ⟨fun ip' => ?_, rfl, id, rfl, rfl, fun _ => rfl⟩
  by_cases e : ip' = ip
  · subst e
    simpa [FS.setInode] using h
  · simp [FS.setInode, e]

end Still

def FsOp.Plain {β : Type} : FsOp β → Prop
  | .igetRoot => False
  | .igetEntry _ _ _ => False
  | .igetNew _ => False
  | .idup _ => False
  | .ilock _ => False
  | .iunlock _ => False
  | .iput _ => False
  | .ifreed _ => False
  | .setCwd _ => False
  | .openFd _ _ => False
  | .fileClose _ => False
  | .spawn _ _ _ _ => False
  | _ => True

variable {pid : ℕ} {s t : FS}

variable {β : Type}

theorem wp_plain {o : FsOp β} (h : o.Plain) : wp (sem pid β o) (fun _ t => Still s t) (fun _ _ => True) s := by
  have hstore : ∀ {γ : Type} (m : StoreM γ), wp (onStore m) (fun _ t => Still s t) (fun _ _ => True) s := fun m =>
    wp_onStore.mpr (wp_of_forall (fun _ _ => .of_eq rfl rfl rfl) (fun _ _ => trivial) _)
  cases o with
  | bget | lget | valid | ideRw | markDirty | brelse | data | setData | copy | log | setPlace | getHead | putHead | clearN |
    logStart | logEnd | beginTrans | endTrans =>
    rw [sem]
    exact hstore _
  | enter | leave | allocating | freeing | scan | node | indirect | cwd | oldCwd | openfile | file => exact Still.refl s
  | took | first | terminate => exact Still.of_eq rfl rfl rfl
  | igetRoot | igetEntry | igetNew | idup | ilock | iunlock | iput | ifreed | setCwd | openFd | fileClose | spawn =>
    exact h.elim
  | stop e => exact trivial
  | setNode ip d => exact .setInode ⟨rfl, rfl, rfl⟩
  | iload ip d => exact .setInode ⟨rfl, rfl, rfl⟩
  | clearFd fd => exact ⟨fun _ => ⟨rfl, rfl, rfl⟩, rfl, id, rfl, rfl, fun _ => rfl⟩
  | advance f r =>
    exact ⟨fun _ => ⟨rfl, rfl, rfl⟩, Files.openNode_setFile_same rfl rfl rfl, fun hf => hf.setFile (hf f), rfl, rfl, fun _ => rfl⟩
  | die => exact ⟨fun _ => ⟨rfl, rfl, rfl⟩, rfl, id, rfl, rfl, fun i => by simp [FS.refund, FS.setDead]⟩
  | kill p =>
    show wp (kill p) _ _ s
    unfold kill
    rw [wp_bind, wp_get]
    split_ifs
    · exact Still.refl s
    · exact ⟨fun _ => ⟨rfl, rfl, rfl⟩, rfl, id, rfl, rfl, fun i => by simp [FS.refund, FS.setDead]⟩

/-! ### Functions that leave the references alone -/

/-- An operation on the store or on a copy of an inode, or one that only reads. -/
def FsOp.Local {β : Type} : FsOp β → Prop
  | .clearFd _ => False
  | .advance _ _ => False
  | .die => False
  | .kill _ => False
  | .terminate => False
  | o => o.Plain

/-- `P` holds of all operations on the store and on copies of inodes. -/
class Allows (P : ∀ β, FsOp β → Prop) : Prop where
  of_local : ∀ {β : Type} (o : FsOp β), o.Local → P β o

abbrev PlainCode {α : Type} (c : Code FsOp α) : Prop := c.All fun _ o => o.Plain

instance : Allows fun _ o => o.Plain where
  of_local o h := by cases o <;> first | exact h.elim | exact h

theorem plain_op {o : FsOp β} (h : o.Plain) : PlainCode (Code.op o) := all_op.mpr h

section Local

variable {α : Type} {P : ∀ β, FsOp β → Prop}

theorem local_loop {n : ℕ} {body : ℕ → Code FsOp PUnit} (h : ∀ i, Code.All P (body i)) : Code.All P (loop n body) := by
  induction n with
  | zero => exact all_pure.mpr trivial
  | succ n ih => exact all_bind ih fun _ => h n

variable {c : Code FsOp α} {β : Type} [Allows P]

@[simp] theorem local_stop (e : FsStop) : Code.All P (stop e : Code FsOp α) := all_act.mpr ⟨Allows.of_local _ trivial, nofun⟩

theorem local_op {o : FsOp β} (h : o.Local) : Code.All P (Code.op o) := all_op.mpr (Allows.of_local o h)

attribute [local simp] FsOp.Local.eq_def FsOp.Plain.eq_def
attribute [local simp high] local_op

@[simp] theorem local_bufcacheFill (b : Fin NBUF) : Code.All P (bufcacheFill b) := by simp [bufcacheFill]

@[simp] theorem local_bufcacheRead (x : ℕ) : Code.All P (bufcacheRead x) := by simp [bufcacheRead]

@[simp] theorem local_logRead (x : ℕ) : Code.All P (logRead x) := by simp [logRead]

@[simp] theorem local_bufcacheWrite (b : Fin NBUF) : Code.All P (bufcacheWrite b) := by simp [bufcacheWrite]

@[simp] theorem local_bufcacheRelease (b : Fin NBUF) : Code.All P (bufcacheRelease b) := by simp [bufcacheRelease]

@[simp] theorem local_readHead : Code.All P readHead := by simp [readHead]

@[simp] theorem local_writeHead : Code.All P writeHead := by simp [writeHead]

@[simp] theorem local_installOne (i : ℕ) : Code.All P (installOne i) := by simp [installOne]

@[simp] theorem local_installTrans : Code.All P installTrans := by simp [installTrans, local_loop]

@[simp] theorem local_recoverFromLog : Code.All P recoverFromLog := by simp [recoverFromLog]

@[simp] theorem local_beginTrans : Code.All P beginTrans := by simp [beginTrans]

@[simp] theorem local_commitTrans : Code.All P commitTrans := by simp [commitTrans]

@[simp] theorem local_logWrite (b : Fin NBUF) : Code.All P (logWrite b) := by simp [logWrite]

@[simp] theorem local_readSuperblock : Code.All P readSuperblock := by simp [readSuperblock]

@[simp] theorem local_logInit : Code.All P logInit := by simp [logInit]

@[simp] theorem local_blockZero (x : ℕ) : Code.All P (blockZero x) := by simp [blockZero]

@[simp] theorem local_blockAllocLoop (sb : Superblock) (n b : ℕ) : Code.All P (blockAllocLoop sb n b) := by
  induction n generalizing b with
  | zero => exact local_stop _
  | succ n ih =>
    refine all_bind (local_bufcacheRead _) fun bp => all_bind (local_op trivial) fun v => ?_
    cases findFree v b sb.size <;> simp [ih]

@[simp] theorem local_blockAlloc : Code.All P blockAlloc := by simp [blockAlloc]

@[simp] theorem local_blockFree (x : ℕ) : Code.All P (blockFree x) := by simp [blockFree]

section

variable (ip : InodePtr)

@[simp] theorem local_inodeUpdate : Code.All P (inodeUpdate ip) := by simp [inodeUpdate]

@[simp] theorem local_bmapAddr (k : Fin (NDIRECT + 1)) : Code.All P (bmapAddr ip k) := by simp [bmapAddr]

@[simp] theorem local_bmap (bn : ℕ) : Code.All P (bmap ip bn) := by simp [bmap]

@[simp] theorem local_truncDirect (ks : List (Fin (NDIRECT + 1))) : Code.All P (truncDirect ip ks) := by
  induction ks <;> simp [truncDirect, *]

@[simp] theorem local_truncIndirect (a : Block) (js : List ℕ) : Code.All P (truncIndirect a js) := by
  induction js <;> simp [truncIndirect, *]

@[simp] theorem local_truncLast : Code.All P (truncLast ip) := by simp [truncLast]

@[simp] theorem local_inodeTrunc : Code.All P (inodeTrunc ip) := by simp [inodeTrunc]

@[simp] theorem local_readLoop (fuel off n : ℕ) : Code.All P (readLoop ip fuel off n) := by
  induction fuel generalizing off n <;> simp [readLoop, *]

@[simp] theorem local_inodeRead (off n : ℕ) : Code.All P (inodeRead ip off n) := by simp [inodeRead]

@[simp] theorem local_writeLoop (fuel off : ℕ) (src : List UInt8) : Code.All P (writeLoop ip fuel off src) := by
  induction fuel generalizing off src <;> simp [writeLoop, *]

@[simp] theorem local_inodeWrite (src : List UInt8) (off : ℕ) : Code.All P (inodeWrite ip src off) := by
  simp [inodeWrite]

/-- A round of a loop over the entries of a directory. -/
theorem local_round {dp : InodePtr} {off : ℕ} {e : FsStop} {f : List UInt8 → Code FsOp α} (h : ∀ bs, Code.All P (f bs)) :
    Code.All P (do
      match ← inodeRead dp off DESIZE with
      | none => stop e
      | some bs => if bs.length ≠ DESIZE then stop e else f bs) := by
  refine all_bind (local_inodeRead _ _ _) fun r => ?_
  cases r <;> simp [h]

@[simp] theorem local_lookupLoop (dp : InodePtr) (name : List UInt8) (n off : ℕ) : Code.All P (lookupLoop dp name n off) := by
  induction n generalizing off with
  | zero => exact all_pure.mpr trivial
  | succ n ih => exact local_round fun bs => by simp [ih]

@[simp] theorem local_freeLoop (dp : InodePtr) (n off : ℕ) : Code.All P (freeLoop dp n off) := by
  induction n generalizing off with
  | zero => exact all_pure.mpr trivial
  | succ n ih => exact local_round fun bs => by simp [ih]

@[simp] theorem local_emptyLoop (dp : InodePtr) (n off : ℕ) : Code.All P (emptyLoop dp n off) := by
  induction n generalizing off with
  | zero => exact all_pure.mpr trivial
  | succ n ih => exact local_round fun bs => by simp [ih]

@[simp] theorem local_lsLoop (dp : InodePtr) (n off : ℕ) : Code.All P (lsLoop dp n off) := by
  induction n generalizing off with
  | zero => exact all_pure.mpr trivial
  | succ n ih => exact local_round fun bs => by simp [ih]

@[simp] theorem local_isdirempty (dp : InodePtr) : Code.All P (isdirempty dp) := by simp [isdirempty]

@[simp] theorem local_incLink : Code.All P (incLink ip) := by simp [incLink]

@[simp] theorem local_decLink : Code.All P (decLink ip) := by simp [decLink]

end

@[simp] theorem local_fileInode (f : Fin NFILE) : Code.All P (fileInode f) := by
  refine all_bind (local_op trivial) fun ff => ?_
  cases ff.ip <;> simp

@[simp] theorem local_fdFile (fd : ℤ) : Code.All P (fdFile fd) := by simp [fdFile]

end Local

/-! ### The books -/

def fileNode (s : Files InodePtr) (f : Fin NFILE) : Option InodePtr := (s.openNode f).map Prod.fst

/-- The references to `ip`, when the working directories are `cwd`. -/
def refCount (cwd : ℕ → Option InodePtr) (s : Files InodePtr) (ip : InodePtr) : ℕ :=
  holders Finset.univ (fileNode s) ip + holders (Finset.range NUM_IDS) cwd ip

/-- The books are right, when the working directories are `cwd`, the call that runs has the references `R`, and the inodes
`L` are locked. -/
structure Refs (cwd : ℕ → Option InodePtr) (R : List InodePtr) (L : Finset InodePtr) (s : FS) : Prop where
  count : ∀ ip, (s.inode ip).ref = (refCount cwd s.procs.files ip + R.count ip : ℕ)
  uniq : ∀ ip ip', 0 < (s.inode ip).ref → 0 < (s.inode ip').ref → (s.inode ip).inum = (s.inode ip').inum → ip = ip'
  busy : ∀ ip, (s.inode ip).busy = true ↔ ip ∈ L
  locked : ∀ ip ∈ L, 0 < (s.inode ip).ref
  free : s.procs.files.FreeOk
  family : Family s.procs.container s.procs.spawned
  ids : ∀ p ∈ s.procs.spawned, p < NUM_IDS
  known : ∀ p, cwd p ≠ none → p ∈ s.procs.spawned

namespace Refs

variable {cwd cwd' : ℕ → Option InodePtr} {R R' : List InodePtr} {L : Finset InodePtr} {ip : InodePtr}

theorem still (h : Refs cwd R L s) (hst : Still s t) : Refs cwd R L t where
  count ip := by
    have hn : fileNode t.procs.files = fileNode s.procs.files := by
      funext f
      rw [fileNode, fileNode, hst.openNode]
    rw [(hst.node ip).1, h.count, refCount, refCount, hn]
  uniq ip ip' := by
    rw [(hst.node ip).1, (hst.node ip').1, (hst.node ip).2.1, (hst.node ip').2.1]
    exact h.uniq ip ip'
  busy ip := by
    rw [(hst.node ip).2.2]
    exact h.busy ip
  locked ip hip := by
    rw [(hst.node ip).1]
    exact h.locked ip hip
  free := hst.free h.free
  family := by
    rw [hst.spawned]
    exact h.family.congr hst.nchildren
  ids := by
    rw [hst.spawned]
    exact h.ids
  known := by
    rw [hst.spawned]
    exact h.known

theorem perm (h : Refs cwd R L s) (hp : R.Perm R') : Refs cwd R' L s :=
  { h with count := fun ip => by rw [h.count, hp.count_eq] }

theorem pos_of_mem (h : Refs cwd R L s) (hip : ip ∈ R) : 0 < (s.inode ip).ref := by
  have := List.count_pos_iff.mpr hip
  rw [h.count]
  omega

variable {p : ℕ} {v : Inode} {L' : Finset InodePtr} {u : Files InodePtr} {f : Fin NFILE} {w : Bool}

section

variable (h : Refs cwd R L s)
include h

theorem pos_of_cwd (hp : cwd p = some ip) : 0 < (s.inode ip).ref := by
  have hlt : p < NUM_IDS := h.ids p (h.known p (by simp [hp]))
  have : 0 < holders (Finset.range NUM_IDS) cwd ip := holders_pos_iff.mpr ⟨p, mem_range.mpr hlt, hp⟩
  rw [h.count, refCount]
  omega

omit h in
theorem count_cons (ip ip' : InodePtr) (R : List InodePtr) :
    (ip :: R).count ip' = R.count ip' + if ip' = ip then 1 else 0 := by
  rw [List.count_cons]
  exact congrArg _ (if_congr (by rw [beq_iff_eq, eq_comm]) rfl rfl)

omit h in
theorem count_cons_ne (ip' : InodePtr) (hne : ip' ≠ ip) : (ip :: R).count ip' = R.count ip' :=
  List.count_cons_of_ne hne.symm

theorem setInode
    (hcount : v.ref = (refCount cwd s.procs.files ip + R'.count ip : ℕ)) (hR : ∀ ip', ip' ≠ ip → R'.count ip' = R.count ip')
    (huniq : ∀ ip', ip' ≠ ip → 0 < v.ref → 0 < (s.inode ip').ref → v.inum ≠ (s.inode ip').inum)
    (hbusy : v.busy = true ↔ ip ∈ L') (hL : ∀ ip', ip' ≠ ip → (ip' ∈ L' ↔ ip' ∈ L)) (hlocked : ip ∈ L' → 0 < v.ref) :
    Refs cwd R' L' (s.setInode ip v) := by
  have hinode : ∀ ip', (s.setInode ip v).inode ip' = if ip' = ip then v else s.inode ip' := fun ip' => by
    simp [FS.setInode, update_apply]
  refine ⟨fun ip' => ?_, fun i j hi hj e => ?_, fun ip' => ?_, fun ip' hip' => ?_, h.free, h.family, h.ids, h.known⟩
  · rw [hinode]
    split_ifs with e
    · rw [e]
      exact hcount
    · rw [hR ip' e]
      exact h.count ip'
  · rw [hinode] at hi e
    rw [hinode] at hj e
    split_ifs at hi hj e with h1 h2 h2
    · rw [h1, h2]
    · exact absurd e (huniq j h2 hi hj)
    · exact absurd e.symm (huniq i h1 hj hi)
    · exact h.uniq i j hi hj e
  · rw [hinode]
    split_ifs with e
    · rw [e]
      exact hbusy
    · rw [hL ip' e]
      exact h.busy ip'
  · rw [hinode]
    split_ifs with e
    · exact hlocked (e ▸ hip')
    · exact h.locked ip' ((hL ip' e).mp hip')

theorem setInode_inum (hpos : 0 < (s.inode ip).ref)
    (hcount : v.ref = (refCount cwd s.procs.files ip + R'.count ip : ℕ)) (hR : ∀ ip', ip' ≠ ip → R'.count ip' = R.count ip')
    (hinum : v.inum = (s.inode ip).inum) (hbusy : v.busy = true ↔ ip ∈ L') (hL : ∀ ip', ip' ≠ ip → (ip' ∈ L' ↔ ip' ∈ L))
    (hlocked : ip ∈ L' → 0 < v.ref) : Refs cwd R' L' (s.setInode ip v) :=
  h.setInode hcount hR (fun ip' hne _ hpos' e => hne (h.uniq ip' ip hpos' hpos (e.symm.trans hinum))) hbusy hL hlocked

theorem again (hip : 0 < (s.inode ip).ref) :
    Refs cwd (ip :: R) L (s.setInode ip { s.inode ip with ref := (s.inode ip).ref + 1 }) := by
  refine h.setInode_inum hip ?_ count_cons_ne rfl (h.busy ip) (fun _ _ => Iff.rfl) fun _ => Int.lt_add_one_of_le hip.le
  have := h.count ip
  rw [List.count_cons_self]
  show (s.inode ip).ref + 1 = _
  omega

theorem fresh (hip : (s.inode ip).ref = 0) {inum : ℕ}
    (hno : ∀ ip', 0 < (s.inode ip').ref → (s.inode ip').inum ≠ inum) :
    Refs cwd (ip :: R) L (s.setInode ip { s.inode ip with inum := inum, ref := 1, busy := false, valid := false }) := by
  have hL : ip ∉ L := fun hm => (h.locked ip hm).ne' hip
  refine h.setInode ?_ count_cons_ne (fun ip' _ _ hpos => (hno ip' hpos).symm) (by simp [hL]) (fun _ _ => Iff.rfl)
    fun _ => Int.one_pos
  have := h.count ip
  rw [List.count_cons_self]
  show (1 : ℤ) = _
  omega

omit h in
theorem inodeGet (h : Refs cwd R L s) (inum : ℕ) :
    wp (inodeGet inum) (fun ip t => Refs cwd (ip :: R) L t ∧ t.cwd = s.cwd ∧ t.procs = s.procs) (fun _ _ => True) s := by
  unfold Fs.inodeGet
  rw [wp_bind, wp_get]
  split
  · rename_i ip hfind
    have hip : 0 < (s.inode ip).ref ∧ (s.inode ip).inum = inum := by simpa using List.find?_some hfind
    exact ⟨h.again hip.1, rfl, rfl⟩
  · rename_i hnone
    have hno : ∀ ip, 0 < (s.inode ip).ref → (s.inode ip).inum ≠ inum := fun ip hpos e => by
      have := List.find?_eq_none.mp hnone ip (List.mem_finRange ip)
      simp [hpos, e] at this
    split
    · rename_i ip hfind
      exact ⟨h.fresh (by simpa using List.find?_some hfind) hno, rfl, rfl⟩
    · trivial

theorem lock (hip : ¬ (s.inode ip).ref < 1) (hb : (s.inode ip).busy = false) :
    ip ∉ L ∧ Refs cwd R (insert ip L) (s.setInode ip { s.inode ip with busy := true }) := by
  have hpos : 0 < (s.inode ip).ref := by omega
  have hL : ip ∉ L := fun hm => by
    have := (h.busy ip).mpr hm
    rw [hb] at this
    cases this
  exact ⟨hL, h.setInode_inum hpos (h.count ip) (fun _ _ => rfl) rfl (by simp) (fun ip' e => by simp [e]) fun _ => hpos⟩

theorem unlock (hpos : 0 < (s.inode ip).ref) :
    Refs cwd R (L.erase ip) (s.setInode ip { s.inode ip with busy := false }) :=
  h.setInode_inum hpos (h.count ip) (fun _ _ => rfl) rfl (by simp) (fun ip' e => by simp [e]) fun _ => hpos

omit h in
theorem put (h : Refs cwd (ip :: R) L s) (hL : ip ∈ L → ip ∈ R) (href : v.ref = (s.inode ip).ref - 1)
    (hinum : v.inum = (s.inode ip).inum) (hbusy : v.busy = (s.inode ip).busy) : Refs cwd R L (s.setInode ip v) := by
  have hcount := h.count ip
  rw [List.count_cons_self] at hcount
  refine h.setInode_inum (h.pos_of_mem List.mem_cons_self) (by omega) (fun ip' e => (count_cons_ne ip' e).symm) hinum
    (by rw [hbusy]; exact h.busy ip) (fun _ _ => Iff.rfl) fun hip => ?_
  have := List.count_pos_iff.mpr (hL hip)
  omega

theorem takeCwd (hp : cwd p = some ip) : Refs (update cwd p none) (ip :: R) L s := by
  have hlt : p < NUM_IDS := h.ids p (h.known p (by simp [hp]))
  refine { h with count := fun ip' => ?_, known := fun q hq => ?_ }
  · have := holders_clear (mem_range.mpr hlt) hp ip'
    rw [h.count, refCount, refCount, ← this, count_cons]
    omega
  · by_cases e : q = p
    · simp [e] at hq
    · rw [update_of_ne e] at hq
      exact h.known q hq

omit h in
theorem giveCwd (h : Refs cwd (ip :: R) L s) (hp : cwd p = none) (hs : p ∈ s.procs.spawned) :
    Refs (update cwd p (some ip)) R L s := by
  refine { h with count := fun ip' => ?_, known := fun q hq => ?_ }
  · have := holders_set (mem_range.mpr (h.ids p hs)) hp ip ip'
    rw [h.count, refCount, refCount, this, count_cons]
    omega
  · by_cases e : q = p
    · rw [e]
      exact hs
    · rw [update_of_ne e] at hq
      exact h.known q hq

omit h in
theorem fileNode_update {v : Files InodePtr} {o : Option (InodePtr × Bool)}
    (h : u.openNode = update v.openNode f o) : fileNode u = update (fileNode v) f (o.map Prod.fst) := by
  funext g
  rw [fileNode, h]
  by_cases e : g = f
  · subst e
    simp
  · simp [e, fileNode]

theorem takeFile
    (hf : s.procs.files.openNode f = some (ip, w)) (hu : u.openNode = update s.procs.files.openNode f none)
    (hfree : u.FreeOk) : Refs cwd (ip :: R) L { s with procs := { s.procs with files := u } } := by
  refine { h with count := fun ip' => ?_, free := hfree }
  have hold : fileNode s.procs.files f = some ip := by
    rw [fileNode, hf]
    rfl
  have := holders_clear (mem_univ f) hold ip'
  rw [h.count, refCount, refCount, ← this, fileNode_update hu, count_cons]
  simp only [Option.map_none]
  omega

omit h in
theorem giveFile (h : Refs cwd (ip :: R) L s)
    (hf : s.procs.files.openNode f = none) (hu : u.openNode = update s.procs.files.openNode f (some (ip, w)))
    (hfree : u.FreeOk) : Refs cwd R L { s with procs := { s.procs with files := u } } := by
  refine { h with count := fun ip' => ?_, free := hfree }
  have hold : fileNode s.procs.files f = none := by
    rw [fileNode, hf]
    rfl
  have := holders_set (mem_univ f) hold ip ip'
  rw [h.count, refCount, refCount, fileNode_update hu, Option.map_some, this, count_cons]
  omega

theorem setFiles (hu : u.openNode = s.procs.files.openNode) (hfree : u.FreeOk) :
    Refs cwd R L { s with procs := { s.procs with files := u } } :=
  h.still ⟨fun _ => ⟨rfl, rfl, rfl⟩, hu, fun _ => hfree, rfl, rfl, fun _ => rfl⟩

theorem setCwd (c : ℕ → Option InodePtr) : Refs cwd R L { s with cwd := c } :=
  ⟨h.count, h.uniq, h.busy, h.locked, h.free, h.family, h.ids, h.known⟩

end

end Refs

/-! ### What the functions do -/

/-- `inode_put` is applied to an entry with a reference. -/
def FsOp.PutOk {β : Type} (s : FS) : FsOp β → Prop
  | .iput ip => 1 ≤ (s.inode ip).ref
  | _ => True

/-- What is asked of the system calls of `pid`. -/
def refGuard (pid : ℕ) : Guard FS FsStop FsOp := ⟨sem pid, fun _ _ _ => True, fun s _ o => o.PutOk s, fun _ _ => True⟩

/-- The working directories, without that of `pid` if the call has taken its reference. -/
def seenCwd (pid : ℕ) (gone : Bool) (cwd : ℕ → Option InodePtr) : ℕ → Option InodePtr :=
  if gone then update cwd pid none else cwd

/-- Process `pid` is inside a call that has the references `R` and the locks `L`, and perhaps the reference of its working
directory. -/
structure Nodes (pid : ℕ) (gone : Bool) (R : List InodePtr) (L : Finset InodePtr) (s : FS) : Prop where
  refs : Refs (seenCwd pid gone s.cwd) R L s
  self : pid ∈ s.procs.spawned

section Functions

variable {gone : Bool} {R R' : List InodePtr} {L L' : Finset InodePtr} {ip : InodePtr} {α β : Type}

section

variable (h : Nodes pid gone R L s)
include h

theorem Nodes.move (hr : Refs (seenCwd pid gone s.cwd) R' L' t) (hc : t.cwd = s.cwd)
    (hp : t.procs.spawned = s.procs.spawned) : Nodes pid gone R' L' t :=
  ⟨by rw [hc]; exact hr, by rw [hp]; exact h.self⟩

theorem Nodes.perm (hp : R.Perm R') : Nodes pid gone R' L s := ⟨h.refs.perm hp, h.self⟩

variable {o : FsOp β} {Q : α → FS → Prop} {f : β → Code FsOp α} {dp : InodePtr}

omit h in
theorem runs_ref {Q : β → FS → Prop} (hok : o.PutOk s) (h : wp (sem pid β o) Q (fun _ _ => True) s) :
    (refGuard pid).Runs (Code.op o) Q s := fun _ => ⟨hok, h⟩

omit h in
theorem runs_plain {c : Code FsOp α} (hc : PlainCode c) (h : Nodes pid gone R L s) :
    (refGuard pid).Runs c (fun _ t => Nodes pid gone R L t) s := by
  have hplain : ∀ β (o : FsOp β), o.Plain → ∀ s, (refGuard pid).cond s β o →
      (refGuard pid).ok s β o ∧ wp ((refGuard pid).sem β o) (fun _ t => Still s t) (refGuard pid).stop s := by
    intro β o ho s _
    refine ⟨?_, wp_plain ho⟩
    cases o <;> first | exact trivial | exact ho.elim
  refine (Guard.runs_all Still.refl Still.trans hplain hc s).mono fun _ t ht => ?_
  exact h.move (h.refs.still ht) ht.cwd ht.spawned

theorem runs_plain_bind {c : Code FsOp β}
    (hc : PlainCode c) (hf : ∀ b t, Nodes pid gone R L t → (refGuard pid).Runs (f b) Q t) :
    (refGuard pid).Runs (c >>= f) Q s :=
  (runs_plain hc h).bind hf

theorem runs_step (ho : o.Plain)
    (hf : ∀ b t, Nodes pid gone R L t → (refGuard pid).Runs (f b) Q t) : (refGuard pid).Runs (Code.op o >>= f) Q s :=
  runs_plain_bind h (plain_op ho) hf

omit h in
theorem runs_ref_stop (e : FsStop) : (refGuard pid).Runs (stop e : Code FsOp α) Q s := fun _ => ⟨trivial, trivial⟩

omit h in
theorem Nodes.inodeGet (h : Nodes pid gone R L s) (inum : ℕ) :
    wp (inodeGet inum) (fun ip t => Nodes pid gone (ip :: R) L t) (fun _ _ => True) s :=
  wp_mono (h.refs.inodeGet inum) (fun _ _ ht => h.move ht.1 ht.2.1 (by rw [ht.2.2])) fun _ _ he => he

omit h in
theorem runs_inodeLock (ip : InodePtr) (h : Nodes pid gone R L s) :
    (refGuard pid).Runs (inodeLock ip) (fun _ t => ip ∉ L ∧ Nodes pid gone R (insert ip L) t) s := by
  have hlock : (refGuard pid).Runs (Code.op (.ilock ip)) (fun _ t => ip ∉ L ∧ Nodes pid gone R (insert ip L) t) s := by
    refine runs_ref trivial ?_
    show wp (lockInode ip) _ _ s
    unfold lockInode
    rw [wp_bind, wp_get]
    split_ifs with hr hb
    · trivial
    · trivial
    · have := h.refs.lock hr (by simpa using hb)
      exact ⟨this.1, h.move this.2 rfl rfl⟩
  refine hlock.bind fun valid t ht => ?_
  split_ifs
  · exact ht
  refine Guard.Runs.mono (runs_plain ?_ ht.2) fun _ u hu => ⟨ht.1, hu⟩
  exact all_bind (plain_op trivial) fun _ => all_bind (local_bufcacheRead _) fun _ => all_bind (plain_op trivial) fun _ =>
    all_bind (local_bufcacheRelease _) fun _ => all_bind (plain_op trivial) fun _ => by simp

omit h in
theorem runs_inodeLock_first (ip : InodePtr) (h : Nodes pid gone R ∅ s) :
    (refGuard pid).Runs (inodeLock ip) (fun _ t => Nodes pid gone R {ip} t) s :=
  (runs_inodeLock ip h).mono fun _ _ ht => by simpa using ht.2

theorem runs_inodeUnlock :
    (refGuard pid).Runs (inodeUnlock ip) (fun _ t => Nodes pid gone R (L.erase ip) t) s := by
  refine runs_ref trivial ?_
  show wp (unlockInode ip) _ _ s
  unfold unlockInode
  rw [wp_bind, wp_get]
  split_ifs with hip
  · trivial
  · exact h.move (h.refs.unlock (by omega)) rfl rfl

omit h in
theorem runs_inodeUnlock_last (h : Nodes pid gone R {ip} s) :
    (refGuard pid).Runs (inodeUnlock ip) (fun _ t => Nodes pid gone R ∅ t) s :=
  (runs_inodeUnlock h).mono fun _ _ ht => by simpa using ht

omit h in
theorem runs_inodePut (h : Nodes pid gone (ip :: R) L s) (hL : ip ∈ L → ip ∈ R) :
    (refGuard pid).Runs (inodePut ip) (fun _ t => Nodes pid gone R L t) s := by
  have hpos := h.refs.pos_of_mem (List.mem_cons_self (a := ip))
  have hput : (refGuard pid).Runs (Code.op (.iput ip)) (fun free t =>
      if free then ip ∉ L ∧ Nodes pid gone (ip :: R) (insert ip L) t else Nodes pid gone R L t) s := by
    refine runs_ref hpos ?_
    show wp (putInode ip) _ _ s
    unfold putInode
    rw [wp_bind, wp_get]
    split_ifs with hfree hb
    · trivial
    · have hr : ¬ (s.inode ip).ref < 1 := by omega
      have := h.refs.lock hr (by simpa using hb)
      exact ⟨this.1, h.move this.2 rfl rfl⟩
    · exact h.move (h.refs.put hL rfl rfl rfl) rfl rfl
  refine hput.bind fun free t ht => ?_
  cases free with
  | false => exact ht
  | true =>
    refine runs_plain_bind ht.2 (local_inodeTrunc ip) fun _ u hu => ?_
    refine runs_step hu trivial fun _ u hu => runs_step hu trivial fun _ u hu => ?_
    refine runs_plain_bind hu (local_inodeUpdate ip) fun _ u hu => runs_ref trivial ?_
    -- the lock and the reference go together
    have hu' := (hu.refs.unlock (hu.refs.pos_of_mem List.mem_cons_self)).put (v := { u.inode ip with busy := false, valid := false, ref := (u.inode ip).ref - 1 })
      (by simp) (by simp [FS.setInode]) (by simp [FS.setInode]) (by simp [FS.setInode])
    rw [erase_insert ht.1] at hu'
    refine hu.move ?_ rfl rfl
    simpa [FS.setInode] using hu'

omit h in
theorem runs_inodeUnlockput (h : Nodes pid gone (ip :: R) L s) :
    (refGuard pid).Runs (inodeUnlockput ip) (fun _ t => Nodes pid gone R (L.erase ip) t) s :=
  (runs_inodeUnlock h).bind fun _ _ ht => runs_inodePut ht (by simp)

omit h in
theorem runs_inodeUnlockput_last (h : Nodes pid gone (ip :: R) {ip} s) :
    (refGuard pid).Runs (inodeUnlockput ip) (fun _ t => Nodes pid gone R ∅ t) s :=
  (runs_inodeUnlockput h).mono fun _ _ ht => by simpa using ht

theorem runs_inodeAlloc (type : ℕ) :
    (refGuard pid).Runs (inodeAlloc type) (fun ip t => Nodes pid gone (ip :: R) L t) s := by
  have hloop : ∀ n inum s, Nodes pid gone R L s →
      (refGuard pid).Runs (inodeAllocLoop type n inum) (fun ip t => Nodes pid gone (ip :: R) L t) s := by
    intro n
    induction n with
    | zero => exact fun inum s h => fun _ => ⟨trivial, trivial⟩
    | succ n ih =>
      intro inum s h
      refine runs_plain_bind h (local_bufcacheRead _) fun bp t ht => runs_step ht trivial fun v t ht => ?_
      split_ifs
      · refine runs_step ht trivial fun _ t ht => runs_plain_bind ht (local_logWrite _) fun _ t ht => ?_
        exact runs_plain_bind ht (local_bufcacheRelease _) fun _ t ht => runs_ref trivial (ht.inodeGet inum)
      · exact runs_plain_bind ht (local_bufcacheRelease _) fun _ t ht => ih _ t ht
  exact runs_step h trivial fun _ t ht => runs_plain_bind ht local_readSuperblock fun _ t ht => hloop _ _ t ht

def got {γ : Type} (r : Option (InodePtr × γ)) : List InodePtr := (r.map Prod.fst).toList

theorem runs_dirLookup (dp : InodePtr) (name : List UInt8) :
    (refGuard pid).Runs (dirLookup dp name) (fun r t => Nodes pid gone (got r ++ R) L t) s := by
  refine runs_step h trivial fun n t ht => ?_
  split_ifs
  · exact runs_ref_stop _
  refine runs_plain_bind ht (local_lookupLoop _ _ _ _) fun r t ht => ?_
  cases r with
  | none => exact ht
  | some r =>
    have hget : (refGuard pid).Runs (Code.op (.igetEntry dp name r.1)) (fun ip t => Nodes pid gone (ip :: R) L t) t :=
      runs_ref trivial (ht.inodeGet r.1)
    exact hget.bind fun ip u hu => hu

theorem runs_dirLink (hL : ∀ ip ∈ L, ip ∈ R) (dp : InodePtr) (name : List UInt8) (inum : ℕ) :
    (refGuard pid).Runs (dirLink dp name inum) (fun _ t => Nodes pid gone R L t) s := by
  refine (runs_dirLookup h dp name).bind fun r t ht => ?_
  cases r with
  | none =>
    refine runs_step ht trivial fun n t ht => runs_plain_bind ht (local_freeLoop _ _ _) fun off t ht => ?_
    refine runs_plain_bind ht (local_inodeWrite _ _ _) fun r t ht => runs_plain ?_ ht
    simp
  | some r => exact (runs_inodePut ht (hL r.1)).bind fun _ u hu => hu

end

/-! ### Paths -/

theorem runs_namexLoop (nameiparent : Bool) (fuel : ℕ) (path : List UInt8) (h : Nodes pid gone (ip :: R) ∅ s) :
    (refGuard pid).Runs (namexLoop nameiparent fuel ip path) (fun r t => Nodes pid gone (got r ++ R) ∅ t) s := by
  induction fuel generalizing ip path s with
  | zero => exact runs_ref_stop _
  | succ fuel ih =>
    unfold namexLoop
    cases skipelem path with
    | none =>
      cases nameiparent with
      | false => exact h
      | true => exact (runs_inodePut h (by simp)).bind fun _ t ht => ht
    | some p =>
      obtain ⟨path, name⟩ := p
      refine (runs_inodeLock_first ip h).bind fun _ t ht => runs_step ht trivial fun n t ht => ?_
      split_ifs
      · exact (runs_inodeUnlockput_last ht).bind fun _ u hu => hu
      · exact (runs_inodeUnlock_last ht).bind fun _ u hu => hu
      · refine (runs_dirLookup ht ip name).bind fun r t ht => ?_
        cases r with
        | none => exact (runs_inodeUnlockput_last ht).bind fun _ u hu => hu
        | some r => exact (runs_inodeUnlockput_last (ht.perm (.swap ..))).bind fun _ u hu => ih path hu

theorem runs_cwd {o : FsOp (Option InodePtr)} (ho : o = .cwd ∨ o = .oldCwd) (h : Nodes pid gone R L s) :
    (refGuard pid).Runs (Code.op o) (fun r t => r = t.cwd pid ∧ Nodes pid gone R L t) s := by
  rcases ho with rfl | rfl <;> exact fun _ => ⟨trivial, rfl, h⟩

theorem runs_setCwd (h : Nodes pid gone (ip :: R) L s) (hcwd : seenCwd pid gone s.cwd pid = none) :
    (refGuard pid).Runs (Code.op (.setCwd ip)) (fun _ t => Nodes pid false R L t ∧ t.cwd pid = some ip) s := by
  refine runs_ref trivial ⟨⟨?_, h.self⟩, update_self ..⟩
  have hgive := h.refs.giveCwd hcwd h.self
  have heq : update (seenCwd pid gone s.cwd) pid (some ip) = update s.cwd pid (some ip) := by
    unfold seenCwd
    split_ifs
    · rw [update_idem]
    · rfl
  rw [heq] at hgive
  exact hgive.setCwd _

theorem runs_getCwd (h : Nodes pid false R L s) :
    (refGuard pid).Runs getCwd (fun ip t => Nodes pid false R L t ∧ t.cwd pid = some ip) s := by
  refine (runs_cwd (.inl rfl) h).bind fun r t ht => ?_
  cases r with
  | some ip => exact ⟨ht.2, ht.1.symm⟩
  | none =>
    have hget : (refGuard pid).Runs (Code.op .igetRoot) (fun ip u => Nodes pid false (ip :: R) L u ∧ u.cwd = t.cwd) t := by
      refine runs_ref trivial ?_
      refine wp_mono (ht.2.refs.inodeGet ROOTINO) (fun ip u hu => ⟨ht.2.move hu.1 hu.2.1 (by rw [hu.2.2]), hu.2.1⟩) fun _ _ he => he
    refine hget.bind fun ip u hu => ?_
    exact (runs_setCwd hu.1 (by show u.cwd pid = none; rw [hu.2]; exact ht.1.symm)).bind fun _ v hv => hv

theorem runs_idup (h : Nodes pid gone R L s) (hip : 0 < (s.inode ip).ref) :
    (refGuard pid).Runs (Code.op (.idup ip)) (fun _ t => Nodes pid gone (ip :: R) L t) s :=
  runs_ref trivial (h.move (h.refs.again hip) rfl rfl)

theorem runs_namex (h : Nodes pid false R ∅ s) (path : List UInt8) (nameiparent : Bool) :
    (refGuard pid).Runs (namex path nameiparent) (fun r t => Nodes pid false (got r ++ R) ∅ t) s := by
  unfold namex
  split_ifs
  · have hget : (refGuard pid).Runs (Code.op .igetRoot) (fun ip t => Nodes pid false (ip :: R) ∅ t) s :=
      runs_ref trivial (h.inodeGet ROOTINO)
    exact hget.bind fun ip t ht => runs_namexLoop _ _ _ ht
  · refine (runs_getCwd h).bind fun ip t ht => ?_
    exact (runs_idup ht.1 (ht.1.refs.pos_of_cwd ht.2)).bind fun _ u hu => runs_namexLoop _ _ _ hu

theorem runs_namei (h : Nodes pid false R ∅ s) (path : List UInt8) :
    (refGuard pid).Runs (namei path) (fun r t => Nodes pid false (r.toList ++ R) ∅ t) s := by
  refine (runs_namex h path false).bind fun r t ht => ?_
  cases r with
  | none => exact ht
  | some r => exact ht

/-! ### System calls -/

theorem runs_runCalls {cs : List (FileCall InodePtr)} (h : Nodes pid gone (Files.puts cs ++ R) ∅ s) :
    (refGuard pid).Runs (runCalls cs) (fun _ t => Nodes pid gone R ∅ t) s := by
  induction cs generalizing s with
  | nil => exact h
  | cons c cs ih =>
    cases c with
    | wakeup p chan => exact ih h
    | inodePut ip =>
      refine runs_plain_bind h local_beginTrans fun _ t ht => ?_
      refine (runs_inodePut ht (by simp)).bind fun _ t ht => runs_plain_bind ht local_commitTrans fun _ t ht => ih ht

section

variable (h : Nodes pid gone R ∅ s)
include h

theorem runs_fileClose (f : Fin NFILE) :
    (refGuard pid).Runs (fileClose f) (fun _ t => Nodes pid gone R ∅ t) s := by
  have hop : (refGuard pid).Runs (Code.op (.fileClose f)) (fun cs t => Nodes pid gone (Files.puts cs ++ R) ∅ t) s := by
    refine runs_ref trivial ?_
    show wp (onFiles fun s => s.fileClose f) _ _ s
    unfold onFiles
    rw [wp_bind, wp_get]
    split
    · rename_i u cs hc
      show Nodes pid gone (Files.puts cs ++ R) ∅ { s with procs := { s.procs with files := u } }
      obtain ⟨hfree, ⟨hp, hu⟩ | ⟨ip, w, hp, hf, hu⟩⟩ := h.refs.free.close hc
      · rw [hp]
        exact h.move (h.refs.setFiles hu hfree) rfl rfl
      · rw [hp]
        exact h.move (h.refs.takeFile hf hu hfree) rfl rfl
    · trivial
  exact hop.bind fun cs t ht => runs_runCalls ht

theorem runs_fileRead (f : Fin NFILE) (n : ℕ) :
    (refGuard pid).Runs (fileRead f n) (fun _ t => Nodes pid gone R ∅ t) s := by
  refine runs_plain_bind h (local_fileInode f) fun ip t ht => (runs_inodeLock_first ip ht).bind fun _ t ht => ?_
  refine runs_step ht trivial fun ff t ht => runs_plain_bind ht (local_inodeRead _ _ _) fun r t ht => ?_
  cases r with
  | none => exact (runs_inodeUnlock_last ht).bind fun _ u hu => hu
  | some bs =>
    exact runs_step ht trivial fun _ t ht => (runs_inodeUnlock_last ht).bind fun _ u hu => hu

theorem runs_writeChunks (f : Fin NFILE) (fuel : ℕ) (bs : List UInt8) :
    (refGuard pid).Runs (writeChunks f fuel bs) (fun _ t => Nodes pid gone R ∅ t) s := by
  induction fuel generalizing bs s with
  | zero => exact h
  | succ fuel ih =>
    unfold writeChunks
    split_ifs
    · exact h
    refine runs_plain_bind h local_beginTrans fun _ t ht => runs_plain_bind ht (local_fileInode f) fun ip t ht => ?_
    refine (runs_inodeLock_first ip ht).bind fun _ t ht => runs_step ht trivial fun ff t ht => ?_
    refine runs_plain_bind ht (local_inodeWrite _ _ _) fun r t ht => ?_
    cases r with
    | none => exact (runs_inodeUnlock_last ht).bind fun _ u hu => runs_plain_bind hu local_commitTrans fun _ v hv => hv
    | some r =>
      refine runs_step ht trivial fun _ t ht => (runs_inodeUnlock_last ht).bind fun _ u hu => ?_
      refine runs_plain_bind hu local_commitTrans fun _ v hv => ?_
      by_cases hr : r ≠ min bs.length maxWrite
      · rw [if_pos hr]
        exact runs_ref_stop _
      · rw [if_neg hr]
        exact ih hv _

theorem runs_sysRead (fd : ℤ) (userBuf n : UInt32) :
    (refGuard pid).Runs (sysRead fd userBuf n) (fun _ t => Nodes pid gone R ∅ t) s := by
  unfold sysRead
  by_cases hfd : 0 ≤ fd ∧ fd < NOFILE
  swap
  · rw [if_pos hfd]
    exact h
  split_ifs
  · exact h
  refine runs_plain_bind h (local_fdFile fd) fun f t ht => ?_
  cases f with
  | none => exact ht
  | some f =>
    refine runs_step ht trivial fun ff t ht => ?_
    split_ifs
    · exact ht
    · exact ht
    cases ff.type with
    | inode => exact (runs_fileRead ht f _).bind fun _ u hu => hu
    | none | consoleOut => exact runs_ref_stop _
    | pipe | consoleIn => exact ht

theorem runs_sysWrite (fd : ℤ) (userBuf : UInt32) (bs : List UInt8) :
    (refGuard pid).Runs (sysWrite fd userBuf bs) (fun _ t => Nodes pid gone R ∅ t) s := by
  unfold sysWrite
  by_cases hfd : 0 ≤ fd ∧ fd < NOFILE
  swap
  · rw [if_pos hfd]
    exact h
  split_ifs
  · exact h
  refine runs_plain_bind h (local_fdFile fd) fun f t ht => ?_
  cases f with
  | none => exact ht
  | some f =>
    refine runs_step ht trivial fun ff t ht => ?_
    split_ifs
    · exact ht
    · exact ht
    cases ff.type with
    | inode => exact (runs_writeChunks ht f _ _).bind fun _ u hu => hu
    | none | consoleIn => exact runs_ref_stop _
    | pipe | consoleOut => exact ht

theorem runs_sysClose (fd : ℕ) :
    (refGuard pid).Runs (sysClose fd) (fun _ t => Nodes pid gone R ∅ t) s := by
  refine runs_plain_bind h (local_fdFile _) fun f t ht => ?_
  cases f with
  | none => exact ht
  | some f =>
    exact (runs_fileClose ht f).bind fun _ t ht => runs_step ht trivial fun _ t ht => ht

end

theorem runs_linkBad (h : Nodes pid gone (ip :: R) ∅ s) :
    (refGuard pid).Runs (linkBad ip) (fun _ t => Nodes pid gone R ∅ t) s := by
  refine (runs_inodeLock_first ip h).bind fun _ t ht => runs_plain_bind ht (local_decLink ip) fun _ t ht => ?_
  exact (runs_inodeUnlockput_last ht).bind fun _ t ht => runs_plain_bind ht local_commitTrans fun _ t ht => ht

theorem runs_sysLink (h : Nodes pid false R ∅ s) (old new : List UInt8) :
    (refGuard pid).Runs (sysLink old new) (fun _ t => Nodes pid false R ∅ t) s := by
  refine (runs_namei h _).bind fun r t ht => ?_
  cases r with
  | none => exact ht
  | some ip =>
    refine runs_plain_bind ht local_beginTrans fun _ t ht => (runs_inodeLock_first ip ht).bind fun _ t ht => ?_
    refine runs_step ht trivial fun n t ht => ?_
    split_ifs
    · exact (runs_inodeUnlockput_last ht).bind fun _ t ht => runs_plain_bind ht local_commitTrans fun _ t ht => ht
    refine runs_plain_bind ht (local_incLink ip) fun _ t ht => (runs_inodeUnlock_last ht).bind fun _ t ht => ?_
    refine (runs_namex ht _ _).bind fun r t ht => ?_
    cases r with
    | none => exact runs_linkBad ht
    | some r =>
      obtain ⟨dp, name⟩ := r
      refine (runs_inodeLock_first dp ht).bind fun _ t ht => runs_step ht trivial fun n t ht => ?_
      refine (runs_dirLink ht (by simp [got]) dp name _).bind fun ok t ht => ?_
      refine (runs_inodeUnlockput_last ht).bind fun _ t ht => ?_
      split_ifs
      · exact (runs_inodePut ht (by simp)).bind fun _ t ht => runs_plain_bind ht local_commitTrans fun _ t ht => ht
      · exact runs_linkBad ht

theorem runs_unlinkBad (h : Nodes pid gone (dp :: R) {dp} s) :
    (refGuard pid).Runs (unlinkBad dp) (fun _ t => Nodes pid gone R ∅ t) s :=
  (runs_inodeUnlockput_last h).bind fun _ _ ht => runs_plain_bind ht local_commitTrans fun _ _ ht => ht

theorem runs_unlinkEntry (h : Nodes pid gone (ip :: dp :: R) {ip, dp} s) (off : ℕ)
    (isDir : Bool) : (refGuard pid).Runs (unlinkEntry dp ip off isDir) (fun _ t => Nodes pid gone R ∅ t) s := by
  refine runs_plain_bind h (local_inodeWrite _ _ _) fun r t ht => ?_
  by_cases hr : r = some DESIZE
  · rw [if_pos hr]
    refine runs_plain_bind ht (by simp) fun _ t ht => ?_
    refine (runs_inodeUnlockput (ht.perm (.swap ..))).bind fun _ t ht => ?_
    refine runs_plain_bind ht (local_decLink ip) fun _ t ht => (runs_inodeUnlockput ht).bind fun _ t ht => ?_
    refine runs_plain_bind ht local_commitTrans fun _ t ht => ?_
    have hnone : (({ip, dp} : Finset InodePtr).erase dp).erase ip = ∅ := by
      ext x
      simp
      tauto
    rw [hnone] at ht
    exact ht
  · rw [if_neg hr]
    exact runs_ref_stop _

theorem runs_sysUnlink (h : Nodes pid false R ∅ s) (path : List UInt8) :
    (refGuard pid).Runs (sysUnlink path) (fun _ t => Nodes pid false R ∅ t) s := by
  refine (runs_namex h _ _).bind fun r t ht => ?_
  cases r with
  | none => exact ht
  | some r =>
    obtain ⟨dp, name⟩ := r
    refine runs_plain_bind ht local_beginTrans fun _ t ht => (runs_inodeLock_first dp ht).bind fun _ t ht => ?_
    split_ifs
    · exact runs_unlinkBad ht
    refine (runs_dirLookup ht dp name).bind fun r t ht => ?_
    cases r with
    | none => exact runs_unlinkBad ht
    | some r =>
      obtain ⟨ip, off⟩ := r
      refine (runs_inodeLock ip ht).bind fun _ t ht => ?_
      have hne : ip ≠ dp := by simpa using ht.1
      refine runs_step ht.2 trivial fun n t ht => ?_
      split_ifs
      · exact runs_ref_stop _
      · refine runs_plain_bind ht (local_isdirempty ip) fun e t ht => ?_
        split_ifs
        · exact runs_unlinkEntry ht off true
        · refine (runs_inodeUnlockput ht).bind fun _ t ht => ?_
          rw [erase_insert (by simpa using hne)] at ht
          exact runs_unlinkBad ht
      · exact runs_unlinkEntry ht off false

theorem runs_createNew (h : Nodes pid gone (dp :: R) {dp} s) (name : List UInt8) (type major minor : ℕ) :
    (refGuard pid).Runs (createNew dp name type major minor) (fun ip t => Nodes pid gone (ip :: R) {ip} t) s := by
  refine (runs_inodeAlloc h type).bind fun ip t ht => (runs_inodeLock ip ht).bind fun _ t ht => ?_
  have hne : ip ≠ dp := by simpa using ht.1
  have hsub : ∀ x ∈ insert ip ({dp} : Finset InodePtr), x ∈ ip :: dp :: R := by
    intro x hx
    rcases mem_insert.mp hx with rfl | hx
    · exact List.mem_cons_self
    · rw [mem_singleton.mp hx]
      exact List.mem_cons_of_mem _ List.mem_cons_self
  refine runs_step ht.2 trivial fun n t ht => runs_step ht trivial fun _ t ht => ?_
  refine runs_plain_bind ht (local_inodeUpdate ip) fun _ t ht => ?_
  have hdots : ∀ {t}, Nodes pid gone (ip :: dp :: R) (insert ip {dp}) t →
      (refGuard pid).Runs (if type = T_DIR then do
        incLink dp
        let d ← Code.op (.node dp)
        if ← dirLink ip dot n.inum then
          if ← dirLink ip dotdot d.inum then pure ⟨⟩ else stop .createDots
        else stop .createDots
      else pure ⟨⟩ : Code FsOp PUnit) (fun _ t => Nodes pid gone (ip :: dp :: R) (insert ip {dp}) t) t := by
    intro t ht
    split_ifs
    · refine runs_plain_bind ht (local_incLink dp) fun _ t ht => runs_step ht trivial fun d t ht => ?_
      refine (runs_dirLink ht hsub ip dot _).bind fun ok t ht => ?_
      split_ifs
      · refine (runs_dirLink ht hsub ip dotdot _).bind fun ok t ht => ?_
        split_ifs
        · exact ht
        · exact runs_ref_stop _
      · exact runs_ref_stop _
    · exact ht
  refine (hdots ht).bind fun _ t ht => (runs_dirLink ht hsub dp name _).bind fun ok t ht => ?_
  split_ifs
  · refine (runs_inodeUnlockput (ht.perm (.swap ..))).bind fun _ t ht => ?_
    have hone : (insert ip ({dp} : Finset InodePtr)).erase dp = {ip} := by
      ext x
      simp
      constructor
      · tauto
      · rintro rfl
        exact ⟨hne, .inl rfl⟩
    rw [hone] at ht
    exact ht
  · exact runs_ref_stop _

theorem runs_create (h : Nodes pid false R ∅ s) (path : List UInt8) (type major minor : ℕ) :
    (refGuard pid).Runs (create path type major minor)
      (fun r t => Nodes pid false (r.toList ++ R) r.toList.toFinset t) s := by
  refine (runs_namex h _ _).bind fun r t ht => ?_
  cases r with
  | none => exact ht
  | some r =>
    obtain ⟨dp, name⟩ := r
    refine (runs_inodeLock_first dp ht).bind fun _ t ht => (runs_dirLookup ht dp name).bind fun r t ht => ?_
    cases r with
    | none => exact (runs_createNew ht name type major minor).bind fun ip t ht => by simpa using ht
    | some r =>
      obtain ⟨ip, off⟩ := r
      refine (runs_inodeUnlockput_last (ht.perm (.swap ..))).bind fun _ t ht => (runs_inodeLock_first ip ht).bind fun _ t ht => ?_
      refine runs_step ht trivial fun n t ht => ?_
      split_ifs
      · simpa using ht
      · exact (runs_inodeUnlockput_last ht).bind fun _ t ht => ht

theorem runs_openInode (h : Nodes pid gone (ip :: R) {ip} s) (omode : BitVec 32) :
    (refGuard pid).Runs (openInode omode ip) (fun _ t => Nodes pid gone R ∅ t) s := by
  have hop : (refGuard pid).Runs (Code.op (.openFd omode ip)) (fun r t => match r.2 with
      | .ok _ => Nodes pid gone R {ip} t
      | .error _ => r.1 = [] ∧ Nodes pid gone (ip :: R) {ip} t) s := by
    refine runs_ref trivial ?_
    show wp (onFiles fun s => s.sysOpen pid omode ip) _ _ s
    unfold onFiles
    rw [wp_bind, wp_get]
    split
    · rename_i u r ho
      obtain ⟨c, r⟩ := r
      obtain ⟨hfree, ⟨rfl, ⟨e, rfl⟩, hu⟩ | ⟨fd, f, rfl, hf, hu⟩⟩ := h.refs.free.sysOpen ho
      · exact ⟨rfl, h.move (h.refs.setFiles hu hfree) rfl rfl⟩
      · exact h.move (h.refs.giveFile hf hu hfree) rfl rfl
    · trivial
  refine hop.bind fun r t ht => ?_
  obtain ⟨cs, r⟩ := r
  cases r with
  | error e =>
    obtain ⟨rfl, ht⟩ := ht
    exact (runs_inodeUnlockput_last ht).bind fun _ t ht => ht
  | ok fd => exact (runs_inodeUnlock_last ht).bind fun _ t ht => ht

theorem runs_sysOpen (h : Nodes pid false R ∅ s) (path : List UInt8) (omode : BitVec 32) :
    (refGuard pid).Runs (sysOpen path omode) (fun _ t => Nodes pid false R ∅ t) s := by
  refine runs_step h trivial fun first t ht => ?_
  refine runs_plain_bind ht (by simp) fun _ t ht => ?_
  split_ifs
  · refine runs_plain_bind ht local_beginTrans fun _ t ht => (runs_create ht _ _ _ _).bind fun r t ht => ?_
    refine runs_plain_bind ht local_commitTrans fun _ t ht => ?_
    cases r with
    | none => exact ht
    | some ip => exact runs_openInode (by simpa using ht) omode
  · refine (runs_namei ht _).bind fun r t ht => ?_
    cases r with
    | none => exact ht
    | some ip =>
      refine (runs_inodeLock_first ip ht).bind fun _ t ht => runs_step ht trivial fun n t ht => ?_
      split_ifs
      · exact (runs_inodeUnlockput_last ht).bind fun _ t ht => ht
      · exact runs_openInode ht omode

theorem runs_sysMkdir (h : Nodes pid false R ∅ s) (path : List UInt8) :
    (refGuard pid).Runs (sysMkdir path) (fun _ t => Nodes pid false R ∅ t) s := by
  refine runs_plain_bind h local_beginTrans fun _ t ht => (runs_create ht _ _ _ _).bind fun r t ht => ?_
  cases r with
  | none => exact runs_plain_bind ht local_commitTrans fun _ t ht => ht
  | some ip =>
    exact (runs_inodeUnlockput_last (by simpa using ht)).bind fun _ t ht => runs_plain_bind ht local_commitTrans fun _ t ht => ht
theorem runs_sysChdir (h : Nodes pid false R ∅ s) (path : List UInt8) :
    (refGuard pid).Runs (sysChdir path) (fun _ t => Nodes pid false R ∅ t) s := by
  refine (runs_namei h _).bind fun r t ht => ?_
  cases r with
  | none => exact ht
  | some ip =>
    refine (runs_inodeLock_first ip ht).bind fun _ t ht => runs_step ht trivial fun n t ht => ?_
    split_ifs
    · exact (runs_inodeUnlockput_last ht).bind fun _ t ht => ht
    refine (runs_inodeUnlock_last ht).bind fun _ t ht => (runs_cwd (.inr rfl) ht).bind fun r t ht => ?_
    cases r with
    | none => exact runs_ref_stop _
    | some old =>
      have hgone : Nodes pid true (old :: ip :: R) ∅ t := ⟨ht.2.refs.takeCwd ht.1.symm, ht.2.self⟩
      refine (runs_inodePut hgone (by simp)).bind fun _ t ht => ?_
      exact (runs_setCwd ht (update_self ..)).bind fun _ u hu => hu.1

theorem runs_sysLs (h : Nodes pid false R ∅ s) :
    (refGuard pid).Runs sysLs (fun _ t => Nodes pid false R ∅ t) s := by
  refine (runs_getCwd h).bind fun dp t ht => (runs_inodeLock_first dp ht.1).bind fun _ t ht => ?_
  refine runs_step ht trivial fun n t ht => runs_plain_bind ht (local_lsLoop _ _ _) fun names t ht => ?_
  exact (runs_inodeUnlock_last ht).bind fun _ t ht => ht

theorem runs_exitLoop (fds : List (Fin NOFILE)) (h : Nodes pid gone R ∅ s) :
    (refGuard pid).Runs (exitLoop fds) (fun _ t => Nodes pid gone R ∅ t) s := by
  induction fds generalizing s with
  | nil => exact h
  | cons fd fds ih =>
    refine runs_step h trivial fun f t ht => ?_
    cases f with
    | none => exact ih ht
    | some f => exact (runs_fileClose ht f).bind fun _ t ht => runs_step ht trivial fun _ t ht => ih ht

theorem Nodes.spawn (h : Nodes pid false R L s) (elfId : ℕ) (quota : UInt32) (stdinFd stdoutFd : ℤ) :
    wp (spawn pid elfId quota stdinFd stdoutFd) (fun _ t => Nodes pid false R L t) (fun _ _ => True) s := by
  unfold Fs.spawn
  rw [wp_bind, wp_get]
  split
  · exact h
  rename_i hs
  obtain ⟨hn, hlt⟩ := child_lt_of_spawnError (h.refs.family.le_max _) hs
  have hchild := h.refs.family.child_notMem hn
  have hfamily := h.refs.family.split hn quota (.inl h.self)
  rw [← containerSplit_fst s.procs.container pid quota] at hchild hlt
  generalize containerSplit s.procs.container pid quota = r at hchild hlt hfamily
  set s1 : FS := { s with procs := { s.procs with container := r.2, spawned := r.1 :: s.procs.spawned } }
  have hnone : s.cwd r.1 = none := by
    by_contra hne
    exact hchild (h.refs.known r.1 hne)
  have hne : r.1 ≠ pid := by
    intro e
    rw [e] at hchild
    exact hchild h.self
  have h1 : Refs s.cwd R L s1 := by
    refine ⟨h.refs.count, h.refs.uniq, h.refs.busy, h.refs.locked, h.refs.free, hfamily, fun p hp => ?_,
      fun p hp => List.mem_cons_of_mem _ (h.refs.known p hp)⟩
    rcases List.mem_cons.mp hp with rfl | hp
    · exact hlt
    · exact h.refs.ids p hp
  -- the working directory of the child
  have hcwd : wp (spawnCwd pid r.1) (fun _ t => Refs t.cwd R L t ∧ pid ∈ t.procs.spawned) (fun _ _ => True) s1 := by
    have hself : pid ∈ s1.procs.spawned := List.mem_cons_of_mem _ h.self
    have hgive : ∀ {t : FS} {ip : InodePtr}, Refs t.cwd R L t → 0 < (t.inode ip).ref → t.cwd r.1 = none →
        t.procs = s1.procs → wp (do dupInode ip; setCwd r.1 ip)
          (fun _ t => Refs t.cwd R L t ∧ pid ∈ t.procs.spawned) (fun _ _ => True) t := by
      intro t ip ht hpos hc hp
      have hg := (ht.again hpos).giveCwd hc (show r.1 ∈ t.procs.spawned by rw [hp]; exact List.mem_cons_self)
      refine ⟨hg.setCwd _, ?_⟩
      show pid ∈ t.procs.spawned
      rw [hp]
      exact hself
    unfold spawnCwd
    rw [wp_bind, wp_get]
    split
    · rename_i ip hip
      exact hgive h1 (h1.pos_of_cwd hip) hnone rfl
    · rename_i hroot
      rw [wp_bind]
      refine wp_mono (h1.inodeGet ROOTINO) (fun ip t ht => ?_) fun _ _ he => he
      obtain ⟨ht, hc, hp⟩ := ht
      have hc' : t.cwd = s.cwd := hc
      rw [← hc'] at ht hnone hroot
      have hg := ht.giveCwd hroot (by rw [hp]; exact hself)
      refine hgive (hg.setCwd _) ((hg.setCwd _).pos_of_cwd (update_self ..)) ?_ hp
      exact (update_of_ne hne ..).trans hnone
  rw [wp_bind, wp_set, wp_bind]
  refine wp_mono hcwd (fun _ t ht => ?_) fun _ _ he => he
  rw [wp_bind]
  unfold onFiles
  rw [wp_bind, wp_get]
  split
  · rename_i u _ hu
    cases hf : t.procs.files.spawnFds pid r.1 stdinFd stdoutFd with
    | error e => simp [hf, bind, Except.bind] at hu
    | ok w =>
      simp only [hf, bind, Except.bind, Except.ok.injEq, Prod.mk.injEq] at hu
      obtain ⟨rfl, -⟩ := hu
      obtain ⟨hfree, hopen⟩ := ht.1.free.spawnFds hf
      exact ⟨ht.1.setFiles hopen hfree, ht.2⟩
  · trivial

theorem runs_call (h : Nodes pid false [] ∅ s) (call : FsCall) (hpwd : ∀ fuel, call ≠ .pwd fuel) :
    (refGuard pid).Runs call.code (fun _ t => Nodes pid false [] ∅ t) s := by
  have hcall : ∀ {α : Type} {c : Code FsOp α}, (∀ t, Nodes pid false [] ∅ t →
      (refGuard pid).Runs c (fun _ t => Nodes pid false [] ∅ t) t) →
      (refGuard pid).Runs (syscall c) (fun _ t => Nodes pid false [] ∅ t) s := fun hc =>
    runs_step h trivial fun _ t ht => (hc t ht).bind fun _ t ht => runs_plain (plain_op trivial) ht
  cases call with
  | «open» path omode => exact hcall fun t ht => runs_sysOpen ht path omode
  | close fd => exact hcall fun t ht => runs_sysClose ht fd
  | read fd userBuf n => exact hcall fun t ht => runs_sysRead ht fd userBuf n
  | write fd userBuf bs => exact hcall fun t ht => runs_sysWrite ht fd userBuf bs
  | mkdir path => exact hcall fun t ht => runs_sysMkdir ht path
  | chdir path => exact hcall fun t ht => runs_sysChdir ht path
  | link old new => exact hcall fun t ht => runs_sysLink ht old new
  | unlink path => exact hcall fun t ht => runs_sysUnlink ht path
  | ls => exact hcall fun t ht => runs_sysLs ht
  | pwd fuel => exact absurd rfl (hpwd fuel)
  | spawn elfId quota stdinFd stdoutFd => exact hcall fun t ht => runs_ref trivial (ht.spawn elfId quota stdinFd stdoutFd)
  | exit =>
    refine runs_step h trivial fun _ t ht => ?_
    exact (runs_exitLoop _ ht).bind fun _ t ht => runs_plain (plain_op trivial) ht
  | kill p => exact hcall fun t ht => runs_plain (plain_op trivial) ht
  | terminate => exact runs_plain (plain_op trivial) h

end Functions

/-! ### Runs -/

/-- A process begins a call that satisfies `P`. -/
def callStart (P : FsCall → Prop) (s : FS) (pid : ℕ) (c : Code FsOp PUnit) : Prop :=
  pid ∈ s.procs.spawned ∧ ∃ call : FsCall, P call ∧ c = call.code

/-- The call is not `sys_pwd`. -/
def FsCall.NotPwd (call : FsCall) : Prop := ∀ fuel, call ≠ .pwd fuel

/-- Calls of some processes, one after another, in which all operations pass `ok`. -/
def execCalls (ok : FS → ∀ β, FsOp β → Bool) : List (ℕ × FsCall) → FS → Option FS
  | [], s => some s
  | (pid, call) :: cs, s =>
    if pid ∈ s.procs.spawned then
      match call.code.exec (sem pid) ok s with
      | some (_, t) => execCalls ok cs t
      | none => none
    else none

theorem reach_execCalls {P : FsCall → Prop} {cond : FS → ∀ β, FsOp β → Prop} {ok : FS → ∀ β, FsOp β → Bool}
    (hok : ∀ s β o, ok s β o = true → cond s β o) {cs : List (ℕ × FsCall)} (hP : ∀ c ∈ cs, P c.2)
    (h : execCalls ok cs s = some t) (pid : ℕ) :
    ∃ p, ReflTransGen (Alone.Step sem cond (callStart P)) ⟨s, pid, .ret ⟨⟩⟩ ⟨t, p, .ret ⟨⟩⟩ := by
  induction cs generalizing s pid with
  | nil =>
    cases h
    exact ⟨pid, .refl⟩
  | cons c cs ih =>
    obtain ⟨q, call⟩ := c
    unfold execCalls at h
    split_ifs at h with hq
    split at h
    · rename_i u hu
      obtain ⟨p, hp⟩ := ih (fun c hc => hP c (List.mem_cons_of_mem _ hc)) h q
      exact ⟨p, .head (.start rfl ⟨hq, call, hP _ List.mem_cons_self, rfl⟩) ((Alone.reach_exec hok hu).trans hp)⟩
    · cases h

theorem refs_boot (d : Disk) (quota : UInt32) : Refs (FS.boot d quota).cwd [] ∅ (FS.boot d quota) := by
  have hinit : (Files.init : Files InodePtr).FreeOk := fun _ _ => rfl
  have hspawn : (Files.init : Files InodePtr).spawnFds 2 2 (-1) (-1) = .ok (Files.init.consoleInitFds 2) := rfl
  have hfiles := hinit.spawnFds hspawn
  have hnone : ∀ f, fileNode (FS.boot d quota).procs.files f = none := by
    intro f
    show (((Files.init : Files InodePtr).consoleInitFds 2).openNode f).map _ = none
    rw [hfiles.2]
    rfl
  have hprocs : (FS.boot d quota).procs.Inv := FileProcs.inv_boot quota
  refine ⟨fun ip => ?_, fun _ _ h => absurd h (by simp [FS.boot]), fun _ => by simp [FS.boot], nofun, hfiles.1,
    hprocs.family, hprocs.bound, fun _ hp => absurd rfl hp⟩
  have h1 : holders Finset.univ (fileNode (FS.boot d quota).procs.files) ip = 0 :=
    holders_eq_zero_iff.mpr fun f _ => by simp [hnone]
  have h2 : holders (Finset.range NUM_IDS) (FS.boot d quota).cwd ip = 0 := holders_eq_zero_iff.mpr fun _ _ => by simp [FS.boot]
  rw [refCount, h1, h2]
  rfl

theorem holders_fileNode {s : Files InodePtr} (h : s.FreeOk) (ip : InodePtr) : holders Finset.univ (fileNode s) ip =
    (Finset.univ.filter fun f => 0 < (s.file f).ref ∧ (s.file f).type = .inode ∧ (s.file f).ip = some ip).card := by
  unfold holders
  congr 1
  ext f
  rw [mem_filter, mem_filter, fileNode, Files.openNode]
  split_ifs with ht
  · have hpos : 0 < (s.file f).ref := Nat.pos_of_ne_zero fun e => by simp [h f e] at ht
    cases (s.file f).ip <;> simp [ht, hpos]
  · simp [ht]

open scoped Fs.Sizes in
def rootDisk : Disk := fun x =>
  if x = 1 then setFields (fun _ => 0) [(0, 4, 1024), (4, 4, 985), (8, 4, 200), (12, 4, 10)]
  else if x = 2 then putDinode (fun _ => 0) ROOTINO ⟨T_DIR, 0, 0, 1, 32, fun k => if k = 0 then 29 else 0⟩
  else if x = 28 then setFields (fun _ => 0) [(0, 4, 2 ^ 30 - 1)]
  else if x = 29 then putBytes (fun _ => 0) 0 (direntBytes ROOTINO dot ++ direntBytes ROOTINO dotdot)
  else fun _ => 0

end Fs

end MCertiKOS.FileSystem
