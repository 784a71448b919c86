import MCertiKOS.FileSystem.Links
import MCertiKOS.FileSystem.NodeRefs

/-!
# System calls that fail

`sys_pipe`, `sys_open` and `sys_link` take things before they know whether they
will succeed: file structures, a pipe, a descriptor, references to inodes, a
link. When they fail they give them back. `sys_open` does not remove a file that
it has created, however, when there is no descriptor for it.

Before that nothing is allocated on disk, so it does not matter how full the disk
is or what the bitmap looks like.
-/

namespace MCertiKOS.FileSystem

open Library Memory Thread Finset
open Function (update update_comm update_eq_self update_eq_self_iff update_idem)

/-! ### The file table -/

namespace Files

variable {ι : Type*} {s t : Files ι} {f : Fin NFILE} {k : Fin NPIPE} {w : Bool} {c : List (FileCall ι)}

theorem fileClose_end (href : (s.file f).ref = 1) (hend : (s.file f).IsEnd k w) :
    s.fileClose f = .ok ((s.setFile f { s.file f with ref := 0, type := .none }).setPipe k ((s.pipe k).close w).1,
      [.wakeup k ((s.pipe k).close w).2]) := by
  obtain ⟨htype, hpipe, hw⟩ := hend
  unfold fileClose
  simp only [href, htype, hpipe, hw, pipeClose, lt_irrefl, if_false, Nat.sub_self]
  rfl

/-- The tables are as before, but for what nothing uses. -/
structure Undone (s t : Files ι) : Prop where
  ref : ∀ g, (t.file g).ref = (s.file g).ref
  type : ∀ g, (t.file g).type = (s.file g).type
  inUse : ∀ k, (t.pipe k).ref = 0 ↔ (s.pipe k).ref = 0
  pipe : ∀ k, (s.pipe k).ref ≠ 0 → t.pipe k = s.pipe k
  openfiles : t.openfiles = s.openfiles

theorem Undone.refl (s : Files ι) : Undone s s := ⟨fun _ => rfl, fun _ => rfl, fun _ => Iff.rfl, fun _ _ => rfl, rfl⟩

/-- What `pipe_alloc` has made of `s`: nothing, or pipe `k` with the ends `rf` and `wf`. -/
def Piped (s t : Files ι) : Option (Fin NFILE × Fin NFILE) → Prop
  | none => t = s
  | some (rf, wf) => ∃ k, rf ≠ wf ∧ (s.file rf).ref = 0 ∧ (s.file wf).ref = 0 ∧ (s.pipe k).ref = 0 ∧
      t = ((((s.setFile rf { s.file rf with ref := 1 }).setFile wf { s.file wf with ref := 1 }).setPipe k (s.pipe k).opened).setEnds rf wf k)

theorem FreeOk.pipeAlloc {r : Option (Fin NFILE × Fin NFILE)} (h : FreeOk s) (hp : s.pipeAlloc = .ok (t, c, r)) : Piped s t r := by
  rcases h.pipeAlloc_eq with e | ⟨f₀, f₁, k, hne, h₀, h₁, hk, e⟩
  · cases e.symm.trans hp
    rfl
  · cases e.symm.trans hp
    exact ⟨k, hne, h₀, h₁, hk, rfl⟩

theorem Piped.close {s1 s2 : Files ι} {rf wf : Fin NFILE} {c0 : List (FileCall ι)} {r r' : Except Errno (Fin NOFILE × Fin NOFILE)}
    (hp : Piped s s1 (some (rf, wf))) (hfree : FreeOk s) (hfile : s2.file = s1.file) (hpipe : s2.pipe = s1.pipe)
    (hopen : s2.openfiles = s.openfiles)
    (hc : (do
      let (s3, c1) ← s2.fileClose rf
      let (s4, c2) ← s3.fileClose wf
      .ok (s4, c0 ++ (c1 ++ c2), r)) = .ok (t, c, r')) : Undone s t := by
  obtain ⟨k, hne, hfr, hfw, hk, rfl⟩ := hp
  have hrf : s2.file rf = { s.file rf with type := .pipe, ref := 1, readable := true, writable := false, pipe := some k } := by
    rw [hfile]
    simp [setEnds, setFile, setPipe, hne]
  have hwf : s2.file wf = { s.file wf with type := .pipe, ref := 1, readable := false, writable := true, pipe := some k } := by
    rw [hfile]
    simp [setEnds, setFile, setPipe, hne.symm]
  have hother : ∀ g, g ≠ rf → g ≠ wf → s2.file g = s.file g := fun g h0 h1 => by
    rw [hfile]
    simp [setEnds, setFile, setPipe, h0, h1]
  have hpipes : s2.pipe = update s.pipe k (s.pipe k).opened := hpipe
  rw [fileClose_end (by rw [hrf]) (k := k) (w := false) (by rw [hrf]; exact ⟨rfl, rfl, rfl⟩)] at hc
  simp only [bind, Except.bind] at hc
  have hwf' : ((s2.setFile rf { s2.file rf with ref := 0, type := .none }).setPipe k ((s2.pipe k).close false).1).file wf = s2.file wf := by
    simp [setFile, setPipe, hne.symm]
  rw [fileClose_end (by rw [hwf', hwf]) (k := k) (w := true) (by rw [hwf', hwf]; exact ⟨rfl, rfl, rfl⟩)] at hc
  obtain ⟨rfl, -⟩ := Prod.mk.inj (Except.ok.inj hc)
  refine ⟨fun g => ?_, fun g => ?_, fun k' => ?_, fun k' hk' => ?_, hopen⟩
  · by_cases h1 : g = wf
    · simp [setFile, setPipe, h1, hfw]
    · by_cases h0 : g = rf
      · simp [setFile, setPipe, h0, hne, hfr]
      · simp [setFile, setPipe, h0, h1, hother g h0 h1]
  · by_cases h1 : g = wf
    · simp [setFile, setPipe, h1, hfree wf hfw]
    · by_cases h0 : g = rf
      · simp [setFile, setPipe, h0, hne, hfree rf hfr]
      · simp [setFile, setPipe, h0, h1, hother g h0 h1]
  · by_cases h : k' = k
    · simp [setFile, setPipe, hpipes, h, hk, Pipe.close, Pipe.opened]
    · simp [setFile, setPipe, hpipes, h]
  · have h : k' ≠ k := by
      rintro rfl
      exact hk' hk
    simp [setFile, setPipe, hpipes, h]

variable {pid : ℕ} {e : Errno} {omode : BitVec 32} {ip : ι}

theorem FreeOk.sysPipe_error (h : FreeOk s) {addr : UInt32} (hp : s.sysPipe pid addr = .ok (t, c, .error e)) :
    Undone s t := by
  unfold sysPipe at hp
  split_ifs at hp
  · cases hp
    exact .refl s
  cases hpa : s.pipeAlloc with
  | error e => simp [hpa, bind, Except.bind] at hp
  | ok r =>
    obtain ⟨s1, c0, ends⟩ := r
    have hpiped := h.pipeAlloc hpa
    simp only [hpa, bind, Except.bind] at hp
    rcases ends with _ | ⟨rf, wf⟩
    · cases hp
      cases hpiped
      exact .refl s
    have hopen : s1.openfiles = s.openfiles := by
      obtain ⟨k, -, -, -, -, rfl⟩ := hpiped
      rfl
    cases hfd0 : s1.fdalloc pid rf with
    | none =>
      simp only [hfd0] at hp
      exact hpiped.close h rfl rfl hopen hp
    | some r =>
      obtain ⟨fd0, s2⟩ := r
      obtain ⟨hnone, rfl⟩ := fdalloc_eq hfd0
      simp only [hfd0] at hp
      cases hfd1 : (s1.setOpenfiles pid fd0 (some rf)).fdalloc pid wf with
      | none =>
        simp only [hfd1] at hp
        refine hpiped.close h (by rfl) (by rfl) ?_ hp
        simp only [setOpenfiles, update_idem]
        rw [update_eq_self_iff.mpr hnone.symm, hopen]
      | some r => simp [hfd1] at hp

theorem FreeOk.sysOpen_error (h : FreeOk s)
    (ho : s.sysOpen pid omode ip = .ok (t, c, .error e)) : t = s ∧ c = [] := by
  unfold Files.sysOpen at ho
  split at ho
  · cases ho
    exact ⟨rfl, rfl⟩
  · rename_i f s1 ha
    obtain ⟨href, rfl⟩ := fileAlloc_eq ha
    split at ho
    · rw [h.undo href] at ho
      cases ho
      exact ⟨rfl, rfl⟩
    · cases ho

theorem sysOpen_ok {r : Except Errno (Fin NOFILE)} (hf : ∃ f, (s.file f).ref = 0)
    (hfd : ∃ fd, s.openfiles (pid, fd) = none) (ho : s.sysOpen pid omode ip = .ok (t, c, r)) : ∃ fd, r = .ok fd := by
  obtain ⟨f, hf⟩ := hf
  obtain ⟨fd, hfd⟩ := hfd
  unfold sysOpen at ho
  split at ho
  · rename_i ha
    unfold fileAlloc at ha
    split at ha
    · rename_i hfind
      have := List.find?_eq_none.mp hfind f (List.mem_finRange f)
      simp [hf] at this
    · cases ha
  · rename_i f' s1 ha
    obtain ⟨-, rfl⟩ := fileAlloc_eq ha
    split at ho
    · rename_i hnone
      unfold fdalloc at hnone
      split at hnone
      · rename_i hfind
        have := List.find?_eq_none.mp hfind fd (List.mem_finRange fd)
        simp [setFile, hfd] at this
      · cases hnone
    · cases ho
      exact ⟨_, rfl⟩

end Files

namespace Fs

/-! ### Functions that leave the file table alone -/

def FsOp.KeepsProcs {β : Type} : FsOp β → Prop
  | .clearFd _ => False
  | .advance _ _ => False
  | .openFd _ _ => False
  | .fileClose _ => False
  | .spawn _ _ _ _ => False
  | .die => False
  | .kill _ => False
  | _ => True

instance : Allows fun _ o => o.KeepsProcs where
  of_local o h := by cases o <;> first | exact h.elim | exact trivial

variable {α β : Type} {pid : ℕ} {s t : FS}

theorem wp_keepsProcs {o : FsOp β} (h : o.KeepsProcs) : wp (sem pid β o) (fun _ t => t.procs = s.procs) (fun _ _ => True) s := by
  have hstore : ∀ {γ : Type} (m : StoreM γ), wp (onStore m) (fun _ t => t.procs = s.procs) (fun _ _ => True) s := fun m =>
    wp_onStore.mpr (wp_of_forall (fun _ _ => rfl) (fun _ _ => trivial) _)
  have hget : ∀ inum, wp (inodeGet inum) (fun _ t => t.procs = s.procs) (fun _ _ => True) s := fun inum => by
    unfold inodeGet
    rw [wp_bind, wp_get]
    split
    · rfl
    · split
      · rfl
      · trivial
  cases o with
  | bget | lget | valid | ideRw | markDirty | brelse | data | setData | copy | log | setPlace | getHead | putHead | clearN |
    logStart | logEnd | beginTrans | endTrans =>
    rw [sem]
    exact hstore _
  | igetRoot | igetEntry | igetNew => exact hget _
  | ilock ip =>
    show wp (lockInode ip) _ _ s
    unfold lockInode
    rw [wp_bind, wp_get]
    split_ifs <;> trivial
  | iunlock ip =>
    show wp (unlockInode ip) _ _ s
    unfold unlockInode
    rw [wp_bind, wp_get]
    split_ifs <;> trivial
  | iput ip =>
    show wp (putInode ip) _ _ s
    unfold putInode
    rw [wp_bind, wp_get]
    split_ifs <;> trivial
  | stop e => exact trivial
  | clearFd | advance | openFd | fileClose | spawn | die | kill => exact h.elim
  | _ => exact rfl

/-- All operations of the program leave the files and the processes alone. -/
abbrev ProcsCode (c : Code FsOp α) : Prop := c.All fun _ o => o.KeepsProcs

theorem runs_procs {c : Code FsOp α} (hc : ProcsCode c) (s : FS) : (anyGuard pid).Runs c (fun _ t => t.procs = s.procs) s :=
  Guard.runs_all (R := fun s t : FS => t.procs = s.procs) (fun _ => rfl) (fun h h' => h'.trans h)
    (fun _ _ ho _ _ => ⟨trivial, wp_keepsProcs ho⟩) hc s

theorem procs_op {o : FsOp α} (h : o.KeepsProcs) : ProcsCode (Code.op o) := all_op.mpr h

attribute [local simp] FsOp.Local.eq_def FsOp.Plain.eq_def
attribute [local simp high] local_op

@[simp] theorem procs_inodeLock (ip : InodePtr) : ProcsCode (inodeLock ip) :=
  all_bind (procs_op trivial) fun _ => by simp

@[simp] theorem procs_inodeUnlock (ip : InodePtr) : ProcsCode (inodeUnlock ip) := procs_op trivial

@[simp] theorem procs_inodePut (ip : InodePtr) : ProcsCode (inodePut ip) :=
  all_bind (procs_op trivial) fun _ => by simp [procs_op (o := .ifreed ip) trivial]

@[simp] theorem procs_inodeUnlockput (ip : InodePtr) : ProcsCode (inodeUnlockput ip) := by simp [inodeUnlockput]

@[simp] theorem procs_inodeAlloc (type : ℕ) : ProcsCode (inodeAlloc type) := by
  have hget : ∀ inum, ProcsCode (Code.op (.igetNew inum)) := fun _ => procs_op trivial
  have hloop : ∀ n inum, ProcsCode (inodeAllocLoop type n inum) := by
    intro n
    induction n <;> simp [inodeAllocLoop, *]
  simp [inodeAlloc, hloop]

@[simp] theorem procs_dirLookup (dp : InodePtr) (name : List UInt8) : ProcsCode (dirLookup dp name) := by
  refine all_bind (by simp) fun n => all_ite_iff.mpr ⟨by simp, fun _ => all_bind (by simp) fun r => ?_⟩
  cases r with
  | none => simp
  | some r => exact all_bind (procs_op trivial) fun _ => by simp

@[simp] theorem procs_dirLink (dp : InodePtr) (name : List UInt8) (inum : ℕ) : ProcsCode (dirLink dp name inum) := by
  refine all_bind (procs_dirLookup dp name) fun r => ?_
  cases r <;> simp

theorem procs_createNew (dp : InodePtr) (name : List UInt8) (type major minor : ℕ) : ProcsCode (createNew dp name type major minor) := by
  refine all_bind (by simp) fun ip => all_bind (by simp) fun _ => all_bind (by simp) fun n => ?_
  exact all_bind (by simp) fun _ => all_bind (by simp) fun _ => all_bind (by simp) fun _ => by simp

/-! ### `sys_open` -/

variable {lim i j : ℕ} {sb : Superblock} {X : Finset ℕ} {u : Bool} {K : Finset ℕ} {D : Disk} {s₀ : FS} {L : List (InodePtr × ℕ)}
  {B : Finset InodePtr} {ip dp : InodePtr} {n : Node}

theorem runs_openFd (omode : BitVec 32) (ip : InodePtr) (t : FS) :
    (anyGuard pid).Runs (Code.op (.openFd omode ip)) (fun r t' => ∃ v, t.procs.files.sysOpen pid omode ip = .ok (v, r.1, r.2) ∧
      t' = { t with procs := { t.procs with files := v } }) t := by
  refine fun _ => ⟨trivial, ?_⟩
  show wp (onFiles fun s => s.sysOpen pid omode ip) _ _ t
  rw [wp_onFiles]
  split
  · rename_i v r ho
    exact ⟨v, ho, rfl⟩
  · trivial

theorem Doing.runs_openInode (h : Doing (reading lim) sb X u K D s₀ [(ip, i)] (insert ip ∅) t) (hfree : s₀.procs.files.FreeOk)
    (hkeep : (dinodeAt D i).nlink ≠ 0 ∨ Has s₀ [] ip i) (omode : BitVec 32) : (anyGuard pid).Runs (openInode omode ip)
      (fun r t => ∀ e, r = .error e → Doing (reading lim) sb X u K D s₀ [] ∅ t) t := by
  refine (runs_openFd omode ip t).bind ?_
  rintro ⟨cs, r⟩ _ ⟨v, ho, rfl⟩
  cases r with
  | error e =>
    rw [h.procs] at ho
    obtain ⟨rfl, rfl⟩ := hfree.sysOpen_error ho
    rw [← h.procs]
    exact (runs_any_of_reading (h.runs_giveBack (notMem_empty ip) hkeep)).bind fun _ t h _ _ => h
  | ok fd => exact (runs_any _ _).bind fun _ t _ => nofun

theorem runs_openInode_ok (hf : ∃ f, (t.procs.files.file f).ref = 0) (hfd : ∃ fd, t.procs.files.openfiles (pid, fd) = none)
    (omode : BitVec 32) (ip : InodePtr) : (anyGuard pid).Runs (openInode omode ip) (fun r _ => ∀ e, r ≠ .error e) t := by
  refine (runs_openFd omode ip t).bind ?_
  rintro ⟨cs, r⟩ _ ⟨v, ho, rfl⟩
  obtain ⟨fd, rfl⟩ := Files.sysOpen_ok hf hfd ho
  exact (runs_any _ _).bind fun _ t _ => nofun

variable {path : List UInt8} {total : Prop}

theorem Doing.runs_create (h : Doing (reading lim) sb X u K D s [] ∅ t) (hl : Linked False sb D s)
    (hcwd : path.head? ≠ some slash → Cwd False sb D s pid i) : (anyGuard pid).Runs (create path T_FILE 0 0) (fun r t => match r with
      | none => Doing (reading lim) sb X u K D s [] ∅ t
      | some ip => (∃ j, ((dinodeAt D j).nlink ≠ 0 ∨ Has s [] ip j) ∧ Doing (reading lim) sb X u K D s [(ip, j)] (insert ip ∅) t) ∨
          t.procs = s.procs ∧ ∃ j name, walkParent (tree sb D none) (startAt i path) (components path) = some (j, name) ∧
            stepTo (tree sb D none) j name = none) t := by
  have hnone : ∀ ip : InodePtr, ip ∉ (∅ : Finset InodePtr) := notMem_empty
  unfold create nameiparent
  refine (runs_any_of_reading (h.runs_namex hl true path hcwd False.elim)).bind fun r t hr => ?_
  rw [walkTo, if_pos rfl] at hr
  cases hw : walkParent (tree sb D none) (startAt i path) (components path) with
  | none =>
    rw [hw] at hr
    obtain ⟨rfl, h⟩ := hr
    exact h
  | some p =>
    obtain ⟨k, name⟩ := p
    rw [hw] at hr
    obtain ⟨dp, rfl, h⟩ := hr
    obtain ⟨hkeep, m, hm⟩ := hl.parent (hl.start fun hp => (hcwd hp).kept) hw
    obtain ⟨hmk, hdir⟩ := dirAt_some hm
    have hdp : Has s [(dp, k)] dp k := .inl (List.mem_singleton_self _)
    have hk : (dinodeAt D k).nlink ≠ 0 ∨ Has s [] dp k := hkeep.keep.imp_right h.has_of_used
    refine (runs_any_of_reading (h.runs_inodeLock hdp hkeep.lt False.elim False.elim)).bind ?_
    rintro _ t ⟨-, h⟩
    refine (runs_any_of_reading (h.runs_dirLookup name hdp (mem_insert_self ..) hmk (hl.whole k m hmk hdir) False.elim)).bind
      fun r t hr => ?_
    have hstep : stepTo (tree sb D none) k name = (m.lookup name).map Prod.fst := by
      rw [stepTo, hm]
      rfl
    cases hf : m.lookup name with
    | none =>
      rw [hf] at hr hstep
      obtain ⟨rfl, h⟩ := hr
      refine (runs_procs (procs_createNew dp name T_FILE 0 0) t).bind fun ip t' ht => ?_
      exact .inr ⟨ht.trans h.procs, k, name, rfl, hstep⟩
    | some p =>
      obtain ⟨j, x⟩ := p
      rw [hf] at hr
      obtain ⟨ip, rfl, -, h⟩ := hr
      refine (runs_any_of_reading (h.runs_inodeUnlockput (List.mem_cons_of_mem _ List.mem_cons_self) (mem_insert_self ..) ?_)).bind
        fun _ t h => ?_
      · rw [erase_second]
        exact hk.imp_right fun hk => hk.cons _
      rw [erase_second, erase_insert (hnone dp)] at h
      obtain ⟨hj, -, hjkeep⟩ := hl.target k m name j x hm hf
      have hip : Has s [(ip, j)] ip j := .inl (List.mem_singleton_self _)
      have hjk : (dinodeAt D j).nlink ≠ 0 ∨ Has s [] ip j := hjkeep.imp_right h.has_of_used
      refine (runs_any_of_reading (h.runs_inodeLock hip hj False.elim False.elim)).bind ?_
      rintro _ t ⟨-, h⟩
      refine (runs_any_of_reading (h.runs_fields hip (mem_insert_self ..))).bind ?_
      rintro v t ⟨-, h⟩
      split_ifs
      · exact .inl ⟨j, hjk, h⟩
      · exact (runs_any_of_reading (h.runs_giveBack (hnone ip) hjk)).bind fun _ t h => h

theorem Linked.congr (hl : Linked total sb D s) (hi : t.inode = s.inode) : Linked total sb D t :=
  ⟨hl.whole, fun i n name j k hn hf => by rw [hi]; exact hl.target i n name j k hn hf, hl.root⟩

theorem Cwd.congr (hc : Cwd total sb D s pid i) (hi : t.inode = s.inode) (he : t.cwd = s.cwd) : Cwd total sb D t pid i :=
  ⟨by rw [hi, he]; exact hc.entry, hc.lt, hc.used⟩

theorem Doing.runs_first (h : Doing (reading lim) sb X false K D s [] ∅ s)
    (hlog : s.first = true → 1 < lim ∧ (getSuperblock (D 1)).size - (getSuperblock (D 1)).nlog = lim) :
    (anyGuard pid).Runs (do
      (if ← Code.op .first then logInit else pure ⟨⟩ : Code FsOp PUnit)) (fun _ t => ∃ K',
        (t.inode = s.inode ∧ t.procs = s.procs ∧ t.cwd = s.cwd) ∧ Doing (reading lim) sb X false K' D t [] ∅ t) s := by
  have hfirst : (anyGuard pid).Runs (Code.op .first) (fun r t => r = s.first ∧ t = { s with first := false }) s :=
    fun _ => ⟨trivial, rfl, rfl⟩
  refine hfirst.bind ?_
  rintro _ _ ⟨rfl, rfl⟩
  have h' : Doing (reading lim) sb X false K D { s with first := false } [] ∅ { s with first := false } :=
    ⟨h.shows, rfl, h.lays, h.cached, rfl, rfl, rfl, rfl⟩
  by_cases hf : s.first = true
  · rw [if_pos hf]
    obtain ⟨h1, hsb⟩ := hlog hf
    refine (runs_any_of_reading (runs_logInit h'.sees h1 hsb)).mono fun _ t ⟨hrest, _, hshows⟩ => ?_
    have hc : Cached sb D t.inode [] ∅ t.inode := by
      rw [hrest.inode]
      exact h.cached
    exact ⟨∅, ⟨hrest.inode, hrest.procs, hrest.cwd⟩, hshows, rfl, h.lays, hc, rfl, rfl, rfl, rfl⟩
  · rw [if_neg hf]
    exact ⟨K, ⟨rfl, rfl, rfl⟩, h'⟩

theorem Doing.runs_sysOpen (h : Doing (reading lim) sb X false K D s [] ∅ s) (hl : Linked False sb D s)
    (hcwd : (userPath path).head? ≠ some slash → Cwd False sb D s pid i) (hfree : s.procs.files.FreeOk)
    (hlog : s.first = true → 1 < lim ∧ (getSuperblock (D 1)).size - (getSuperblock (D 1)).nlog = lim) (omode : BitVec 32)
    (hroom : omode.getLsbD 9 = true → ∀ j name,
      walkParent (tree sb D none) (startAt i (userPath path)) (components (userPath path)) = some (j, name) →
      stepTo (tree sb D none) j name = none →
      (∃ f, (s.procs.files.file f).ref = 0) ∧ ∃ fd, s.procs.files.openfiles (pid, fd) = none) :
    (anyGuard pid).Runs (sysOpen path omode) (fun r t => ∀ e, r = .error e → ∃ s' K', (s'.inode = s.inode ∧ s'.procs = s.procs) ∧
      Doing (reading lim) sb X false K' D s' [] ∅ t) s := by
  unfold sysOpen
  refine Guard.runs_bind.mpr ((Guard.runs_bind.mp (h.runs_first hlog)).mono fun b t hb => hb.bind fun _ t ⟨K, ⟨hi, hp, hc⟩, h⟩ => ?_)
  replace hl := hl.congr hi
  replace hcwd := fun hh => (hcwd hh).congr hi hc
  rw [← hp] at hfree hroom
  split_ifs with hcreate
  · refine (runs_any_of_reading (h.runs_begin False.elim)).bind fun _ t1 h1 => ?_
    refine (h1.runs_create hl hcwd).bind fun r t1 hr => ?_
    cases r with
    | none => exact (runs_any_of_reading hr.runs_commit).bind fun _ t1 h1 _ _ => ⟨t, ∅, ⟨hi, hp⟩, h1⟩
    | some ip =>
      rcases hr with ⟨j, hkeep, h1⟩ | ⟨hprocs, j, name, hw, hstep⟩
      · refine (runs_any_of_reading h1.runs_commit).bind fun _ t1 h1 => ?_
        exact (h1.runs_openInode hfree hkeep omode).mono fun r t1 ht e he => ⟨t, ∅, ⟨hi, hp⟩, ht e he⟩
      · -- the name is new: there will be a descriptor for it
        obtain ⟨hf, hfd⟩ := hroom hcreate j name hw hstep
        refine (runs_procs local_commitTrans t1).bind fun _ t2 ht => ?_
        rw [← hprocs, ← ht] at hf hfd
        exact (runs_openInode_ok hf hfd omode ip).mono fun r _ hr e he => absurd he (hr e)
  · refine (runs_any_of_reading (h.runs_namei hl (userPath path) hcwd False.elim)).bind fun r t1 hr => ?_
    cases hw : walk (tree sb D none) (startAt i (userPath path)) (components (userPath path)) with
    | none =>
      rw [hw] at hr
      obtain ⟨rfl, h1⟩ := hr
      exact fun _ _ => ⟨t, K, ⟨hi, hp⟩, h1⟩
    | some j =>
      rw [hw] at hr
      obtain ⟨ip, rfl, h1⟩ := hr
      have hkeep := hl.walk (hl.start fun hh => (hcwd hh).kept) hw
      have hk : (dinodeAt D j).nlink ≠ 0 ∨ Has t [] ip j := hkeep.keep.imp_right h1.has_of_used
      have hip : Has t [(ip, j)] ip j := .inl (List.mem_singleton_self _)
      refine (runs_any_of_reading (h1.runs_inodeLock hip hkeep.lt False.elim False.elim)).bind fun _ t1 ⟨_, h1⟩ => ?_
      refine (runs_any_of_reading (h1.runs_fields hip (mem_insert_self ..))).bind fun v t1 ⟨_, h1⟩ => ?_
      split_ifs
      · exact (runs_any_of_reading (h1.runs_giveBack (notMem_empty ip) hk)).bind fun _ t1 h1 _ _ => ⟨t, K, ⟨hi, hp⟩, h1⟩
      · exact (h1.runs_openInode hfree hk omode).mono fun r t1 ht e he => ⟨t, K, ⟨hi, hp⟩, ht e he⟩

theorem Doing.toReading (h : Doing (full lim) sb X u K D s₀ L B t) : Doing (reading lim) sb X u K D s₀ L B t :=
  ⟨⟨h.shows.steady, h.shows.home, h.shows.busy, h.shows.head, False.elim, False.elim, False.elim⟩, h.size, h.lays, h.cached, h.procs, h.cwd,
    h.first, h.dead⟩

theorem Doing.unchanged (h : Doing (reading lim) sb X u K D s₀ [] B t) (hi : s₀.inode = s.inode) (ip : InodePtr) :
    (t.inode ip).ref = (s.inode ip).ref := by
  rw [h.cached.refs, hi]
  exact add_zero _

theorem eq_ok_of_toOption {ε α : Type*} {x : Except ε α} {a : α} (h : x.toOption = some a) : x = .ok a := by
  cases x with
  | error e => cases h
  | ok b => rw [Option.some.inj h]

open scoped FileSystem.Sizes in
def allFds : FS :=
  { smallCwd vacant with procs := { (smallCwd vacant).procs with files := { (smallCwd vacant).procs.files with openfiles := fun _ => some 0 } } }

/-- `sys_link` of a process that has a working directory, in a consistent state. If it returns an error then the inodes, the
contents of directories and files, and the numbers of references are as before. And so it is with the tables of `sys_pipe`, if
structures that are free stand for nothing. -/
theorem link_pipe_error (pid : ℕ) (s : FS) :
    (∀ {lim i : ℕ} {sb : Superblock} {X K : Finset ℕ} {D : Disk}, Doing (reading lim) sb X false K D s [] ∅ s → Linked False sb D s →
      dirAt (tree sb D none) ROOTINO ≠ none → Cwd False sb D s pid i → ∀ old new e t,
      ((sysLink old new).run (sem pid)).run s = (.ok e, t) → e ≠ .succ →
      SameNodes sb (s.store.home lim) (t.store.home lim) ∧ ∀ ip, (t.inode ip).ref = (s.inode ip).ref) ∧
    (s.procs.files.FreeOk → ∀ addr v c e, s.procs.files.sysPipe pid addr = .ok (v, c, .error e) → Files.Undone s.procs.files v) := by
  refine ⟨fun h hl hroot hcwd old new e t hrun he => ?_, fun hfree addr v c e hp => hfree.sysPipe_error hp⟩
  obtain ⟨K', D', hsame, h'⟩ := run_any (h.runs_sysLink hl hroot hcwd old new) hrun he
  have hhome : s.store.home _ = _ := h.shows.home
  have hhome' : t.store.home _ = _ := h'.shows.home
  exact ⟨hhome ▸ hhome' ▸ hsame, h'.unchanged rfl⟩

open scoped FileSystem.Sizes in
def oneFd : FS :=
  { smallCwd vacant with procs := { (smallCwd vacant).procs with files :=
    { (smallCwd vacant).procs.files with openfiles := fun x => if x.2 = 7 then none else some 0 } } }

theorem link_pipe_error_small :
    (∃ t, ((sysLink [102] [102]).run (sem 2)).run (smallCwd vacant) = (.ok .diskOp, t) ∧
      SameNodes mkfsSb ((smallCwd vacant).store.home 1014) (t.store.home 1014)) ∧
    ∃ v c, oneFd.procs.files.sysPipe 2 0x40000000 = .ok (v, c, .error .badf) ∧ Files.Undone oneFd.procs.files v := by
  constructor
  · have hm : (((sysLink [102] [102]).run (sem 2)).run (smallCwd vacant)).1.toOption = some .diskOp := by decide +kernel
    generalize hr : ((sysLink [102] [102]).run (sem 2)).run (smallCwd vacant) = r at hm
    obtain ⟨r, t⟩ := r
    obtain rfl := eq_ok_of_toOption hm
    exact ⟨t, rfl, ((link_pipe_error 2 (smallCwd vacant)).1 doing_smallCwd_vacant.toReading (linked_smallDisk False _)
      (by rw [dirAt_of_type tree_smallRoot rfl]; exact Option.some_ne_none _) (cwd_smallCwd False vacant 2) _ _ _ _ hr (by decide)).1⟩
  · have hm : (oneFd.procs.files.sysPipe 2 0x40000000).toOption.map (fun r => r.2.2) = some (.error .badf) := by decide +kernel
    obtain ⟨⟨v, c, e⟩, hr, rfl⟩ := Option.map_eq_some_iff.mp hm
    have hr := eq_ok_of_toOption hr
    exact ⟨v, c, hr, (link_pipe_error 2 oneFd).2 (refs_boot smallDisk 300000).free _ _ _ _ hr⟩

open scoped FileSystem.Sizes in
/-- A structure that is free is still of the type of a pipe, and all pipes are in use. -/
def stale : Files InodePtr :=
  ⟨fun _ => ⟨.pipe, 0, true, false, some 0, none, 0⟩, fun _ => ⟨2, fun _ => 0, 0, 0, true, true⟩, fun _ => none⟩

/-- There is no pipe left. `sys_pipe` closes an end of one that is in use. -/
theorem pipe_error_stale :
    ∃ v c, stale.sysPipe 2 0x40000000 = .ok (v, c, .error .badf) ∧ (stale.pipe 0).ref ≠ 0 ∧ (v.pipe 0).readopen ≠ (stale.pipe 0).readopen :=
  ⟨_, _, rfl, by decide, by decide⟩

end Fs

end MCertiKOS.FileSystem
