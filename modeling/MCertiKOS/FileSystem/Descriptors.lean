import MCertiKOS.FileSystem.FileRefs
import MCertiKOS.FileSystem.Syscall

/-!
# Descriptors as arguments

How `sys_read`, `sys_write`, `sys_close` and `sys_fstat` of `kern/fs/sysfile.c` and `sys_is_dir` of
`kern/trap/TSyscall/TSyscall.c` get from a number to a file structure, and what `file_read`, `file_write`,
`file_close` and `file_stat` make of its type. The number is any 32 bits; the accesses to `openfiles` are recorded,
and outside of the table there is other memory.

File structures are used again without being cleared, so between calls a structure in use must be shown to be of a
kind for which its flags were set (`Suits`). `sys_is_dir` looks at the inode of a structure of any kind.
-/

namespace MCertiKOS.FileSystem

open Library Memory Thread Relation Files

variable {ι : Type*}

/-! ### From a number to a file -/

deriving instance DecidableEq for FilePanic

/-- What comes of a call with a descriptor. -/
inductive FdOut (α : Type*) where
  /-- The call returns `-1` and an error number. -/
  | refused (e : Errno)
  /-- `file_read` or `file_write` returns `-1`. -/
  | failed
  /-- The call goes on. -/
  | served (a : α)
  /-- `KERN_PANIC`. -/
  | panics (e : FilePanic)
  deriving DecidableEq

/-- The accesses to `openfiles`, and what comes of the call. -/
structure FdRun (α : Type*) where
  index : List ℤ
  out : FdOut α

namespace Files

variable (s : Files ι) (pid : ℕ) (beyond : ℤ → Option (Fin NFILE))

open scoped FileSystem.Sizes in
/-- `tcb_get_openfiles(pid)[i]`; outside of the table it is what is there in memory. -/
def openfilesAt (i : ℤ) : Option (Fin NFILE) :=
  if 0 ≤ i ∧ i < NOFILE then s.openfiles (pid, Fin.ofNat NOFILE i.toNat) else beyond i

/-- The structure at index `i`; `E_BADF` if there is none. -/
def atFd {α : Type*} (i : ℤ) (k : Fin NFILE → FdOut α) : FdRun α :=
  ⟨[i], match s.openfilesAt pid beyond i with
    | none => .refused .badf
    | some f => k f⟩

/-- `file_read`, up to the reading. -/
def fileReadOut (f : Fin NFILE) : FdOut (Fin NFILE) :=
  if (s.file f).readable = false then .failed
  else match (s.file f).type with
    | .pipe => .served f
    | .consoleIn => .served f
    | .inode => .served f
    | .none => .panics .fileRead
    | .consoleOut => .panics .fileRead

/-- `file_write`, up to the writing. -/
def fileWriteOut (f : Fin NFILE) : FdOut (Fin NFILE) :=
  if (s.file f).writable = false then .failed
  else match (s.file f).type with
    | .pipe => .served f
    | .consoleOut => .served f
    | .inode => .served f
    | .none => .panics .fileWrite
    | .consoleIn => .panics .fileWrite

/-- The part common to `sys_read` and `sys_write`. The descriptor is signed. -/
def rwFd (fd : BitVec 32) (userBuf n : UInt32) (k : Fin NFILE → FdOut (Fin NFILE)) : FdRun (Fin NFILE) :=
  if fd.toInt < 0 ∨ NOFILE ≤ fd.toInt then ⟨[], .refused .badf⟩
  else if Fs.badBuffer userBuf n then ⟨[], .refused .invalAddr⟩
  else s.atFd pid beyond fd.toInt fun f => if (s.file f).type = .inode ∧ (s.file f).ip = none then .refused .badf else k f

/-- `sys_read`. -/
def readFd (fd : BitVec 32) (userBuf n : UInt32) : FdRun (Fin NFILE) := s.rwFd pid beyond fd userBuf n s.fileReadOut

/-- `sys_write`. -/
def writeFd (fd : BitVec 32) (userBuf n : UInt32) : FdRun (Fin NFILE) := s.rwFd pid beyond fd userBuf n s.fileWriteOut

/-- `sys_close`. The descriptor is unsigned; the table is read, and stored in after `file_close`. -/
def closeFdNo (fd : BitVec 32) : FdRun (Fin NFILE) :=
  if NOFILE ≤ fd.toNat then ⟨[], .refused .badf⟩
  else
    let r := s.atFd pid beyond fd.toNat fun f => if (s.file f).ref < 1 then .panics .fileClose else .served f
    match r.out with
    | .served f => ⟨r.index ++ [(fd.toNat : ℤ)], .served f⟩
    | out => ⟨r.index, out⟩

/-- `sys_fstat`. The descriptor is signed, and `struct file_stat` has 20 bytes. -/
def fstatFd (fd : BitVec 32) (userSt : UInt32) : FdRun (Fin NFILE) :=
  if fd.toInt < 0 ∨ NOFILE ≤ fd.toInt ∨ userSt < VM_USERLO ∨ VM_USERHI < userSt + 20 then ⟨[], .refused .badf⟩
  else s.atFd pid beyond fd.toInt fun f => if (s.file f).type = .inode then .served f else .refused .badf

/-- `sys_is_dir`, if `type` is what the inode cache has for `ip->type`. There is no check of the descriptor. -/
def isDirFd (type : ι → ℕ) (fd : BitVec 32) : FdRun Bool :=
  s.atFd pid beyond fd.toInt fun f =>
    match (s.file f).ip with
    | none => .refused .badf
    | some ip => .served (type ip = Fs.T_DIR)

end Files

/-! ### Kinds of structures -/

/-- What holds of a structure in use, between system calls. -/
structure File.Suits (v : File ι) : Prop where
  type : v.type ≠ .none
  consoleOut : v.type = .consoleOut → v.readable = false
  consoleIn : v.type = .consoleIn → v.writable = false

def Kinded (s : Files ι) : Prop := ∀ f, 0 < (s.file f).ref → (s.file f).Suits

theorem File.Suits.setRef {v : File ι} (h : v.Suits) (n : ℕ) : ({ v with ref := n } : File ι).Suits := ⟨h.type, h.consoleOut, h.consoleIn⟩

namespace Kinded

variable {s t : Files ι} {f : Fin NFILE} {pid : ℕ} {c : List (FileCall ι)}

variable {v : File ι} {type : FdType} {r w : Bool} {curid : ℕ} {fd : Fin NOFILE}

section

variable (h : Kinded s)
include h

theorem setFile (hv : 0 < v.ref → v.Suits) : Kinded (s.setFile f v) := by
  intro g hg
  rw [setFile_file] at hg ⊢
  split_ifs at hg ⊢ with e
  · exact hv hg
  · exact h g hg

theorem of_quiet (hs : Held s 0) (ht : Held t 0) (hq : Quiet s t c)
    (hnew : ∀ x f, t.openfiles x = some f → s.openfiles x = some f ∨ (t.file f).Suits) : Kinded t := by
  intro f hf
  by_cases hold : 0 < (s.file f).ref
  · rw [hq.file f hold hf]
    exact (h f hold).setRef _
  · have hpos := hf
    rw [ht.count, Pi.zero_apply, Nat.add_zero, holders_pos_iff] at hpos
    obtain ⟨x, hx, hfd⟩ := hpos
    rcases hnew x f hfd with hs' | hsuits
    · exact absurd (hs.ref_pos (mem_slots.mp hx) hs') hold
    · exact hsuits

theorem alloc (ha : s.fileAlloc = some (f, t)) (hv : v.Suits) : Kinded (t.setFile f v) := by
  unfold fileAlloc at ha
  split at ha
  · cases ha
  · cases ha
    intro g hg
    simp only [setFile_file] at hg ⊢
    split_ifs at hg ⊢ with e
    · exact hv
    · exact h g hg

theorem consoleFd (pid : ℕ) (fd : Fin NOFILE)
    (hsuits : ∀ v : File ι, ({ v with type := type, readable := r, writable := w, ref := 1 } : File ι).Suits) :
    Kinded (s.consoleFd pid fd type r w) := by
  unfold Files.consoleFd
  split
  · exact h
  · rename_i f s1 ha
    exact h.alloc ha (hsuits _)

theorem consoleIn (pid : ℕ) (fd : Fin NOFILE) : Kinded (s.consoleFd pid fd .consoleIn true false) :=
  h.consoleFd pid fd fun _ => ⟨nofun, nofun, fun _ => rfl⟩

theorem consoleOut (pid : ℕ) (fd : Fin NOFILE) : Kinded (s.consoleFd pid fd .consoleOut false true) :=
  h.consoleFd pid fd fun _ => ⟨nofun, fun _ => rfl, nofun⟩

theorem consoleInitFds (pid : ℕ) : Kinded (s.consoleInitFds pid) := ((h.consoleIn pid 0).consoleOut pid 1).consoleOut pid 2

theorem inheritFd {src : ℤ}
    (hcon : Kinded (s.consoleFd pid fd type r w)) (hi : s.inheritFd curid pid fd src type r w = .ok t) : Kinded t := by
  unfold Files.inheritFd at hi
  split at hi
  · rename_i f _
    unfold fileDup at hi
    split_ifs at hi with href
    · cases hi
    · cases hi
      exact h.setFile fun _ => (h f (by omega)).setRef _
  · split_ifs at hi
    · cases hi
      exact hcon
    · cases hi
      exact h

theorem spawnFds {stdinFd stdoutFd : ℤ} (hs : s.spawnFds curid pid stdinFd stdoutFd = .ok t) : Kinded t := by
  unfold Files.spawnFds at hs
  split_ifs at hs
  · cases hs
    exact h.consoleInitFds pid
  · cases h1 : s.inheritFd curid pid 0 stdinFd .consoleIn true false with
    | error e =>
      rw [h1] at hs
      cases hs
    | ok s1 =>
      rw [h1] at hs
      have hk := h.inheritFd (h.consoleIn pid 0) h1
      exact hk.inheritFd (hk.consoleOut pid 1) hs

theorem closeFd (hs : Held s 0) (hp : pid < NUM_IDS) (hc : s.closeFd pid fd = .ok (t, c)) :
    Kinded t ∧ Held t 0 := by
  obtain ⟨t', c', he, ht, ho, hq⟩ := closeFd_spec hs hp fd
  rw [hc] at he
  cases he
  refine ⟨h.of_quiet hs ht hq fun x f hx => .inl ?_, ht⟩
  rw [ho, Function.update_apply] at hx
  split_ifs at hx
  exact hx

end

theorem closeFds (h : Kinded s) (hs : Held s 0) (hp : pid < NUM_IDS) {fds : List (Fin NOFILE)}
    (hc : s.closeFds pid fds = .ok (t, c)) : Kinded t := by
  induction fds generalizing s c with
  | nil =>
    cases hc
    exact h
  | cons fd fds ih =>
    obtain ⟨s1, c1, he, -⟩ := closeFd_spec hs hp fd
    obtain ⟨h1, hs1⟩ := h.closeFd hs hp he
    obtain ⟨s2, c2, he2, -⟩ := closeFds_spec hs1 hp fds
    simp only [closeFds, he, he2, bind, Except.bind] at hc
    cases hc
    exact ih h1 hs1 he2

end Kinded

theorem readPipe_file (s : Files ι) (pid fd n : ℕ) : (s.readPipe pid fd n).file = s.file := by
  unfold readPipe
  repeat' split
  all_goals rfl

theorem writePipe_file (s : Files ι) (pid fd : ℕ) (bs : List UInt8) : (s.writePipe pid fd bs).file = s.file := by
  unfold writePipe
  repeat' split
  all_goals rfl

namespace FileProcs

variable {s t : FileProcs ι}

theorem kinded_call (h : Kinded s.files) (hi : s.Inv) {pid : ℕ} (hp : pid ∈ s.spawned) {op : FileOp ι} (hc : s.call pid op = .ok t) :
    Kinded t.files := by
  have hlt := hi.bound pid hp
  cases op with
  | «open» omode ip =>
    cases ip with
    | error =>
      cases hc
      exact h
    | ok ip =>
      obtain ⟨t', c, r, he, ht, hq, hr⟩ := sysOpen_spec hi.held hlt omode ip
      rw [FileProcs.call, he] at hc
      cases hc
      refine h.of_quiet hi.held ht hq fun x f hx => ?_
      rcases r with e | fd
      · exact .inl (by rwa [show t'.openfiles = _ from hr] at hx)
      · obtain ⟨-, g, -, ho, hg⟩ := hr
        rw [ho, Function.update_apply] at hx
        split_ifs at hx with e
        · cases hx
          refine .inr ?_
          rw [hg]
          exact ⟨fun e => (by cases e), fun e => (by cases e), fun e => by cases e⟩
        · exact .inl hx
  | pipe addr =>
    obtain ⟨t', c, r, he, ht, hq, hr⟩ := sysPipe_spec hi.held hlt addr
    rw [FileProcs.call, he] at hc
    cases hc
    refine h.of_quiet hi.held ht hq fun x f hx => ?_
    rcases r with e | ⟨fd0, fd1⟩
    · exact .inl (by rwa [show t'.openfiles = _ from hr] at hx)
    · obtain ⟨-, -, -, f0, f1, k, -, -, hr0, hr1, ho⟩ := hr
      have hend : ∀ {v : File ι} {w : Bool}, v.IsEnd k w → v.Suits := fun hv => by
        refine ⟨?_, ?_, ?_⟩ <;> rw [hv.1] <;> intro e <;> cases e
      rw [ho, Function.update_apply, Function.update_apply] at hx
      split_ifs at hx
      · cases hx
        exact .inr (hend hr1)
      · cases hx
        exact .inr (hend hr0)
      · exact .inl hx
  | close fd =>
    obtain ⟨t', c, r, he, ht, hq, ho⟩ := sysClose_spec hi.held hlt fd
    rw [FileProcs.call, he] at hc
    cases hc
    refine h.of_quiet hi.held ht hq fun x f hx => .inl ?_
    rw [ho] at hx
    split_ifs at hx
    · rw [Function.update_apply] at hx
      split_ifs at hx
      exact hx
    · exact hx
  | spawn elfId quota stdinFd stdoutFd =>
    cases hs : spawnError s.container pid elfId quota with
    | some e =>
      simp only [FileProcs.call, hs] at hc
      cases hc
      exact h
    | none =>
      obtain ⟨files, he, -⟩ := hi.spawn hp hs stdinFd stdoutFd
      simp only [FileProcs.call, hs, he, bind, Except.bind] at hc
      cases hc
      exact h.spawnFds he
  | exit =>
    obtain ⟨files, c, he, -⟩ := closeFds_spec hi.held hlt (List.finRange NOFILE)
    rw [FileProcs.call, he] at hc
    cases hc
    exact h.closeFds hi.held hlt he
  | read fd n =>
    cases hc
    intro f
    rw [readPipe_file]
    exact h f
  | write fd bs =>
    cases hc
    intro f
    rw [writePipe_file]
    exact h f

theorem kinded_of_reach {quota : UInt32} (h : ReflTransGen Next (boot quota) s) : Kinded s.files := by
  induction h with
  | refl =>
    have hinit : Kinded (Files.init : Files ι) := fun f hf => absurd hf (lt_irrefl 0)
    exact hinit.consoleInitFds 2
  | tail hreach hstep ih =>
    obtain ⟨pid, hp, op, hc⟩ := hstep
    exact kinded_call ih (inv_of_reach hreach) hp hc

end FileProcs

/-! ### The calls -/

/-- The calls that take a descriptor. -/
inductive FdCall where
  /-- `sys_read`. -/
  | read (userBuf n : UInt32)
  /-- `sys_write`. -/
  | write (userBuf n : UInt32)
  /-- `sys_close`. -/
  | close
  /-- `sys_fstat`. -/
  | fstat (userSt : UInt32)

/-- The call with the descriptor `fd`. -/
def FdCall.run (s : Files ι) (pid : ℕ) (beyond : ℤ → Option (Fin NFILE)) (fd : BitVec 32) : FdCall → FdRun (Fin NFILE)
  | .read userBuf n => s.readFd pid beyond fd userBuf n
  | .write userBuf n => s.writeFd pid beyond fd userBuf n
  | .close => s.closeFdNo pid beyond fd
  | .fstat userSt => s.fstatFd pid beyond fd userSt

def FdCall.For (v : File ι) : FdCall → Prop
  | .read _ _ => v.readable = true ∧ (v.type = .pipe ∨ v.type = .consoleIn ∨ v.type = .inode ∧ v.ip ≠ none)
  | .write _ _ => v.writable = true ∧ (v.type = .pipe ∨ v.type = .consoleOut ∨ v.type = .inode ∧ v.ip ≠ none)
  | .close => v.type ≠ .none
  | .fstat _ => v.type = .inode ∧ v.ip ≠ none

def InTable (i : ℤ) : Prop := 0 ≤ i ∧ i < NOFILE

/-- What a call may do: it uses the table within its bounds, does not panic, and goes on only with a structure in use, which the
slot holds and the call is for. -/
structure FdChecked (s : Files ι) (pid : ℕ) (fd : BitVec 32) (P : File ι → Prop) (r : FdRun (Fin NFILE)) : Prop where
  index : ∀ i ∈ r.index, InTable i
  panics : ∀ e, r.out ≠ .panics e
  served : ∀ f, r.out = .served f → InTable fd.toInt ∧ s.lookup pid fd.toInt = some f ∧ 0 < (s.file f).ref ∧ P (s.file f)

section

variable {s : Files ι} {pid : ℕ} {beyond : ℤ → Option (Fin NFILE)} {fd : BitVec 32} {P : File ι → Prop}

theorem fdChecked_refused (e : Errno) : FdChecked s pid fd P ⟨[], .refused e⟩ := ⟨nofun, nofun, nofun⟩

theorem openfilesAt_eq (hi : InTable fd.toInt) : s.openfilesAt pid beyond fd.toInt = s.lookup pid fd.toInt := (if_pos hi).trans (if_pos hi).symm

variable {k : Fin NFILE → FdOut (Fin NFILE)} {f : Fin NFILE}

theorem fdChecked_atFd (hi : InTable fd.toInt)
    (hk : ∀ f, s.lookup pid fd.toInt = some f → 0 < (s.file f).ref →
      (∀ e, k f ≠ .panics e) ∧ ∀ g, k f = .served g → g = f ∧ P (s.file f))
    (hpos : ∀ f, s.lookup pid fd.toInt = some f → 0 < (s.file f).ref) : FdChecked s pid fd P (s.atFd pid beyond fd.toInt k) := by
  unfold atFd
  rw [openfilesAt_eq hi]
  refine ⟨fun i hm => List.mem_singleton.mp hm ▸ hi, fun e he => ?_, fun f he => ?_⟩
  · cases hl : s.lookup pid fd.toInt with
    | none =>
      rw [hl] at he
      cases he
    | some f =>
      rw [hl] at he
      exact (hk f hl (hpos f hl)).1 e he
  · cases hl : s.lookup pid fd.toInt with
    | none =>
      rw [hl] at he
      cases he
    | some g =>
      rw [hl] at he
      obtain ⟨rfl, hP⟩ := (hk g hl (hpos g hl)).2 f he
      exact ⟨hi, rfl, hpos _ hl, hP⟩

theorem inTable_of_not {i : ℤ} (h : ¬ (i < 0 ∨ NOFILE ≤ i)) : InTable i := by
  unfold InTable
  omega

theorem fdChecked_rwFd (hs : Held s 0) (hpos : ∀ f, s.lookup pid fd.toInt = some f → 0 < (s.file f).ref) (userBuf n : UInt32)
    (hk : ∀ f, 0 < (s.file f).ref → ((s.file f).type = .inode → (s.file f).ip ≠ none) →
      (∀ e, k f ≠ .panics e) ∧ ∀ g, k f = .served g → g = f ∧ P (s.file f)) :
    FdChecked s pid fd P (s.rwFd pid beyond fd userBuf n k) := by
  unfold rwFd
  split_ifs with hfd hbuf
  · exact fdChecked_refused _
  · exact fdChecked_refused _
  · refine fdChecked_atFd (inTable_of_not hfd) (fun f _ href => ?_) hpos
    have hnode := (hs.inv.file_ok f).inode
    rw [if_neg fun h => hnode h.1 h.2]
    exact hk f href hnode

theorem fileReadOut_spec (h : (s.file f).Suits) (hnode : (s.file f).type = .inode → (s.file f).ip ≠ none) (userBuf n : UInt32) :
    (∀ e, s.fileReadOut f ≠ .panics e) ∧ ∀ g, s.fileReadOut f = .served g → g = f ∧ (FdCall.read userBuf n).For (s.file f) := by
  unfold fileReadOut
  cases hr : (s.file f).readable with
  | false => exact ⟨nofun, nofun⟩
  | true =>
    cases ht : (s.file f).type with
    | none => exact absurd ht h.type
    | consoleOut => exact absurd (h.consoleOut ht) (by rw [hr]; nofun)
    | pipe => exact ⟨nofun, fun g e => ⟨(FdOut.served.inj e).symm, hr, .inl ht⟩⟩
    | consoleIn => exact ⟨nofun, fun g e => ⟨(FdOut.served.inj e).symm, hr, .inr (.inl ht)⟩⟩
    | inode => exact ⟨nofun, fun g e => ⟨(FdOut.served.inj e).symm, hr, .inr (.inr ⟨ht, hnode ht⟩)⟩⟩

theorem fileWriteOut_spec (h : (s.file f).Suits) (hnode : (s.file f).type = .inode → (s.file f).ip ≠ none) (userBuf n : UInt32) :
    (∀ e, s.fileWriteOut f ≠ .panics e) ∧ ∀ g, s.fileWriteOut f = .served g → g = f ∧ (FdCall.write userBuf n).For (s.file f) := by
  unfold fileWriteOut
  cases hw : (s.file f).writable with
  | false => exact ⟨nofun, nofun⟩
  | true =>
    cases ht : (s.file f).type with
    | none => exact absurd ht h.type
    | consoleIn => exact absurd (h.consoleIn ht) (by rw [hw]; nofun)
    | pipe => exact ⟨nofun, fun g e => ⟨(FdOut.served.inj e).symm, hw, .inl ht⟩⟩
    | consoleOut => exact ⟨nofun, fun g e => ⟨(FdOut.served.inj e).symm, hw, .inr (.inl ht)⟩⟩
    | inode => exact ⟨nofun, fun g e => ⟨(FdOut.served.inj e).symm, hw, .inr (.inr ⟨ht, hnode ht⟩)⟩⟩

theorem fdChecked_closeFdNo (hk : Kinded s) (hpos : ∀ f, s.lookup pid fd.toInt = some f → 0 < (s.file f).ref) :
    FdChecked s pid fd FdCall.close.For (s.closeFdNo pid beyond fd) := by
  unfold closeFdNo
  by_cases hfd : NOFILE ≤ fd.toNat
  · rw [if_pos hfd]
    exact fdChecked_refused _
  · have hint : fd.toInt = fd.toNat := by
      rw [BitVec.toInt_eq_toNat_of_lt]
      unfold NOFILE at hfd
      omega
    have hin : InTable fd.toInt := by
      rw [hint]
      unfold InTable
      omega
    rw [if_neg hfd, ← hint]
    have hr : FdChecked s pid fd FdCall.close.For
        (s.atFd pid beyond fd.toInt fun f => if (s.file f).ref < 1 then .panics .fileClose else .served f) := by
      refine fdChecked_atFd hin (fun f _ href => ?_) hpos
      rw [if_neg (by omega)]
      exact ⟨nofun, fun g e => ⟨(FdOut.served.inj e).symm, (hk f href).type⟩⟩
    dsimp only
    split
    · rename_i f hout
      refine ⟨fun i hi => ?_, nofun, fun g e => hr.served g (hout.trans e)⟩
      rcases List.mem_append.mp hi with h | h
      · exact hr.index i h
      · exact List.mem_singleton.mp h ▸ hin
    · exact hr

theorem fdChecked_fstatFd (hs : Held s 0) (hpos : ∀ f, s.lookup pid fd.toInt = some f → 0 < (s.file f).ref) (userSt : UInt32) :
    FdChecked s pid fd (FdCall.fstat userSt).For (s.fstatFd pid beyond fd userSt) := by
  unfold fstatFd
  split_ifs with hfd
  · exact fdChecked_refused _
  · refine fdChecked_atFd (inTable_of_not fun h => hfd (h.imp_right .inl)) (fun f _ _ => ?_) hpos
    split_ifs with ht
    · exact ⟨nofun, fun g e => ⟨(FdOut.served.inj e).symm, ht, (hs.inv.file_ok f).inode ht⟩⟩
    · exact ⟨nofun, nofun⟩

theorem fdChecked_run (hk : Kinded s) (hs : Held s 0) (hp : pid < NUM_IDS) (call : FdCall) :
    FdChecked s pid fd call.For (call.run s pid beyond fd) := by
  have hpos : ∀ f, s.lookup pid fd.toInt = some f → 0 < (s.file f).ref := fun f hl => by
    unfold lookup at hl
    split_ifs at hl
    exact hs.ref_pos hp hl
  cases call with
  | read userBuf n => exact fdChecked_rwFd hs hpos userBuf n fun f href hnode => fileReadOut_spec (hk f href) hnode userBuf n
  | write userBuf n => exact fdChecked_rwFd hs hpos userBuf n fun f href hnode => fileWriteOut_spec (hk f href) hnode userBuf n
  | close => exact fdChecked_closeFdNo hk hpos
  | fstat userSt => exact fdChecked_fstatFd hs hpos userSt

/-- The slot holds a structure that stands for the inode `ip`. -/
def NodeAt (s : Files ι) (pid : ℕ) (fd : BitVec 32) (ip : ι) : Prop :=
  ∃ f, s.lookup pid fd.toInt = some f ∧ (s.file f).type = .inode ∧ (s.file f).ip = some ip

theorem isDirFd_spec (beyond : ℤ → Option (Fin NFILE)) (hi : InTable fd.toInt)
    (hkind : ∀ f, s.lookup pid fd.toInt = some f → (s.file f).type = .inode ∨ (s.file f).ip = none) (type : ι → ℕ) (b : Bool) :
    (s.isDirFd pid beyond type fd).out = .served b ↔ ∃ ip, NodeAt s pid fd ip ∧ b = decide (type ip = Fs.T_DIR) := by
  unfold isDirFd atFd NodeAt
  rw [openfilesAt_eq hi]
  cases hl : s.lookup pid fd.toInt with
  | none => simp
  | some f =>
    cases hip : (s.file f).ip with
    | none => simp [hip]
    | some ip =>
      have ht := (hkind f hl).resolve_right (by rw [hip]; nofun)
      simp [hip, ht, eq_comm]

end

/-- In every state between system calls, for every number as descriptor: `sys_read`, `sys_write`, `sys_close` and `sys_fstat` use the
table within its bounds, do not panic, and go on only with an open file of a kind that they are for. So does `sys_is_dir` if the
number is in range and the structure in the slot stands for an inode or has none left over; it reports a directory exactly
if the descriptor is for an inode that is one. -/
theorem descriptors_checked {quota : UInt32} {s : FileProcs ι} (h : ReflTransGen FileProcs.Next (FileProcs.boot quota) s) {pid : ℕ}
    (hp : pid ∈ s.spawned) (beyond : ℤ → Option (Fin NFILE)) (fd : BitVec 32) (type : ι → ℕ) :
    (∀ call : FdCall, FdChecked s.files pid fd call.For (call.run s.files pid beyond fd)) ∧
      (InTable fd.toInt → (∀ f, s.files.lookup pid fd.toInt = some f → (s.files.file f).type = .inode ∨ (s.files.file f).ip = none) →
        (∀ i ∈ (s.files.isDirFd pid beyond type fd).index, InTable i) ∧ (∀ e, (s.files.isDirFd pid beyond type fd).out ≠ .panics e) ∧
        ((s.files.isDirFd pid beyond type fd).out = .served true ↔ ∃ ip, NodeAt s.files pid fd ip ∧ type ip = Fs.T_DIR) ∧
        ((s.files.isDirFd pid beyond type fd).out = .served false ↔ ∃ ip, NodeAt s.files pid fd ip ∧ type ip ≠ Fs.T_DIR)) := by
  have hi := FileProcs.inv_of_reach h
  refine ⟨fun call => fdChecked_run (FileProcs.kinded_of_reach h) hi.held (hi.bound pid hp) call, fun hin hkind => ⟨fun i hm => ?_, fun e he => ?_, ?_, ?_⟩⟩
  · exact List.mem_singleton.mp hm ▸ hin
  · unfold isDirFd atFd at he
    dsimp only at he
    split at he
    · cases he
    · split at he <;> cases he
  · simpa using isDirFd_spec beyond hin hkind type true
  · simpa using isDirFd_spec beyond hin hkind type false

/-- The state after some calls of process `pid`. -/
def FileProcs.after (s : FileProcs ι) (pid : ℕ) (ops : List (FileOp ι)) : FileProcs ι :=
  ops.foldl (fun s op => match s.call pid op with
    | .ok t => t
    | .error _ => s) s

variable {s : FileProcs ι} {pid : ℕ}

theorem FileProcs.mem_spawned {t : FileProcs ι} {p : ℕ} {op : FileOp ι} (h : s.call pid op = .ok t) (hp : p ∈ s.spawned) :
    p ∈ t.spawned := by
  have hbind : ∀ {α : Type _} {m : Except FilePanic α} {f : α → Except FilePanic (FileProcs ι)}, (m >>= f) = .ok t →
      ∃ a, f a = .ok t := by
    intro α m f h
    cases m with
    | error e => cases h
    | ok a => exact ⟨a, h⟩
  cases op with
  | «open» omode ip =>
    cases ip with
    | error =>
      cases h
      exact hp
    | ok ip =>
      obtain ⟨r, h⟩ := hbind h
      cases h
      exact hp
  | pipe addr =>
    obtain ⟨r, h⟩ := hbind h
    cases h
    exact hp
  | close fd =>
    obtain ⟨r, h⟩ := hbind h
    cases h
    exact hp
  | spawn elfId quota stdinFd stdoutFd =>
    unfold call at h
    dsimp only at h
    cases hs : spawnError s.container pid elfId quota with
    | some e =>
      rw [hs] at h
      cases h
      exact hp
    | none =>
      rw [hs] at h
      obtain ⟨r, h⟩ := hbind h
      cases h
      exact List.mem_cons_of_mem _ hp
  | exit =>
    obtain ⟨r, h⟩ := hbind h
    cases h
    exact hp
  | read fd n =>
    cases h
    exact hp
  | write fd bs =>
    cases h
    exact hp

theorem FileProcs.reach_after {quota : UInt32} (h : ReflTransGen Next (boot quota) s) (hp : pid ∈ s.spawned)
    (ops : List (FileOp ι)) : ReflTransGen Next (boot quota) (s.after pid ops) ∧ pid ∈ (s.after pid ops).spawned := by
  induction ops generalizing s with
  | nil => exact ⟨h, hp⟩
  | cons op ops ih =>
    obtain ⟨t, ht, -⟩ := (inv_of_reach h).call hp op
    rw [show s.after pid (op :: ops) = t.after pid ops by simp only [after, List.foldl_cons, ht]]
    exact ih (h.tail ⟨pid, hp, op, ht⟩) (mem_spawned ht hp)

theorem descriptors_checked_dir :
    let s := (FileProcs.boot 300000 : FileProcs ℕ).after 2 [.open 0 (.ok 7)]
    (s.files.isDirFd 2 (fun _ => none) (fun _ => Fs.T_DIR) 3).out = .served true := by
  intro s
  have hs : s = (FileProcs.boot 300000 : FileProcs ℕ).after 2 [.open 0 (.ok 7)] := rfl
  have hboot : 2 ∈ (FileProcs.boot 300000 : FileProcs ℕ).spawned := by decide
  obtain ⟨hreach, hp⟩ := FileProcs.reach_after .refl hboot [.open 0 (.ok 7)]
  rw [← hs] at hreach hp
  have hslot : s.files.lookup 2 ((3 : BitVec 32).toInt) = some 3 := by
    rw [hs]
    decide
  have hfile : (s.files.file 3).type = .inode ∧ (s.files.file 3).ip = some 7 := by
    rw [hs]
    decide
  clear_value s
  have hdir := (descriptors_checked hreach hp (fun _ => none) 3 fun _ => Fs.T_DIR).2 ⟨by decide, by decide⟩ fun f hf => by
    rw [hslot] at hf
    cases hf
    exact .inl hfile.1
  exact hdir.2.2.1.mpr ⟨7, ⟨3, hslot, hfile⟩, rfl⟩

/-- The shell opens a directory, closes it, and makes a pipe: `sys_is_dir` reports a directory for the read end of the pipe. And it
reads behind the table for descriptor `16`. -/
theorem is_dir_left_over :
    let s := (FileProcs.boot 300000 : FileProcs ℕ).after 2 [.open 0 (.ok 7), .close 3, .pipe 0x40000000]
    ReflTransGen FileProcs.Next (FileProcs.boot 300000) s ∧ 2 ∈ s.spawned ∧ s.files.lookup 2 3 = some 3 ∧
      (s.files.file 3).type = .pipe ∧ (s.files.isDirFd 2 (fun _ => none) (fun _ => Fs.T_DIR) 3).out = .served true ∧
      (s.files.isDirFd 2 (fun _ => none) (fun _ => Fs.T_DIR) 16).index = [16] := by
  intro s
  have hboot : 2 ∈ (FileProcs.boot 300000 : FileProcs ℕ).spawned := by decide
  obtain ⟨hreach, hp⟩ := FileProcs.reach_after .refl hboot [.open 0 (.ok 7), .close 3, .pipe 0x40000000]
  refine ⟨hreach, hp, ?_, ?_, ?_, rfl⟩
  · decide
  · decide
  · decide

end MCertiKOS.FileSystem
