import MCertiKOS.FileSystem.Syscall
import MCertiKOS.Library.Discipline

/-!
# Recovery comes first

The log is recovered by `log_init`, which the first call of `sys_open` calls. Other calls do not, and `sys_open`
clears its flag before it calls `log_init`, which sleeps while it waits for the disk. So a call may work on a disk
that has not been recovered (`transaction_before_recovery`). When the first call is `sys_open`, and no other begins
before `log_init` has returned, no call uses the file system before (`recovery_first`).

The code of the calls is that of `FileSystem.Syscall`, with marks: which operations are those of `log_init`, where it
returns, and where a call begins and ends (`erase_recCode`).
-/

namespace MCertiKOS.FileSystem.Fs

open Library Memory Thread Relation Discipline
open Function (update update_eq_self update_of_ne update_self)

/-! ### Marks -/

/-- An operation with a mark, or a mark. -/
inductive RecOp (β : Type) : Type where
  /-- A call begins; whether it is `sys_open`. -/
  | enter (isOpen : Bool) (ret : β)
  /-- A call is over. -/
  | leave (ret : β)
  /-- The process is gone. -/
  | gone (ret : β)
  /-- An operation of `log_init`. -/
  | init (o : FsOp β)
  /-- `log_init` has returned. -/
  | recovered (ret : β)
  /-- Some other operation. -/
  | fs (o : FsOp β)

/-- The state, and what the marks say. -/
structure RecState where
  fs : FS
  running : Finset ℕ
  /-- `log_init` has returned. -/
  recovered : Bool

def onFs {α : Type} (m : Prog FS FsStop α) : Prog RecState FsStop α := ExceptT.mk fun s =>
  ((m.run s.fs).1, { s with fs := (m.run s.fs).2 })

/-- What the operations of process `pid` do. -/
def recSem (pid : ℕ) : Sem RecOp RecState FsStop
  | _, .enter _ b => do
      modify fun s => { s with running := insert pid s.running }
      return b
  | _, .leave b => do
      modify fun s => { s with running := s.running.erase pid }
      return b
  | _, .gone b => do
      modify fun s => { s with running := s.running.erase pid }
      return b
  | _, .init o => onFs (sem pid _ o)
  | _, .recovered b => do
      modify fun s => { s with recovered := true }
      return b
  | _, .fs o => onFs (sem pid _ o)

/-! ### The calls -/

/-- `sys_open`, after `log_init`. -/
def openRest (path : List UInt8) (omode : BitVec 32) : Code FsOp (Except Errno (Fin NOFILE)) := do
  if omode.getLsbD 9 then do
    beginTrans
    let ip ← create (userPath path) T_FILE 0 0
    commitTrans
    match ip with
    | none => return .error .create
    | some ip => openInode omode ip
  else do
    match ← namei (userPath path) with
    | none => return .error .nexist
    | some ip => do
      inodeLock ip
      let n ← Code.op (.node ip)
      if n.d.type = T_DIR ∧ omode ≠ 0 then do
        inodeUnlockput ip
        return .error .diskOp
      else openInode omode ip

/-- `log_init`, with its mark. -/
def recInit : Code RecOp PUnit := do
  logInit.mapOp fun _ => .init
  Code.op (.recovered ⟨⟩)

/-- `sys_open`. -/
def recOpen (path : List UInt8) (omode : BitVec 32) : Code RecOp PUnit := do
  Code.op (.enter true ⟨⟩)
  (if ← Code.op (.fs .first) then recInit else pure ⟨⟩ : Code RecOp PUnit)
  let _ ← (openRest path omode).mapOp fun _ => .fs
  Code.op (.leave ⟨⟩)

/-- A call other than `sys_open`. -/
def recCall {α : Type} (c : Code FsOp α) : Code RecOp PUnit := do
  Code.op (.enter false ⟨⟩)
  let _ ← c.mapOp fun _ => .fs
  Code.op (.leave ⟨⟩)

def FsCall.recCode : FsCall → Code RecOp PUnit
  | .open path omode => recOpen path omode
  | .close fd => recCall (sysClose fd)
  | .read fd userBuf n => recCall (sysRead fd userBuf n)
  | .write fd userBuf bs => recCall (sysWrite fd userBuf bs)
  | .mkdir path => recCall (sysMkdir path)
  | .chdir path => recCall (sysChdir path)
  | .link old new => recCall (sysLink old new)
  | .unlink path => recCall (sysUnlink path)
  | .ls => recCall sysLs
  | .pwd fuel => recCall (sysPwd fuel)
  | .spawn elfId quota stdinFd stdoutFd => recCall (Code.op (.spawn elfId quota stdinFd stdoutFd))
  | .exit => do
    Code.op (.enter false ⟨⟩)
    sysExit.mapOp fun _ => .fs
    Code.op (.gone ⟨⟩)
  | .kill pid => recCall (Code.op (.kill pid))
  | .terminate => Code.op (.fs .terminate)

def erase {α : Type} : Code RecOp α → Code FsOp α
  | .ret a => .ret a
  | .act (.enter _ b) k => .act .enter fun _ => erase (k b)
  | .act (.leave b) k => .act .leave fun _ => erase (k b)
  | .act (.gone b) k => erase (k b)
  | .act (.init o) k => .act o fun b => erase (k b)
  | .act (.recovered b) k => erase (k b)
  | .act (.fs o) k => .act o fun b => erase (k b)

variable {α β : Type} {s : RecState} {T T' : Threads ℕ RecState RecOp}

theorem erase_bind (c : Code RecOp β) (f : β → Code RecOp α) :
    erase (c >>= f) = erase c >>= fun b => erase (f b) := by
  induction c with
  | ret b => rfl
  | act o k ih =>
    cases o with
    | enter _ b | leave b => exact congrArg (Code.act _) (funext fun _ => ih b)
    | gone b | recovered b => exact ih b
    | init o | fs o => exact congrArg (Code.act o) (funext fun b => ih b)

theorem erase_mapOp_fs (c : Code FsOp α) : erase (c.mapOp fun _ => .fs) = c := by
  induction c with
  | ret a => rfl
  | act o k ih => exact congrArg (Code.act o) (funext ih)

theorem erase_mapOp_init (c : Code FsOp α) : erase (c.mapOp fun _ => .init) = c := by
  induction c with
  | ret a => rfl
  | act o k ih => exact congrArg (Code.act o) (funext ih)

theorem erase_recCall (c : Code FsOp α) : erase (recCall c) = syscall c := by
  unfold recCall syscall
  rw [erase_bind, erase_bind, erase_mapOp_fs]
  rfl

theorem erase_recInit : erase recInit = logInit := by
  unfold recInit
  rw [erase_bind, erase_mapOp_init]
  exact Code.bind_ret logInit

theorem erase_recCode (c : FsCall) : erase c.recCode = c.code := by
  cases c with
  | «open» path omode =>
    show erase (recOpen path omode) = syscall (sysOpen path omode)
    unfold recOpen
    simp only [erase_bind, erase_mapOp_fs]
    refine congrArg (Code.act FsOp.enter) (funext fun _ => congrArg (Code.act FsOp.first) (funext fun b => ?_))
    cases b with
    | false => rfl
    | true =>
      show (erase recInit).bind (fun _ => (openRest path omode).bind fun _ => Code.op .leave) =
        (logInit.bind fun _ => openRest path omode).bind fun _ => Code.op .leave
      rw [erase_recInit, Code.bind_assoc]
  | exit =>
    show erase (_ >>= _) = _
    simp only [erase_bind, erase_mapOp_fs]
    exact congrArg (Code.act FsOp.enter) (funext fun _ => Code.bind_ret sysExit)
  | terminate => rfl
  | _ => exact erase_recCall _

/-! ### Runs -/

/-- The condition on an operation: a call begins when `log_init` has returned, or it is `sys_open` and no other call has
begun. -/
def recCond (_pid : ℕ) (s : RecState) : ∀ β, RecOp β → Prop
  | _, .enter isOpen _ => s.recovered = true ∨ isOpen = true ∧ s.running = ∅
  | _, _ => True

def recStart (s : RecState) (pid : ℕ) (c : Code RecOp PUnit) : Prop := s.fs.alive pid = true ∧ ∃ call : FsCall, c = call.recCode

/-- The machine after `kern_main`, on the disk `d`. -/
def recBoot (d : Disk) (quota : UInt32) : Threads ℕ RecState RecOp := ⟨⟨FS.boot d quota, ∅, false⟩, fun _ => .ret ⟨⟩⟩

/-- The operations that do not concern the disk and its caches: `sys_open` reads its flag, and a process is terminated on
its way back to the user program. -/
def FsOp.Apart : ∀ {β : Type}, FsOp β → Prop
  | _, .first => True
  | _, .terminate => True
  | _, _ => False

/-- How far a process is. -/
inductive Phase where
  /-- It is in no call. -/
  | idle
  /-- It is in `sys_open`, before the flag is read. -/
  | opening
  /-- It is in `log_init`. -/
  | initing
  /-- It is in a call. -/
  | calling
  deriving DecidableEq

/-- What the processes keep. -/
structure RecInv (rs : ℕ → Phase) (s : RecState) : Prop where
  running : ∀ i, i ∈ s.running ↔ rs i ≠ .idle
  calling : ∀ i, rs i = .calling → s.recovered = true
  alone : s.recovered = false → ∀ i j, rs i ≠ .idle → rs j ≠ .idle → i = j
  first : s.recovered = false → (∀ i, rs i ≠ .initing) → s.fs.first = true

def recRules : Discipline ℕ RecState FsStop Phase RecOp where
  sem := recSem
  cond := recCond
  pre r _ o :=
    match o with
    | .enter _ _ => r = .idle
    | .leave _ => r = .calling
    | .gone _ => r = .calling
    | .init _ => r = .initing
    | .recovered _ => r = .initing
    | .fs o => o.Apart ∨ r = .calling
  inv := RecInv

theorem wp_onFs {m : Prog FS FsStop α} {Q : α → RecState → Prop} {E : FsStop → RecState → Prop}
    (h : wp m (fun a t => Q a { s with fs := t }) (fun e t => E e { s with fs := t }) s.fs) : wp (onFs m) Q E s := by
  unfold wp onFs at *
  rcases hr : m.run s.fs with ⟨e | a, t⟩
  · rw [hr] at h
    simpa [hr] using h
  · rw [hr] at h
    simpa [hr] using h

namespace RecInv

variable {rs : ℕ → Phase} {s t : RecState} {i : ℕ}

theorem setFs (h : RecInv rs s) (hi : rs i = .initing ∨ rs i = .calling) (u : FS) : RecInv rs { s with fs := u } where
  running := h.running
  calling := h.calling
  alone := h.alone
  first hr hno := by
    rcases hi with e | e
    · exact absurd e (hno i)
    · exact absurd (h.calling i e) (by rw [show s.recovered = false from hr]; decide)

variable {r : Phase}

theorem go (ht : t.recovered = true)
    (hrun : ∀ j, j ∈ t.running ↔ update rs i r j ≠ .idle) : RecInv (update rs i r) t where
  running := hrun
  calling _ _ := ht
  alone hr := absurd (ht.symm.trans hr) (by decide)
  first hr := absurd (ht.symm.trans hr) (by decide)

theorem running_update (h : RecInv rs s) (hi : rs i ≠ .idle) (hr : r ≠ .idle) (j : ℕ) :
    j ∈ s.running ↔ update rs i r j ≠ .idle := by
  rw [h.running]
  by_cases e : j = i
  · subst e
    simp [hi, hr]
  · rw [update_of_ne e]

theorem running_insert (h : RecInv rs s) (hr : r ≠ .idle) (j : ℕ) :
    j ∈ insert i s.running ↔ update rs i r j ≠ .idle := by
  rw [Finset.mem_insert, h.running]
  by_cases e : j = i
  · subst e
    simp [hr]
  · rw [update_of_ne e]
    simp [e]

theorem running_erase (h : RecInv rs s) (j : ℕ) : j ∈ s.running.erase i ↔ update rs i .idle j ≠ .idle := by
  rw [Finset.mem_erase, h.running]
  by_cases e : j = i
  · subst e
    simp
  · rw [update_of_ne e]
    simp [e]

end RecInv

variable {i : ℕ}

theorem obeys_calling (c : Code FsOp α) :
    recRules.Obeys i (c.mapOp fun _ => .fs) (fun _ r => r = .calling) .calling := by
  induction c with
  | ret a => rfl
  | act o k ih =>
    refine ⟨.inr rfl, fun rs s hrs hI _ => wp_onFs (wp_of_forall (fun b t => ⟨.calling, ?_, ih b⟩) (fun e t => hI.setFs (.inr hrs) t) _)⟩
    have := hI.setFs (.inr hrs) t
    rwa [← update_eq_self i rs, hrs] at this

theorem obeys_initing (c : Code FsOp α) :
    recRules.Obeys i (c.mapOp fun _ => .init) (fun _ r => r = .initing) .initing := by
  induction c with
  | ret a => rfl
  | act o k ih =>
    refine ⟨rfl, fun rs s hrs hI _ => wp_onFs (wp_of_forall (fun b t => ⟨.initing, ?_, ih b⟩) (fun e t => hI.setFs (.inl hrs) t) _)⟩
    have := hI.setFs (.inl hrs) t
    rwa [← update_eq_self i rs, hrs] at this

theorem obeys_enter : recRules.Obeys i (Code.op (.enter false PUnit.unit)) (fun _ r => r = .calling) .idle := by
  refine obeys_op rfl fun rs s hrs hI hC => ?_
  have hrec : s.recovered = true := hC.resolve_right fun h => nomatch h.1
  exact ⟨.calling, RecInv.go (t := { s with running := insert i s.running }) hrec (hI.running_insert (by decide)), rfl⟩

theorem obeys_enter_open : recRules.Obeys i (Code.op (.enter true PUnit.unit)) (fun _ r => r = .opening) .idle := by
  refine obeys_op rfl fun rs s hrs hI hC => ⟨.opening, ?_, rfl⟩
  by_cases hrec : s.recovered = true
  · exact RecInv.go (t := { s with running := insert i s.running }) hrec (hI.running_insert (by decide))
  · have hempty : s.running = ∅ := (hC.resolve_left hrec).2
    have hrec : s.recovered = false := Bool.eq_false_iff.mpr hrec
    have hidle : ∀ j, rs j = .idle := fun j => not_not.mp fun hj => by
      have := (hI.running j).mpr hj
      rw [hempty] at this
      cases this
    have hnot : ∀ j, update rs i .opening j ≠ .idle → j = i := fun j hj => by
      by_contra e
      rw [update_of_ne e] at hj
      exact hj (hidle j)
    refine ⟨hI.running_insert (by decide), fun j hj => ?_, fun _ j j' hj hj' => (hnot j hj).trans (hnot j' hj').symm,
      fun _ _ => hI.first hrec fun j => by rw [hidle j]; decide⟩
    by_cases e : j = i
    · subst e
      rw [update_self] at hj
      cases hj
    · rw [update_of_ne e, hidle j] at hj
      cases hj

theorem obeys_first :
    recRules.Obeys i (Code.op (.fs .first)) (fun b r => r = if b then .initing else .calling) .opening := by
  refine obeys_op (.inl trivial) fun rs s hrs hI _ => wp_onFs ?_
  show ∃ r, RecInv (update rs i r) { s with fs := { s.fs with first := false } } ∧ r = if s.fs.first then .initing else .calling
  refine ⟨_, ?_, rfl⟩
  have hne : rs i ≠ .idle := by rw [hrs]; decide
  by_cases hrec : s.recovered = true
  · refine RecInv.go (t := { s with fs := { s.fs with first := false } }) hrec (hI.running_update hne ?_)
    split_ifs <;> decide
  · have hrec : s.recovered = false := Bool.eq_false_iff.mpr hrec
    have hno : ∀ j, rs j ≠ .initing := fun j hj => by
      obtain rfl := hI.alone hrec j i (by rw [hj]; decide) hne
      rw [hrs] at hj
      cases hj
    rw [if_pos (hI.first hrec hno)]
    refine ⟨hI.running_update hne (by decide), fun j hj => ?_, fun _ j j' hj hj' => ?_, fun _ hj => ?_⟩
    · by_cases e : j = i
      · subst e
        rw [update_self] at hj
        cases hj
      · rw [update_of_ne e] at hj
        exact hI.calling j hj
    · have hsame : ∀ j, update rs i .initing j ≠ .idle → rs j ≠ .idle := fun j hj =>
        (hI.running j).mp ((hI.running_update hne (by decide) j).mpr hj)
      exact hI.alone hrec j j' (hsame j hj) (hsame j' hj')
    · exact absurd (update_self i _ rs) (hj i)

theorem obeys_recInit : recRules.Obeys i recInit (fun _ r => r = .calling) .initing := by
  refine obeys_bind (obeys_initing logInit) ?_
  rintro _ _ rfl
  refine obeys_op rfl fun rs s hrs hI _ => ⟨.calling, ?_, rfl⟩
  exact RecInv.go rfl (hI.running_update (by rw [hrs]; decide) (by decide))

theorem obeys_leave : recRules.Obeys i (Code.op (.leave PUnit.unit)) (fun _ r => r = .idle) .calling :=
  obeys_op rfl fun _ s hrs hI _ =>
    ⟨.idle, RecInv.go (t := { s with running := s.running.erase i }) (hI.calling i hrs) hI.running_erase, rfl⟩

theorem obeys_gone : recRules.Obeys i (Code.op (.gone PUnit.unit)) (fun _ r => r = .idle) .calling :=
  obeys_op rfl fun _ s hrs hI _ =>
    ⟨.idle, RecInv.go (t := { s with running := s.running.erase i }) (hI.calling i hrs) hI.running_erase, rfl⟩

theorem obeys_recCall (c : Code FsOp α) : recRules.Ready .idle i (recCall c) .idle := by
  refine obeys_bind obeys_enter ?_
  rintro _ _ rfl
  refine obeys_bind (obeys_calling c) ?_
  rintro _ _ rfl
  exact obeys_leave

theorem obeys_recCode (c : FsCall) : recRules.Ready .idle i c.recCode .idle := by
  cases c with
  | «open» path omode =>
    refine obeys_bind obeys_enter_open ?_
    rintro _ _ rfl
    refine obeys_bind obeys_first ?_
    rintro b _ rfl
    refine obeys_bind (P := fun _ r => r = .calling) ?_ ?_
    · cases b with
      | true => exact obeys_recInit
      | false => rfl
    · rintro _ _ rfl
      refine obeys_bind (obeys_calling _) ?_
      rintro _ _ rfl
      exact obeys_leave
  | exit =>
    refine obeys_bind obeys_enter ?_
    rintro _ _ rfl
    refine obeys_bind (obeys_calling _) ?_
    rintro _ _ rfl
    exact obeys_gone
  | terminate =>
    refine obeys_op (.inl trivial) fun rs s hrs hI _ => wp_onFs ?_
    refine ⟨.idle, ?_, rfl⟩
    rw [← hrs, update_eq_self]
    exact ⟨hI.running, hI.calling, hI.alone, hI.first⟩
  | _ => exact obeys_recCall _

/-- In every run in which the first call is `sys_open`, and no other begins before `log_init` has returned, no process
performs an operation on the disk or its caches before `log_init` has returned, other than those of `log_init`. -/
theorem recovery_first (d : Disk) (quota : UInt32) (T : Threads ℕ RecState RecOp)
    (h : ReflTransGen (Threads.StepWhen recSem recCond recStart) (recBoot d quota) T) (i : ℕ) {β : Type} (o : FsOp β)
    (k : β → Code RecOp PUnit) (hc : T.code i = .act (.fs o) k) : o.Apart ∨ T.shared.recovered = true := by
  have hboot : RecInv (fun _ => .idle) (recBoot d quota).shared :=
    ⟨fun i => by simp [recBoot], nofun, fun _ _ _ hi => absurd rfl hi, fun _ _ => rfl⟩
  have hstart : ∀ (rs : ℕ → Phase) s i c, RecInv rs s → rs i = .idle → recStart s i c → recRules.Ready .idle i c .idle := by
    rintro rs s i c - - ⟨-, call, rfl⟩
    exact obeys_recCode call
  obtain ⟨rs, hI, hready⟩ := recRules.reach hstart ⟨_, hboot, fun i => rfl⟩ h
  have hi := hready i
  rw [hc] at hi
  exact hi.1.imp_right (hI.calling i)

instance {β : Type} (o : FsOp β) : Decidable o.Apart := by
  cases o <;> unfold FsOp.Apart <;> infer_instance

/-- The next operation is one on the disk or its caches, outside of `log_init`. -/
def usesFs : Code RecOp PUnit → Bool
  | .act (.fs o) _ => ¬ o.Apart
  | _ => false

def recOk (s : RecState) : Code RecOp PUnit → Bool
  | .act (.enter isOpen _) _ => s.recovered = true ∨ isOpen = true ∧ s.running = ∅
  | _ => true

/-- The turn of process `i`, if the condition is met. -/
def recTurn (T : Threads ℕ RecState RecOp) (i : ℕ) : Option (Threads ℕ RecState RecOp) :=
  if recOk T.shared (T.code i) then some (T.turn recSem i) else none

theorem recCond_of_recOk {op : RecOp β} {k : β → Code RecOp PUnit}
    (h : recOk s (.act op k) = true) : recCond i s β op := by
  cases op with
  | enter isOpen b =>
    have : s.recovered = true ∨ isOpen = true ∧ s.running = ∅ := of_decide_eq_true h
    exact this
  | _ => trivial

theorem reach_recTurn (h : recTurn T i = some T') :
    ReflTransGen (Threads.StepWhen recSem recCond recStart) T T' := by
  unfold recTurn at h
  split_ifs at h with hok
  cases h
  unfold Threads.turn
  cases hc : T.code i with
  | ret a => exact .refl
  | act op k =>
    rw [hc] at hok
    dsimp only
    rcases hr : (recSem i _ op).run T.shared with ⟨e | b, t⟩
    · exact .single (.stop hc (recCond_of_recOk hok) hr)
    · exact .single (.act hc (recCond_of_recOk hok) hr)

theorem reach_recTurns {is : List ℕ} (h : is.foldlM recTurn T = some T') :
    ReflTransGen (Threads.StepWhen recSem recCond recStart) T T' := by
  induction is generalizing T with
  | nil =>
    cases h
    exact .refl
  | cons i is ih =>
    rw [List.foldlM_cons] at h
    obtain ⟨T₁, h1, h2⟩ := Option.bind_eq_some_iff.mp h
    exact (reach_recTurn h1).trans (ih h2)

/-- The shell opens `a` on an empty disk. -/
def openA : Threads ℕ RecState RecOp := (recBoot (fun _ _ => 0) 300000).give 2 (FsCall.recCode (.open [97] 0))

theorem recovery_first_openA :
    ∃ T, ReflTransGen (Threads.StepWhen recSem recCond recStart) (recBoot (fun _ _ => 0) 300000) T ∧
      usesFs (T.code 2) = true ∧ T.shared.recovered = true := by
  have hrun : ((List.replicate 24 2).foldlM recTurn openA).map (fun T => usesFs (T.code 2)) = some true := by decide
  obtain ⟨T, hT, huses⟩ := Option.map_eq_some_iff.mp hrun
  have hstart : Threads.StepWhen recSem recCond recStart (recBoot (fun _ _ => 0) 300000) openA :=
    .start rfl ⟨by decide, _, rfl⟩
  have hreach := ReflTransGen.head hstart (reach_recTurns hT)
  refine ⟨T, hreach, huses, ?_⟩
  cases hc : T.code 2 with
  | ret a =>
    rw [hc] at huses
    cases huses
  | act op k =>
    rw [hc] at huses
    cases op with
    | fs o => exact (recovery_first _ _ T hreach 2 o k hc).resolve_left (of_decide_eq_true huses)
    | _ => cases huses

/-- The shell makes the directory `a` before any file is opened: the transaction begins, the log has not been recovered, and
`log.start` and `log.size` are `0`. And process `1` begins a transaction in `sys_open` while the shell is in `log_init`. -/
theorem transaction_before_recovery :
    let T₀ : Threads ℕ RecState RecOp := recBoot (fun _ _ => 0) 300000
    let T := [2, 2].foldl (Threads.turn recSem) (T₀.give 2 (FsCall.recCode (.mkdir [97])))
    let T' := [2, 2, 1, 1, 1].foldl (Threads.turn recSem)
      ((T₀.give 2 (FsCall.recCode (.open [97] 0))).give 1 (FsCall.recCode (.open [98] 0x200)))
    ReflTransGen (Threads.Step recSem recStart) T₀ T ∧ T.shared.fs.store.log.busy = true ∧ T.shared.recovered = false ∧
      T.shared.fs.store.log.start = 0 ∧ T.shared.fs.store.log.size = 0 ∧
      ReflTransGen (Threads.Step recSem recStart) T₀ T' ∧ T'.shared.fs.store.log.busy = true ∧ T'.shared.recovered = false := by
  intro T₀ T T'
  refine ⟨?_, by decide, by decide, by decide, by decide, ?_, by decide,
    by decide⟩
  · exact .head (.start rfl ⟨by decide, _, rfl⟩) (Threads.reach_turns _ _)
  · exact .head (.start rfl ⟨by decide, _, rfl⟩) (.head (.start rfl ⟨by decide, _, rfl⟩) (Threads.reach_turns _ _))

end MCertiKOS.FileSystem.Fs
