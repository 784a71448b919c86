import MCertiKOS.Shell.Pipeline
import MCertiKOS.Shell.Prompt

/-!
# The descriptors of a pipeline

What `run_pipeline` does to descriptors, while the stages and other processes run.

Whatever fails, the shell has the descriptors it had when `run_pipeline` ends: at every
call the shell's table is the one before `run_pipeline` with the descriptors of `At.opened`
in addition (`Table`). The last `close(in_fd)` after the loop closes a descriptor that is
closed already.

When every stage is launched, stage `i` has the write end of pipe `i` as standard output and
stage `i + 1` its read end as standard input, and nobody else has them (`Wires`).
-/

namespace MCertiKOS.FileSystem

open Memory Thread List Option

variable {ι : Type*}

/-! ### What a step leaves alone -/

namespace Files

variable {s t : Files ι} {x : ℕ × Fin NOFILE}

def kind (s : Files ι) (x : ℕ × Fin NOFILE) : Option FdType := (s.openfiles x).map fun f => (s.file f).type

variable {type : FdType} {f : Fin NFILE} {curid child : ℕ} {stdinFd stdoutFd : ℤ} {fd : Fin NOFILE}

theorem kind_eq_some : s.kind x = some type ↔ ∃ f, s.openfiles x = some f ∧ (s.file f).type = type :=
  map_eq_some_iff

theorem Holds.kind {k : Fin NPIPE} {w : Bool} (h : s.Holds x k w) : s.kind x = some .pipe := by
  obtain ⟨f, hf, hend⟩ := h
  exact kind_eq_some.mpr ⟨f, hf, hend.1⟩

theorem exists_holds_of_kind (hs : FileInv s) (h : s.kind x = some .pipe) : ∃ k w, s.Holds x k w := by
  obtain ⟨f, hf, htype⟩ := kind_eq_some.mp h
  obtain ⟨k, hk⟩ := ne_none_iff_exists'.mp ((hs.file_ok f).pipe htype).1
  exact ⟨k, _, f, hf, htype, hk, rfl⟩

/-- A step of process `pid` leaves the descriptors of the other processes alone, and the files behind a descriptor
that stays open, but for counts and offsets. -/
structure Leaves (s t : Files ι) (known : List ℕ) (pid : ℕ) : Prop where
  other : ∀ q ∈ known, q ≠ pid → ∀ fd, t.openfiles (q, fd) = s.openfiles (q, fd)
  file : ∀ x f, s.openfiles x = some f → t.openfiles x = some f → ∃ r o, t.file f = { s.file f with ref := r, off := o }

namespace Leaves

variable {known : List ℕ} {pid : ℕ}

theorem refl (s : Files ι) (known : List ℕ) (pid : ℕ) : Leaves s s known pid :=
  ⟨fun _ _ _ _ => rfl, fun _ f _ _ => ⟨(s.file f).ref, (s.file f).off, rfl⟩⟩

theorem kind_eq (h : Leaves s t known pid) (ho : t.openfiles x = s.openfiles x) : t.kind x = s.kind x := by
  cases hf : s.openfiles x with
  | none => rw [kind, kind, ho, hf]; rfl
  | some f =>
    obtain ⟨r, o, e⟩ := h.file x f hf (ho.trans hf)
    rw [kind, kind, ho, hf, map_some, map_some, e]

theorem holds_iff (h : Leaves s t known pid) (ho : t.openfiles x = s.openfiles x) {k : Fin NPIPE} {w : Bool} :
    t.Holds x k w ↔ s.Holds x k w := by
  unfold Holds
  rw [ho]
  refine exists_congr fun f => and_congr_right fun hf => ?_
  obtain ⟨r, o, e⟩ := h.file x f hf (ho.trans hf)
  rw [e]
  rfl

end Leaves

theorem setOff_frame (s : Files ι) (f : Fin NFILE) (off : UInt32) (g : Fin NFILE) :
    ∃ o, (s.setFile f { s.file f with off := off }).file g = { s.file g with off := o } := by
  by_cases e : g = f
  · exact ⟨off, by rw [setFile_file, if_pos e, e]⟩
  · exact ⟨(s.file g).off, by rw [setFile_file, if_neg e]⟩

theorem pipeReadSeg_frame (s : Files ι) (k : Fin NPIPE) (n : ℕ) :
    (s.pipeReadSeg k n).1.openfiles = s.openfiles ∧ (s.pipeReadSeg k n).1.file = s.file := by
  unfold pipeReadSeg
  split <;> exact ⟨rfl, rfl⟩

theorem pipeWriteSeg_frame (s : Files ι) (k : Fin NPIPE) (n : ℕ) (bytes : List UInt8) :
    (s.pipeWriteSeg k n bytes).1.openfiles = s.openfiles ∧ (s.pipeWriteSeg k n bytes).1.file = s.file := by
  unfold pipeWriteSeg
  dsimp only
  split <;> exact ⟨rfl, rfl⟩

/-- Nothing has changed but the offsets. -/
def Framed (s t : Files ι) : Prop := t.openfiles = s.openfiles ∧ ∀ g, ∃ o, t.file g = { s.file g with off := o }

theorem Framed.refl (s : Files ι) : Framed s s := ⟨rfl, fun g => ⟨(s.file g).off, rfl⟩⟩

theorem fileRead_frame {n : ℕ} {input : Option (List UInt8)} {r : Files ι × List (FileCall ι) × ReadSeg}
    (hr : s.fileRead f n input = .ok r) :
    Framed s r.1 := by
  unfold fileRead at hr
  dsimp only at hr
  split_ifs at hr
  · cases hr
    exact .refl s
  · split at hr
    · split at hr
      · cases hr
      · rename_i k _
        cases hr
        obtain ⟨ho, hf⟩ := pipeReadSeg_frame s k n
        exact ⟨ho, fun g => ⟨(s.file g).off, by rw [hf]⟩⟩
    · split at hr <;> cases hr <;> exact .refl s
    · split at hr
      · cases hr
        exact .refl s
      · cases hr
        exact ⟨rfl, setOff_frame s f _⟩
    · cases hr

theorem fileWrite_frame {bytes : List UInt8} {output : ℕ} {r : Files ι × List (FileCall ι) × WriteSeg}
    (hr : s.fileWrite f bytes output = .ok r) :
    Framed s r.1 := by
  unfold fileWrite at hr
  by_cases hw : (s.file f).writable = false
  · rw [if_pos hw] at hr
    cases hr
    exact .refl s
  · rw [if_neg hw] at hr
    split at hr
    · split at hr
      · cases hr
      · rename_i k _
        cases hr
        obtain ⟨ho, hf⟩ := pipeWriteSeg_frame s k bytes.length bytes
        exact ⟨ho, fun g => ⟨(s.file g).off, by rw [hf]⟩⟩
    · cases hr
      exact .refl s
    · cases hr
      exact ⟨rfl, setOff_frame s f _⟩
    · cases hr

theorem lookup_of_openfiles (hf : s.openfiles (curid, fd) = some f) : s.lookup curid fd.val = some f := by
  rw [lookup_natCast, if_pos fd.isLt, ← hf]
  congr 2
  exact Fin.ext (Nat.mod_eq_of_lt fd.isLt)

theorem Spawns.kind_stdin (h : Spawns s t curid child stdinFd stdoutFd)
    (hs : Held s 0) (hc : curid < NUM_IDS) (hfd : (fd.val : ℤ) = stdinFd)
    (hk : s.kind (curid, fd) = some type) : t.kind (child, 0) = some type := by
  obtain ⟨f, hf, rfl⟩ := kind_eq_some.mp hk
  exact kind_eq_some.mpr ⟨f, h.stdin f (hfd ▸ lookup_of_openfiles hf), by rw [(h.file f (hs.ref_pos hc hf)).2]⟩

theorem Spawns.kind_stdout (h : Spawns s t curid child stdinFd stdoutFd)
    (hs : Held s 0) (hc : curid < NUM_IDS) (hfd : (fd.val : ℤ) = stdoutFd)
    (hk : s.kind (curid, fd) = some type) : t.kind (child, 1) = some type := by
  obtain ⟨f, hf, rfl⟩ := kind_eq_some.mp hk
  exact kind_eq_some.mpr ⟨f, h.stdout f (hfd ▸ lookup_of_openfiles hf), by rw [(h.file f (hs.ref_pos hc hf)).2]⟩

theorem Leaves.of_frame (h : Framed s t)
    (known : List ℕ) (pid : ℕ) : Leaves s t known pid := by
  refine ⟨fun q _ _ fd => congrFun h.1 _, fun x f _ _ => ?_⟩
  obtain ⟨o, e⟩ := h.2 f
  exact ⟨(s.file f).ref, o, by rw [e]⟩

end Files

namespace Kernel

variable {s t : Kernel ι} {pid : ℕ}

theorem Inv.leaves (h : s.Inv) {u : Files ι} {c : List (FileCall ι)} (hq : Quiet s.files u c) (hu : Held u 0)
    (hother : ∀ q ∈ s.procs.spawned, q ≠ pid → ∀ fd, u.openfiles (q, fd) = s.files.openfiles (q, fd)) :
    Files.Leaves s.files u s.procs.spawned pid := by
  refine ⟨hother, fun x f hf hf' => ⟨(u.file f).ref, (s.files.file f).off, ?_⟩⟩
  have hx : x.1 ∈ s.procs.spawned := by
    by_contra hno
    have := h.procs.unused x.1 x.2 hno
    rw [hf] at this
    cases this
  have hlt := h.procs.bound x.1 hx
  exact hq.file f (h.procs.held.ref_pos hlt hf) (hu.ref_pos hlt hf')

variable {u : UserCall ι} {r : Option Ret}

theorem Inv.leaves_of_does (h : s.Inv) (hd : Does s pid u t r) :
    Files.Leaves s.files t.files s.procs.spawned pid := by
  cases hd with
  | openFail | spawnFail | readFail | writeFail | exit | other => exact .refl _ _ _
  | «open» held quiet ret => exact h.leaves quiet held fun q _ hne fd => (ret.keeps held).other q fd hne
  | pipe held quiet ret => exact h.leaves quiet held fun q _ hne fd => (ret.keeps held).other q fd hne
  | close held quiet openfiles =>
    exact h.leaves quiet held fun q _ hne fd => (Files.keeps_close held openfiles).other q fd hne
  | @spawn _ _ _ _ procs child inv spawned fresh spawns =>
    exact h.leaves spawns.quiet spawns.held fun q hq _ fd => spawns.other q fd fun e => fresh (e ▸ hq)
  | read lookup ret =>
    simp only [Kernel.files, Kernel.readDone_procs]
    exact .of_frame (Files.fileRead_frame ret) _ _
  | write lookup ret =>
    simp only [Kernel.files, Kernel.writeDone_procs]
    exact .of_frame (Files.fileWrite_frame ret) _ _

theorem Inv.leaves_of_resume (h : s.Inv) (hp : pid ∈ s.procs.spawned) (he : s.resume pid = .ok (t, r)) :
    Files.Leaves s.files t.files s.procs.spawned pid ∧
      ∀ fd k w, t.files.Holds (pid, fd) k w → s.files.Holds (pid, fd) k w := by
  unfold Kernel.resume at he
  split at he
  · rename_i k n _
    rw [Except.ok.injEq] at he
    obtain rfl : (s.readDone pid n (s.files.pipeReadSeg k n)).1 = t := by rw [he]
    simp only [Kernel.files, Kernel.readDone_procs]
    obtain ⟨ho, hf⟩ := Files.pipeReadSeg_frame s.files k n
    exact ⟨.of_frame ⟨ho, fun g => ⟨(s.files.file g).off, by rw [hf]⟩⟩ _ _, fun _ _ _ => (Files.holds_pipeReadSeg _ k n).mp⟩
  · rename_i k n rest _
    rw [Except.ok.injEq] at he
    obtain rfl : (s.writeDone pid n (s.files.pipeWriteSeg k n rest)).1 = t := by rw [he]
    simp only [Kernel.files, Kernel.writeDone_procs]
    obtain ⟨ho, hf⟩ := Files.pipeWriteSeg_frame s.files k n rest
    exact ⟨.of_frame ⟨ho, fun g => ⟨(s.files.file g).off, by rw [hf]⟩⟩ _ _,
      fun _ _ _ => (Files.holds_pipeWriteSeg _ k n rest).mp⟩
  · rename_i fd fds _
    obtain ⟨u, c, hc, hheld, ho, hq⟩ := Files.closeFd_spec h.procs.held (h.procs.bound pid hp) fd
    simp only [Kernel.files, hc, bind, Except.bind, Except.ok.injEq, Prod.mk.injEq] at he
    obtain ⟨rfl, rfl⟩ := he
    refine ⟨h.leaves hq hheld fun q _ hne fd' => ?_, fun fd' k w hk => ((h.holds_close hq hheld ho).mp hk).2⟩
    show u.openfiles (q, fd') = s.files.openfiles (q, fd')
    rw [ho, Function.update_of_ne (by simp [hne])]
  · rw [Except.ok.injEq, Prod.mk.injEq] at he
    obtain ⟨rfl, rfl⟩ := he
    exact ⟨.refl _ _ _, fun _ _ _ => id⟩
  · rw [Except.ok.injEq, Prod.mk.injEq] at he
    obtain ⟨rfl, rfl⟩ := he
    exact ⟨.refl _ _ _, fun _ _ _ => id⟩

theorem Does.close_openfiles {c : ℕ} (hd : Does s pid (.close c) t r) (fd : Fin NOFILE) :
    t.files.openfiles (pid, fd) = if fd.val = c then none else s.files.openfiles (pid, fd) := by
  cases hd with
  | @close _ u _ _ held quiet openfiles =>
    show u.openfiles (pid, fd) = _
    rw [openfiles]
    split_ifs with hc e e
    · rw [show Fin.ofNat NOFILE c = fd from Fin.ext (by rw [Fin.val_ofNat, Nat.mod_eq_of_lt hc, e]), Function.update_self]
    · refine Function.update_of_ne (fun e' => e ?_) ..
      rw [(Prod.mk.inj e').2, Fin.val_ofNat, Nat.mod_eq_of_lt hc]
    · omega
    · rfl

theorem Does.spawned {x : Except Errno ℕ} (hd : Does s pid u t (some (.spawned x))) :
    ∃ e q i o, u = .spawn e q i o := by
  generalize hr : some (Ret.spawned x) = r at hd
  cases hd with
  | spawn | spawnFail => exact ⟨_, _, _, _, rfl⟩
  | @read _ _ _ _ _ seg =>
    obtain ⟨u, c, _ | _⟩ := seg <;> cases hr
  | @write _ _ _ _ _ seg =>
    obtain ⟨u, c, _ | _⟩ := seg <;> cases hr
  | _ => cases hr

theorem Inv.holds_of_does (h : s.Inv) (hd : Does s pid u t r)
    (hpipe : ∀ addr, u ≠ .pipe addr) (hspawn : ∀ e q i o, u ≠ .spawn e q i o) {x : ℕ × Fin NOFILE} {k : Fin NPIPE} {w : Bool}
    (hk : t.files.Holds x k w) : s.files.Holds x k w := by
  cases hd with
  | openFail | spawnFail | readFail | writeFail | exit | other => exact hk
  | «open» held quiet ret => exact (h.holds_open quiet held ret).mp hk
  | pipe => exact absurd rfl (hpipe _)
  | close held quiet openfiles =>
    split_ifs at openfiles
    · exact ((h.holds_close quiet held openfiles).mp hk).2
    · exact (h.holds_iff quiet held (congrFun openfiles x)).mp hk
  | spawn => exact absurd rfl (hspawn _ _ _ _)
  | read lookup ret =>
    simp only [Kernel.files, Kernel.readDone_procs] at hk
    exact (Files.holds_fileRead ret).mp hk
  | write lookup ret =>
    simp only [Kernel.files, Kernel.writeDone_procs] at hk
    exact (Files.holds_fileWrite ret).mp hk

theorem Inv.spawn_console (h : s.Inv) (hp : pid ∈ s.procs.spawned) {elfId child : ℕ} {quota : UInt32} {stdinFd stdoutFd : ℤ}
    (he : s.call pid (.spawn elfId quota stdinFd stdoutFd) = .ok (t, some (.spawned (.ok child))))
    (hroom : ∃ f, (t.files.file f).ref = 0) :
    (stdinFd = -1 → t.files.kind (child, 0) = some .consoleIn) ∧
      (stdoutFd = -1 → t.files.kind (child, 1) = some .consoleOut) := by
  simp only [Files.kind_eq_some]
  cases hs : spawnError s.procs.container pid elfId quota with
  | some e =>
    simp only [Kernel.call, Kernel.sysSpawn, hs, Except.ok.injEq, Prod.mk.injEq, Option.some.injEq, Ret.spawned.injEq] at he
    cases he.2
  | none =>
    obtain ⟨hn, hchild⟩ := child_lt_of_spawnError (h.procs.family.le_max _) hs
    have hfresh := h.procs.family.child_notMem hn
    obtain ⟨f, hf, -⟩ := h.procs.spawn hp hs stdinFd stdoutFd
    simp only [Kernel.call, Kernel.sysSpawn, hs, files, hf, bind, Except.bind, Except.ok.injEq, Prod.mk.injEq,
      Option.some.injEq, Ret.spawned.injEq] at he
    obtain ⟨rfl, rfl⟩ := he
    exact Files.spawnFds_console h.procs.held (h.procs.bound pid hp) hchild (fun fd => h.procs.unused _ fd hfresh) hf hroom

end Kernel

end MCertiKOS.FileSystem

namespace MCertiKOS.Shell

open FileSystem Memory Thread Relation

variable {ι : Type*}

/-! ### The pipeline -/

open scoped Words in
/-- The commands of `is_process_cmd`. -/
def processCmd (name : List UInt8) : Option Cmd :=
  if name = [76, 83] then some .ls
  else if name = [82, 79, 84, 49, 51] then some .rot13
  else if name ∈ processCmds then some .cat
  else none

/-- The first loop of `run_pipeline`, over `argv[0]` and `argc` of the stages. -/
def checkStages (parsed : List (List UInt8 × ℕ)) : Option (List Stage) :=
  parsed.mapM fun st => (processCmd st.1).map fun cmd => ⟨cmd, st.2⟩

/-- The shell calls `run_pipeline`, and `parse_pipeline` has returned. -/
def World.runPipeline (w : World ι) (parsed : List (List UInt8 × ℕ)) : World ι :=
  match checkStages parsed with
  | none => ⟨w.kernel, .done, []⟩
  | some stages => ⟨w.kernel, .top 0 (-1) stages, []⟩

/-- A step of the system while the shell is in `run_pipeline`: of the shell, of a stage or some other process, or of a
process that is in a call. -/
inductive World.Runs : World ι → World ι → Prop
  /-- The shell makes its next call. -/
  | shell {w : World ι} {u : UserCall ι} {k : Kernel ι} {r : Ret} (hplace : w.kernel.place SHELL = .user)
      (hu : w.shell.Calls u) (he : w.kernel.call SHELL u = .ok (k, some r)) :
      World.Runs w ⟨k, w.shell.next r, w.pids ++ launched r⟩
  /-- Another process makes a call. -/
  | process {w : World ι} {p : ℕ} {u : UserCall ι} {k : Kernel ι} {r : Option Ret} (hp : p ∈ w.kernel.procs.spawned)
      (hshell : p ≠ SHELL) (hu : p ∈ w.pids → StageCall u) (hplace : w.kernel.place p = .user)
      (he : w.kernel.call p u = .ok (k, r)) : World.Runs w { w with kernel := k }
  /-- A process goes on in a call. -/
  | resume {w : World ι} {p : ℕ} {k : Kernel ι} {r : Option Ret} (hp : p ∈ w.kernel.procs.spawned) (hshell : p ≠ SHELL)
      (he : w.kernel.resume p = .ok (k, r)) : World.Runs w { w with kernel := k }

variable {w v : World ι} {stages : List Stage} {a : At} {ps : List ℕ} {base : Fin NOFILE → Option (Fin NFILE)}

theorem World.Runs.step {w' : World ι} (h : World.Runs w w') : World.Step w w' := by
  cases h with
  | shell hplace hu he => exact .shell hplace hu he
  | @process p _ _ _ hp hshell hu hplace he =>
    by_cases hpids : p ∈ w.pids
    · exact .stage hpids hplace (hu hpids) he
    · exact .other hp hpids hshell hplace he
  | resume hp hshell he => exact .resume hp hshell he

/-! ### The shell's descriptors -/

def World.table (w : World ι) (fd : Fin NOFILE) : Option (Fin NFILE) := w.kernel.files.openfiles (SHELL, fd)

/-- The table `t` is `base` with the descriptors `fds` opened. -/
structure Table (base t : Fin NOFILE → Option (Fin NFILE)) (fds : List ℤ) : Prop where
  nodup : fds.Nodup
  opened : ∀ fd : Fin NOFILE, (fd.val : ℤ) ∈ fds → base fd = none ∧ t fd ≠ none
  same : ∀ fd : Fin NOFILE, (fd.val : ℤ) ∉ fds → t fd = base fd

namespace Table

variable {base t t' : Fin NOFILE → Option (Fin NFILE)} {fds fds' : List ℤ} {c : ℤ}

theorem perm (h : Table base t fds) (hp : fds.Perm fds') : Table base t fds' where
  nodup := hp.nodup_iff.mp h.nodup
  opened fd hfd := h.opened fd (hp.mem_iff.mpr hfd)
  same fd hfd := h.same fd fun hm => hfd (hp.mem_iff.mp hm)

theorem close (h : Table base t (c :: fds)) (ht : ∀ fd, t' fd = if (fd.val : ℤ) = c then none else t fd) :
    Table base t' fds := by
  obtain ⟨hc, hnodup⟩ := List.nodup_cons.mp h.nodup
  refine ⟨hnodup, fun fd hfd => ?_, fun fd hfd => ?_⟩
  · rw [ht, if_neg (ne_of_mem_of_not_mem hfd hc)]
    exact h.opened fd (List.mem_cons_of_mem _ hfd)
  · rw [ht]
    split_ifs with e
    · exact (h.opened fd (e ▸ List.mem_cons_self)).1.symm
    · exact h.same fd (by simp [e, hfd])

theorem close_again (h : Table base t []) (hc : ∀ fd : Fin NOFILE, (fd.val : ℤ) = c → base fd = none)
    (ht : ∀ fd, t' fd = if (fd.val : ℤ) = c then none else t fd) : Table base t' [] := by
  refine ⟨List.nodup_nil, nofun, fun fd hfd => ?_⟩
  rw [ht]
  split_ifs with e
  · exact (hc fd e).symm
  · exact h.same fd hfd

theorem «open» (h : Table base t fds) {c : Fin NOFILE} (hc : t c = none) {f : Fin NFILE}
    (ht : ∀ fd, t' fd = if fd = c then some f else t fd) : Table base t' (c.val :: fds) := by
  have hnew : (c.val : ℤ) ∉ fds := fun hm => (h.opened c hm).2 hc
  refine ⟨List.nodup_cons.mpr ⟨hnew, h.nodup⟩, fun fd hfd => ?_, fun fd hfd => ?_⟩
  · rw [ht]
    by_cases e : fd = c
    · rw [if_pos e, e]
      exact ⟨(h.same c hnew).symm.trans hc, Option.some_ne_none f⟩
    · rw [if_neg e]
      refine h.opened fd ((List.mem_cons.mp hfd).resolve_left fun e' => e (Fin.ext (by omega)))
  · rw [ht, if_neg (by rintro rfl; exact hfd List.mem_cons_self)]
    exact h.same fd fun hm => hfd (List.mem_cons_of_mem _ hm)

end Table

/-- The file that `launch_process_stage` has opened. -/
def At.fileFds : At → List ℤ
  | .spawn _ _ (some fd) => [(fd.val : ℤ)]
  | .closeFile _ fd _ => [(fd.val : ℤ)]
  | _ => []

def At.opened (a : At) : List ℤ := a.fileFds ++ a.ends.map Prod.fst

def Stage.HasFile (st : Stage) : Prop := st.argc = 2 ∧ st.cmd ≠ .ls

instance (st : Stage) : Decidable st.HasFile := inferInstanceAs (Decidable (_ ∧ _))

/-- The value of `in_fd` in iteration `i`. -/
def InFd (i : ℕ) (inFd : ℤ) : Prop := if i = 0 then inFd = -1 else 0 ≤ inFd

/-- The variables of an iteration are those of a stage of `stages`. -/
structure Iter.Fits (it : Iter) (stages : List Stage) : Prop where
  rest : stages.drop (it.i + 1) = it.rest
  inFd : InFd it.i it.inFd

/-- The variables are those of a stage of `stages`. -/
def At.Fits (stages : List Stage) : At → Prop
  | .pipe i st rest inFd => stages[i]? = some st ∧ stages.drop (i + 1) = rest ∧ InFd i inFd
  | .chdir st it => stages[it.i]? = some st ∧ it.Fits stages ∧ ¬ st.HasFile
  | .open st it => stages[it.i]? = some st ∧ it.Fits stages ∧ st.HasFile
  | .spawn st it file => stages[it.i]? = some st ∧ it.Fits stages ∧ (file = none ↔ ¬ st.HasFile)
  | .chdirBack it _ => it.Fits stages
  | .closeFile it _ _ => it.Fits stages
  | .closeIn it _ => it.Fits stages
  | .closeOut it _ => it.Fits stages
  | _ => True

namespace At

variable {stages : List Stage} {it : Iter}

theorem fits_afterIn (h : it.Fits stages) (pid : Option ℕ) : (afterIn it pid).Fits stages := by
  rcases pid with _ | pid <;> cases hp : it.pipefd <;> simp only [afterIn, hp]
  · trivial
  · trivial
  · split_ifs <;> trivial
  · exact h

theorem fits_returned (h : it.Fits stages) (pid : Option ℕ) : (returned it pid).Fits stages := by
  unfold returned
  split_ifs
  · exact h
  · exact fits_afterIn h pid

variable {st : Stage} {i : ℕ} {inFd : ℤ} {rest : List Stage}

theorem fits_launch (h : it.Fits stages) (hst : stages[it.i]? = some st) : (launch st it).Fits stages := by
  unfold launch
  split_ifs with h1 h2 h3
  · exact fits_returned h none
  · exact ⟨hst, h, fun hf => hf.2 h3⟩
  · exact ⟨hst, h, h2, h3⟩
  · exact ⟨hst, h, iff_of_true rfl fun hf => h2 hf.1⟩

theorem fits_top {l : List Stage} (hl : stages.drop i = l) (hi : InFd i inFd) :
    (top i inFd l).Fits stages := by
  have hcons : ∀ {st rest}, l = st :: rest → stages[i]? = some st ∧ stages.drop (i + 1) = rest := by
    rintro st rest rfl
    refine ⟨?_, ?_⟩
    · rw [← Nat.add_zero i, ← List.getElem?_drop, hl]
      rfl
    · rw [← List.drop_drop, hl]
      rfl
  rcases l with _ | ⟨st, _ | ⟨st', rest⟩⟩
  · unfold top
    split_ifs <;> trivial
  · obtain ⟨hst, hrest⟩ := hcons rfl
    exact fits_launch ⟨hrest, hi⟩ hst
  · obtain ⟨hst, hrest⟩ := hcons rfl
    exact ⟨hst, hrest, hi⟩

theorem fits_spawned (h : it.Fits stages) (st : Stage) (file : Option (Fin NOFILE)) (pid : Option ℕ) :
    (spawned st it file pid).Fits stages := by
  unfold spawned
  split_ifs
  · exact h
  · cases file with
    | none => exact fits_returned h pid
    | some fd => exact h

theorem fits_next {a : At} (h : a.Fits stages) (r : Ret) : (a.next r).Fits stages := by
  cases a with
  | pipe i st rest inFd =>
    obtain ⟨hst, hrest, hi⟩ := h
    cases r <;> try exact ⟨hst, hrest, hi⟩
    rename_i r
    cases r with
    | error e =>
      show (if 0 ≤ inFd then At.failPipe i inFd else .done).Fits stages
      split_ifs <;> trivial
    | ok p => exact fits_launch ⟨hrest, hi⟩ hst
  | chdir st it =>
    cases r <;> try exact h
    rename_i r
    show (if r < 0 then returned it none else .spawn st it none).Fits stages
    split_ifs
    · exact fits_returned h.2.1 none
    · exact ⟨h.1, h.2.1, iff_of_true rfl h.2.2⟩
  | «open» st it =>
    cases r <;> try exact h
    rename_i r
    cases r with
    | error e => exact fits_returned h.2.1 none
    | ok fd => exact ⟨h.1, h.2.1, iff_of_false nofun (not_not.mpr h.2.2)⟩
  | spawn st it file =>
    cases r <;> try exact h
    rename_i r
    cases r with
    | error e => exact fits_spawned h.2.1 st file none
    | ok pid => exact fits_spawned h.2.1 st file (some pid)
  | chdirBack it pid =>
    cases r <;> try exact h
    exact fits_returned h pid
  | closeFile it file pid =>
    cases r <;> try exact h
    exact fits_returned h pid
  | closeIn it pid =>
    cases r <;> try exact h
    exact fits_afterIn h pid
  | closeOut it p =>
    cases r <;> try exact h
    exact fits_top h.rest (by rw [InFd, if_neg (Nat.succ_ne_zero _)]; exact Int.natCast_nonneg _)
  | failRead | failWrite | failPipe | closeLast | done => cases r <;> trivial

theorem afterIn_fileFds (it : Iter) (pid : Option ℕ) : (afterIn it pid).fileFds = [] := by
  rcases pid with _ | pid <;> cases hp : it.pipefd <;> simp only [afterIn, hp] <;> try rfl
  split_ifs <;> rfl

theorem returned_fileFds (it : Iter) (pid : Option ℕ) : (returned it pid).fileFds = [] := by
  unfold returned
  split_ifs
  · rfl
  · exact afterIn_fileFds it pid

theorem returned_opened (it : Iter) (pid : Option ℕ) : (returned it pid).opened = it.ends.map Prod.fst := by
  rw [opened, returned_fileFds, returned_ends, List.nil_append]

theorem launch_fileFds (st : Stage) (it : Iter) : (launch st it).fileFds = [] := by
  unfold launch
  split_ifs
  · exact returned_fileFds it none
  all_goals rfl

theorem launch_opened (st : Stage) (it : Iter) : (launch st it).opened = it.ends.map Prod.fst := by
  rw [opened, launch_fileFds, launch_ends, List.nil_append]

theorem top_fileFds (i : ℕ) (inFd : ℤ) (rest : List Stage) : (top i inFd rest).fileFds = [] := by
  rcases rest with _ | ⟨st, _ | ⟨st', rest⟩⟩
  · unfold top
    split_ifs <;> rfl
  · exact launch_fileFds st _
  · rfl

theorem top_opened (h : rest ≠ []) :
    (top i inFd rest).opened = (inEnds i inFd).map Prod.fst := by
  rw [opened, top_fileFds, top_ends h, List.nil_append]

theorem spawned_opened {file : Option (Fin NOFILE)} (h : file = none ↔ ¬ st.HasFile) (it : Iter)
    (pid : Option ℕ) : (spawned st it file pid).opened = (At.spawn st it file).opened := by
  rw [opened, spawned_ends, opened]
  congr 1
  unfold spawned
  split_ifs with hls
  · rw [h.mpr fun hf => hf.2 hls.1]
    rfl
  · cases file with
    | none => exact returned_fileFds it pid
    | some fd => rfl

theorem returned_ne_closeLast (it : Iter) (pid : Option ℕ) (inFd : ℤ) : returned it pid ≠ .closeLast inFd := by
  unfold returned
  split_ifs with h0
  · intro e
    cases e
  · rcases pid with _ | pid <;> cases hp : it.pipefd <;> simp only [afterIn, hp, h0, if_false] <;> intro e <;> cases e

theorem launch_ne_closeLast (st : Stage) (it : Iter) (inFd : ℤ) : launch st it ≠ .closeLast inFd := by
  unfold launch
  split_ifs
  · exact returned_ne_closeLast it none inFd
  all_goals exact nofun

theorem top_ne_closeLast {c : ℤ} (h : rest ≠ []) (inFd : ℤ) : top i c rest ≠ .closeLast inFd := by
  rcases rest with _ | ⟨st, _ | ⟨st', rest⟩⟩
  · exact absurd rfl h
  · exact launch_ne_closeLast st _ inFd
  · exact nofun

theorem spawned_ne_closeLast (st : Stage) (it : Iter) (file : Option (Fin NOFILE)) (pid : Option ℕ) (inFd : ℤ) :
    spawned st it file pid ≠ .closeLast inFd := by
  unfold spawned
  split_ifs
  · exact nofun
  · cases file with
    | none => exact returned_ne_closeLast it pid inFd
    | some fd => exact nofun

end At

/-- The shell's table is `t` at `a`, and was `base` when `run_pipeline` was called. -/
structure Restores (base t : Fin NOFILE → Option (Fin NFILE)) (a : At) : Prop where
  table : Table base t a.opened
  last : ∀ inFd, a = .closeLast inFd → ∀ fd : Fin NOFILE, (fd.val : ℤ) = inFd → base fd = none

namespace Restores

variable {base t t' : Fin NOFILE → Option (Fin NFILE)} {it : Iter} {i : ℕ} {inFd : ℤ} {p : Fin NOFILE × Fin NOFILE}

theorem returned (h : Table base t (it.ends.map Prod.fst)) (pid : Option ℕ) : Restores base t (.returned it pid) :=
  ⟨by rwa [At.returned_opened], fun inFd e => absurd e (At.returned_ne_closeLast it pid inFd)⟩

theorem noPipe (h : Table base t ((inEnds i inFd).map Prod.fst)) :
    Restores base t (if 0 ≤ inFd then At.failPipe i inFd else .done) := by
  split_ifs with h0
  · exact ⟨h, fun _ e => by cases e⟩
  · rw [inEnds, if_neg h0] at h
    exact ⟨h, fun _ e => by cases e⟩

theorem pipe (h : Table base t ((inEnds i inFd).map Prod.fst)) (hne : p.1 ≠ p.2) (h1 : t p.1 = none) (h2 : t p.2 = none)
    {f0 f1 : Fin NFILE} (ht : ∀ fd, t' fd = if fd = p.2 then some f1 else if fd = p.1 then some f0 else t fd) (st : Stage)
    (rest : List Stage) : Restores base t' (.launch st ⟨i, rest, inFd, some p⟩) := by
  refine ⟨?_, fun inFd e => absurd e (At.launch_ne_closeLast st _ inFd)⟩
  have hread : Table base (fun fd => if fd = p.1 then some f0 else t fd) (p.1.val :: (inEnds i inFd).map Prod.fst) :=
    h.open h1 fun _ => rfl
  have hboth : Table base t' (p.2.val :: p.1.val :: (inEnds i inFd).map Prod.fst) :=
    hread.open (by rwa [if_neg hne.symm]) ht
  rw [At.launch_opened, Iter.ends, List.map_append]
  refine hboth.perm ?_
  exact (List.Perm.swap _ _ _).trans (@List.perm_append_comm _ [(p.1.val : ℤ), (p.2.val : ℤ)] _)

theorem closeIn (h : Table base t (it.ends.map Prod.fst)) (h0 : 0 ≤ it.inFd)
    (ht : ∀ fd, t' fd = if (fd.val : ℤ) = it.inFd then none else t fd) (pid : Option ℕ) :
    Restores base t' (.afterIn it pid) := by
  rw [Iter.ends, inEnds, if_pos h0, List.map_append] at h
  refine ⟨?_, fun inFd e fd hfd => ?_⟩
  · rw [At.opened, At.afterIn_fileFds, At.afterIn_ends]
    exact h.close ht
  · -- what is closed last is `in_fd`
    refine (h.opened fd ?_).1
    rcases pid with _ | pid <;> cases hp : it.pipefd <;> simp only [At.afterIn, hp, h0, if_true, reduceCtorEq] at e
    rw [hfd, ← At.closeLast.inj e]
    exact List.mem_cons_self

end Restores

/-- The shell in `run_pipeline`, called with the descriptor table `base`. -/
structure World.Piping (w : World ι) (stages : List Stage) (base : Fin NOFILE → Option (Fin NFILE)) : Prop where
  inv : w.Inv
  fits : w.shell.Fits stages
  restores : Restores base w.table w.shell

namespace World.Piping

variable {w : World ι} {stages : List Stage} {base : Fin NOFILE → Option (Fin NFILE)} {k : Kernel ι}

theorem table_close {c : ℤ} (hc : 0 ≤ c) {r : Option Ret} (hd : Kernel.Does w.kernel SHELL (.close c.toNat) k r)
    (fd : Fin NOFILE) : k.files.openfiles (SHELL, fd) = if (fd.val : ℤ) = c then none else w.table fd := by
  rw [hd.close_openfiles]
  congr 1
  exact propext ⟨fun e => by omega, fun e => by omega⟩

theorem restores_shell (h : w.Piping stages base) {u : UserCall ι} (hu : w.shell.Calls u) {ret : Ret}
    (hd : Kernel.Does w.kernel SHELL u k (some ret)) :
    Restores base (fun fd => k.files.openfiles (SHELL, fd)) (w.shell.next ret) := by
  have hok := h.inv.ok
  have ht := h.restores.table
  have hlast := h.restores.last
  have hfits := h.fits
  cases ha : w.shell with
  | pipe i st rest inFd =>
    rw [ha] at hu ht
    cases u <;> try exact hu.elim
    cases hd with
    | @pipe _ u c r held quiet ret =>
      rcases r with e | p
      · have hsame : (fun fd => u.openfiles (SHELL, fd)) = w.table := funext fun fd => congrFun ret _
        exact .noPipe (hsame ▸ ht)
      · obtain ⟨hne, h1, h2, f0, f1, k, -, -, -, -, ho⟩ := ret
        have hnew : ∀ fd, u.openfiles (SHELL, fd) = if fd = p.2 then some f1 else if fd = p.1 then some f0 else w.table fd := by
          intro fd
          rw [ho]
          simp only [Function.update_apply, Prod.mk.injEq, true_and]
          rfl
        exact .pipe ht hne h1 h2 hnew st rest
  | «open» st it =>
    rw [ha] at hu ht
    cases u <;> try exact hu.elim
    cases hd with
    | openFail => exact .returned ht none
    | @«open» _ _ u _ r held quiet ret =>
      rcases r with e | fd
      · have hsame : (fun fd => u.openfiles (SHELL, fd)) = w.table := funext fun fd => congrFun ret _
        exact .returned (hsame ▸ ht) none
      · obtain ⟨hnone, f, -, ho, -⟩ := ret
        refine ⟨ht.open hnone (f := f) fun fd' => ?_, fun _ e => by cases e⟩
        show u.openfiles (SHELL, fd') = _
        rw [ho]
        simp only [Function.update_apply, Prod.mk.injEq, true_and]
        rfl
  | spawn st it file =>
    rw [ha] at hu ht hfits
    obtain rfl : u = _ := hu
    have hsame : (fun fd => k.files.openfiles (SHELL, fd)) = w.table := funext fun fd => by
      cases hd with
      | spawnFail => rfl
      | spawn inv spawned fresh spawns =>
        exact spawns.other SHELL fd fun e => fresh (e ▸ h.inv.shell_mem)
    have hnext : ∀ pid, Restores base w.table (.spawned st it file pid) := fun pid =>
      ⟨by rwa [At.spawned_opened hfits.2.2], fun inFd e => absurd e (At.spawned_ne_closeLast st it file pid inFd)⟩
    rw [hsame]
    cases hd with
    | spawnFail => exact hnext none
    | spawn => exact hnext (some _)
  | chdir st it =>
    rw [ha] at hu ht
    cases u <;> try exact hu.elim
    rename_i r
    cases hd with
    | other =>
      show Restores base w.table (if r < 0 then .returned it none else .spawn st it none)
      split_ifs
      · exact .returned ht none
      · exact ⟨ht, fun _ e => by cases e⟩
  | chdirBack it pid =>
    rw [ha] at hu ht
    cases u <;> try exact hu.elim
    cases hd with
    | other => exact .returned ht pid
  | closeFile it file pid =>
    rw [ha] at hu ht
    obtain rfl : u = _ := hu
    obtain ⟨e, rfl⟩ := hd.closed
    exact .returned (ht.close (table_close (Int.natCast_nonneg file.val) hd)) pid
  | closeIn it pid =>
    rw [ha] at hu ht hok
    obtain rfl : u = _ := hu
    obtain ⟨e, rfl⟩ := hd.closed
    exact .closeIn ht hok.2.2 (table_close hok.2.2 hd) pid
  | closeOut it p =>
    rw [ha] at hu ht hok
    obtain ⟨-, hit, hp⟩ := hok
    obtain rfl : u = _ := hu
    obtain ⟨e, rfl⟩ := hd.closed
    have hrest : it.rest ≠ [] := fun e => by
      rw [hit.pipefd.mpr e] at hp
      cases hp
    refine ⟨?_, fun inFd e => absurd e (At.top_ne_closeLast hrest inFd)⟩
    show Table base _ (At.top (it.i + 1) p.1.val it.rest).opened
    rw [At.top_opened hrest, inEnds, if_pos (Int.natCast_nonneg _)]
    exact (ht.perm (List.Perm.swap _ _ _)).close (table_close (Int.natCast_nonneg p.2.val) hd)
  | failRead i p =>
    rw [ha] at hu ht
    obtain rfl : u = _ := hu
    obtain ⟨e, rfl⟩ := hd.closed
    exact ⟨ht.close (table_close (Int.natCast_nonneg p.1.val) hd), fun _ e => by cases e⟩
  | failWrite i p =>
    rw [ha] at hu ht
    obtain rfl : u = _ := hu
    obtain ⟨e, rfl⟩ := hd.closed
    exact ⟨ht.close (table_close (Int.natCast_nonneg p.2.val) hd), fun _ e => by cases e⟩
  | failPipe i inFd =>
    rw [ha] at hu ht hok
    obtain rfl : u = _ := hu
    obtain ⟨e, rfl⟩ := hd.closed
    have hin : Table base w.table [inFd] := by
      simpa [At.opened, At.fileFds, At.ends, inEnds, hok.2] using ht
    exact ⟨hin.close (table_close hok.2 hd), fun _ e => by cases e⟩
  | closeLast inFd =>
    rw [ha] at hu ht hok
    obtain rfl : u = _ := hu
    obtain ⟨e, rfl⟩ := hd.closed
    exact ⟨ht.close_again (hlast inFd ha) (table_close hok hd), fun _ e => by cases e⟩
  | done =>
    rw [ha] at hu
    cases u <;> exact hu.elim

theorem of_leaves (h : w.Piping stages base) {p : ℕ} (hp : p ≠ SHELL)
    (hl : Files.Leaves w.kernel.files k.files w.kernel.procs.spawned p) (hi : World.Inv { w with kernel := k }) :
    World.Piping { w with kernel := k } stages base := by
  refine ⟨hi, h.fits, ?_⟩
  have hsame : World.table { w with kernel := k } = w.table := funext fun fd =>
    hl.other SHELL h.inv.shell_mem hp.symm fd
  rw [hsame]
  exact h.restores

theorem step (h : w.Piping stages base) {w' : World ι} (hs : World.Runs w w') : w'.Piping stages base := by
  have hi := h.inv.step hs.step
  cases hs with
  | shell hplace hu he =>
    exact ⟨hi, At.fits_next h.fits _, h.restores_shell hu (h.inv.kernel.does h.inv.shell_mem he)⟩
  | process hp hshell hu hplace he => exact h.of_leaves hshell (h.inv.kernel.leaves_of_does (h.inv.kernel.does hp he)) hi
  | resume hp hshell he => exact h.of_leaves hshell (h.inv.kernel.leaves_of_resume hp he).1 hi

theorem start (h : w.Inv) (hdone : w.shell = .done) (stages : List Stage) :
    World.Piping ⟨w.kernel, .top 0 (-1) stages, []⟩ stages w.table := by
  refine ⟨h.step (.run stages hdone), At.fits_top List.drop_zero rfl, ?_, ?_⟩
  · have hnone : (At.top 0 (-1) stages).opened = [] := by
      by_cases hn : stages = []
      · rw [hn]
        rfl
      · rw [At.top_opened hn]
        rfl
    rw [hnone]
    exact ⟨List.nodup_nil, nofun, fun _ _ => rfl⟩
  · intro inFd e
    by_cases hn : stages = []
    · rw [hn] at e
      cases e
    · exact absurd e (At.top_ne_closeLast hn inFd)

end World.Piping

/-! ### The descriptors of the stages -/

/-- The descriptors of stage `i`, process `p`, which has closed none of them if `kept`. -/
structure StageFds (s : Files ι) (stages : List Stage) (kept : Prop) (i p : ℕ) : Prop where
  /-- It reads from descriptor `0` and writes to descriptor `1`. -/
  ends : ∀ fd k b, s.Holds (p, fd) k b → fd = if b then 1 else 0
  file : ∀ st, stages[i]? = some st → st.HasFile → ∀ fd k, ¬ s.Holds (p, fd) k false
  stdin : kept → ∀ st, stages[i]? = some st →
    s.kind (p, 0) = some (if st.HasFile then .inode else if i = 0 then .consoleIn else .pipe)
  stdout : kept → s.kind (p, 1) = some (if i + 1 = stages.length then .consoleOut else .pipe)

theorem StageFds.step {s t : Files ι} {kept : Prop} {i p q : ℕ} {known : List ℕ}
    (h : StageFds s stages kept i p) (hl : Files.Leaves s t known q)
    (hholds : ∀ fd k b, t.Holds (p, fd) k b → s.Holds (p, fd) k b)
    (hkeep : kept → ∀ fd, s.openfiles (p, fd) ≠ none → t.openfiles (p, fd) = s.openfiles (p, fd)) :
    StageFds t stages kept i p := by
  have hkind : kept → ∀ fd type, s.kind (p, fd) = some type → t.kind (p, fd) = some type := by
    intro hk fd type ht
    obtain ⟨f, hf, -⟩ := Files.kind_eq_some.mp ht
    rw [hl.kind_eq (hkeep hk fd (by simp [hf])), ht]
  exact ⟨fun fd k b hx => h.ends fd k b (hholds fd k b hx), fun st hst hf fd k hx => h.file st hst hf fd k (hholds fd k _ hx),
    fun hk st hst => hkind hk _ _ (h.stdin hk st hst), fun hk => hkind hk _ _ (h.stdout hk)⟩

/-- The processes `ps` close nothing in the step. -/
def World.Keeps (ps : List ℕ) (w w' : World ι) : Prop :=
  ∀ p ∈ ps, ∀ fd, w.kernel.files.openfiles (p, fd) ≠ none → w'.kernel.files.openfiles (p, fd) = w.kernel.files.openfiles (p, fd)

def World.Room (w : World ι) : Prop := ∃ f, (w.kernel.files.file f).ref = 0

/-- A step after which the file table is not full and in which the processes `ps` close nothing. -/
def World.RunsKeeping (ps : List ℕ) (w w' : World ι) : Prop := World.Runs w w' ∧ w'.Room ∧ World.Keeps ps w w'

/-- The stages have the descriptors they are meant to have. -/
structure World.Wired (w : World ι) (stages : List Stage) (ps : List ℕ) : Prop where
  file : ∀ st it fd, w.shell = .spawn st it (some fd) → w.kernel.files.kind (SHELL, fd) = some .inode
  stage : ∀ i p, w.pids[i]? = some p → StageFds w.kernel.files stages (p ∈ ps) i p

theorem At.ne_spawn_of_fileFds (h : a.fileFds = []) (st : Stage) (it : Iter) (fd : Fin NOFILE) :
    a ≠ .spawn st it (some fd) := by
  rintro rfl
  cases h

theorem At.open_of_next {r : Ret} {st : Stage} {it : Iter} {fd : Fin NOFILE} (ha : a.next r = .spawn st it (some fd))
    (hr : ∀ st it file, a = .spawn st it file → ∃ x, r = .spawned x) : a = .open st it ∧ r = .opened (.ok fd) := by
  cases a with
  | pipe i st' rest inFd =>
    cases r <;> try cases ha
    rename_i r
    cases r with
    | error e =>
      unfold At.next at ha
      dsimp only at ha
      split_ifs at ha
    | ok p => exact absurd ha (ne_spawn_of_fileFds (launch_fileFds _ _) st it fd)
  | chdir st' it' =>
    cases r <;> try cases ha
    unfold At.next at ha
    dsimp only at ha
    split_ifs at ha
    · exact absurd ha (ne_spawn_of_fileFds (returned_fileFds _ _) st it fd)
    · cases ha
  | «open» st' it' =>
    cases r <;> try cases ha
    rename_i r
    cases r with
    | error e => exact absurd ha (ne_spawn_of_fileFds (returned_fileFds _ _) st it fd)
    | ok fd' =>
      cases ha
      exact ⟨rfl, rfl⟩
  | spawn st' it' file =>
    obtain ⟨x, rfl⟩ := hr st' it' file rfl
    have hne : ∀ pid, At.spawned st' it' file pid ≠ .spawn st it (some fd) := by
      intro pid
      unfold At.spawned
      split_ifs
      · exact nofun
      · cases file with
        | none => exact ne_spawn_of_fileFds (returned_fileFds _ _) st it fd
        | some fd' => exact nofun
    cases x with
    | error e => exact absurd ha (hne none)
    | ok pid => exact absurd ha (hne (some pid))
  | chdirBack it' pid | closeFile it' file pid =>
    cases r <;> try cases ha
    exact absurd ha (ne_spawn_of_fileFds (returned_fileFds _ _) st it fd)
  | closeIn it' pid =>
    cases r <;> try cases ha
    exact absurd ha (ne_spawn_of_fileFds (afterIn_fileFds _ _) st it fd)
  | closeOut it' p =>
    cases r <;> try cases ha
    exact absurd ha (ne_spawn_of_fileFds (top_fileFds _ _ _) st it fd)
  | failRead | failWrite | failPipe | closeLast | done => cases r <;> cases ha

theorem At.spawn_of_calls {e : ℕ} {q : UInt32} {i o : ℤ} (h : a.Calls (.spawn e q i o : UserCall ι)) :
    ∃ st it file, a = .spawn st it file := by
  cases a with
  | spawn st it file => exact ⟨st, it, file, rfl⟩
  | _ => cases h

namespace World.Wired

variable {w w' : World ι} {stages : List Stage} {ps : List ℕ} {base : Fin NOFILE → Option (Fin NFILE)} {k : Kernel ι}

variable {q : ℕ}

section

variable (h : w.Wired stages ps)
include h

theorem stage_step (hi : w.Inv)
    (hl : Files.Leaves w.kernel.files k.files w.kernel.procs.spawned q)
    (hself : ∀ fd j b, q ∈ w.pids → k.files.Holds (q, fd) j b → w.kernel.files.Holds (q, fd) j b)
    (hkeep : ∀ p ∈ ps, ∀ fd, w.kernel.files.openfiles (p, fd) ≠ none →
      k.files.openfiles (p, fd) = w.kernel.files.openfiles (p, fd)) {i p : ℕ} (hp : w.pids[i]? = some p) :
    StageFds k.files stages (p ∈ ps) i p := by
  have hmem := List.mem_of_getElem? hp
  refine (h.stage i p hp).step hl (fun fd j b hx => ?_) fun hk => hkeep p hk
  by_cases e : p = q
  · subst e
    exact hself fd j b hmem hx
  · exact (hl.holds_iff (hl.other p (hi.mem p hmem) e fd)).mp hx

theorem of_leaves (hi : w.Inv) (hq : q ≠ SHELL)
    (hl : Files.Leaves w.kernel.files k.files w.kernel.procs.spawned q)
    (hself : ∀ fd j b, q ∈ w.pids → k.files.Holds (q, fd) j b → w.kernel.files.Holds (q, fd) j b)
    (hkeep : World.Keeps ps w { w with kernel := k }) : World.Wired { w with kernel := k } stages ps := by
  refine ⟨fun st it fd ha => ?_, fun i p hp => h.stage_step hi hl hself hkeep hp⟩
  rw [hl.kind_eq (hl.other SHELL hi.shell_mem hq.symm fd)]
  exact h.file st it fd ha

theorem stage_spawn (hi : w.Inv) (hfits : w.shell.Fits stages) {st : Stage} {it : Iter}
    {file : Option (Fin NOFILE)} (ha : w.shell = .spawn st it file) {child : ℕ} (fresh : child ∉ w.kernel.procs.spawned)
    (spawns : Files.Spawns w.kernel.files k.files SHELL child (it.inputFd file) it.outFd)
    (hin : it.inputFd file = -1 → k.files.kind (child, 0) = some .consoleIn)
    (hout : it.outFd = -1 → k.files.kind (child, 1) = some .consoleOut) :
    StageFds k.files stages (child ∈ ps) it.i child := by
  have hok := hi.ok
  obtain ⟨label, hl⟩ := hi.topology
  rw [ha] at hok hl hfits
  obtain ⟨-, hit, -⟩ := hok
  obtain ⟨hst, ⟨hrest, hinFd⟩, hfile⟩ := hfits
  have hheld := hi.kernel.procs.held
  have hlt := hi.kernel.procs.bound _ hi.shell_mem
  -- the read end of the pipe before
  have hread : 0 ≤ it.inFd → (it.inFd, it.i - 1, false) ∈ (At.spawn st it file).ends := fun h0 => by
    simp [At.ends, Iter.ends, mem_inEnds, h0]
  -- the write end of the pipe after
  have hwrite : ∀ p, it.pipefd = some p → ((p.2.val : ℤ), it.i, true) ∈ (At.spawn st it file).ends := fun p hp => by
    simp [At.ends, Iter.ends, mem_pipeEnds, hp]
  -- the descriptors the child gets an end with
  have hends : ∀ fd j b, k.files.Holds (child, fd) j b → fd = 0 ∧ b = false ∧ file = none ∨ fd = 1 ∧ b = true := by
    intro fd j b hx
    rcases (hi.kernel.holds_spawn hi.shell_mem fresh spawns).mp hx with hx | ⟨e, hat⟩ | ⟨e, hat⟩
    · exact absurd (hi.kernel.mem_of_holds hx) fresh
    · obtain ⟨fd', hfd', hk⟩ := Files.holdsAt_iff.mp hat
      obtain ⟨i, -, he⟩ := hl.shell_label hk
      cases file with
      | some fd1 =>
        obtain rfl : fd' = fd1 := Fin.ext (by rw [Iter.inputFd] at hfd'; omega)
        have := h.file st it fd' ha
        rw [hk.kind] at this
        cases this
      | none =>
        rw [Iter.inputFd] at hfd'
        obtain ⟨-, rfl⟩ := hl.ends_unique (hfd' ▸ he) (hread (by omega))
        exact .inl ⟨(Prod.mk.inj e).2, rfl, rfl⟩
    · obtain ⟨fd', hfd', hk⟩ := Files.holdsAt_iff.mp hat
      obtain ⟨i, -, he⟩ := hl.shell_label hk
      cases hp : it.pipefd with
      | none =>
        rw [Iter.outFd, hp] at hfd'
        dsimp only at hfd'
        omega
      | some p =>
        rw [Iter.outFd, hp] at hfd'
        obtain ⟨-, rfl⟩ := hl.ends_unique (hfd' ▸ he) (hwrite p hp)
        exact .inr ⟨(Prod.mk.inj e).2, rfl⟩
  refine ⟨fun fd j b hx => ?_, fun st' hst' hf fd j hx => ?_, fun _ st' hst' => ?_, fun _ => ?_⟩
  · rcases hends fd j b hx with ⟨rfl, rfl, -⟩ | ⟨rfl, rfl⟩ <;> rfl
  · obtain rfl : st = st' := Option.some.inj (hst.symm.trans hst')
    rcases hends fd j false hx with ⟨-, -, e⟩ | ⟨-, e⟩
    · exact hfile.mp e hf
    · cases e
  · obtain rfl : st = st' := Option.some.inj (hst.symm.trans hst')
    cases file with
    | some fd =>
      rw [if_pos (not_not.mp fun hf => Option.some_ne_none fd (hfile.mpr hf))]
      exact Files.Spawns.kind_stdin spawns hheld hlt rfl (h.file st it fd ha)
    | none =>
      rw [if_neg (hfile.mp rfl)]
      unfold InFd at hinFd
      split_ifs at hinFd ⊢ with h0
      · exact hin hinFd
      · obtain ⟨fd, hfd, j, hk, -⟩ := (hl.shell _ _ _).mp (hread hinFd)
        exact Files.Spawns.kind_stdin spawns hheld hlt hfd hk.kind
  · cases hp : it.pipefd with
    | none =>
      have hlast : it.i + 1 = stages.length := by
        have h1 := (List.getElem?_eq_some_iff.mp hst).1
        have h2 := List.drop_eq_nil_iff.mp (hrest.trans (hit.pipefd.mp hp))
        omega
      rw [if_pos hlast]
      exact hout (by rw [Iter.outFd, hp])
    | some p =>
      have hmore : it.i + 1 ≠ stages.length := by
        intro e
        rw [e, List.drop_length] at hrest
        rw [hit.pipefd.mpr hrest.symm] at hp
        cases hp
      obtain ⟨fd, hfd, j, hk, -⟩ := (hl.shell _ _ _).mp (hwrite p hp)
      rw [if_neg hmore]
      exact Files.Spawns.kind_stdout spawns hheld hlt (by rw [Iter.outFd, hp, hfd]) hk.kind

theorem shell (hi : w.Inv) (hfits : w.shell.Fits stages) {u : UserCall ι} {r : Ret}
    (hu : w.shell.Calls u) (he : w.kernel.call SHELL u = .ok (k, some r)) (hroom : ∃ f, (k.files.file f).ref = 0)
    (hkeep : ∀ p ∈ ps, ∀ fd, w.kernel.files.openfiles (p, fd) ≠ none →
      k.files.openfiles (p, fd) = w.kernel.files.openfiles (p, fd)) :
    World.Wired ⟨k, w.shell.next r, w.pids ++ launched r⟩ stages ps := by
  have hd := hi.kernel.does hi.shell_mem he
  have hl := hi.kernel.leaves_of_does hd
  have hold : ∀ {i p}, w.pids[i]? = some p → StageFds k.files stages (p ∈ ps) i p :=
    h.stage_step hi hl (fun _ _ _ hm => absurd hm hi.ne) hkeep
  refine ⟨fun st it fd ha => ?_, fun i p hp => ?_⟩
  · obtain ⟨ha', rfl⟩ := At.open_of_next ha fun st it file ha' => by
      rw [ha'] at hu
      obtain rfl : u = _ := hu
      cases hd
      · exact ⟨_, rfl⟩
      · exact ⟨_, rfl⟩
    rw [ha'] at hu
    cases u <;> try exact hu.elim
    cases hd with
    | @«open» _ _ t _ _ held quiet ret =>
      obtain ⟨-, f, -, ho, hf⟩ := ret
      exact Files.kind_eq_some.mpr ⟨f, by rw [Kernel.files, Kernel.after, ho, Function.update_self], by rw [Kernel.files, Kernel.after, hf]⟩
  · by_cases hlt : i < w.pids.length
    · rw [List.getElem?_append_left hlt] at hp
      exact hold hp
    · -- the stage that this call has launched
      rw [List.getElem?_append_right (by omega)] at hp
      obtain rfl : r = .spawned (.ok p) := by
        cases r <;> try cases hp
        rename_i x
        cases x with
        | error e => cases hp
        | ok pid =>
          have := List.mem_of_getElem? hp
          rw [launched, List.mem_singleton] at this
          rw [this]
      obtain hi0 : i = w.pids.length := by
        have := (List.getElem?_eq_some_iff.mp hp).1
        rw [launched, List.length_singleton] at this
        omega
      obtain ⟨e, q, i', o, rfl⟩ := hd.spawned
      obtain ⟨st, it, file, ha⟩ := At.spawn_of_calls hu
      have hok := hi.ok
      rw [ha] at hu hok
      cases hu
      obtain ⟨hin, hout⟩ := hi.kernel.spawn_console hi.shell_mem he hroom
      cases hd with
      | spawn inv spawned fresh spawns =>
        rw [hi0, hok.1]
        exact h.stage_spawn hi hfits ha fresh spawns hin hout

theorem step (hp : w.Piping stages base) (hs : World.RunsKeeping ps w w') : w'.Wired stages ps := by
  obtain ⟨hs, hroom, hkeep⟩ := hs
  cases hs with
  | shell hplace hu he => exact h.shell hp.inv hp.fits hu he hroom hkeep
  | @process q u _ _ hq hshell hu hplace he =>
    have hd := hp.inv.kernel.does hq he
    refine h.of_leaves hp.inv hshell (hp.inv.kernel.leaves_of_does hd) (fun fd j b hm => ?_) hkeep
    have hcall := hu hm
    refine hp.inv.kernel.holds_of_does hd ?_ ?_
    · rintro addr rfl
      exact hcall
    · rintro e n i o rfl
      exact hcall
  | resume hq hshell he =>
    obtain ⟨hl, hself⟩ := hp.inv.kernel.leaves_of_resume hq he
    exact h.of_leaves hp.inv hshell hl (fun fd j b _ => hself fd j b) hkeep

end

theorem start (stages : List Stage) (ps : List ℕ) : World.Wired ⟨k, .top 0 (-1) stages, []⟩ stages ps :=
  ⟨fun st it fd ha => absurd ha (At.ne_spawn_of_fileFds (At.top_fileFds _ _ _) st it fd), nofun⟩

end World.Wired

/-- Pipe `j` of the pipeline is the one labelled `j`; the processes `ps` have closed nothing. -/
structure Wires (s : Files ι) (stages : List Stage) (pids ps : List ℕ) (label : Fin NPIPE → Option ℕ) : Prop where
  one : ∀ x y k k' b b' j, s.Holds x k b → s.Holds y k' b' → label k = some j → label k' = some j → k = k'
  /-- Its write end is standard output of stage `j`, and nobody else has it. -/
  write : ∀ x k j, label k = some j → s.Holds x k true → pids[j]? = some x.1 ∧ x.2 = 1
  /-- Its read end is standard input of stage `j + 1`, which has no file argument, and nobody else has it. -/
  read : ∀ x k j, label k = some j → s.Holds x k false →
    pids[j + 1]? = some x.1 ∧ x.2 = 0 ∧ ∀ st, stages[j + 1]? = some st → ¬ st.HasFile
  stdin : ∀ (i p : ℕ) (st : Stage), pids[i]? = some p → p ∈ ps → stages[i]? = some st →
    if st.HasFile then s.kind (p, 0) = some .inode
    else if i = 0 then s.kind (p, 0) = some .consoleIn
    else ∃ k, label k = some (i - 1) ∧ s.Holds (p, 0) k false
  stdout : ∀ i p : ℕ, pids[i]? = some p → p ∈ ps →
    if i + 1 = stages.length then s.kind (p, 1) = some .consoleOut else ∃ k, label k = some i ∧ s.Holds (p, 1) k true

theorem World.Wired.wires (h : w.Wired stages ps) (hi : w.Inv)
    (hdone : w.shell = .done) : ∃ label, Wires w.kernel.files stages w.pids ps label := by
  obtain ⟨label, hl⟩ := hi.topology
  have hmay : ∀ x k b j, label k = some j → w.kernel.files.Holds x k b → w.pids[if b then j else j + 1]? = some x.1 := by
    rintro ⟨p, fd⟩ k b j hj hx
    have := hl.may _ k b hx
    rw [hj] at this
    refine this.resolve_left ?_
    rintro rfl
    exact hi.not_holds hdone fd k b hx
  have hinv := hi.kernel.procs.held.inv
  refine ⟨label, hl.inj, fun x k j hj hx => ?_, fun x k j hj hx => ?_, fun i p st hp hps hst => ?_, fun i p hp hps => ?_⟩
  · have hp := hmay x k true j hj hx
    exact ⟨hp, (h.stage j x.1 hp).ends x.2 k true hx⟩
  · have hp := hmay x k false j hj hx
    have hs := h.stage (j + 1) x.1 hp
    exact ⟨hp, hs.ends x.2 k false hx, fun st hst hf => hs.file st hst hf x.2 k hx⟩
  · have hs := h.stage i p hp
    have hkind := hs.stdin hps st hst
    split_ifs at hkind ⊢ with hf h0
    · exact hkind
    · exact hkind
    · obtain ⟨k, b, hk⟩ := Files.exists_holds_of_kind hinv hkind
      cases b with
      | true => exact absurd (hs.ends 0 k true hk) (by decide)
      | false =>
        obtain ⟨j, hj, e⟩ := hi.label_of_holds hl hp hk
        exact ⟨k, by rw [hj, e]; rfl, hk⟩
  · have hs := h.stage i p hp
    have hkind := hs.stdout hps
    split_ifs at hkind ⊢
    · exact hkind
    · obtain ⟨k, b, hk⟩ := Files.exists_holds_of_kind hinv hkind
      cases b with
      | false => exact absurd (hs.ends 1 k false hk) (by decide)
      | true =>
        obtain ⟨j, hj, e⟩ := hi.label_of_holds hl hp hk
        exact ⟨k, by rw [hj, e]; rfl, hk⟩

theorem World.Piping.reach
    (h : w.Piping stages base) (hv : ReflTransGen World.Runs w v) : v.Piping stages base := by
  induction hv with
  | refl => exact h
  | tail _ hst ih => exact ih.step hst

theorem World.Wired.reach
    (h : w.Wired stages ps) (hp : w.Piping stages base) (hv : ReflTransGen (World.RunsKeeping ps) w v) :
    v.Wired stages ps ∧ v.Piping stages base := by
  induction hv with
  | refl => exact ⟨h, hp⟩
  | tail _ hst ih => exact ⟨ih.1.step ih.2 hst, ih.2.step hst.1⟩

/-- `run_pipeline` restores the shell's descriptor table, whatever fails in it, and whatever other processes do. While the
file table is never full, the pipes are between the stages they are meant to be between; a stage that is launched and has
closed nothing has its two ends, and the first and the last stage have their file or the console. -/
theorem run_pipeline_descriptors (quota : UInt32) (w : World ι) (h : ReflTransGen World.Step (World.boot quota) w)
    (hdone : w.shell = .done) (parsed : List (List UInt8 × ℕ)) :
    (∀ v, ReflTransGen World.Runs (w.runPipeline parsed) v → v.shell = .done → v.table = w.table) ∧
    ∀ stages, checkStages parsed = some stages → ∀ ps v, ReflTransGen (World.RunsKeeping ps) (w.runPipeline parsed) v →
      v.shell = .done → ∃ label, Wires v.kernel.files stages v.pids ps label := by
  have hi := World.inv_of_reach h
  refine ⟨fun v hv hd => ?_, fun stages hs ps v hv hd => ?_⟩
  · have hstart : ∃ stages, (w.runPipeline parsed).Piping stages w.table := by
      unfold World.runPipeline
      cases checkStages parsed with
      | none => exact ⟨[], .start hi hdone []⟩
      | some stages => exact ⟨stages, .start hi hdone stages⟩
    obtain ⟨stages, hp⟩ := hstart
    have htable := (hp.reach hv).restores.table
    rw [hd] at htable
    exact funext fun fd => htable.same fd List.not_mem_nil
  · rw [World.runPipeline, hs] at hv
    obtain ⟨hw, hp⟩ := World.Wired.reach (.start stages ps) (.start hi hdone stages) hv
    exact hw.wires hp.inv hd

/-- The shell makes call `u`, and the processes `ps` close nothing. -/
def World.shellKeeping (ps : List ℕ) (w : World Unit) (u : UserCall Unit) : Option (World Unit) :=
  (w.move (.shell u)).filter fun w' =>
    decide ((∃ f, (w'.kernel.files.file f).ref = 0) ∧ ∀ p ∈ ps, ∀ fd, w.kernel.files.openfiles (p, fd) ≠ none →
      w'.kernel.files.openfiles (p, fd) = w.kernel.files.openfiles (p, fd))

theorem World.reach_of_shellKeeping {w v : World Unit} {us : List (UserCall Unit)}
    (h : us.foldlM (World.shellKeeping ps) w = some v) : ReflTransGen (World.RunsKeeping ps) w v := by
  induction us generalizing w with
  | nil =>
    cases h
    exact .refl
  | cons u us ih =>
    obtain ⟨w1, h1, h2⟩ := Option.bind_eq_some_iff.mp h
    obtain ⟨hm, hkeep⟩ := Option.filter_eq_some_iff.mp h1
    have hrun : World.Runs w w1 := by
      rw [World.move, Option.ite_none_right_eq_some] at hm
      obtain ⟨⟨hplace, hu⟩, hm⟩ := hm
      split at hm
      · rename_i k r he
        cases hm
        exact .shell hplace hu he
      · cases hm
    have hkept := of_decide_eq_true hkeep
    exact .head ⟨hrun, hkept⟩ (ih h2)

/-- The calls of the shell for `CAT | ROT13`. -/
def catRot13 : List (UserCall Unit) :=
  [.pipe 0x40000000, .spawn 6 200 (-1) 4, .close 4, .spawn 7 200 3 (-1), .close 3, .close 3]

theorem run_pipeline_descriptors_catRot13 :
    let w : World Unit := World.boot 300000
    ∃ v, catRot13.foldlM (World.shellKeeping [511, 512]) (w.runPipeline [([67, 65, 84], 1), ([82, 79, 84, 49, 51], 1)]) =
        some v ∧ v.pids = [511, 512] ∧ v.table = w.table ∧
      ∃ label k, label k = some 0 ∧ v.kernel.files.Holds (511, 1) k true ∧ v.kernel.files.Holds (512, 0) k false ∧
        Wires v.kernel.files [⟨.cat, 1⟩, ⟨.rot13, 1⟩] v.pids [511, 512] label := by
  intro w
  have hrun : (catRot13.foldlM (World.shellKeeping [511, 512])
      (w.runPipeline [([67, 65, 84], 1), ([82, 79, 84, 49, 51], 1)])).map (fun v => (v.pids, v.shell)) =
        some ([511, 512], .done) := by
    decide +kernel
  obtain ⟨v, hv, hrun⟩ := Option.map_eq_some_iff.mp hrun
  simp only [Prod.mk.injEq] at hrun
  obtain ⟨hpids, hdone⟩ := hrun
  have hreach := World.reach_of_shellKeeping hv
  obtain ⟨htable, hwires⟩ := run_pipeline_descriptors 300000 w .refl rfl [([67, 65, 84], 1), ([82, 79, 84, 49, 51], 1)]
  obtain ⟨label, hw⟩ := hwires [⟨.cat, 1⟩, ⟨.rot13, 1⟩] (by decide) _ v hreach hdone
  obtain ⟨k, hk, hwrite⟩ : ∃ k, label k = some 0 ∧ v.kernel.files.Holds (511, 1) k true :=
    hw.stdout 0 511 (by rw [hpids]; rfl) (by simp)
  obtain ⟨k', hk', hread⟩ : ∃ k, label k = some 0 ∧ v.kernel.files.Holds (512, 0) k false :=
    hw.stdin 1 512 ⟨.rot13, 1⟩ (by rw [hpids]; rfl) (by simp) rfl
  obtain rfl := hw.one _ _ k k' _ _ 0 hwrite hread hk hk'
  exact ⟨v, hv, hpids, htable v (hreach.lift id fun _ _ hs => hs.1) hdone, label, k, hk, hwrite, hread, hw⟩

end MCertiKOS.Shell
