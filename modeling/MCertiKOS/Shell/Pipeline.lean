import MCertiKOS.FileSystem.PipeWait

/-!
# Pipelines

`run_pipeline` and `launch_process_stage` of `user/shell/shell.c`, run by the shell while the stages it has launched,
and any other processes, run as well. The shell is the sequence of its system calls: `At` says which call comes next,
and `At.next` where its result leads.

No pipeline deadlocks. The write end of pipe `i` is held by stage `i` and its read end by stage `i + 1`, and, until
it has launched them, by the shell (`Topology`). A stage that sleeps on pipe `i` sleeps until a neighbour acts, who
cannot be asleep on the same pipe, and so on up to an end of the pipeline, which waits for no pipe.
-/

namespace MCertiKOS.Shell

open FileSystem Memory Thread Relation List Kernel Files
open Function (update update_of_ne update_self)

variable {ι : Type*}

/-! ### The shell -/

abbrev SHELL : ℕ := 2

/-- The commands a pipeline may run (`is_process_cmd`). -/
inductive Cmd where
  | ls
  /-- `CAT`, also called `biral` and `BIRAL`. -/
  | cat
  | rot13
  deriving DecidableEq

def elfIdForProcess : Cmd → ℕ
  | .cat => 6
  | .rot13 => 7
  | .ls => 9

/-- `stage_t`: the command and the number of words. -/
structure Stage where
  /-- `argv[0]`. -/
  cmd : Cmd
  argc : ℕ
  deriving DecidableEq

/-- The variables of an iteration of the loop of `run_pipeline`. -/
structure Iter where
  i : ℕ
  rest : List Stage
  inFd : ℤ
  /-- `pipefd`, if there are stages after this one. -/
  pipefd : Option (Fin NOFILE × Fin NOFILE)
  deriving DecidableEq

def Iter.outFd (it : Iter) : ℤ :=
  match it.pipefd with
  | some p => p.2.val
  | none => -1

/-- `input_fd`, with the file that was opened. -/
def Iter.inputFd (it : Iter) : Option (Fin NOFILE) → ℤ
  | some fd => fd.val
  | none => it.inFd

/-- The system call `run_pipeline` makes next. -/
inductive At where
  /-- `sys_pipe(pipefd)`. -/
  | pipe (i : ℕ) (st : Stage) (rest : List Stage) (inFd : ℤ)
  /-- `LS` with an argument: `sys_chdir(stage->argv[1])`. -/
  | chdir (st : Stage) (it : Iter)
  /-- `CAT` or `ROT13` with an argument: `open(stage->argv[1], O_RDONLY)`. -/
  | open (st : Stage) (it : Iter)
  /-- `spawn_with_fds`, with the file that was opened. -/
  | spawn (st : Stage) (it : Iter) (file : Option (Fin NOFILE))
  /-- `LS` with an argument: `sys_chdir(cwd)`. -/
  | chdirBack (it : Iter) (pid : Option ℕ)
  /-- `close(input_fd)`. -/
  | closeFile (it : Iter) (file : Fin NOFILE) (pid : Option ℕ)
  /-- The stage is launched or not: `close(in_fd)`. -/
  | closeIn (it : Iter) (pid : Option ℕ)
  /-- `close(pipefd[1])`. -/
  | closeOut (it : Iter) (p : Fin NOFILE × Fin NOFILE)
  /-- The stage is not launched: `close(pipefd[0])`. -/
  | failRead (i : ℕ) (p : Fin NOFILE × Fin NOFILE)
  /-- The stage is not launched: `close(pipefd[1])`. -/
  | failWrite (i : ℕ) (p : Fin NOFILE × Fin NOFILE)
  /-- There is no pipe: `close(in_fd)`. -/
  | failPipe (i : ℕ) (inFd : ℤ)
  /-- After the loop: `close(in_fd)`. -/
  | closeLast (inFd : ℤ)
  /-- The shell waits for the stages, or has returned. -/
  | done
  deriving DecidableEq

namespace At

/-- After `if (in_fd >= 0) close(in_fd)`, with what `launch_process_stage` returned. -/
def afterIn (it : Iter) : Option ℕ → At
  | none =>
    match it.pipefd with
    | some p => .failRead it.i p
    | none => .done
  | some _ =>
    match it.pipefd with
    | some p => .closeOut it p
    | none => if 0 ≤ it.inFd then .closeLast it.inFd else .done

/-- `launch_process_stage` returns. -/
def returned (it : Iter) (pid : Option ℕ) : At := if 0 ≤ it.inFd then .closeIn it pid else afterIn it pid

/-- `launch_process_stage`. -/
def launch (st : Stage) (it : Iter) : At :=
  if 2 < st.argc then returned it none
  else if st.argc = 2 then if st.cmd = .ls then .chdir st it else .open st it
  else .spawn st it none

def top (i : ℕ) (inFd : ℤ) : List Stage → At
  | [] => if 0 ≤ inFd then .closeLast inFd else .done
  | [st] => launch st ⟨i, [], inFd, none⟩
  | st :: st' :: rest => .pipe i st (st' :: rest) inFd

/-- `launch_process_stage` after `spawn_with_fds`. -/
def spawned (st : Stage) (it : Iter) (file : Option (Fin NOFILE)) (pid : Option ℕ) : At :=
  if st.cmd = .ls ∧ st.argc = 2 then .chdirBack it pid
  else
    match file with
    | some fd => .closeFile it fd pid
    | none => returned it pid

/-- Whether `u` is the next call. What `open` comes to and where `pipefd` is depends on the rest of the system. -/
def Calls : At → UserCall ι → Prop
  | .pipe .., .pipe _ => True
  | .chdir .., .other _ => True
  | .open .., .open omode _ => omode = 0
  | .spawn st it file, u => u = .spawn (elfIdForProcess st.cmd) 200 (it.inputFd file) it.outFd
  | .chdirBack .., .other _ => True
  | .closeFile _ file _, u => u = .close file.val
  | .closeIn it _, u => u = .close it.inFd.toNat
  | .closeOut _ p, u => u = .close p.2.val
  | .failRead _ p, u => u = .close p.1.val
  | .failWrite _ p, u => u = .close p.2.val
  | .failPipe _ inFd, u => u = .close inFd.toNat
  | .closeLast inFd, u => u = .close inFd.toNat
  | _, _ => False

instance [DecidableEq ι] (a : At) (u : UserCall ι) : Decidable (a.Calls u) := by
  cases a <;> cases u <;> unfold Calls <;> infer_instance

def next : At → Ret → At
  | .pipe i st rest inFd, .piped (.ok p) => launch st ⟨i, rest, inFd, some p⟩
  | .pipe i _ _ inFd, .piped (.error _) => if 0 ≤ inFd then .failPipe i inFd else .done
  | .chdir st it, .other r => if r < 0 then returned it none else .spawn st it none
  | .open st it, .opened (.ok fd) => .spawn st it (some fd)
  | .open _ it, .opened (.error _) => returned it none
  | .spawn st it file, .spawned (.ok pid) => spawned st it file (some pid)
  | .spawn st it file, .spawned (.error _) => spawned st it file none
  | .chdirBack it pid, .other _ => returned it pid
  | .closeFile it _ pid, .closed _ => returned it pid
  | .closeIn it pid, .closed _ => afterIn it pid
  | .closeOut it p, .closed _ => top (it.i + 1) p.1.val it.rest
  | .failRead i p, .closed _ => .failWrite i p
  | .failWrite .., .closed _ => .done
  | .failPipe .., .closed _ => .done
  | .closeLast _, .closed _ => .done
  | a, _ => a

end At

/-! ### The system -/

/-- The kernel, and the shell in `run_pipeline`. -/
structure World (ι : Type*) where
  kernel : Kernel ι
  shell : At
  /-- The processes launched so far, `pids`. -/
  pids : List ℕ

def launched : Ret → List ℕ
  | .spawned (.ok pid) => [pid]
  | _ => []

/-- The calls of a stage: it reads, writes, opens and closes, and exits. -/
def StageCall : UserCall ι → Prop
  | .pipe _ => False
  | .spawn .. => False
  | _ => True

/-- The calls of the shell outside `run_pipeline`: it makes no pipes there. -/
def PromptCall : UserCall ι → Prop
  | .pipe _ => False
  | .exit => False
  | _ => True

/-- A step of the system: of the shell, of a stage, of some other process, or of one that is in a call. -/
inductive World.Step : World ι → World ι → Prop
  /-- The shell calls `run_pipeline`. -/
  | run {w : World ι} (stages : List Stage) (hdone : w.shell = .done) :
      World.Step w ⟨w.kernel, .top 0 (-1) stages, []⟩
  /-- The shell makes a call outside `run_pipeline`. -/
  | prompt {w : World ι} {u : UserCall ι} {k : Kernel ι} {r : Option Ret} (hdone : w.shell = .done)
      (hplace : w.kernel.place SHELL = .user) (hu : PromptCall u) (he : w.kernel.call SHELL u = .ok (k, r)) :
      World.Step w { w with kernel := k }
  /-- The shell makes its next call. -/
  | shell {w : World ι} {u : UserCall ι} {k : Kernel ι} {r : Ret} (hplace : w.kernel.place SHELL = .user)
      (hu : w.shell.Calls u) (he : w.kernel.call SHELL u = .ok (k, some r)) :
      World.Step w ⟨k, w.shell.next r, w.pids ++ launched r⟩
  /-- A stage makes a call. -/
  | stage {w : World ι} {p : ℕ} {u : UserCall ι} {k : Kernel ι} {r : Option Ret} (hp : p ∈ w.pids)
      (hplace : w.kernel.place p = .user) (hu : StageCall u) (he : w.kernel.call p u = .ok (k, r)) :
      World.Step w { w with kernel := k }
  /-- Some other process makes a call. -/
  | other {w : World ι} {p : ℕ} {u : UserCall ι} {k : Kernel ι} {r : Option Ret} (hp : p ∈ w.kernel.procs.spawned)
      (hpids : p ∉ w.pids) (hshell : p ≠ SHELL) (hplace : w.kernel.place p = .user)
      (he : w.kernel.call p u = .ok (k, r)) : World.Step w { w with kernel := k }
  /-- A process goes on in a call. -/
  | resume {w : World ι} {p : ℕ} {k : Kernel ι} {r : Option Ret} (hp : p ∈ w.kernel.procs.spawned) (hshell : p ≠ SHELL)
      (he : w.kernel.resume p = .ok (k, r)) : World.Step w { w with kernel := k }

/-- A choice of who goes next in a pipeline. -/
inductive Move (ι : Type*) where
  /-- The shell calls `run_pipeline`. -/
  | run (stages : List Stage)
  /-- The shell makes a call. -/
  | shell (u : UserCall ι)
  /-- A stage makes a call. -/
  | stage (p : ℕ) (u : UserCall ι)

instance (u : UserCall ι) : Decidable (StageCall u) := by
  cases u <;> unfold StageCall <;> infer_instance

def World.move [DecidableEq ι] (w : World ι) : Move ι → Option (World ι)
  | .run stages => if w.shell = .done then some ⟨w.kernel, .top 0 (-1) stages, []⟩ else none
  | .shell u =>
    if w.kernel.place SHELL = .user ∧ w.shell.Calls u then
      match w.kernel.call SHELL u with
      | .ok (k, some r) => some ⟨k, w.shell.next r, w.pids ++ launched r⟩
      | _ => none
    else none
  | .stage p u =>
    if p ∈ w.pids ∧ w.kernel.place p = .user ∧ StageCall u then
      match w.kernel.call p u with
      | .ok (k, _) => some { w with kernel := k }
      | .error _ => none
    else none

variable {w w' : World ι} {i j : ℕ} {fd : ℤ} {b : Bool}

theorem World.step_of_move [DecidableEq ι] {m : Move ι} (h : w.move m = some w') : World.Step w w' := by
  cases m with
  | run stages =>
    rw [World.move, Option.ite_none_right_eq_some] at h
    obtain ⟨hdone, ⟨⟩⟩ := h
    exact .run stages hdone
  | shell u =>
    rw [World.move, Option.ite_none_right_eq_some] at h
    obtain ⟨⟨hplace, hu⟩, h⟩ := h
    split at h
    · rename_i k r he
      cases h
      exact .shell hplace hu he
    · cases h
  | stage p u =>
    rw [World.move, Option.ite_none_right_eq_some] at h
    obtain ⟨⟨hp, hplace, hu⟩, h⟩ := h
    split at h
    · rename_i k r he
      cases h
      exact .stage hp hplace hu he
    · cases h

theorem World.reach_of_moves [DecidableEq ι] {ms : List (Move ι)} (h : ms.foldlM World.move w = some w') :
    ReflTransGen World.Step w w' := by
  induction ms generalizing w with
  | nil =>
    cases h
    exact .refl
  | cons m ms ih =>
    obtain ⟨w1, h1, h2⟩ := Option.bind_eq_some_iff.mp h
    exact .head (World.step_of_move h1) (ih h2)

/-! ### The ends the shell has -/

/-- An end: the descriptor, the number of the pipe, and whether it is the write end. -/
abbrev End := ℤ × ℕ × Bool

/-- The read end of the pipe before stage `i`. -/
def inEnds (i : ℕ) (inFd : ℤ) : List End := if 0 ≤ inFd then [(inFd, i - 1, false)] else []

/-- The ends of the pipe after stage `i`. -/
def pipeEnds (i : ℕ) (p : Fin NOFILE × Fin NOFILE) : List End := [(p.1.val, i, false), (p.2.val, i, true)]

theorem mem_inEnds {inFd : ℤ} :
    (fd, j, b) ∈ inEnds i inFd ↔ 0 ≤ inFd ∧ fd = inFd ∧ j = i - 1 ∧ b = false := by
  unfold inEnds
  split_ifs with h <;> simp [h]

theorem mem_pipeEnds {p : Fin NOFILE × Fin NOFILE} :
    (fd, j, b) ∈ pipeEnds i p ↔ fd = (if b then p.2 else p.1).val ∧ j = i := by
  cases b <;> simp [pipeEnds]

def Iter.ends (it : Iter) : List End :=
  inEnds it.i it.inFd ++
    match it.pipefd with
    | some p => pipeEnds it.i p
    | none => []

def At.ends : At → List End
  | .pipe i _ _ inFd => inEnds i inFd
  | .chdir _ it => it.ends
  | .open _ it => it.ends
  | .spawn _ it _ => it.ends
  | .chdirBack it _ => it.ends
  | .closeFile it _ _ => it.ends
  | .closeIn it _ => it.ends
  | .closeOut it p => pipeEnds it.i p
  | .failRead i p => pipeEnds i p
  | .failWrite i p => [((p.2.val : ℤ), i, true)]
  | .failPipe i inFd => inEnds i inFd
  | .closeLast _ => []
  | .done => []

/-- The variables of an iteration fit together. -/
structure Iter.Ok (it : Iter) : Prop where
  pos : 0 ≤ it.inFd → 1 ≤ it.i
  pipefd : it.pipefd = none ↔ it.rest = []

/-- The variables fit together, and `n` stages are launched. -/
def At.Ok (n : ℕ) : At → Prop
  | .pipe i _ rest inFd => n = i ∧ (0 ≤ inFd → 1 ≤ i) ∧ rest ≠ []
  | .chdir _ it => n = it.i ∧ it.Ok
  | .open _ it => n = it.i ∧ it.Ok
  | .spawn _ it file => n = it.i ∧ it.Ok ∧ ∀ fd, file = some fd → ∀ j b, ((fd.val : ℤ), j, b) ∉ it.ends
  | .chdirBack it pid => n = it.i + pid.toList.length ∧ it.Ok
  | .closeFile it file pid => n = it.i + pid.toList.length ∧ it.Ok ∧ ∀ j b, ((file.val : ℤ), j, b) ∉ it.ends
  | .closeIn it pid => n = it.i + pid.toList.length ∧ it.Ok ∧ 0 ≤ it.inFd
  | .closeOut it p => n = it.i + 1 ∧ it.Ok ∧ it.pipefd = some p
  | .failPipe i inFd => (0 ≤ inFd → 1 ≤ i) ∧ 0 ≤ inFd
  | .closeLast inFd => 0 ≤ inFd
  | _ => True

namespace At

variable {it : Iter} {n : ℕ}

theorem afterIn_ends (it : Iter) (pid : Option ℕ) :
    (afterIn it pid).ends = match it.pipefd with | some p => pipeEnds it.i p | none => [] := by
  rcases pid with _ | pid <;> cases hp : it.pipefd <;> simp only [afterIn, hp, ends]
  split_ifs <;> rfl

theorem returned_ends (it : Iter) (pid : Option ℕ) : (returned it pid).ends = it.ends := by
  unfold returned
  split_ifs with h
  · rfl
  · rw [afterIn_ends, Iter.ends, inEnds, if_neg h, nil_append]

theorem launch_ends (st : Stage) (it : Iter) : (launch st it).ends = it.ends := by
  unfold launch
  split_ifs
  · exact returned_ends it none
  all_goals rfl

theorem spawned_ends (st : Stage) (it : Iter) (file : Option (Fin NOFILE)) (pid : Option ℕ) :
    (spawned st it file pid).ends = it.ends := by
  unfold spawned
  split_ifs
  · rfl
  · cases file with
    | none => exact returned_ends it pid
    | some fd => rfl

variable {i : ℕ} {inFd : ℤ}

theorem top_ends {rest : List Stage} (h : rest ≠ []) : (top i inFd rest).ends = inEnds i inFd := by
  rcases rest with _ | ⟨st, _ | ⟨st', rest⟩⟩
  · exact absurd rfl h
  · rw [top, launch_ends, Iter.ends]
    exact append_nil _
  · rfl

theorem ok_afterIn (hit : it.Ok) (pid : Option ℕ) (h : n = it.i + pid.toList.length) : (afterIn it pid).Ok n := by
  rcases pid with _ | pid <;> cases hp : it.pipefd <;> simp only [afterIn, hp]
  · trivial
  · trivial
  · split_ifs with h0
    · exact h0
    · trivial
  · exact ⟨h, hit, hp⟩

theorem ok_returned (hit : it.Ok) (pid : Option ℕ) (h : n = it.i + pid.toList.length) : (returned it pid).Ok n := by
  unfold returned
  split_ifs with h0
  · exact ⟨h, hit, h0⟩
  · exact ok_afterIn hit pid h

theorem ok_launch (hit : it.Ok) (st : Stage) (h : n = it.i) : (launch st it).Ok n := by
  unfold launch
  split_ifs
  · exact ok_returned hit none h
  · exact ⟨h, hit⟩
  · exact ⟨h, hit⟩
  · exact ⟨h, hit, nofun⟩

theorem ok_top (stages : List Stage) (hpos : 0 ≤ inFd → 1 ≤ i) : (top i inFd stages).Ok i := by
  rcases stages with _ | ⟨st, _ | ⟨st', rest⟩⟩
  · unfold top
    split_ifs with h0
    · exact h0
    · trivial
  · exact ok_launch ⟨hpos, by simp⟩ st rfl
  · exact ⟨rfl, hpos, by simp⟩

theorem ok_spawned (hit : it.Ok) (st : Stage) {file : Option (Fin NOFILE)}
    (hfile : ∀ fd, file = some fd → ∀ j b, ((fd.val : ℤ), j, b) ∉ it.ends) (pid : Option ℕ)
    (h : n = it.i + pid.toList.length) : (spawned st it file pid).Ok n := by
  unfold spawned
  split_ifs
  · exact ⟨h, hit⟩
  · cases file with
    | none => exact ok_returned hit pid h
    | some fd => exact ⟨h, hit, hfile fd rfl⟩

end At

/-! ### Who has which pipe -/

/-- Whether descriptor `x` may be an end of a pipe with this label: the number of a pipe of the pipeline, or none. -/
def MayHold (pids : List ℕ) (x : ℕ × Fin NOFILE) (b : Bool) : Option ℕ → Prop
  | none => x.1 ≠ SHELL ∧ x.1 ∉ pids
  | some j => x.1 = SHELL ∨ pids[if b then j else j + 1]? = some x.1

/-- The pipes of the file table `s` are labelled with their numbers in the pipeline. -/
structure Topology (s : Files ι) (ends : List End) (pids : List ℕ) (label : Fin NPIPE → Option ℕ) : Prop where
  /-- Stage `i` has the write end of pipe `i` and the read end of pipe `i - 1`, and nothing else of the pipeline. -/
  may : ∀ x k b, s.Holds x k b → MayHold pids x b (label k)
  shell : ∀ fd j b, (fd, j, b) ∈ ends ↔
    ∃ fd' : Fin NOFILE, (fd'.val : ℤ) = fd ∧ ∃ k, s.Holds (SHELL, fd') k b ∧ label k = some j
  inj : ∀ x y k k' b b' j, s.Holds x k b → s.Holds y k' b' → label k = some j → label k' = some j → k = k'

namespace Topology

variable {s t : Files ι} {ends ends' : List End} {pids : List ℕ} {label : Fin NPIPE → Option ℕ}

variable {b : Bool} {p child : ℕ} {k₀ : Fin NPIPE}

section

variable (h : Topology s ends pids label)
include h

theorem ends_unique {fd : ℤ} {j j' : ℕ} {b' : Bool} (h1 : (fd, j, b) ∈ ends)
    (h2 : (fd, j', b') ∈ ends) : j = j' ∧ b = b' := by
  obtain ⟨fd1, e1, k1, hk1, hl1⟩ := (h.shell fd j b).mp h1
  obtain ⟨fd2, e2, k2, hk2, hl2⟩ := (h.shell fd j' b').mp h2
  obtain rfl : fd1 = fd2 := Fin.ext (by omega)
  obtain ⟨rfl, rfl⟩ := hk1.unique hk2
  exact ⟨Option.some.inj (hl1.symm.trans hl2), rfl⟩

theorem shell_label {fd : Fin NOFILE} {k : Fin NPIPE}
    (hk : s.Holds (SHELL, fd) k b) : ∃ j, label k = some j ∧ ((fd.val : ℤ), j, b) ∈ ends := by
  have := h.may _ k b hk
  cases hl : label k with
  | none =>
    rw [hl] at this
    exact absurd rfl this.1
  | some j => exact ⟨j, rfl, (h.shell _ j b).mpr ⟨fd, rfl, k, hk, hl⟩⟩

theorem shrink (hsub : ∀ x k b, t.Holds x k b → s.Holds x k b)
    (hshell : ∀ fd k b, s.Holds (SHELL, fd) k b → t.Holds (SHELL, fd) k b) : Topology t ends pids label := by
  refine ⟨fun x k b hx => h.may x k b (hsub x k b hx), fun fd j b => ?_, ?_⟩
  · rw [h.shell]
    refine exists_congr fun fd' => and_congr_right fun _ => exists_congr fun k => and_congr_left fun _ => ?_
    exact ⟨hshell fd' k b, hsub _ k b⟩
  · exact fun x y k k' b b' j hx hy => h.inj x y k k' b b' j (hsub x k b hx) (hsub y k' b' hy)

theorem congr (hiff : ∀ x k b, t.Holds x k b ↔ s.Holds x k b) :
    Topology t ends pids label :=
  h.shrink (fun x k b => (hiff x k b).mp) fun _ k b => (hiff _ k b).mpr

theorem shell_close {c : Fin NOFILE}
    (hiff : ∀ x k b, t.Holds x k b ↔ x ≠ (SHELL, c) ∧ s.Holds x k b)
    (hends : ∀ fd j b, (fd, j, b) ∈ ends' ↔ (fd, j, b) ∈ ends ∧ fd ≠ c.val) : Topology t ends' pids label := by
  refine ⟨fun x k b hx => h.may x k b ((hiff x k b).mp hx).2, fun fd j b => ?_, ?_⟩
  · rw [hends, h.shell]
    constructor
    · rintro ⟨⟨fd', rfl, k, hk, hl⟩, hne⟩
      refine ⟨fd', rfl, k, (hiff _ k b).mpr ⟨fun e => hne ?_, hk⟩, hl⟩
      rw [(Prod.mk.inj e).2]
    · rintro ⟨fd', rfl, k, hk, hl⟩
      obtain ⟨hne, hk'⟩ := (hiff _ k b).mp hk
      refine ⟨⟨fd', rfl, k, hk', hl⟩, fun e => hne ?_⟩
      rw [show fd' = c from Fin.ext (by omega)]
  · exact fun x y k k' b b' j hx hy => h.inj x y k k' b b' j ((hiff x k b).mp hx).2 ((hiff y k' b').mp hy).2

/-- A new pipe `k₀`, whose ends `p` has, is labelled `o`. -/
theorem new_pipe {fd : Bool → Fin NOFILE} {o : Option ℕ}
    (hiff : ∀ x k b, t.Holds x k b ↔ k ≠ k₀ ∧ s.Holds x k b ∨ k = k₀ ∧ x = (p, fd b)) (hmay : ∀ b, MayHold pids (p, fd b) b o)
    (hnew : ∀ x k b j, s.Holds x k b → label k = some j → o ≠ some j)
    (hshell : ∀ fd j b, (fd, j, b) ∈ ends' ↔
      ∃ fd' : Fin NOFILE, (fd'.val : ℤ) = fd ∧ ∃ k, t.Holds (SHELL, fd') k b ∧ update label k₀ o k = some j) :
    Topology t ends' pids (update label k₀ o) := by
  have hold : ∀ x k b, t.Holds x k b → k ≠ k₀ → s.Holds x k b := by
    intro x k b hx hk
    rcases (hiff x k b).mp hx with ⟨-, hx'⟩ | ⟨e, -⟩
    · exact hx'
    · exact absurd e hk
  refine ⟨fun x k b hx => ?_, hshell, fun x y k k' b b' j hx hy hl hl' => ?_⟩
  · rcases (hiff x k b).mp hx with ⟨hk, hx'⟩ | ⟨rfl, rfl⟩
    · rw [update_of_ne hk]
      exact h.may x k b hx'
    · rw [update_self]
      exact hmay b
  · by_cases hk : k = k₀ <;> by_cases hk' : k' = k₀
    · rw [hk, hk']
    · rw [hk, update_self] at hl
      rw [update_of_ne hk'] at hl'
      exact absurd hl (hnew y k' b' j (hold y k' b' hy hk') hl')
    · rw [hk', update_self] at hl'
      rw [update_of_ne hk] at hl
      exact absurd hl' (hnew x k b j (hold x k b hx hk) hl)
    · rw [update_of_ne hk] at hl
      rw [update_of_ne hk'] at hl'
      exact h.inj x y k k' b b' j (hold x k b hx hk) (hold y k' b' hy hk') hl hl'

theorem other_pipe (hshell : p ≠ SHELL) (hpids : p ∉ pids)
    (fd : Bool → Fin NOFILE)
    (hiff : ∀ x k b, t.Holds x k b ↔ k ≠ k₀ ∧ s.Holds x k b ∨ k = k₀ ∧ x = (p, fd b))
    (hfree : ∀ x b, ¬ s.Holds x k₀ b) : Topology t ends pids (update label k₀ none) := by
  refine h.new_pipe hiff (fun _ => ⟨hshell, hpids⟩) nofun fun fd' j b => ?_
  rw [h.shell]
  refine exists_congr fun fd₁ => and_congr_right fun _ => exists_congr fun k => ?_
  by_cases hk : k = k₀
  · subst hk
    simp [hfree]
  · rw [update_of_ne hk, hiff]
    simp [hk]

theorem other_spawn
    (hshell : ∀ fd k b, s.Holds (p, fd) k b → p ≠ SHELL) (hpids : p ∉ pids) (hcs : child ≠ SHELL) (hcp : child ∉ pids)
    (hiff : ∀ x k b, t.Holds x k b → s.Holds x k b ∨ x.1 = child ∧ ∃ fd, s.Holds (p, fd) k b)
    (hsub : ∀ x k b, s.Holds x k b → t.Holds x k b) : Topology t ends pids label := by
  have hlab : ∀ fd k b, s.Holds (p, fd) k b → label k = none := by
    intro fd k b hk
    have := h.may _ k b hk
    cases hl : label k with
    | none => rfl
    | some j =>
      rw [hl] at this
      rcases this with e | e
      · exact absurd e (hshell fd k b hk)
      · exact absurd (mem_of_getElem? e) hpids
  refine ⟨fun x k b hx => ?_, fun fd j b => ?_, fun x y k k' b b' j hx hy hl hl' => ?_⟩
  · rcases hiff x k b hx with hx' | ⟨e, fd, hk⟩
    · exact h.may x k b hx'
    · rw [hlab fd k b hk]
      exact ⟨e ▸ hcs, e ▸ hcp⟩
  · rw [h.shell]
    refine exists_congr fun fd' => and_congr_right fun _ => exists_congr fun k => and_congr_left fun _ => ?_
    refine ⟨hsub _ k b, fun hx => ?_⟩
    rcases hiff _ k b hx with hx' | ⟨e, -⟩
    · exact hx'
    · exact absurd e.symm hcs
  · have hold : ∀ x k b, t.Holds x k b → label k = some j → s.Holds x k b := by
      intro x k b hx hl
      rcases hiff x k b hx with hx' | ⟨-, fd, hk⟩
      · exact hx'
      · rw [hlab fd k b hk] at hl
        cases hl
    exact h.inj x y k k' b b' j (hold x k b hx hl) (hold y k' b' hy hl') hl hl'

end

theorem shell_pipe {i : ℕ} {inFd : ℤ} (h : Topology s (inEnds i inFd) pids label) (hlen : pids.length = i)
    (hpos : 0 ≤ inFd → 1 ≤ i) {p : Fin NOFILE × Fin NOFILE}
    (hiff : ∀ x k b, t.Holds x k b ↔ k ≠ k₀ ∧ s.Holds x k b ∨ k = k₀ ∧ x = (SHELL, if b then p.2 else p.1))
    (hfree : ∀ x b, ¬ s.Holds x k₀ b) :
    Topology t (inEnds i inFd ++ pipeEnds i p) pids (update label k₀ (some i)) := by
  -- there was no pipe `i`
  have hnew : ∀ x k b, s.Holds x k b → label k ≠ some i := by
    intro x k b hx hl
    have hm := h.may x k b hx
    rw [hl] at hm
    rcases hm with hm | hm
    · obtain ⟨q, fd⟩ := x
      obtain rfl : q = SHELL := hm
      obtain ⟨j, hj, he⟩ := h.shell_label hx
      obtain rfl : i = j := Option.some.inj (hl.symm.trans hj)
      unfold inEnds at he
      split_ifs at he with h0
      · have := hpos h0
        simp only [mem_singleton, Prod.mk.injEq] at he
        omega
      · cases he
    · have := (List.getElem?_eq_some_iff.mp hm).1
      split_ifs at this <;> omega
  refine h.new_pipe hiff (fun _ => .inl rfl) (fun x k b j hx hl e => hnew x k b hx (hl.trans e.symm)) fun fd j b => ?_
  rw [mem_append, h.shell]
  constructor
  · rintro (⟨fd', e, k, hk, hl⟩ | he)
    · have hne : k ≠ k₀ := by
        rintro rfl
        exact hfree _ _ hk
      exact ⟨fd', e, k, (hiff _ k b).mpr (.inl ⟨hne, hk⟩), by rwa [update_of_ne hne]⟩
    · simp only [pipeEnds, mem_cons, Prod.mk.injEq, not_mem_nil, or_false] at he
      rcases he with ⟨rfl, rfl, rfl⟩ | ⟨rfl, rfl, rfl⟩
      · exact ⟨p.1, rfl, k₀, (hiff _ k₀ false).mpr (.inr ⟨rfl, rfl⟩), update_self ..⟩
      · exact ⟨p.2, rfl, k₀, (hiff _ k₀ true).mpr (.inr ⟨rfl, rfl⟩), update_self ..⟩
  · rintro ⟨fd', rfl, k, hk, hl⟩
    rcases (hiff _ k b).mp hk with ⟨hne, hk'⟩ | ⟨rfl, e⟩
    · rw [update_of_ne hne] at hl
      exact .inl ⟨fd', rfl, k, hk', hl⟩
    · rw [update_self, Option.some.injEq] at hl
      rw [(Prod.mk.inj e).2, ← hl]
      cases b <;> simp [pipeEnds]

theorem shell_spawn {it : Iter} (h : Topology s it.ends pids label) (hlen : pids.length = it.i)
    (hpos : 0 ≤ it.inFd → 1 ≤ it.i)
    {file : Option (Fin NOFILE)} (hfile : ∀ fd, file = some fd → ∀ j b, ((fd.val : ℤ), j, b) ∉ it.ends)
    (hcs : child ≠ SHELL) (hcs' : ∀ x k b, s.Holds x k b → x.1 ≠ child)
    (hiff : ∀ x k b, t.Holds x k b ↔ s.Holds x k b ∨
      x = (child, 0) ∧ s.HoldsAt SHELL (it.inputFd file) k b ∨
      x = (child, 1) ∧ s.HoldsAt SHELL it.outFd k b) : Topology t it.ends (pids ++ [child]) label := by
  have hget : (pids ++ [child])[it.i]? = some child := by rw [← hlen, List.getElem?_concat_length]
  -- what the child gets
  have hchild : ∀ x k b, t.Holds x k b → ¬ s.Holds x k b → x.1 = child ∧ (∃ fd, s.Holds (SHELL, fd) k b) ∧
      ∃ j, label k = some j ∧ (pids ++ [child])[if b then j else j + 1]? = some child := by
    intro x k b hx hno
    rcases (hiff x k b).mp hx with hx' | ⟨rfl, hat⟩ | ⟨rfl, hat⟩
    · exact absurd hx' hno
    · obtain ⟨fd', hfd', hk⟩ := holdsAt_iff.mp hat
      obtain ⟨j, hl, he⟩ := h.shell_label hk
      refine ⟨rfl, ⟨fd', hk⟩, j, hl, ?_⟩
      cases file with
      | some fd =>
        rw [hfd'] at he
        exact absurd he (hfile fd rfl j b)
      | none =>
        rw [Iter.inputFd] at hfd'
        have h0 : 0 ≤ it.inFd := by omega
        have hin : (it.inFd, it.i - 1, false) ∈ it.ends := by simp [Iter.ends, inEnds, h0]
        obtain ⟨rfl, rfl⟩ := h.ends_unique (hfd' ▸ he) hin
        rw [if_neg (by simp), Nat.sub_add_cancel (hpos h0)]
        exact hget
    · obtain ⟨fd', hfd', hk⟩ := holdsAt_iff.mp hat
      obtain ⟨j, hl, he⟩ := h.shell_label hk
      refine ⟨rfl, ⟨fd', hk⟩, j, hl, ?_⟩
      unfold Iter.outFd at hfd'
      cases hp : it.pipefd with
      | none =>
        simp only [hp] at hfd'
        omega
      | some p =>
        simp only [hp] at hfd'
        have hout : ((p.2.val : ℤ), it.i, true) ∈ it.ends := by simp [Iter.ends, pipeEnds, hp]
        obtain ⟨rfl, rfl⟩ := h.ends_unique (hfd' ▸ he) hout
        exact hget
  refine ⟨fun x k b hx => ?_, fun fd j b => ?_, fun x y k k' b b' j hx hy hl hl' => ?_⟩
  · by_cases hs : s.Holds x k b
    · have hm := h.may x k b hs
      cases hlab : label k with
      | none =>
        rw [hlab] at hm
        exact ⟨hm.1, by simpa using ⟨hm.2, hcs' x k b hs⟩⟩
      | some j =>
        rw [hlab] at hm
        exact hm.imp_right fun e => by rw [List.getElem?_append_left (List.getElem?_eq_some_iff.mp e).1, e]
    · obtain ⟨hx', -, j, hl, e⟩ := hchild x k b hx hs
      rw [hl]
      exact .inr (hx' ▸ e)
  · rw [h.shell]
    refine exists_congr fun fd' => and_congr_right fun _ => exists_congr fun k => and_congr_left fun _ => ?_
    rw [hiff]
    refine ⟨.inl, ?_⟩
    rintro (hx | ⟨e, -⟩ | ⟨e, -⟩)
    · exact hx
    · exact absurd (Prod.mk.inj e).1.symm hcs
    · exact absurd (Prod.mk.inj e).1.symm hcs
  · have hsame : ∀ x k b, t.Holds x k b → ∃ y, s.Holds y k b := by
      intro x k b hx
      by_cases hs : s.Holds x k b
      · exact ⟨x, hs⟩
      · obtain ⟨-, ⟨fd, hk⟩, -⟩ := hchild x k b hx hs
        exact ⟨_, hk⟩
    obtain ⟨x', hx'⟩ := hsame x k b hx
    obtain ⟨y', hy'⟩ := hsame y k' b' hy
    exact h.inj x' y' k k' b b' j hx' hy' hl hl'

end Topology

/-! ### Runs -/

/-- The invariant of the system. -/
structure World.Inv (w : World ι) : Prop where
  kernel : w.kernel.Inv
  shell_mem : SHELL ∈ w.kernel.procs.spawned
  mem : ∀ p ∈ w.pids, p ∈ w.kernel.procs.spawned
  nodup : w.pids.Nodup
  ne : SHELL ∉ w.pids
  ok : w.shell.Ok w.pids.length
  topology : ∃ label, Topology w.kernel.files w.shell.ends w.pids label

namespace World.Inv

variable {w : World ι} {k : Kernel ι} {p : ℕ} {u : UserCall ι} {r : Option Ret}

theorem of_kernel (h : w.Inv) (hk : k.Inv) (hsub : w.kernel.procs.spawned ⊆ k.procs.spawned)
    (htop : ∀ label, Topology w.kernel.files w.shell.ends w.pids label →
      ∃ label', Topology k.files w.shell.ends w.pids label') : World.Inv { w with kernel := k } where
  kernel := hk
  shell_mem := hsub h.shell_mem
  mem q hq := hsub (h.mem q hq)
  nodup := h.nodup
  ne := h.ne
  ok := h.ok
  topology := by
    obtain ⟨label, hl⟩ := h.topology
    exact htop label hl

variable {s : Files ι} {a : At} {st : Stage} {it : Iter} {ret : Ret}

theorem topology_close {t : Files ι} {ends : List End} {pids : List ℕ} {label : Fin NPIPE → Option ℕ}
    (h : Topology s ends pids label) {y : ℕ × Fin NOFILE} (hy : ∀ k b, s.Holds y k b → y.1 ≠ SHELL)
    (hiff : ∀ x k b, t.Holds x k b ↔ x ≠ y ∧ s.Holds x k b) : Topology t ends pids label := by
  refine h.shrink (fun x k b hx => ((hiff x k b).mp hx).2) fun fd k b hx => (hiff _ k b).mpr ⟨?_, hx⟩
  rintro rfl
  exact hy k b hx rfl

section

variable (h : w.Inv)
include h

theorem call (hp : p ∈ w.kernel.procs.spawned) (hne : ∀ fd k b, w.kernel.files.Holds (p, fd) k b → p ≠ SHELL)
    (hplace : w.kernel.place p = .user) (hd : Kernel.Does w.kernel p u k r)
    (hu : StageCall u ∨ p ∉ w.pids ∧ (PromptCall u ∨ p ≠ SHELL)) : World.Inv { w with kernel := k } := by
  have hk := h.kernel.of_does hp hplace hd
  cases hd with
  | openFail | spawnFail | readFail | writeFail | other => exact h
  | «open» held quiet ret =>
    exact h.of_kernel hk (fun _ hq => hq) fun label hl => ⟨label, hl.congr fun x k b => h.kernel.holds_open quiet held ret⟩
  | @pipe _ u c r held quiet ret =>
    refine h.of_kernel hk (fun _ hq => hq) fun label hl => ?_
    rcases r with e | ⟨fd₀, fd₁⟩
    · exact ⟨label, hl.congr fun x k b => h.kernel.holds_iff quiet held (congrFun ret x)⟩
    · obtain ⟨k₀, href, -, hiff⟩ := h.kernel.holds_pipe quiet held ret
      obtain ⟨hpids, hshell⟩ := hu.resolve_left id
      refine ⟨_, hl.other_pipe (hshell.resolve_left id) hpids (fun b => if b then fd₁ else fd₀) hiff fun x b hx => ?_⟩
      exact hx.ref_ne_zero h.kernel.procs.held.inv href
  | @close fd _ _ _ held quiet openfiles =>
    refine h.of_kernel hk (fun _ hq => hq) fun label hl => ⟨label, ?_⟩
    split_ifs at openfiles
    · exact topology_close hl (hne _) fun x k b => h.kernel.holds_close quiet held openfiles
    · exact hl.congr fun x k b => h.kernel.holds_iff quiet held (congrFun openfiles x)
  | @spawn _ _ _ _ procs child inv spawned fresh spawns =>
    refine h.of_kernel hk (fun q hq => ?_) fun label hl => ⟨label, ?_⟩
    · rw [spawned]
      exact mem_cons_of_mem _ hq
    · have hcs : child ≠ SHELL := by
        rintro rfl
        exact fresh h.shell_mem
      refine hl.other_spawn hne (hu.resolve_left id).1 hcs (fun hc => fresh (h.mem _ hc)) ?_ ?_
      · intro x k b hx
        rcases (h.kernel.holds_spawn hp fresh spawns).mp hx with hx' | ⟨e, hat⟩ | ⟨e, hat⟩
        · exact .inl hx'
        · obtain ⟨fd', -, hk⟩ := holdsAt_iff.mp hat
          exact .inr ⟨by rw [e], fd', hk⟩
        · obtain ⟨fd', -, hk⟩ := holdsAt_iff.mp hat
          exact .inr ⟨by rw [e], fd', hk⟩
      · exact fun x k b hx => (h.kernel.holds_spawn hp fresh spawns).mpr (.inl hx)
  | read lookup ret =>
    refine h.of_kernel hk (by simp) fun label hl => ⟨label, hl.congr fun x k b => ?_⟩
    simpa only [files, readDone_procs] using holds_fileRead ret
  | write lookup ret =>
    refine h.of_kernel hk (by simp) fun label hl => ⟨label, hl.congr fun x k b => ?_⟩
    simpa only [files, writeDone_procs] using holds_fileWrite ret
  | exit => exact h.of_kernel hk (fun _ hq => hq) fun label hl => ⟨label, hl⟩

theorem resume (hp : p ∈ w.kernel.procs.spawned) (hne : p ≠ SHELL)
    (he : w.kernel.resume p = .ok (k, r)) : World.Inv { w with kernel := k } := by
  have hk := h.kernel.resume hp he
  unfold Kernel.resume at he
  split at he
  · rename_i k' n _
    rw [Except.ok.injEq] at he
    obtain rfl : (w.kernel.readDone p n (w.kernel.files.pipeReadSeg k' n)).1 = k := by rw [he]
    refine h.of_kernel hk (by simp) fun label hl => ⟨label, hl.congr fun x k b => ?_⟩
    simpa only [Kernel.files, Kernel.readDone_procs] using Files.holds_pipeReadSeg _ k' n
  · rename_i k' n rest _
    rw [Except.ok.injEq] at he
    obtain rfl : (w.kernel.writeDone p n (w.kernel.files.pipeWriteSeg k' n rest)).1 = k := by rw [he]
    refine h.of_kernel hk (by simp) fun label hl => ⟨label, hl.congr fun x k b => ?_⟩
    simpa only [Kernel.files, Kernel.writeDone_procs] using Files.holds_pipeWriteSeg _ k' n rest
  · rename_i fd fds _
    obtain ⟨u, c, hc, hheld, ho, hq⟩ := Files.closeFd_spec h.kernel.procs.held (h.kernel.procs.bound p hp) fd
    simp only [Kernel.files, hc, bind, Except.bind, Except.ok.injEq, Prod.mk.injEq] at he
    obtain ⟨rfl, rfl⟩ := he
    refine h.of_kernel hk (fun _ hq => hq) fun label hl => ⟨label, ?_⟩
    exact topology_close hl (fun _ _ _ => hne) fun x k b => h.kernel.holds_close hq hheld ho
  · rw [Except.ok.injEq, Prod.mk.injEq] at he
    obtain ⟨rfl, rfl⟩ := he
    exact h.of_kernel hk (fun _ hq => hq) fun label hl => ⟨label, hl⟩
  · rw [Except.ok.injEq, Prod.mk.injEq] at he
    obtain ⟨rfl, rfl⟩ := he
    exact h

theorem of_shell (hk : k.Inv) (hsub : w.kernel.procs.spawned ⊆ k.procs.spawned)
    (hok : a.Ok w.pids.length) (htop : ∃ label, Topology k.files a.ends w.pids label) :
    World.Inv ⟨k, a, w.pids ++ []⟩ := by
  rw [append_nil]
  exact ⟨hk, hsub h.shell_mem, fun q hq => hsub (h.mem q hq), h.nodup, h.ne, hok, htop⟩

section

variable (hplace : w.kernel.place SHELL = .user)
include hplace

theorem shell_close {c : ℕ} (hd : Kernel.Does w.kernel SHELL (.close c) k r)
    (hok : a.Ok w.pids.length)
    (hends : ∀ label, Topology w.kernel.files w.shell.ends w.pids label →
      ∀ fd j b, (fd, j, b) ∈ a.ends ↔ (fd, j, b) ∈ w.shell.ends ∧ fd ≠ c) : World.Inv ⟨k, a, w.pids ++ []⟩ := by
  have hk := h.kernel.of_does h.shell_mem hplace hd
  cases hd with
  | close held quiet openfiles =>
    obtain ⟨label, hl⟩ := h.topology
    refine h.of_shell hk (fun _ hq => hq) hok ⟨label, ?_⟩
    split_ifs at openfiles with hc
    · have hval : ((Fin.ofNat NOFILE c).val : ℤ) = c := by rw [Fin.val_ofNat, Nat.mod_eq_of_lt hc]
      refine hl.shell_close (fun x k b => h.kernel.holds_close quiet held openfiles) fun fd j b => ?_
      rw [hends label hl, hval]
    · -- a descriptor out of range is none of the shell's
      have hiff : ∀ fd j b, (fd, j, b) ∈ a.ends ↔ (fd, j, b) ∈ w.shell.ends := by
        intro fd j b
        rw [hends label hl]
        refine ⟨And.left, fun he => ⟨he, ?_⟩⟩
        rintro rfl
        obtain ⟨fd', e, -⟩ := (hl.shell _ j b).mp he
        omega
      have ht := hl.congr fun x k b => h.kernel.holds_iff quiet held (congrFun openfiles x)
      exact ⟨ht.may, fun fd j b => (hiff fd j b).trans (ht.shell fd j b), ht.inj⟩

theorem shell_spawn
    {file : Option (Fin NOFILE)} (ha : w.shell = .spawn st it file)
    (hd : Kernel.Does w.kernel SHELL (.spawn (elfIdForProcess st.cmd) 200 (it.inputFd file) it.outFd) k (some ret)) :
    World.Inv ⟨k, w.shell.next ret, w.pids ++ launched ret⟩ := by
  have hk := h.kernel.of_does h.shell_mem hplace hd
  obtain ⟨label, hl⟩ := h.topology
  have hok := h.ok
  rw [ha] at hl hok ⊢
  obtain ⟨hlen, hit, hfile⟩ := hok
  cases hd with
  | spawnFail =>
    refine h.of_shell hk (fun _ hq => hq) (At.ok_spawned hit st hfile none hlen) ⟨label, ?_⟩
    show Topology _ (At.spawned st it file none).ends _ _
    rw [At.spawned_ends]
    exact hl
  | @spawn _ _ _ _ procs child inv spawned fresh spawns =>
    have hcs : child ≠ SHELL := by
      rintro rfl
      exact fresh h.shell_mem
    have hcp : child ∉ w.pids := fun hc => fresh (h.mem _ hc)
    have hsub : ∀ q ∈ w.kernel.procs.spawned, q ∈ procs.spawned := fun q hq => by
      rw [spawned]
      exact mem_cons_of_mem _ hq
    refine ⟨hk, hsub _ h.shell_mem, fun q hq => ?_, ?_, ?_, ?_, label, ?_⟩
    · rcases mem_append.mp hq with hq | hq
      · exact hsub q (h.mem q hq)
      · rw [mem_singleton.mp hq]
        exact spawned ▸ mem_cons_self
    · exact nodup_append.mpr ⟨h.nodup, nodup_singleton _, fun a ha b hb => by
        rw [mem_singleton.mp hb]
        rintro rfl
        exact hcp ha⟩
    · rw [launched, mem_append, mem_singleton, not_or]
      exact ⟨h.ne, hcs.symm⟩
    · exact At.ok_spawned hit st hfile (some child) (by simp [launched, hlen])
    · show Topology procs.files (At.spawned st it file (some child)).ends (w.pids ++ [child]) label
      rw [At.spawned_ends]
      refine Topology.shell_spawn hl hlen hit.pos hfile hcs (fun x k b hx => ?_) fun x k b =>
        h.kernel.holds_spawn h.shell_mem fresh spawns
      rintro rfl
      exact fresh (h.kernel.mem_of_holds hx)

omit hplace in
theorem shell_same (hk : k.Inv) (hprocs : k.procs.spawned = w.kernel.procs.spawned)
    (hok : a.Ok w.pids.length) (hends : a.ends = w.shell.ends)
    (hiff : ∀ x k' b, k.files.Holds x k' b ↔ w.kernel.files.Holds x k' b) : World.Inv ⟨k, a, w.pids ++ []⟩ := by
  obtain ⟨label, hl⟩ := h.topology
  exact h.of_shell hk (fun _ hq => hprocs ▸ hq) hok ⟨label, hends ▸ hl.congr hiff⟩

theorem shell_pipe {i : ℕ} {rest : List Stage} {inFd : ℤ}
    (ha : w.shell = .pipe i st rest inFd) {addr : UInt32}
    (hd : Kernel.Does w.kernel SHELL (.pipe addr) k (some ret)) :
    World.Inv ⟨k, w.shell.next ret, w.pids ++ launched ret⟩ := by
  have hk := h.kernel.of_does h.shell_mem hplace hd
  obtain ⟨label, hl⟩ := h.topology
  have hok := h.ok
  rw [ha] at hl hok ⊢
  obtain ⟨hlen, hpos, hrest⟩ := hok
  cases hd with
  | @pipe _ u c r held quiet ret =>
    rcases r with e | p
    · have hiff : ∀ x k b, u.Holds x k b ↔ w.kernel.files.Holds x k b := fun x k b =>
        h.kernel.holds_iff quiet held (congrFun ret x)
      by_cases h0 : 0 ≤ inFd
      · have : World.Inv ⟨_, .failPipe i inFd, w.pids ++ []⟩ := h.shell_same hk rfl ⟨hpos, h0⟩ (by rw [ha]; rfl) hiff
        simpa only [At.next, launched, if_pos h0] using this
      · have : World.Inv ⟨_, .done, w.pids ++ []⟩ :=
          h.shell_same hk rfl trivial (by rw [ha, At.ends, At.ends, inEnds, if_neg h0]) hiff
        simpa only [At.next, launched, if_neg h0] using this
    · obtain ⟨k₀, href, -, hiff⟩ := h.kernel.holds_pipe quiet held ret
      refine h.of_shell hk (fun _ hq => hq) (a := .launch st ⟨i, rest, inFd, some p⟩)
        (At.ok_launch ⟨hpos, by simpa using hrest⟩ st hlen) ⟨update label k₀ (some i), ?_⟩
      rw [At.launch_ends]
      refine Topology.shell_pipe hl hlen hpos hiff fun x b hx => ?_
      exact hx.ref_ne_zero h.kernel.procs.held.inv href

theorem shell_open
    (ha : w.shell = .open st it) {omode : BitVec 32} {ip : Except Errno ι}
    (hd : Kernel.Does w.kernel SHELL (.open omode ip) k (some ret)) :
    World.Inv ⟨k, w.shell.next ret, w.pids ++ launched ret⟩ := by
  have hk := h.kernel.of_does h.shell_mem hplace hd
  obtain ⟨label, hl⟩ := h.topology
  have hok := h.ok
  have hends : w.shell.ends = it.ends := by rw [ha]; rfl
  rw [ha] at hok ⊢
  obtain ⟨hlen, hit⟩ := hok
  have hfail := At.ok_returned hit none hlen
  have hfail' : (At.returned it none).ends = w.shell.ends := by rw [At.returned_ends, hends]
  cases hd with
  | openFail => exact h.shell_same hk rfl hfail hfail' fun _ _ _ => Iff.rfl
  | @«open» _ _ _ _ r held quiet ret =>
    rcases r with e | fd
    · exact h.shell_same hk rfl hfail hfail' fun _ _ _ => h.kernel.holds_open quiet held ret
    · refine h.shell_same hk rfl (a := .spawn st it (some fd)) ⟨hlen, hit, ?_⟩ hends.symm fun _ _ _ =>
        h.kernel.holds_open quiet held ret
      -- the descriptor was free
      rintro _ ⟨⟩ j b he
      rw [← hends] at he
      obtain ⟨fd', e, k, ⟨f, hf, -⟩, -⟩ := (hl.shell _ j b).mp he
      obtain rfl : fd' = fd := Fin.ext (by omega)
      rw [ret.1] at hf
      cases hf

theorem shell (hu : w.shell.Calls u)
    (hd : Kernel.Does w.kernel SHELL u k (some ret)) : World.Inv ⟨k, w.shell.next ret, w.pids ++ launched ret⟩ := by
  have hok := h.ok
  cases ha : w.shell with
  | pipe i st rest inFd =>
    rw [ha] at hu
    cases u <;> try exact hu.elim
    exact ha ▸ h.shell_pipe hplace ha hd
  | «open» st it =>
    rw [ha] at hu
    cases u <;> try exact hu.elim
    exact ha ▸ h.shell_open hplace ha hd
  | spawn st it file =>
    rw [ha] at hu
    obtain rfl : u = _ := hu
    exact ha ▸ h.shell_spawn hplace ha hd
  | chdir st it =>
    rw [ha] at hu hok
    obtain ⟨hlen, hit⟩ := hok
    cases u <;> try exact hu.elim
    rename_i r
    cases hd with
    | other =>
      by_cases hr : r < 0
      · have : World.Inv ⟨w.kernel, At.returned it none, w.pids ++ []⟩ :=
          h.shell_same h.kernel rfl (At.ok_returned hit none hlen) (by rw [At.returned_ends, ha]; rfl) fun _ _ _ => Iff.rfl
        simpa only [At.next, launched, if_pos hr] using this
      · have : World.Inv ⟨w.kernel, .spawn st it none, w.pids ++ []⟩ :=
          h.shell_same h.kernel rfl ⟨hlen, hit, nofun⟩ (by rw [ha]; rfl) fun _ _ _ => Iff.rfl
        simpa only [At.next, launched, if_neg hr] using this
  | chdirBack it pid =>
    rw [ha] at hu hok
    obtain ⟨hlen, hit⟩ := hok
    cases u <;> try exact hu.elim
    cases hd with
    | other =>
      exact h.shell_same h.kernel rfl (a := .returned it pid) (At.ok_returned hit pid hlen)
        (by rw [At.returned_ends, ha]; rfl) fun _ _ _ => Iff.rfl
  | closeFile it file pid =>
    rw [ha] at hu hok
    obtain ⟨hlen, hit, hfile⟩ := hok
    obtain rfl : u = _ := hu
    obtain ⟨e, rfl⟩ := hd.closed
    refine h.shell_close hplace hd (a := .returned it pid) (At.ok_returned hit pid hlen) fun label hl fd j b => ?_
    rw [At.returned_ends, ha]
    refine ⟨fun he => ⟨he, ?_⟩, And.left⟩
    rintro rfl
    exact hfile j b he
  | closeIn it pid =>
    rw [ha] at hu hok
    obtain ⟨hlen, hit, h0⟩ := hok
    obtain rfl : u = _ := hu
    obtain ⟨e, rfl⟩ := hd.closed
    refine h.shell_close hplace hd (a := .afterIn it pid) (At.ok_afterIn hit pid hlen) fun label hl fd j b => ?_
    rw [ha] at hl ⊢
    rw [Int.toNat_of_nonneg h0, At.afterIn_ends, At.ends, Iter.ends, mem_append, mem_inEnds]
    have hpos := hit.pos h0
    constructor
    · intro he
      refine ⟨.inr he, ?_⟩
      rintro rfl
      have hin : (it.inFd, it.i - 1, false) ∈ (At.closeIn it pid).ends := by simp [At.ends, Iter.ends, mem_inEnds, h0]
      have hout : (it.inFd, j, b) ∈ (At.closeIn it pid).ends := by simp [At.ends, Iter.ends, he]
      have := (hl.ends_unique hin hout).1
      cases hp : it.pipefd with
      | none => simp [hp] at he
      | some p =>
        simp only [hp, mem_pipeEnds] at he
        omega
    · rintro ⟨⟨-, e, -⟩ | he, hne⟩
      · exact absurd e hne
      · exact he
  | closeOut it p =>
    rw [ha] at hu hok
    obtain ⟨hlen, hit, hp⟩ := hok
    obtain rfl : u = _ := hu
    obtain ⟨e, rfl⟩ := hd.closed
    have hrest : it.rest ≠ [] := fun e => by
      rw [hit.pipefd.mpr e] at hp
      cases hp
    refine h.shell_close hplace hd (a := .top (it.i + 1) p.1.val it.rest) ?_ fun label hl fd j b => ?_
    · rw [hlen]
      exact At.ok_top _ fun _ => Nat.succ_le_succ (Nat.zero_le _)
    · rw [ha] at hl ⊢
      rw [At.top_ends hrest, At.ends, mem_inEnds, mem_pipeEnds]
      have hdiff : (p.1.val : ℤ) ≠ p.2.val := fun e => by
        have h1 : ((p.1.val : ℤ), it.i, false) ∈ (At.closeOut it p).ends := by simp [At.ends, mem_pipeEnds]
        have h2 : ((p.1.val : ℤ), it.i, true) ∈ (At.closeOut it p).ends := by simp [At.ends, mem_pipeEnds, e]
        cases (hl.ends_unique h1 h2).2
      cases b <;> simp <;> omega
  | failRead i p =>
    rw [ha] at hu
    obtain rfl : u = _ := hu
    obtain ⟨e, rfl⟩ := hd.closed
    refine h.shell_close hplace hd (a := .failWrite i p) trivial fun label hl fd j b => ?_
    rw [ha] at hl ⊢
    have hdiff : (p.1.val : ℤ) ≠ p.2.val := fun e => by
      have h1 : ((p.1.val : ℤ), i, false) ∈ (At.failRead i p).ends := by simp [At.ends, mem_pipeEnds]
      have h2 : ((p.1.val : ℤ), i, true) ∈ (At.failRead i p).ends := by simp [At.ends, mem_pipeEnds, e]
      cases (hl.ends_unique h1 h2).2
    cases b <;> simp [At.ends, mem_pipeEnds] <;> omega
  | failWrite i p =>
    rw [ha] at hu
    obtain rfl : u = _ := hu
    obtain ⟨e, rfl⟩ := hd.closed
    refine h.shell_close hplace hd (a := .done) trivial fun label hl fd j b => ?_
    rw [ha]
    simp [At.ends]
    omega
  | failPipe i inFd =>
    rw [ha] at hu hok
    obtain rfl : u = _ := hu
    obtain ⟨e, rfl⟩ := hd.closed
    refine h.shell_close hplace hd (a := .done) trivial fun label hl fd j b => ?_
    rw [ha, At.ends, At.ends, mem_inEnds, Int.toNat_of_nonneg hok.2]
    tauto
  | closeLast inFd =>
    rw [ha] at hu
    obtain rfl : u = _ := hu
    obtain ⟨e, rfl⟩ := hd.closed
    refine h.shell_close hplace hd (a := .done) trivial fun label hl fd j b => ?_
    rw [ha]
    simp [At.ends]
  | done =>
    rw [ha] at hu
    cases u <;> exact hu.elim

end

theorem not_holds (hdone : w.shell = .done) (fd : Fin NOFILE) (k : Fin NPIPE) (b : Bool) :
    ¬ w.kernel.files.Holds (SHELL, fd) k b := by
  obtain ⟨label, hl⟩ := h.topology
  intro hk
  obtain ⟨j, -, he⟩ := hl.shell_label hk
  rw [hdone] at he
  cases he

omit h in
theorem topology_nil (h : ∀ fd k b, ¬ s.Holds (SHELL, fd) k b) : Topology s [] [] fun _ => none where
  may x k b hx := by
    refine ⟨?_, not_mem_nil⟩
    obtain ⟨p, fd⟩ := x
    rintro rfl
    exact h fd k b hx
  shell fd j b := by simp
  inj x y k k' b b' j hx hy hl := by cases hl

theorem step {w' : World ι} (hs : World.Step w w') : w'.Inv := by
  cases hs with
  | run stages hdone =>
    refine ⟨h.kernel, h.shell_mem, nofun, nodup_nil, not_mem_nil, At.ok_top stages nofun, fun _ => none, ?_⟩
    have hends : (At.top 0 (-1) stages).ends = [] := by
      by_cases hn : stages = []
      · rw [hn]
        rfl
      · rw [At.top_ends hn]
        rfl
    exact hends ▸ topology_nil (h.not_holds hdone)
  | prompt hdone hplace hu he =>
    exact h.call h.shell_mem (fun fd k b hk => absurd hk (h.not_holds hdone fd k b)) hplace (h.kernel.does h.shell_mem he)
      (.inr ⟨h.ne, .inl hu⟩)
  | shell hplace hu he => exact h.shell hplace hu (h.kernel.does h.shell_mem he)
  | stage hp hplace hu he =>
    have hne : _ ≠ SHELL := fun e => h.ne (e ▸ hp)
    exact h.call (h.mem _ hp) (fun _ _ _ _ => hne) hplace (h.kernel.does (h.mem _ hp) he) (.inl hu)
  | other hp hpids hshell hplace he =>
    exact h.call hp (fun _ _ _ _ => hshell) hplace (h.kernel.does hp he) (.inr ⟨hpids, .inr hshell⟩)
  | resume hp hshell he => exact h.resume hp hshell he

end

end World.Inv

/-- After `kern_main`, before the first command. -/
def World.boot (quota : UInt32) : World ι := ⟨Kernel.boot quota, .done, []⟩

theorem World.inv_boot (quota : UInt32) : (World.boot quota : World ι).Inv where
  kernel := Kernel.inv_boot quota
  shell_mem := by simp [World.boot, Kernel.boot, FileProcs.boot]
  mem := nofun
  nodup := nodup_nil
  ne := not_mem_nil
  ok := trivial
  topology := ⟨_, World.Inv.topology_nil fun fd k b => Kernel.not_holds_boot quota⟩

theorem World.inv_of_reach {quota : UInt32} (h : ReflTransGen World.Step (World.boot quota) w) : w.Inv := by
  induction h with
  | refl => exact World.inv_boot quota
  | tail _ hs ih => exact ih.step hs

/-! ### No deadlock -/

namespace World.Inv

variable {w : World ι} {label : Fin NPIPE → Option ℕ} {p : ℕ} {k : Fin NPIPE} {b : Bool} {i : ℕ}

theorem label_of_holds (h : w.Inv) (hl : Topology w.kernel.files w.shell.ends w.pids label) (hp : w.pids[i]? = some p)
    {fd : Fin NOFILE} (hk : w.kernel.files.Holds (p, fd) k b) : ∃ j, label k = some j ∧ i = if b then j else j + 1 := by
  have hmem := mem_of_getElem? hp
  have hmay := hl.may _ k b hk
  cases hj : label k with
  | none =>
    rw [hj] at hmay
    exact absurd hmem hmay.2
  | some j =>
    rw [hj] at hmay
    rcases hmay with e | e
    · exact absurd (e ▸ hmem) h.ne
    · obtain ⟨hi, hpi⟩ := List.getElem?_eq_some_iff.mp hp
      obtain ⟨hj', hpj⟩ := List.getElem?_eq_some_iff.mp e
      exact ⟨j, rfl, (h.nodup.getElem_inj_iff).mp (hpi.trans hpj.symm)⟩

variable {j : ℕ}

section

variable (h : w.Inv) (hl : Topology w.kernel.files w.shell.ends w.pids label)
include h hl

theorem holder (hshell : ∀ fd k b, ¬ w.kernel.files.Holds (SHELL, fd) k b) (hj : label k = some j)
    (ho : (w.kernel.files.pipe k).isOpen b = true) :
    ∃ q, w.pids[if b then j else j + 1]? = some q ∧ w.kernel.place q ≠ .dead := by
  obtain ⟨⟨q, fd⟩, hq⟩ := exists_holds h.kernel.procs.held ho
  have hmay := hl.may _ k b hq
  rw [hj] at hmay
  refine ⟨q, hmay.resolve_left ?_, fun hdead => ?_⟩
  · rintro rfl
    exact hshell fd k b hq
  · have hplace := h.kernel.place q
    rw [hdead] at hplace
    obtain ⟨f, hf, -⟩ := hq
    rw [hplace fd] at hf
    cases hf

theorem not_both {m n : ℕ} {rest : List UInt8}
    {p q : ℕ} {k' : Fin NPIPE} (hp : w.pids[j + 1]? = some p) (hq : w.pids[j]? = some q)
    (hr : w.kernel.place p = .reading k n true) (hw : w.kernel.place q = .writing k' m rest true) : False := by
  have hpr := h.kernel.place p
  have hpw := h.kernel.place q
  rw [hr] at hpr
  rw [hw] at hpw
  obtain ⟨⟨fd, hk⟩, hempty⟩ := hpr
  obtain ⟨⟨fd', hk'⟩, hfull⟩ := hpw
  obtain ⟨j1, hj1, e1⟩ := h.label_of_holds hl hp hk
  obtain ⟨j2, hj2, e2⟩ := h.label_of_holds hl hq hk'
  obtain rfl : j1 = j := by simpa using e1.symm
  obtain rfl : j2 = j1 := by simpa using e2.symm
  obtain rfl := hl.inj _ _ k k' _ _ j2 hk hk' hj1 hj2
  have hok := h.kernel.procs.held.inv.ok k
  have he := hok.empty_iff.mp (hempty rfl).1
  have hf := hok.full_iff.mp (hfull rfl).1
  rw [he] at hf
  cases hf

section

variable (hshell : ∀ fd k b, ¬ w.kernel.files.Holds (SHELL, fd) k b)
    (hall : ∀ q ∈ w.pids, w.kernel.place q ≠ .dead → (w.kernel.place q).Asleep)
include hshell hall

/-- If everybody is asleep, nobody is asleep on an empty pipe: the writer before them would be, too, and so on to the
first stage. -/
theorem not_reading :
    ∀ (i p : ℕ) k n, w.pids[i]? = some p → w.kernel.place p ≠ .reading k n true := by
  intro i
  induction i with
  | zero =>
    intro p k n hp hr
    have hplace := h.kernel.place p
    rw [hr] at hplace
    obtain ⟨⟨fd, hk⟩, -⟩ := hplace
    obtain ⟨j, -, e⟩ := h.label_of_holds hl hp hk
    cases e
  | succ i ih =>
    intro p k n hp hr
    have hplace := h.kernel.place p
    rw [hr] at hplace
    obtain ⟨⟨fd, hk⟩, hempty⟩ := hplace
    obtain ⟨j, hj, e⟩ := h.label_of_holds hl hp hk
    obtain rfl : i = j := by simpa using e
    obtain ⟨q, hq, hdead⟩ := h.holder hl hshell hj (b := true) (hempty rfl).2
    rcases (hall q (mem_of_getElem? hq) hdead).cases with ⟨k', m, hpl⟩ | ⟨k', m, rest, hpl⟩
    · exact ih q k' m hq hpl
    · exact h.not_both hl hp hq hr hpl

/-- If everybody is asleep, nobody is asleep on a full pipe: the reader after them would be, too, and so on to the last
stage. -/
theorem not_writing :
    ∀ (d i p : ℕ) k n rest, w.pids.length ≤ i + d → w.pids[i]? = some p → w.kernel.place p ≠ .writing k n rest true := by
  intro d
  induction d with
  | zero =>
    intro i p k n rest hle hp
    rw [List.getElem?_eq_none (by omega)] at hp
    cases hp
  | succ d ih =>
    intro i p k n rest hle hp hw
    have hplace := h.kernel.place p
    rw [hw] at hplace
    obtain ⟨⟨fd, hk⟩, hfull⟩ := hplace
    obtain ⟨j, hj, e⟩ := h.label_of_holds hl hp hk
    obtain rfl : i = j := by simpa using e
    obtain ⟨q, hq, hdead⟩ := h.holder hl hshell hj (b := false) (hfull rfl).2
    rcases (hall q (mem_of_getElem? hq) hdead).cases with ⟨k', m, hpl⟩ | ⟨k', m, rest', hpl⟩
    · exact h.not_reading hl hshell hall _ q k' m hq hpl
    · exact ih (i + 1) q k' m rest' (by omega) hq hpl

end

end

theorem exists_awake (h : w.Inv) (hshell : ∀ fd k b, ¬ w.kernel.files.Holds (SHELL, fd) k b) (hp : p ∈ w.pids)
    (hdead : w.kernel.place p ≠ .dead) : ∃ q ∈ w.pids, w.kernel.place q ≠ .dead ∧ ¬ (w.kernel.place q).Asleep := by
  by_contra hcon
  have hall : ∀ q ∈ w.pids, w.kernel.place q ≠ .dead → (w.kernel.place q).Asleep := fun q hq hd =>
    not_not.mp fun ha => hcon ⟨q, hq, hd, ha⟩
  obtain ⟨label, hl⟩ := h.topology
  obtain ⟨i, hi⟩ := List.getElem?_of_mem hp
  rcases (hall p hp hdead).cases with ⟨k, n, hpl⟩ | ⟨k, n, rest, hpl⟩
  · exact h.not_reading hl hshell hall i p k n hi hpl
  · exact h.not_writing hl hshell hall w.pids.length i p k n rest (by omega) hi hpl

end World.Inv

/-- Pipelines never deadlock. Whoever sleeps on a pipe has reason to, and once the shell has closed its own ends, not
every stage that has not exited sleeps on a pipe. -/
theorem pipeline_no_deadlock (quota : UInt32) (w : World ι) (h : ReflTransGen World.Step (World.boot quota) w) :
    (∀ p k n, w.kernel.place p = .reading k n true →
      (w.kernel.files.pipe k).contents = [] ∧ (w.kernel.files.pipe k).writeopen = true) ∧
    (∀ p k n rest, w.kernel.place p = .writing k n rest true →
      (w.kernel.files.pipe k).contents.length = PIPESIZE ∧ (w.kernel.files.pipe k).readopen = true) ∧
    (w.shell = .done → ∀ fd k b, ¬ w.kernel.files.Holds (SHELL, fd) k b) ∧
    ((∀ fd k b, ¬ w.kernel.files.Holds (SHELL, fd) k b) → (∃ p ∈ w.pids, w.kernel.place p ≠ .dead) →
      ∃ p ∈ w.pids, w.kernel.place p ≠ .dead ∧ ¬ (w.kernel.place p).Asleep) := by
  have hi := World.inv_of_reach h
  refine ⟨fun p k n hp => ?_, fun p k n rest hp => ?_, hi.not_holds, fun hshell ⟨p, hp, hdead⟩ => ?_⟩
  · have hplace := hi.kernel.place p
    rw [hp] at hplace
    obtain ⟨hempty, hopen⟩ := hplace.2 rfl
    exact ⟨(hi.kernel.procs.held.inv.ok k).empty_iff.mp hempty, hopen⟩
  · have hplace := hi.kernel.place p
    rw [hp] at hplace
    obtain ⟨hfull, hopen⟩ := hplace.2 rfl
    exact ⟨(hi.kernel.procs.held.inv.ok k).full_iff.mp hfull, hopen⟩
  · exact hi.exists_awake hshell hp hdead

/-- `CAT | ROT13`, launched, and the second stage reads before the first one writes. -/
def readerFirst : List (Move Unit) :=
  [.run [⟨.cat, 1⟩, ⟨.rot13, 1⟩], .shell (.pipe 0x40000000), .shell (.spawn 6 200 (-1) 4), .shell (.close 4),
    .shell (.spawn 7 200 3 (-1)), .shell (.close 3), .shell (.close 3), .stage 512 (.read 0 0x40000000 512 none)]

theorem pipeline_no_deadlock_reader_first : ∃ w : World Unit, readerFirst.foldlM World.move (World.boot 300000) = some w ∧
    w.pids = [511, 512] ∧ w.kernel.place 512 = .reading 0 512 true ∧ (w.kernel.files.pipe 0).contents = [] ∧
      ∃ p ∈ w.pids, w.kernel.place p ≠ .dead ∧ ¬ (w.kernel.place p).Asleep := by
  have hrun : (readerFirst.foldlM World.move (World.boot 300000)).map
      (fun w => (w.pids, w.shell, w.kernel.place 511, w.kernel.place 512)) =
        some ([511, 512], .done, .user, .reading 0 512 true) := by
    decide
  obtain ⟨w, hw, hrun⟩ := Option.map_eq_some_iff.mp hrun
  simp only [Prod.mk.injEq] at hrun
  obtain ⟨hpids, hdone, h511, h512⟩ := hrun
  obtain ⟨hread, -, hnone, hawake⟩ := pipeline_no_deadlock 300000 w (World.reach_of_moves hw)
  refine ⟨w, hw, hpids, h512, (hread 512 0 512 h512).1, hawake (hnone hdone) ⟨511, ?_, ?_⟩⟩
  · simp [hpids]
  · simp [h511]

end MCertiKOS.Shell
