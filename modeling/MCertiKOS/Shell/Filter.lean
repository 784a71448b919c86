import MCertiKOS.Shell.Pipeline

/-!
# The programs of a pipeline

`user/cat/cat.c` and `user/rot13/rot13.c` as the stages of a pipeline run them:
a loop of `sys_read` and `sys_write`, then the closes at the end of `main`, then
`sys_exit` from `user/lib/entry.S`. A program that the shell spawns gets no
arguments, so `CAT` takes its first branch.

`Session` is a pipeline `CAT f | S1 | … | Sn` while the shell launches it and its
stages run: the system of `Pipeline` together with where each program is. The
first stage reads the file through `inode_read`, of which the contents of the
file are what is left here.
-/

namespace MCertiKOS.Shell

open FileSystem Memory Thread Relation

variable {ι : Type*}

/-! ### `rot13_char` -/

/-- `rot13_char`. The comparisons are of signed characters; those above 127 are below all letters. -/
def rot13Char (c : UInt8) : UInt8 :=
  if 97 ≤ c ∧ c ≤ 122 then 97 + (c - 97 + 13) % 26
  else if 65 ≤ c ∧ c ≤ 90 then 65 + (c - 65 + 13) % 26
  else c

theorem rot13Char_rot13Char (c : UInt8) : rot13Char (rot13Char c) = c := by
  have h : ∀ n : Fin 256, rot13Char (rot13Char (UInt8.ofFin n)) = UInt8.ofFin n := by decide +kernel
  exact h c.toFin

theorem rot13Char_involutive : Function.Involutive rot13Char := rot13Char_rot13Char

/-- A program that copies its input, changing every byte. -/
inductive Filter where
  /-- `CAT` without arguments. -/
  | cat
  | rot13
  deriving DecidableEq

namespace Filter

def cmd : Filter → Cmd
  | cat => .cat
  | rot13 => .rot13

/-- What becomes of a byte between `sys_read` and `sys_write`. -/
def byte : Filter → UInt8 → UInt8
  | cat => id
  | rot13 => rot13Char

end Filter

/-! ### The programs -/

abbrev BUFSIZE : ℕ := 512

/-- The system call a program makes next. -/
inductive Prog where
  /-- `sys_read(0, buf, sizeof(buf))`. -/
  | read
  /-- `sys_write(1, buf, n)`, with the bytes in the buffer. -/
  | write (bytes : List UInt8)
  /-- `sys_close(1)`. -/
  | closeOut
  /-- `sys_close(0)`, of `ROT13` only. -/
  | closeIn
  /-- `sys_exit`. -/
  | exit

namespace Prog

/-- The call, with the address of the buffer, what `console_read` or `inode_read` deliver and what `inode_write` stores. -/
def call (buf : UInt32) (input : Option (List UInt8)) (output : ℕ) : Prog → UserCall ι
  | read => .read 0 buf BUFSIZE input
  | write bytes => .write 1 buf bytes output
  | closeOut => .close 1
  | closeIn => .close 0
  | exit => .exit

def next (f : Filter) : Prog → Ret → Prog
  | read, .read r bytes => if 0 < r then write (bytes.map f.byte) else closeOut
  | write _, .wrote _ => read
  | closeOut, .closed _ =>
    match f with
    | .cat => exit
    | .rot13 => closeIn
  | closeIn, .closed _ => exit
  | g, _ => g

def Past : Prog → Prop
  | read => False
  | write _ => False
  | _ => True

theorem stageCall (buf : UInt32) (input : Option (List UInt8)) (output : ℕ) (g : Prog) :
    StageCall (g.call buf input output : UserCall ι) := by
  cases g <;> trivial

end Prog

/-! ### The system -/

/-- `inode_read` from a file with these contents. -/
def inodeRead (content : List UInt8) (off : UInt32) (n : ℕ) : Option (List UInt8) :=
  if content.length < off.toNat ∨ off + UInt32.ofNat n < off then none else some ((content.drop off.toNat).take n)

/-- A command line `CAT f | S1 | … | Sn`, and what it meets. -/
structure Job (ι : Type*) where
  /-- `S1, …, Sn`. -/
  filters : List Filter
  ip : ι
  content : ι → List UInt8
  /-- No file is larger than `MAXFILE` blocks. -/
  content_le : ∀ i, (content i).length ≤ 140 * 512
  buf : ℕ → UInt32
  lo_le_buf : ∀ i, VM_USERLO ≤ buf i
  buf_le_hi : ∀ i, (buf i).toNat + BUFSIZE ≤ VM_USERHI.toNat
  /-- The file structures that processes other than the shell have open before. -/
  busy : Finset (Fin NFILE)
  room : busy.card + NOFILE + 3 * (filters.length + 1) ≤ NFILE

namespace Job

def programs (e : Job ι) : List Filter := .cat :: e.filters

def stages (e : Job ι) : List Stage := ⟨.cat, 2⟩ :: e.filters.map fun f => ⟨f.cmd, 1⟩

/-- The bytes that reach stage `i`. -/
def input (e : Job ι) (i : ℕ) : List UInt8 := (e.programs.take i).foldl (fun bs f => bs.map f.byte) (e.content e.ip)

end Job

/-- The system while a pipeline runs. -/
structure Session (ι : Type*) where
  world : World ι
  prog : ℕ → Prog

namespace Session

/-- The program of stage `i` goes on if its call has returned. -/
def returns (e : Job ι) (σ : Session ι) (i : ℕ) (k : Kernel ι) (r : Option Ret) : Session ι :=
  ⟨{ σ.world with kernel := k },
    match r, e.programs[i]? with
    | some r, some f => Function.update σ.prog i ((σ.prog i).next f r)
    | _, _ => σ.prog⟩

/-- A step of the shell, or of a stage that makes its next call or goes on in one. -/
inductive Step (e : Job ι) : Session ι → Session ι → Prop
  /-- The shell makes its next call; the path in it is that of the file. -/
  | shell {σ : Session ι} {u : UserCall ι} {k : Kernel ι} {r : Ret} (hplace : σ.world.kernel.place SHELL = .user)
      (hu : σ.world.shell.Calls u) (hopen : ∀ omode ip, u = .open omode ip → ip = .ok e.ip)
      (he : σ.world.kernel.call SHELL u = .ok (k, some r)) :
      Step e σ ⟨⟨k, σ.world.shell.next r, σ.world.pids ++ launched r⟩, σ.prog⟩
  /-- A stage makes a call. -/
  | call {σ : Session ι} {i p : ℕ} {input : Option (List UInt8)} {output : ℕ} {k : Kernel ι} {r : Option Ret}
      (hp : σ.world.pids[i]? = some p) (hplace : σ.world.kernel.place p = .user)
      (hin : ∀ v ip, σ.world.kernel.files.view (p, 0) = some v → v.type = .inode → v.ip = some ip →
        input = inodeRead (e.content ip) v.off BUFSIZE)
      (he : σ.world.kernel.call p ((σ.prog i).call (e.buf i) input output) = .ok (k, r)) :
      Step e σ (σ.returns e i k r)
  /-- A stage goes on in a call. -/
  | resume {σ : Session ι} {i p : ℕ} {k : Kernel ι} {r : Option Ret} (hp : σ.world.pids[i]? = some p)
      (he : σ.world.kernel.resume p = .ok (k, r)) : Step e σ (σ.returns e i k r)

/-- `run_pipeline` is called; the histories start here. -/
def start (e : Job ι) (w : World ι) : Session ι :=
  ⟨⟨{ w.kernel with got := fun _ => [], put := fun _ => [], shown := fun _ => [] }, .top 0 (-1) e.stages, []⟩,
    fun _ => .read⟩

/-- A choice of who goes next. -/
inductive Move (ι : Type*) where
  /-- The shell makes a call. -/
  | shell (u : UserCall ι)
  /-- Stage `i` makes its next call. -/
  | call (i : ℕ)

open scoped FileSystem.Sizes in
/-- What `inode_read` delivers to process `p`. -/
def deliver (e : Job ι) (s : Kernel ι) (p : ℕ) : Option (List UInt8) :=
  (s.files.view (p, 0)).bind fun v => v.ip.bind fun ip => inodeRead (e.content ip) v.off BUFSIZE

def OpensFile (e : Job ι) : UserCall ι → Prop
  | .open _ ip => ip = .ok e.ip
  | _ => True

instance [DecidableEq ι] (e : Job ι) (u : UserCall ι) : Decidable (OpensFile e u) :=
  match u with
  | .open _ ip => decEq ip (.ok e.ip)
  | .pipe _ | .close _ | .spawn .. | .read .. | .write .. | .exit | .other _ => instDecidableTrue

def move [DecidableEq ι] (e : Job ι) (σ : Session ι) : Move ι → Option (Session ι)
  | .shell u =>
    if σ.world.kernel.place SHELL = .user ∧ σ.world.shell.Calls u ∧ OpensFile e u then
      match σ.world.kernel.call SHELL u with
      | .ok (k, some r) => some ⟨⟨k, σ.world.shell.next r, σ.world.pids ++ launched r⟩, σ.prog⟩
      | _ => none
    else none
  | .call i =>
    match σ.world.pids[i]? with
    | none => none
    | some p =>
      if σ.world.kernel.place p = .user then
        match σ.world.kernel.call p ((σ.prog i).call (e.buf i) (deliver e σ.world.kernel p) 0) with
        | .ok (k, r) => some (σ.returns e i k r)
        | .error _ => none
      else none

variable {e : Job ι} {σ τ : Session ι}

theorem step_of_move [DecidableEq ι] {m : Move ι} (h : σ.move e m = some τ) : Step e σ τ := by
  cases m with
  | shell u =>
    rw [move, Option.ite_none_right_eq_some] at h
    obtain ⟨⟨hplace, hu, hopen⟩, h⟩ := h
    split at h
    · rename_i k r he
      cases h
      refine .shell hplace hu ?_ he
      rintro omode ip rfl
      exact hopen
    · cases h
  | call i =>
    rw [move] at h
    split at h
    · cases h
    · rename_i p hp
      rw [Option.ite_none_right_eq_some] at h
      obtain ⟨hplace, h⟩ := h
      split at h
      · rename_i k r he
        cases h
        refine .call hp hplace (fun v ip hv _ hip => ?_) he
        rw [deliver, hv, Option.bind_some, hip, Option.bind_some]
      · cases h

theorem reach_of_moves [DecidableEq ι] {ms : List (Move ι)}
    (h : ms.foldlM (move e) σ = some τ) : ReflTransGen (Step e) σ τ := by
  induction ms generalizing σ with
  | nil =>
    cases h
    exact .refl
  | cons m ms ih =>
    rw [List.foldlM_cons] at h
    obtain ⟨σ1, h1, h2⟩ := Option.bind_eq_some_iff.mp h
    exact .head (step_of_move h1) (ih h2)

theorem Step.world (hi : σ.world.Inv) (h : Step e σ τ) : World.Step σ.world τ.world := by
  cases h with
  | shell hplace hu hopen he => exact .shell hplace hu he
  | call hp hplace hin he => exact .stage (List.mem_of_getElem? hp) hplace (Prog.stageCall _ _ _ _) he
  | resume hp he =>
    have hmem := List.mem_of_getElem? hp
    exact .resume (hi.mem _ hmem) (fun e => hi.ne (e ▸ hmem)) he

end Session

end MCertiKOS.Shell
