import MCertiKOS.Library.Alone
import MCertiKOS.Shell.Scanner

/-!
# The arguments of the built-in commands

The built-in commands of `user/shell/shell.c` once more, as functions of `argc` that read `argv`. `arg i` is a use of
the string that `argv[i]` points to, by the command or by a function that it gives the pointer to; what is there is
an answer, as for the calls. With the strings filled in, the commands are those of `Shell.Command` (`commands_fill`).

`write` and `append` with one argument hand `argv[2]`, which is `NULL`, to `open` (`write_reads_null`). Otherwise a
command uses only arguments that it has (`arguments_within`).
-/

namespace MCertiKOS.Shell.Arguments

open Library Builtin Scanner

/-- The string at `argv[i]` is used. -/
inductive ArgvOp : Type → Type where
  /-- `argv[i]`. -/
  | arg (i : ℕ) : ArgvOp Str

/-- The calls of a command, and its uses of `argv`. -/
abbrev ArgOp (β : Type) := ShellOp β ⊕ ArgvOp β

/-- Commands that read `argv`. -/
abbrev ArgM := Code ArgOp

/-- A function that does not know `argv`. -/
def call {α : Type} (c : ShellM α) : ArgM α := c.mapOp fun _ => .inl

/-- The string at `argv[i]`. -/
def arg (i : ℕ) : ArgM Str := Code.op (.inr (.arg i))

/-- `for (; n > 0; i++, n--) body(i)`. -/
def forArgs (body : ℕ → ArgM PUnit) : ℕ → ℕ → ArgM PUnit
  | _, 0 => pure ⟨⟩
  | i, n + 1 => do
    body i
    forArgs body (i + 1) n

/-! ### Commands -/

def shellLs (argc : ℕ) : ArgM ℤ :=
  if argc = 1 then do
    let r ← call (Code.op (.ls 1024))
    call (printf "%s\n" [.str (cString r.2)])
    return 0
  else if argc = 2 then do
    let pwd ← call (Code.op .pwd)
    let path ← arg 1
    let _ ← call (Code.op (.chdir path))
    let r ← call (Code.op (.ls 1024))
    call (printf "%s\n" [.str (cString r.2)])
    let _ ← call (Code.op (.chdir (cString pwd)))
    return 0
  else do
    call (printf "ls: too many arguments.\n" [])
    return 0

def shellCd (argc : ℕ) : ArgM ℤ :=
  if argc = 1 then do
    let _ ← call (Code.op (.chdir []))
    return 0
  else do
    let path ← arg 1
    let _ ← call (Code.op (.chdir path))
    return 0

def shellCp (fuel argc : ℕ) : ArgM ℤ :=
  if argc < 3 then do
    call (printf "cp: too few arguments.\n" [])
    return 0
  else if 4 < argc then do
    call (printf "cp: too many arguments.\n" [])
    return 0
  else if argc = 3 then do
    let src ← arg 1
    let dest ← arg 2
    call (shellCpPath fuel dest src false)
    return 0
  else do
    let option ← arg 1
    if option ≠ ascii "-r" then do
      call (printf "cp: invalid option. try '-r' ?\n" [])
      return 0
    else do
      let src ← arg 2
      let dest ← arg 3
      call (shellCpPath fuel dest src true)
      return 0

def shellMv (fuel argc : ℕ) : ArgM ℤ :=
  if argc ≠ 3 then do
    call (printf "mv: argument invalid.\n" [])
    return 0
  else do
    let src ← arg 1
    let dest ← arg 2
    call (Builtin.shellMv fuel [src, dest])

def shellRm (fuel argc : ℕ) : ArgM ℤ :=
  if argc = 1 then do
    call (printf "Too few arguments.\n" [])
    return 0
  else do
    let option ← arg 1
    let isRecursive : Bool := option = ascii "-r"
    let pathIdx := if isRecursive then 2 else 1
    if argc ≤ pathIdx then do
      call (printf "rm: no path argument.\n" [])
      return 0
    else do
      let path ← arg pathIdx
      if ← call (isFileExist path) then do
        call (shellRmPath fuel path isRecursive)
        return 0
      else do
        call (printf "rm: can not remove %s: is not a file or directory.\n" [.str path])
        return 0

/-- The body of the loop of `shell_mkdir`. -/
def mkdirArg (i : ℕ) : ArgM PUnit := do
  let path ← arg i
  let r ← call (Code.op (.mkdir path))
  if r = 0 then return ⟨⟩ else call (printf "make dir failed.\n" [])

def shellMkdir (argc : ℕ) : ArgM ℤ := do
  (if argc = 1 then call (printf "mkdir failed, no path\n" []) else pure ⟨⟩ : ArgM PUnit)
  forArgs mkdirArg 1 (argc - 1)
  return 0

/-- The body of the loop of `shell_cat`. -/
def catArg (fuel i : ℕ) : ArgM PUnit := do
  let path ← arg i
  let r ← call (shellCatPath fuel path)
  if r = -1 then do
    let path ← arg i
    call (printf "cat: '%s': no such file or invalid path.\n" [.str path])
  else return ⟨⟩

def shellCat (fuel argc : ℕ) : ArgM ℤ := do
  if argc = 1 then do
    call (printf "cat: No path given.\n" [])
    return 0
  else do
    forArgs (catArg fuel) 1 (argc - 1)
    return 0

/-- The body of the loop of `shell_touch`. -/
def touchArg (i : ℕ) : ArgM PUnit := do
  let path ← arg i
  let fd ← call (Code.op (.open (some path) O_RDONLY))
  if 0 ≤ fd then do
    let path ← arg i
    call (printf "%s file exist\n" [.str path])
    let _ ← call (Code.op (.close fd))
    return ⟨⟩
  else do
    let path ← arg i
    let fd ← call (Code.op (.open (some path) O_CREATE))
    let _ ← call (Code.op (.close fd))
    return ⟨⟩

/-- `shell_touch`: without a path it returns without a value. -/
def shellTouch (argc : ℕ) : ArgM ℤ := do
  if argc = 1 then do
    call (printf "touch failed. No Path. \n" [])
    call (Code.op .garbage)
  else do
    forArgs touchArg 1 (argc - 1)
    return 0

def shellWrite (argc : ℕ) : ArgM ℤ :=
  if argc = 1 then do
    call (printf "write failed, too few arguments.\n" [])
    return 0
  else do
    let path ← arg 2
    let fd ← call (Code.op (.open (some path) (O_CREATE ||| O_RDWR)))
    if 0 ≤ fd then do
      let text ← arg 1
      let n ← call (Code.op (.write fd text))
      let text ← arg 1
      (if n ≠ text.length then call (printf "shell write fail\n" []) else pure ⟨⟩ : ArgM PUnit)
      let _ ← call (Code.op (.close fd))
      return 0
    else do
      call (printf "shell write fail\n" [])
      return 0

/-- `shell_append`: what is written ends where there is a `0` in memory. -/
def shellAppend (argc : ℕ) : ArgM ℤ :=
  if argc = 1 then do
    call (printf "append failed, too few arguments.\n" [])
    return 0
  else do
    let path ← arg 2
    let fd ← call (Code.op (.open (some path) O_RDONLY))
    if 0 ≤ fd then do
      let r ← call (Code.op (.read fd 1000))
      let _ ← call (Code.op (.close fd))
      let path ← arg 2
      let fd ← call (Code.op (.open (some path) (O_CREATE ||| O_RDWR)))
      if fd < 0 then do
        call (printf "create: append failed!\n" [])
        return 0
      else do
        let text ← arg 1
        let m ← call (Code.op .memory)
        let _ ← call (Code.op (.write fd (cString (r.2.take r.1.toNat ++ text ++ m))))
        let _ ← call (Code.op (.close fd))
        return 0
    else do
      call (printf "open append failed!\n" [])
      return 0

def shellKill (argc : ℕ) : ArgM ℤ :=
  if argc < 3 then do
    call (printf "Usage: kill -<signal> <pid>\n" [])
    call (printf "Example: kill -9 2\n" [])
    return 0
  else do
    let signal ← arg 1
    let pid ← arg 2
    call (Builtin.shellKill [signal, pid])

def shellTrap (argc : ℕ) : ArgM ℤ :=
  if argc < 2 then do
    call (printf "Usage: trap <signum>\n" [])
    call (printf "Example: trap 2   (register handler for SIGINT)\n" [])
    return -1
  else do
    let signum ← arg 1
    call (Builtin.shellTrap [signum])

def shellSpawn (argc : ℕ) : ArgM ℤ :=
  if argc < 2 then do
    call (printf "Usage: spawn <elf_id>\n" [])
    call (printf "  elf_id: 1=ping, 2=pong, 3=ding, 4=fstest, 5=shell, 6=cat, 7=rot13, 8=echo, 9=ls\n" [])
    return -1
  else do
    let elfId ← arg 1
    call (Builtin.shellSpawn [elfId])

def commands (fuel : ℕ) : List (Str × (ℕ → ArgM ℤ)) :=
  [(ascii "ls", shellLs), (ascii "pwd", fun _ => call shellPwd), (ascii "cd", shellCd), (ascii "cp", shellCp fuel),
    (ascii "mv", shellMv fuel), (ascii "rm", shellRm fuel), (ascii "mkdir", shellMkdir), (ascii "cat", shellCat fuel),
    (ascii "biral", shellCat fuel), (ascii "touch", shellTouch), (ascii "write", shellWrite), (ascii "append", shellAppend),
    (ascii "help", fun _ => call shellHelp), (ascii "kill", shellKill), (ascii "trap", shellTrap), (ascii "spawn", shellSpawn)]

/-! ### The strings filled in -/

/-- The strings that `argv` points to. -/
def answers (argv : List Str) : ∀ β, ArgvOp β → β
  | _, .arg i => argv.getD i []

/-- Every argument is `a`. -/
def allAre (a : Str) : ∀ β, ArgvOp β → β
  | _, .arg _ => a

section

variable {α β : Type} (argv : List Str)

@[simp] theorem fill_call {answer : ∀ β, ArgvOp β → β} (c : ShellM α) : (call c).fill answer = c := Code.fill_mapOp_inl c

@[simp] theorem fill_arg (i : ℕ) : (arg i).fill (answers argv) = pure (argv.getD i []) := rfl

@[simp] theorem fill_arg_all (a : Str) (i : ℕ) : (arg i).fill (allAre a) = pure a := rfl

/-- A loop whose body uses no argument but that of its round. -/
theorem fill_forArgs {body : ℕ → ArgM PUnit} (h : ∀ i, (body i).fill (answers argv) = (body 0).fill (allAre (argv.getD i [])))
    {i n : ℕ} (hn : i + n = argv.length) :
    (forArgs body i n).fill (answers argv) = eachArg (fun a => (body 0).fill (allAre a)) (argv.drop i) := by
  induction n generalizing i with
  | zero =>
    have hi : argv.length ≤ i := by omega
    rw [List.drop_eq_nil_of_le hi]
    rfl
  | succ n ih =>
    have hi : i < argv.length := by omega
    rw [forArgs, Code.fill_bind, h, ih (by omega), List.drop_eq_getElem_cons hi, List.getD_eq_getElem?_getD,
      List.getElem?_eq_getElem hi]
    rfl

end

/-- Not `write` or `append` with one argument. -/
def HasPath (name : Str) (argc : ℕ) : Prop := name = ascii "write" ∨ name = ascii "append" → argc ≠ 2

/-- With the strings filled in, `c` is `d`. -/
def Fills (c : ℕ → ArgM ℤ) (d : List Str → ShellM ℤ) (as : List Str) : Prop :=
  ∀ name, (c (as.length + 1)).fill (answers (name :: as)) = d as

section

variable (fuel : ℕ)

theorem fills_shellLs : ∀ as, Fills shellLs Builtin.shellLs as
  | [] | [_] | _ :: _ :: _ => fun _ => by simp [shellLs, Builtin.shellLs]

theorem fills_shellCd : ∀ as, Fills shellCd Builtin.shellCd as
  | [] | _ :: _ => fun _ => by simp [shellCd, Builtin.shellCd]

theorem fills_shellCp : ∀ as, Fills (shellCp fuel) (Builtin.shellCp fuel) as
  | [] | [_] | [_, _] | [_, _, _] => fun _ => by simp [shellCp, Builtin.shellCp]
  | _ :: _ :: _ :: _ :: as => fun _ => by
    have h3 : ¬ as.length + 5 < 3 := by omega
    have h2 : ¬ as.length + 4 < 2 := by omega
    simp [shellCp, Builtin.shellCp, h3, h2]

theorem fills_shellMv : ∀ as, Fills (shellMv fuel) (Builtin.shellMv fuel) as
  | [_, _] => fun _ => by simp [shellMv]
  | [] | [_] | _ :: _ :: _ :: _ => fun _ => by simp [shellMv, Builtin.shellMv]

theorem fills_shellRm : ∀ as, Fills (shellRm fuel) (Builtin.shellRm fuel) as
  | [] => fun _ => by simp [shellRm, Builtin.shellRm]
  | [a] | a :: _ :: _ => fun _ => by
    by_cases ha : a = ascii "-r"
    · simp [shellRm, Builtin.shellRm, shellRmArg, ha]
    · simp [shellRm, Builtin.shellRm, shellRmArg, ha]

theorem fills_shellMkdir (as : List Str) : Fills shellMkdir Builtin.shellMkdir as := fun name => by
  have hloop := fill_forArgs (name :: as) (fun i => by simp [mkdirArg] : ∀ i, (mkdirArg i).fill _ = _) (Nat.add_comm 1 as.length)
  simp [shellMkdir, Builtin.shellMkdir, hloop, mkdirArg]

theorem fills_shellCat (as : List Str) : Fills (shellCat fuel) (Builtin.shellCat fuel) as := fun name => by
  have hloop := fill_forArgs (name :: as) (fun i => by simp [catArg] : ∀ i, (catArg fuel i).fill _ = _) (Nat.add_comm 1 as.length)
  simp [shellCat, Builtin.shellCat, hloop, catArg]

theorem fills_shellTouch (as : List Str) : Fills shellTouch Builtin.shellTouch as := fun name => by
  have hloop := fill_forArgs (name :: as) (fun i => by simp [touchArg] : ∀ i, (touchArg i).fill _ = _) (Nat.add_comm 1 as.length)
  simp [shellTouch, Builtin.shellTouch, hloop, touchArg]

theorem fills_shellWrite : ∀ as, as.length ≠ 1 → Fills shellWrite Builtin.shellWrite as
  | [_], h => absurd rfl h
  | [], _ | _ :: _ :: _, _ => fun _ => by simp [shellWrite, Builtin.shellWrite]

theorem fills_shellAppend : ∀ as, as.length ≠ 1 → Fills shellAppend Builtin.shellAppend as
  | [_], h => absurd rfl h
  | [], _ | _ :: _ :: _, _ => fun _ => by simp [shellAppend, Builtin.shellAppend]

theorem fills_shellKill : ∀ as, Fills shellKill Builtin.shellKill as
  | [] | [_] => fun _ => by simp [shellKill, Builtin.shellKill]
  | _ :: _ :: as => fun _ => by
    have h : ¬ as.length + 3 < 3 := by omega
    simp [shellKill, Builtin.shellKill, h]

theorem fills_shellTrap : ∀ as, Fills shellTrap Builtin.shellTrap as
  | [] => fun _ => by simp [shellTrap, Builtin.shellTrap]
  | _ :: as => fun _ => by
    have h : ¬ as.length + 2 < 2 := by omega
    simp [shellTrap, Builtin.shellTrap, h]

theorem fills_shellSpawn : ∀ as, Fills shellSpawn Builtin.shellSpawn as
  | [] => fun _ => by simp [shellSpawn, Builtin.shellSpawn]
  | _ :: as => fun _ => by
    have h : ¬ as.length + 2 < 2 := by omega
    simp [shellSpawn, Builtin.shellSpawn, h]

theorem commands_fill : List.Forall₂ (fun c d => c.1 = d.1 ∧ ∀ as, HasPath c.1 (as.length + 1) → Fills c.2 d.2 as)
    (commands fuel) (Builtin.commands fuel) := by
  unfold commands Builtin.commands
  refine .cons ⟨rfl, fun as _ => fills_shellLs as⟩ (.cons ⟨rfl, fun as _ _ => fill_call _⟩ ?_)
  refine .cons ⟨rfl, fun as _ => fills_shellCd as⟩ (.cons ⟨rfl, fun as _ => fills_shellCp fuel as⟩ ?_)
  refine .cons ⟨rfl, fun as _ => fills_shellMv fuel as⟩ (.cons ⟨rfl, fun as _ => fills_shellRm fuel as⟩ ?_)
  refine .cons ⟨rfl, fun as _ => fills_shellMkdir as⟩ (.cons ⟨rfl, fun as _ => fills_shellCat fuel as⟩ ?_)
  refine .cons ⟨rfl, fun as _ => fills_shellCat fuel as⟩ (.cons ⟨rfl, fun as _ => fills_shellTouch as⟩ ?_)
  refine .cons ⟨rfl, fun as h => fills_shellWrite as fun e => h (.inl rfl) (by rw [e])⟩ ?_
  refine .cons ⟨rfl, fun as h => fills_shellAppend as fun e => h (.inr rfl) (by rw [e])⟩ ?_
  refine .cons ⟨rfl, fun as _ _ => fill_call _⟩ (.cons ⟨rfl, fun as _ => fills_shellKill as⟩ ?_)
  exact .cons ⟨rfl, fun as _ => fills_shellTrap as⟩ (.cons ⟨rfl, fun as _ => fills_shellSpawn as⟩ .nil)

end

/-! ### Which arguments a command uses -/

def Within (argc : ℕ) : ∀ β, ArgOp β → Prop
  | _, .inl _ => True
  | _, .inr (.arg i) => i < argc

section

variable {α β : Type} {argc : ℕ}

@[simp] theorem all_call (c : ShellM α) : (call c).All (Within argc) := all_mapOp (fun _ _ => trivial) c

@[simp] theorem all_arg_bind {i : ℕ} {f : Str → ArgM α} :
    (arg i >>= f).All (Within argc) ↔ i < argc ∧ ∀ w, (f w).All (Within argc) := by
  show (Code.act _ f).All _ ↔ _
  exact all_act

theorem all_forArgs {body : ℕ → ArgM PUnit} (h : ∀ i < argc, (body i).All (Within argc)) {i n : ℕ} (hn : i + n ≤ argc) :
    (forArgs body i n).All (Within argc) := by
  induction n generalizing i with
  | zero => exact all_pure.mpr trivial
  | succ n ih => exact all_bind (h i (by omega)) fun _ => ih (by omega)

variable {fuel : ℕ}

theorem all_shellLs : (shellLs argc).All (Within argc) := by
  simp [shellLs]
  omega

theorem all_shellCd (h : 0 < argc) : (shellCd argc).All (Within argc) := by
  simp [shellCd]
  omega

theorem all_shellCp : (shellCp fuel argc).All (Within argc) := by
  simp [shellCp]
  omega

theorem all_shellMv : (shellMv fuel argc).All (Within argc) := by
  simp [shellMv]
  omega

theorem all_shellRm (h : 0 < argc) : (shellRm fuel argc).All (Within argc) := by
  simp [shellRm]
  omega

theorem all_shellMkdir (h : 0 < argc) : (shellMkdir argc).All (Within argc) := by
  refine all_bind (by simp) fun _ => all_bind (all_forArgs (fun i hi => ?_) (by omega)) fun _ => all_pure.mpr trivial
  simp [mkdirArg, hi]

theorem all_shellCat (h : 0 < argc) : (shellCat fuel argc).All (Within argc) := by
  refine all_ite_iff.mpr ⟨by simp, fun _ => all_bind (all_forArgs (fun i hi => ?_) (by omega)) fun _ => all_pure.mpr trivial⟩
  simp [catArg, hi]

theorem all_shellTouch (h : 0 < argc) : (shellTouch argc).All (Within argc) := by
  refine all_ite_iff.mpr ⟨by simp, fun _ => all_bind (all_forArgs (fun i hi => ?_) (by omega)) fun _ => all_pure.mpr trivial⟩
  simp [touchArg, hi]

theorem all_shellWrite (h : 0 < argc) (h2 : argc ≠ 2) : (shellWrite argc).All (Within argc) := by
  rcases eq_or_ne argc 1 with h1 | h1
  · simp [shellWrite, h1]
  · simp [shellWrite, h1, show 1 < argc by omega, show 2 < argc by omega]

theorem all_shellAppend (h : 0 < argc) (h2 : argc ≠ 2) : (shellAppend argc).All (Within argc) := by
  rcases eq_or_ne argc 1 with h1 | h1
  · simp [shellAppend, h1]
  · simp [shellAppend, h1, show 1 < argc by omega, show 2 < argc by omega]

theorem all_shellKill : (shellKill argc).All (Within argc) := by
  by_cases h : argc < 3
  · simp [shellKill, h]
  · simp [shellKill, h, show 1 < argc by omega, show 2 < argc by omega]

theorem all_shellTrap : (shellTrap argc).All (Within argc) := by
  by_cases h : argc < 2
  · simp [shellTrap, h]
  · simp [shellTrap, h, show 1 < argc by omega]

theorem all_shellSpawn : (shellSpawn argc).All (Within argc) := by
  by_cases h : argc < 2
  · simp [shellSpawn, h]
  · simp [shellSpawn, h, show 1 < argc by omega]

theorem all_commands (h : 0 < argc) {c : Str × (ℕ → ArgM ℤ)} (hc : c ∈ commands fuel)
    (h2 : HasPath c.1 argc) : (c.2 argc).All (Within argc) := by
  simp only [commands, List.mem_cons, List.not_mem_nil, or_false] at hc
  rcases hc with rfl | rfl | rfl | rfl | rfl | rfl | rfl | rfl | rfl | rfl | rfl | rfl | rfl | rfl | rfl | rfl
  · exact all_shellLs
  · exact all_call _
  · exact all_shellCd h
  · exact all_shellCp
  · exact all_shellMv
  · exact all_shellRm h
  · exact all_shellMkdir h
  · exact all_shellCat h
  · exact all_shellCat h
  · exact all_shellTouch h
  · exact all_shellWrite h (h2 (.inl rfl))
  · exact all_shellAppend h (h2 (.inr rfl))
  · exact all_call _
  · exact all_shellKill
  · exact all_shellTrap
  · exact all_shellSpawn

end

end MCertiKOS.Shell.Arguments
