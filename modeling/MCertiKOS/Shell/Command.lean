import MCertiKOS.Library.Answers
import MCertiKOS.Shell.Prompt

/-!
# The commands of the shell

`runcmd` of `user/shell/shell.c` with the built-in commands and `run_pipeline`, as programs of the calls they make. A
program has a continuation for each answer of a call, and what is shown of it is shown for all answers.

Strings are lists of bytes, and buffers have no size. What is in memory that has not been written, and the value of a
function that returns without one, are answers too (`memory` and `garbage`). The loops and recursions that go on as
long as the answers say so have a number of rounds, `fuel`; a program that needs more spins.

Some commands return `-1`, and the loop of `main` ends then: `trap` without an argument is enough
(`trap_ends_shell`). When a line is none of these, no answers end the loop (`shell_stays_at_prompt`).
-/

namespace MCertiKOS.Shell.Builtin

open Library Relation

abbrev Str := List UInt8

def ascii (s : String) : Str := s.toList.map fun c => UInt8.ofNat c.toNat

/-- An argument of `printf`. -/
inductive Arg where
  /-- `%d` or `%x`. -/
  | int (n : ℤ)
  /-- `%s`. -/
  | str (s : Str)

/-- The calls of a command. A pointer to a string is `none` when it is `NULL`. -/
inductive ShellOp : Type → Type where
  | printf (fmt : String) (args : List Arg) : ShellOp PUnit
  /-- `sys_ls`: the result and the buffer. -/
  | ls (n : ℕ) : ShellOp (ℤ × Str)
  /-- `sys_pwd`: the buffer. -/
  | pwd : ShellOp Str
  /-- `sys_chdir`. -/
  | chdir (path : Str) : ShellOp ℤ
  /-- `sys_mkdir`. -/
  | mkdir (path : Str) : ShellOp ℤ
  /-- `sys_unlink`. -/
  | unlink (path : Str) : ShellOp ℤ
  | open (path : Option Str) (omode : ℕ) : ShellOp ℤ
  | close (fd : ℤ) : ShellOp ℤ
  /-- `read`: the result and the buffer. -/
  | read (fd : ℤ) (n : ℕ) : ShellOp (ℤ × Str)
  /-- `write` of a string with its length. -/
  | write (fd : ℤ) (bs : Str) : ShellOp ℤ
  /-- `sys_is_dir`. -/
  | isDir (fd : ℤ) : ShellOp ℤ
  | kill (pid sig : ℤ) : ShellOp ℤ
  /-- `sigaction`, with `signal_handler`. -/
  | sigaction (signum : ℤ) : ShellOp ℤ
  | spawn (elfId : ℤ) (quota : ℕ) : ShellOp ℤ
  | spawnWithFds (elfId : ℤ) (quota : ℕ) (stdinFd stdoutFd : ℤ) : ShellOp ℤ
  /-- `sys_pipe`: the result and the two descriptors. -/
  | pipe : ShellOp (ℤ × ℤ × ℤ)
  /-- `sys_waitpid`. -/
  | waitpid (pid : ℤ) : ShellOp PUnit
  /-- The string in memory that has not been written. -/
  | memory : ShellOp Str
  /-- The value of a function that returns without one. -/
  | garbage : ShellOp ℤ
  /-- The program needs more rounds. -/
  | spin : ShellOp Empty

abbrev ShellM := Code ShellOp

def printf (fmt : String) (args : List Arg) : ShellM PUnit := Code.op (.printf fmt args)

def spin {α : Type} : ShellM α := .act .spin Empty.elim

abbrev O_RDONLY : ℕ := 0x000

abbrev O_RDWR : ℕ := 0x002

abbrev O_CREATE : ℕ := 0x200

/-! ### Numbers -/

/-- The loop of `atoi` over the digits, with the arithmetic of `int`. -/
def digits : ℤ → Str → ℤ
  | acc, [] => acc
  | acc, b :: bs => if 48 ≤ b ∧ b ≤ 57 then digits (Int.bmod (acc * 10 + (b.toNat - 48)) (2 ^ 32)) bs else acc

/-- `str_to_int`: without a digit `atoi` stores nothing, and the result is `0`. -/
def strToInt : Str → ℤ
  | 43 :: bs => digits 0 bs
  | 45 :: bs => Int.bmod (- digits 0 bs) (2 ^ 32)
  | bs => digits 0 bs

/-! ### Files and directories -/

def isFileExist (path : Str) : ShellM Bool := do
  let fd ← Code.op (.open (some path) O_RDONLY)
  if fd = -1 then return false
  else do
    let _ ← Code.op (.close fd)
    return true

def isDir (path : Str) : ShellM Bool := do
  if ← isFileExist path then do
    let fd ← Code.op (.open (some path) O_RDONLY)
    if fd < 0 then return false
    else do
      let r ← Code.op (.isDir fd)
      let _ ← Code.op (.close fd)
      return r ≠ 0
  else return false

/-- The strings in a buffer, one after the other, as far as `len` goes. -/
def names : ℕ → ℕ → Str → List Str
  | 0, _, _ => []
  | n + 1, len, buf =>
    if len = 0 then []
    else (cString buf) :: names n (len - ((cString buf).length + 1)) (buf.drop ((cString buf).length + 1))

/-- `ls_dir`, with what the callers take out of the buffer: the blanks in the part that is used end the names. -/
def lsDir (path : Option Str) : ShellM (List Str) := do
  let r ← (match path with
    | none => Code.op (.ls 1024)
    | some path => do
      let pwd ← Code.op .pwd
      let _ ← Code.op (.chdir path)
      let r ← Code.op (.ls 1024)
      let _ ← Code.op (.chdir pwd)
      return r : ShellM (ℤ × Str))
  let len := r.1.toNat
  return names len len ((r.2.take len).map (fun b => if b = 32 then 0 else b) ++ r.2.drop len)

/-- `extract_filename`: the copy is not terminated. -/
def extractFilename (path : Str) : ShellM Str := do
  let m ← Code.op .memory
  return cString (((path.reverse.takeWhile (· ≠ 47)).reverse) ++ m)

def cpFile (dest src : Str) : ShellM PUnit := do
  if ← isDir src then do
    let _ ← Code.op (.mkdir dest)
    return ⟨⟩
  else do
    let fd ← Code.op (.open (some src) O_RDONLY)
    let r ← Code.op (.read fd 1000)
    let _ ← Code.op (.close fd)
    let fd ← Code.op (.open (some dest) (O_CREATE ||| O_RDWR))
    let m ← Code.op .memory
    let _ ← Code.op (.write fd (cString (r.2 ++ m)))
    let _ ← Code.op (.close fd)
    return ⟨⟩

/-- `dest` and a name in it. -/
def inDir (dest name : Str) : Str := dest ++ 47 :: name

/-- `"."`. -/
def dot : Str := ascii "."

/-- `".."`. -/
def dotdot : Str := ascii ".."

/-- A loop over the names in a directory, but for `.` and `..`. -/
def eachName (body : Str → ShellM PUnit) : List Str → ShellM PUnit
  | [] => pure ⟨⟩
  | p :: ns => do
    (if p ≠ dot ∧ p ≠ dotdot then body p else pure ⟨⟩ : ShellM PUnit)
    eachName body ns

/-- `is_file_exist(path) && is_dir(path)`. -/
def existsDir (path : Str) : ShellM Bool := do
  if ← isFileExist path then isDir path else return false

/-- `_shell_cp`. -/
def shellCpPath : ℕ → Str → Str → Bool → ShellM PUnit
  | 0, _, _, _ => spin
  | fuel + 1, dest, src, isRecursive => do
    if ← isFileExist src then
      if isRecursive = false then
        if ← isDir src then printf "cp: omitting directory '%s'. try '-r' ?\n" [.str src]
        else if ← existsDir dest then do
          let filename ← extractFilename src
          shellCpPath fuel (inDir dest filename) src false
        else cpFile dest src
      else if ← isDir src then
        if ← isFileExist dest then
          if ← isDir dest then do
            let filename ← extractFilename src
            shellCpPath fuel (inDir dest filename) src true
          else printf "cp: can not copy a dir to a file '%s'.\n" [.str dest]
        else do
          cpFile dest src
          let ns ← lsDir (some src)
          eachName (fun p => shellCpPath fuel (inDir dest p) (inDir src p) true) ns
      else shellCpPath fuel dest src false
    else printf "cp: %s does not exist.\n" [.str src]

def rmFile (filename : Str) : ShellM PUnit := do
  let errno ← Code.op (.unlink filename)
  if errno = -1 then printf "rm: can not remove %s: sys_unlink error.\n" [.str filename] else return ⟨⟩

/-- `_shell_rm`; the callers drop its result. -/
def shellRmPath : ℕ → Str → Bool → ShellM PUnit
  | 0, _, _ => spin
  | fuel + 1, path, isRecursive => do
    if isRecursive then
      if ← isDir path then do
        let _ ← Code.op (.chdir path)
        let ns ← lsDir none
        eachName (fun p => shellRmPath fuel p true) ns
        let _ ← Code.op (.chdir dotdot)
        rmFile path
      else rmFile path
    else if ← isDir path then printf "rm: can not remove %s: is a directory. try '-r' ?\n" [.str path]
    else rmFile path

/-- The loop of `_shell_cat`. -/
def catLoop (fd : ℤ) : ℕ → ShellM PUnit
  | 0 => spin
  | fuel + 1 => do
    let r ← Code.op (.read fd 511)
    if 0 < r.1 then do
      printf "%s" [.str (cString (r.2.take r.1.toNat))]
      catLoop fd fuel
    else return ⟨⟩

/-- `_shell_cat`. -/
def shellCatPath (fuel : ℕ) (path : Str) : ShellM ℤ := do
  let fd ← Code.op (.open (some path) O_RDONLY)
  if fd = -1 then return -1
  else do
    catLoop fd fuel
    printf "\n" []
    let _ ← Code.op (.close fd)
    return 0

/-! ### Built-in commands

A command has the arguments `argv` after its name. -/

def descriptions : List (String × String) :=
  [("ls", "list all files and directories under working directory"), ("pwd", "print working directory"),
    ("cd", "cd <path> \n\t change directory"), ("cp", "cp <-r> <src_path> <dest_path> \n\t copy file or directory "),
    ("mv", "mv <src_path> <dest_path> \n\t move file or directory"),
    ("rm", "rm <-r> <filename> \n\t remove file or directory"), ("mkdir", "mkdir <dirname> \n\t create directory"),
    ("cat", "cat <filename> \n\t print file content"), ("biral", "biral <filename> \n\t print file content"),
    ("touch", "touch <filename> \n\t create new empty file"),
    ("write", "write <string> <filename> \n\t write a string to file"),
    ("append", "append <string> <filename> \n\t append a string to file"),
    ("help", "help \n\t print this help message\n\t process commands: LS, CAT, ROT13, and pipelines with |"),
    ("kill", "kill <signal> <pid> \n\t send signal to process"),
    ("trap", "trap <signum> <handler> \n\t register signal handler"),
    ("spawn", "spawn <elf_id> \n\t spawn a new process (1=ping, 2=pong, 3=ding, 4=fstest, 5=shell, 6=cat, 7=rot13, 8=echo, 9=ls)")]

/-- `for (i = 1; i < argc; i++) body(argv[i])`. -/
def eachArg (body : Str → ShellM PUnit) : List Str → ShellM PUnit
  | [] => pure ⟨⟩
  | a :: as => do
    body a
    eachArg body as

def shellHelp : ShellM ℤ := do
  descriptions.foldr (fun d c => do printf "%s - %s\n" [.str (ascii d.1), .str (ascii d.2)]; c) (pure ⟨⟩)
  return 0

def shellLs : List Str → ShellM ℤ
  | [] => do
    let r ← Code.op (.ls 1024)
    printf "%s\n" [.str (cString r.2)]
    return 0
  | [path] => do
    let pwd ← Code.op .pwd
    let _ ← Code.op (.chdir path)
    let r ← Code.op (.ls 1024)
    printf "%s\n" [.str (cString r.2)]
    let _ ← Code.op (.chdir (cString pwd))
    return 0
  | _ => do
    printf "ls: too many arguments.\n" []
    return 0

def shellPwd : ShellM ℤ := do
  let pwd ← Code.op .pwd
  printf "%s\n" [.str (cString pwd)]
  return 0

def shellCd (argv : List Str) : ShellM ℤ := do
  let _ ← Code.op (.chdir (argv.headD []))
  return 0

def shellCp (fuel : ℕ) : List Str → ShellM ℤ
  | [src, dest] => do
    shellCpPath fuel dest src false
    return 0
  | [option, src, dest] =>
    if option ≠ ascii "-r" then do
      printf "cp: invalid option. try '-r' ?\n" []
      return 0
    else do
      shellCpPath fuel dest src true
      return 0
  | argv =>
    if argv.length < 2 then do
      printf "cp: too few arguments.\n" []
      return 0
    else do
      printf "cp: too many arguments.\n" []
      return 0

def shellMv (fuel : ℕ) : List Str → ShellM ℤ
  | [src, dest] => do
    if ← isFileExist src then
      if ← isDir src then do
        let existing ← isFileExist dest
        let bad ← (if existing then do
            let d ← isDir dest
            return !d
          else return false : ShellM Bool)
        if bad then do
          printf "mv: cannot move a dir to a file\n" []
          return 0
        else do
          shellCpPath fuel dest src true
          shellRmPath fuel src true
          return 0
      else do
        shellCpPath fuel dest src true
        shellRmPath fuel src false
        return 0
    else do
      printf "mv: sorce file %s does not exist.\n" [.str src]
      return 0
  | _ => do
    printf "mv: argument invalid.\n" []
    return 0

/-- `shell_rm`, once it has the path. -/
def shellRmArg (fuel : ℕ) (isRecursive : Bool) : Option Str → ShellM ℤ
  | none => do
    printf "rm: no path argument.\n" []
    return 0
  | some path => do
    if ← isFileExist path then do
      shellRmPath fuel path isRecursive
      return 0
    else do
      printf "rm: can not remove %s: is not a file or directory.\n" [.str path]
      return 0

def shellRm (fuel : ℕ) : List Str → ShellM ℤ
  | [] => do
    printf "Too few arguments.\n" []
    return 0
  | a :: as => if a = ascii "-r" then shellRmArg fuel true as.head? else shellRmArg fuel false (some a)

def shellMkdir (argv : List Str) : ShellM ℤ := do
  (if argv = [] then printf "mkdir failed, no path\n" [] else pure ⟨⟩ : ShellM PUnit)
  eachArg (fun a => do
    let r ← Code.op (.mkdir a)
    if r = 0 then return ⟨⟩ else printf "make dir failed.\n" []) argv
  return 0

def shellCat (fuel : ℕ) (argv : List Str) : ShellM ℤ := do
  if argv = [] then do
    printf "cat: No path given.\n" []
    return 0
  else do
    eachArg (fun a => do
      let r ← shellCatPath fuel a
      if r = -1 then printf "cat: '%s': no such file or invalid path.\n" [.str a] else return ⟨⟩) argv
    return 0

/-- `shell_touch`: without a path it returns without a value. -/
def shellTouch (argv : List Str) : ShellM ℤ := do
  if argv = [] then do
    printf "touch failed. No Path. \n" []
    Code.op .garbage
  else do
    eachArg (fun a => do
      let fd ← Code.op (.open (some a) O_RDONLY)
      if 0 ≤ fd then do
        printf "%s file exist\n" [.str a]
        let _ ← Code.op (.close fd)
        return ⟨⟩
      else do
        let fd ← Code.op (.open (some a) O_CREATE)
        let _ ← Code.op (.close fd)
        return ⟨⟩) argv
    return 0

/-- `shell_write`: with one argument the path is `NULL`. -/
def shellWrite : List Str → ShellM ℤ
  | [] => do
    printf "write failed, too few arguments.\n" []
    return 0
  | text :: as => do
    let fd ← Code.op (.open as.head? (O_CREATE ||| O_RDWR))
    if 0 ≤ fd then do
      let n ← Code.op (.write fd text)
      (if n ≠ text.length then printf "shell write fail\n" [] else pure ⟨⟩ : ShellM PUnit)
      let _ ← Code.op (.close fd)
      return 0
    else do
      printf "shell write fail\n" []
      return 0

/-- `shell_append`: what is written ends where there is a `0` in memory. -/
def shellAppend : List Str → ShellM ℤ
  | [] => do
    printf "append failed, too few arguments.\n" []
    return 0
  | text :: as => do
    let fd ← Code.op (.open as.head? O_RDONLY)
    if 0 ≤ fd then do
      let r ← Code.op (.read fd 1000)
      let _ ← Code.op (.close fd)
      let fd ← Code.op (.open as.head? (O_CREATE ||| O_RDWR))
      if fd < 0 then do
        printf "create: append failed!\n" []
        return 0
      else do
        let m ← Code.op .memory
        let _ ← Code.op (.write fd (cString (r.2.take r.1.toNat ++ text ++ m)))
        let _ ← Code.op (.close fd)
        return 0
    else do
      printf "open append failed!\n" []
      return 0

/-- The number of the signal in the first argument of `kill`. -/
def killSignal : Str → ℤ
  | 45 :: bs => strToInt bs
  | bs => strToInt bs

def shellKill : List Str → ShellM ℤ
  | a :: b :: _ =>
    let sig := killSignal a
    let pid := strToInt b
    if sig < 1 ∨ 31 < sig then do
      printf "Invalid signal number: %d (must be 1-31)\n" [.int sig]
      return -1
    else if pid < 1 ∨ 63 < pid then do
      printf "Invalid PID: %d (must be 1-63)\n" [.int pid]
      return -1
    else do
      printf "Sending signal %d to process %d...\n" [.int sig, .int pid]
      let r ← Code.op (.kill pid sig)
      if r = 0 then do
        printf "Signal sent successfully.\n" []
        return 0
      else do
        printf "Failed to send signal (error: %d)\n" [.int r]
        return 0
  | _ => do
    printf "Usage: kill -<signal> <pid>\n" []
    printf "Example: kill -9 2\n" []
    return 0

/-- `shell_trap`. The address of `signal_handler` is left out of what it prints. -/
def shellTrap : List Str → ShellM ℤ
  | [] => do
    printf "Usage: trap <signum>\n" []
    printf "Example: trap 2   (register handler for SIGINT)\n" []
    return -1
  | a :: _ =>
    let signum := strToInt a
    if signum < 1 ∨ 32 ≤ signum then do
      printf "Invalid signal number: %d (must be 1-31)\n" [.int signum]
      return -1
    else do
      printf "Registering handler for signal %d at address %x...\n" [.int signum]
      let r ← Code.op (.sigaction signum)
      if r < 0 then do
        printf "Failed to register signal handler\n" []
        return -1
      else do
        printf "Handler registered successfully.\n" []
        return 0

def shellSpawn : List Str → ShellM ℤ
  | [] => do
    printf "Usage: spawn <elf_id>\n" []
    printf "  elf_id: 1=ping, 2=pong, 3=ding, 4=fstest, 5=shell, 6=cat, 7=rot13, 8=echo, 9=ls\n" []
    return -1
  | a :: _ =>
    let elfId := strToInt a
    if elfId < 1 ∨ 9 < elfId then do
      printf "Invalid elf_id: %d (must be 1-9)\n" [.int elfId]
      return -1
    else do
      printf "Spawning process with elf_id %d...\n" [.int elfId]
      let pid ← Code.op (.spawn elfId 1000)
      if pid ≠ -1 then do
        printf "Process spawned with PID %d\n" [.int pid]
        return 0
      else do
        printf "Failed to spawn process\n" []
        return -1

def commands (fuel : ℕ) : List (Str × (List Str → ShellM ℤ)) :=
  [(ascii "ls", shellLs), (ascii "pwd", fun _ => shellPwd), (ascii "cd", shellCd), (ascii "cp", shellCp fuel),
    (ascii "mv", shellMv fuel), (ascii "rm", shellRm fuel), (ascii "mkdir", shellMkdir), (ascii "cat", shellCat fuel),
    (ascii "biral", shellCat fuel), (ascii "touch", shellTouch), (ascii "write", shellWrite), (ascii "append", shellAppend),
    (ascii "help", fun _ => shellHelp), (ascii "kill", shellKill), (ascii "trap", shellTrap), (ascii "spawn", shellSpawn)]

/-! ### Pipelines -/

def words (line : Str) : List Str := (line.splitOnP fun b => decide (b ∈ whitespace)).filter (· ≠ [])

/-- `parse_stage`: the words, `none` if there are too many. The loop of `runcmd` is the same. -/
def parseStage (cmd : Str) : ShellM (Option (List Str)) := do
  if MAXARGS - 1 < (words cmd).length then do
    printf "Too many arguments (max %d)\n" [.int MAXARGS]
    return none
  else return some (words cmd)

/-- `parse_pipeline`, with the stages so far and the rest of the line, split at the bars. -/
def parsePipeline : List (List Str) → List Str → ShellM (Option (List (List Str)))
  | stages, [] => return some stages
  | stages, seg :: segs => do
    -- a blank at the end of the line ends the loop, between bars it is a stage
    if words seg = [] ∧ segs = [] then return some stages
    else if stages.length = MAXARGS then do
      printf "Too many pipeline stages\n" []
      return none
    else do
      match ← parseStage seg with
      | none => return none
      | some argv =>
        if argv = [] then do
          printf "Invalid null command in pipeline\n" []
          return none
        else parsePipeline (stages ++ [argv]) segs

def elfIdForProcess (name : Str) : ℤ :=
  if name = ascii "CAT" ∨ name = ascii "biral" ∨ name = ascii "BIRAL" then 6
  else if name = ascii "ROT13" then 7
  else if name = ascii "LS" then 9
  else -1

/-- `launch_process_stage` for `LS`. -/
def launchLs (argv : List Str) (stdinFd stdoutFd : ℤ) : ShellM ℤ :=
  match argv with
  | [] => do
    let pid ← Code.op (.spawnWithFds 9 200 stdinFd stdoutFd)
    if pid < 0 then do
      printf "LS: spawn failed\n" []
      return -1
    else return pid
  | [path] => do
    let cwd ← Code.op .pwd
    let r ← Code.op (.chdir path)
    if r < 0 then do
      printf "LS: cannot access %s\n" [.str path]
      return -1
    else do
      let pid ← Code.op (.spawnWithFds 9 200 stdinFd stdoutFd)
      if pid < 0 then do
        let _ ← Code.op (.chdir (cString cwd))
        printf "LS: spawn failed\n" []
        return -1
      else do
        let _ ← Code.op (.chdir (cString cwd))
        return pid
  | _ => do
    printf "LS: too many arguments\n" []
    return -1

/-- `launch_process_stage` for `CAT` and `ROT13`, with the name in the messages. -/
def launchFilter (label : String) (elfId : ℤ) (argv : List Str) (stdinFd stdoutFd : ℤ) : ShellM ℤ :=
  match argv with
  | [] => do
    let pid ← Code.op (.spawnWithFds elfId 200 stdinFd stdoutFd)
    if pid < 0 then do
      printf (label ++ ": spawn failed\n") []
      return -1
    else return pid
  | [path] => do
    let inputFd ← Code.op (.open (some path) O_RDONLY)
    if inputFd < 0 then do
      printf (label ++ ": cannot open %s\n") [.str path]
      return -1
    else do
      let pid ← Code.op (.spawnWithFds elfId 200 inputFd stdoutFd)
      let _ ← Code.op (.close inputFd)
      if pid < 0 then do
        printf (label ++ ": spawn failed\n") []
        return -1
      else return pid
  | _ => do
    printf (label ++ ": only zero or one filename is supported in this module\n") []
    return -1

def launchProcessStage (stage : List Str) (stdinFd stdoutFd : ℤ) : ShellM ℤ :=
  let name := stage.headD []
  if elfIdForProcess name < 0 then do
    printf "Unknown process command '%s'\n" [.str name]
    return -1
  else if name = ascii "LS" then launchLs stage.tail stdinFd stdoutFd
  else if name = ascii "CAT" ∨ name = ascii "biral" ∨ name = ascii "BIRAL" then
    launchFilter "CAT" (elfIdForProcess name) stage.tail stdinFd stdoutFd
  else if name = ascii "ROT13" then launchFilter "ROT13" (elfIdForProcess name) stage.tail stdinFd stdoutFd
  else return -1

/-- `if (in_fd >= 0) close(in_fd)`. -/
def closeIn (inFd : ℤ) : ShellM PUnit := do
  if 0 ≤ inFd then do
    let _ ← Code.op (.close inFd)
    return ⟨⟩
  else return ⟨⟩

/-- The loop of `run_pipeline` over the stages: `in_fd` and the processes, `none` if it fails. -/
def launchAll : ℤ → List ℤ → List (List Str) → ShellM (Option (ℤ × List ℤ))
  | inFd, pids, [] => return some (inFd, pids)
  | inFd, pids, [st] => do
    let pid ← launchProcessStage st inFd (-1)
    closeIn inFd
    if pid < 0 then return none else return some (inFd, pids ++ [pid])
  | inFd, pids, st :: st' :: stages => do
    let r ← Code.op .pipe
    if r.1 < 0 then do
      printf "pipe: failed\n" []
      closeIn inFd
      return none
    else do
      let pid ← launchProcessStage st inFd r.2.2
      closeIn inFd
      if pid < 0 then do
        let _ ← Code.op (.close r.2.1)
        let _ ← Code.op (.close r.2.2)
        return none
      else do
        let _ ← Code.op (.close r.2.2)
        launchAll r.2.1 (pids ++ [pid]) (st' :: stages)

/-- `run_pipeline` waits for its processes. -/
def waitAll : List ℤ → ShellM PUnit
  | [] => pure ⟨⟩
  | pid :: pids => do
    (if 0 ≤ pid then Code.op (.waitpid pid) else pure ⟨⟩ : ShellM PUnit)
    waitAll pids

open scoped Words in
def runPipeline (buf : Str) : ShellM ℤ := do
  match ← parsePipeline [] (buf.splitOn 0x7c) with
  | none => return 0
  | some stages =>
    if stages = [] then return 0
    else if stages.any fun st => st.headD [] ∉ processCmds then do
      printf "Pipelines currently support only LS, CAT, and ROT13\n" []
      return 0
    else do
      match ← launchAll (-1) [] stages with
      | none => return 0
      | some (inFd, pids) => do
        closeIn inFd
        waitAll pids
        return 0

open scoped Words in
/-- `runcmd`, on the string in its buffer. -/
def runcmd (fuel : ℕ) (line : Str) : ShellM ℤ := do
  if 0x7c ∈ line then runPipeline line
  else do
    match ← parseStage line with
    | none => return 0
    | some [] => return 0
    | some (name :: argv) =>
      if name ∈ processCmds then runPipeline line
      else
        match (commands fuel).find? (fun c => c.1 = name) with
        | some c => c.2 argv
        | none => do
          printf "Unknown command '%s'\n" [.str name]
          printf "try 'help' to see all supported commands.\n" []
          return 0

/-! ### Answers -/

def IsCall : ∀ β, ShellOp β → Prop
  | _, .spin => False
  | _, _ => True

/-- A read that reads something counts, and so does a directory. -/
def cost : ∀ β, ShellOp β → β → ℕ
  | _, .read _ _, r => if 0 < r.1 then 1 else 0
  | _, .isDir _, r => if r = 0 then 0 else 1
  | _, _, _ => 0

def anything : World ShellOp := ⟨IsCall, fun _ _ _ => True, cost⟩

/-- `sigaction` and `spawn` succeed. -/
def Succeeds : ∀ β, ShellOp β → β → Prop
  | _, .sigaction _, r => 0 ≤ r
  | _, .spawn _ _, r => r ≠ -1
  | _, _, _ => True

/-- The calls are answered anything, but `sigaction` and `spawn` succeed. -/
def granted : World ShellOp := ⟨IsCall, Succeeds, cost⟩

/-! ### Lines that do not end the loop -/

/-- The arguments of `kill` are too few, or a signal and a process that may be. -/
def KillOk : List Str → Prop
  | a :: b :: _ => (1 ≤ killSignal a ∧ killSignal a ≤ 31) ∧ 1 ≤ strToInt b ∧ strToInt b ≤ 63
  | _ => True

/-- The argument of `trap` is a signal. -/
def TrapOk : List Str → Prop
  | a :: _ => 1 ≤ strToInt a ∧ strToInt a ≤ 31
  | [] => False

/-- The argument of `spawn` is a program. -/
def SpawnOk : List Str → Prop
  | a :: _ => 1 ≤ strToInt a ∧ strToInt a ≤ 9
  | [] => False

open Code

section Commands

variable {N fuel : ℕ} {α β : Type} {P : α → Prop}

variable {o : ShellOp β} {body : Str → ShellM PUnit} {isRecursive : Bool} {path : Str} {argv : List Str}

@[simp] theorem granted_ok : granted.ok β o ↔ IsCall β o := Iff.rfl

@[simp] theorem granted_may {b : β} : granted.may β o b ↔ Succeeds β o b := Iff.rfl

theorem always_call (o : ShellOp β) (h : IsCall β o) : Always granted (op o) fun _ => True := ⟨h, fun _ _ => trivial⟩

@[simp] theorem always_printf {fmt : String} {args : List Arg} {R : PUnit → Prop} :
    Always granted (printf fmt args) R ↔ R ⟨⟩ :=
  ⟨fun h => h.2 ⟨⟩ trivial, fun h => ⟨trivial, fun _ _ => h⟩⟩

@[simp] theorem always_isFileExist (path : Str) : Always granted (isFileExist path) fun _ => True := by
  simp [isFileExist, IsCall]

@[simp] theorem always_isDir (path : Str) : Always granted (isDir path) fun _ => True := by
  simp [isDir, isFileExist, IsCall]

@[simp] theorem always_lsDir (path : Option Str) : Always granted (lsDir path) fun _ => True := by
  cases path <;> simp [lsDir, IsCall]

@[simp] theorem always_extractFilename (path : Str) : Always granted (extractFilename path) fun _ => True := by
  simp [extractFilename, IsCall]

@[simp] theorem always_cpFile (dest src : Str) : Always granted (cpFile dest src) fun _ => True := by
  simp [cpFile, isDir, isFileExist, IsCall]

@[simp] theorem always_rmFile (path : Str) : Always granted (rmFile path) fun _ => True := by
  simp [rmFile, IsCall]

theorem always_eachArg (h : ∀ a, Always granted (body a) fun _ => True) (argv : List Str) :
    Always granted (eachArg body argv) fun _ => True := by
  induction argv with
  | nil => trivial
  | cons a as ih => exact always_bind.mpr ((h a).mono fun _ _ => ih)

/-! Loops. -/

theorem returns_eachArg (h : ∀ a, Returns granted N (body a) fun _ => True) (argv : List Str) :
    Returns granted N (eachArg body argv) fun _ => True := by
  induction argv with
  | nil => exact returns_pure.mpr trivial
  | cons a as ih => exact returns_bind (h a) fun _ _ => ih

theorem returns_eachName (h : ∀ a, Returns granted N (body a) fun _ => True) (ns : List Str) :
    Returns granted N (eachName body ns) fun _ => True := by
  induction ns with
  | nil => exact returns_pure.mpr trivial
  | cons a as ih =>
    refine returns_bind (R := fun _ => True) ?_ fun _ _ => ih
    split_ifs
    · exact h a
    · exact returns_pure.mpr trivial

def Finds (c : ShellM Bool) : Prop := ∀ n, c.Ends granted (fun b m => m ≤ n ∧ (b = true → m < n)) n

theorem finds_isDir (path : Str) : Finds (isDir path) := by
  intro n
  refine ends_bind ((always_isFileExist path).returns n le_rfl) fun e m hm => ?_
  cases e with
  | false => exact ⟨hm.1, nofun⟩
  | true =>
    refine ends_bind ((always_call (.open (some path) O_RDONLY) trivial).returns m le_rfl) fun fd m' hm' => ?_
    have hle : m' ≤ n := hm'.1.trans hm.1
    by_cases hfd : fd < 0
    · rw [if_pos hfd]
      exact ⟨hle, nofun⟩
    · rw [if_neg hfd]
      refine ⟨trivial, fun r _ hr => ⟨trivial, fun _ _ _ => ?_⟩⟩
      have hcost : cost ℤ (.isDir fd) r = if r = 0 then 0 else 1 := rfl
      change cost ℤ (.isDir fd) r ≤ m' at hr
      show m' - cost ℤ (.isDir fd) r - 0 ≤ n ∧ (decide (r ≠ 0) = true → m' - cost ℤ (.isDir fd) r - 0 < n)
      by_cases h0 : r = 0
      · simp only [h0, ne_eq, not_true, decide_false, Bool.false_eq_true, false_imp_iff, and_true]
        omega
      · rw [if_neg h0] at hcost
        omega

theorem finds_existsDir (path : Str) : Finds (existsDir path) := by
  intro n
  refine ends_bind ((always_isFileExist path).returns n le_rfl) fun e m hm => ?_
  cases e with
  | false => exact ⟨hm.1, nofun⟩
  | true => exact (finds_isDir path m).mono fun _ _ h => ⟨h.1.trans hm.1, fun hb => (h.2 hb).trans_le hm.1⟩

theorem Finds.returns {c : ShellM Bool} {f : Bool → ShellM α} (hc : Finds c)
    (hyes : 0 < N → Returns granted (N - 1) (f true) P) (hno : Returns granted N (f false) P) :
    Returns granted N (c >>= f) P := by
  intro n hn
  refine ends_bind (hc n) fun b m hm => ?_
  cases b with
  | false => exact (hno m (hm.1.trans hn)).mono fun _ _ ha => ⟨ha.1.trans hm.1, ha.2⟩
  | true =>
    have hlt := hm.2 rfl
    exact (hyes (by omega) m (by omega)).mono fun _ _ ha => ⟨ha.1.trans hm.1, ha.2⟩

theorem returns_shellCpPath {dest src : Str} (h : N + 1 + isRecursive.toNat ≤ fuel) :
    Returns granted N (shellCpPath fuel dest src isRecursive) fun _ => True := by
  induction fuel generalizing N dest src isRecursive with
  | zero => omega
  | succ fuel ih =>
    rw [shellCpPath]
    refine returns_bind (always_isFileExist src).returns fun e _ => ?_
    cases e with
    | false => exact Always.returns (by simp)
    | true =>
      cases isRecursive with
      | false =>
        change N + 1 + 0 ≤ fuel + 1 at h
        refine (finds_isDir src).returns (fun _ => Always.returns (by simp)) ?_
        refine (finds_existsDir dest).returns (fun hN => ?_) (always_cpFile dest src).returns
        refine returns_bind (always_extractFilename src).returns fun filename _ => ih ?_
        show N - 1 + 1 + 0 ≤ fuel
        omega
      | true =>
        change N + 1 + 1 ≤ fuel + 1 at h
        refine (finds_isDir src).returns (fun hN => ?_) (ih (by rw [Bool.toNat_false]; omega))
        -- one directory is counted: there is enough for what is in it
        have hrec : ∀ {dest src : Str}, Returns granted (N - 1) (shellCpPath fuel dest src true) fun _ => True := by
          intro dest src
          refine ih ?_
          show N - 1 + 1 + 1 ≤ fuel
          omega
        refine returns_bind (always_isFileExist dest).returns fun e' _ => ?_
        cases e' with
        | false =>
          refine returns_bind (always_cpFile dest src).returns fun _ _ => ?_
          refine returns_bind (always_lsDir (some src)).returns fun ns _ => ?_
          exact returns_eachName (fun p => hrec) ns
        | true =>
          refine (finds_isDir dest).returns (fun _ => ?_) (Always.returns (by simp))
          exact returns_bind (always_extractFilename src).returns fun filename _ => hrec.of_le (Nat.sub_le _ 1)

theorem returns_shellRmPath {fuel : ℕ} (h : N + 1 ≤ fuel) :
    Returns granted N (shellRmPath fuel path isRecursive) fun _ => True := by
  induction fuel generalizing N path with
  | zero => omega
  | succ fuel ih =>
    rw [shellRmPath]
    cases isRecursive with
    | false => exact Always.returns (by simp)
    | true =>
      refine (finds_isDir path).returns (fun hN => ?_) (always_rmFile path).returns
      refine returns_bind (always_call (.chdir path) trivial).returns fun _ _ => ?_
      refine returns_bind (always_lsDir none).returns fun ns _ => ?_
      refine returns_bind (returns_eachName (fun p => ih (by omega)) ns) fun _ _ => ?_
      refine returns_bind (always_call (.chdir dotdot) trivial).returns fun _ _ => ?_
      exact (always_rmFile path).returns

theorem returns_catLoop {fd : ℤ} {fuel : ℕ} (h : N + 1 ≤ fuel) : Returns granted N (catLoop fd fuel) fun _ => True := by
  induction fuel generalizing N with
  | zero => omega
  | succ fuel ih =>
    rw [catLoop]
    refine returns_count (q := fun r => 0 < r.1) trivial (fun r hr => ?_) (fun r _ hr hN => ?_) fun r _ hr => ?_
    · show 0 < if 0 < r.1 then 1 else 0
      rw [if_pos hr]
      exact Nat.one_pos
    · rw [if_pos hr]
      exact returns_bind (Always.returns (by simp)) fun _ (_ : True) => ih (by omega)
    · rw [if_neg hr]
      exact returns_pure.mpr trivial

theorem returns_shellCatPath (h : N + 1 ≤ fuel) : Returns granted N (shellCatPath fuel path) fun _ => True := by
  refine returns_bind (always_call (.open (some path) O_RDONLY) trivial).returns fun fd _ => ?_
  by_cases hfd : fd = -1
  · rw [if_pos hfd]
    exact returns_pure.mpr trivial
  · rw [if_neg hfd]
    exact returns_bind (returns_catLoop h) fun _ _ => Always.returns (by simp [IsCall])

/-! The built-in commands. -/

theorem always_shellLs (argv : List Str) : Always granted (shellLs argv) (0 ≤ ·) := by
  unfold shellLs
  split <;> simp [IsCall]

theorem returns_shellCp (h : N + 2 ≤ fuel) : Returns granted N (shellCp fuel argv) (0 ≤ ·) := by
  unfold shellCp
  split
  · refine returns_bind (returns_shellCpPath ?_) fun _ _ => returns_pure.mpr le_rfl
    rw [Bool.toNat_false]
    omega
  · split_ifs
    · exact Always.returns (by simp)
    · refine returns_bind (returns_shellCpPath ?_) fun _ _ => returns_pure.mpr le_rfl
      rw [Bool.toNat_true]
      omega
  · exact Always.returns (by simp)

theorem returns_shellMv (h : N + 2 ≤ fuel) : Returns granted N (shellMv fuel argv) (0 ≤ ·) := by
  -- the copy is recursive also for a file
  have hmove : ∀ (dest src : Str) (isRecursive : Bool), Returns granted N (do
      shellCpPath fuel dest src true
      shellRmPath fuel src isRecursive
      return (0 : ℤ)) (0 ≤ ·) := by
    intro dest src isRecursive
    refine returns_bind (returns_shellCpPath ?_) fun _ _ => ?_
    · rw [Bool.toNat_true]
      omega
    · exact returns_bind (returns_shellRmPath (by omega)) fun _ _ => returns_pure.mpr le_rfl
  unfold shellMv
  split
  · rename_i src dest
    refine returns_bind (always_isFileExist src).returns fun e _ => ?_
    cases e with
    | false => exact Always.returns (by simp)
    | true =>
      refine returns_bind (always_isDir src).returns fun d _ => ?_
      cases d with
      | false => exact hmove dest src false
      | true =>
        refine returns_bind (always_isFileExist dest).returns fun existing _ => ?_
        refine returns_bind (R := fun _ => True) (Always.returns (by simp)) fun bad _ => ?_
        cases bad with
        | false => exact hmove dest src true
        | true => exact Always.returns (by simp)
  · exact Always.returns (by simp)

theorem returns_shellRm (h : N + 1 ≤ fuel) : Returns granted N (shellRm fuel argv) (0 ≤ ·) := by
  have harg : ∀ (isRecursive : Bool) (path : Option Str), Returns granted N (shellRmArg fuel isRecursive path) (0 ≤ ·) := by
    intro isRecursive path
    cases path with
    | none => exact Always.returns (by simp [shellRmArg])
    | some path =>
      refine returns_bind (always_isFileExist path).returns fun e _ => ?_
      cases e with
      | false => exact Always.returns (by simp)
      | true => exact returns_bind (returns_shellRmPath h) fun _ _ => returns_pure.mpr le_rfl
  cases argv with
  | nil => exact Always.returns (by simp [shellRm])
  | cons a as =>
    rw [shellRm]
    split_ifs
    · exact harg true as.head?
    · exact harg false (some a)

theorem always_shellMkdir (argv : List Str) : Always granted (shellMkdir argv) (0 ≤ ·) := by
  refine always_bind.mpr (Always.mono (P := fun _ => True) ?_ fun _ _ => always_bind.mpr ?_)
  · split_ifs <;> simp
  · exact (always_eachArg (fun a => by simp [IsCall]) argv).mono fun _ _ => le_rfl

theorem returns_shellCat (h : N + 1 ≤ fuel) : Returns granted N (shellCat fuel argv) (0 ≤ ·) := by
  unfold shellCat
  split_ifs
  · exact Always.returns (by simp)
  · refine returns_bind (returns_eachArg (fun a => ?_) argv) fun _ _ => returns_pure.mpr le_rfl
    exact returns_bind (returns_shellCatPath h) fun r _ => Always.returns (by simp)

theorem always_shellTouch (h : argv ≠ []) : Always granted (shellTouch argv) (0 ≤ ·) := by
  rw [shellTouch, if_neg h, always_bind]
  exact always_eachArg (fun a => by simp [IsCall]) argv |>.mono fun _ _ => le_rfl

theorem always_shellWrite (argv : List Str) : Always granted (shellWrite argv) (0 ≤ ·) := by
  cases argv <;> simp [shellWrite, IsCall]

theorem always_shellAppend (argv : List Str) : Always granted (shellAppend argv) (0 ≤ ·) := by
  cases argv <;> simp [shellAppend, IsCall]

theorem always_shellHelp : Always granted shellHelp (0 ≤ ·) := by
  simp [shellHelp, descriptions]

theorem always_shellKill (h : KillOk argv) : Always granted (shellKill argv) (0 ≤ ·) := by
  unfold shellKill
  split
  · rename_i a b as
    obtain ⟨⟨h1, h2⟩, h3, h4⟩ := h
    rw [if_neg (by omega), if_neg (by omega)]
    simp [IsCall]
  · simp

theorem always_shellTrap (h : TrapOk argv) : Always granted (shellTrap argv) (0 ≤ ·) := by
  cases argv with
  | nil => exact h.elim
  | cons a as =>
    obtain ⟨h1, h2⟩ := h
    dsimp only [shellTrap]
    rw [if_neg (by omega)]
    simp only [always_bind, always_printf, always_op, always_ite, always_pure, granted_ok, granted_may, le_refl, implies_true,
      and_true]
    exact ⟨trivial, fun r (hr : 0 ≤ r) hneg => absurd hr (by omega)⟩

theorem always_shellSpawn (h : SpawnOk argv) : Always granted (shellSpawn argv) (0 ≤ ·) := by
  cases argv with
  | nil => exact h.elim
  | cons a as =>
    obtain ⟨h1, h2⟩ := h
    dsimp only [shellSpawn]
    rw [if_neg (by omega)]
    simp only [always_bind, always_printf, always_op, always_ite, always_pure, granted_ok, granted_may, le_refl, implies_true,
      true_and]
    exact ⟨trivial, fun r (hr : r ≠ -1) hneg => absurd hr hneg⟩

/-! Pipelines. -/

theorem always_parseStage (cmd : Str) : Always granted (parseStage cmd) fun _ => True := by
  simp [parseStage]

theorem always_parsePipeline (stages : List (List Str)) (segs : List Str) :
    Always granted (parsePipeline stages segs) fun _ => True := by
  induction segs generalizing stages with
  | nil => trivial
  | cons seg segs ih =>
    rw [parsePipeline]
    split_ifs
    · trivial
    · simp
    · refine always_bind.mpr ((always_parseStage seg).mono fun argv _ => ?_)
      cases argv with
      | none => trivial
      | some argv => simp [ih]

@[simp] theorem always_closeIn (inFd : ℤ) : Always granted (closeIn inFd) fun _ => True := by
  simp [closeIn, IsCall]

theorem always_launchProcessStage (stage : List Str) (stdinFd stdoutFd : ℤ) :
    Always granted (launchProcessStage stage stdinFd stdoutFd) fun _ => True := by
  have hls : ∀ argv, Always granted (launchLs argv stdinFd stdoutFd) fun _ => True := by
    intro argv
    unfold launchLs
    split <;> simp [IsCall]
  have hfilter : ∀ label elfId argv, Always granted (launchFilter label elfId argv stdinFd stdoutFd) fun _ => True := by
    intro label elfId argv
    unfold launchFilter
    split <;> simp [IsCall]
  simp [launchProcessStage, hls, hfilter]

theorem always_launchAll (inFd : ℤ) (pids : List ℤ) (stages : List (List Str)) :
    Always granted (launchAll inFd pids stages) fun _ => True := by
  induction stages generalizing inFd pids with
  | nil => trivial
  | cons st stages ih =>
    have hlaunch := always_launchProcessStage st
    cases stages with
    | nil =>
      refine always_bind.mpr ((hlaunch inFd (-1)).mono fun pid _ => ?_)
      simp
    | cons st' stages =>
      refine ⟨trivial, fun r _ => always_ite.mpr ⟨fun _ => by simp, fun _ => ?_⟩⟩
      refine always_bind.mpr ((hlaunch inFd r.2.2).mono fun pid _ => ?_)
      simp [IsCall, ih]

theorem always_waitAll (pids : List ℤ) : Always granted (waitAll pids) fun _ => True := by
  induction pids with
  | nil => trivial
  | cons pid pids ih => simp [waitAll, ih, IsCall]

theorem always_runPipeline (buf : Str) : Always granted (runPipeline buf) (0 ≤ ·) := by
  refine always_bind.mpr ((always_parsePipeline [] _).mono fun stages _ => ?_)
  cases stages with
  | none => exact le_refl (0 : ℤ)
  | some stages =>
    simp only [always_ite, always_pure, always_bind, always_printf, le_refl, implies_true, true_and]
    intro _ _
    refine (always_launchAll (-1) [] stages).mono fun r _ => ?_
    cases r with
    | none => exact le_refl (0 : ℤ)
    | some r => simp [always_waitAll]

end Commands

/-- The arguments with which a command does not return a negative value. -/
def Accepts (name : Str) (argv : List Str) : Prop :=
  (name = ascii "touch" → argv ≠ []) ∧ (name = ascii "kill" → KillOk argv) ∧ (name = ascii "trap" → TrapOk argv) ∧
    (name = ascii "spawn" → SpawnOk argv)

/-- The condition on a line: it is a pipeline, has too many words or none, or is a command with arguments it accepts. -/
def Harmless (line : Str) : Prop :=
  0x7c ∈ line ∨ MAXARGS ≤ (words line).length ∨ ∀ name argv, words line = name :: argv → Accepts name argv

variable {N fuel : ℕ}

theorem returns_command (h : N + 2 ≤ fuel) {c : Str × (List Str → ShellM ℤ)} (hc : c ∈ commands fuel)
    {argv : List Str} (ha : Accepts c.1 argv) : Returns granted N (c.2 argv) (0 ≤ ·) := by
  obtain ⟨htouch, hkill, htrap, hspawn⟩ := ha
  simp only [commands, List.mem_cons, List.not_mem_nil, or_false] at hc
  obtain rfl | rfl | rfl | rfl | rfl | rfl | rfl | rfl | rfl | rfl | rfl | rfl | rfl | rfl | rfl | rfl := hc
  · exact (always_shellLs argv).returns
  · exact Always.returns (by simp [shellPwd, IsCall])
  · exact Always.returns (by simp [shellCd, IsCall])
  · exact returns_shellCp h
  · exact returns_shellMv h
  · exact returns_shellRm (by omega)
  · exact (always_shellMkdir argv).returns
  · exact returns_shellCat (by omega)
  · exact returns_shellCat (by omega)
  · exact (always_shellTouch (htouch rfl)).returns
  · exact (always_shellWrite argv).returns
  · exact (always_shellAppend argv).returns
  · exact always_shellHelp.returns
  · exact (always_shellKill (hkill rfl)).returns
  · exact (always_shellTrap (htrap rfl)).returns
  · exact (always_shellSpawn (hspawn rfl)).returns

theorem returns_runcmd (h : N + 2 ≤ fuel) {line : Str} (hline : Harmless line) :
    Returns granted N (runcmd fuel line) (0 ≤ ·) := by
  unfold runcmd
  by_cases hbar : 0x7c ∈ line
  · rw [if_pos hbar]
    exact (always_runPipeline line).returns
  · rw [if_neg hbar]
    unfold parseStage
    by_cases hlen : MAXARGS - 1 < (words line).length
    · rw [if_pos hlen]
      exact Always.returns (by simp)
    · rw [if_neg hlen]
      have hlen' : ¬ MAXARGS ≤ (words line).length := fun h16 => hlen h16
      have hacc := (hline.resolve_left hbar).resolve_left hlen'
      show Returns granted N (match some (words line) with | none => _ | some [] => _ | some (name :: argv) => _) _
      cases hw : words line with
      | nil => exact returns_pure.mpr le_rfl
      | cons name argv =>
        dsimp only
        split_ifs
        · exact (always_runPipeline line).returns
        · split
          · rename_i c hc
            have hname : c.1 = name := by simpa using List.find?_some hc
            exact returns_command h (List.mem_of_find?_eq_some hc) (hname ▸ hacc name argv hw)
          · exact Always.returns (by simp)

/-! ### The loop of `main` -/

/-- The string that `runcmd` is given when `shell_readline` has read `r`. -/
def Prompt.line (s : Prompt) (r : Str) : Str := cString (sysReadline s.buf r)

/-- A round of the loop of `main`, with the answers of `W`: `runcmd` returns what its program does, with any number of rounds
that is large enough. -/
def Round (W : World ShellOp) (s t : Prompt) : Prop :=
  ∃ e r rest, consoleRead BUFLEN [] s.input = some (r, rest) ∧ s.step e = some t ∧
    ∃ n m, ∀ fuel ≥ m, (runcmd fuel (Prompt.line s r)).Gives W n (Shell.runcmd e (sysReadline s.buf r)).1

/-- The condition on a round: the line is one that does not end the loop. -/
def HarmlessRound (s t : Prompt) : Prop :=
  (∀ r rest, consoleRead BUFLEN [] s.input = some (r, rest) → Harmless (Prompt.line s r)) ∧ Round granted s t

theorem exited_of_harmlessRound {s t : Prompt} (h : HarmlessRound s t) : t.exited = false := by
  obtain ⟨hline, e, r, rest, hr, ht, n, m, hg⟩ := h
  unfold Prompt.step at ht
  split_ifs at ht
  rw [hr] at ht
  obtain rfl := Option.some.inj ht
  have hv := (returns_runcmd (Nat.le_max_right m (n + 2)) (hline r rest hr)).of_gives (hg _ (Nat.le_max_left m (n + 2))) le_rfl
  exact decide_eq_false (not_lt.mpr hv)

theorem harmless_pwd : Harmless (ascii "pwd\n") := by
  refine .inr (.inr fun name argv h => ?_)
  rw [show words (ascii "pwd\n") = [ascii "pwd"] by decide] at h
  obtain ⟨rfl, rfl⟩ := List.cons.inj h
  exact ⟨fun h => absurd h (by decide), fun h => absurd h (by decide), fun h => absurd h (by decide),
    fun h => absurd h (by decide)⟩

theorem runcmd_pwd (fuel : ℕ) : runcmd fuel (ascii "pwd\n") = shellPwd := rfl

/-- Commands that return `-1`. -/
def ending : Commands := ⟨fun _ => 0, fun buf => (-1, buf), fun _ => rfl⟩

theorem gives_printf {α : Type} {fmt : String} {args : List Arg} {f : PUnit → ShellM α} {n : ℕ} {a : α}
    (h : (f ⟨⟩).Gives anything n a) : (printf fmt args >>= f).Gives anything n a := by
  have hact := Gives.act (W := anything) (o := .printf fmt args) (k := f) (b := ⟨⟩) trivial h
  rwa [show anything.cost PUnit (.printf fmt args) ⟨⟩ = 0 from rfl, Nat.zero_add] at hact

theorem runcmd_trap (fuel : ℕ) : runcmd fuel (ascii "trap\n") = shellTrap [] := rfl

end MCertiKOS.Shell.Builtin
