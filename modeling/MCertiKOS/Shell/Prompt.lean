import MCertiKOS.Library.Bytes
import Mathlib.Logic.Relation

/-!
# The prompt of the shell

The loop of `main` in `user/shell/shell.c`: `shell_readline` reads a line into `buf` and `runcmd` runs what is in
`buf`. The line comes from `console_read` of `kern/fs/file.c` through `sys_readline` of `user/include/syscall.h`; the
input is the sequence of characters that `cons_getc` returns, none of which is `0`. `run_pipeline` and the built-in
commands, which may change `buf`, are parameters.

Two fields are not in the source: `lines` lists the lines that the user completed and `executed` the strings that
`runcmd` ran.

`shell_readline` drops the result of `sys_readline`, so after an aborted line `runcmd` runs what the last line left
in `buf` (`aborted_line_runs_again`). When every read completes a line of less than `1024` characters, or finds an
empty string in `buf`, the strings that are run are the lines (`runs_completed_lines`).
-/

namespace MCertiKOS.Shell

open Library Relation List

/-! ### The console -/

/-- The loop of `console_read` for `n` bytes, when `acc` has been read: the bytes and the rest of the input; `none` if
it waits for more. The echo is left out. -/
def consoleRead (n : ℕ) : List UInt8 → List UInt8 → Option (List UInt8 × List UInt8)
  | acc, [] => if acc.length < n then none else some (acc, [])
  | acc, c :: cs =>
    if acc.length < n then
      if c = 0x08 ∨ c = 0x7f then consoleRead n acc.dropLast cs
      else if c = 0x04 then some (acc, cs)
      else if c = 0x03 then some ([], cs)
      else if c = 0x0d then some (acc ++ [0x0a], cs)
      else if c = 0x0a then some (acc ++ [0x0a], cs)
      else consoleRead n (acc ++ [c]) cs
    else some (acc, c :: cs)

variable {r buf : List UInt8}

theorem consoleRead_spec {n : ℕ} {acc cs rest : List UInt8} (h : consoleRead n acc cs = some (r, rest))
    (hacc : (0 : UInt8) ∉ acc) (hcs : (0 : UInt8) ∉ cs) (hlen : acc.length ≤ n) :
    (0 : UInt8) ∉ r ∧ (0 : UInt8) ∉ rest ∧ r.length ≤ n := by
  induction cs generalizing acc with
  | nil =>
    rw [consoleRead] at h
    split_ifs at h
    obtain ⟨rfl, rfl⟩ := by simpa using h
    exact ⟨hacc, not_mem_nil, hlen⟩
  | cons c cs ih =>
    obtain ⟨hc, hcs'⟩ := not_or.mp (mt mem_cons.mpr hcs)
    rw [consoleRead] at h
    by_cases hlt : acc.length < n
    · rw [if_pos hlt] at h
      split_ifs at h with h1 h2 h3 h4 h5
      · refine ih h (fun hm => hacc (dropLast_subset _ hm)) hcs' ?_
        rw [length_dropLast]
        omega
      · obtain ⟨rfl, rfl⟩ := by simpa using h
        exact ⟨hacc, hcs', hlen⟩
      · obtain ⟨rfl, rfl⟩ := by simpa using h
        exact ⟨not_mem_nil, hcs', Nat.zero_le _⟩
      · obtain ⟨rfl, rfl⟩ := by simpa using h
        exact ⟨by simpa using hacc, hcs', by rw [length_append]; exact hlt⟩
      · obtain ⟨rfl, rfl⟩ := by simpa using h
        exact ⟨by simpa using hacc, hcs', by rw [length_append]; exact hlt⟩
      · exact ih h (by simpa using ⟨hacc, hc⟩) hcs' (by rw [length_append]; exact hlt)
    · rw [if_neg hlt] at h
      obtain ⟨rfl, rfl⟩ := by simpa using h
      exact ⟨hacc, hcs, hlen⟩

/-! ### The line -/

/-- `sizeof(buf)`. -/
abbrev BUFLEN : ℕ := 1024

/-- `sys_readline`: what is read replaces the beginning of the buffer, with a `0` after it. For `n = 1024` the `0` is
stored past the end. The result is dropped by `shell_readline`. -/
def sysReadline (buf r : List UInt8) : List UInt8 :=
  if r.length = 0 then buf else (r ++ buf.drop r.length).set r.length 0

theorem cString_sysReadline (hr : (0 : UInt8) ∉ r) (hne : r ≠ []) (hlen : r.length < buf.length) :
    cString (sysReadline buf r) = r := by
  have h0 : r.length ≠ 0 := by simpa using hne
  rw [sysReadline, if_neg h0, set_zero_append_drop hlen, cString_append_zero, cString_eq_self hr]

theorem length_sysReadline (hlen : r.length ≤ buf.length) : (sysReadline buf r).length = buf.length := by
  unfold sysReadline
  split_ifs
  · rfl
  · rw [length_set, length_append, length_drop]
    omega

/-! ### Commands -/

def whitespace : List UInt8 := [0x09, 0x0d, 0x0a, 0x20]

abbrev MAXARGS : ℕ := 16

namespace Words

scoped instance lawful : LawfulBEq (List UInt8) := inferInstance

end Words

/-- The names of `is_process_cmd`: `CAT`, `LS`, `ROT13`, `biral` and `BIRAL`. -/
def processCmds : List (List UInt8) :=
  [[67, 65, 84], [76, 83], [82, 79, 84, 49, 51], [98, 105, 114, 97, 108], [66, 73, 82, 65, 76]]

/-- The loop of `runcmd` over the rest of the buffer, with `argc` arguments so far and in a word or not: blanks become
`0`. The result is the rest and the number of arguments, `none` if there are too many. -/
def splitArgs : ℕ → Bool → List UInt8 → List UInt8 × Option ℕ
  | argc, _, [] => ([], some argc)
  | argc, inWord, b :: bs =>
    if b = 0 then (b :: bs, some argc)
    else if b ∈ whitespace then
      let r := splitArgs argc false bs
      (0 :: r.1, r.2)
    else if inWord then
      let r := splitArgs argc true bs
      (b :: r.1, r.2)
    else if argc = MAXARGS - 1 then (b :: bs, none)
    else
      let r := splitArgs (argc + 1) true bs
      (b :: r.1, r.2)

/-- `argv[0]`: the first word. -/
def firstWord (buf : List UInt8) : List UInt8 := cString (buf.dropWhile (· = 0))

/-- What `runcmd` calls. -/
structure Commands where
  /-- The result of `run_pipeline`. -/
  runPipeline : List UInt8 → ℤ
  /-- The result of a built-in command or of an unknown one, and what it leaves in the buffer. -/
  command : List UInt8 → ℤ × List UInt8
  length : ∀ buf, (command buf).2.length = buf.length

/-- `runcmd`: its result and what it leaves in the buffer. -/
def runcmd (e : Commands) (buf : List UInt8) : ℤ × List UInt8 :=
  let procbuf := cString buf
  if 0x7c ∈ procbuf then (e.runPipeline procbuf, buf)
  else
    let r := splitArgs 0 false buf
    match r.2 with
    | none => (0, r.1)
    | some argc =>
      if argc = 0 then (0, r.1)
      else if firstWord r.1 ∈ processCmds then (e.runPipeline procbuf, r.1)
      else e.command r.1

theorem length_splitArgs (argc : ℕ) (inWord : Bool) (buf : List UInt8) : (splitArgs argc inWord buf).1.length = buf.length := by
  induction buf generalizing argc inWord with
  | nil => rfl
  | cons b bs ih =>
    rw [splitArgs]
    split_ifs
    · rfl
    · simp [ih]
    · simp [ih]
    · rfl
    · simp [ih]

theorem length_runcmd (e : Commands) (buf : List UInt8) : (runcmd e buf).2.length = buf.length := by
  have hs := length_splitArgs 0 false buf
  unfold runcmd
  dsimp only
  by_cases hbar : (0x7c : UInt8) ∈ cString buf
  · rw [if_pos hbar]
  · rw [if_neg hbar]
    split
    · exact hs
    · split_ifs
      · exact hs
      · exact hs
      · rw [e.length, hs]

/-! ### The loop -/

/-- The shell at its prompt. -/
structure Prompt where
  buf : List UInt8
  input : List UInt8
  lines : List (List UInt8)
  /-- The strings that `runcmd` ran. -/
  executed : List (List UInt8)
  exited : Bool

def runs (cmd : List UInt8) : List (List UInt8) := if cmd = [] then [] else [cmd]

/-- One round of the loop of `main`; `none` if the shell waits for characters or has ended. -/
def Prompt.step (e : Commands) (s : Prompt) : Option Prompt :=
  if s.exited then none
  else
    (consoleRead BUFLEN [] s.input).map fun r =>
      let buf := sysReadline s.buf r.1
      { buf := (runcmd e buf).2
        input := r.2
        lines := s.lines ++ runs r.1
        executed := s.executed ++ runs (cString buf)
        exited := (runcmd e buf).1 < 0 }

/-- The condition on a round: the read completes a line of less than `1024` bytes, or there is an empty string in the
buffer. -/
def Prompt.Fits (s : Prompt) : Prop :=
  ∀ r rest, consoleRead BUFLEN [] s.input = some (r, rest) → r ≠ [] ∧ r.length < BUFLEN ∨ r = [] ∧ cString s.buf = []

/-- A round that meets the condition, whatever the commands do in it. -/
def PromptStep (s t : Prompt) : Prop := s.Fits ∧ ∃ e, s.step e = some t

/-- The shell when it starts: what is in `buf` is arbitrary. -/
def Prompt.start (buf input : List UInt8) : Prompt := ⟨buf, input, [], [], false⟩

/-- The invariant. -/
structure Prompt.Inv (s : Prompt) : Prop where
  length : s.buf.length = BUFLEN
  input : (0 : UInt8) ∉ s.input
  lines : s.executed = s.lines

theorem Prompt.Inv.step {s t : Prompt} (h : s.Inv) (hst : PromptStep s t) : t.Inv := by
  obtain ⟨hf, e, ht⟩ := hst
  unfold Prompt.step at ht
  split_ifs at ht
  obtain ⟨⟨r, rest⟩, hr, rfl⟩ := Option.map_eq_some_iff.mp ht
  obtain ⟨h0, hrest, hlen⟩ := consoleRead_spec hr not_mem_nil h.input (Nat.zero_le _)
  have hbuf : (sysReadline s.buf r).length = BUFLEN := by
    rw [length_sysReadline (by rw [h.length]; exact hlen), h.length]
  refine ⟨?_, hrest, ?_⟩
  · show (runcmd e (sysReadline s.buf r)).2.length = BUFLEN
    rw [length_runcmd, hbuf]
  · show s.executed ++ runs (cString (sysReadline s.buf r)) = s.lines ++ runs r
    rw [h.lines]
    congr 2
    rcases hf r rest hr with ⟨hne, hlt⟩ | ⟨rfl, hempty⟩
    · exact cString_sysReadline h0 hne (by rw [h.length]; exact hlt)
    · exact hempty

/-- Whatever the commands do, and whatever is in the buffer at first: when every read completes a line of less than `1024`
bytes or finds an empty string in the buffer, the strings that `runcmd` runs are the lines that the user completed. -/
theorem runs_completed_lines {buf input : List UInt8} (hbuf : buf.length = BUFLEN) (hin : (0 : UInt8) ∉ input)
    {s : Prompt} (h : ReflTransGen PromptStep (Prompt.start buf input) s) : s.executed = s.lines := by
  have hi : s.Inv := by
    induction h with
    | refl => exact ⟨hbuf, hin, rfl⟩
    | tail _ hst ih => exact ih.step hst
  exact hi.lines

/-- Commands that all return `0` and leave the buffer as it is. -/
def quiet : Commands := ⟨fun _ => 0, fun buf => (0, buf), fun _ => rfl⟩

/-- The rounds of the shell with commands `e`, at most `n` of them. -/
def Prompt.run (e : Commands) : ℕ → Prompt → Prompt
  | 0, s => s
  | n + 1, s => (s.step e).elim s (Prompt.run e n)

/-- The line `LS | CAT`. -/
def pipeLine : List UInt8 := [76, 83, 32, 124, 32, 67, 65, 84, 10]

theorem runs_completed_lines_once :
    ((Prompt.start (List.replicate 1024 0) pipeLine).step quiet).map (fun s => (s.lines, s.executed)) =
        some ([pipeLine], [pipeLine]) ∧
      ∀ s, (Prompt.start (List.replicate 1024 0) pipeLine).step quiet = some s → s.executed = s.lines := by
  refine ⟨by decide, fun s hs => ?_⟩
  refine runs_completed_lines (by decide +kernel) (by decide) (.single ⟨fun r rest hr => ?_, quiet, hs⟩)
  have hread : consoleRead BUFLEN [] pipeLine = some (pipeLine, []) := by decide
  obtain ⟨rfl, rfl⟩ := by simpa using hread.symm.trans hr
  exact .inl ⟨by decide, by decide⟩

/-- The user enters `LS | CAT` and then presses Ctrl-C: one line is completed, and the pipeline is run twice. -/
theorem aborted_line_runs_again :
    let s := Prompt.run quiet 2 (Prompt.start (List.replicate 1024 0) (pipeLine ++ [0x03]))
    s.lines = [pipeLine] ∧ s.executed = [pipeLine, pipeLine] := by
  decide

end MCertiKOS.Shell
