import MCertiKOS.Library.Choices
import MCertiKOS.Library.FileTree
import MCertiKOS.Library.Words
import MCertiKOS.Shell.Command
import Mathlib.Order.Interval.Set.Infinite

/-!
# The calls of the shell in a correct file system

What the calls of a command are to do, said without the kernel: there is a tree of files, a working directory and a table of open files, and
a call is a relation between what was before, the answer and what is after. A path is looked up name by name, and `.` and `..` are as
usual. Where a file system has a choice, so has the relation: the order of a listing, the number of a new descriptor,
the spelling of the working directory.

Two things are not up to the file system: what is in memory that has not been written (`stack` is all that may be there), and that a listing
is cut off where the buffer ends.
-/

namespace MCertiKOS.Shell.Calls

open Library Builtin Code List
open Function (update update_eq_self update_idem update_of_ne update_self)

/-! ### Paths -/

def IsName (n : Str) : Prop := n ≠ [] ∧ (47 : UInt8) ∉ n ∧ (0 : UInt8) ∉ n ∧ n ≠ dot ∧ n ≠ dotdot

instance (n : Str) : Decidable (IsName n) := inferInstanceAs (Decidable (_ ∧ _))

abbrev Files := FileTree Str Str IsName

def comps (path : Str) : List Str := wordsBy (· = 47) path

/-- Where the names lead from a directory; what is at the end exists. -/
def walk (f : Files) : List Str → List Str → Option (List Str)
  | p, [] => if f.node p = none then none else some p
  | p, c :: cs =>
    if f.node p = some .dir then
      if c = dot then walk f p cs else if c = dotdot then walk f p.dropLast cs else walk f (p ++ [c]) cs
    else none

def startOf (cwd : List Str) (path : Str) : List Str := if path.head? = some 47 then [] else cwd

def resolve (f : Files) (cwd : List Str) (path : Str) : Option (List Str) := walk f (startOf cwd path) (comps path)

def parentOf (f : Files) (cwd : List Str) (path : Str) : Option (List Str × Str) :=
  match (comps path).getLast? with
  | none => none
  | some n => (walk f (startOf cwd path) (comps path).dropLast).map fun d => (d, n)

/-! ### The state -/

/-- What the calls of the shell work on. -/
@[ext]
structure Sys where
  files : Files
  cwd : List Str
  fds : ℤ → Option (List Str × ℕ)
  few : {fd | fds fd ≠ none}.Finite
  stack : Set Str
  filled : stack.Nonempty

def Sys.start (f : Files) (stack : Set Str) (h : stack.Nonempty) : Sys := ⟨f, [], fun _ => none, by simp, stack, h⟩

def Sys.setFd (s : Sys) (fd : ℤ) (h : Option (List Str × ℕ)) : Sys :=
  { s with
    fds := update s.fds fd h
    few := (s.few.insert fd).subset fun x hx => by
      by_cases hxd : x = fd
      · exact .inl hxd
      · exact .inr fun hn => hx (by rw [update_of_ne hxd, hn]) }

def Sys.withFiles (s : Sys) (f : Files) : Sys := { s with files := f }

def Sys.moveTo (s : Sys) (p : List Str) : Sys := { s with cwd := p }

/-- The names in a directory, in some order. -/
structure Lists (f : Files) (p : List Str) (ns : List Str) : Prop where
  nodup : ns.Nodup
  mem : ∀ n, n ∈ ns ↔ n = dot ∨ n = dotdot ∨ f.node (p ++ [n]) ≠ none

/-- What `sys_ls` puts into the buffer: blanks between the names, and a `0`. -/
def listing : List Str → Str
  | [] => []
  | [n] => n ++ [0]
  | n :: ns => n ++ 32 :: listing ns

def overlay (data : Str) (off : ℕ) (bs : Str) : Str :=
  data.take off ++ List.replicate (off - data.length) 0 ++ bs ++ data.drop (off + bs.length)

/-! ### The calls -/

/-- `unlink` can do its work: there is an entry, and it is not a directory with entries. -/
def CanUnlink (f : Files) (d : List Str) (n : Str) : Prop :=
  f.node (d ++ [n]) ≠ none ∧ ∀ m, f.node (d ++ [n] ++ [m]) = none

/-- `open` without `O_CREATE`. -/
def OpenOld (s : Sys) (path : Str) (r : ℤ) (t : Sys) : Prop :=
  match resolve s.files s.cwd path with
  | some p => 0 ≤ r ∧ s.fds r = none ∧ t = s.setFd r (some (p, 0))
  | none => r = -1 ∧ t = s

/-- `open` with `O_CREATE`: a directory cannot be opened so. -/
def OpenNew (s : Sys) (path : Str) (r : ℤ) (t : Sys) : Prop :=
  match parentOf s.files s.cwd path with
  | some (d, n) =>
    if IsName n ∧ s.files.node d = some .dir ∧ s.files.node (d ++ [n]) ≠ some .dir then
      0 ≤ r ∧ s.fds r = none ∧ t = (s.withFiles (s.files.add d n (.file []))).setFd r (some (d ++ [n], 0))
    else r = -1 ∧ t = s
  | none => r = -1 ∧ t = s

def calls : Moves ShellOp Sys
  | _, .printf _ _, s, _, t => t = s
  | _, .ls n, s, r, t => t = s ∧ ∃ ns rest, Lists s.files s.cwd ns ∧
      r = (((min (listing ns).length n : ℕ) : ℤ), (listing ns).take n ++ rest)
  | _, .pwd, s, b, t => t = s ∧ b.head? = some 47 ∧ comps b = s.cwd
  | _, .chdir path, s, r, t =>
    match resolve s.files s.cwd path with
    | some p => if s.files.node p = some .dir then r = 0 ∧ t = s.moveTo p else r = -1 ∧ t = s
    | none => r = -1 ∧ t = s
  | _, .mkdir path, s, r, t =>
    match parentOf s.files s.cwd path with
    | some (d, n) =>
      if IsName n ∧ s.files.node d = some .dir ∧ s.files.node (d ++ [n]) = none then
        r = 0 ∧ t = s.withFiles (s.files.add d n .dir)
      else r = -1 ∧ t = s
    | none => r = -1 ∧ t = s
  | _, .unlink path, s, r, t =>
    match parentOf s.files s.cwd path with
    | some (d, n) => (CanUnlink s.files d n ∧ r = 0 ∧ t = s.withFiles (s.files.cut d {n})) ∨
        (¬ CanUnlink s.files d n ∧ r = -1 ∧ t = s)
    | none => r = -1 ∧ t = s
  | _, .open none _, _, _, _ => False
  | _, .open (some path) omode, s, r, t => if omode &&& O_CREATE = 0 then OpenOld s path r t else OpenNew s path r t
  | _, .close fd, s, r, t => r = (if s.fds fd = none then -1 else 0) ∧ t = s.setFd fd none
  | _, .read fd n, s, r, t =>
    match s.fds fd with
    | some (p, off) =>
      match s.files.node p with
      | some (.file data) =>
        let bs := (data.drop off).take n
        r = ((bs.length : ℤ), bs) ∧ t = s.setFd fd (some (p, off + bs.length))
      | _ => r = (-1, []) ∧ t = s
    | none => r = (-1, []) ∧ t = s
  | _, .write fd bs, s, r, t =>
    match s.fds fd with
    | some (p, off) =>
      match s.files.node p with
      | some (.file data) =>
        r = bs.length ∧ t = (s.withFiles (s.files.store p (overlay data off bs))).setFd fd (some (p, off + bs.length))
      | _ => r = -1 ∧ t = s
    | none => r = -1 ∧ t = s
  | _, .isDir fd, s, r, t =>
    t = s ∧
      match s.fds fd with
      | some (p, _) => r = if s.files.node p = some .dir then 1 else 0
      | none => r = -1
  | _, .memory, s, m, t => t = s ∧ m ∈ s.stack
  | _, _, s, _, t => t = s

/-! ### Looking up paths -/

section

variable {f : Files} {cwd d p q : List Str} {cs ds : List Str} {n : Str} {path : Str}

theorem node_of_walk (h : walk f p cs = some q) : f.node q ≠ none := by
  induction cs generalizing p with
  | nil =>
    rw [walk] at h
    split_ifs at h with hp
    rwa [← Option.some.inj h]
  | cons c cs ih =>
    rw [walk] at h
    split_ifs at h
    · exact ih h
    · exact ih h
    · exact ih h

theorem walk_append (h : walk f p cs = some q) : walk f p (cs ++ ds) = walk f q ds := by
  induction cs generalizing p with
  | nil =>
    rw [walk] at h
    split_ifs at h
    rw [nil_append, Option.some.inj h]
  | cons c cs ih =>
    rw [walk] at h
    rw [cons_append, walk]
    split_ifs at h ⊢
    · exact ih h
    · exact ih h
    · exact ih h

theorem walk_snoc (h : walk f p (cs ++ [n]) = some q) :
    ∃ d, walk f p cs = some d ∧ f.node d = some .dir ∧ walk f d [n] = some q := by
  induction cs generalizing p with
  | nil =>
    have hp : f.node p = some .dir := by
      by_contra hp
      rw [nil_append, walk, if_neg hp] at h
      cases h
    exact ⟨p, by rw [walk, if_neg (by simp [hp])], hp, h⟩
  | cons c cs ih =>
    rw [cons_append, walk] at h
    rw [walk]
    split_ifs at h ⊢
    · exact ih h
    · exact ih h
    · exact ih h

theorem walk_name (hd : f.node d = some .dir) (hn : IsName n) :
    walk f d [n] = if f.node (d ++ [n]) = none then none else some (d ++ [n]) := by
  rw [walk, if_pos hd, if_neg hn.2.2.2.1, if_neg hn.2.2.2.2, walk]

theorem walk_nil (hp : f.node p ≠ none) : walk f p [] = some p := by rw [walk, if_neg hp]

theorem dir_dropLast (hp : f.node p = some .dir) : f.node p.dropLast = some .dir := by
  cases p using List.reverseRecOn with
  | nil => exact hp
  | append_singleton p n =>
    rw [dropLast_concat]
    exact f.parent p n (by rw [hp]; exact Option.some_ne_none _)

theorem walk_names (h : f.node (p ++ cs) ≠ none) : walk f p cs = some (p ++ cs) := by
  induction cs generalizing p with
  | nil =>
    rw [append_nil] at h ⊢
    exact walk_nil h
  | cons c cs ih =>
    have hc := f.ok_of_mem h c (by simp)
    have hcs : f.node (p ++ [c] ++ cs) ≠ none := by rwa [← append_cons]
    rw [walk, if_pos (f.dir_above h), if_neg hc.2.2.2.1, if_neg hc.2.2.2.2, ih hcs, ← append_cons]

theorem resolve_of_parentOf (h : parentOf f cwd path = some (d, n)) (hn : IsName n) (hd : f.node d = some .dir) :
    resolve f cwd path = if f.node (d ++ [n]) = none then none else some (d ++ [n]) := by
  unfold parentOf at h
  cases hl : (comps path).getLast? with
  | none => simp [hl] at h
  | some m =>
    rw [hl] at h
    obtain ⟨d', hw, he⟩ := Option.map_eq_some_iff.mp h
    obtain ⟨rfl, rfl⟩ := Prod.mk.inj he
    rw [resolve, ← dropLast_append_getLast? m hl, walk_append hw, walk_name hd hn]

theorem resolve_of_mem (h : parentOf f cwd path = some (d, n)) (hex : f.node (d ++ [n]) ≠ none) :
    resolve f cwd path = some (d ++ [n]) := by
  rw [resolve_of_parentOf h (f.name d n hex) (f.parent d n hex), if_neg hex]

theorem parentOf_of_file {data : Str} (h : resolve f cwd path = some p) (hp : f.node p = some (.file data))
    (hne : p ≠ startOf cwd path) :
    ∃ d n, parentOf f cwd path = some (d, n) ∧ p = d ++ [n] := by
  unfold resolve at h
  cases hl : (comps path).getLast? with
  | none =>
    rw [List.getLast?_eq_none_iff.mp hl, walk] at h
    split_ifs at h
    exact absurd (Option.some.inj h).symm hne
  | some n =>
    rw [← dropLast_append_getLast? n hl] at h
    obtain ⟨d, hw, hd, hlast⟩ := walk_snoc h
    have hparent : parentOf f cwd path = some (d, n) := by
      rw [parentOf, hl]
      dsimp only
      rw [hw]
      rfl
    refine ⟨d, n, hparent, ?_⟩
    rw [walk, if_pos hd] at hlast
    split_ifs at hlast with hdot hdotdot
    · -- `.` and `..` would name directories
      rw [walk] at hlast
      split_ifs at hlast
      rw [← Option.some.inj hlast, hd] at hp
      cases hp
    · rw [walk] at hlast
      split_ifs at hlast
      rw [← Option.some.inj hlast, dir_dropLast hd] at hp
      cases hp
    · rw [walk] at hlast
      split_ifs at hlast
      exact (Option.some.inj hlast).symm

/-- What is in `f` is in `g`. -/
def Keeps (f g : Files) : Prop := ∀ p, f.node p ≠ none → g.node p = f.node p

/-- The directories of `f` are directories in `g`, and what is in `f` is something in `g`. -/
def Over (f g : Files) : Prop := (∀ p, f.node p = some .dir → g.node p = some .dir) ∧ ∀ p, f.node p ≠ none → g.node p ≠ none

variable {g : Files}

theorem Keeps.over (hfg : Keeps f g) : Over f g :=
  ⟨fun p hp => by rw [hfg p (by simp [hp]), hp], fun p hp => by rwa [hfg p hp]⟩

theorem Over.walk (hfg : Over f g) (h : walk f p cs = some q) : walk g p cs = some q := by
  induction cs generalizing p with
  | nil =>
    rw [Calls.walk] at h ⊢
    split_ifs at h with hp
    rwa [if_neg (hfg.2 p hp)]
  | cons c cs ih =>
    rw [Calls.walk] at h ⊢
    split_ifs at h with hp hdot hdotdot
    · rw [if_pos (hfg.1 p hp), if_pos hdot]
      exact ih h
    · rw [if_pos (hfg.1 p hp), if_neg hdot, if_pos hdotdot]
      exact ih h
    · rw [if_pos (hfg.1 p hp), if_neg hdot, if_neg hdotdot]
      exact ih h

theorem Keeps.walk (hfg : Keeps f g) (h : walk f p cs = some q) : walk g p cs = some q := hfg.over.walk h

theorem Over.parentOf (hfg : Over f g) (h : parentOf f cwd path = some (d, n)) : parentOf g cwd path = some (d, n) := by
  unfold Calls.parentOf at h ⊢
  cases hl : (comps path).getLast? with
  | none => simp [hl] at h
  | some m =>
    rw [hl] at h
    obtain ⟨d', hw, he⟩ := Option.map_eq_some_iff.mp h
    dsimp only
    rw [hfg.walk hw, ← he]
    rfl

theorem Keeps.parentOf (hfg : Keeps f g) (h : parentOf f cwd path = some (d, n)) : parentOf g cwd path = some (d, n) :=
  hfg.over.parentOf h

theorem comps_of_name (hn : IsName n) : comps n = [n] :=
  wordsBy_singleton (fun b hb => by simpa using fun e : b = 47 => hn.2.1 (e ▸ hb)) hn.1

theorem startOf_name (hn : IsName n) : startOf cwd n = cwd := by
  rw [startOf, if_neg]
  exact fun h => hn.2.1 (mem_of_head? h)

theorem parentOf_name (hn : IsName n) (hcwd : f.node cwd ≠ none) : parentOf f cwd n = some (cwd, n) := by
  rw [parentOf, comps_of_name hn, startOf_name hn]
  show (walk f cwd []).map _ = _
  rw [walk_nil hcwd]
  rfl

theorem resolve_dotdot (hcwd : f.node cwd = some .dir) : resolve f cwd dotdot = some cwd.dropLast := by
  have hup : f.node cwd.dropLast ≠ none := by
    rw [dir_dropLast hcwd]
    exact Option.some_ne_none _
  have hcomps : comps dotdot = [dotdot] := by decide
  have hstart : startOf cwd dotdot = cwd := if_neg (by decide)
  rw [resolve, hcomps, hstart, walk, if_pos hcwd, if_neg (by decide), if_pos rfl, walk_nil hup]

end

/-! ### What the calls do -/

section

variable {s : Sys} {path : Str} {p d : List Str} {n : Str} {fd : ℤ}

@[simp] theorem files_withFiles (f : Files) : (s.withFiles f).files = f := rfl

@[simp] theorem cwd_withFiles (f : Files) : (s.withFiles f).cwd = s.cwd := rfl

@[simp] theorem files_moveTo (p : List Str) : (s.moveTo p).files = s.files := rfl

@[simp] theorem cwd_moveTo (p : List Str) : (s.moveTo p).cwd = p := rfl

@[simp] theorem withFiles_withFiles (f g : Files) : (s.withFiles f).withFiles g = s.withFiles g := rfl

@[simp] theorem withFiles_self : s.withFiles s.files = s := rfl

@[simp] theorem files_setFd (h : Option (List Str × ℕ)) : (s.setFd fd h).files = s.files := rfl

@[simp] theorem fds_setFd_self (h : Option (List Str × ℕ)) : (s.setFd fd h).fds fd = h := update_self ..

theorem setFd_setFd_none (h : Option (List Str × ℕ)) (hfd : s.fds fd = none) : (s.setFd fd h).setFd fd none = s := by
  ext1
  · rfl
  · rfl
  · show update (update s.fds fd h) fd none = s.fds
    rw [update_idem, ← hfd, update_eq_self]
  · rfl

theorem exists_fresh (s : Sys) : ∃ fd : ℤ, 0 ≤ fd ∧ s.fds fd = none := by
  obtain ⟨fd, hpos, hfd⟩ := (Set.Ici_infinite (0 : ℤ)).exists_notMem_finite s.few
  exact ⟨fd, hpos, not_not.mp hfd⟩

variable {Q : ℤ → Sys → Prop}

theorem meets_chdir (hp : resolve s.files s.cwd path = some p) (hd : s.files.node p = some .dir) (h : Q 0 (s.moveTo p)) :
    (op (.chdir path)).Meets calls Q s := by
  refine (meets_op_of fun r t => ?_).mpr h
  delta calls
  simp only [hp, if_pos hd]

theorem meets_unlink (hp : parentOf s.files s.cwd path = some (d, n)) (hc : CanUnlink s.files d n)
    (h : Q 0 (s.withFiles (s.files.cut d {n}))) : (op (.unlink path)).Meets calls Q s := by
  refine (meets_op_of fun r t => ?_).mpr h
  delta calls
  simp only [hp, hc, true_and, not_true_eq_false, false_and, or_false]

theorem meets_open (hp : resolve s.files s.cwd path = some p)
    (h : ∀ fd, 0 ≤ fd → s.fds fd = none → Q fd (s.setFd fd (some (p, 0)))) :
    (op (.open (some path) O_RDONLY)).Meets calls Q s := by
  have hmove : ∀ r t, calls ℤ (.open (some path) O_RDONLY) s r t ↔ 0 ≤ r ∧ s.fds r = none ∧ t = s.setFd r (some (p, 0)) := by
    intro r t
    delta calls
    simp only [OpenOld, hp]
    exact Iff.rfl
  refine meets_op.mpr ⟨?_, fun r t hm => ?_⟩
  · obtain ⟨fd, hpos, hfd⟩ := exists_fresh s
    exact ⟨fd, _, (hmove _ _).mpr ⟨hpos, hfd, rfl⟩⟩
  · obtain ⟨hpos, hfd, rfl⟩ := (hmove r t).mp hm
    exact h r hpos hfd

theorem meets_open_none (hp : resolve s.files s.cwd path = none) (h : Q (-1) s) :
    (op (.open (some path) O_RDONLY)).Meets calls Q s := by
  refine (meets_op_of fun r t => ?_).mpr h
  delta calls
  simp only [OpenOld, hp]
  exact Iff.rfl

theorem meets_close (h : ∀ r, Q r (s.setFd fd none)) : (op (.close fd)).Meets calls Q s :=
  (meets_op_of fun _ _ => Iff.rfl).mpr (h _)

variable {off k : ℕ} {data : Str} {f : Files} {ns : List Str}

theorem meets_isDir_call (hfd : s.fds fd = some (p, off)) (h : Q (if s.files.node p = some .dir then 1 else 0) s) :
    (op (.isDir fd)).Meets calls Q s := by
  refine (meets_op_of fun r t => ?_).mpr h
  delta calls
  simp only [hfd]
  exact and_comm

theorem setFd_setFd (h h' : Option (List Str × ℕ)) : (s.setFd fd h).setFd fd h' = s.setFd fd h' := by
  ext1
  · rfl
  · rfl
  · exact update_idem ..
  · rfl

theorem meets_memory {Q : Str → Sys → Prop} (h : ∀ m ∈ s.stack, Q m s) : (op .memory).Meets calls Q s := by
  refine meets_op.mpr ⟨?_, ?_⟩
  · obtain ⟨m, hm⟩ := s.filled
    exact ⟨m, s, rfl, hm⟩
  · rintro m t ⟨rfl, hm⟩
    exact h m hm

section

variable (hp : parentOf s.files s.cwd path = some (d, n)) (hn : IsName n) (hd : s.files.node d = some .dir)
include hp hn hd

theorem meets_mkdir
    (hnone : s.files.node (d ++ [n]) = none) (h : Q 0 (s.withFiles (s.files.add d n .dir))) : (op (.mkdir path)).Meets calls Q s := by
  refine (meets_op_of fun r t => ?_).mpr h
  delta calls
  simp only [hp]
  rw [if_pos ⟨hn, hd, hnone⟩]

theorem meets_create (hfile : s.files.node (d ++ [n]) ≠ some .dir)
    (h : ∀ fd, 0 ≤ fd → s.fds fd = none → Q fd ((s.withFiles (s.files.add d n (.file []))).setFd fd (some (d ++ [n], 0)))) :
    (op (.open (some path) (O_CREATE ||| O_RDWR))).Meets calls Q s := by
  have hmove : ∀ r t, calls ℤ (.open (some path) (O_CREATE ||| O_RDWR)) s r t ↔
      0 ≤ r ∧ s.fds r = none ∧ t = (s.withFiles (s.files.add d n (.file []))).setFd r (some (d ++ [n], 0)) := by
    intro r t
    delta calls
    simp only [OpenNew, hp]
    rw [if_neg (by decide), if_pos ⟨hn, hd, hfile⟩]
  refine meets_op.mpr ⟨?_, fun r t hm => ?_⟩
  · obtain ⟨fd, hpos, hfd⟩ := exists_fresh s
    exact ⟨fd, _, (hmove _ _).mpr ⟨hpos, hfd, rfl⟩⟩
  · obtain ⟨hpos, hfd, rfl⟩ := (hmove r t).mp hm
    exact h r hpos hfd

end

theorem meets_read {Q : ℤ × Str → Sys → Prop} (hfd : s.fds fd = some (p, off))
    (hp : s.files.node p = some (.file data))
    (h : Q ((((data.drop off).take k).length : ℤ), (data.drop off).take k) (s.setFd fd (some (p, off + ((data.drop off).take k).length)))) :
    (op (.read fd k)).Meets calls Q s := by
  refine (meets_op_of fun r t => ?_).mpr h
  delta calls
  simp only [hfd, hp]

theorem meets_write {bs : Str} (hfd : s.fds fd = some (p, off)) (hp : s.files.node p = some (.file data))
    (h : Q bs.length ((s.withFiles (s.files.store p (overlay data off bs))).setFd fd (some (p, off + bs.length)))) :
    (op (.write fd bs)).Meets calls Q s := by
  refine (meets_op_of fun r t => ?_).mpr h
  delta calls
  simp only [hfd, hp]

theorem meets_isFileExist {Q : Bool → Sys → Prop} (h : Q (resolve s.files s.cwd path).isSome s) :
    (isFileExist path).Meets calls Q s := by
  unfold isFileExist
  rw [meets_bind]
  cases hp : resolve s.files s.cwd path with
  | none =>
    rw [hp] at h
    refine meets_open_none hp ?_
    rw [if_pos rfl]
    exact h
  | some p =>
    rw [hp] at h
    refine meets_open hp fun fd hpos hfd => ?_
    rw [if_neg (by omega), meets_bind]
    refine meets_close fun r => ?_
    rw [setFd_setFd_none _ hfd]
    exact h

def isDirAt (s : Sys) (path : Str) : Bool := (resolve s.files s.cwd path).any fun p => s.files.node p = some .dir

theorem meets_isDir {Q : Bool → Sys → Prop} (h : Q (isDirAt s path) s) : (isDir path).Meets calls Q s := by
  unfold isDir
  rw [meets_bind]
  refine meets_isFileExist ?_
  unfold isDirAt at h
  cases hp : resolve s.files s.cwd path with
  | none =>
    rw [hp] at h
    exact h
  | some p =>
    rw [hp] at h
    rw [Option.isSome_some, if_pos rfl, meets_bind]
    refine meets_open hp fun fd hpos hfd => ?_
    rw [if_neg (by omega), meets_bind]
    refine meets_isDir_call (fds_setFd_self _) ?_
    rw [meets_bind]
    refine meets_close fun r => ?_
    rw [setFd_setFd_none _ hfd, files_setFd]
    by_cases hd : s.files.node p = some .dir
    · rw [if_pos hd]
      simpa [hd] using h
    · rw [if_neg hd]
      simpa [hd] using h

/-! ### Listings -/

/-- The listing of a directory fits into the buffer of `ls_dir`, and no name has a blank. -/
def Small (f : Files) (p : List Str) : Prop := ∀ ns, Lists f p ns → (listing ns).length ≤ 1024 ∧ ∀ n ∈ ns, (32 : UInt8) ∉ n

theorem lists_of_entries (hnd : ns.Nodup) (h : ∀ n, n ∈ ns ↔ f.node (p ++ [n]) ≠ none) :
    Lists f p (dot :: dotdot :: ns) := by
  have hdots : ∀ n ∈ ns, n ≠ dot ∧ n ≠ dotdot := fun n hn => (f.name p n ((h n).mp hn)).2.2.2
  refine ⟨?_, fun n => by rw [mem_cons, mem_cons, h]⟩
  have hdot : dot ∉ dotdot :: ns := by
    intro hm
    rcases mem_cons.mp hm with he | hm
    · exact absurd he (by decide)
    · exact (hdots dot hm).1 rfl
  exact nodup_cons.mpr ⟨hdot, nodup_cons.mpr ⟨fun hm => (hdots dotdot hm).2 rfl, hnd⟩⟩

theorem exists_lists (f : Files) (p : List Str) : ∃ ns, Lists f p ns := by
  obtain ⟨ns, hnd, hmem⟩ := f.exists_entries p
  exact ⟨_, lists_of_entries hnd hmem⟩

theorem Lists.no_zero (h : Lists f p ns) (hn : n ∈ ns) : (0 : UInt8) ∉ n := by
  rcases (h.mem n).mp hn with rfl | rfl | hex
  · decide
  · decide
  · exact (f.name p n hex).2.2.1

theorem Lists.perm {ms : List Str} (h : Lists f p ns) (h' : Lists f p ms) : ns.Perm ms :=
  (perm_ext_iff_of_nodup h.nodup h'.nodup).mpr fun n => by rw [h.mem, h'.mem]

/-- `ls_dir` makes blanks `0`. -/
def unblank (text : Str) : Str := text.map fun b => if b = 32 then 0 else b

theorem length_listing_cons (n : Str) (ns : List Str) : (listing (n :: ns)).length = n.length + 1 + (listing ns).length := by
  cases ns with
  | nil => simp [listing]
  | cons m ns =>
    simp [listing]
    omega

theorem length_listing (ns : List Str) : (listing ns).length = (ns.map fun n => n.length + 1).sum := by
  induction ns with
  | nil => rfl
  | cons n ns ih => rw [length_listing_cons, ih, map_cons, sum_cons]

theorem Lists.small (h : Lists f p ns) (hlen : (listing ns).length ≤ 1024) (hb : ∀ n ∈ ns, (32 : UInt8) ∉ n) :
    Small f p := by
  intro ms hms
  have hperm := h.perm hms
  refine ⟨?_, fun n hn => hb n (hperm.mem_iff.mpr hn)⟩
  rwa [length_listing, ← (hperm.map _).sum_eq, ← length_listing]

theorem unblank_listing_cons (hb : (32 : UInt8) ∉ n) : unblank (listing (n :: ns)) = n ++ 0 :: unblank (listing ns) := by
  have hn : unblank n = n := by
    refine (map_congr_left fun b hbn => ?_).trans (map_id n)
    have hne : b ≠ 32 := fun e => hb (e ▸ hbn)
    exact if_neg hne
  have happ : ∀ x y : Str, unblank (x ++ y) = unblank x ++ unblank y := fun x y => map_append
  cases ns with
  | nil =>
    show unblank (n ++ [0]) = _
    rw [happ, hn]
    rfl
  | cons m ns =>
    show unblank (n ++ 32 :: listing (m :: ns)) = _
    rw [happ, hn]
    rfl

theorem names_listing (h0 : ∀ n ∈ ns, (0 : UInt8) ∉ n) (hb : ∀ n ∈ ns, (32 : UInt8) ∉ n) (rest : Str)
    (hk : (listing ns).length ≤ k) : names k (listing ns).length (unblank (listing ns) ++ rest) = ns := by
  induction ns generalizing k with
  | nil =>
    cases k with
    | zero => rfl
    | succ k => rfl
  | cons n ns ih =>
    rw [length_listing_cons] at hk ⊢
    obtain ⟨k, rfl⟩ : ∃ j, k = j + 1 := ⟨k - 1, by omega⟩
    have hbuf : unblank (listing (n :: ns)) ++ rest = n ++ 0 :: (unblank (listing ns) ++ rest) := by
      rw [unblank_listing_cons (hb n (by simp)), append_assoc, cons_append]
    have hstr : cString (n ++ 0 :: (unblank (listing ns) ++ rest)) = n := by
      rw [cString_append_zero, cString_eq_self (h0 n (by simp))]
    have hdrop : (n ++ 0 :: (unblank (listing ns) ++ rest)).drop (n.length + 1) = unblank (listing ns) ++ rest := by
      rw [← drop_drop, drop_left]
      rfl
    have hlen : n.length + 1 + (listing ns).length - (n.length + 1) = (listing ns).length := by omega
    rw [hbuf, names, if_neg (by omega), hstr, hdrop, hlen,
      ih (fun m hm => h0 m (by simp [hm])) (fun m hm => hb m (by simp [hm])) (by omega)]

theorem meets_ls {Q : ℤ × Str → Sys → Prop} (hs : Small s.files s.cwd)
    (h : ∀ ns, Lists s.files s.cwd ns → ∀ rest, Q ((listing ns).length, listing ns ++ rest) s) : (op (.ls 1024)).Meets calls Q s := by
  refine meets_op.mpr ⟨?_, ?_⟩
  · obtain ⟨ns, hns⟩ := exists_lists s.files s.cwd
    exact ⟨_, s, rfl, ns, [], hns, rfl⟩
  · rintro r t ⟨rfl, ns, rest, hns, rfl⟩
    obtain ⟨hlen, -⟩ := hs ns hns
    rw [Nat.min_eq_left hlen, take_of_length_le hlen]
    exact h ns hns rest

theorem names_of_lists (hs : Small f p) (hns : Lists f p ns) (rest : Str) :
    let r : ℤ × Str := ((listing ns).length, listing ns ++ rest)
    names r.1.toNat r.1.toNat ((r.2.take r.1.toNat).map (fun b => if b = 32 then 0 else b) ++ r.2.drop r.1.toNat) = ns := by
  dsimp only
  rw [Int.toNat_natCast, take_left, drop_left]
  exact names_listing (fun n hn => hns.no_zero hn) (hs ns hns).2 rest le_rfl

theorem exists_spelling (h : s.files.node s.cwd ≠ none) : ∃ b : Str, b.head? = some 47 ∧ comps b = s.cwd := by
  have hok : ∀ n ∈ s.cwd, IsName n := s.files.ok_of_mem (p := []) h
  have hcomps : ∀ q : List Str, (∀ n ∈ q, IsName n) → comps (q.flatMap fun n => n ++ [47]) = q := by
    intro q hq
    induction q with
    | nil => exact wordsBy_nil
    | cons n q ih =>
      rw [flatMap_cons, append_assoc, singleton_append]
      show wordsBy _ (n ++ 47 :: _) = _
      rw [wordsBy_append_cons _ _ (by decide)]
      show comps n ++ comps _ = _
      rw [comps_of_name (hq n (by simp)), ih fun m hm => hq m (by simp [hm])]
      rfl
  refine ⟨47 :: s.cwd.flatMap fun n => n ++ [47], rfl, ?_⟩
  show wordsBy _ (47 :: _) = _
  rw [wordsBy_cons_sep (by decide)]
  exact hcomps s.cwd hok

theorem meets_lsDir_some {Q : List Str → Sys → Prop} {u : List Str} (hcwd : s.files.node s.cwd = some .dir)
    (hu : resolve s.files s.cwd path = some u) (hd : s.files.node u = some .dir) (hs : Small s.files u)
    (h : ∀ ns, Lists s.files u ns → Q ns s) : (lsDir (some path)).Meets calls Q s := by
  have hex : s.files.node s.cwd ≠ none := by
    rw [hcwd]
    exact Option.some_ne_none _
  unfold lsDir
  rw [meets_bind, meets_bind]
  refine meets_op.mpr ⟨?_, ?_⟩
  · obtain ⟨b, hb⟩ := exists_spelling hex
    exact ⟨b, s, rfl, hb⟩
  rintro b t ⟨rfl, hhead, hcomps⟩
  rw [meets_bind]
  refine meets_chdir hu hd ?_
  rw [meets_bind]
  refine meets_ls hs fun ns hns rest => ?_
  rw [meets_bind]
  have hback : resolve t.files u b = some t.cwd := by
    rw [resolve, startOf, if_pos hhead, hcomps]
    exact walk_names hex
  refine meets_chdir hback hcwd ?_
  rw [meets_pure, meets_pure, names_of_lists hs hns]
  exact h ns hns

theorem meets_lsDir_none {Q : List Str → Sys → Prop} (hs : Small s.files s.cwd) (h : ∀ ns, Lists s.files s.cwd ns → Q ns s) :
    (lsDir none).Meets calls Q s := by
  unfold lsDir
  rw [meets_bind]
  refine meets_ls hs fun ns hns rest => ?_
  rw [meets_pure, names_of_lists hs hns]
  exact h ns hns

end

/-! ### Trees that can be walked through -/

/-- The directories from `u` on can be listed. -/
def Fits (f : Files) (u : List Str) : Prop := ∀ q, f.node (u ++ q) = some .dir → Small f (u ++ q)

/-- There is something at `u`, it is not too deep for the recursion, and its directories can be listed. -/
structure Walkable (f : Files) (u : List Str) (fuel : ℕ) : Prop where
  ex : f.node u ≠ none
  deep : ∀ q, f.node (u ++ q) ≠ none → q.length < fuel
  fits : Fits f u

section

variable {f g : Files} {u : List Str} {fuel : ℕ} {n : Str}

theorem Walkable.congr (h : Walkable f u fuel) (hfg : ∀ q, f.node (u ++ q) = g.node (u ++ q)) : Walkable g u fuel where
  ex := by
    have := hfg []
    rw [append_nil] at this
    exact this ▸ h.ex
  deep q hq := h.deep q (by rwa [hfg])
  fits q hq := by
    intro ns hns
    refine h.fits q (by rwa [hfg]) ns ⟨hns.nodup, fun n => ?_⟩
    rw [hns.mem, append_assoc, hfg]

theorem Walkable.entry (h : Walkable f u (fuel + 1)) (hn : f.node (u ++ [n]) ≠ none) : Walkable f (u ++ [n]) fuel where
  ex := hn
  deep q hq := by
    rw [append_assoc] at hq
    exact Nat.lt_of_succ_lt_succ (h.deep _ hq)
  fits q hq := by
    rw [append_assoc] at hq ⊢
    exact h.fits _ hq

end

end MCertiKOS.Shell.Calls
