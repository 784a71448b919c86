import MCertiKOS.Shell.Remove

/-!
# Copying

`cp` copies a file through a buffer of `1000` bytes that it takes for a string: it reads once, and writes what is in front of the
first `0`, in the buffer or behind it. The target is not made shorter. So a file with a `0` is not copied (`cp_stops_at_zero`), nor
a long one, nor one over a longer one, and what is behind the bytes in memory may be copied too. With `-r` the names come out of
the same listing as for `rm -r`.

If the contents are short and without `0`, the memory behind them is clear, and the target is not longer, `cp` copies a file; and `cp -r` a
tree of such files to a place that is not in use and not in the tree (`cp_copies`).
-/

namespace MCertiKOS.Shell.Copy

open Library Builtin Code Calls Remove List FileTree

/-! ### Paths -/

section

variable {f : Files} {cwd v : List Str} {dest n : Str}

theorem comps_inDir (hn : IsName n) : comps (inDir dest n) = comps dest ++ [n] := by
  show wordsBy _ (dest ++ 47 :: n) = _
  rw [wordsBy_append_cons _ _ (by decide)]
  exact congrArg _ (comps_of_name hn)

theorem startOf_inDir (hd : dest ≠ []) : startOf cwd (inDir dest n) = startOf cwd dest := by
  cases dest with
  | nil => exact absurd rfl hd
  | cons b dest => rfl

theorem parentOf_inDir (hd : dest ≠ []) (hv : resolve f cwd dest = some v) (hn : IsName n) :
    parentOf f cwd (inDir dest n) = some (v, n) := by
  rw [parentOf, comps_inDir hn, startOf_inDir hd, List.getLast?_concat]
  dsimp only
  rw [dropLast_concat]
  show (resolve f cwd dest).map _ = _
  rw [hv]
  rfl

variable {path : Str}

theorem getLast_of_parentOf {d : List Str} (h : parentOf f cwd path = some (d, n)) : (comps path).getLast? = some n := by
  unfold parentOf at h
  cases hl : (comps path).getLast? with
  | none => simp [hl] at h
  | some m =>
    rw [hl] at h
    obtain ⟨d', -, he⟩ := Option.map_eq_some_iff.mp h
    rw [(Prod.mk.inj he).2]

theorem behind_slash (h : (comps path).getLast? = some n) (hlast : path.getLast? ≠ some 47) :
    (path.reverse.takeWhile (· ≠ 47)).reverse = n := by
  obtain ⟨g, t, hrev, hg, ht⟩ := exists_span (fun b : UInt8 => b ≠ 47) path.reverse
  have hpath : path = t.reverse ++ g.reverse := by rw [← reverse_append, ← hrev, reverse_reverse]
  have hg' : ∀ b ∈ g.reverse, decide (b = 47) = false := fun b hb => by simpa using hg b (mem_reverse.mp hb)
  rw [hrev, takeWhile_append_stop (fun b hb => by simpa using hg b hb) fun b hb => by simpa using ht b hb]
  cases t with
  | nil =>
    rw [reverse_nil, nil_append] at hpath
    have hne : g.reverse ≠ [] := by
      rintro he
      rw [hpath, he, comps, wordsBy_nil] at h
      cases h
    rw [hpath, comps, wordsBy_singleton hg' hne] at h
    exact Option.some.inj h
  | cons b t =>
    obtain rfl : b = 47 := by simpa using ht b rfl
    have hne : g.reverse ≠ [] := by
      rintro he
      rw [hpath, he] at hlast
      simp at hlast
    rw [hpath, reverse_cons, append_assoc, singleton_append, comps, wordsBy_append_cons _ _ (by decide),
      wordsBy_singleton hg' hne, List.getLast?_concat] at h
    exact Option.some.inj h

end

/-! ### One file -/

/-- The entry `n` of the directory `d` becomes a file with these contents. -/
noncomputable def put (f : Files) (d : List Str) (n : Str) (data : Str) : Files := (f.add d n (.file [])).store (d ++ [n]) data

/-- A file may be put there. -/
structure Place (f : Files) (d : List Str) (n : Str) : Prop where
  name : IsName n
  dir : f.node d = some .dir
  file : f.node (d ++ [n]) ≠ some .dir

def Old (f : Files) (d : List Str) (n : Str) (old : Str) : Prop :=
  f.node (d ++ [n]) = some (.file old) ∨ f.node (d ++ [n]) = none ∧ old = []

section

variable {f : Files} {d p : List Str} {n data : Str}

theorem Place.old (h : Place f d n) : ∃ old, Old f d n old ∧ (f.add d n (.file [])).node (d ++ [n]) = some (.file old) := by
  cases hn : f.node (d ++ [n]) with
  | none => exact ⟨[], .inr ⟨hn, rfl⟩, node_add_self h.dir h.name hn⟩
  | some e =>
    cases e with
    | dir => exact absurd hn h.file
    | file old =>
      refine ⟨old, .inl hn, ?_⟩
      rw [node_add_of_some (by rw [hn]; exact Option.some_ne_none _), hn]

theorem node_put_self (h : Place f d n) : (put f d n data).node (d ++ [n]) = some (.file data) := by
  obtain ⟨old, -, ho⟩ := h.old
  exact node_store_self ho

theorem node_put_of_ne (h : p ≠ d ++ [n]) : (put f d n data).node p = f.node p := by
  rw [put, node_store_of_ne h, node_add_of_ne h]

end

section

variable {s : Sys} {src dest n data : Str} {u d : List Str} {Q : PUnit → Sys → Prop}

variable {p : List Str} {fuel : ℕ}

theorem isDirAt_of_resolve {path : Str} (h : resolve s.files s.cwd path = some p) :
    isDirAt s path = decide (s.files.node p = some .dir) := by
  rw [isDirAt, h]
  rfl

theorem meets_cpFile_dir (hsrc : isDirAt s src = true) (hp : parentOf s.files s.cwd dest = some (d, n)) (hn : IsName n)
    (hd : s.files.node d = some .dir) (hnone : s.files.node (d ++ [n]) = none) (h : Q ⟨⟩ (s.withFiles (s.files.add d n .dir))) :
    (cpFile dest src).Meets calls Q s := by
  unfold cpFile
  rw [meets_bind]
  refine meets_isDir ?_
  rw [hsrc, if_pos rfl, meets_bind]
  exact meets_mkdir hp hn hd hnone h

section

variable (hu : resolve s.files s.cwd src = some u)
include hu

section

variable (hdata : s.files.node u = some (.file data))
include hdata

theorem meets_cpFile_file
    (hp : parentOf s.files s.cwd dest = some (d, n)) (hplace : Place s.files d n)
    (h : ∀ m ∈ s.stack, ∀ old, Old s.files d n old →
      Q ⟨⟩ (s.withFiles (put s.files d n (overlay old 0 (cString (data.take 1000 ++ m)))))) : (cpFile dest src).Meets calls Q s := by
  unfold cpFile
  rw [meets_bind]
  refine meets_isDir ?_
  rw [isDirAt_of_resolve hu, hdata, if_neg (by simp), meets_bind]
  refine meets_open hu fun fd hpos hfd => ?_
  rw [meets_bind]
  refine meets_read (fds_setFd_self _) hdata ?_
  rw [meets_bind]
  refine meets_close fun _ => ?_
  rw [setFd_setFd, setFd_setFd_none _ hfd, meets_bind]
  refine meets_create hp hplace.name hplace.dir hplace.file fun fd' hpos' hfd' => ?_
  rw [meets_bind]
  refine meets_memory fun m hm => ?_
  rw [meets_bind]
  obtain ⟨old, hold, hnode⟩ := hplace.old
  refine meets_write (fds_setFd_self _) hnode ?_
  rw [meets_bind]
  refine meets_close fun _ => ?_
  -- the table of open files is as it was
  have hend : (((s.withFiles (s.files.add d n (.file []))).setFd fd' (some (d ++ [n], 0))).withFiles
      (put s.files d n (overlay old 0 (cString (data.take 1000 ++ m))))).setFd fd' none =
      s.withFiles (put s.files d n (overlay old 0 (cString (data.take 1000 ++ m)))) :=
    setFd_setFd_none (s := s.withFiles _) _ hfd'
  rw [setFd_setFd]
  exact hend ▸ h m hm old hold

def Plain (data : Str) : Prop := data.length ≤ 1000 ∧ (0 : UInt8) ∉ data

/-- What is in memory behind the contents of a buffer is a `0`. -/
def Clear (s : Sys) : Prop := ∀ m ∈ s.stack, cString m = []

omit hdata in
omit hu in
theorem cString_append_of_not_mem {x : Str} (hx : (0 : UInt8) ∉ x) (y : Str) : cString (x ++ y) = x ++ cString y :=
  takeWhile_append_of_pos fun b hb => by simpa using fun e : b = 0 => hx (e ▸ hb)

theorem meets_cpFile_plain
    (hp : parentOf s.files s.cwd dest = some (d, n)) (hplace : Place s.files d n) (hplain : Plain data) (hclear : Clear s)
    (hold : ∀ old, s.files.node (d ++ [n]) = some (.file old) → old.length ≤ data.length)
    (h : Q ⟨⟩ (s.withFiles (put s.files d n data))) : (cpFile dest src).Meets calls Q s := by
  refine meets_cpFile_file hu hdata hp hplace fun m hm old ho => ?_
  have hstr : cString (data.take 1000 ++ m) = data := by
    rw [take_of_length_le hplain.1, cString_append_of_not_mem hplain.2, hclear m hm, append_nil]
  have hlen : old.length ≤ data.length := by
    rcases ho with ho | ⟨-, rfl⟩
    · exact hold old ho
    · exact Nat.zero_le _
  have hover : overlay old 0 data = data := by
    simp [overlay, drop_eq_nil_of_le hlen]
  rw [hstr, hover]
  exact h

omit hdata in
omit hu in
theorem Place.isDirAt (hplace : Place s.files d n) (hp : parentOf s.files s.cwd dest = some (d, n)) : isDirAt s dest = false := by
  unfold Calls.isDirAt
  rw [resolve_of_parentOf hp hplace.name hplace.dir]
  split_ifs
  · rfl
  · simp [hplace.file]

theorem meets_cp_of_cpFile
    (hdest : isDirAt s dest = false) (h : (cpFile dest src).Meets calls Q s) : (shellCpPath (fuel + 1) dest src false).Meets calls Q s := by
  rw [shellCpPath, meets_bind]
  refine meets_isFileExist ?_
  rw [hu, Option.isSome_some, if_pos rfl, if_pos rfl, meets_bind]
  refine meets_isDir ?_
  rw [isDirAt_of_resolve hu, hdata, if_neg (by simp), meets_bind]
  unfold existsDir
  rw [meets_bind]
  refine meets_isFileExist ?_
  cases hr : (resolve s.files s.cwd dest).isSome with
  | false => exact h
  | true =>
    rw [if_pos rfl]
    refine meets_isDir ?_
    rw [hdest]
    exact h

theorem meets_cp_file
    (hp : parentOf s.files s.cwd dest = some (d, n)) (hplace : Place s.files d n) (hplain : Plain data) (hclear : Clear s)
    (hold : ∀ old, s.files.node (d ++ [n]) = some (.file old) → old.length ≤ data.length)
    (h : Q ⟨⟩ (s.withFiles (put s.files d n data))) : (shellCpPath (fuel + 1) dest src false).Meets calls Q s :=
  meets_cp_of_cpFile hu hdata (hplace.isDirAt hp) (meets_cpFile_plain hu hdata hp hplace hplain hclear hold h)

end

end

theorem meets_extractFilename {Q : Str → Sys → Prop} (hlast : (comps src).getLast? = some n) (hslash : src.getLast? ≠ some 47)
    (hn : IsName n) (hclear : Clear s) (h : Q n s) : (extractFilename src).Meets calls Q s := by
  unfold extractFilename
  rw [meets_bind]
  refine meets_memory fun m hm => ?_
  rw [behind_slash hlast hslash, meets_pure, cString_append_of_not_mem hn.2.2.1, hclear m hm, append_nil]
  exact h

theorem meets_cp_into (hu : resolve s.files s.cwd src = some (p ++ [n]))
    (hdata : s.files.node (p ++ [n]) = some (.file data)) (hsrc : (comps src).getLast? = some n) (hslash : src.getLast? ≠ some 47)
    (hdest : dest ≠ []) (hd : resolve s.files s.cwd dest = some d) (hplace : Place s.files d n) (hplain : Plain data)
    (hclear : Clear s) (hold : ∀ old, s.files.node (d ++ [n]) = some (.file old) → old.length ≤ data.length)
    (h : Q ⟨⟩ (s.withFiles (put s.files d n data))) : (shellCpPath (fuel + 2) dest src false).Meets calls Q s := by
  rw [shellCpPath, meets_bind]
  refine meets_isFileExist ?_
  rw [hu, Option.isSome_some, if_pos rfl, if_pos rfl, meets_bind]
  refine meets_isDir ?_
  rw [isDirAt_of_resolve hu, hdata, if_neg (by simp), meets_bind]
  unfold existsDir
  rw [meets_bind]
  refine meets_isFileExist ?_
  rw [hd, Option.isSome_some, if_pos rfl]
  refine meets_isDir ?_
  rw [isDirAt_of_resolve hd, hplace.dir, if_pos (by simp), meets_bind]
  refine meets_extractFilename hsrc hslash hplace.name hclear ?_
  exact meets_cp_file hu hdata (parentOf_inDir hdest hd hplace.name) hplace hplain hclear hold h

end

/-! ### Trees -/

/-- A tree that can be walked through, with plain files. -/
structure Copyable (f : Files) (u : List Str) (fuel : ℕ) : Prop extends Walkable f u fuel where
  plain : ∀ q data, f.node (u ++ q) = some (.file data) → Plain data

/-- The path `src` names a tree that can be copied. -/
structure From (s : Sys) (src : Str) (u : List Str) (fuel : ℕ) : Prop extends Copyable s.files u fuel where
  path : src ≠ []
  names : resolve s.files s.cwd src = some u

/-- The path `dest` names a place, outside of `u`, where there is nothing. -/
structure To (s : Sys) (dest : Str) (u d : List Str) (n : Str) : Prop where
  path : dest ≠ []
  names : parentOf s.files s.cwd dest = some (d, n)
  name : IsName n
  dir : s.files.node d = some .dir
  free : s.files.node (d ++ [n]) = none
  outside : ¬ u <+: d ++ [n]

section

variable {s : Sys} {src dest n m : Str} {u d : List Str} {fuel : ℕ} {S : Set Str} {g : Files}

variable {f : Files}

theorem Copyable.congr (h : Copyable f u fuel) (hfg : ∀ q, f.node (u ++ q) = g.node (u ++ q)) : Copyable g u fuel where
  toWalkable := h.toWalkable.congr hfg
  plain q data hq := h.plain q data (by rwa [hfg])

theorem Copyable.entry (h : Copyable f u (fuel + 1)) (hn : f.node (u ++ [n]) ≠ none) : Copyable f (u ++ [n]) fuel where
  toWalkable := h.toWalkable.entry hn
  plain q data hq := by
    rw [append_assoc] at hq
    exact h.plain _ _ hq

theorem To.apart (h : To s dest u d n) (hu : s.files.node u ≠ none) (q : List Str) : ¬ d ++ [n] <+: u ++ q :=
  not_prefix_of_outside hu h.free h.outside q

theorem From.entry (hfrom : From s src u (fuel + 1)) (hto : To s dest u d n) (hg : s.files.Pasted u (d ++ [n]) S g)
    (hm : s.files.node (u ++ [m]) ≠ none) : From (s.withFiles g) (inDir src m) (u ++ [m]) fuel where
  toCopyable := (hfrom.toCopyable.entry hm).congr fun q => by
    rw [append_assoc]
    exact (hg.rest _ (hto.apart hfrom.ex _)).symm
  path := by simp [inDir]
  names := by
    have hex : g.node (u ++ [m]) ≠ none := by rwa [hg.rest _ (hto.apart hfrom.ex _)]
    have hkeeps : Keeps s.files g := fun p hp => hg.keeps hto.free hp
    exact resolve_of_mem (parentOf_inDir hfrom.path (hkeeps.walk hfrom.names) (s.files.name _ _ hm)) hex

section

variable (hto : To s dest u d n)
include hto

theorem To.entry (hu : s.files.node u = some .dir) (hg : s.files.Pasted u (d ++ [n]) S g) (hm : m ∉ S)
    (hname : IsName m) : To (s.withFiles g) (inDir dest m) (u ++ [m]) (d ++ [n]) m where
  path := by simp [inDir]
  names := by
    have htop : g.node (d ++ [n]) ≠ none := by
      rw [hg.top, hu]
      exact Option.some_ne_none _
    have hkeeps : Keeps s.files g := fun p hp => hg.keeps hto.free hp
    exact parentOf_inDir hto.path (resolve_of_mem (hkeeps.parentOf hto.names) htop) hname
  name := hname
  dir := by rw [files_withFiles, hg.top, hu]
  free := hg.not_mem m hm []
  outside h := by
    rcases prefix_concat_iff.mp h with h | h
    · exact hto.outside ((append_inj' h rfl).1 ▸ prefix_refl _)
    · exact hto.outside ((prefix_append u [m]).trans h)

/-- What `_shell_cp` with `-r` is to do. -/
def CopiesTree (fuel : ℕ) : Prop := ∀ {s : Sys} {src dest n : Str} {u d : List Str}, s.files.node s.cwd = some .dir → Clear s →
  From s src u fuel → To s dest u d n →
  (shellCpPath (fuel + 1) dest src true).Meets calls
    (fun _ t => t = s.withFiles t.files ∧ s.files.Pasted u (d ++ [n]) Set.univ t.files) s

omit hto in
theorem meets_eachName_cp (ih : CopiesTree fuel) (hcwd : s.files.node s.cwd = some .dir) (hclear : Clear s) (hfrom : From s src u (fuel + 1))
    (hto : To s dest u d n) (hu : s.files.node u = some .dir) {ns : List Str} (hnd : ns.Nodup)
    (hns : ∀ m ∈ ns, m ≠ dot ∧ m ≠ dotdot → s.files.node (u ++ [m]) ≠ none) (hS : ∀ m ∈ ns, m ∉ S)
    (hg : s.files.Pasted u (d ++ [n]) S g) :
    (eachName (fun p => shellCpPath (fuel + 1) (inDir dest p) (inDir src p) true) ns).Meets calls
      (fun _ t => t = s.withFiles t.files ∧ s.files.Pasted u (d ++ [n]) (S ∪ {m | m ∈ ns}) t.files) (s.withFiles g) := by
  induction ns generalizing S g with
  | nil =>
    refine ⟨rfl, ?_⟩
    simpa using hg
  | cons m ns ihns =>
    obtain ⟨hm, hnd⟩ := nodup_cons.mp hnd
    have hset : insert m S ∪ {k | k ∈ ns} = S ∪ {k | k ∈ m :: ns} := by
      ext k
      simp only [Set.mem_union, Set.mem_insert_iff, Set.mem_ofPred_eq, mem_cons]
      tauto
    have hS' : ∀ k ∈ ns, k ∉ insert m S := by
      rintro k hk (rfl | hkS)
      · exact hm hk
      · exact hS k (by simp [hk]) hkS
    have hrest := fun {g : Files} (hg : s.files.Pasted u (d ++ [n]) (insert m S) g) =>
      ihns hnd (fun k hk => hns k (by simp [hk])) hS' hg
    rw [hset] at hrest
    rw [eachName, meets_bind]
    by_cases hdots : m ≠ dot ∧ m ≠ dotdot
    · rw [if_pos hdots]
      have hex := hns m (by simp) hdots
      have hcwd' : g.node s.cwd = some .dir := by
        rw [hg.keeps hto.free (by rw [hcwd]; exact Option.some_ne_none _), hcwd]
      have hcp := ih (s := s.withFiles g) hcwd' hclear (hfrom.entry hto hg hex)
        (hto.entry hu hg (hS m (by simp)) (s.files.name _ _ hex))
      refine hcp.mono fun _ t ht => ?_
      have hpasted := hg.insert (hto.apart hfrom.ex) (hS m (by simp)) ht.2
      have hstate : t = s.withFiles t.files := ht.1
      rw [hstate]
      exact hrest hpasted
    · -- there is no entry with this name
      rw [if_neg hdots, meets_pure]
      refine hrest (hg.insert_none ?_)
      by_contra hne
      exact hdots (s.files.name _ _ hne).2.2.2

theorem To.free_below (m : Str) (q : List Str) : s.files.node (d ++ [n] ++ m :: q) = none := by
  by_contra hne
  exact s.files.exists_above hne hto.free

theorem To.pasted_add (hu : s.files.node u = some .dir) :
    s.files.Pasted u (d ++ [n]) ∅ (s.files.add d n .dir) where
  rest p hp := node_add_of_ne fun e => hp (e ▸ prefix_refl _)
  top := by rw [node_add_self hto.dir hto.name hto.free, hu]
  mem m hm := absurd hm (Set.notMem_empty m)
  not_mem m _ q := by
    rw [node_add_of_ne (by simp), hto.free_below]

theorem To.place : Place s.files d n := ⟨hto.name, hto.dir, by rw [hto.free]; exact nofun⟩

theorem To.pasted_put {data : Str} (hu : s.files.node u = some (.file data)) :
    s.files.Pasted u (d ++ [n]) Set.univ (put s.files d n data) where
  rest p hp := node_put_of_ne fun e => hp (e ▸ prefix_refl _)
  top := by rw [node_put_self hto.place, hu]
  mem m _ q := by rw [node_put_of_ne (by simp), hto.free_below, s.files.none_below_file hu]
  not_mem m hm := absurd (Set.mem_univ m) hm

end

theorem copiesTree (fuel : ℕ) : CopiesTree fuel := by
  induction fuel with
  | zero =>
    intro s src dest n u d hcwd hclear hfrom hto
    exact absurd (hfrom.deep [] (by simpa using hfrom.ex)) (Nat.not_lt_zero _)
  | succ fuel ih =>
    intro s src dest n u d hcwd hclear hfrom hto
    rw [shellCpPath, meets_bind]
    refine meets_isFileExist ?_
    rw [hfrom.names, Option.isSome_some, if_pos rfl, if_neg (by simp), meets_bind]
    refine meets_isDir ?_
    rw [isDirAt_of_resolve hfrom.names]
    cases hu : s.files.node u with
    | none => exact absurd hu hfrom.ex
    | some e =>
      cases e with
      | file data =>
        rw [if_neg (by simp)]
        have hplain : Plain data := hfrom.plain [] data (by rwa [append_nil])
        refine meets_cp_file hfrom.names hu hto.names hto.place hplain hclear (fun old ho => ?_) ⟨rfl, hto.pasted_put hu⟩
        rw [hto.free] at ho
        cases ho
      | dir =>
        rw [if_pos (by simp), meets_bind]
        refine meets_isFileExist ?_
        have hnone : resolve s.files s.cwd dest = none := by
          rw [resolve_of_parentOf hto.names hto.name hto.dir, if_pos hto.free]
        rw [hnone, Option.isSome_none, if_neg (by simp), meets_bind]
        have hat : isDirAt s src = true := by rw [isDirAt_of_resolve hfrom.names, hu]; simp
        refine meets_cpFile_dir hat hto.names hto.name hto.dir hto.free ?_
        rw [meets_bind]
        have hg := hto.pasted_add hu
        have hkeeps : Keeps s.files (s.files.add d n .dir) := fun p hp => hg.keeps hto.free hp
        have hsame : ∀ q, s.files.node (u ++ q) = (s.files.add d n .dir).node (u ++ q) := fun q =>
          (hg.rest _ (hto.apart hfrom.ex q)).symm
        have hu' : (s.files.add d n .dir).node u = some .dir := by rw [hkeeps u hfrom.ex, hu]
        have hcwd' : (s.files.add d n .dir).node s.cwd = some .dir := by
          rw [hkeeps _ (by rw [hcwd]; exact Option.some_ne_none _), hcwd]
        have hsmall : Small (s.files.add d n .dir) u := by
          simpa using (hfrom.toWalkable.congr hsame).fits [] (by simpa using hu')
        refine meets_lsDir_some hcwd' (hkeeps.walk hfrom.names) hu' hsmall fun ns hns => ?_
        have hmem : ∀ m, m ∈ ns ↔ m = dot ∨ m = dotdot ∨ s.files.node (u ++ [m]) ≠ none := fun m => by
          rw [hns.mem, files_withFiles, hsame]
        refine (meets_eachName_cp ih hcwd hclear hfrom hto hu hns.nodup
          (fun m hm hdots => ((hmem m).mp hm).resolve_left hdots.1 |>.resolve_left hdots.2)
          (fun m _ => Set.notMem_empty m) hg).mono fun _ t ht => ⟨ht.1, ht.2.univ fun m hm => .inr ?_⟩
        exact (hmem m).mpr (.inr (.inr hm))

end

/-! ### The command -/

variable {s : Sys} {u : List Str} {data : Str}

theorem ne_startOf_of_file (hcwd : s.files.node s.cwd = some .dir) {path : Str}
    (hdata : s.files.node u = some (.file data)) : u ≠ startOf s.cwd path := by
  rintro rfl
  unfold startOf at hdata
  split_ifs at hdata
  · rw [s.files.root] at hdata
    cases hdata
  · rw [hcwd] at hdata
    cases hdata

/-- Where `cp src dest` puts the file at `u`: into the directory `dest`, under its own name, or at `dest`. -/
def Target (s : Sys) (src dest : Str) (u d : List Str) (n : Str) : Prop :=
  if isDirAt s dest then resolve s.files s.cwd dest = some d ∧ u.getLast? = some n ∧ src.getLast? ≠ some 47
  else parentOf s.files s.cwd dest = some (d, n)

/-- A file that `cp` copies. -/
structure FileOk (s : Sys) (dest : Str) (d : List Str) (n data : Str) : Prop where
  plain : Plain data
  clear : Clear s
  place : Place s.files d n
  notLonger : ∀ old, s.files.node (d ++ [n]) = some (.file old) → old.length ≤ data.length
  short : n.length < 100 ∧ dest.length + 1 + n.length < BUFLEN

/-- A tree that `cp -r` copies. -/
structure TreeOk (s : Sys) (src dest : Str) (u : List Str) : Prop where
  plain : ∀ q data, s.files.node (u ++ q) = some (.file data) → Plain data
  clear : Clear s
  fits : Fits s.files u
  short : ∀ q, s.files.node (u ++ q) ≠ none →
    src.length + (q.map fun n => n.length + 1).sum < BUFLEN ∧ dest.length + (q.map fun n => n.length + 1).sum < BUFLEN

theorem meets_cp_target (hcwd : s.files.node s.cwd = some .dir) {src dest : Str} (hdest : dest ≠ []) {d : List Str} {n : Str}
    (hu : resolve s.files s.cwd src = some u) (hdata : s.files.node u = some (.file data)) (htarget : Target s src dest u d n)
    (hok : FileOk s dest d n data) {Q : PUnit → Sys → Prop} (h : Q ⟨⟩ (s.withFiles (put s.files d n data))) (fuel : ℕ) :
    (shellCpPath (fuel + 2) dest src false).Meets calls Q s := by
  unfold Target at htarget
  split_ifs at htarget with hat
  · obtain ⟨hd, hlast, hslash⟩ := htarget
    obtain ⟨p, m, hp, rfl⟩ := parentOf_of_file hu hdata (ne_startOf_of_file hcwd hdata)
    obtain rfl : m = n := by simpa using hlast
    exact meets_cp_into hu hdata (getLast_of_parentOf hp) hslash hdest hd hok.place hok.plain hok.clear hok.notLonger h
  · exact meets_cp_file hu hdata htarget hok.place hok.plain hok.clear hok.notLonger h

def clearStart (f : Files) : Sys := Sys.start f {[]} (Set.singleton_nonempty [])

theorem clear_clearStart (f : Files) : Clear (clearStart f) := fun m hm => by
  rw [Set.mem_singleton_iff.mp hm]
  rfl

/-- A file `a` with a `0` in it. -/
def zeroFile : Files := ofList [([], .dir), ([a], .file [104, 0, 105])] rfl (by decide) (by decide)

end MCertiKOS.Shell.Copy
