import Mathlib.Data.List.Infix
import Mathlib.Data.Set.Finite.Lattice
import Mathlib.Data.Set.Finite.Lemmas

/-!
# Trees of files

A tree of directories and files is a function from paths to what is there. A path is the list of the names from the root on. What a
tree has to be is in the structure: the root is a directory, what exists is in a directory, names are names, and there are finitely many
files.

`cut` removes entries of a directory, with everything below them; `add` makes a new entry, and `store` gives a file other contents. The
entries of a directory can be listed (`exists_entries`), and a tree is not deeper than some number (`exists_depth`).
-/

namespace MCertiKOS.Library

open List

/-- What is at a path. -/
inductive Entry (D : Type) where
  /-- A directory. -/
  | dir
  /-- A file. -/
  | file (data : D)
  deriving DecidableEq

/-- A tree of files, with names that are `ok`. -/
@[ext]
structure FileTree (N D : Type) (ok : N → Prop) where
  node : List N → Option (Entry D)
  root : node [] = some .dir
  parent : ∀ p n, node (p ++ [n]) ≠ none → node p = some .dir
  name : ∀ p n, node (p ++ [n]) ≠ none → ok n
  finite : {p | node p ≠ none}.Finite

namespace FileTree

variable {N D : Type} {ok : N → Prop} (f : FileTree N D ok)

variable {q d : List N} {data : D} {e : Entry D}

theorem dir_above {p : List N} {n : N} (h : f.node (p ++ n :: q) ≠ none) : f.node p = some .dir := by
  induction q using List.reverseRecOn with
  | nil => exact f.parent p n h
  | append_singleton q m ih =>
    refine ih ?_
    rw [← cons_append, ← append_assoc] at h
    rw [f.parent _ _ h]
    exact Option.some_ne_none _

theorem exists_above {p : List N} (h : f.node (p ++ q) ≠ none) : f.node p ≠ none := by
  cases q with
  | nil => rwa [append_nil] at h
  | cons n q =>
    rw [f.dir_above h]
    exact Option.some_ne_none _

theorem none_below_none {p : List N} {n : N} (h : f.node (p ++ [n]) = none) (q : List N) : f.node (p ++ n :: q) = none := by
  by_contra hne
  rw [append_cons] at hne
  exact f.exists_above hne h

theorem ok_of_mem {p : List N} (h : f.node (p ++ q) ≠ none) : ∀ n ∈ q, ok n := by
  intro n hn
  obtain ⟨a, b, rfl⟩ := append_of_mem hn
  refine f.name (p ++ a) n ?_
  rw [← append_assoc, append_cons (p ++ a)] at h
  exact f.exists_above h

theorem none_below_file {p : List N} (h : f.node p = some (.file data)) (n : N) (q : List N) :
    f.node (p ++ n :: q) = none := by
  by_contra hne
  rw [f.dir_above hne] at h
  cases h

theorem exists_entries (p : List N) : ∃ ns : List N, ns.Nodup ∧ ∀ n, n ∈ ns ↔ f.node (p ++ [n]) ≠ none := by
  classical
  have hinj : Set.InjOn (fun n => p ++ [n]) (Set.preimage (fun n => p ++ [n]) {q | f.node q ≠ none}) :=
    fun a _ b _ h => by simpa using h
  have hfin := Set.Finite.preimage hinj f.finite
  exact ⟨hfin.toFinset.toList, Finset.nodup_toList _, fun n => by simp⟩

theorem exists_depth : ∃ d, ∀ p, f.node p ≠ none → p.length ≤ d := by
  obtain ⟨d, hd⟩ := (f.finite.image List.length).bddAbove
  exact ⟨d, fun p hp => hd ⟨p, hp, rfl⟩⟩

/-! ### Removing entries -/

open Classical in
/-- The entries `S` of the directory `t` are removed, with everything below them. -/
noncomputable def cut (t : List N) (S : Set N) : FileTree N D ok where
  node p := if ∃ n ∈ S, t ++ [n] <+: p then none else f.node p
  root := by
    rw [if_neg, f.root]
    rintro ⟨n, -, h⟩
    simp at h
  parent p n h := by
    have hp : ¬ ∃ m ∈ S, t ++ [m] <+: p ++ [n] := fun hm => h (if_pos hm)
    rw [if_neg hp] at h
    rw [if_neg, f.parent p n h]
    rintro ⟨m, hm, hpre⟩
    exact hp ⟨m, hm, hpre.trans (prefix_append p [n])⟩
  name p n h := f.name p n fun hn => h (by rw [hn, ite_self])
  finite := f.finite.subset fun p hp hn => hp (by rw [hn, ite_self])

variable {f} {t p : List N} {S S' : Set N} {n : N}

theorem node_cut_of_mem (hn : n ∈ S) (h : t ++ [n] <+: p) : (f.cut t S).node p = none := if_pos ⟨n, hn, h⟩

theorem node_cut_of_not (h : ∀ n ∈ S, ¬ t ++ [n] <+: p) : (f.cut t S).node p = f.node p :=
  if_neg fun ⟨n, hn, hp⟩ => h n hn hp

theorem node_cut_of_none (h : f.node p = none) : (f.cut t S).node p = none := by
  by_cases hS : ∃ n ∈ S, t ++ [n] <+: p
  · obtain ⟨n, hn, hp⟩ := hS
    exact node_cut_of_mem hn hp
  · rw [node_cut_of_not fun n hn hp => hS ⟨n, hn, hp⟩, h]

theorem cut_keeps (h : (f.cut t S).node p ≠ none) : f.node p = (f.cut t S).node p := by
  refine (node_cut_of_not fun n hn hp => h ?_).symm
  exact node_cut_of_mem hn hp

theorem node_cut_of_length_le (h : p.length ≤ t.length) : (f.cut t S).node p = f.node p :=
  node_cut_of_not fun n _ hp => by
    have := hp.length_le
    rw [length_append, length_singleton] at this
    omega

@[simp] theorem node_cut_self : (f.cut t S).node t = f.node t := node_cut_of_length_le le_rfl

theorem node_cut_other {m : N} (hm : m ∉ S) (q : List N) : (f.cut t S).node (t ++ m :: q) = f.node (t ++ m :: q) := by
  refine node_cut_of_not fun n hn h => hm ?_
  rw [prefix_append_right_inj, cons_prefix_cons] at h
  rwa [← h.1]

theorem cut_cut : (f.cut t S).cut t S' = f.cut t (S ∪ S') := by
  ext p : 2
  by_cases h : ∃ n ∈ S ∪ S', t ++ [n] <+: p
  · obtain ⟨n, hn, hp⟩ := h
    rw [node_cut_of_mem hn hp]
    by_cases hn' : ∃ m ∈ S', t ++ [m] <+: p
    · obtain ⟨m, hm, hmp⟩ := hn'
      exact node_cut_of_mem hm hmp
    · rw [node_cut_of_not fun m hm hmp => hn' ⟨m, hm, hmp⟩]
      rcases hn with hn | hn
      · exact node_cut_of_mem hn hp
      · exact absurd ⟨n, hn, hp⟩ hn'
  · rw [node_cut_of_not fun n hn hp => h ⟨n, .inr hn, hp⟩, node_cut_of_not fun n hn hp => h ⟨n, .inl hn, hp⟩,
      node_cut_of_not fun n hn hp => h ⟨n, hn, hp⟩]

theorem cut_below : (f.cut (t ++ [n]) S).cut t {n} = f.cut t {n} := by
  ext p : 2
  by_cases h : t ++ [n] <+: p
  · rw [node_cut_of_mem (Set.mem_singleton n) h, node_cut_of_mem (Set.mem_singleton n) h]
  · have hnot : ∀ m ∈ ({n} : Set N), ¬ t ++ [m] <+: p := fun m hm => by rwa [Set.mem_singleton_iff.mp hm]
    rw [node_cut_of_not hnot, node_cut_of_not hnot, node_cut_of_not]
    exact fun m _ hm => h ((prefix_append _ _).trans hm)

theorem cut_congr (h : ∀ n, f.node (t ++ [n]) ≠ none → (n ∈ S ↔ n ∈ S')) : f.cut t S = f.cut t S' := by
  have hle : ∀ {A B : Set N}, (∀ n, f.node (t ++ [n]) ≠ none → (n ∈ A ↔ n ∈ B)) → ∀ p,
      (∃ n ∈ A, t ++ [n] <+: p) → (f.cut t B).node p = none := by
    rintro A B hAB p ⟨n, hn, q, rfl⟩
    by_cases hex : f.node (t ++ [n]) = none
    · rw [← append_cons]
      exact node_cut_of_none (f.none_below_none hex q)
    · exact node_cut_of_mem ((hAB n hex).mp hn) (prefix_append _ _)
  ext p : 2
  by_cases hS : ∃ n ∈ S, t ++ [n] <+: p
  · rw [hle h p hS]
    obtain ⟨n, hn, hp⟩ := hS
    exact node_cut_of_mem hn hp
  · by_cases hS' : ∃ n ∈ S', t ++ [n] <+: p
    · rw [hle (fun n hn => (h n hn).symm) p hS']
      obtain ⟨n, hn, hp⟩ := hS'
      exact (node_cut_of_mem hn hp).symm
    · rw [node_cut_of_not fun n hn hp => hS ⟨n, hn, hp⟩, node_cut_of_not fun n hn hp => hS' ⟨n, hn, hp⟩]

@[simp] theorem cut_empty : f.cut t ∅ = f := by
  ext p : 2
  exact node_cut_of_not fun n hn => absurd hn (Set.notMem_empty n)

/-! ### New entries and new contents -/

open Classical in
/-- A new entry of the directory `d`. Nothing happens if it is there, or cannot be. -/
noncomputable def add (f : FileTree N D ok) (d : List N) (n : N) (e : Entry D) : FileTree N D ok where
  node p := if p = d ++ [n] ∧ f.node d = some .dir ∧ ok n ∧ f.node p = none then some e else f.node p
  root := by
    rw [if_neg, f.root]
    rintro ⟨h, -⟩
    simp at h
  parent p m h := by
    have hkeep : f.node p = some .dir → (if p = d ++ [n] ∧ f.node d = some .dir ∧ ok n ∧ f.node p = none then some e else f.node p)
        = some .dir := fun hp => by
      rw [if_neg, hp]
      rintro ⟨-, -, -, hn⟩
      rw [hn] at hp
      cases hp
    by_cases hc : p ++ [m] = d ++ [n] ∧ f.node d = some .dir ∧ ok n ∧ f.node (p ++ [m]) = none
    · obtain ⟨rfl, -⟩ := append_inj' hc.1 rfl
      exact hkeep hc.2.1
    · rw [if_neg hc] at h
      exact hkeep (f.parent p m h)
  name p m h := by
    by_cases hc : p ++ [m] = d ++ [n] ∧ f.node d = some .dir ∧ ok n ∧ f.node (p ++ [m]) = none
    · obtain ⟨-, hm⟩ := append_inj' hc.1 rfl
      cases hm
      exact hc.2.2.1
    · rw [if_neg hc] at h
      exact f.name p m h
  finite := by
    refine (f.finite.insert (d ++ [n])).subset fun p hp => ?_
    by_cases hpd : p = d ++ [n]
    · exact .inl hpd
    · refine .inr fun hn => hp ?_
      rw [if_neg fun h => hpd h.1, hn]

theorem node_add_self (hd : f.node d = some .dir) (hn : ok n) (h : f.node (d ++ [n]) = none) :
    (f.add d n e).node (d ++ [n]) = some e := if_pos ⟨rfl, hd, hn, h⟩

theorem node_add_of_ne (h : p ≠ d ++ [n]) : (f.add d n e).node p = f.node p := if_neg fun hp => h hp.1

theorem node_add_of_some (h : f.node q ≠ none) : (f.add d n e).node q = f.node q :=
  if_neg fun hq => h hq.2.2.2

open Classical in
/-- The file at `q` gets other contents. Nothing happens if there is no file. -/
noncomputable def store (f : FileTree N D ok) (q : List N) (data : D) : FileTree N D ok where
  node p := if p = q ∧ ∃ old, f.node q = some (.file old) then some (.file data) else f.node p
  root := by
    rw [if_neg, f.root]
    rintro ⟨rfl, old, h⟩
    rw [f.root] at h
    cases h
  parent p m h := by
    have hp : f.node (p ++ [m]) ≠ none := fun hn => by
      by_cases hc : p ++ [m] = q ∧ ∃ old, f.node q = some (.file old)
      · obtain ⟨rfl, old, ho⟩ := hc
        rw [hn] at ho
        cases ho
      · exact h (by rw [if_neg hc, hn])
    have hdir := f.parent p m hp
    rw [if_neg, hdir]
    rintro ⟨rfl, old, ho⟩
    rw [hdir] at ho
    cases ho
  name p m h := f.name p m fun hn => by
    by_cases hc : p ++ [m] = q ∧ ∃ old, f.node q = some (.file old)
    · obtain ⟨rfl, old, ho⟩ := hc
      rw [hn] at ho
      cases ho
    · exact h (by rw [if_neg hc, hn])
  finite := f.finite.subset fun p hp hn => hp (by
    rw [if_neg, hn]
    rintro ⟨rfl, old, ho⟩
    rw [hn] at ho
    cases ho)

theorem node_store_self {old : D} (h : f.node p = some (.file old)) : (f.store p data).node p = some (.file data) :=
  if_pos ⟨rfl, old, h⟩

theorem node_store_of_ne (h : p ≠ q) : (f.store q data).node p = f.node p := if_neg fun hp => h hp.1

/-! ### Copies -/

/-- In `g` there is at `t` what was at `u` in `f`, of the entries of `u` those in `S`; elsewhere `g` is as `f`. -/
structure Pasted (f : FileTree N D ok) (u t : List N) (S : Set N) (g : FileTree N D ok) : Prop where
  rest : ∀ p, ¬ t <+: p → g.node p = f.node p
  top : g.node t = f.node u
  mem : ∀ n ∈ S, ∀ q, g.node (t ++ n :: q) = f.node (u ++ n :: q)
  not_mem : ∀ n ∉ S, ∀ q, g.node (t ++ n :: q) = none

section Pasted

variable {g g' : FileTree N D ok} {u : List N}

theorem Pasted.all (h : f.Pasted u t Set.univ g) (q : List N) : g.node (t ++ q) = f.node (u ++ q) := by
  cases q with
  | nil => rw [append_nil, append_nil, h.top]
  | cons n q => exact h.mem n (Set.mem_univ n) q

theorem Pasted.keeps (h : f.Pasted u t S g) (ht : f.node t = none) (hp : f.node p ≠ none) : g.node p = f.node p := by
  refine h.rest p ?_
  rintro ⟨q, rfl⟩
  exact f.exists_above hp ht

theorem not_prefix_of_outside (hu : f.node u ≠ none) (ht : f.node t = none) (hout : ¬ u <+: t) (q : List N) : ¬ t <+: u ++ q := by
  intro h
  rcases prefix_or_prefix_of_prefix h (prefix_append u q) with ⟨r, rfl⟩ | h
  · exact f.exists_above hu ht
  · exact hout h

theorem Pasted.insert_none (h : f.Pasted u t S g) (hn : f.node (u ++ [n]) = none) : f.Pasted u t (insert n S) g where
  rest := h.rest
  top := h.top
  mem m hm q := by
    by_cases hmS : m ∈ S
    · exact h.mem m hmS q
    · obtain rfl : m = n := hm.resolve_right hmS
      rw [h.not_mem m hmS, f.none_below_none hn]
  not_mem m hm := h.not_mem m fun hmS => hm (.inr hmS)

theorem Pasted.insert (h : f.Pasted u t S g) (hout : ∀ q, ¬ t <+: u ++ q) (hn : n ∉ S) (hg : g.Pasted (u ++ [n]) (t ++ [n]) Set.univ g') :
    f.Pasted u t (insert n S) g' := by
  have hother : ∀ m, m ≠ n → ∀ q, g'.node (t ++ m :: q) = g.node (t ++ m :: q) := by
    intro m hm q
    refine hg.rest _ fun hp => hm ?_
    rw [prefix_append_right_inj, cons_prefix_cons] at hp
    exact hp.1.symm
  refine ⟨fun p hp => ?_, ?_, fun m hm q => ?_, fun m hm q => ?_⟩
  · rw [hg.rest p fun h => hp ((prefix_append t [n]).trans h), h.rest p hp]
  · rw [hg.rest t fun h => ?_, h.top]
    have := h.length_le
    rw [length_append, length_singleton] at this
    omega
  · by_cases hmn : m = n
    · subst hmn
      rw [append_cons, hg.all, append_assoc, h.rest _ (hout _), singleton_append]
    · rw [hother m hmn, h.mem m (hm.resolve_left hmn)]
  · rw [hother m fun e => hm (.inl e), h.not_mem m fun hmS => hm (.inr hmS)]

theorem Pasted.univ (h : f.Pasted u t S g) (hS : ∀ n, f.node (u ++ [n]) ≠ none → n ∈ S) : f.Pasted u t Set.univ g where
  rest := h.rest
  top := h.top
  mem n _ q := by
    by_cases hn : n ∈ S
    · exact h.mem n hn q
    · rw [h.not_mem n hn, f.none_below_none]
      by_contra hne
      exact hn (hS n hne)
  not_mem n hn := absurd (Set.mem_univ n) hn

end Pasted

/-! ### Trees that are given by a list -/

def listed [DecidableEq N] (L : List (List N × Entry D)) (p : List N) : Option (Entry D) := (L.find? fun e => e.1 = p).map Prod.snd

theorem mem_of_listed [DecidableEq N] {L : List (List N × Entry D)} (h : listed L p ≠ none) : p ∈ L.map Prod.fst := by
  by_contra hp
  refine h ?_
  have hnone : L.find? (fun e => e.1 = p) = none := by
    refine List.find?_eq_none.mpr fun e he h => hp ?_
    rw [← of_decide_eq_true h]
    exact mem_map_of_mem he
  rw [listed, hnone]
  rfl

def ofList [DecidableEq N] (L : List (List N × Entry D)) (root : listed L [] = some .dir)
    (parent : ∀ p ∈ L.map Prod.fst, listed L p.dropLast = some .dir) (name : ∀ p ∈ L.map Prod.fst, ∀ n ∈ p, ok n) :
    FileTree N D ok where
  node := listed L
  root := root
  parent p n h := by simpa using parent _ (mem_of_listed h)
  name p n h := name _ (mem_of_listed h) n (by simp)
  finite := (L.map Prod.fst).finite_toSet.subset fun _ hp => mem_of_listed hp

end FileTree

end MCertiKOS.Library
