import Mathlib.Data.List.Nodup
import Mathlib.Data.List.Perm.Basic

/-!
# A finite map in a row of slots

A map from `κ` to `ν` is kept in a list of slots. A slot has a key and its value,
or it is a hole. A key is looked up by going through the list (`find`); a new key
goes into the first hole, or behind the last slot if there is none (`add`); a key
is removed by making a hole of its slot (`clear`).
-/

namespace MCertiKOS.Library.Slots

open List

variable {κ ν : Type*} [DecidableEq κ] {l : List (Option (κ × ν))} {k k' : κ} {v : ν} {i : ℕ}

/-- The value of `k`, and its slot. -/
def find (k : κ) : List (Option (κ × ν)) → Option (ν × ℕ)
  | [] => none
  | none :: l => (find k l).map (Prod.map id (· + 1))
  | some (k', v) :: l => if k' = k then some (v, 0) else (find k l).map (Prod.map id (· + 1))

def hole : List (Option (κ × ν)) → ℕ
  | [] => 0
  | none :: _ => 0
  | some _ :: l => hole l + 1

/-- Slot `i` is overwritten, or one is added behind the last. -/
def put (l : List (Option (κ × ν))) (i : ℕ) (e : Option (κ × ν)) : List (Option (κ × ν)) := if i < l.length then l.set i e else l ++ [e]

def add (l : List (Option (κ × ν))) (k : κ) (v : ν) : List (Option (κ × ν)) := put l (hole l) (some (k, v))

/-- Slot `i` becomes a hole. -/
def clear (l : List (Option (κ × ν))) (i : ℕ) : List (Option (κ × ν)) := l.set i none

def keys (l : List (Option (κ × ν))) : List κ := l.filterMap (Option.map Prod.fst)

omit [DecidableEq κ] in
@[simp] theorem keys_none : keys (none :: l) = keys l := rfl

omit [DecidableEq κ] in
@[simp] theorem keys_some {e : κ × ν} : keys (some e :: l) = e.1 :: keys l := rfl

omit [DecidableEq κ] in
theorem hole_le (l : List (Option (κ × ν))) : hole l ≤ l.length := by
  induction l with
  | nil => exact Nat.le_refl _
  | cons e l ih =>
    cases e with
    | none => exact Nat.zero_le _
    | some e => exact Nat.succ_le_succ ih

omit [DecidableEq κ] in
theorem put_cons {e e' : Option (κ × ν)} : put (e :: l) (i + 1) e' = e :: put l i e' := by
  unfold put
  rw [length_cons, set_cons_succ, cons_append]
  by_cases h : i < l.length
  · rw [if_pos h, if_pos (Nat.succ_lt_succ h)]
  · rw [if_neg h, if_neg fun h' => h (Nat.lt_of_succ_lt_succ h')]

theorem find_eq_none : find k l = none ↔ k ∉ keys l := by
  induction l with
  | nil => exact iff_of_true rfl not_mem_nil
  | cons e l ih =>
    match e with
    | none => rw [find, Option.map_eq_none_iff, ih, keys_none]
    | some (a, b) =>
      rw [find, keys_some, mem_cons, not_or]
      by_cases e : a = k
      · simp [e]
      · rw [if_neg e, Option.map_eq_none_iff, ih]
        exact (and_iff_right (Ne.symm e)).symm

omit [DecidableEq κ] in
theorem mem_keys_of_getElem? (h : l[i]? = some (some (k, v))) : k ∈ keys l :=
  mem_filterMap.mpr ⟨_, mem_of_getElem? h, rfl⟩

theorem find_eq_some (hl : (keys l).Nodup) : find k l = some (v, i) ↔ l[i]? = some (some (k, v)) := by
  have hnext : ∀ {l : List (Option (κ × ν))} {i : ℕ}, (find k l).map (Prod.map id (· + 1)) = some (v, i) ↔
      ∃ j, i = j + 1 ∧ find k l = some (v, j) := fun {l i} => by
    rw [Option.map_eq_some_iff]
    exact ⟨fun ⟨⟨w, j⟩, hj, he⟩ => by cases he; exact ⟨j, rfl, hj⟩, fun ⟨j, hi, hj⟩ => ⟨_, hj, by rw [hi]; rfl⟩⟩
  induction l generalizing i with
  | nil => exact iff_of_false nofun nofun
  | cons e l ih =>
    match e with
    | none =>
      rw [find, hnext]
      cases i with
      | zero => exact iff_of_false (fun ⟨j, hj, _⟩ => Nat.noConfusion hj) nofun
      | succ i => exact ⟨fun ⟨j, hi, hj⟩ => (ih hl).mp (Nat.succ.inj hi ▸ hj), fun h => ⟨i, rfl, (ih hl).mpr h⟩⟩
    | some (a, b) =>
      rw [keys_some, nodup_cons] at hl
      rw [find]
      by_cases e : a = k
      · subst e
        rw [if_pos rfl]
        cases i with
        | zero => simp
        | succ i => exact iff_of_false nofun fun h => hl.1 (mem_keys_of_getElem? (i := i) h)
      · rw [if_neg e, hnext]
        cases i with
        | zero => exact iff_of_false (fun ⟨j, hj, _⟩ => Nat.noConfusion hj) fun h => e (by cases h; rfl)
        | succ i => exact ⟨fun ⟨j, hi, hj⟩ => (ih hl.2).mp (Nat.succ.inj hi ▸ hj), fun h => ⟨i, rfl, (ih hl.2).mpr h⟩⟩

theorem find_add (h : find k l = none) (k' : κ) (v : ν) : find k' (add l k v) = if k' = k then some (v, hole l) else find k' l := by
  unfold add
  induction l with
  | nil =>
    show find k' [some (k, v)] = _
    simp only [find, Option.map_none, eq_comm, hole]
  | cons e l ih =>
    match e with
    | none =>
      show find k' (some (k, v) :: l) = _
      simp only [find, eq_comm, hole]
    | some (a, b) =>
      have hne : a ≠ k := by
        rintro rfl
        rw [find, if_pos rfl] at h
        cases h
      rw [find, if_neg hne, Option.map_eq_none_iff] at h
      rw [hole, put_cons, find, ih h, find]
      by_cases e : k' = k
      · rw [if_pos e, if_pos e, if_neg (by rw [e]; exact hne)]
        rfl
      · rw [if_neg e, if_neg e]

theorem find_clear (hl : (keys l).Nodup) (h : find k l = some (v, i)) (k' : κ) :
    find k' (clear l i) = if k' = k then none else find k' l := by
  unfold clear
  induction l generalizing i with
  | nil => cases h
  | cons e l ih =>
    match e with
    | none =>
      rw [find, Option.map_eq_some_iff] at h
      obtain ⟨⟨w, j⟩, hj, he⟩ := h
      cases he
      show find k' (none :: l.set j none) = _
      rw [find, ih hl hj, find]
      split_ifs <;> rfl
    | some (a, b) =>
      rw [keys_some, nodup_cons] at hl
      rw [find] at h
      split_ifs at h with e
      · cases h
        subst e
        show find k' (none :: l) = _
        rw [find, find]
        by_cases e : k' = a
        · rw [if_pos e, e, find_eq_none.mpr hl.1]
          rfl
        · rw [if_neg e, if_neg (Ne.symm e)]
      · rw [Option.map_eq_some_iff] at h
        obtain ⟨⟨w, j⟩, hj, he⟩ := h
        cases he
        show find k' (some (a, b) :: l.set j none) = _
        rw [find, ih hl.2 hj, find]
        by_cases e' : k' = k
        · rw [if_pos e', if_pos e', if_neg (by rw [e']; exact e)]
          rfl
        · rw [if_neg e', if_neg e']

omit [DecidableEq κ] in
theorem keys_add_perm (l : List (Option (κ × ν))) (k : κ) (v : ν) : (keys (add l k v)).Perm (k :: keys l) := by
  unfold add
  induction l with
  | nil => exact .refl _
  | cons e l ih =>
    match e with
    | none => exact .refl _
    | some (a, b) =>
      rw [hole, put_cons, keys_some, keys_some]
      exact (ih.cons a).trans (List.Perm.swap ..)

theorem nodup_add (hl : (keys l).Nodup) (h : find k l = none) (v : ν) : (keys (add l k v)).Nodup :=
  (keys_add_perm l k v).nodup_iff.mpr (nodup_cons.mpr ⟨find_eq_none.mp h, hl⟩)

omit [DecidableEq κ] in
theorem keys_clear_sublist (l : List (Option (κ × ν))) (i : ℕ) : (keys (clear l i)).Sublist (keys l) := by
  unfold clear
  induction l generalizing i with
  | nil => exact List.Sublist.refl _
  | cons e l ih =>
    cases i with
    | zero =>
      cases e with
      | none => exact List.Sublist.refl _
      | some e => exact sublist_cons_self ..
    | succ i =>
      cases e with
      | none => exact ih i
      | some e => exact (ih i).cons_cons e.1

omit [DecidableEq κ] in
theorem nodup_clear (hl : (keys l).Nodup) (i : ℕ) : (keys (clear l i)).Nodup := hl.sublist (keys_clear_sublist l i)

end MCertiKOS.Library.Slots
