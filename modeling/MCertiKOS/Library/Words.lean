import Mathlib.Data.List.TakeWhile
import Mathlib.Data.List.Basic

/-!
# Words

The words of a list are the pieces between separators that are not empty. `wordsBy` is
the list of them; a scanner that skips separators and then takes a word finds them one
after the other (`wordsBy_append_of_sep`, `wordsBy_word`).

A loop `while (p) next` passes over the elements that meet `p` (`exists_span`).
-/

namespace MCertiKOS.Library

open List

variable {α : Type*} {sep p : α → Bool} {g l s w u : List α}

def wordsBy (sep : α → Bool) (l : List α) : List (List α) := (l.splitOnP sep).filter (· ≠ [])

theorem wordsBy_append_cons (l s : List α) {a : α} (ha : sep a = true) :
    wordsBy sep (l ++ a :: s) = wordsBy sep l ++ wordsBy sep s := by
  unfold wordsBy
  rw [splitOnP_append_cons l s ha, filter_append]

theorem wordsBy_nil : wordsBy sep ([] : List α) = [] := by
  unfold wordsBy
  rw [splitOnP_nil]
  rfl

theorem wordsBy_cons_sep {a : α} (ha : sep a = true) (s : List α) : wordsBy sep (a :: s) = wordsBy sep s := by
  have h := wordsBy_append_cons [] s ha
  rwa [wordsBy_nil, nil_append, nil_append] at h

theorem wordsBy_append_of_sep (hg : ∀ a ∈ g, sep a = true) (s : List α) : wordsBy sep (g ++ s) = wordsBy sep s := by
  induction g with
  | nil => rfl
  | cons a g ih =>
    rw [cons_append, wordsBy_cons_sep (hg a (by simp)), ih fun b hb => hg b (by simp [hb])]

theorem wordsBy_eq_nil_of_sep (hg : ∀ a ∈ g, sep a = true) : wordsBy sep g = [] := by
  have h := wordsBy_append_of_sep hg []
  rwa [append_nil, wordsBy_nil] at h

theorem wordsBy_singleton (hw : ∀ a ∈ w, sep a = false) (hne : w ≠ []) : wordsBy sep w = [w] := by
  unfold wordsBy
  rw [splitOnP_eq_singleton hw]
  simp [hne]

theorem wordsBy_word (hw : ∀ a ∈ w, sep a = false) (hne : w ≠ []) (hu : ∀ a ∈ u.head?, sep a = true) :
    wordsBy sep (w ++ u) = w :: wordsBy sep u := by
  cases u with
  | nil => rw [append_nil, wordsBy_singleton hw hne, wordsBy_nil]
  | cons a u =>
    have ha : sep a = true := hu a rfl
    rw [wordsBy_append_cons w u ha, wordsBy_singleton hw hne, wordsBy_cons_sep ha, singleton_append]

/-! ### Loops over a list -/

theorem takeWhile_append_stop (hg : ∀ a ∈ g, p a = true) (hs : ∀ a ∈ s.head?, p a = false) : (g ++ s).takeWhile p = g := by
  rw [takeWhile_append_of_pos hg]
  cases s with
  | nil => simp
  | cons a s => rw [takeWhile_cons_of_neg (by simpa using hs a rfl), append_nil]

theorem exists_span (p : α → Bool) (l : List α) :
    ∃ g s, l = g ++ s ∧ (∀ a ∈ g, p a = true) ∧ ∀ a ∈ s.head?, p a = false := by
  refine ⟨l.takeWhile p, l.dropWhile p, (takeWhile_append_dropWhile ..).symm, fun a ha => mem_takeWhile_imp ha, ?_⟩
  intro a ha
  have := List.head?_dropWhile_not p l
  rw [Option.mem_def.mp ha] at this
  simpa using this

theorem sep_of_wordsBy_eq_nil (h : wordsBy sep l = []) : ∀ a ∈ l, sep a = true := by
  obtain ⟨g, s, rfl, hg, hs⟩ := exists_span sep l
  rw [wordsBy_append_of_sep hg] at h
  cases s with
  | nil => simpa using hg
  | cons a s =>
    -- what does not start with a separator starts with a word
    obtain ⟨w, u, he, hw, hu⟩ := exists_span (fun b => !sep b) (a :: s)
    have hne : w ≠ [] := by
      rintro rfl
      have ha := hu a (by rw [nil_append] at he; rw [← he]; rfl)
      simp [hs a rfl] at ha
    rw [he, wordsBy_word (fun b hb => by simpa using hw b hb) hne fun b hb => by simpa using hu b hb] at h
    cases h

end MCertiKOS.Library
