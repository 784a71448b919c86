import Mathlib.Algebra.BigOperators.Group.Finset.Piecewise

/-!
# Counting the holders of a reference

A table of slots, each of which is empty or points to an object. `holders D slot a`
is the number of slots of `D` that point to `a`: what a reference count of `a`
has to be when only slots of `D` hold references.
-/

namespace MCertiKOS.Library

variable {κ α : Type*} [DecidableEq α] {D : Finset κ} {slot : κ → Option α} {x : κ} {a b : α}

/-- The number of slots of `D` that point to `a`. -/
def holders (D : Finset κ) (slot : κ → Option α) (a : α) : ℕ := (D.filter fun x => slot x = some a).card

theorem holders_pos_iff : 0 < holders D slot a ↔ ∃ x ∈ D, slot x = some a := by
  simp [holders, Finset.card_pos, Finset.Nonempty]

theorem holders_eq_zero_iff : holders D slot a = 0 ↔ ∀ x ∈ D, slot x ≠ some a := by
  simp [holders, Finset.filter_eq_empty_iff]

variable [DecidableEq κ]

theorem holders_update (slot : κ → Option α) (hx : x ∈ D) (v : Option α) (a : α) :
    holders D (Function.update slot x v) a + (if slot x = some a then 1 else 0) =
      holders D slot a + (if v = some a then 1 else 0) := by
  have hrest : ∑ y ∈ D.erase x, (if Function.update slot x v y = some a then 1 else 0) =
      ∑ y ∈ D.erase x, (if slot y = some a then 1 else 0) :=
    Finset.sum_congr rfl fun y hy => by rw [Function.update_of_ne (Finset.ne_of_mem_erase hy)]
  simp only [holders, Finset.card_filter]
  rw [← Finset.add_sum_erase D _ hx, ← Finset.add_sum_erase D (fun y => if slot y = some a then 1 else 0) hx, hrest,
    Function.update_self]
  omega

theorem holders_set (hx : x ∈ D) (he : slot x = none) (b a : α) :
    holders D (Function.update slot x (some b)) a = holders D slot a + if a = b then 1 else 0 := by
  have := holders_update slot hx (some b) a
  simpa [he, eq_comm] using this

theorem holders_clear (hx : x ∈ D) (hb : slot x = some b) (a : α) :
    holders D (Function.update slot x none) a + (if a = b then 1 else 0) = holders D slot a := by
  have := holders_update slot hx none a
  simpa [hb, eq_comm] using this

end MCertiKOS.Library
