import MCertiKOS.Library.Code

/-!
# Programs whose operations may do several things

Here an operation is a relation: in a state it may give one of several answers and leave one of several states.
`Code.Meets` says that a program always ends in `Q`, whatever its operations do: each operation that it gets to may do something, and
from all that it may do the rest of the program ends in `Q`. Programs are taken apart with `meets_bind`; an operation that may do one
thing only is `meets_op_of`.
-/

namespace MCertiKOS.Library

/-- What operations may do: the state before, the answer and the state after. -/
abbrev Moves (Op : Type → Type) (σ : Type) := ∀ β, Op β → σ → β → σ → Prop

namespace Code

variable {Op : Type → Type} {α β σ : Type} {M : Moves Op σ} {Q Q' : α → σ → Prop} {s : σ}

/-- Whatever its operations do, the program ends in `Q`. -/
def Meets (M : Moves Op σ) : Code Op α → (α → σ → Prop) → σ → Prop
  | .ret a, Q, s => Q a s
  | .act o k, Q, s => (∃ b t, M _ o s b t) ∧ ∀ b t, M _ o s b t → (k b).Meets M Q t

@[simp] theorem meets_pure {a : α} : (pure a : Code Op α).Meets M Q s ↔ Q a s := Iff.rfl

variable {o : Op β} {c : Code Op α}

theorem meets_op {Q : β → σ → Prop} : (op o).Meets M Q s ↔ (∃ b t, M β o s b t) ∧ ∀ b t, M β o s b t → Q b t := Iff.rfl

@[simp] theorem meets_bind {c : Code Op β} {f : β → Code Op α} :
    (c >>= f).Meets M Q s ↔ c.Meets M (fun b t => (f b).Meets M Q t) s := by
  induction c generalizing s with
  | ret b => exact Iff.rfl
  | act o k ih => exact and_congr_right' (forall_congr' fun b => forall_congr' fun t => imp_congr_right fun _ => ih b)

theorem Meets.mono (h : c.Meets M Q s) (hQ : ∀ a t, Q a t → Q' a t) : c.Meets M Q' s := by
  induction c generalizing s with
  | ret a => exact hQ a s h
  | act o k ih => exact ⟨h.1, fun b t hb => ih b (h.2 b t hb)⟩

theorem Meets.exists_both (h : c.Meets M Q s) (h' : c.Meets M Q' s) : ∃ a t, Q a t ∧ Q' a t := by
  induction c generalizing s with
  | ret a => exact ⟨a, s, h, h'⟩
  | act o k ih =>
    obtain ⟨b, t, hb⟩ := h.1
    exact ih b (h.2 b t hb) (h'.2 b t hb)

theorem meets_op_of {Q : β → σ → Prop} {b : β} {t : σ} (h : ∀ b' t', M β o s b' t' ↔ b' = b ∧ t' = t) :
    (op o).Meets M Q s ↔ Q b t := by
  rw [meets_op]
  constructor
  · exact fun hm => hm.2 b t ((h b t).mpr ⟨rfl, rfl⟩)
  · intro hq
    refine ⟨⟨b, t, (h b t).mpr ⟨rfl, rfl⟩⟩, fun b' t' hm => ?_⟩
    obtain ⟨rfl, rfl⟩ := (h b' t').mp hm
    exact hq

end Code

end MCertiKOS.Library
