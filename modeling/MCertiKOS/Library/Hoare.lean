import Mathlib.Logic.Basic
import Mathlib.Order.Basic

/-!
# Programs that may stop

`Prog σ ε α` is a computation on a state `σ` that returns a value in `α` or
stops with a reason in `ε`; the state it had reached is kept when it stops.
`wp m Q E s` says that `m`, started in `s`, ends in `Q` if it returns and in `E`
if it stops. Sequences are taken apart with `wp_bind`, a function that has a
specification is used through `wp_mono`, and a counting loop has an invariant
(`wp_loop`).
-/

namespace MCertiKOS.Library

universe u

abbrev Prog (σ ε : Type u) := ExceptT ε (StateM σ)

variable {σ ε α β : Type u}

/-- `m` started in `s` returns in `Q` or stops in `E`. -/
def wp (m : Prog σ ε α) (Q : α → σ → Prop) (E : ε → σ → Prop) (s : σ) : Prop :=
  match m.run s with
  | (.ok a, t) => Q a t
  | (.error e, t) => E e t

variable {Q Q' : α → σ → Prop} {E E' : ε → σ → Prop} {s : σ}

@[simp] theorem wp_pure (a : α) : wp (pure a : Prog σ ε α) Q E s ↔ Q a s := Iff.rfl

@[simp] theorem wp_throw (e : ε) : wp (throw e : Prog σ ε α) Q E s ↔ E e s := Iff.rfl

@[simp] theorem wp_get {Q : σ → σ → Prop} : wp (get : Prog σ ε σ) Q E s ↔ Q s s := Iff.rfl

@[simp] theorem wp_set {Q : PUnit → σ → Prop} (t : σ) : wp (set t : Prog σ ε PUnit) Q E s ↔ Q ⟨⟩ t := Iff.rfl

@[simp] theorem wp_modify {Q : PUnit → σ → Prop} (f : σ → σ) :
    wp (modify f : Prog σ ε PUnit) Q E s ↔ Q ⟨⟩ (f s) := Iff.rfl

@[simp] theorem wp_bind (m : Prog σ ε β) (f : β → Prog σ ε α) :
    wp (m >>= f) Q E s ↔ wp m (fun b => wp (f b) Q E) E s := by
  have h : (m >>= f).run s = match m.run s with
      | (.ok b, t) => (f b).run t
      | (.error e, t) => (.error e, t) := by
    show (m.run >>= ExceptT.bindCont f) s = _
    simp only [bind, StateT.bind]
    rcases m.run s with ⟨b | b, t⟩ <;> rfl
  unfold wp
  rw [h]
  rcases m.run s with ⟨b | b, t⟩ <;> exact Iff.rfl

variable {m : Prog σ ε α}

theorem wp_mono (h : wp m Q E s) (hQ : ∀ a t, Q a t → Q' a t) (hE : ∀ e t, E e t → E' e t) :
    wp m Q' E' s := by
  unfold wp at h ⊢
  rcases hr : m.run s with ⟨b | b, t⟩
  · rw [hr] at h
    exact hE b t h
  · rw [hr] at h
    exact hQ b t h

theorem wp_iff_run : wp m Q E s ↔
    (∀ a t, m.run s = (.ok a, t) → Q a t) ∧ ∀ e t, m.run s = (.error e, t) → E e t := by
  unfold wp
  rcases m.run s with ⟨b | b, t⟩
  · refine ⟨fun h => ⟨nofun, ?_⟩, fun h => h.2 b t rfl⟩
    rintro _ _ ⟨⟩
    exact h
  · refine ⟨fun h => ⟨?_, nofun⟩, fun h => h.1 b t rfl⟩
    rintro _ _ ⟨⟩
    exact h

theorem wp_of_forall (hQ : ∀ a t, Q a t) (hE : ∀ e t, E e t) (s : σ) : wp m Q E s :=
  wp_iff_run.mpr ⟨fun a t _ => hQ a t, fun e t _ => hE e t⟩

/-! ### Loops -/

/-- `for (i = 0; i < n; i++) body(i)`. -/
def loop : ℕ → (ℕ → Prog σ ε PUnit.{u + 1}) → Prog σ ε PUnit.{u + 1}
  | 0, _ => pure ⟨⟩
  | n + 1, body => loop n body >>= fun _ => body n

theorem wp_loop {n : ℕ} {body : ℕ → Prog σ ε PUnit.{u + 1}} (I : ℕ → σ → Prop) (h0 : I 0 s)
    (hstep : ∀ i < n, ∀ t, I i t → wp (body i) (fun _ => I (i + 1)) E t) : wp (loop n body) (fun _ => I n) E s := by
  induction n with
  | zero => exact h0
  | succ n ih =>
    rw [loop, wp_bind]
    refine wp_mono (ih fun i hi => hstep i (Nat.lt_succ_of_lt hi)) (fun _ t ht => ?_) (fun _ _ he => he)
    exact hstep n (Nat.lt_succ_self n) t ht

end MCertiKOS.Library
