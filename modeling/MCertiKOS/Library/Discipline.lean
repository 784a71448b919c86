import MCertiKOS.Library.Code

/-!
# Threads under a condition

Runs of threads in which every step meets a condition on the state before it
(`Threads.StepWhen`), and the rule for them. As for `Code.Safe` the threads share
an invariant that also speaks of what each of them knows of itself. In addition
a thread performs an operation only when what it knows of itself allows it
(`pre`); this says something of a thread that waits, too, which has not
performed its operation yet.

Programs are taken apart with `obeys_bind`, and `Discipline.reach` puts the
threads together.
-/

namespace MCertiKOS.Library

open Function (update update_eq_self update_of_ne update_self)

variable {ι σ ε ρ α β : Type} {Op : Type → Type}

/-- One operation of one thread, in a state that meets the condition. A thread that has returned may be given a new
program. -/
inductive Threads.StepWhen [DecidableEq ι] (sem : ι → Sem Op σ ε) (cond : ι → σ → ∀ β, Op β → Prop)
    (start : σ → ι → Code Op PUnit → Prop) : Threads ι σ Op → Threads ι σ Op → Prop where
  /-- The operation is performed. -/
  | act {T : Threads ι σ Op} {i : ι} {β : Type} {op : Op β} {k : β → Code Op PUnit} {b : β} {t : σ}
      (hc : T.code i = .act op k) (hcond : cond i T.shared β op) (hr : (sem i β op).run T.shared = (.ok b, t)) :
      StepWhen sem cond start T ⟨t, update T.code i (k b)⟩
  /-- The operation stops. -/
  | stop {T : Threads ι σ Op} {i : ι} {β : Type} {op : Op β} {k : β → Code Op PUnit} {e : ε} {t : σ}
      (hc : T.code i = .act op k) (hcond : cond i T.shared β op) (hr : (sem i β op).run T.shared = (.error e, t)) :
      StepWhen sem cond start T ⟨t, T.code⟩
  /-- A new program. -/
  | start {T : Threads ι σ Op} {i : ι} {c : Code Op PUnit} (hc : T.code i = .ret ⟨⟩) (hs : start T.shared i c) :
      StepWhen sem cond start T ⟨T.shared, update T.code i c⟩

/-- How threads work together. -/
structure Discipline (ι σ ε ρ : Type) (Op : Type → Type) where
  sem : ι → Sem Op σ ε
  cond : ι → σ → ∀ β, Op β → Prop
  /-- What is asked of a thread that is about to perform an operation. -/
  pre : ρ → ∀ β, Op β → Prop
  inv : (ι → ρ) → σ → Prop

namespace Discipline

variable [DecidableEq ι] (D : Discipline ι σ ε ρ Op)

/-- Thread `i`, which knows `r` of itself, asks for what it may, keeps the invariant, and knows `Q` of itself when it
returns. -/
def Obeys (i : ι) : Code Op α → (α → ρ → Prop) → ρ → Prop
  | .ret a, Q, r => Q a r
  | .act (β := β) op k, Q, r => D.pre r β op ∧ ∀ rs s, rs i = r → D.inv rs s → D.cond i s β op →
      wp (D.sem i β op) (fun b t => ∃ r', D.inv (update rs i r') t ∧ Obeys i (k b) Q r') (fun _ t => D.inv rs t) s

variable {D} {i : ι} {Q : α → ρ → Prop} {r : ρ}

theorem obeys_bind {c : Code Op β} {f : β → Code Op α} {P : β → ρ → Prop} (hc : D.Obeys i c P r)
    (hf : ∀ b r', P b r' → D.Obeys i (f b) Q r') : D.Obeys i (c >>= f) Q r := by
  induction c generalizing r with
  | ret b => exact hf b r hc
  | act op k ih =>
    refine ⟨hc.1, fun rs s hrs hI hC => ?_⟩
    refine wp_mono (hc.2 rs s hrs hI hC) (fun b t hb => ?_) fun _ _ he => he
    obtain ⟨r', hI', hk⟩ := hb
    exact ⟨r', hI', ih b hk⟩

theorem obeys_op {o : Op β} {Q : β → ρ → Prop} (hpre : D.pre r β o)
    (h : ∀ rs s, rs i = r → D.inv rs s → D.cond i s β o →
      wp (D.sem i β o) (fun b t => ∃ r', D.inv (update rs i r') t ∧ Q b r') (fun _ t => D.inv rs t) s) :
    D.Obeys i (Code.op o) Q r := ⟨hpre, h⟩

/-- A thread, with what it knows of itself: it has returned and knows `r₀`, or it is on its way there. -/
def Ready (D : Discipline ι σ ε ρ Op) (r₀ : ρ) (i : ι) (c : Code Op PUnit) (r : ρ) : Prop :=
  D.Obeys i c (fun _ r' => r' = r₀) r

variable {r₀ : ρ}

theorem ready_update {code : ι → Code Op PUnit} {rs : ι → ρ} (h : ∀ j, D.Ready r₀ j (code j) (rs j))
    {c : Code Op PUnit} (hc : D.Ready r₀ i c r) (j : ι) :
    D.Ready r₀ j (update code i c j) (update rs i r j) := by
  by_cases hj : j = i
  · subst hj
    rw [update_self, update_self]
    exact hc
  · rw [update_of_ne hj, update_of_ne hj]
    exact h j

theorem reach {start : σ → ι → Code Op PUnit → Prop}
    (hstart : ∀ rs s i c, D.inv rs s → rs i = r₀ → start s i c → D.Ready r₀ i c r₀)
    {T T' : Threads ι σ Op} (hT : ∃ rs, D.inv rs T.shared ∧ ∀ i, D.Ready r₀ i (T.code i) (rs i))
    (h : Relation.ReflTransGen (Threads.StepWhen D.sem D.cond start) T T') :
    ∃ rs, D.inv rs T'.shared ∧ ∀ i, D.Ready r₀ i (T'.code i) (rs i) := by
  induction h with
  | refl => exact hT
  | tail _ hstep ih =>
    obtain ⟨rs, hI, hready⟩ := ih
    cases hstep with
    | @act i β op k b t hc hcond hr =>
      have hi := hready i
      rw [hc] at hi
      obtain ⟨r', hI', hk⟩ := (wp_iff_run.mp (hi.2 rs _ rfl hI hcond)).1 b t hr
      exact ⟨update rs i r', hI', ready_update hready hk⟩
    | @stop i β op k e t hc hcond hr =>
      have hi := hready i
      rw [hc] at hi
      exact ⟨rs, (wp_iff_run.mp (hi.2 rs _ rfl hI hcond)).2 e t hr, hready⟩
    | @start i c hc hs =>
      have hi := hready i
      rw [hc] at hi
      obtain rfl : rs i = r₀ := hi
      have := ready_update hready (hstart rs _ i c hI rfl hs)
      rw [update_eq_self] at this
      exact ⟨rs, hI, this⟩

end Discipline

end MCertiKOS.Library
