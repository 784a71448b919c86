import MCertiKOS.Library.Hoare
import Mathlib.Logic.Function.Basic
import Mathlib.Logic.Relation

/-!
# Programs that take turns

A program in `Code Op α` is made of operations: it returns, or it performs one and goes on with what that returned.
What an operation does to the state is given from outside, by a `Sem`. Run alone, a program is a computation
(`Code.run`). Run with others, it may be interrupted between any two of its operations (`Threads.Step`); an operation
that stops leaves its thread where it is, to try again when it is its turn.

`Code.Safe` is the rule for programs that run with others. The threads share an invariant `I`, which also speaks of
what each thread knows of itself (`ρ`) and only it may change. Programs are taken apart with `safe_bind`, and
`Code.Safe.reach` puts the threads together.
-/

namespace MCertiKOS.Library

open Function (update update_eq_self update_of_ne update_self)

/-- A program of operations. -/
inductive Code (Op : Type → Type) (α : Type) : Type 1 where
  /-- Return. -/
  | ret (a : α)
  /-- Perform an operation and go on. -/
  | act {β : Type} (op : Op β) (k : β → Code Op α)

abbrev Sem (Op : Type → Type) (σ ε : Type) := ∀ β, Op β → Prog σ ε β

namespace Code

variable {Op : Type → Type} {α β σ ε : Type}

def bind : Code Op β → (β → Code Op α) → Code Op α
  | ret b, f => f b
  | act op k, f => act op fun b => (k b).bind f

theorem bind_ret (c : Code Op α) : c.bind ret = c := by
  induction c with
  | ret a => rfl
  | act o k ih => exact congrArg (act o) (funext ih)

theorem bind_assoc {γ : Type} (c : Code Op γ) (f : γ → Code Op β) (g : β → Code Op α) :
    (c.bind f).bind g = c.bind fun x => (f x).bind g := by
  induction c with
  | ret a => rfl
  | act o k ih => exact congrArg (act o) (funext ih)

instance : Monad (Code Op) where
  pure := ret
  bind := bind

def op (o : Op β) : Code Op β := act o ret

def mapOp {Op' : Type → Type} (f : ∀ β, Op β → Op' β) : Code Op α → Code Op' α
  | ret a => ret a
  | act o k => act (f _ o) fun b => (k b).mapOp f

def run (sem : Sem Op σ ε) : Code Op α → Prog σ ε α
  | ret a => pure a
  | act o k => sem _ o >>= fun b => (k b).run sem

end Code

section Alone

variable {Op : Type → Type} {α β σ ε : Type} {sem : Sem Op σ ε} {Q : α → σ → Prop} {E : ε → σ → Prop} {s : σ}

end Alone

/-! ### Threads -/

/-- The shared state and what each thread has left to do. -/
structure Threads (ι σ : Type) (Op : Type → Type) where
  shared : σ
  code : ι → Code Op PUnit

section Together

variable {ι σ ε ρ α β : Type} [DecidableEq ι] {Op : Type → Type}

/-- One operation of one thread. A thread that has returned may be given a new program. -/
inductive Threads.Step (sem : ι → Sem Op σ ε) (start : σ → ι → Code Op PUnit → Prop) :
    Threads ι σ Op → Threads ι σ Op → Prop where
  /-- The operation is performed. -/
  | act {T : Threads ι σ Op} {i : ι} {β : Type} {op : Op β} {k : β → Code Op PUnit} {b : β} {t : σ}
      (hc : T.code i = .act op k) (hr : (sem i β op).run T.shared = (.ok b, t)) :
      Step sem start T ⟨t, update T.code i (k b)⟩
  /-- The operation stops. -/
  | stop {T : Threads ι σ Op} {i : ι} {β : Type} {op : Op β} {k : β → Code Op PUnit} {e : ε} {t : σ}
      (hc : T.code i = .act op k) (hr : (sem i β op).run T.shared = (.error e, t)) : Step sem start T ⟨t, T.code⟩
  /-- A new program. -/
  | start {T : Threads ι σ Op} {i : ι} {c : Code Op PUnit} (hc : T.code i = .ret ⟨⟩) (hs : start T.shared i c) :
      Step sem start T ⟨T.shared, update T.code i c⟩

/-- The turn of thread `i`. -/
def Threads.turn (sem : ι → Sem Op σ ε) (T : Threads ι σ Op) (i : ι) : Threads ι σ Op :=
  match T.code i with
  | .ret _ => T
  | .act op k =>
    match (sem i _ op).run T.shared with
    | (.ok b, t) => ⟨t, update T.code i (k b)⟩
    | (.error _, t) => ⟨t, T.code⟩

/-- Thread `i` is given a program. -/
def Threads.give (T : Threads ι σ Op) (i : ι) (c : Code Op PUnit) : Threads ι σ Op :=
  ⟨T.shared, update T.code i c⟩

variable {start : σ → ι → Code Op PUnit → Prop} {P : ι → ρ → Prop}

theorem Threads.reach_turn {sem : ι → Sem Op σ ε} (T : Threads ι σ Op) (i : ι) :
    Relation.ReflTransGen (Threads.Step sem start) T (T.turn sem i) := by
  unfold Threads.turn
  cases hc : T.code i with
  | ret a => exact .refl
  | act op k =>
    dsimp only
    rcases hr : (sem i _ op).run T.shared with ⟨e | b, t⟩
    · exact .single (.stop hc hr)
    · exact .single (.act hc hr)

theorem Threads.reach_turns {sem : ι → Sem Op σ ε} (T : Threads ι σ Op)
    (is : List ι) : Relation.ReflTransGen (Threads.Step sem start) T (is.foldl (Threads.turn sem) T) := by
  induction is generalizing T with
  | nil => exact .refl
  | cons i is ih => exact (T.reach_turn i).trans (ih _)

/-- Thread `i`, which knows `r` of itself, keeps the invariant, and knows `Q` of itself when it returns. -/
def Code.Safe (sem : ι → Sem Op σ ε) (I : (ι → ρ) → σ → Prop) (i : ι) : Code Op α → (α → ρ → Prop) → ρ → Prop
  | .ret a, Q, r => Q a r
  | .act op k, Q, r => ∀ rs s, rs i = r → I rs s →
      wp (sem i _ op) (fun b t => ∃ r', I (update rs i r') t ∧ Code.Safe sem I i (k b) Q r') (fun _ t => I rs t) s

variable {sem : ι → Sem Op σ ε} {I : (ι → ρ) → σ → Prop} {i : ι} {Q : α → ρ → Prop} {r : ρ}

theorem safe_pure {a : α} (h : Q a r) : Code.Safe sem I i (pure a) Q r := h

theorem safe_bind {c : Code Op β} {f : β → Code Op α} {P : β → ρ → Prop} (hc : Code.Safe sem I i c P r)
    (hf : ∀ b r', P b r' → Code.Safe sem I i (f b) Q r') : Code.Safe sem I i (c >>= f) Q r := by
  induction c generalizing r with
  | ret b => exact hf b r hc
  | act op k ih =>
    intro rs s hrs hI
    refine wp_mono (hc rs s hrs hI) (fun b t hb => ?_) fun _ _ he => he
    obtain ⟨r', hI', hk⟩ := hb
    exact ⟨r', hI', ih b hk⟩

theorem safe_mono {c : Code Op α} {P : α → ρ → Prop} (hc : Code.Safe sem I i c P r) (h : ∀ a r', P a r' → Q a r') :
    Code.Safe sem I i c Q r := by
  induction c generalizing r with
  | ret a => exact h a r hc
  | act op k ih =>
    intro rs s hrs hI
    refine wp_mono (hc rs s hrs hI) (fun b t hb => ?_) fun _ _ he => he
    obtain ⟨r', hI', hk⟩ := hb
    exact ⟨r', hI', ih b hk⟩

theorem safe_op {o : Op β} {Q : β → ρ → Prop}
    (h : ∀ rs s, rs i = r → I rs s →
      wp (sem i β o) (fun b t => ∃ r', I (update rs i r') t ∧ Q b r') (fun _ t => I rs t) s) :
    Code.Safe sem I i (Code.op o) Q r := h

theorem safe_update {code : ι → Code Op PUnit} {rs : ι → ρ}
    (hsafe : ∀ j, Code.Safe sem I j (code j) (fun _ => P j) (rs j)) {c : Code Op PUnit}
    (hc : Code.Safe sem I i c (fun _ => P i) r) (j : ι) :
    Code.Safe sem I j (update code i c j) (fun _ => P j) (update rs i r j) := by
  by_cases hj : j = i
  · subst hj
    rw [update_self, update_self]
    exact hc
  · rw [update_of_ne hj, update_of_ne hj]
    exact hsafe j

theorem Code.Safe.reach
    (hstart : ∀ rs s i c, I rs s → P i (rs i) → start s i c → Code.Safe sem I i c (fun _ => P i) (rs i))
    {T T' : Threads ι σ Op} (hT : ∃ rs, I rs T.shared ∧ ∀ i, Code.Safe sem I i (T.code i) (fun _ => P i) (rs i))
    (h : Relation.ReflTransGen (Threads.Step sem start) T T') :
    ∃ rs, I rs T'.shared ∧ ∀ i, Code.Safe sem I i (T'.code i) (fun _ => P i) (rs i) := by
  induction h with
  | refl => exact hT
  | tail _ hstep ih =>
    obtain ⟨rs, hI, hsafe⟩ := ih
    cases hstep with
    | @act i β op k b t hc hr =>
      have hi := hsafe i
      rw [hc] at hi
      obtain ⟨r', hI', hk⟩ := (wp_iff_run.mp (hi rs _ rfl hI)).1 b t hr
      exact ⟨update rs i r', hI', safe_update hsafe hk⟩
    | @stop i β op k e t hc hr =>
      have hi := hsafe i
      rw [hc] at hi
      exact ⟨rs, (wp_iff_run.mp (hi rs _ rfl hI)).2 e t hr, hsafe⟩
    | @start i c hc hs =>
      have hi := hsafe i
      rw [hc] at hi
      have := safe_update hsafe (hstart rs _ i c hI hi hs)
      rw [update_eq_self] at this
      exact ⟨rs, hI, this⟩

end Together

end MCertiKOS.Library
