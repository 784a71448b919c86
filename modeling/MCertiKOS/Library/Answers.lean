import MCertiKOS.Library.Code
import Mathlib.Data.Nat.Basic

/-!
# Programs and what they are answered

A program whose operations are answered from outside, by a `World` that says which answers there may be. Some answers
count: a program that goes on as long as it gets them returns only if there are finitely many. `Code.Ends` says that
a program returns, in `Q`, when at most `n` answers count, and how many are left then; `Code.Returns` is about all
such `n` up to a number. Programs are taken apart with `returns_bind`; `returns_count` is for an answer that counts,
`Code.Always` for programs that return whatever they are answered. `Code.Gives` is one run of a program, and
`Code.Returns.of_gives` what is known of it. `Code.fill` answers the operations of one of two kinds.
-/

namespace MCertiKOS.Library

/-- What a program is answered. -/
structure World (Op : Type → Type) where
  ok : ∀ β, Op β → Prop
  may : ∀ β, Op β → β → Prop
  cost : ∀ β, Op β → β → ℕ

namespace Code

variable {Op : Type → Type} {α β : Type} (W : World Op)

/-- When at most `n` answers count, the program returns, and `Q` holds of what it returns and of how many are left. -/
def Ends : Code Op α → (α → ℕ → Prop) → ℕ → Prop
  | .ret a, Q, n => Q a n
  | .act o k, Q, n => W.ok _ o ∧ ∀ b, W.may _ o b → W.cost _ o b ≤ n → Ends (k b) Q (n - W.cost _ o b)

/-- The program is given answers of which `n` count, and returns `a`. -/
inductive Gives : Code Op α → ℕ → α → Prop where
  /-- It returns. -/
  | ret {a : α} : Gives (.ret a) 0 a
  /-- An answer. -/
  | act {β : Type} {o : Op β} {k : β → Code Op α} {b : β} {n : ℕ} {a : α} (hb : W.may β o b) (h : Gives (k b) n a) :
      Gives (.act o k) (W.cost β o b + n) a

variable {W} {Q Q' : α → ℕ → Prop} {n : ℕ}

theorem Ends.mono {c : Code Op α} (h : c.Ends W Q n) (hQ : ∀ a m, Q a m → Q' a m) : c.Ends W Q' n := by
  induction c generalizing n with
  | ret a => exact hQ a n h
  | act o k ih => exact ⟨h.1, fun b hb hn => ih b (h.2 b hb hn)⟩

theorem ends_bind {c : Code Op β} {f : β → Code Op α} {P : β → ℕ → Prop} (hc : c.Ends W P n)
    (hf : ∀ b m, P b m → (f b).Ends W Q m) : (c >>= f).Ends W Q n := by
  induction c generalizing n with
  | ret b => exact hf b n hc
  | act o k ih => exact ⟨hc.1, fun b hb hn => ih b (hc.2 b hb hn)⟩

variable {m : ℕ} {a : α} {o : Op β} {p : Prop}

theorem Ends.of_gives {c : Code Op α} (h : c.Ends W Q n) (hg : c.Gives W m a) (hm : m ≤ n) :
    Q a (n - m) := by
  induction hg generalizing n with
  | ret => exact h
  | @act β o k b m a hb _ ih =>
    rw [Nat.sub_add_eq]
    exact ih (h.2 b hb (by omega)) (by omega)

/-- Whatever number of answers count, up to `N`, the program returns in `P`, and no more are left than there were. -/
def Returns (W : World Op) (N : ℕ) (c : Code Op α) (P : α → Prop) : Prop := ∀ n ≤ N, c.Ends W (fun a m => m ≤ n ∧ P a) n

variable {N M : ℕ} {P P' : α → Prop} {c : Code Op β} {f : β → Code Op α} {R : β → Prop}

@[simp] theorem returns_pure : Returns W N (pure a) P ↔ P a :=
  ⟨fun h => (h 0 (Nat.zero_le N)).2, fun h _ _ => ⟨le_rfl, h⟩⟩

theorem Returns.of_le {c : Code Op α} (h : Returns W N c P) (hM : M ≤ N) : Returns W M c P :=
  fun n hn => h n (hn.trans hM)

theorem returns_bind (hc : Returns W N c R) (hf : ∀ b, R b → Returns W N (f b) P) : Returns W N (c >>= f) P :=
  fun n hn => ends_bind (hc n hn) fun b m hb => (hf b hb.2 m (hb.1.trans hn)).mono fun _ _ ha => ⟨ha.1.trans hb.1, ha.2⟩

theorem returns_count {q : β → Prop} (ho : W.ok β o) (hq : ∀ b, q b → 0 < W.cost β o b)
    (hyes : ∀ b, W.may β o b → q b → 0 < N → Returns W (N - 1) (f b) P)
    (hno : ∀ b, W.may β o b → ¬ q b → Returns W N (f b) P) : Returns W N (op o >>= f) P := by
  intro n hn
  refine ⟨ho, fun b hb hle => ?_⟩
  have hsub := Nat.sub_le n (W.cost β o b)
  by_cases hqb : q b
  · have hpos := hq b hqb
    exact (hyes b hb hqb (by omega) _ (by omega)).mono fun _ _ ha => ⟨ha.1.trans hsub, ha.2⟩
  · exact (hno b hb hqb _ (hsub.trans hn)).mono fun _ _ ha => ⟨ha.1.trans hsub, ha.2⟩

/-- Whatever it is answered, the program returns in `P`. -/
def Always (W : World Op) : Code Op α → (α → Prop) → Prop
  | .ret a, P => P a
  | .act o k, P => W.ok _ o ∧ ∀ b, W.may _ o b → Always W (k b) P

@[simp] theorem always_pure : Always W (pure a) P ↔ P a := Iff.rfl

@[simp] theorem always_op : Always W (op o) R ↔ W.ok β o ∧ ∀ b, W.may β o b → R b := Iff.rfl

@[simp] theorem always_bind : Always W (c >>= f) P ↔ Always W c fun b => Always W (f b) P := by
  induction c with
  | ret b => exact Iff.rfl
  | act o k ih => exact and_congr_right' (forall_congr' fun b => imp_congr_right fun _ => ih b)

@[simp] theorem always_ite [Decidable p] {c d : Code Op α} :
    Always W (if p then c else d) P ↔ (p → Always W c P) ∧ (¬ p → Always W d P) := by
  by_cases hp : p <;> simp [hp]

theorem Always.mono {c : Code Op α} (h : Always W c P) (hP : ∀ a, P a → P' a) : Always W c P' := by
  induction c with
  | ret a => exact hP a h
  | act o k ih => exact ⟨h.1, fun b hb => ih b (h.2 b hb)⟩

theorem Always.returns {c : Code Op α} (h : Always W c P) : Returns W N c P := by
  intro n _
  induction c generalizing n with
  | ret a => exact ⟨le_rfl, h⟩
  | act o k ih =>
    refine ⟨h.1, fun b hb _ => ?_⟩
    have hsub := Nat.sub_le n (W.cost _ o b)
    exact (ih b (h.2 b hb) _ (by omega)).mono fun _ _ ha => ⟨ha.1.trans hsub, ha.2⟩

theorem Returns.of_gives {c : Code Op α} (h : Returns W N c P) (hg : c.Gives W m a) (hm : m ≤ N) : P a :=
  ((h m hm).of_gives hg le_rfl).2

/-! ### Answering some of the operations -/

variable {Op' : Type → Type}

/-- The program with the operations of the second kind answered. -/
def fill (answer : ∀ β, Op' β → β) : Code (fun β => Op β ⊕ Op' β) α → Code Op α
  | .ret a => .ret a
  | .act (.inl o) k => .act o fun b => (k b).fill answer
  | .act (.inr o) k => (k (answer _ o)).fill answer

variable {answer : ∀ β, Op' β → β}

@[simp] theorem fill_pure (a : α) : (pure a : Code (fun β => Op β ⊕ Op' β) α).fill answer = pure a := rfl

@[simp] theorem pure_bind_eq (b : β) (f : β → Code Op α) : (pure b >>= f : Code Op α) = f b := rfl

@[simp] theorem fill_op_inr (o : Op' β) : (Code.op (.inr o) : Code (fun β => Op β ⊕ Op' β) β).fill answer = pure (answer β o) := rfl

@[simp] theorem fill_mapOp_inl (c : Code Op α) :
    (c.mapOp fun _ => .inl : Code (fun β => Op β ⊕ Op' β) α).fill answer = c := by
  induction c with
  | ret a => rfl
  | act o k ih => exact congrArg (act o) (funext ih)

@[simp] theorem fill_bind (c : Code (fun β => Op β ⊕ Op' β) β) (f : β → Code (fun β => Op β ⊕ Op' β) α) :
    (c >>= f).fill answer = c.fill answer >>= fun b => (f b).fill answer := by
  induction c with
  | ret b => rfl
  | act o k ih =>
    cases o with
    | inl o => exact congrArg (act o) (funext ih)
    | inr o => exact ih _

@[simp] theorem fill_ite [Decidable p] (c d : Code (fun β => Op β ⊕ Op' β) α) :
    (if p then c else d).fill answer = if p then c.fill answer else d.fill answer := by
  by_cases hp : p
  · rw [if_pos hp, if_pos hp]
  · rw [if_neg hp, if_neg hp]

end Code

end MCertiKOS.Library
