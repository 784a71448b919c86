import MCertiKOS.Library.Code

/-!
# Programs that run one after another

A machine that runs one program at a time (`Alone.Step`): when a program has
returned the next one may start, of the same thread or of another. An operation
that stops ends the run.

`Guard.Runs` is the rule for such programs. Besides what holds when the program
returns it says something of every operation on the way, in the state before it.
Programs are taken apart with `runs_bind`, a program none of whose operations
does much is dealt with at once (`runs_all`), and `Guard.reach` is about a whole
run of the machine.
-/

namespace MCertiKOS.Library

variable {ι σ ε α β : Type} {Op : Type → Type}

/-- What is asked of a program that runs alone. -/
structure Guard (σ ε : Type) (Op : Type → Type) where
  sem : Sem Op σ ε
  cond : σ → ∀ β, Op β → Prop
  ok : σ → ∀ β, Op β → Prop
  stop : ε → σ → Prop

namespace Guard

variable (G : Guard σ ε Op)

/-- Run alone from `s`, the program performs its operations where it may, and `Q` holds when it returns. -/
def Runs : Code Op α → (α → σ → Prop) → σ → Prop
  | .ret a, Q, s => Q a s
  | .act o k, Q, s => G.cond s _ o → G.ok s _ o ∧ wp (G.sem _ o) (fun b t => Runs (k b) Q t) G.stop s

variable {G} {Q Q' : α → σ → Prop} {s : σ}

@[simp] theorem runs_pure {a : α} : G.Runs (pure a) Q s ↔ Q a s := Iff.rfl

variable {c : Code Op α} {f : β → Code Op α}

theorem Runs.mono (h : G.Runs c Q s) (hQ : ∀ a t, Q a t → Q' a t) : G.Runs c Q' s := by
  induction c generalizing s with
  | ret a => exact hQ a s h
  | act o k ih => exact fun hc => ⟨(h hc).1, wp_mono (h hc).2 (fun b t hb => ih b hb) fun _ _ he => he⟩

@[simp] theorem runs_bind {c : Code Op β} :
    G.Runs (c >>= f) Q s ↔ G.Runs c (fun b t => G.Runs (f b) Q t) s := by
  induction c generalizing s with
  | ret b => exact Iff.rfl
  | act o k ih =>
    have hk : ∀ b t, G.Runs ((k b).bind f) Q t ↔ G.Runs (k b) (fun b t => G.Runs (f b) Q t) t := fun b _ => ih b
    show (_ → _ ∧ wp _ (fun b t => G.Runs ((k b).bind f) Q t) _ s) ↔ _
    simp only [hk]
    rfl

theorem Runs.bind {c : Code Op β} {P : β → σ → Prop} (h : G.Runs c P s)
    (hf : ∀ b t, P b t → G.Runs (f b) Q t) : G.Runs (c >>= f) Q s :=
  runs_bind.mpr (h.mono hf)

theorem Runs.weaken {G' : Guard σ ε Op} (h : G.Runs c Q s) (hsem : G'.sem = G.sem)
    (hcond : ∀ s β o, G'.cond s β o → G.cond s β o) (hok : ∀ s β o, G.ok s β o → G'.ok s β o) (hstop : ∀ e s, G.stop e s → G'.stop e s) :
    G'.Runs c Q s := by
  induction c generalizing s with
  | ret a => exact h
  | act o k ih =>
    intro hc
    obtain ⟨ho, hwp⟩ := h (hcond _ _ _ hc)
    rw [← hsem] at hwp
    exact ⟨hok _ _ _ ho, wp_mono hwp (fun b t hb => ih b hb) hstop⟩

theorem Runs.wp_run (h : G.Runs c Q s) (hcond : ∀ s β o, G.cond s β o) : wp (c.run G.sem) Q G.stop s := by
  induction c generalizing s with
  | ret a => exact h
  | act o k ih =>
    show wp (G.sem _ o >>= fun b => (k b).run G.sem) Q G.stop s
    rw [wp_bind]
    exact wp_mono (h (hcond ..)).2 (fun b t hb => ih b hb) fun _ _ he => he

end Guard

/-! ### Programs of some operations only -/

/-- Every operation of the program satisfies `P`. -/
def Code.All (P : ∀ β, Op β → Prop) : Code Op α → Prop
  | .ret _ => True
  | .act o k => P _ o ∧ ∀ b, (k b).All P

section All

variable {P : ∀ β, Op β → Prop}

@[simp] theorem all_pure {a : α} : (pure a : Code Op α).All P ↔ True := Iff.rfl

variable {o : Op β}

theorem all_act {k : β → Code Op α} : (Code.act o k).All P ↔ P β o ∧ ∀ b, (k b).All P := Iff.rfl

@[simp] theorem all_op : (Code.op o).All P ↔ P β o := ⟨fun h => h.1, fun h => ⟨h, fun _ => trivial⟩⟩

theorem all_bind {c : Code Op β} {f : β → Code Op α} (hc : c.All P) (hf : ∀ b, (f b).All P) : (c >>= f).All P := by
  induction c with
  | ret b => exact hf b
  | act o k ih => exact ⟨hc.1, fun b => ih b (hc.2 b)⟩

/-- The program may return `a`. -/
def Code.MayReturn : Code Op α → α → Prop
  | .ret a, b => a = b
  | .act _ k, b => ∃ x, (k x).MayReturn b

@[simp] theorem all_bind_iff {c : Code Op β} {f : β → Code Op α} (hc : c.All P) :
    (c >>= f).All P ↔ ∀ b, c.MayReturn b → (f b).All P := by
  induction c with
  | ret b => exact ⟨fun h _ e => e ▸ h, fun h => h b rfl⟩
  | act o k ih =>
    have hk := fun x => ih x (hc.2 x)
    exact ⟨fun h b ⟨x, hx⟩ => (hk x).mp (h.2 x) b hx, fun h => ⟨hc.1, fun x => (hk x).mpr fun b hb => h b ⟨x, hb⟩⟩⟩

@[simp] theorem all_ite_iff {p : Prop} [Decidable p] {c d : Code Op α} :
    (if p then c else d).All P ↔ (p → c.All P) ∧ (¬ p → d.All P) := by
  split_ifs with h <;> simp [h]

theorem all_mapOp {Op' : Type → Type} {f : ∀ β, Op' β → Op β} (h : ∀ β o, P β (f β o)) (c : Code Op' α) : (c.mapOp f).All P := by
  induction c with
  | ret a => trivial
  | act o k ih => exact ⟨h _ o, ih⟩

theorem Guard.runs_all {G : Guard σ ε Op} {R : σ → σ → Prop} (hrefl : ∀ s, R s s) (htrans : ∀ {s t u}, R s t → R t u → R s u)
    (hP : ∀ β (o : Op β), P β o → ∀ s, G.cond s β o → G.ok s β o ∧ wp (G.sem β o) (fun _ t => R s t) G.stop s)
    {c : Code Op α} (h : c.All P) (s : σ) : G.Runs c (fun _ t => R s t) s := by
  induction c generalizing s with
  | ret a => exact hrefl s
  | act o k ih =>
    intro hc
    obtain ⟨hok, hwp⟩ := hP _ o h.1 s hc
    refine ⟨hok, wp_mono hwp (fun b t hb => ?_) fun _ _ he => he⟩
    exact (ih b (h.2 b) t).mono fun _ _ ht => htrans hb ht

-- programs are not to be evaluated to see which operations they have
attribute [irreducible] Code.All

end All

/-! ### A machine that runs one program at a time -/

/-- The state, the thread that runs, and what it has left to do. -/
structure Alone (ι σ : Type) (Op : Type → Type) where
  shared : σ
  turn : ι
  code : Code Op PUnit

/-- One operation, in a state that meets the condition; or a new program, when the last one has returned. -/
inductive Alone.Step (sem : ι → Sem Op σ ε) (cond : σ → ∀ β, Op β → Prop) (start : σ → ι → Code Op PUnit → Prop) :
    Alone ι σ Op → Alone ι σ Op → Prop where
  /-- The operation is performed. -/
  | act {S : Alone ι σ Op} {β : Type} {op : Op β} {k : β → Code Op PUnit} {b : β} {t : σ} (hc : S.code = .act op k)
      (hcond : cond S.shared β op) (hr : (sem S.turn β op).run S.shared = (.ok b, t)) :
      Step sem cond start S ⟨t, S.turn, k b⟩
  /-- A new program. -/
  | start {S : Alone ι σ Op} {i : ι} {c : Code Op PUnit} (hc : S.code = .ret ⟨⟩) (hs : start S.shared i c) :
      Step sem cond start S ⟨S.shared, i, c⟩

/-- The program run alone, if every operation is performed in a state that passes `ok` and none stops. -/
def Code.exec (sem : Sem Op σ ε) (ok : σ → ∀ β, Op β → Bool) : Code Op α → σ → Option (α × σ)
  | .ret a, s => some (a, s)
  | .act o k, s =>
    if ok s _ o then
      match (sem _ o).run s with
      | (.ok b, t) => (k b).exec sem ok t
      | (.error _, _) => none
    else none

variable {sem : ι → Sem Op σ ε} {cond : σ → ∀ β, Op β → Prop} {start : σ → ι → Code Op PUnit → Prop}

theorem Alone.reach_exec
    {ok : σ → ∀ β, Op β → Bool} (hok : ∀ s β o, ok s β o = true → cond s β o) {i : ι} {c : Code Op PUnit} {s t : σ}
    (h : c.exec (sem i) ok s = some (⟨⟩, t)) :
    Relation.ReflTransGen (Alone.Step sem cond start) ⟨s, i, c⟩ ⟨t, i, .ret ⟨⟩⟩ := by
  induction c generalizing s with
  | ret a =>
    cases h
    exact .refl
  | act o k ih =>
    unfold Code.exec at h
    split_ifs at h with ho
    split at h
    · rename_i b u hr
      exact .head (.act rfl (hok _ _ _ ho) hr) (ih b h)
    · cases h

/-- Programs that keep an invariant when they run alone keep it one after another, and perform their operations where they
may. -/
theorem Guard.reach {ok : σ → ∀ β, Op β → Prop} {stop : ε → σ → Prop}
    {I : σ → Prop}
    (hstart : ∀ s i c, I s → start s i c → (Guard.mk (sem i) cond ok stop).Runs c (fun _ => I) s) {S S' : Alone ι σ Op}
    (hS : (Guard.mk (sem S.turn) cond ok stop).Runs S.code (fun _ => I) S.shared)
    (h : Relation.ReflTransGen (Alone.Step sem cond start) S S') :
    (Guard.mk (sem S'.turn) cond ok stop).Runs S'.code (fun _ => I) S'.shared := by
  induction h with
  | refl => exact hS
  | tail _ hstep ih =>
    cases hstep with
    | act hc hcond hr =>
      rw [hc] at ih
      exact (wp_iff_run.mp (ih hcond).2).1 _ _ hr
    | start hc hs =>
      rw [hc] at ih
      exact hstart _ _ _ ih hs

end MCertiKOS.Library
