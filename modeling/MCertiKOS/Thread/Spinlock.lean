import Mathlib.Data.BitVec

/-!
# Spin locks

`kern/lib/spinlock.c` without `DEBUG_LOCKHOLDING`. The CPUs interleave at each access; only a holder releases.
-/

namespace MCertiKOS.Thread.Spinlock

open Function (update)

abbrev NUM_CPUS : ℕ := 8

/-- A CPU is without the lock (it may be in the loop of `spinlock_acquire_A`), has `0` from `xchg`, holds the lock, or is in
`spinlock_release_A` before `xchg`. -/
inductive Pc where
  | out
  | got
  | held
  | leaving

/-- `spinlock_t`, and the CPUs. -/
structure State where
  lockHolder : ℕ
  lock : ℕ
  pc : Fin NUM_CPUS → Pc

def spinlockInit : State := ⟨NUM_CPUS + 1, 0, fun _ => .out⟩

/-- The next access of CPU `c`: `xchg(&lk->lock, 1)`, a store to `lock_holder`, or `xchg(&lk->lock, 0)`. -/
def State.step (s : State) (c : Fin NUM_CPUS) : State :=
  match s.pc c with
  | .out => { s with lock := 1, pc := if s.lock = 0 then update s.pc c .got else s.pc }
  | .got => { s with lockHolder := c, pc := update s.pc c .held }
  | .held => { s with lockHolder := NUM_CPUS + 1, pc := update s.pc c .leaving }
  | .leaving => { s with lock := 0, pc := update s.pc c .out }

def State.spinlockHolding (s : State) (c : Fin NUM_CPUS) : Bool := s.lock ≠ 0 ∧ s.lockHolder = c

structure Inv (s : State) : Prop where
  free : s.lock = 0 → ∀ c, s.pc c = .out
  excl : ∀ c d, s.pc c ≠ .out → s.pc d ≠ .out → c = d
  holder : ∀ c : Fin NUM_CPUS, s.lockHolder = c ↔ s.pc c = .held

theorem inv_spinlockInit : Inv spinlockInit := by
  constructor <;> grind [spinlockInit]

theorem Inv.step {s : State} (h : Inv s) (c : Fin NUM_CPUS) : Inv (s.step c) := by
  obtain ⟨hfree, hexcl, hholder⟩ := h
  unfold State.step
  cases hc : s.pc c <;> constructor <;> grind [Function.update_apply]

/-- However the CPUs interleave, one at a time has the lock, and `spinlock_holding` tells whether it is this one. -/
theorem spinlock_excludes (cs : List (Fin NUM_CPUS)) :
    let s := cs.foldl State.step spinlockInit
    (∀ c d, s.pc c ≠ .out → s.pc d ≠ .out → c = d) ∧ ∀ c, s.spinlockHolding c ↔ s.pc c = .held := by
  have h := List.foldlRecOn (motive := Inv) cs State.step inv_spinlockInit fun s h c _ => h.step c
  refine ⟨h.excl, fun c => ?_⟩
  rw [← h.holder, State.spinlockHolding, decide_eq_true_iff]
  refine ⟨And.right, fun hc => ⟨fun h0 => ?_, hc⟩⟩
  cases (h.free h0 c).symm.trans ((h.holder c).mp hc)

end MCertiKOS.Thread.Spinlock
