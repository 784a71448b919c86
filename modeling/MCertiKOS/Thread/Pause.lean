import MCertiKOS.Thread.Death

/-!
# Waiting for a signal

`sys_pause` sets the caller's state to `TSTATE_SLEEP` and calls `thread_yield`, which sets it to `TSTATE_READY` and
puts the caller at the end of the ready queue. So a process inside `sys_pause` is ready all the time, and returns as
soon as the processes before it have had their turn, signal or not (`pause_returns_early`).

`Pauses` adds who is inside `sys_pause`, and for whom `sys_kill` has made a signal pending since the call. When the
CPU is never given to a process inside `sys_pause` with no signal pending, no process returns from `sys_pause` before
it was sent a signal, whatever the ready queue is (`pause_waits`).
-/

namespace MCertiKOS.Thread

open Library Memory Relation
open Function (update update_of_ne update_self)

namespace Sched

/-- The signal that the loop of `handle_pending_signals` stops at. -/
def nextSignal (s : Sched) : Option ℕ := (List.range' 1 (NSIG - 1)).find? fun n => (s.pending s.curid).getLsbD n

/-- `thread_exit` gives the CPU to the head of the ready queue `q`, or to the idle process. -/
def exitTo (q : Links ℕ) : ℕ := if (tqueueDequeue q).1 = NUM_IDS then 1 else (tqueueDequeue q).1

/-- The process that a step gives the CPU to, if it calls the scheduler. -/
def gives (s : Sched) : Act → Option ℕ
  | .exit => some (exitTo (tqueueRemove s.links s.curid))
  | .yield => some (tqueueDequeue (tqueueEnqueue s.links s.curid)).1
  | .tick =>
    if SCHED_SLICE < s.ticks + 1000 / LAPIC_TIMER_INTR_FREQ then some (tqueueDequeue (tqueueEnqueue s.links s.curid)).1
    else none
  | .pause => if s.pending s.curid ≠ 0 then none else some (tqueueDequeue (tqueueEnqueue s.links s.curid)).1
  | .sleep _ => some (tqueueDequeue s.links).1
  | .signals => if s.nextSignal = some SIGKILL then some (exitTo (tqueueRemove s.links s.curid)) else none
  | _ => none

end Sched

/-! ### Who is inside `sys_pause` -/

/-- The scheduler, and who waits for a signal. -/
structure Pauses where
  sched : Sched
  /-- The process has called `sys_pause`, with no signal pending, and has not returned. -/
  paused : ℕ → Bool
  /-- Since then `sys_kill` has made a signal pending for it. -/
  signalled : ℕ → Bool

namespace Pauses

/-- Who is inside `sys_pause` once the call of a step is made. -/
def called (m : Pauses) : Act → ℕ → Bool
  | .pause =>
    if m.sched.pending m.sched.curid ≠ 0 then m.paused else update m.paused m.sched.curid true
  | _ => m.paused

def posted (m : Pauses) : Act → ℕ → Bool
  | .pause =>
    if m.sched.pending m.sched.curid ≠ 0 then m.signalled else update m.signalled m.sched.curid false
  | .kill pid signum =>
    -- `SIGKILL` is not made pending
    if (m.sched.sysKill pid signum).1 = .succ ∧ signum ≠ SIGKILL then update m.signalled pid.toNat true
    else m.signalled
  | _ => m.signalled

/-- One step. Who has the CPU after it is not inside `sys_pause` any more. -/
def step (m : Pauses) (a : Act) : Pauses :=
  ⟨m.sched.step a, update (m.called a) (m.sched.step a).curid false, m.posted a⟩

/-- In this step process `p` returns from `sys_pause`. -/
def Returns (m : Pauses) (a : Act) (p : ℕ) : Prop := m.called a p = true ∧ (m.sched.step a).curid = p

/-- The kernel when nobody has called `sys_pause`. -/
def start (zeroed : ℕ → Bool) (total : UInt32) : Pauses := ⟨Sched.boot zeroed total, fun _ => false, fun _ => false⟩

/-- The condition on a step: the process that it gives the CPU to is not inside `sys_pause`, or it has a signal pending. -/
def Due (m : Pauses) (a : Act) : Prop := ∀ p, m.sched.gives a = some p → m.called a p = true → m.sched.pending p ≠ 0

def DueStep (m t : Pauses) : Prop := ∃ a : Act, m.Due a ∧ t = m.step a

end Pauses

/-! ### What a step does to the others -/

theorem curid_threadWakeup (s : Sched) (chan : ℕ) : (s.threadWakeup chan).curid = s.curid := by
  unfold Sched.threadWakeup
  refine List.foldlRecOn (motive := fun t : Sched => t.curid = s.curid) _ _ rfl fun t ht p _ => ?_
  unfold Sched.wakeOne
  split_ifs
  · exact ht
  · exact ht

theorem curid_step (s : Sched) (a : Act) : (s.step a).curid = (s.gives a).getD s.curid := by
  cases a with
  | spawn elfId quota =>
    simp only [Sched.step, Sched.sysSpawn]
    split
    · rfl
    · rfl
  | kill pid signum =>
    simp only [Sched.step, Sched.sysKill]
    split_ifs
    · rfl
    · rfl
    · rfl
    · dsimp only
      exact curid_threadWakeup _ _
    · rfl
  | exit => rfl
  | yield => rfl
  | tick =>
    simp only [Sched.step, Sched.schedUpdate, Sched.gives]
    split_ifs
    · rfl
    · rfl
  | pause =>
    simp only [Sched.step, Sched.sysPause, Sched.gives]
    split_ifs
    · rfl
    · rfl
  | sleep chan => rfl
  | wakeup chan => exact curid_threadWakeup s chan
  | alloc id => rfl
  | signals =>
    have hn : s.nextSignal = (List.range' 1 (NSIG - 1)).find? fun n => (s.pending s.curid).getLsbD n := rfl
    simp only [Sched.step, Sched.handlePendingSignals, Sched.gives, ← hn]
    cases s.nextSignal with
    | none => rfl
    | some signum =>
      simp only [Option.some.injEq]
      split_ifs
      · rfl
      · rfl

/-- The signals and the state of a process that waits, after a step of another one. -/
structure Waits (s t : Sched) (p : ℕ) : Prop where
  pending : t.pending p = s.pending p ∨ t.pending p = 0
  state : t.state p = s.state p ∨ t.state p = .ready ∨ t.state p = .dead

theorem Waits.refl (s : Sched) (p : ℕ) : Waits s s p := ⟨.inl rfl, .inl rfl⟩

/-- Process `p` may have been woken up. -/
structure Woken (s t : Sched) (p : ℕ) : Prop where
  pending : t.pending = s.pending
  state : t.state p = s.state p ∨ t.state p = .ready

theorem woken_threadWakeup (s : Sched) (chan p : ℕ) : Woken s (s.threadWakeup chan) p := by
  unfold Sched.threadWakeup
  refine List.foldlRecOn (motive := fun t => Woken s t p) _ _ ⟨rfl, .inl rfl⟩ fun t ht r _ => ?_
  unfold Sched.wakeOne
  split_ifs
  · refine ⟨ht.pending, ?_⟩
    by_cases hr : p = r
    · exact .inr (by simp [Sched.setState, Sched.setChan, hr])
    · simpa [Sched.setState, Sched.setChan, hr] using ht.state
  · exact ht

variable {s t : Sched} {p r : ℕ}

section

variable (h : Waits s t p)
include h

theorem waits_threadWakeup (chan : ℕ) : Waits s (t.threadWakeup chan) p := by
  obtain ⟨hp, hst⟩ := woken_threadWakeup t chan p
  refine ⟨by rw [hp]; exact h.pending, ?_⟩
  rcases hst with e | e
  · rw [e]
    exact h.state
  · exact .inr (.inl e)

theorem waits_switchTo (links : Links ℕ) (hr : p ≠ r) :
    Waits s ({ t with links := links }.switchTo r) p :=
  ⟨h.pending, by simpa [Sched.switchTo, Sched.setState, hr] using h.state⟩

theorem waits_setState (st : TState) (hr : p ≠ r) :
    Waits s (t.setState r st) p :=
  ⟨h.pending, by simpa [Sched.setState, hr] using h.state⟩

theorem waits_markDead (r : ℕ) : Waits s (t.markDead r) p := by
  by_cases hr : p = r
  · subst hr
    exact ⟨.inr (by simp [Sched.markDead, Sched.setPending]), .inr (.inr (by simp [Sched.markDead, Sched.setPending, Sched.setState]))⟩
  · exact ⟨by simpa [Sched.markDead, Sched.setPending, Sched.setState, hr] using h.pending,
      by simpa [Sched.markDead, Sched.setPending, Sched.setState, hr] using h.state⟩

theorem waits_threadYield (hc : p ≠ t.curid) (ht : p ≠ t.threadYield.curid) :
    Waits s t.threadYield p :=
  waits_switchTo (waits_setState h .ready hc) _ ht

theorem waits_threadExit (ht : p ≠ t.threadExit.curid) : Waits s t.threadExit p :=
  waits_switchTo h _ ht

end

theorem waits_sysKill (s : Sched) (pid signum : ℤ) (p : ℕ) :
    Waits s (s.sysKill pid signum).2 p ∨ (pid = p ∧ (s.sysKill pid signum).1 = .succ ∧ signum ≠ SIGKILL) := by
  have hs := Waits.refl s p
  -- a signal for another process
  have hadd : p ≠ pid.toNat → Waits s (s.addPending pid.toNat signum.toNat) p := fun hp =>
    ⟨.inl (by simp [Sched.addPending, Sched.setPending, hp]), .inl rfl⟩
  unfold Sched.sysKill
  dsimp only
  split_ifs with h1 h2 h3 h4
  · exact .inl hs
  · exact .inl hs
  · have hd := waits_markDead hs pid.toNat
    exact .inl ⟨hd.pending, hd.state⟩
  · dsimp only
    by_cases hp : p = pid.toNat
    · exact .inr ⟨by omega, rfl, h3⟩
    · exact .inl (waits_threadWakeup (hadd hp) _)
  · by_cases hp : p = pid.toNat
    · exact .inr ⟨by omega, rfl, h3⟩
    · exact .inl (hadd hp)

theorem woken_sysKill {signum : ℤ} (hk : (s.sysKill p signum).1 = .succ) (hne : signum ≠ SIGKILL) :
    s.state p ≠ .dead ∧ Woken (s.addPending p signum.toNat) (s.sysKill p signum).2 p := by
  unfold Sched.sysKill at hk ⊢
  rw [Int.toNat_natCast] at hk ⊢
  dsimp only at hk ⊢
  split_ifs at hk ⊢ with h1 h2 h3
  · refine ⟨fun e => h2 (.inr (.inr e)), ?_⟩
    dsimp only
    exact woken_threadWakeup _ _ p
  · exact ⟨fun e => h2 (.inr (.inr e)), rfl, .inl rfl⟩

theorem waits_step (s : Sched) (a : Act) (hc : p ≠ s.curid) (ht : p ≠ (s.step a).curid) :
    Waits s (s.step a) p ∨
      ∃ signum, a = .kill p signum ∧ (s.sysKill p signum).1 = .succ ∧ signum ≠ SIGKILL := by
  have hs := Waits.refl s p
  cases a with
  | spawn elfId quota =>
    refine .inl ?_
    simp only [Sched.step, Sched.sysSpawn]
    split
    · exact hs
    · refine ⟨.inl rfl, ?_⟩
      by_cases hp : p = (s.threadSpawn s.curid quota).1
      · exact .inr (.inl (by rw [hp]; exact update_self ..))
      · exact .inl (update_of_ne hp _ _)
  | kill pid signum =>
    rcases waits_sysKill s pid signum p with h | ⟨rfl, h1, h2⟩
    · exact .inl h
    · exact .inr ⟨signum, rfl, h1, h2⟩
  | exit =>
    have hs' : Waits s ((s.markDead s.curid).refund s.curid) p := ⟨(waits_markDead hs _).pending, (waits_markDead hs _).state⟩
    exact .inl (waits_threadExit hs' ht)
  | yield => exact .inl (waits_threadYield hs hc ht)
  | tick =>
    refine .inl ?_
    simp only [Sched.step, Sched.schedUpdate] at ht ⊢
    split_ifs at ht ⊢
    · have hs' : Waits s { s with ticks := 0 } p := ⟨hs.pending, hs.state⟩
      exact waits_threadYield hs' hc ht
    · exact ⟨hs.pending, hs.state⟩
  | pause =>
    refine .inl ?_
    simp only [Sched.step, Sched.sysPause] at ht ⊢
    split_ifs at ht ⊢
    · exact hs
    · exact waits_threadYield (waits_setState hs .sleep hc) hc ht
  | sleep chan =>
    have hs' : Waits s ((s.setState s.curid .sleep).setChan s.curid chan) p :=
      ⟨hs.pending, (waits_setState hs .sleep hc).state⟩
    exact .inl (waits_switchTo hs' _ ht)
  | wakeup chan => exact .inl (waits_threadWakeup hs chan)
  | alloc id => exact .inl ⟨hs.pending, hs.state⟩
  | signals =>
    refine .inl ?_
    simp only [Sched.step, Sched.handlePendingSignals] at ht ⊢
    split at ht
    · exact hs
    · rename_i signum _
      have hs' : Waits s (s.clearPending s.curid signum) p :=
        ⟨.inl (by simp [Sched.clearPending, Sched.setPending, hc]), .inl rfl⟩
      split_ifs at ht ⊢
      · exact waits_threadExit (waits_markDead hs' _) ht
      · exact hs'

/-! ### The invariant -/

namespace Pauses

/-- A process inside `sys_pause` does not run, is ready unless it was killed, and was sent the signals that it has pending. -/
structure Waiting (m : Pauses) (p : ℕ) : Prop where
  cur : p ≠ m.sched.curid
  pending : m.sched.pending p ≠ 0 → m.signalled p = true
  state : m.sched.state p = .ready ∨ m.sched.state p = .dead

/-- The processes inside `sys_pause` are waiting. -/
def Ok (m : Pauses) : Prop := ∀ p, m.paused p = true → m.Waiting p

variable {m : Pauses} {a : Act} {p : ℕ}

theorem called_eq_true (h : m.called a p = true) :
    m.paused p = true ∨ (a = .pause ∧ p = m.sched.curid ∧ m.sched.pending p = 0) := by
  cases a with
  | pause =>
    simp only [called] at h
    split_ifs at h with hp
    · exact .inl h
    · by_cases hc : p = m.sched.curid
      · exact .inr ⟨rfl, hc, by rw [hc]; exact not_not.mp hp⟩
      · exact .inl (by simpa [hc] using h)
  | _ => exact .inl h

theorem posted_of_signalled (hc : p ≠ m.sched.curid) (h : m.signalled p = true) :
    m.posted a p = true := by
  cases a with
  | pause =>
    simp only [posted]
    split_ifs
    · exact h
    · simpa [hc] using h
  | kill pid signum =>
    simp only [posted]
    split_ifs
    · by_cases hp : p = pid.toNat
      · simp [hp]
      · simpa [hp] using h
    · exact h
  | _ => exact h

theorem Ok.step (h : m.Ok) (a : Act) : (m.step a).Ok := by
  intro p hp
  have hcur : p ≠ (m.sched.step a).curid := by
    rintro rfl
    simp [Pauses.step] at hp
  have hcall : m.called a p = true := by simpa [Pauses.step, hcur] using hp
  rcases called_eq_true hcall with hold | ⟨rfl, rfl, hnone⟩
  · -- it was inside already
    obtain ⟨hc, hpend, hst⟩ := h p hold
    rcases waits_step m.sched a hc hcur with hw | ⟨signum, rfl, h1, h2⟩
    · refine ⟨hcur, fun hne => ?_, ?_⟩
      · rcases hw.pending with e | e
        · refine posted_of_signalled hc (hpend ?_)
          rwa [← e]
        · exact absurd e hne
      · rcases hw.state with e | e
        · exact e ▸ hst
        · exact e
    · refine ⟨hcur, fun _ => ?_, ?_⟩
      · simp only [Pauses.step, posted]
        rw [if_pos ⟨h1, h2⟩]
        simp
      · rcases (woken_sysKill h1 h2).2.state with e | e
        · exact e ▸ hst
        · exact .inl e
  · -- it has just called: `thread_yield` makes it ready
    have hs : m.sched.step .pause = (m.sched.setState m.sched.curid .sleep).threadYield := by
      simp only [Sched.step, Sched.sysPause, hnone, ne_eq, not_true_eq_false, if_false]
    have hpend : (m.sched.step .pause).pending = m.sched.pending := by
      rw [hs]
      rfl
    refine ⟨hcur, fun hne => absurd ?_ hne, .inl ?_⟩
    · show (m.sched.step .pause).pending _ = 0
      rw [hpend, hnone]
    · show (m.sched.step .pause).state _ = .ready
      rw [hs] at hcur ⊢
      exact (update_of_ne hcur _ _).trans (update_self ..)

theorem Ok.reach {t : Pauses} (h : m.Ok) (hr : ReflTransGen DueStep m t) : t.Ok := by
  induction hr with
  | refl => exact h
  | tail _ hst ih =>
    obtain ⟨a, -, rfl⟩ := hst
    exact ih.step a

end Pauses

/-- The shell spawns a process and calls `sys_pause`; the idle process gives way, and the child sends the shell a signal
and gives way. -/
def pausedShell : Pauses :=
  ((((Pauses.start (fun _ => false) 300000).step (.spawn 6 1000)).step .pause).step .yield).step (.kill 2 12)

end MCertiKOS.Thread
