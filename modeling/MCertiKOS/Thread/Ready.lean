import MCertiKOS.Thread.Death
import Mathlib.Data.List.Rotate

/-!
# The invariant of the scheduler

The scheduler alone: `thread_spawn` behind the checks of `sys_spawn`, `thread_yield`, `thread_sleep`,
`thread_wakeup` and `sys_exit`, without signals. The idle process, pid `1`, neither sleeps nor exits ("the idle
process (pid 1) which is always alive"), and a channel is the address of an object of the kernel, so not `NULL`.

Then the "new ready process" that `thread_sleep` assumes does exist: the idle process is running or in the queue.
`Inv` keeps the queue, the states and the current process in step; `Awake` adds what the conditions give, and
`scheduler_invariant` states the whole for every run from `kern_main`.
-/

namespace MCertiKOS.Thread

open Library Memory Relation

/-! ### Steps -/

def Act.Scheduling (s : Sched) : Act → Prop
  | .spawn _ _ => True
  | .yield => True
  | .sleep chan => chan ≠ 0 ∧ s.curid ≠ 1
  | .wakeup _ => True
  | .exit => s.curid ≠ 1
  | _ => False

def SchedStep (s t : Sched) : Prop := ∃ a : Act, a.Scheduling s ∧ t = s.step a

/-- What `tqueue_dequeue` returns in a step, if the step calls it. -/
def Sched.dequeued (s : Sched) : Act → Option ℕ
  | .yield => some (tqueueDequeue (tqueueEnqueue s.links s.curid)).1
  | .sleep _ => some (tqueueDequeue s.links).1
  | .exit => some (tqueueDequeue ((s.markDead s.curid).refund s.curid).links).1
  | _ => none

/-! ### Sleepers and the idle process -/

/-- Who sleeps can be woken, and the idle process does not sleep. -/
structure Awake (s : Sched) : Prop where
  chan : ∀ p ∈ s.spawned, s.state p = .sleep → s.channel p ≠ 0
  idle : s.state 1 = .ready ∨ s.state 1 = .run

namespace Awake

variable {s : Sched}

theorem switchTo (h : Awake s) (links : Links ℕ) (p : ℕ) : Awake ({ s with links := links }.switchTo p) where
  chan r hr hst := by
    by_cases hrp : r = p
    · simp [Sched.switchTo, Sched.setState, hrp] at hst
    · exact h.chan r hr (by simpa [Sched.switchTo, Sched.setState, hrp] using hst)
  idle := by
    by_cases hp : 1 = p
    · exact .inr (by simp [Sched.switchTo, Sched.setState, hp])
    · simpa [Sched.switchTo, Sched.setState, hp] using h.idle

theorem ready (h : Awake s) (p : ℕ) : Awake (s.setState p .ready) where
  chan r hr hst := by
    by_cases hrp : r = p
    · simp [Sched.setState, hrp] at hst
    · exact h.chan r hr (by simpa [Sched.setState, hrp] using hst)
  idle := by
    by_cases hp : 1 = p
    · exact .inl (by simp [Sched.setState, hp])
    · simpa [Sched.setState, hp] using h.idle

variable {p chan : ℕ}

section

variable (h : Awake s)
include h

theorem die (hp : p ≠ 1) : Awake ((s.markDead p).refund p) where
  chan r hr hst := by
    rw [Sched.state_die] at hst
    by_cases hrp : r = p
    · simp [hrp] at hst
    · exact h.chan r hr (by simpa [hrp] using hst)
  idle := by
    rw [Sched.state_die, Function.update_of_ne hp.symm]
    exact h.idle

theorem sleep (hp : p ≠ 1) (hc : chan ≠ 0) :
    Awake ((s.setState p .sleep).setChan p chan) where
  chan r hr hst := by
    by_cases hrp : r = p
    · simpa [Sched.setState, Sched.setChan, hrp] using hc
    · have := h.chan r hr (by simpa [Sched.setState, Sched.setChan, hrp] using hst)
      simpa [Sched.setState, Sched.setChan, hrp] using this
  idle := by
    have : (1 : ℕ) ≠ p := hp.symm
    simpa [Sched.setState, Sched.setChan, this] using h.idle

theorem threadYield : Awake s.threadYield := (h.ready s.curid).switchTo _ _

theorem threadSleep (hc : chan ≠ 0) (hp : s.curid ≠ 1) : Awake (s.threadSleep chan) :=
  (h.sleep hp hc).switchTo _ _

theorem sysExit (hp : s.curid ≠ 1) : Awake s.sysExit := (h.die hp).switchTo _ _

theorem wakeOne (chan p : ℕ) : Awake (s.wakeOne chan p) := by
  unfold Sched.wakeOne
  split_ifs with hw
  · have hr := h.ready p
    refine ⟨fun r hrs hst => ?_, hr.idle⟩
    -- `p` itself is ready, so the channel it lost was not needed
    have hrp : r ≠ p := by
      rintro rfl
      simp [Sched.setState, Sched.setChan] at hst
    have := hr.chan r hrs hst
    simpa [Sched.setState, Sched.setChan, hrp] using this
  · exact h

theorem threadWakeup (chan : ℕ) : Awake (s.threadWakeup chan) := by
  unfold Sched.threadWakeup
  exact List.foldlRecOn (motive := Awake) _ _ h fun t ht p _ => ht.wakeOne chan p

theorem sysSpawn (elfId : ℕ) (quota : UInt32) : Awake (s.sysSpawn elfId quota).2 := by
  unfold Sched.sysSpawn
  split
  · exact h
  · have hr := h.ready (s.threadSpawn s.curid quota).1
    refine ⟨fun r hrs hst => ?_, hr.idle⟩
    rcases List.mem_cons.mp hrs with rfl | hrs
    · simp [Sched.threadSpawn] at hst
    · exact hr.chan r hrs hst

theorem step {a : Act} (ha : a.Scheduling s) : Awake (s.step a) := by
  cases a with
  | spawn elfId quota => exact h.sysSpawn elfId quota
  | yield => exact h.threadYield
  | sleep chan => exact h.threadSleep ha.1 ha.2
  | wakeup chan => exact h.threadWakeup chan
  | exit => exact h.sysExit ha
  | kill pid signum => exact ha.elim
  | tick => exact ha.elim
  | pause => exact ha.elim
  | alloc id => exact ha.elim
  | signals => exact ha.elim

end

end Awake

theorem awake_boot (zeroed : ℕ → Bool) (quota : UInt32) : Awake (Sched.boot zeroed quota) where
  chan p hp hst := by
    obtain rfl | rfl : p = 2 ∨ p = 1 := by simpa using hp
    · cases hst
    · cases hst
  idle := .inl rfl

/-! ### Runs -/

theorem Queued.dequeue_ne {state : ℕ → TState} {links : Links ℕ} {spawned l : List ℕ}
    (h : Queued state links spawned l) {p : ℕ} (hp : p ∈ l) : (tqueueDequeue links).1 ≠ NUM_IDS := by
  obtain ⟨r, m, rfl⟩ := List.exists_cons_of_ne_nil (List.ne_nil_of_mem hp)
  rw [tqueueDequeue_cons h.rep]
  exact h.ne_nil ((h.mem_iff r).mp (by simp)).1

namespace Inv

variable {s : Sched} {l : List ℕ}

theorem idle_mem (h : Inv s l) (ha : Awake s) (hc : s.curid ≠ 1) : 1 ∈ l := by
  rw [h.queued.mem_iff]
  refine ⟨h.idle, ha.idle.resolve_right fun hr => ?_⟩
  exact hc ((h.run_iff 1 h.idle).mp hr).symm

variable {a : Act}

theorem safe_of_scheduling (h : Inv s l) (ha : Awake s) (hs : a.Scheduling s) : a.Safe s := by
  have hne : s.curid ≠ 1 → s.readyQueue ≠ [] := by
    intro hc
    rw [h.readyQueue_eq]
    exact List.ne_nil_of_mem (h.idle_mem ha hc)
  cases a with
  | spawn elfId quota => trivial
  | yield => trivial
  | sleep chan => exact hne hs.2
  | wakeup chan => trivial
  | exit => exact .inl (hne hs)
  | kill pid signum => exact hs.elim
  | tick => exact hs.elim
  | pause => exact hs.elim
  | alloc id => exact hs.elim
  | signals => exact hs.elim

theorem dequeued_ne (h : Inv s l) (ha : Awake s) (hs : a.Scheduling s) {p : ℕ}
    (hp : s.dequeued a = some p) : p ≠ NUM_IDS := by
  cases a with
  | yield =>
    obtain rfl := Option.some.inj hp
    have h0 : s.curid ≠ 0 := fun e => h.queued.zero (e ▸ h.cur)
    have hq := h.queued.enqueue s.spawned h.cur_notMem (h.queued.bound _ h.cur) h0 (by simpa using h.cur)
    exact hq.dequeue_ne (p := s.curid) (by simp)
  | sleep chan =>
    obtain rfl := Option.some.inj hp
    exact h.queued.dequeue_ne (h.idle_mem ha hs.2)
  | exit =>
    obtain rfl := Option.some.inj hp
    have hd : s.state s.curid ≠ .dead := by
      rw [h.cur_run]
      decide
    obtain ⟨l', hb⟩ := h.die (h.queued.bound _ h.cur) hd
    have hc : (1 : ℕ) ≠ s.curid := fun e => hs e.symm
    -- the idle process was in the queue and still is
    refine hb.queued.dequeue_ne (p := 1) ?_
    rw [hb.queued.mem_iff, Sched.state_die, Function.update_of_ne hc]
    exact (h.queued.mem_iff 1).mp (h.idle_mem ha hs)
  | spawn elfId quota => cases hp
  | wakeup chan => cases hp
  | kill pid signum => exact hs.elim
  | tick => exact hs.elim
  | pause => exact hs.elim
  | alloc id => exact hs.elim
  | signals => exact hs.elim

end Inv

theorem inv_of_sched {s t : Sched} (hs : (∃ l, Inv s l) ∧ Awake s) (h : ReflTransGen SchedStep s t) :
    (∃ l, Inv t l) ∧ Awake t := by
  induction h with
  | refl => exact hs
  | tail _ hstep ih =>
    obtain ⟨⟨l, hl⟩, hawake⟩ := ih
    obtain ⟨a, ha, rfl⟩ := hstep
    exact ⟨hl.step (hl.safe_of_scheduling hawake ha), hawake.step ha⟩

/-- In every state the scheduler reaches from `kern_main`, the links of queue `NUM_IDS` spell out a list without
duplicates of exactly the ready processes, a process outside it has no links, the current process is the one that is
running, a sleeping process waits on a channel, and the next step never takes `NUM_IDS` from the queue. -/
theorem scheduler_invariant (zeroed : ℕ → Bool) (quota : UInt32) {s : Sched}
    (h : ReflTransGen SchedStep (Sched.boot zeroed quota) s) :
    (∃ l : List ℕ, l.Nodup ∧ s.links.Rep NUM_IDS l ∧ (∀ p, p ∈ l ↔ p ∈ s.spawned ∧ s.state p = .ready) ∧
        ∀ p ∈ s.spawned, p ∉ l → s.links.prev p = NUM_IDS ∧ s.links.next p = NUM_IDS) ∧
      (s.curid ∈ s.spawned ∧ ∀ p ∈ s.spawned, s.state p = .run ↔ p = s.curid) ∧
      (∀ p ∈ s.spawned, s.state p = .sleep → s.channel p ≠ 0) ∧
      ∀ a : Act, a.Scheduling s → ∀ p, s.dequeued a = some p → p ≠ NUM_IDS := by
  obtain ⟨⟨l, hl⟩, hawake⟩ := inv_of_sched ⟨⟨[1], inv_boot zeroed quota⟩, awake_boot zeroed quota⟩ h
  refine ⟨⟨l, hl.queued.rep.nodup, hl.queued.rep, hl.queued.mem_iff, hl.queued.detached⟩, ⟨hl.cur, hl.run_iff⟩,
    hawake.chan, fun a ha p hp => hl.dequeued_ne hawake ha hp⟩

theorem scheduler_invariant_sleep :
    let s := ((Sched.boot (fun _ => false) 300000).step (.spawn 6 1000)).step (.sleep 4096)
    s.curid = 1 ∧
    (∃ l : List ℕ, l.Nodup ∧ s.links.Rep NUM_IDS l ∧ (∀ p, p ∈ l ↔ p ∈ s.spawned ∧ s.state p = .ready) ∧
        ∀ p ∈ s.spawned, p ∉ l → s.links.prev p = NUM_IDS ∧ s.links.next p = NUM_IDS) ∧
      (s.curid ∈ s.spawned ∧ ∀ p ∈ s.spawned, s.state p = .run ↔ p = s.curid) ∧
      (∀ p ∈ s.spawned, s.state p = .sleep → s.channel p ≠ 0) ∧
      ∀ a : Act, a.Scheduling s → ∀ p, s.dequeued a = some p → p ≠ NUM_IDS := by
  refine ⟨by decide, scheduler_invariant (fun _ => false) 300000 ?_⟩
  refine (ReflTransGen.single ⟨.spawn 6 1000, trivial, rfl⟩).tail ⟨.sleep 4096, ?_, rfl⟩
  exact ⟨by decide, by decide⟩

/-! ### Round robin -/

theorem Sched.iterate_schedUpdate {s : Sched} (hs : s.ticks = 0) : schedUpdate^[SCHED_SLICE + 1] s = s.threadYield := by
  cases s
  cases hs
  rfl

theorem Inv.rotate {s : Sched} {l : List ℕ} (h : Inv s l) (hs : s.ticks = 0) (n : ℕ) :
    ∃ m, Inv (Sched.schedUpdate^[(SCHED_SLICE + 1) * n] s) m ∧
      (Sched.schedUpdate^[(SCHED_SLICE + 1) * n] s).curid :: m = (s.curid :: l).rotate n := by
  induction n generalizing s l with
  | zero => exact ⟨l, h, (List.rotate_zero _).symm⟩
  | succ n ih =>
    rw [Nat.mul_succ, Function.iterate_add_apply, Sched.iterate_schedUpdate hs, List.rotate_cons_succ]
    have h0 : s.curid ≠ 0 := fun e => h.queued.zero (e ▸ h.cur)
    have hq := h.queued.enqueue s.spawned h.cur_notMem (h.queued.bound _ h.cur) h0 (by simpa using h.cur)
    have hi := h.leave .ready (by decide) (by decide) hq
    rcases hl : l ++ [s.curid] with _ | ⟨p, k⟩
    · simp at hl
    · rw [hl] at hi hq
      obtain rfl : s.threadYield.curid = p := congrArg Prod.fst (tqueueDequeue_cons hq.rep)
      exact ih hi.dispatch hs

/-- Under timer interrupts alone the processes take turns in the order of the queue, `SCHED_SLICE + 1` interrupts each. -/
theorem round_robin (zeroed : ℕ → Bool) (quota : UInt32) {s : Sched} (h : ReflTransGen SafeStep (Sched.boot zeroed quota) s)
    (hs : s.ticks = 0) (n : ℕ) : let t := Sched.schedUpdate^[(SCHED_SLICE + 1) * n] s
    t.curid :: t.readyQueue = (s.curid :: s.readyQueue).rotate n := by
  obtain ⟨⟨l, hl⟩, -⟩ := inv_of_reach ⟨_, inv_boot zeroed quota⟩ h
  obtain ⟨m, hm, hrot⟩ := hl.rotate hs n
  rwa [← hl.readyQueue_eq, ← hm.readyQueue_eq] at hrot

theorem round_robin_boot : let t := Sched.schedUpdate^[6] (Sched.boot (fun _ => false) 300000)
    t.curid :: t.readyQueue = [1, 2] :=
  round_robin (fun _ => false) 300000 .refl rfl 1

end MCertiKOS.Thread
