import MCertiKOS.Thread.Scheduler
import Mathlib.Logic.Relation

/-!
# Death of a process

A process that has died is never scheduled again, and gives its quota back once.

The kernel ensures this only as far as a killed process is not the one that is running. `sys_kill` of the caller
marks it dead and returns; the caller goes on, and the next `thread_yield` makes it ready again
(`self_kill_not_final`). Runs are therefore taken under a condition on each step, `Act.Safe`: no process sends itself
`SIGKILL`, `thread_sleep` finds a ready thread ("here we assume a new ready process always exists"), and
`thread_exit` finds one or can fall back to an idle process that is alive.

`Queued` relates the links, the states and a list of pids, `Inv` adds the running process and the accounts, and
`Idle` is what holds inside the kernel between two processes.
-/

namespace MCertiKOS.Thread

open Library Memory Relation List Links
open Function (update update_apply update_of_ne)

/-! ### Steps -/

/-- What the kernel does on behalf of the running process, or at an interrupt. -/
inductive Act where
  /-- `sys_spawn`. -/
  | spawn (elfId : ℕ) (quota : UInt32)
  /-- `sys_kill`. -/
  | kill (pid signum : ℤ)
  /-- `sys_exit`. -/
  | exit
  /-- `sys_yield`. -/
  | yield
  /-- A timer interrupt. -/
  | tick
  /-- `sys_pause`. -/
  | pause
  /-- A system call puts its caller to sleep. -/
  | sleep (chan : ℕ)
  /-- A system call wakes the sleepers of a channel. -/
  | wakeup (chan : ℕ)
  /-- A page is charged to a process. -/
  | alloc (id : ℕ)
  /-- Return to the user program. -/
  | signals

def Sched.step (s : Sched) : Act → Sched
  | .spawn elfId quota => (s.sysSpawn elfId quota).2
  | .kill pid signum => (s.sysKill pid signum).2
  | .exit => s.sysExit
  | .yield => s.threadYield
  | .tick => s.schedUpdate
  | .pause => s.sysPause
  | .sleep chan => s.threadSleep chan
  | .wakeup chan => s.threadWakeup chan
  | .alloc id => { s with container := (containerAlloc s.container id).2 }
  | .signals => s.handlePendingSignals

/-- The condition on a step in state `s`. -/
def Act.Safe (s : Sched) : Act → Prop
  | .kill pid signum => signum = SIGKILL → pid ≠ s.curid
  | .exit => s.readyQueue ≠ [] ∨ (s.curid ≠ 1 ∧ s.state 1 ≠ .dead)
  | .sleep _ => s.readyQueue ≠ []
  | _ => True

def SafeStep (s t : Sched) : Prop := ∃ a : Act, a.Safe s ∧ t = s.step a

/-! ### The ready queue and the states -/

/-- The links spell out `l`, the ready processes among those spawned. -/
structure Queued (state : ℕ → TState) (links : Links ℕ) (spawned l : List ℕ) : Prop where
  rep : links.Rep NUM_IDS l
  mem_iff : ∀ p, p ∈ l ↔ p ∈ spawned ∧ state p = .ready
  bound : ∀ p ∈ spawned, p < NUM_IDS
  zero : 0 ∉ spawned
  detached : ∀ p ∈ spawned, p ∉ l → links.prev p = NUM_IDS ∧ links.next p = NUM_IDS
  /-- A block not in use is not asleep, and its links are those of `tcb_init_at_id` or zeros. -/
  fresh : ∀ p < NUM_IDS, p ∉ spawned → state p ≠ .sleep ∧
    ((links.prev p = 0 ∧ links.next p = 0) ∨ (links.prev p = NUM_IDS ∧ links.next p = NUM_IDS))

namespace Queued

variable {state : ℕ → TState} {links : Links ℕ} {spawned l l₁ l₂ : List ℕ} {p : ℕ}

section

variable (h : Queued state links spawned l)
include h

theorem ne_nil (hp : p ∈ spawned) : p ≠ NUM_IDS := (h.bound p hp).ne

theorem length_le : l.length ≤ NUM_IDS := by
  have hsub : l ⊆ List.range NUM_IDS := fun p hp => mem_range.mpr (h.bound p ((h.mem_iff p).mp hp).1)
  simpa using (subperm_of_subset h.rep.nodup hsub).length_le

theorem setState (hl : p ∉ l) (st : TState) (hst : st ≠ .ready)
    (hp : p ∈ spawned ∨ st ≠ .sleep) : Queued (update state p st) links spawned l where
  rep := h.rep
  mem_iff r := by
    by_cases hr : r = p
    · subst hr
      simp [hl, hst]
    · simpa [hr] using h.mem_iff r
  bound := h.bound
  zero := h.zero
  detached := h.detached
  fresh r hr hrs := by
    refine ⟨?_, (h.fresh r hr hrs).2⟩
    by_cases hrp : r = p
    · subst hrp
      simpa using hp.resolve_left hrs
    · simpa [hrp] using (h.fresh r hr hrs).1

theorem enqueue (spawned' : List ℕ) (hp : p ∉ l) (hlt : p < NUM_IDS) (hp0 : p ≠ 0)
    (hs : ∀ r, r ∈ spawned' ↔ r = p ∨ r ∈ spawned) :
    Queued (update state p .ready) (tqueueEnqueue links p) spawned' (l ++ [p]) := by
  rw [tqueueEnqueue_eq links hlt.ne]
  -- blocks other than `p` outside the queue keep their links
  have hframe : ∀ r < NUM_IDS, r ∉ l → r ≠ p → _ := fun r hr hrl hrp =>
    h.rep.enqueue_frame (i := p) hrl hr.ne hrp
  have hold : ∀ r ∈ spawned', r ≠ p → r ∈ spawned := fun r hr hrp => ((hs r).mp hr).resolve_left hrp
  refine ⟨h.rep.enqueue hp hlt.ne, fun r => ?_, fun r hr => ?_, fun h0 => ?_, fun r hr hrl => ?_,
    fun r hr hrs => ?_⟩
  · by_cases hrp : r = p
    · subst hrp
      simp [hs]
    · simpa [hrp, hs] using h.mem_iff r
  · by_cases hrp : r = p
    · rwa [hrp]
    · exact h.bound r (hold r hr hrp)
  · exact h.zero (hold 0 h0 hp0.symm)
  · simp only [mem_append, mem_singleton, not_or] at hrl
    have hrs := hold r hr hrl.2
    rw [(hframe r (h.bound r hrs) hrl.1 hrl.2).1, (hframe r (h.bound r hrs) hrl.1 hrl.2).2]
    exact h.detached r hrs hrl.1
  · obtain ⟨hrp, hrs⟩ := not_or.mp (mt (hs r).mpr hrs)
    have hrl : r ∉ l := fun hm => hrs ((h.mem_iff r).mp hm).1
    rw [(hframe r hr hrl hrp).1, (hframe r hr hrl hrp).2, update_of_ne hrp]
    exact h.fresh r hr hrs

omit h in
theorem remove (h : Queued state links spawned (l₁ ++ p :: l₂)) (st : TState) (hst : st ≠ .ready) :
    Queued (update state p st) (links.remove NUM_IDS p) spawned (l₁ ++ l₂) := by
  have hp : p ∈ spawned := ((h.mem_iff p).mp (by simp)).1
  have hnd := h.rep.nodup
  rw [nodup_middle, nodup_cons] at hnd
  have hmem : ∀ r, r ≠ p → (r ∈ l₁ ++ l₂ ↔ r ∈ l₁ ++ p :: l₂) := fun r hr => by simp [hr]
  refine ⟨h.rep.remove, fun r => ?_, h.bound, h.zero, fun r hr hrl => ?_, fun r hr hrs => ?_⟩
  · by_cases hrp : r = p
    · subst hrp
      simp [hnd.1, hst]
    · rw [hmem r hrp, h.mem_iff, update_of_ne hrp]
  · by_cases hrp : r = p
    · rw [hrp]
      exact remove_self links p
    · rw [hmem r hrp] at hrl
      rw [(h.rep.remove_frame hrl (h.ne_nil hr)).1, (h.rep.remove_frame hrl (h.ne_nil hr)).2]
      exact h.detached r hr hrl
  · have hrp : r ≠ p := fun e => hrs (e ▸ hp)
    have hrl : r ∉ l₁ ++ p :: l₂ := fun hm => hrs ((h.mem_iff r).mp hm).1
    rw [(h.rep.remove_frame hrl hr.ne).1, (h.rep.remove_frame hrl hr.ne).2, update_of_ne hrp]
    exact h.fresh r hr hrs

theorem markDead (hlt : p < NUM_IDS) :
    ∃ l', Queued (update state p .dead) (tqueueRemove links p) spawned l' := by
  by_cases hl : p ∈ l
  · obtain ⟨l₁, l₂, rfl⟩ := append_of_mem hl
    rw [tqueueRemove_of_mem h.rep]
    exact ⟨l₁ ++ l₂, h.remove .dead (by decide)⟩
  have hq := h.setState hl .dead (by decide) (.inr (by decide))
  have hhead : links.head ≠ p := by
    rcases l with _ | ⟨r, l⟩
    · rw [h.rep.head_nil]
      exact hlt.ne'
    · rw [h.rep.head_cons.1]
      rintro rfl
      exact hl (by simp)
  by_cases hd : links.prev p = NUM_IDS ∧ links.next p = NUM_IDS
  · rw [tqueueRemove_of_detached hd.1 hd.2 hhead]
    exact ⟨l, hq⟩
  -- a block that was never initialised: its neighbour is block `0`, whose links become zeros
  have hps : p ∉ spawned := fun hm => hd (h.detached p hm hl)
  obtain ⟨hprev, hnext⟩ := (h.fresh p hlt hps).2.resolve_right hd
  have hlinks : ∀ r, (tqueueRemove links p).prev r = (if r = p then NUM_IDS else if r = 0 then 0 else links.prev r) ∧
      (tqueueRemove links p).next r = (if r = p then NUM_IDS else if r = 0 then 0 else links.next r) := by
    intro r
    rw [tqueueRemove_eq (by tauto)]
    simp [Links.remove, Links.link, Links.detach, hprev, hnext, update_apply]
  have hkeep : ∀ r ∈ spawned, (tqueueRemove links p).prev r = links.prev r ∧
      (tqueueRemove links p).next r = links.next r := by
    intro r hr
    have hrp : r ≠ p := fun e => hps (e ▸ hr)
    have hr0 : r ≠ 0 := fun e => h.zero (e ▸ hr)
    simp [hlinks, hrp, hr0]
  refine ⟨l, ?_, hq.mem_iff, h.bound, h.zero, fun r hr hrl => ?_, fun r hr hrs => ⟨(hq.fresh r hr hrs).1, ?_⟩⟩
  · refine h.rep.congr ?_ ?_ fun r hr => hkeep r ((h.mem_iff r).mp hr).1
    · rw [tqueueRemove_eq (by tauto)]
      simp [Links.remove, Links.link, Links.detach, hprev]
    · rw [tqueueRemove_eq (by tauto)]
      simp [Links.remove, Links.link, Links.detach, hnext]
  · rw [(hkeep r hr).1, (hkeep r hr).2]
    exact h.detached r hr hrl
  · rw [(hlinks r).1, (hlinks r).2]
    split_ifs with h₁ h₂
    · exact .inr ⟨rfl, rfl⟩
    · exact .inl ⟨rfl, rfl⟩
    · exact (h.fresh r hr hrs).2

end

end Queued

/-! ### The invariant -/

/-- What holds at every point of the kernel's code. -/
structure Base (s : Sched) (l : List ℕ) : Prop where
  queued : Queued s.state s.links s.spawned l
  /-- The pids in use are those `container_split` handed out. -/
  family : Family s.container s.spawned
  /-- The quota was refunded when the process died, and only then. -/
  refunds : ∀ p ∈ s.spawned, s.refunds p = if s.state p = .dead then 1 else 0
  /-- `SIGKILL` is never pending: `sys_kill` acts on it at once. -/
  nokill : ∀ p, (s.pending p).getLsbD SIGKILL = false

/-- No process is running: the kernel is about to choose one. -/
structure Idle (s : Sched) (l : List ℕ) : Prop extends Base s l where
  idle : 1 ∈ s.spawned
  no_run : ∀ p ∈ s.spawned, s.state p ≠ .run

/-- The invariant: the current process, and only it, is running. -/
structure Inv (s : Sched) (l : List ℕ) : Prop extends Base s l where
  idle : 1 ∈ s.spawned
  cur : s.curid ∈ s.spawned
  run_iff : ∀ p ∈ s.spawned, s.state p = .run ↔ p = s.curid

namespace Inv

variable {s : Sched} {l : List ℕ}

theorem cur_run (h : Inv s l) : s.state s.curid = .run := (h.run_iff _ h.cur).mpr rfl

theorem cur_notMem (h : Inv s l) : s.curid ∉ l := fun hm => by
  have := ((h.queued.mem_iff _).mp hm).2
  rw [h.cur_run] at this
  cases this

theorem readyQueue_eq (h : Inv s l) : s.readyQueue = l := h.queued.rep.walk_eq h.queued.length_le

end Inv

namespace Idle

variable {s : Sched} {l : List ℕ} {p : ℕ}

theorem switchTo (h : Idle s l) {links : Links ℕ} {l' : List ℕ}
    (hq : Queued (update s.state p .run) links s.spawned l') (hp : p ∈ s.spawned) (hd : s.state p ≠ .dead) :
    Inv ({ s with links := links }.switchTo p) l' where
  queued := hq
  family := h.family
  refunds r hr := by
    have := h.refunds r hr
    by_cases hrp : r = p
    · subst hrp
      simpa [Sched.switchTo, Sched.setState, hd] using this
    · simpa [Sched.switchTo, Sched.setState, hrp] using this
  nokill := h.nokill
  idle := h.idle
  cur := hp
  run_iff r hr := by
    by_cases hrp : r = p
    · subst hrp
      simp [Sched.switchTo, Sched.setState]
    · simpa [Sched.switchTo, Sched.setState, hrp] using h.no_run r hr

theorem dispatch (h : Idle s (p :: l)) :
    Inv ({ s with links := (tqueueDequeue s.links).2 }.switchTo (tqueueDequeue s.links).1) l := by
  obtain ⟨hp, hr⟩ := (h.queued.mem_iff p).mp (by simp)
  rw [tqueueDequeue_cons h.queued.rep]
  have hq : Queued s.state s.links s.spawned ([] ++ p :: l) := h.queued
  exact h.switchTo (hq.remove .run (by decide)) hp (by rw [hr]; decide)

theorem threadExit (h : Idle s l) (hl : l ≠ [] ∨ s.state 1 ≠ .dead) : ∃ l', Inv s.threadExit l' := by
  unfold Sched.threadExit
  rcases l with _ | ⟨p, l⟩
  · rw [tqueueDequeue_nil h.queued.rep]
    exact ⟨[], h.switchTo (h.queued.setState (by simp) .run (by decide) (.inl h.idle)) h.idle (by simpa using hl)⟩
  · have hne : (tqueueDequeue s.links).1 ≠ NUM_IDS := by
      rw [tqueueDequeue_cons h.queued.rep]
      exact h.queued.ne_nil ((h.queued.mem_iff p).mp (by simp)).1
    simp only [if_neg hne]
    exact ⟨l, h.dispatch⟩

end Idle

/-! ### The scheduler -/

namespace Inv

variable {s : Sched} {l : List ℕ}

section

variable (h : Inv s l)
include h

theorem leave {links : Links ℕ} {l' : List ℕ} (st : TState) (hrun : st ≠ .run) (hdead : st ≠ .dead)
    (hq : Queued (update s.state s.curid st) links s.spawned l') :
    Idle { s.setState s.curid st with links := links } l' where
  queued := hq
  family := h.family
  refunds p hp := by
    have := h.refunds p hp
    by_cases hpc : p = s.curid
    · rw [hpc, h.cur_run] at this
      simpa [Sched.setState, hpc, hdead] using this
    · simpa [Sched.setState, hpc] using this
  nokill := h.nokill
  idle := h.idle
  no_run p hp := by
    by_cases hpc : p = s.curid
    · simpa [Sched.setState, hpc] using hrun
    · simpa [Sched.setState, hpc] using mt (h.run_iff p hp).mp hpc

theorem threadYield : ∃ l', Inv s.threadYield l' := by
  have h0 : s.curid ≠ 0 := fun e => h.queued.zero (e ▸ h.cur)
  have hq := h.queued.enqueue s.spawned h.cur_notMem (h.queued.bound _ h.cur) h0 (by simpa using h.cur)
  have hi := h.leave .ready (by decide) (by decide) hq
  rcases hl : l ++ [s.curid] with _ | ⟨p, l'⟩
  · simp at hl
  · rw [hl] at hi
    exact ⟨l', hi.dispatch⟩

theorem schedUpdate : ∃ l', Inv s.schedUpdate l' := by
  have h' : ∀ t, Inv { s with ticks := t } l := fun t =>
    ⟨⟨h.queued, h.family, h.refunds, h.nokill⟩, h.idle, h.cur, h.run_iff⟩
  simp only [Sched.schedUpdate]
  split_ifs
  · exact (h' 0).threadYield
  · exact ⟨l, h' _⟩

theorem sysPause : ∃ l', Inv s.sysPause l' := by
  have he : (s.setState s.curid .sleep).threadYield = s.threadYield := by
    simp [Sched.threadYield, Sched.setState]
  unfold Sched.sysPause
  split_ifs
  · exact ⟨l, h⟩
  · rw [he]
    exact h.threadYield

theorem threadSleep (hl : l ≠ []) (chan : ℕ) : ∃ l', Inv (s.threadSleep chan) l' := by
  have hi := h.leave .sleep (by decide) (by decide)
    (h.queued.setState h.cur_notMem .sleep (by decide) (.inl h.cur))
  have hi' : Idle ((s.setState s.curid .sleep).setChan s.curid chan) l :=
    ⟨⟨hi.queued, hi.family, hi.refunds, hi.nokill⟩, hi.idle, hi.no_run⟩
  obtain ⟨p, l', rfl⟩ := exists_cons_of_ne_nil hl
  exact ⟨l', hi'.dispatch⟩

theorem wakeOne (chan : ℕ) {p : ℕ} (hlt : p < NUM_IDS) : ∃ l', Inv (s.wakeOne chan p) l' := by
  unfold Sched.wakeOne
  split_ifs with hw
  swap
  · exact ⟨l, h⟩
  have hp : p ∈ s.spawned := by
    by_contra hp
    exact (h.queued.fresh p hlt hp).1 hw.2
  have hpl : p ∉ l := fun hm => by simp [((h.queued.mem_iff p).mp hm).2] at hw
  have hpc : p ≠ s.curid := fun e => by simp [e, h.cur_run] at hw
  refine ⟨l ++ [p], ⟨?_, h.family, fun r hr => ?_, h.nokill⟩, h.idle, h.cur, fun r hr => ?_⟩
  · exact h.queued.enqueue s.spawned hpl hlt (fun e => h.queued.zero (e ▸ hp)) (by simpa using hp)
  · have := h.refunds r hr
    by_cases hrp : r = p
    · rw [hrp, hw.2] at this
      simpa [Sched.setState, Sched.setChan, hrp] using this
    · simpa [Sched.setState, Sched.setChan, hrp] using this
  · have := h.run_iff r hr
    by_cases hrp : r = p
    · simpa [Sched.setState, Sched.setChan, hrp] using hpc
    · simpa [Sched.setState, Sched.setChan, hrp] using this

theorem threadWakeup (chan : ℕ) : ∃ l', Inv (s.threadWakeup chan) l' := by
  have hrange : ∀ p ∈ List.range' 1 (NUM_IDS - 1), p < NUM_IDS := fun p hp => by
    simp only [mem_range'_1] at hp
    omega
  unfold Sched.threadWakeup
  -- each round of the loop keeps the invariant
  refine List.foldlRecOn (motive := fun s : Sched => ∃ l', Inv s l') _ _ ⟨l, h⟩ fun t ht p hp => ?_
  obtain ⟨l', hl'⟩ := ht
  exact hl'.wakeOne chan (hrange p hp)

end

end Inv

/-! ### Birth and death -/

namespace Base

variable {s : Sched} {l : List ℕ}

theorem threadSpawn (h : Base s l) (id : ℕ) (quota : UInt32) (hid : id ∈ s.spawned ∨ id = 0)
    (hn : (s.container id).nchildren < MAX_CHILDREN)
    (hlt : id * MAX_CHILDREN + 1 + (s.container id).nchildren < NUM_IDS) :
    Base (s.threadSpawn id quota).2 (l ++ [(s.threadSpawn id quota).1]) where
  queued := h.queued.enqueue _ (fun hm => h.family.child_notMem hn ((h.queued.mem_iff _).mp hm).1) hlt
    (by simp [containerSplit_fst]) (fun r => mem_cons)
  family := h.family.split hn quota hid
  refunds r hr := by
    by_cases hrp : r = (s.threadSpawn id quota).1
    · subst hrp
      simp [Sched.threadSpawn]
    · have hrs : r ∈ s.spawned := (mem_cons.mp hr).resolve_left hrp
      simp only [Sched.threadSpawn] at hrp ⊢
      simpa [hrp] using h.refunds r hrs
  nokill := h.nokill

theorem die (h : Base s l) {p : ℕ} (hlt : p < NUM_IDS) (hd : s.state p ≠ .dead) :
    ∃ l', Base ((s.markDead p).refund p) l' := by
  obtain ⟨l', hq⟩ := h.queued.markDead hlt
  refine ⟨l', hq, h.family.congr fun i => by simp [Sched.refund, Sched.markDead, Sched.setPending, Sched.setState],
    fun r hr => ?_, fun r => ?_⟩
  · have := h.refunds r hr
    by_cases hrp : r = p
    · rw [hrp, if_neg hd] at this
      simp [Sched.refund, Sched.markDead, Sched.setPending, Sched.setState, hrp, this]
    · simpa [Sched.refund, Sched.markDead, Sched.setPending, Sched.setState, hrp] using this
  · by_cases hrp : r = p
    · simp [Sched.refund, Sched.markDead, Sched.setPending, Sched.setState, hrp]
    · simpa [Sched.refund, Sched.markDead, Sched.setPending, Sched.setState, hrp] using h.nokill r

end Base

@[simp] theorem Sched.state_die (s : Sched) (p : ℕ) :
    ((s.markDead p).refund p).state = update s.state p .dead := rfl

@[simp] theorem Sched.curid_die (s : Sched) (p : ℕ) : ((s.markDead p).refund p).curid = s.curid := rfl

namespace Inv

variable {s : Sched} {l : List ℕ}

theorem sysSpawn (h : Inv s l) (elfId : ℕ) (quota : UInt32) : ∃ l', Inv (s.sysSpawn elfId quota).2 l' := by
  unfold Sched.sysSpawn
  split
  · exact ⟨l, h⟩
  · rename_i hs
    obtain ⟨hn, hlt⟩ := child_lt_of_spawnError (h.family.le_max _) hs
    have hb := h.threadSpawn s.curid quota (.inl h.cur) hn hlt
    refine ⟨_, hb, mem_cons_of_mem _ h.idle, mem_cons_of_mem _ h.cur, fun r hr => ?_⟩
    have hchild := h.family.child_notMem hn
    by_cases hrp : r = (s.threadSpawn s.curid quota).1
    · have hrc : r ≠ s.curid := fun e => hchild (by rw [← containerSplit_fst _ _ quota]; exact hrp ▸ e ▸ h.cur)
      subst hrp
      simpa [Sched.threadSpawn] using hrc
    · have := h.run_iff r ((mem_cons.mp hr).resolve_left hrp)
      simp only [Sched.threadSpawn] at hrp ⊢
      simpa [hrp] using this

theorem kill (h : Inv s l) {p : ℕ} (hlt : p < NUM_IDS) (hd : s.state p ≠ .dead) (hpc : p ≠ s.curid) :
    ∃ l', Inv ((s.markDead p).refund p) l' := by
  obtain ⟨l', hb⟩ := h.die hlt hd
  refine ⟨l', hb, h.idle, h.cur, fun r hr => ?_⟩
  rw [Sched.state_die]
  by_cases hrp : r = p
  · simpa [hrp] using hpc
  · simpa [hrp] using h.run_iff r hr

theorem sysKill (h : Inv s l) {pid signum : ℤ} (hsafe : signum = SIGKILL → pid ≠ s.curid) :
    ∃ l', Inv (s.sysKill pid signum).2 l' := by
  unfold Sched.sysKill
  split_ifs with h1 h2 h3
  · exact ⟨l, h⟩
  · exact ⟨l, h⟩
  · simp only [not_or, not_lt, not_le] at h2
    exact h.kill (by omega) h2.2.2 (by have := hsafe h3; omega)
  · have hne : signum.toNat ≠ SIGKILL := fun e => h3 (by omega)
    have h' : Inv (s.addPending pid.toNat signum.toNat) l := by
      refine ⟨⟨h.queued, h.family, h.refunds, fun r => ?_⟩, h.idle, h.cur, h.run_iff⟩
      have hk := h.nokill r
      by_cases hr : r = pid.toNat
      · subst hr
        simpa [Sched.addPending, Sched.setPending, BitVec.getLsbD_or, hk] using fun _ => hne
      · simpa [Sched.addPending, Sched.setPending, hr] using hk
    dsimp only
    split_ifs
    · dsimp only
      exact h'.threadWakeup _
    · exact ⟨l, h'⟩

theorem sysExit (h : Inv s l) (hsafe : l ≠ [] ∨ (s.curid ≠ 1 ∧ s.state 1 ≠ .dead)) : ∃ l', Inv s.sysExit l' := by
  have hd : s.state s.curid ≠ .dead := by rw [h.cur_run]; decide
  obtain ⟨l', hb⟩ := h.die (h.queued.bound _ h.cur) hd
  have hi : Idle ((s.markDead s.curid).refund s.curid) l' := by
    refine ⟨hb, h.idle, fun r hr => ?_⟩
    rw [Sched.state_die]
    by_cases hrc : r = s.curid
    · simp [hrc]
    · simpa [hrc] using mt (h.run_iff r hr).mp hrc
  refine hi.threadExit (hsafe.imp (fun hl => ?_) fun ⟨h1, h2⟩ => ?_)
  · -- the ready processes stay ready
    obtain ⟨p, m, rfl⟩ := exists_cons_of_ne_nil hl
    have hpc : p ≠ s.curid := fun e => h.cur_notMem (by simp [e])
    have hp : p ∈ l' := by
      rw [hb.queued.mem_iff, Sched.state_die, update_of_ne hpc]
      exact (h.queued.mem_iff p).mp (by simp)
    exact ne_nil_of_mem hp
  · rwa [Sched.state_die, update_of_ne h1.symm]

theorem handlePendingSignals (h : Inv s l) : Inv s.handlePendingSignals l := by
  unfold Sched.handlePendingSignals
  split
  · exact h
  · rename_i n hfind
    have hn : n ≠ SIGKILL := by
      rintro rfl
      simpa [h.nokill] using List.find?_some hfind
    rw [if_neg hn]
    refine ⟨⟨h.queued, h.family, h.refunds, fun r => ?_⟩, h.idle, h.cur, h.run_iff⟩
    have hk := h.nokill r
    by_cases hr : r = s.curid
    · subst hr
      simp [Sched.clearPending, Sched.setPending, hk]
    · simpa [Sched.clearPending, Sched.setPending, hr] using hk

theorem step (h : Inv s l) {a : Act} (ha : a.Safe s) : ∃ l', Inv (s.step a) l' := by
  cases a with
  | spawn elfId quota => exact h.sysSpawn elfId quota
  | kill pid signum => exact h.sysKill ha
  | exit =>
    refine h.sysExit ?_
    rw [← h.readyQueue_eq]
    exact ha
  | yield => exact h.threadYield
  | tick => exact h.schedUpdate
  | pause => exact h.sysPause
  | sleep chan =>
    refine h.threadSleep ?_ chan
    rw [← h.readyQueue_eq]
    exact ha
  | wakeup chan => exact h.threadWakeup chan
  | alloc id =>
    exact ⟨l, ⟨h.queued, h.family.congr fun i => by simp [Sched.step], h.refunds, h.nokill⟩, h.idle, h.cur, h.run_iff⟩
  | signals => exact ⟨l, h.handlePendingSignals⟩

end Inv

/-! ### Runs -/

def Later (s t : Sched) : Prop := ∀ p ∈ s.spawned, p ∈ t.spawned ∧ s.refunds p ≤ t.refunds p

theorem Later.refl (s : Sched) : Later s s := fun _ hp => ⟨hp, le_rfl⟩

variable {s t : Sched} {l : List ℕ}

theorem Later.trans {u : Sched} (h : Later s t) (h' : Later t u) : Later s u := fun p hp =>
  ⟨(h' p (h p hp).1).1, (h p hp).2.trans (h' p (h p hp).1).2⟩

theorem later_die (s : Sched) (p : ℕ) : Later s ((s.markDead p).refund p) := fun r hr => by
  refine ⟨hr, ?_⟩
  by_cases hrp : r = p
  · simp [Sched.refund, Sched.markDead, Sched.setPending, Sched.setState, hrp]
  · simp [Sched.refund, Sched.markDead, Sched.setPending, Sched.setState, hrp]

theorem later_threadWakeup (s : Sched) (chan : ℕ) : Later s (s.threadWakeup chan) := by
  unfold Sched.threadWakeup
  refine List.foldlRecOn (motive := Later s) _ _ (Later.refl s) fun t ht p _ => ht.trans ?_
  unfold Sched.wakeOne
  split_ifs
  · exact Later.refl t
  · exact Later.refl t

theorem later_sysSpawn (h : Inv s l) (elfId : ℕ) (quota : UInt32) :
    Later s (s.sysSpawn elfId quota).2 := by
  unfold Sched.sysSpawn
  split
  · exact Later.refl s
  · rename_i hs
    have hchild := h.family.child_notMem (child_lt_of_spawnError (h.family.le_max _) hs).1
    intro p hp
    have hne : p ≠ (containerSplit s.container s.curid quota).1 := by
      rintro rfl
      exact hchild hp
    exact ⟨mem_cons_of_mem _ hp, by simp [Sched.threadSpawn, hne]⟩

theorem later_sysKill (s : Sched) (pid signum : ℤ) : Later s (s.sysKill pid signum).2 := by
  unfold Sched.sysKill
  split_ifs
  · exact Later.refl s
  · exact Later.refl s
  · exact later_die s _
  · dsimp only
    split_ifs
    · dsimp only
      exact Later.trans (t := s.addPending pid.toNat signum.toNat) (Later.refl s) (later_threadWakeup _ _)
    · exact Later.refl s

theorem later_step (h : Inv s l) (a : Act) : Later s (s.step a) := by
  cases a with
  | spawn elfId quota => exact later_sysSpawn h elfId quota
  | kill pid signum => exact later_sysKill s pid signum
  | exit => exact later_die s s.curid
  | yield => exact Later.refl s
  | tick =>
    simp only [Sched.step, Sched.schedUpdate]
    split_ifs
    · exact Later.refl s
    · exact Later.refl s
  | pause =>
    simp only [Sched.step, Sched.sysPause]
    split_ifs
    · exact Later.refl s
    · exact Later.refl s
  | sleep chan => exact Later.refl s
  | wakeup chan => exact later_threadWakeup s chan
  | alloc id => exact Later.refl s
  | signals =>
    simp only [Sched.step, Sched.handlePendingSignals]
    split
    · exact Later.refl s
    · split_ifs
      · exact Later.refl s
      · exact Later.refl s

theorem inv_of_reach (hs : ∃ l, Inv s l) (h : ReflTransGen SafeStep s t) :
    (∃ l, Inv t l) ∧ Later s t := by
  induction h with
  | refl => exact ⟨hs, Later.refl s⟩
  | tail _ hstep ih =>
    obtain ⟨⟨l, hl⟩, hlater⟩ := ih
    obtain ⟨a, ha, rfl⟩ := hstep
    exact ⟨hl.step ha, hlater.trans (later_step hl a)⟩

section

variable (zeroed : ℕ → Bool)

theorem base_init (quota : UInt32) : Base (Sched.init zeroed quota) [] where
  queued :=
    { rep := ⟨nodup_nil, not_mem_nil, by
        rw [nil_append, isChain_pair]
        exact ⟨succ_nil _, pred_nil _⟩⟩
      mem_iff := by simp [Sched.init]
      bound := by simp [Sched.init]
      zero := by simp [Sched.init]
      detached := by simp [Sched.init]
      fresh := fun p _ _ => by
        by_cases hp : p = 0 <;> cases hz : zeroed p <;> simp [Sched.init, hp, hz] }
  family := family_init quota
  refunds := by simp [Sched.init]
  nokill := by simp [Sched.init]

@[simp] theorem spawned_boot (quota : UInt32) : (Sched.boot zeroed quota).spawned = [2, 1] := rfl

@[simp] theorem curid_boot (quota : UInt32) : (Sched.boot zeroed quota).curid = 2 := rfl

theorem inv_boot (quota : UInt32) : Inv (Sched.boot zeroed quota) [1] := by
  have hlt1 : (0 : ℕ) < MAX_CHILDREN := by decide
  have hlt2 : (1 : ℕ) < MAX_CHILDREN := by decide
  have h1 := (base_init zeroed quota).threadSpawn 0 1000 (.inr rfl) hlt1 (show 1 < NUM_IDS by decide)
  have h2 := h1.threadSpawn 0 200000 (.inr rfl) hlt2 (show 2 < NUM_IDS by decide)
  have hrep : Queued _ _ _ ([1] ++ 2 :: []) := h2.queued
  have hq := hrep.remove .run (by decide)
  rw [← tqueueRemove_of_mem hrep.rep] at hq
  refine ⟨⟨hq, h2.family, fun p hp => ?_, h2.nokill⟩, by simp, by simp, fun p hp => ?_⟩
  · obtain rfl | rfl : p = 2 ∨ p = 1 := by simpa using hp
    · rfl
    · rfl
  · obtain rfl | rfl : p = 2 ∨ p = 1 := by simpa using hp
    · exact iff_of_true rfl rfl
    · exact iff_of_false (fun e : TState.ready = .run => by cases e) (by simp)

end

/-- Death is final: once a process that was spawned is dead, it stays dead, outside the ready queue and is never the
current one; and no process has its quota refunded twice. -/
theorem dead_is_final (zeroed : ℕ → Bool) (quota : UInt32) {s t : Sched}
    (hs : ReflTransGen SafeStep (Sched.boot zeroed quota) s) (ht : ReflTransGen SafeStep s t) :
    (∀ p ∈ s.spawned, s.state p = .dead → t.state p = .dead ∧ p ∉ t.readyQueue ∧ t.curid ≠ p) ∧
      ∀ p ∈ t.spawned, t.refunds p ≤ 1 := by
  obtain ⟨⟨l, hl⟩, -⟩ := inv_of_reach ⟨[1], inv_boot zeroed quota⟩ hs
  obtain ⟨⟨m, hm⟩, hlater⟩ := inv_of_reach ⟨l, hl⟩ ht
  refine ⟨fun p hp hd => ?_, fun p hp => ?_⟩
  · -- the refund at its death is still counted, and only dead processes have one
    obtain ⟨hpt, hle⟩ := hlater p hp
    have hdt : t.state p = .dead := by
      by_contra hnd
      rw [hl.refunds p hp, hm.refunds p hpt, if_pos hd, if_neg hnd] at hle
      omega
    refine ⟨hdt, fun hmem => ?_, fun e => ?_⟩
    · rw [hm.readyQueue_eq, hm.queued.mem_iff, hdt] at hmem
      cases hmem.2
    · have := hm.cur_run
      rw [e, hdt] at this
      cases this
  · rw [hm.refunds p hp]
    split_ifs <;> omega

theorem dead_is_final_kill_child :
    let s := ((Sched.boot (fun _ => false) 300000).step (.spawn 6 1000)).step (.kill 511 9)
    (511 ∈ s.spawned ∧ s.state 511 = .dead) ∧
      (∀ p ∈ s.spawned, s.state p = .dead → (s.step .yield).state p = .dead ∧ p ∉ (s.step .yield).readyQueue ∧
        (s.step .yield).curid ≠ p) ∧ ∀ p ∈ (s.step .yield).spawned, (s.step .yield).refunds p ≤ 1 := by
  refine ⟨by decide, dead_is_final (fun _ => false) 300000 ?_ ?_⟩
  · exact (ReflTransGen.single ⟨.spawn 6 1000, trivial, rfl⟩).tail ⟨.kill 511 9, fun _ => by decide, rfl⟩
  · exact ReflTransGen.single ⟨.yield, trivial, rfl⟩

/-- The shell sends itself `SIGKILL`: it is dead and goes on running, the next `thread_yield` makes it ready, and when
it runs again and exits, its quota is refunded a second time. -/
theorem self_kill_not_final :
    let s := (Sched.boot (fun _ => false) 300000).step (.kill 2 9)
    let t := s.step .yield
    2 ∈ s.spawned ∧ s.state 2 = .dead ∧ s.curid = 2 ∧ t.state 2 = .ready ∧ 2 ∈ t.readyQueue ∧
      ((t.step .yield).step .exit).refunds 2 = 2 := by
  decide

end MCertiKOS.Thread
