import MCertiKOS.Library.LinkedQueue
import MCertiKOS.Memory.Container
import Mathlib.Data.BitVec

/-!
# Threads

The scheduler of `kern/thread`: the thread control blocks of `PTCBIntro.c`, the ready queue of `PTQueueInit.c`,
`PThread.c`, and what the system calls of `kern/trap/TSyscall/TSyscall.c` and the signal path of
`kern/trap/TTrapHandler/TTrapHandler.c` schedule, kill and account for. Only one CPU is started (`kern_main`), and
kernel code is not preempted, so each function is one step.

`TCBPool` is kept as one array for each field. The `prev` and `next` fields and the head and tail of queue `NUM_IDS`
are a `Links`, whose index for "none" is `NUM_IDS`. A channel is an address, `0` being `NULL`.

Two fields are not in the source: `spawned` lists the pids `thread_spawn` has returned, and `refunds` counts how
often a process's quota was refunded since it was spawned.
-/

namespace MCertiKOS.Thread

open Library Memory Links
open Function (update)

inductive TState where
  /-- `TSTATE_READY`, whose value is `0`. -/
  | ready
  /-- `TSTATE_RUN`. -/
  | run
  /-- `TSTATE_SLEEP`. -/
  | sleep
  /-- `TSTATE_DEAD`. -/
  | dead
  deriving DecidableEq

abbrev NSIG : ℕ := 32

abbrev SIGKILL : ℕ := 9

abbrev SCHED_SLICE : ℕ := 5

abbrev LAPIC_TIMER_INTR_FREQ : ℕ := 1000

/-- The error numbers that the system calls modelled here set. -/
inductive Errno where
  /-- `E_SUCC`. -/
  | succ
  /-- `E_INVAL_ADDR`. -/
  | invalAddr
  /-- `E_INVAL_PID`. -/
  | invalPid
  /-- `E_DISK_OP`. -/
  | diskOp
  /-- `E_EXCEEDS_QUOTA`. -/
  | exceedsQuota
  /-- `E_MAX_NUM_CHILDEN_REACHED`. -/
  | maxNumChildrenReached
  /-- `E_INVAL_CHILD_ID`. -/
  | invalChildId
  /-- `E_NEXIST`. -/
  | nexist
  /-- `E_CREATE`. -/
  | create
  /-- `E_BADF`. -/
  | badf
  /-- `E_INVAL_SIGNUM`. -/
  | invalSignum
  deriving DecidableEq

/-- The state of the scheduler. -/
structure Sched where
  /-- `TCBPool[pid].state`. -/
  state : ℕ → TState
  /-- `TCBPool[pid].prev`, `TCBPool[pid].next` and the ready queue. -/
  links : Links ℕ
  /-- `TCBPool[pid].channel`. -/
  channel : ℕ → ℕ
  /-- `TCBPool[pid].sigstate.pending_signals`. -/
  pending : ℕ → BitVec NSIG
  container : Containers
  curid : ℕ
  /-- `sched_ticks`. -/
  ticks : ℕ
  /-- The pids returned by `thread_spawn`. -/
  spawned : List ℕ
  /-- How often the quota of a process was refunded since it was spawned. -/
  refunds : ℕ → ℕ

/-! ### The ready queue -/

/-- `tqueue_enqueue` on the ready queue. -/
def tqueueEnqueue (q : Links ℕ) (pid : ℕ) : Links ℕ :=
  if q.tail = NUM_IDS then
    { prev := update q.prev pid NUM_IDS
      next := update q.next pid NUM_IDS
      head := pid
      tail := pid }
  else
    { prev := update q.prev pid q.tail
      next := update (update q.next q.tail pid) pid NUM_IDS
      head := q.head
      tail := pid }

/-- `tqueue_dequeue` on the ready queue: the pid, `NUM_IDS` if there is none, and the queue. -/
def tqueueDequeue (q : Links ℕ) : ℕ × Links ℕ :=
  if q.head ≠ NUM_IDS then
    let pid := q.head
    let next := q.next q.head
    let q₁ : Links ℕ :=
      if next = NUM_IDS then { q with head := NUM_IDS, tail := NUM_IDS }
      else { q with prev := update q.prev next NUM_IDS, head := next }
    (pid, { q₁ with prev := update q₁.prev pid NUM_IDS, next := update q₁.next pid NUM_IDS })
  else (NUM_IDS, q)

/-- `tqueue_remove` on the ready queue. -/
def tqueueRemove (q : Links ℕ) (pid : ℕ) : Links ℕ :=
  let prev := q.prev pid
  let next := q.next pid
  if prev = NUM_IDS ∧ next = NUM_IDS ∧ q.head ≠ pid then q
  else
    let q₁ : Links ℕ :=
      if prev = NUM_IDS then
        if next = NUM_IDS then { q with head := NUM_IDS, tail := NUM_IDS }
        else { q with prev := update q.prev next NUM_IDS, head := next }
      else
        if next = NUM_IDS then { q with next := update q.next prev NUM_IDS, tail := prev }
        else { q with next := update q.next prev next, prev := update q.prev next prev }
    { q₁ with prev := update q₁.prev pid NUM_IDS, next := update q₁.next pid NUM_IDS }

/-- The checks of `sys_spawn`: the error it returns before it calls `proc_create`. -/
def spawnError (c : Containers) (curid elfId : ℕ) (quota : UInt32) : Option Errno :=
  if containerCanConsume c curid quota = false then some .exceedsQuota
  else if NUM_IDS < curid * MAX_CHILDREN + 1 + MAX_CHILDREN then some .maxNumChildrenReached
  else if (c curid).nchildren = MAX_CHILDREN then some .invalChildId
  else if 1 ≤ elfId ∧ elfId ≤ 9 then none
  else some .invalPid

/-! ### Threads -/

namespace Sched

/-- `tcb_set_state`. -/
def setState (s : Sched) (pid : ℕ) (st : TState) : Sched :=
  { s with state := update s.state pid st }

/-- `tcb_set_chan`. -/
def setChan (s : Sched) (pid chan : ℕ) : Sched := { s with channel := update s.channel pid chan }

/-- `tcb_set_pending_signals`. -/
def setPending (s : Sched) (pid : ℕ) (signals : BitVec NSIG) : Sched :=
  { s with pending := update s.pending pid signals }

/-- `tcb_add_pending_signal`, for a signal below `NSIG`. -/
def addPending (s : Sched) (pid signum : ℕ) : Sched :=
  s.setPending pid (s.pending pid ||| BitVec.twoPow NSIG signum)

/-- `tcb_clear_pending_signal`, for a signal below `NSIG`. -/
def clearPending (s : Sched) (pid signum : ℕ) : Sched :=
  s.setPending pid (s.pending pid &&& ~~~ BitVec.twoPow NSIG signum)

/-- Let `pid` run: `tcb_set_state(pid, TSTATE_RUN)` and `set_curid(pid)`. -/
def switchTo (s : Sched) (pid : ℕ) : Sched := { s.setState pid .run with curid := pid }

/-- `thread_spawn`: `kctx_new` splits the container of `id`, and the child becomes ready. -/
def threadSpawn (s : Sched) (id : ℕ) (quota : UInt32) : ℕ × Sched :=
  let pid := (containerSplit s.container id quota).1
  (pid,
    { s with
      container := (containerSplit s.container id quota).2
      state := update s.state pid .ready
      links := tqueueEnqueue s.links pid
      spawned := pid :: s.spawned
      refunds := update s.refunds pid 0 })

def threadYield (s : Sched) : Sched :=
  let s₁ := s.setState s.curid .ready
  let d := tqueueDequeue (tqueueEnqueue s₁.links s₁.curid)
  { s₁ with links := d.2 }.switchTo d.1

def threadExit (s : Sched) : Sched :=
  let d := tqueueDequeue s.links
  -- an empty queue falls back to the idle process
  { s with links := d.2 }.switchTo (if d.1 = NUM_IDS then 1 else d.1)

/-- `thread_sleep`, up to the context switch. What follows when the thread is switched to again
stores `0` in its channel, as `thread_wakeup` did already. -/
def threadSleep (s : Sched) (chan : ℕ) : Sched :=
  let s₁ := (s.setState s.curid .sleep).setChan s.curid chan
  let d := tqueueDequeue s₁.links
  { s₁ with links := d.2 }.switchTo d.1

/-- The body of the loop of `thread_wakeup`. -/
def wakeOne (chan : ℕ) (s : Sched) (pid : ℕ) : Sched :=
  if s.channel pid = chan ∧ s.state pid = .sleep then
    { (s.setState pid .ready).setChan pid 0 with links := tqueueEnqueue s.links pid }
  else s

def threadWakeup (s : Sched) (chan : ℕ) : Sched := (List.range' 1 (NUM_IDS - 1)).foldl (wakeOne chan) s

/-- `sched_update`, at a timer interrupt. -/
def schedUpdate (s : Sched) : Sched :=
  let ticks := s.ticks + 1000 / LAPIC_TIMER_INTR_FREQ
  if SCHED_SLICE < ticks then { s with ticks := 0 }.threadYield else { s with ticks := ticks }

/-! ### System calls and signals -/

/-- Give the quota of `pid` back to its parent. -/
def refund (s : Sched) (pid : ℕ) : Sched :=
  { s with
    container := containerRefundUsage s.container (s.container pid).parent (s.container pid).quota
    refunds := update s.refunds pid (s.refunds pid + 1) }

/-- The part common to `sys_exit`, `sys_kill` and `terminate_process`: the process is marked dead,
taken off the ready queue and its signals are dropped. -/
def markDead (s : Sched) (pid : ℕ) : Sched :=
  let s₁ := s.setState pid .dead
  { s₁ with links := tqueueRemove s₁.links pid }.setPending pid 0

/-- `sys_spawn`, up to the descriptors. The pages `elf_load` charges to the child are `alloc` steps. -/
def sysSpawn (s : Sched) (elfId : ℕ) (quota : UInt32) : Except Errno ℕ × Sched :=
  match spawnError s.container s.curid elfId quota with
  | some e => (.error e, s)
  | none => ((.ok (s.threadSpawn s.curid quota).1), (s.threadSpawn s.curid quota).2)

def sysKill (s : Sched) (pid signum : ℤ) : Errno × Sched :=
  if signum < 1 ∨ (NSIG : ℤ) ≤ signum then (.invalSignum, s)
  else if pid < 0 ∨ (NUM_IDS : ℤ) ≤ pid ∨ s.state pid.toNat = .dead then (.invalPid, s)
  else if signum = SIGKILL then (.succ, (s.markDead pid.toNat).refund pid.toNat)
  else
    let s₁ := s.addPending pid.toNat signum.toNat
    if s₁.state pid.toNat = .sleep ∧ s₁.channel pid.toNat ≠ 0 then
      (.succ, s₁.threadWakeup (s₁.channel pid.toNat))
    else (.succ, s₁)

/-- `sys_exit`, once the descriptors are closed. -/
def sysExit (s : Sched) : Sched := ((s.markDead s.curid).refund s.curid).threadExit

def sysPause (s : Sched) : Sched :=
  if s.pending s.curid ≠ 0 then s else (s.setState s.curid .sleep).threadYield

def terminateProcess (s : Sched) (pid : ℕ) : Sched := s.markDead pid

/-- `handle_pending_signals`, on the way back to the user program: the lowest pending signal is
cleared and delivered; `deliver_signal` changes only the user context. -/
def handlePendingSignals (s : Sched) : Sched :=
  match (List.range' 1 (NSIG - 1)).find? fun n => (s.pending s.curid).getLsbD n with
  | none => s
  | some signum =>
    let s₁ := s.clearPending s.curid signum
    if signum = SIGKILL then (s₁.terminateProcess s₁.curid).threadExit else s₁

def readyQueue (s : Sched) : List ℕ := s.links.walk NUM_IDS NUM_IDS s.links.head

/-! ### Start -/

/-- The thread control blocks and queues after `thread_init`. `tcb_init` calls `tcb_init_at_id`
through a declaration with one parameter, so which blocks are initialised is not known: `zeroed pid`
says that block `pid` still holds the zeros of the `.bss` section. -/
def init (zeroed : ℕ → Bool) (quota : UInt32) : Sched where
  state := update (fun pid => if zeroed pid then .ready else .dead) 0 .run
  links :=
    { head := NUM_IDS
      tail := NUM_IDS
      prev := fun pid => if zeroed pid then 0 else NUM_IDS
      next := fun pid => if zeroed pid then 0 else NUM_IDS }
  channel := fun _ => 0
  pending := fun _ => 0
  container := containerInit quota
  curid := 0
  ticks := 0
  spawned := []
  refunds := fun _ => 0

/-- `kern_main`: the idle process is ready and the shell runs. -/
def boot (zeroed : ℕ → Bool) (quota : UInt32) : Sched :=
  let s₁ := ((init zeroed quota).threadSpawn 0 1000).2
  let r := s₁.threadSpawn 0 200000
  { r.2 with links := tqueueRemove r.2.links r.1 }.switchTo r.1

end Sched

theorem child_lt_of_spawnError {c : Containers} {curid elfId : ℕ} {quota : UInt32} (hle : (c curid).nchildren ≤ MAX_CHILDREN)
    (h : spawnError c curid elfId quota = none) :
    (c curid).nchildren < MAX_CHILDREN ∧ curid * MAX_CHILDREN + 1 + (c curid).nchildren < NUM_IDS := by
  unfold spawnError at h
  split_ifs at h with h1 h2 h3 h4
  omega

/-! ### The queue functions and linked queues -/

variable {pid : ℕ} {q : Links ℕ}

theorem tqueueEnqueue_eq (q : Links ℕ) (h : pid ≠ NUM_IDS) :
    tqueueEnqueue q pid = q.enqueue NUM_IDS pid := by
  unfold tqueueEnqueue enqueue link
  by_cases ht : q.tail = NUM_IDS
  · simp [ht, h]
  · simp [ht, h]

theorem tqueueRemove_of_detached (hp : q.prev pid = NUM_IDS) (hn : q.next pid = NUM_IDS)
    (hh : q.head ≠ pid) : tqueueRemove q pid = q := by
  unfold tqueueRemove
  rw [if_pos ⟨hp, hn, hh⟩]

theorem tqueueRemove_eq
    (h : ¬ (q.prev pid = NUM_IDS ∧ q.next pid = NUM_IDS ∧ q.head ≠ pid)) :
    tqueueRemove q pid = q.remove NUM_IDS pid := by
  unfold tqueueRemove
  rw [if_neg h]
  unfold remove link detach
  by_cases hp : q.prev pid = NUM_IDS <;> by_cases hn : q.next pid = NUM_IDS <;> simp [hp, hn]

theorem tqueueDequeue_nil (h : q.Rep NUM_IDS []) : tqueueDequeue q = (NUM_IDS, q) := by
  unfold tqueueDequeue
  rw [if_neg (by simpa using h.head_nil)]

theorem tqueueDequeue_cons {l : List ℕ} (h : q.Rep NUM_IDS (pid :: l)) :
    tqueueDequeue q = (pid, q.remove NUM_IDS pid) := by
  obtain ⟨hh, hp⟩ := h.head_cons
  have hne : pid ≠ NUM_IDS := fun e => h.nil_notMem (by simp [e])
  unfold tqueueDequeue
  rw [if_pos (by rw [hh]; exact hne), hh]
  unfold remove link detach
  by_cases hn : q.next pid = NUM_IDS <;> simp [hp, hn]

theorem tqueueRemove_of_mem {l1 l2 : List ℕ} (h : q.Rep NUM_IDS (l1 ++ pid :: l2)) :
    tqueueRemove q pid = q.remove NUM_IDS pid := by
  refine tqueueRemove_eq fun ⟨hp, _, hh⟩ => ?_
  have hadj := h.adj.1
  rw [hp] at hadj
  rw [← succ_nil NUM_IDS] at hh
  exact hh hadj.1

end MCertiKOS.Thread
