import MCertiKOS.Thread.Quota

/-!
# Process ids

The ids that `container_split` hands out number a tree: child `k` of process `id` is `id * MAX_CHILDREN + 1 + k`. The
first part is about every order in which processes spawn, exit and are killed; a step is taken by any process, so
nothing about the ready queue is needed (`pids_fresh`).

The second part is about the thread control blocks of pids that were not handed out. `tcb_init` calls
`tcb_init_at_id`, whose second parameter is the pid, with one argument, so some blocks may keep the zeros of the
`.bss` section, which read as a process that is ready: `sys_kill` then finds a process where there is none
(`unspawned_zeroed`). A block that was initialised stays as it is until its pid is spawned (`unspawned_rejected`).
-/

namespace MCertiKOS.Thread

open Library Memory Relation List

/-! ### Steps by any process -/

/-- A step of any process that was spawned, or of the kernel's own thread. -/
def AnyStep (s t : Sched) : Prop := ∃ (p : ℕ) (a : Act), (p ∈ s.spawned ∨ p = 0) ∧ t = { s with curid := p }.step a

variable {s t : Sched} {zeroed : ℕ → Bool}

theorem Inv.anyStep {l : List ℕ} (h : Inv s l) (a : Act) : AnyStep s (s.step a) := ⟨s.curid, a, .inl h.cur, rfl⟩

/-- The tree of processes is the same. -/
structure SameTree (s t : Sched) : Prop where
  spawned : t.spawned = s.spawned
  nchildren : ∀ i, (t.container i).nchildren = (s.container i).nchildren
  parent : ∀ i, (t.container i).parent = (s.container i).parent

theorem Quiet.sameTree (h : Quiet s t) : SameTree s t :=
  ⟨h.spawned, fun i => by rw [h.container], fun i => by rw [h.container]⟩

theorem sameTree_die (s : Sched) (p : ℕ) : SameTree s ((s.markDead p).refund p) :=
  ⟨rfl, fun _ => nchildren_containerRefundUsage .., fun _ => parent_containerRefundUsage ..⟩

theorem step_tree (s : Sched) (a : Act) :
    SameTree s (s.step a) ∨
      ∃ elfId quota, a = .spawn elfId quota ∧ spawnError s.container s.curid elfId quota = none ∧
        s.step a = (s.threadSpawn s.curid quota).2 := by
  cases a with
  | spawn elfId quota =>
    cases he : spawnError s.container s.curid elfId quota with
    | some e =>
      refine .inl ?_
      simp only [Sched.step, Sched.sysSpawn, he]
      exact (Quiet.refl s).sameTree
    | none =>
      refine .inr ⟨elfId, quota, rfl, he, ?_⟩
      simp only [Sched.step, Sched.sysSpawn, he]
  | kill pid signum =>
    refine .inl ?_
    rcases sysKill_cases s pid signum with hq | ⟨-, -, -, -, he⟩
    · exact hq.sameTree
    · simp only [Sched.step, he]
      exact sameTree_die s _
  | exit =>
    obtain ⟨h1, h2, h3⟩ := sameTree_die s s.curid
    exact .inl ⟨h1, h2, h3⟩
  | yield => exact .inl (Quiet.sameTree ⟨rfl, rfl, rfl⟩)
  | tick => exact .inl (quiet_schedUpdate s).sameTree
  | pause => exact .inl (quiet_sysPause s).sameTree
  | sleep chan => exact .inl (Quiet.sameTree ⟨rfl, rfl, rfl⟩)
  | wakeup chan => exact .inl (quiet_threadWakeup s chan).sameTree
  | alloc id => exact .inl ⟨rfl, fun _ => nchildren_containerAlloc .., fun _ => parent_containerAlloc ..⟩
  | signals => exact .inl (quiet_handlePendingSignals s).sameTree

/-! ### Ids -/

/-- The ids are those of the tree: each once, in range, with the parent that the id says. -/
structure Ids (s : Sched) : Prop where
  family : Family s.container s.spawned
  nodup : s.spawned.Nodup
  lt : ∀ p ∈ s.spawned, p < NUM_IDS
  parent : ∀ p ∈ s.spawned, (s.container p).parent = (p - 1) / MAX_CHILDREN

namespace Ids

variable {s t : Sched}

theorem congr (h : Ids s) (ht : SameTree s t) : Ids t where
  family := by
    rw [ht.spawned]
    exact h.family.congr ht.nchildren
  nodup := by
    rw [ht.spawned]
    exact h.nodup
  lt := by
    rw [ht.spawned]
    exact h.lt
  parent p hp := by
    rw [ht.parent]
    rw [ht.spawned] at hp
    exact h.parent p hp

theorem threadSpawn (h : Ids s) {id : ℕ} (hid : id ∈ s.spawned ∨ id = 0) (hn : (s.container id).nchildren < MAX_CHILDREN)
    (hlt : id * MAX_CHILDREN + 1 + (s.container id).nchildren < NUM_IDS) (quota : UInt32) :
    Ids (s.threadSpawn id quota).2 where
  family := h.family.split hn quota hid
  nodup := nodup_cons.mpr ⟨h.family.child_notMem hn, h.nodup⟩
  lt p hp := by
    rcases mem_cons.mp hp with rfl | hp
    · exact hlt
    · exact h.lt p hp
  parent p hp := by
    show ((containerSplit s.container id quota).2 p).parent = _
    rcases mem_cons.mp hp with rfl | hp
    · rw [parent_containerSplit, if_pos rfl]
      exact ((eq_child_iff hn).mp rfl).2.1.symm
    · have hne : p ≠ (containerSplit s.container id quota).1 := by
        rintro rfl
        exact h.family.child_notMem hn hp
      rw [parent_containerSplit, if_neg hne]
      exact h.parent p hp

theorem step (h : Ids s) (hst : AnyStep s t) : Ids t := by
  obtain ⟨p, a, hp, rfl⟩ := hst
  have h' : Ids { s with curid := p } := ⟨h.family, h.nodup, h.lt, h.parent⟩
  rcases step_tree { s with curid := p } a with ht | ⟨elfId, quota, -, he, ht⟩
  · exact h'.congr ht
  · obtain ⟨hn, hlt⟩ := child_lt_of_spawnError (h.family.le_max p) he
    rw [ht]
    exact h'.threadSpawn hp hn hlt quota

theorem reach (h : Ids s) (hr : ReflTransGen AnyStep s t) : Ids t := by
  induction hr with
  | refl => exact h
  | tail _ hst ih => exact ih.step hst

end Ids

theorem spawned_subset_of_reach (hr : ReflTransGen AnyStep s t) : s.spawned ⊆ t.spawned := by
  induction hr with
  | refl => exact List.Subset.refl _
  | tail _ hst ih =>
    obtain ⟨p, a, -, rfl⟩ := hst
    rename_i u _
    refine List.Subset.trans ih ?_
    rcases step_tree { u with curid := p } a with ht | ⟨elfId, quota, -, -, ht⟩
    · rw [ht.spawned]
      exact List.Subset.refl _
    · rw [ht]
      exact subset_cons_self _ _

theorem ids_boot (zeroed : ℕ → Bool) (quota : UInt32) : Ids (Sched.boot zeroed quota) := by
  have h0 : Ids (Sched.init zeroed quota) := ⟨family_init quota, nodup_nil, nofun, nofun⟩
  have hn0 : ((Sched.init zeroed quota).container 0).nchildren = 0 := rfl
  have h1 := h0.threadSpawn (.inr rfl) (by rw [hn0]; decide) (by rw [hn0]; decide) 1000
  have hn1 : (((Sched.init zeroed quota).threadSpawn 0 1000).2.container 0).nchildren = 1 := rfl
  have h2 := h1.threadSpawn (.inr rfl) (by rw [hn1]; decide) (by rw [hn1]; decide) 200000
  exact h2.congr ⟨rfl, fun _ => rfl, fun _ => rfl⟩

/-- Whatever processes have spawned, exited and been killed before, a `sys_spawn` that passes its checks returns an id in
range that is not `0` and was not returned before; and from then on, for the whole run, its parent is the process that
spawned it and the id is not returned again. -/
theorem pids_fresh {zeroed : ℕ → Bool} {total : UInt32} {s : Sched} (h : ReflTransGen AnyStep (Sched.boot zeroed total) s)
    {p : ℕ} (hp : p ∈ s.spawned ∨ p = 0) {elfId : ℕ} {quota : UInt32} (hs : spawnError s.container p elfId quota = none) :
    let id := (containerSplit s.container p quota).1
    let r := { s with curid := p }.sysSpawn elfId quota
    r.1 = .ok id ∧ id < NUM_IDS ∧ id ∉ s.spawned ∧ id ≠ 0 ∧
      ∀ t, ReflTransGen AnyStep r.2 t → (t.container id).parent = p ∧ t.spawned.count id = 1 := by
  intro id r
  have hi := (ids_boot zeroed total).reach h
  obtain ⟨hn, hlt⟩ := child_lt_of_spawnError (hi.family.le_max p) hs
  have hr : r = (.ok id, ({ s with curid := p }.threadSpawn p quota).2) := by
    simp only [r, Sched.sysSpawn, hs]
    rfl
  refine ⟨by rw [hr], hlt, hi.family.child_notMem hn, by simp only [id, containerSplit_fst]; omega, fun t ht => ?_⟩
  have hit : Ids t := (hi.step ⟨p, .spawn elfId quota, hp, rfl⟩).reach ht
  have hmem : id ∈ t.spawned := by
    refine spawned_subset_of_reach ht ?_
    rw [hr]
    exact mem_cons_self
  refine ⟨?_, count_eq_one_of_mem hit.nodup hmem⟩
  rw [hit.parent id hmem]
  exact ((eq_child_iff hn).mp rfl).2.1

theorem pids_fresh_after_kill :
    let s := ((Sched.boot (fun _ => false) 300000).step (.spawn 6 1000)).step (.kill 511 9)
    let id := (containerSplit s.container 2 1000).1
    let r := { s with curid := 2 }.sysSpawn 6 1000
    s.state 511 = .dead ∧ id = 512 ∧
      r.1 = .ok id ∧ id < NUM_IDS ∧ id ∉ s.spawned ∧ id ≠ 0 ∧
        ∀ t, ReflTransGen AnyStep r.2 t → (t.container id).parent = 2 ∧ t.spawned.count id = 1 := by
  intro s id r
  have h₁ : AnyStep (Sched.boot (fun _ => false) 300000) ((Sched.boot (fun _ => false) 300000).step (.spawn 6 1000)) :=
    (inv_boot _ _).anyStep _
  have h₂ : AnyStep ((Sched.boot (fun _ => false) 300000).step (.spawn 6 1000)) s :=
    ⟨2, .kill 511 9, .inl (by decide), rfl⟩
  refine ⟨by decide, by decide, ?_⟩
  exact pids_fresh ((ReflTransGen.single h₁).tail h₂) (.inl (by decide)) (by decide)

/-! ### Pids that were not spawned -/

namespace Sched

/-- `sys_waitpid` at the test of its loop: what it returns, if it returns. Otherwise it gives up the CPU, and tests again
when it has it back. -/
def sysWaitpid (s : Sched) (pid : ℤ) : Option Errno × Sched :=
  if pid < 0 ∨ (NUM_IDS : ℤ) ≤ pid then (some .invalPid, s)
  else if s.state pid.toNat = .dead then (some .succ, s)
  else (none, s.threadYield)

end Sched

def KernelStep (s t : Sched) : Prop := ∃ a : Act, t = s.step a

/-- The links lead from the ready queue only to the indices in `K`, and the others have no links. -/
structure Within (K : Set ℕ) (q : Links ℕ) : Prop where
  head : q.head ∈ K
  tail : q.tail ∈ K
  prev : ∀ p, q.prev p ∈ K
  next : ∀ p, q.next p ∈ K
  detached : ∀ p ∉ K, q.prev p = NUM_IDS ∧ q.next p = NUM_IDS

namespace Within

variable {K : Set ℕ} {q : Links ℕ} {p r : ℕ}

section

variable (h : Within K q) (hp : p ∈ K)
include h hp

theorem setHead : Within K { q with head := p } := ⟨hp, h.tail, h.prev, h.next, h.detached⟩

theorem setTail : Within K { q with tail := p } := ⟨h.head, hp, h.prev, h.next, h.detached⟩

theorem setPrev (hr : r ∈ K) : Within K { q with prev := Function.update q.prev p r } where
  head := h.head
  tail := h.tail
  prev i := by
    by_cases hi : i = p
    · simpa [hi] using hr
    · simpa [hi] using h.prev i
  next := h.next
  detached i hi := by
    have hne : i ≠ p := fun e => hi (e ▸ hp)
    simpa [hne] using h.detached i hi

theorem setNext (hr : r ∈ K) : Within K { q with next := Function.update q.next p r } where
  head := h.head
  tail := h.tail
  prev := h.prev
  next i := by
    by_cases hi : i = p
    · simpa [hi] using hr
    · simpa [hi] using h.next i
  detached i hi := by
    have hne : i ≠ p := fun e => hi (e ▸ hp)
    simpa [hne] using h.detached i hi

end

theorem tqueueEnqueue (h : Within K q) (hN : NUM_IDS ∈ K) (hp : p ∈ K) : Within K (tqueueEnqueue q p) := by
  unfold Thread.tqueueEnqueue
  split_ifs
  · exact (((h.setPrev hp hN).setNext hp hN).setHead hp).setTail hp
  · exact (((h.setPrev hp h.tail).setNext h.tail hp).setNext hp hN).setTail hp

theorem tqueueDequeue (h : Within K q) (hN : NUM_IDS ∈ K) :
    (tqueueDequeue q).1 ∈ K ∧ Within K (tqueueDequeue q).2 := by
  unfold Thread.tqueueDequeue
  dsimp only
  split_ifs with hh hn
  · exact ⟨h.head, (((h.setHead hN).setTail hN).setPrev h.head hN).setNext h.head hN⟩
  · exact ⟨h.head, (((h.setPrev (h.next _) hN).setHead (h.next _)).setPrev h.head hN).setNext h.head hN⟩
  · exact ⟨hN, h⟩

theorem tqueueRemove (h : Within K q) (hN : NUM_IDS ∈ K) (hp : p ∈ K) : Within K (tqueueRemove q p) := by
  unfold Thread.tqueueRemove
  dsimp only
  split_ifs with h1 h2 h3 h4
  · exact h
  · exact (((h.setHead hN).setTail hN).setPrev hp hN).setNext hp hN
  · exact (((h.setPrev (h.next _) hN).setHead (h.next _)).setPrev hp hN).setNext hp hN
  · exact (((h.setNext (h.prev _) hN).setTail (h.prev _)).setPrev hp hN).setNext hp hN
  · exact (((h.setNext (h.prev _) (h.next _)).setPrev (h.next _) (h.prev _)).setPrev hp hN).setNext hp hN

end Within

/-- Outside of `K` the thread control blocks are as `tcb_init_at_id` left them. -/
structure Untouched (K : Set ℕ) (s : Sched) : Prop where
  nil : NUM_IDS ∈ K
  idle : 1 ∈ K
  links : Within K s.links
  cur : s.curid ∈ K
  dead : ∀ p ∉ K, s.state p = .dead

namespace Untouched

variable {K : Set ℕ} {s : Sched} {p : ℕ}

section

variable (h : Untouched K s)
include h

theorem mem (hp : s.state p ≠ .dead) : p ∈ K := by
  by_contra hn
  exact hp (h.dead p hn)

theorem setState (hp : p ∈ K) (st : TState) : Untouched K (s.setState p st) where
  nil := h.nil
  idle := h.idle
  links := h.links
  cur := h.cur
  dead r hr := by
    have hne : r ≠ p := fun e => hr (e ▸ hp)
    simpa [Sched.setState, hne] using h.dead r hr

theorem switchTo {links : Links ℕ} (hl : Within K links) (hp : p ∈ K) :
    Untouched K ({ s with links := links }.switchTo p) := by
  have h' := h.setState hp .run
  exact ⟨h.nil, h.idle, hl, hp, h'.dead⟩

theorem threadYield : Untouched K s.threadYield := by
  have h' := h.setState h.cur .ready
  obtain ⟨hd, hl⟩ := (h'.links.tqueueEnqueue h.nil h.cur).tqueueDequeue h.nil
  exact h'.switchTo hl hd

theorem threadExit : Untouched K s.threadExit := by
  obtain ⟨hd, hl⟩ := h.links.tqueueDequeue h.nil
  refine h.switchTo hl ?_
  split_ifs
  · exact h.idle
  · exact hd

theorem threadSleep (chan : ℕ) : Untouched K (s.threadSleep chan) := by
  have h' : Untouched K ((s.setState s.curid .sleep).setChan s.curid chan) :=
    ⟨h.nil, h.idle, h.links, h.cur, (h.setState h.cur .sleep).dead⟩
  obtain ⟨hd, hl⟩ := h'.links.tqueueDequeue h.nil
  exact h'.switchTo hl hd

theorem wakeOne (chan p : ℕ) : Untouched K (s.wakeOne chan p) := by
  unfold Sched.wakeOne
  split_ifs with hw
  · have hp : p ∈ K := h.mem (by rw [hw.2]; decide)
    exact ⟨h.nil, h.idle, h.links.tqueueEnqueue h.nil hp, h.cur, (h.setState hp .ready).dead⟩
  · exact h

theorem threadWakeup (chan : ℕ) : Untouched K (s.threadWakeup chan) := by
  unfold Sched.threadWakeup
  exact List.foldlRecOn (motive := Untouched K) _ _ h fun t ht p _ => ht.wakeOne chan p

theorem markDead (hp : p ∈ K) : Untouched K (s.markDead p) :=
  ⟨h.nil, h.idle, h.links.tqueueRemove h.nil hp, h.cur, (h.setState hp .dead).dead⟩

theorem refund (p : ℕ) : Untouched K (s.refund p) := ⟨h.nil, h.idle, h.links, h.cur, h.dead⟩

theorem sysKill (pid signum : ℤ) : Untouched K (s.sysKill pid signum).2 := by
  unfold Sched.sysKill
  dsimp only
  split_ifs with h1 h2 h3 h4
  · exact h
  · exact h
  · have hp : pid.toNat ∈ K := h.mem fun hd => h2 (.inr (.inr hd))
    exact (h.markDead hp).refund _
  · have h' : Untouched K (s.addPending pid.toNat signum.toNat) := ⟨h.nil, h.idle, h.links, h.cur, h.dead⟩
    dsimp only
    exact h'.threadWakeup _
  · exact ⟨h.nil, h.idle, h.links, h.cur, h.dead⟩

theorem schedUpdate : Untouched K s.schedUpdate := by
  simp only [Sched.schedUpdate]
  split_ifs
  · exact threadYield ⟨h.nil, h.idle, h.links, h.cur, h.dead⟩
  · exact ⟨h.nil, h.idle, h.links, h.cur, h.dead⟩

theorem sysPause : Untouched K s.sysPause := by
  unfold Sched.sysPause
  split_ifs
  · exact h
  · exact (h.setState h.cur .sleep).threadYield

theorem handlePendingSignals : Untouched K s.handlePendingSignals := by
  unfold Sched.handlePendingSignals
  split
  · exact h
  · rename_i signum _
    have h' : Untouched K (s.clearPending s.curid signum) := ⟨h.nil, h.idle, h.links, h.cur, h.dead⟩
    dsimp only
    split_ifs
    · exact (h'.markDead h.cur).threadExit
    · exact h'

theorem threadSpawn (id : ℕ) (quota : UInt32) {K' : Set ℕ} (hK : K ⊆ K')
    (hp : (s.threadSpawn id quota).1 ∈ K') : Untouched K' (s.threadSpawn id quota).2 := by
  have hl : Within K' s.links := ⟨hK h.links.head, hK h.links.tail, fun p => hK (h.links.prev p), fun p => hK (h.links.next p),
    fun p hn => h.links.detached p fun hm => hn (hK hm)⟩
  refine ⟨hK h.nil, hK h.idle, hl.tqueueEnqueue (hK h.nil) hp, hK h.cur, fun p hn => ?_⟩
  have hne : p ≠ (s.threadSpawn id quota).1 := fun e => hn (e ▸ hp)
  exact (Function.update_of_ne hne _ _).trans (h.dead p fun hm => hn (hK hm))

end

end Untouched

/-- The thread control blocks that are not as `tcb_init_at_id` left them may be these: the ones of processes and of the
kernel's thread, and the ones that were not initialised. `NUM_IDS` and the numbers after it have none. -/
def Sched.known (zeroed : ℕ → Bool) (s : Sched) : Set ℕ := { p | p ∈ s.spawned ∨ p = 0 ∨ NUM_IDS ≤ p ∨ zeroed p = true }

theorem untouched_step (h : Untouched (s.known zeroed) s) (a : Act) :
    Untouched ((s.step a).known zeroed) (s.step a) := by
  rcases step_tree s a with ht | ⟨elfId, quota, -, -, ht⟩
  · -- nobody was spawned
    have hk : (s.step a).known zeroed = s.known zeroed := by
      unfold Sched.known
      rw [ht.spawned]
    rw [hk]
    cases a with
    | spawn elfId quota =>
      have hsp : (s.sysSpawn elfId quota).2.spawned = s.spawned := ht.spawned
      simp only [Sched.step]
      unfold Sched.sysSpawn at hsp ⊢
      split
      · exact h
      · rename_i he
        rw [he] at hsp
        exact absurd hsp (cons_ne_self _ _)
    | kill pid signum => exact h.sysKill pid signum
    | exit => exact ((h.markDead h.cur).refund _).threadExit
    | yield => exact h.threadYield
    | tick => exact h.schedUpdate
    | pause => exact h.sysPause
    | sleep chan => exact h.threadSleep chan
    | wakeup chan => exact h.threadWakeup chan
    | alloc id => exact ⟨h.nil, h.idle, h.links, h.cur, h.dead⟩
    | signals => exact h.handlePendingSignals
  · rw [ht]
    exact h.threadSpawn s.curid quota (fun p hp => hp.imp_left (mem_cons_of_mem _)) (.inl mem_cons_self)

theorem untouched_reach (h : Untouched (s.known zeroed) s) (hr : ReflTransGen KernelStep s t) :
    Untouched (t.known zeroed) t := by
  induction hr with
  | refl => exact h
  | tail _ hst ih =>
    obtain ⟨a, rfl⟩ := hst
    exact untouched_step ih a

theorem untouched_boot (zeroed : ℕ → Bool) (quota : UInt32) :
    Untouched ((Sched.boot zeroed quota).known zeroed) (Sched.boot zeroed quota) := by
  -- the two processes are counted in from the start
  have hz : ∀ p ∉ (Sched.boot zeroed quota).known zeroed, zeroed p = false := fun p hp =>
    Bool.eq_false_iff.mpr fun e => hp (.inr (.inr (.inr e)))
  have hN : NUM_IDS ∈ (Sched.boot zeroed quota).known zeroed := .inr (.inr (.inl le_rfl))
  have h0 : 0 ∈ (Sched.boot zeroed quota).known zeroed := .inr (.inl rfl)
  have h1 : 1 ∈ (Sched.boot zeroed quota).known zeroed := .inl (by simp)
  have h2 : 2 ∈ (Sched.boot zeroed quota).known zeroed := .inl (by simp)
  have hlink : ∀ p, (if zeroed p then 0 else NUM_IDS) ∈ (Sched.boot zeroed quota).known zeroed := fun p => by
    split_ifs
    · exact h0
    · exact hN
  have hi : Untouched ((Sched.boot zeroed quota).known zeroed) (Sched.init zeroed quota) := by
    refine ⟨hN, h1, ⟨hN, hN, hlink, hlink, fun p hp => ?_⟩, h0, fun p hp => ?_⟩
    · simp [Sched.init, hz p hp]
    · have hp0 : p ≠ 0 := fun e => hp (e ▸ h0)
      simp [Sched.init, hp0, hz p hp]
  have hi1 := hi.threadSpawn 0 1000 subset_rfl h1
  have hi2 := hi1.threadSpawn 0 200000 subset_rfl h2
  exact hi2.switchTo (hi2.links.tqueueRemove hN h2) h2

/-- In every state of the kernel, if `tcb_init_at_id` has initialised the block of a pid that was not spawned, the block is
dead and has no links, so `sys_kill` changes nothing and reports the pid, when the signal is in range, and `sys_waitpid`
returns at once. -/
theorem unspawned_rejected {zeroed : ℕ → Bool} {total : UInt32} {s : Sched}
    (h : ReflTransGen KernelStep (Sched.boot zeroed total) s) {pid : ℕ} (h1 : 1 ≤ pid) (hlt : pid < NUM_IDS)
    (hns : pid ∉ s.spawned) (hz : zeroed pid = false) :
    s.state pid = .dead ∧ s.links.prev pid = NUM_IDS ∧ s.links.next pid = NUM_IDS ∧
      (∀ signum : ℤ, s.sysKill pid signum = (if 1 ≤ signum ∧ signum < NSIG then .invalPid else .invalSignum, s)) ∧
      s.sysWaitpid pid = (some .succ, s) := by
  have hu := untouched_reach (untouched_boot zeroed total) h
  have hk : pid ∉ s.known zeroed := by
    rintro (hm | rfl | hm | hm)
    · exact hns hm
    · omega
    · omega
    · rw [hz] at hm
      cases hm
  have hd := hu.dead pid hk
  obtain ⟨hp, hn⟩ := hu.links.detached pid hk
  refine ⟨hd, hp, hn, fun signum => ?_, ?_⟩
  · unfold Sched.sysKill
    by_cases hs : 1 ≤ signum ∧ signum < NSIG
    · rw [if_neg (by omega), if_pos (.inr (.inr (by simpa using hd))), if_pos hs]
    · rw [if_pos (by omega), if_neg hs]
  · unfold Sched.sysWaitpid
    rw [if_neg (by omega), if_pos (by simpa using hd)]

theorem unspawned_rejected_six :
    let s := Sched.boot (fun p => p = 5) 300000
    s.state 6 = .dead ∧ s.links.prev 6 = NUM_IDS ∧ s.links.next 6 = NUM_IDS ∧
      (∀ signum : ℤ, s.sysKill (6 : ℕ) signum = (if 1 ≤ signum ∧ signum < NSIG then .invalPid else .invalSignum, s)) ∧
      s.sysWaitpid (6 : ℕ) = (some .succ, s) :=
  unspawned_rejected .refl (by decide) (by decide) (by decide) (by decide)

/-- Block `5` keeps its zeros: pid `5` is ready without having been spawned, `sys_kill` accepts it and marks it dead, and
`sys_waitpid` waits for it. -/
theorem unspawned_zeroed :
    let s := Sched.boot (fun p => p = 5) 300000
    5 ∉ s.spawned ∧ s.state 5 = .ready ∧ s.links.prev 5 = 0 ∧ s.links.next 5 = 0 ∧
      (s.sysKill 5 9).1 = .succ ∧ (s.sysKill 5 9).2.state 5 = .dead ∧ (s.sysWaitpid 5).1 = none := by
  decide

end MCertiKOS.Thread
