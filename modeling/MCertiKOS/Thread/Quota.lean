import MCertiKOS.Thread.Death
import MCertiKOS.Memory.PageAlloc

/-!
# Quotas

The accounts of `MContainer.c` along the runs of the scheduler.

`container_can_consume` adds the `unsigned` amount asked for to the `int` usage, modulo `2 ^ 32`: a process that uses
one page is granted a quota of `2 ^ 32 - 1`, and its child has the quota `-1` (`quota_wraps`). As long as no such sum
wraps, every usage stays between `0` and the quota (`quota_bounds`).

`sys_exit` and `sys_kill` give the whole quota of the process that dies back to its parent, but not its pages:
`pfree` is never called. So a child that dies with a page leaves its parent a quota that no free page backs
(`refund_overcommits`). The quotas granted stay backed as long as only processes without usage are terminated
(`no_overcommit`).
-/

namespace MCertiKOS.Thread

open Library Memory Relation Finset

/-- The value of a field of type `int`. -/
def asInt (w : UInt32) : ℤ := w.toBitVec.toInt

theorem asInt_of_lt {w : UInt32} (h : w.toNat < 2 ^ 31) : asInt w = w.toNat :=
  BitVec.toInt_eq_toNat_of_lt (by simpa using by omega)

/-! ### Bounds -/

/-- No usage is above its quota, and quotas are small enough for an `int`. -/
def WithinQuota (c : Containers) : Prop := ∀ id, (c id).usage ≤ (c id).quota ∧ (c id).quota.toNat < 2 ^ 31

namespace WithinQuota

variable {c : Containers}

theorem update (h : WithinQuota c) {id : ℕ} {v : SContainer} (hv : v.usage ≤ v.quota)
    (hq : v.quota.toNat < 2 ^ 31) : WithinQuota (Function.update c id v) := by
  intro i
  by_cases hi : i = id
  · subst hi
    simpa using ⟨hv, hq⟩
  · simpa [hi] using h i

theorem split (h : WithinQuota c) {id : ℕ} {quota : UInt32}
    (hle : (c id).usage.toNat + quota.toNat ≤ (c id).quota.toNat) : WithinQuota (containerSplit c id quota).2 := by
  have hchild : id ≠ id * MAX_CHILDREN + 1 + (c id).nchildren := by
    unfold MAX_CHILDREN
    omega
  have hlt := (h id).2
  refine (h.update ?_ ?_).update ?_ ?_
  · exact UInt32.le_iff_toNat_le.mpr (Nat.zero_le _)
  · show quota.toNat < 2 ^ 31
    omega
  · rw [Function.update_of_ne hchild]
    rw [UInt32.le_iff_toNat_le, UInt32.toNat_add, Nat.mod_eq_of_lt (by omega)]
    exact hle
  · rw [Function.update_of_ne hchild]
    exact hlt

theorem alloc (h : WithinQuota c) (id : ℕ) : WithinQuota (containerAlloc c id).2 := by
  unfold containerAlloc
  split_ifs with hu
  · exact h
  · obtain ⟨hle, hlt⟩ := h id
    refine h.update ?_ hlt
    have hne : (c id).usage.toNat ≠ (c id).quota.toNat := fun e => hu (UInt32.toNat_inj.mp e)
    show (c id).usage + 1 ≤ (c id).quota
    rw [UInt32.le_iff_toNat_le] at hle ⊢
    rw [UInt32.toNat_add, UInt32.toNat_one, Nat.mod_eq_of_lt (by omega)]
    omega

theorem refund (h : WithinQuota c) (id : ℕ) (quota : UInt32) : WithinQuota (containerRefundUsage c id quota) := by
  obtain ⟨hle, hlt⟩ := h id
  refine h.update ?_ hlt
  show (if quota ≤ (c id).usage then (c id).usage - quota else 0) ≤ (c id).quota
  split_ifs with hq
  · rw [UInt32.le_iff_toNat_le] at hle ⊢
    rw [UInt32.toNat_sub_of_le _ _ hq]
    omega
  · exact UInt32.le_iff_toNat_le.mpr (Nat.zero_le _)

end WithinQuota

theorem containerCanConsume_iff {c : Containers} {id : ℕ} {n : UInt32}
    (h : (c id).usage.toNat + n.toNat < 2 ^ 32) :
    containerCanConsume c id n = true ↔ (c id).usage.toNat + n.toNat ≤ (c id).quota.toNat := by
  have hsum : ((c id).usage + n).toNat = (c id).usage.toNat + n.toNat := by
    rw [UInt32.toNat_add, Nat.mod_eq_of_lt h]
  unfold containerCanConsume
  split_ifs with hlt
  · rw [UInt32.lt_iff_toNat_lt, hsum] at hlt
    simpa using hlt
  · rw [UInt32.lt_iff_toNat_lt, hsum] at hlt
    simpa using hlt

theorem canConsume_of_spawnError {c : Containers} {curid elfId : ℕ} {quota : UInt32}
    (h : spawnError c curid elfId quota = none) : containerCanConsume c curid quota = true := by
  unfold spawnError at h
  split_ifs at h with hq
  simpa using hq

/-! ### Steps that leave the accounts alone -/

/-- Neither the containers nor who was spawned and refunded has changed. -/
structure Quiet (s t : Sched) : Prop where
  container : t.container = s.container
  spawned : t.spawned = s.spawned
  refunds : t.refunds = s.refunds

theorem Quiet.refl (s : Sched) : Quiet s s := ⟨rfl, rfl, rfl⟩

theorem quiet_threadWakeup (s : Sched) (chan : ℕ) : Quiet s (s.threadWakeup chan) := by
  refine List.foldlRecOn (motive := Quiet s) _ _ (.refl s) fun t ht p _ => ?_
  unfold Sched.wakeOne
  split_ifs
  · exact ⟨ht.container, ht.spawned, ht.refunds⟩
  · exact ht

theorem quiet_schedUpdate (s : Sched) : Quiet s s.schedUpdate := by
  simp only [Sched.schedUpdate]
  split_ifs
  · exact ⟨rfl, rfl, rfl⟩
  · exact ⟨rfl, rfl, rfl⟩

theorem quiet_sysPause (s : Sched) : Quiet s s.sysPause := by
  unfold Sched.sysPause
  split_ifs
  · exact .refl s
  · exact ⟨rfl, rfl, rfl⟩

theorem quiet_handlePendingSignals (s : Sched) : Quiet s s.handlePendingSignals := by
  unfold Sched.handlePendingSignals
  split
  · exact .refl s
  · dsimp only
    split_ifs
    · exact ⟨rfl, rfl, rfl⟩
    · exact ⟨rfl, rfl, rfl⟩

theorem sysKill_cases (s : Sched) (pid signum : ℤ) :
    Quiet s (s.sysKill pid signum).2 ∨
      (signum = SIGKILL ∧ 0 ≤ pid ∧ pid < NUM_IDS ∧ s.state pid.toNat ≠ .dead ∧
        (s.sysKill pid signum).2 = (s.markDead pid.toNat).refund pid.toNat) := by
  unfold Sched.sysKill
  split_ifs with h1 h2 h3
  · exact .inl (.refl s)
  · exact .inl (.refl s)
  · simp only [not_or, not_lt, not_le] at h2
    exact .inr ⟨h3, h2.1, h2.2.1, h2.2.2, rfl⟩
  · dsimp only
    split_ifs
    · have h := quiet_threadWakeup (s.addPending pid.toNat signum.toNat)
        ((s.addPending pid.toNat signum.toNat).channel pid.toNat)
      exact .inl ⟨h.container, h.spawned, h.refunds⟩
    · exact .inl ⟨rfl, rfl, rfl⟩

/-! ### Quotas along a run -/

/-- The condition on a step in state `s`: the sum that `sys_spawn` checks does not wrap. -/
def Act.NoWrap (s : Sched) : Act → Prop
  | .spawn _ quota => (s.container s.curid).usage.toNat + quota.toNat < 2 ^ 32
  | _ => True

def NoWrapStep (s t : Sched) : Prop := ∃ a : Act, a.NoWrap s ∧ t = s.step a

theorem WithinQuota.step {s : Sched} (h : WithinQuota s.container) {a : Act} (ha : a.NoWrap s) :
    WithinQuota (s.step a).container := by
  have hquiet : ∀ {t : Sched}, Quiet s t → WithinQuota t.container := fun ht => ht.container ▸ h
  cases a with
  | spawn elfId quota =>
    simp only [Sched.step, Sched.sysSpawn]
    split
    · exact h
    · rename_i hs
      exact h.split ((containerCanConsume_iff ha).mp (canConsume_of_spawnError hs))
  | kill pid signum =>
    rcases sysKill_cases s pid signum with hq | ⟨-, -, -, -, he⟩
    · exact hquiet hq
    · simp only [Sched.step, he]
      exact h.refund _ _
  | exit => exact h.refund _ _
  | yield => exact h
  | tick => exact hquiet (quiet_schedUpdate s)
  | pause => exact hquiet (quiet_sysPause s)
  | sleep chan => exact h
  | wakeup chan => exact hquiet (quiet_threadWakeup s chan)
  | alloc id => exact h.alloc id
  | signals => exact hquiet (quiet_handlePendingSignals s)

theorem WithinQuota.reach {s t : Sched} (hs : WithinQuota s.container) (h : ReflTransGen NoWrapStep s t) :
    WithinQuota t.container := by
  induction h with
  | refl => exact hs
  | tail _ hstep ih =>
    obtain ⟨a, ha, rfl⟩ := hstep
    exact ih.step ha

theorem withinQuota_boot (zeroed : ℕ → Bool) {quota : UInt32} (hlo : 201000 ≤ quota.toNat) (hhi : quota.toNat < 2 ^ 31) :
    WithinQuota (Sched.boot zeroed quota).container := by
  have h0 : WithinQuota (containerInit quota) := by
    intro id
    by_cases hid : id = 0
    · simpa [containerInit, hid, UInt32.le_iff_toNat_le] using hhi
    · simp [containerInit, hid]
  have h1 : WithinQuota (containerSplit (containerInit quota) 0 1000).2 :=
    h0.split (by simp [containerInit]; omega)
  exact h1.split (by simp [containerInit, containerSplit]; omega)

/-- `kern_main` on a machine with the memory map `mm`: `container_init` gives the root the free pages. -/
def Sched.start (zeroed : ℕ → Bool) (mm : List MemRange) : Sched :=
  Sched.boot zeroed (UInt32.ofNat (realQuota (pmemInit mm)))

theorem toNat_realQuota (mm : List MemRange) :
    (UInt32.ofNat (realQuota (pmemInit mm))).toNat = realQuota (pmemInit mm) := by
  have := realQuota_le mm
  exact UInt32.toNat_ofNat_of_lt' (lt_of_le_of_lt this (by decide))

theorem withinQuota_start (zeroed : ℕ → Bool) {mm : List MemRange} (h : 201000 ≤ realQuota (pmemInit mm)) :
    WithinQuota (Sched.start zeroed mm).container := by
  have := realQuota_le mm
  have := toNat_realQuota mm
  exact withinQuota_boot zeroed (by omega) (by omega)

/-- When no sum of `sys_spawn` wraps, every used container has a usage between `0` and its quota, and `sys_spawn`
succeeds only if the quota asked for is left. -/
theorem quota_bounds (zeroed : ℕ → Bool) {mm : List MemRange} (hmm : 201000 ≤ realQuota (pmemInit mm)) {s : Sched}
    (h : ReflTransGen NoWrapStep (Sched.start zeroed mm) s) :
    (∀ id, (s.container id).used = true →
        0 ≤ asInt (s.container id).usage ∧ asInt (s.container id).usage ≤ asInt (s.container id).quota) ∧
      ∀ (elfId : ℕ) (quota : UInt32) (pid : ℕ), (Act.spawn elfId quota).NoWrap s →
        (s.sysSpawn elfId quota).1 = .ok pid →
        asInt (s.container s.curid).usage + quota.toNat ≤ asInt (s.container s.curid).quota := by
  have hw := (withinQuota_start zeroed hmm).reach h
  have hint : ∀ id, asInt (s.container id).usage = (s.container id).usage.toNat ∧
      asInt (s.container id).quota = (s.container id).quota.toNat := by
    intro id
    obtain ⟨hle, hlt⟩ := hw id
    rw [UInt32.le_iff_toNat_le] at hle
    exact ⟨asInt_of_lt (by omega), asInt_of_lt hlt⟩
  refine ⟨fun id _ => ?_, fun elfId quota pid hwrap hok => ?_⟩
  · rw [(hint id).1, (hint id).2]
    have := UInt32.le_iff_toNat_le.mp (hw id).1
    omega
  · rw [(hint _).1, (hint _).2]
    unfold Sched.sysSpawn at hok
    split at hok
    · cases hok
    · rename_i hs
      have := (containerCanConsume_iff hwrap).mp (canConsume_of_spawnError hs)
      omega

theorem quota_bounds_spawn :
    let s := (Sched.start (fun _ => false) mem2G).step (.spawn 6 1000)
    (s.container 511).used = true ∧
    (∀ id, (s.container id).used = true →
        0 ≤ asInt (s.container id).usage ∧ asInt (s.container id).usage ≤ asInt (s.container id).quota) ∧
      ∀ (elfId : ℕ) (quota : UInt32) (pid : ℕ), (Act.spawn elfId quota).NoWrap s →
        (s.sysSpawn elfId quota).1 = .ok pid →
        asInt (s.container s.curid).usage + quota.toNat ≤ asInt (s.container s.curid).quota := by
  intro s
  refine ⟨?_, quota_bounds (fun _ => false) (by rw [realQuota_mem2G]; decide) ?_⟩
  · simp only [s, Sched.start, realQuota_mem2G]
    decide
  · refine .single ⟨.spawn 6 1000, ?_, rfl⟩
    simp only [Act.NoWrap, Sched.start, realQuota_mem2G]
    decide

/-- The shell allocates a page and asks for a child with a quota of `2 ^ 32 - 1`: the sum wraps around to `0`, so
`sys_spawn` succeeds, and the child's quota is `-1`. -/
theorem quota_wraps :
    let s := (Sched.start (fun _ => false) mem2G).step (.alloc 2)
    let t := s.step (.spawn 6 0xFFFFFFFF)
    (s.sysSpawn 6 0xFFFFFFFF).1 = .ok 511 ∧ asInt (s.container s.curid).quota < asInt (s.container s.curid).usage + 0xFFFFFFFF ∧
      (t.container 511).used = true ∧ asInt (t.container 511).quota = -1 ∧
      ¬ asInt (t.container 511).usage ≤ asInt (t.container 511).quota := by
  decide

/-! ### Quotas and free pages -/

/-- The scheduler and the allocation table. -/
structure Machine where
  sched : Sched
  table : AT

namespace Machine

/-- The allocation table after a step: only `container_alloc` takes pages. -/
def tableAfter (m : Machine) : Act → AT
  | .alloc id => ((Pmm.mk m.sched.container m.table).containerAlloc id).2.table
  | _ => m.table

def step (m : Machine) (a : Act) : Machine := ⟨m.sched.step a, m.tableAfter a⟩

/-- The machine after `kern_main`. -/
def start (zeroed : ℕ → Bool) (mm : List MemRange) : Machine := ⟨Sched.start zeroed mm, pmemInit mm⟩

theorem table_step (m : Machine) {a : Act} (h : ∀ id, a ≠ .alloc id) : (m.step a).table = m.table := by
  show m.tableAfter a = m.table
  unfold tableAfter
  split
  · exact absurd rfl (h _)
  · rfl

end Machine

namespace Sched

/-- The processes whose quotas are to be backed: the root and those that are not dead. -/
def alive (s : Sched) : Finset ℕ := insert 0 {p ∈ s.spawned.toFinset | s.state p ≠ .dead}

theorem mem_alive {s : Sched} {p : ℕ} : p ∈ s.alive ↔ p = 0 ∨ p ∈ s.spawned ∧ s.state p ≠ .dead := by
  simp [alive]

def granted (s : Sched) : ℤ := ∑ p ∈ s.alive, (asInt (s.container p).quota - asInt (s.container p).usage)

end Sched

/-- The condition on a step in state `s`: the sum that `sys_spawn` checks does not wrap, a process that is terminated
has no usage, and no page is allocated for a dead process. -/
def Act.Backed (s : Sched) : Act → Prop
  | .spawn elfId quota => (Act.spawn elfId quota).NoWrap s
  | .kill pid signum => signum = SIGKILL → (s.container pid.toNat).usage = 0
  | .exit => (s.container s.curid).usage = 0
  | .alloc id => id ∈ s.spawned → s.state id ≠ .dead
  | _ => True

def BackedStep (m t : Machine) : Prop := ∃ a : Act, a.Safe m.sched ∧ a.Backed m.sched ∧ t = m.step a

def left (c : Containers) (p : ℕ) : ℤ := (c p).quota.toNat - (c p).usage.toNat

/-- What the accounts of a run satisfy. -/
structure Accounts (s : Sched) : Prop where
  within : WithinQuota s.container
  empty : ∀ p, p ∉ s.spawned → p ≠ 0 → (s.container p).quota = 0 ∧ (s.container p).usage = 0
  root : (s.container 0).parent = 0

theorem Accounts.granted_eq {s : Sched} (h : Accounts s) : s.granted = ∑ p ∈ s.alive, left s.container p := by
  refine sum_congr rfl fun p _ => ?_
  obtain ⟨hle, hlt⟩ := h.within p
  rw [UInt32.le_iff_toNat_le] at hle
  rw [asInt_of_lt hlt, asInt_of_lt (by omega), left]

theorem sum_le_of_one {S : Finset ℕ} {f g : ℕ → ℤ} {r : ℕ} {d : ℤ} (hd : 0 ≤ d) (hr : g r ≤ f r + d)
    (hother : ∀ p, p ≠ r → g p = f p) : ∑ p ∈ S, g p ≤ (∑ p ∈ S, f p) + d := by
  have herase : ∑ p ∈ S.erase r, g p = ∑ p ∈ S.erase r, f p :=
    sum_congr rfl fun p hp => hother p (ne_of_mem_erase hp)
  by_cases hS : r ∈ S
  · have hg := add_sum_erase S g hS
    have hf := add_sum_erase S f hS
    omega
  · rw [erase_eq_of_notMem hS] at herase
    omega

namespace Accounts

variable {s t : Sched}

section

variable (h : Accounts s)
include h

theorem of_quiet (hq : Quiet s t) : Accounts t := by
  refine ⟨hq.container ▸ h.within, ?_, hq.container ▸ h.root⟩
  rw [hq.container, hq.spawned]
  exact h.empty

omit h in
theorem granted_of_quiet {l l' : List ℕ} (hs : Base s l) (ht : Base t l') (hq : Quiet s t) : t.granted = s.granted := by
  have halive : t.alive = s.alive := by
    unfold Sched.alive
    congr 1
    ext p
    simp only [mem_filter, List.mem_toFinset, hq.spawned]
    refine and_congr_right fun hp => ?_
    have hr := ht.refunds p (hq.spawned ▸ hp)
    rw [hq.refunds, hs.refunds p hp] at hr
    by_cases h1 : s.state p = .dead <;> by_cases h2 : t.state p = .dead <;> simp_all
  unfold Sched.granted
  rw [halive, hq.container]

theorem alloc {id : ℕ} (hu : (s.container id).usage ≠ (s.container id).quota) :
    Accounts { s with container := (containerAlloc s.container id).2 } := by
  refine ⟨h.within.alloc id, fun p hp hp0 => ?_, ?_⟩
  · have hpid : p ≠ id := by
      rintro rfl
      obtain ⟨hq, hz⟩ := h.empty p hp hp0
      exact hu (hz.trans hq.symm)
    simpa [containerAlloc, hu, hpid] using h.empty p hp hp0
  · by_cases hid : 0 = id
    · subst hid
      simpa [containerAlloc, hu] using h.root
    · simpa [containerAlloc, hu, hid] using h.root

theorem granted_alloc {id : ℕ} (hu : (s.container id).usage ≠ (s.container id).quota)
    (hid : id ∈ s.spawned → s.state id ≠ .dead) :
    Sched.granted { s with container := (containerAlloc s.container id).2 } + 1 = s.granted := by
  have hmem : id ∈ s.alive := by
    by_contra hn
    simp only [Sched.alive, mem_insert, mem_filter, List.mem_toFinset, not_or, not_and, not_not] at hn
    have hns : id ∉ s.spawned := fun hs => hid hs (hn.2 hs)
    obtain ⟨hq, hz⟩ := h.empty id hns hn.1
    exact hu (hz.trans hq.symm)
  rw [h.granted_eq, (h.alloc hu).granted_eq]
  show (∑ p ∈ s.alive, left (containerAlloc s.container id).2 p) + 1 = _
  rw [← add_sum_erase _ _ hmem, ← add_sum_erase _ (left s.container) hmem]
  have herase : ∑ p ∈ s.alive.erase id, left (containerAlloc s.container id).2 p =
      ∑ p ∈ s.alive.erase id, left s.container p :=
    sum_congr rfl fun p hp => by simp [left, containerAlloc, hu, ne_of_mem_erase hp]
  have hplus : ((s.container id).usage + 1).toNat = (s.container id).usage.toNat + 1 := by
    obtain ⟨-, hlt⟩ := h.within id
    have hle := UInt32.le_iff_toNat_le.mp (h.within id).1
    rw [UInt32.toNat_add, UInt32.toNat_one, Nat.mod_eq_of_lt (by omega)]
  rw [herase]
  simp only [left, containerAlloc, if_neg hu, Function.update_self, hplus]
  omega

theorem spawn {l : List ℕ} (hi : Inv s l) {quota : UInt32}
    (hn : (s.container s.curid).nchildren < MAX_CHILDREN)
    (hle : (s.container s.curid).usage.toNat + quota.toNat ≤ (s.container s.curid).quota.toNat) :
    Accounts (s.threadSpawn s.curid quota).2 ∧ (s.threadSpawn s.curid quota).2.granted = s.granted := by
  have hchild := hi.family.child_notMem hn
  set child := s.curid * MAX_CHILDREN + 1 + (s.container s.curid).nchildren with hdef
  have hne : s.curid ≠ child := by
    intro e
    exact hchild (e ▸ hi.cur)
  have hchild0 : child ≠ 0 := by omega
  have hacc : Accounts (s.threadSpawn s.curid quota).2 := by
    refine ⟨h.within.split hle, fun p hp hp0 => ?_, ?_⟩
    · obtain ⟨hpc, hps⟩ := not_or.mp (mt List.mem_cons.mpr hp)
      have hpcur : p ≠ s.curid := fun e => hps (e ▸ hi.cur)
      have hpc' : p ≠ child := hpc
      simpa [Sched.threadSpawn, containerSplit, hpcur, ← hdef, hpc'] using h.empty p hps hp0
    · have h0 : (0 : ℕ) ≠ s.curid := fun e => hi.queued.zero (e ▸ hi.cur)
      simpa [Sched.threadSpawn, containerSplit, h0, ← hdef, hchild0.symm] using h.root
  refine ⟨hacc, ?_⟩
  rw [h.granted_eq, hacc.granted_eq]
  -- the child joins the processes that are alive
  have halive : (s.threadSpawn s.curid quota).2.alive = insert child s.alive := by
    ext p
    by_cases hp : p = child
    · subst hp
      simp [Sched.alive, Sched.threadSpawn, containerSplit_fst, ← hdef]
    · simp [Sched.alive, Sched.threadSpawn, containerSplit_fst, ← hdef, hp]
  have hcur : s.curid ∈ s.alive := by
    simp only [Sched.alive, mem_insert, mem_filter, List.mem_toFinset]
    refine .inr ⟨hi.cur, ?_⟩
    rw [hi.cur_run]
    decide
  have hchild' : child ∉ s.alive := by
    simp [Sched.alive, hchild, hchild0]
  rw [halive, sum_insert hchild', ← add_sum_erase _ _ hcur,
    ← add_sum_erase _ (left s.container) hcur]
  have herase : ∑ p ∈ s.alive.erase s.curid, left (s.threadSpawn s.curid quota).2.container p =
      ∑ p ∈ s.alive.erase s.curid, left s.container p := by
    refine sum_congr rfl fun p hp => ?_
    have hpcur := ne_of_mem_erase hp
    have hpc : p ≠ child := fun e => hchild' (e ▸ mem_of_mem_erase hp)
    simp [left, Sched.threadSpawn, containerSplit, hpcur, ← hdef, hpc]
  have hplus : ((s.container s.curid).usage + quota).toNat = (s.container s.curid).usage.toNat + quota.toNat := by
    have := (h.within s.curid).2
    rw [UInt32.toNat_add, Nat.mod_eq_of_lt (by omega)]
  rw [herase]
  simp only [left, Sched.threadSpawn, containerSplit, ← hdef, Function.update_self, Function.update_of_ne hne,
    Function.update_of_ne hne.symm, hplus, UInt32.toNat_zero]
  omega

theorem die (p : ℕ) : Accounts ((s.markDead p).refund p) where
  within := h.within.refund _ _
  empty i hi hi0 := by
    obtain ⟨hq, hz⟩ := h.empty i hi hi0
    refine ⟨(quota_containerRefundUsage ..).trans hq, ?_⟩
    by_cases hir : i = (s.container p).parent
    · subst hir
      refine UInt32.toNat_inj.mp ((usage_containerRefundUsage_self ..).trans ?_)
      simp [Sched.markDead, Sched.setPending, Sched.setState, hz]
    · exact (usage_containerRefundUsage_of_ne _ hir).trans hz
  root := (parent_containerRefundUsage ..).trans h.root

theorem granted_die {p : ℕ} (hp : s.state p ≠ .dead) (hu : (s.container p).usage = 0) :
    ((s.markDead p).refund p).granted ≤ s.granted := by
  rw [h.granted_eq, (h.die p).granted_eq]
  set c := ((s.markDead p).refund p).container with hc
  have hself : left c (s.container p).parent ≤ left s.container (s.container p).parent + (s.container p).quota.toNat := by
    have := usage_containerRefundUsage_self s.container (s.container p).parent (s.container p).quota
    have hq := quota_containerRefundUsage s.container (s.container p).parent (s.container p).quota (s.container p).parent
    simp only [left, hc, Sched.refund, Sched.markDead, Sched.setPending, Sched.setState, this, hq]
    omega
  have hother : ∀ i, i ≠ (s.container p).parent → left c i = left s.container i := by
    intro i hi
    have := usage_containerRefundUsage_of_ne (c := s.container) (s.container p).quota hi
    have hq := quota_containerRefundUsage s.container (s.container p).parent (s.container p).quota i
    simp only [left, hc, Sched.refund, Sched.markDead, Sched.setPending, Sched.setState, this, hq]
  by_cases hp0 : p = 0
  · -- the root is its own parent and had nothing to give back
    subst hp0
    have halive : ((s.markDead 0).refund 0).alive = s.alive := by
      ext i
      rw [Sched.mem_alive, Sched.mem_alive, Sched.state_die]
      by_cases hi : i = 0
      · simp [hi]
      · rw [Function.update_of_ne hi]
        rfl
    rw [halive]
    refine (sum_congr rfl fun i _ => ?_).le
    by_cases hi : i = (s.container 0).parent
    · have := usage_containerRefundUsage_self s.container (s.container 0).parent (s.container 0).quota
      have hq := quota_containerRefundUsage s.container (s.container 0).parent (s.container 0).quota (s.container 0).parent
      have hu' : (s.container (s.container 0).parent).usage.toNat = 0 := by
        rw [h.root, hu, UInt32.toNat_zero]
      simp only [hi, left, hc, Sched.refund, Sched.markDead, Sched.setPending, Sched.setState, this, hq]
      omega
    · exact hother i hi
  have halive : ((s.markDead p).refund p).alive = s.alive.erase p := by
    ext i
    rw [mem_erase, Sched.mem_alive, Sched.mem_alive, Sched.state_die]
    by_cases hi : i = p
    · simp [hi, hp0]
    · rw [Function.update_of_ne hi, and_iff_right hi]
      rfl
  rw [halive]
  refine (sum_le_of_one (Int.natCast_nonneg _) hself hother).trans ?_
  by_cases hs : p ∈ s.spawned
  · have hmem : p ∈ s.alive := by simp [Sched.alive, hs, hp]
    rw [← add_sum_erase _ (left s.container) hmem]
    simp only [left, hu, UInt32.toNat_zero]
    omega
  · have hn : p ∉ s.alive := by simp [Sched.alive, hs, hp0]
    rw [erase_eq_of_notMem hn, (h.empty p hs hp0).1]
    simp

theorem step {l : List ℕ} (hi : Inv s l) {a : Act} (hsafe : a.Safe s) (ha : a.Backed s)
    (hne : ∀ id, a ≠ .alloc id) : Accounts (s.step a) ∧ (s.step a).granted ≤ s.granted := by
  obtain ⟨l', hi'⟩ := hi.step hsafe
  have hquiet : Quiet s (s.step a) → Accounts (s.step a) ∧ (s.step a).granted ≤ s.granted := fun hq =>
    ⟨h.of_quiet hq, (granted_of_quiet hi.toBase hi'.toBase hq).le⟩
  cases a with
  | spawn elfId quota =>
    simp only [Sched.step, Sched.sysSpawn]
    split
    · exact ⟨h, le_rfl⟩
    · rename_i hs
      obtain ⟨hn, -⟩ := child_lt_of_spawnError (hi.family.le_max _) hs
      obtain ⟨hacc, hg⟩ := h.spawn hi hn ((containerCanConsume_iff ha).mp (canConsume_of_spawnError hs))
      exact ⟨hacc, hg.le⟩
  | kill pid signum =>
    rcases sysKill_cases s pid signum with hq | ⟨hsig, -, -, hp, he⟩
    · exact hquiet hq
    · simp only [Sched.step, he]
      exact ⟨h.die _, h.granted_die hp (ha hsig)⟩
  | exit =>
    have hp : s.state s.curid ≠ .dead := by
      rw [hi.cur_run]
      decide
    obtain ⟨l1, hb⟩ := hi.die (hi.queued.bound _ hi.cur) hp
    -- `thread_exit` comes after the refund and touches no account
    have hq : Quiet ((s.markDead s.curid).refund s.curid) (s.step .exit) := ⟨rfl, rfl, rfl⟩
    exact ⟨(h.die _).of_quiet hq, (granted_of_quiet hb hi'.toBase hq).le.trans (h.granted_die hp ha)⟩
  | yield => exact hquiet ⟨rfl, rfl, rfl⟩
  | tick => exact hquiet (quiet_schedUpdate s)
  | pause => exact hquiet (quiet_sysPause s)
  | sleep chan => exact hquiet ⟨rfl, rfl, rfl⟩
  | wakeup chan => exact hquiet (quiet_threadWakeup s chan)
  | alloc id => exact absurd rfl (hne id)
  | signals => exact hquiet (quiet_handlePendingSignals s)

end

end Accounts

/-- The quotas granted are backed by free pages. -/
structure Machine.Ok (m : Machine) : Prop where
  inv : ∃ l, Inv m.sched l
  accounts : Accounts m.sched
  backed : m.sched.granted ≤ m.table.freePages.card

theorem Machine.Ok.step {m : Machine} (h : m.Ok) {a : Act} (hsafe : a.Safe m.sched) (ha : a.Backed m.sched) :
    (m.step a).Ok := by
  obtain ⟨l, hl⟩ := h.inv
  by_cases hne : ∀ id, a ≠ .alloc id
  · obtain ⟨hacc, hg⟩ := h.accounts.step hl hsafe ha hne
    refine ⟨hl.step hsafe, hacc, hg.trans ?_⟩
    rw [m.table_step hne]
    exact h.backed
  · simp only [not_forall, not_not] at hne
    obtain ⟨id, rfl⟩ := hne
    have hinv : ∃ l', Inv (m.step (.alloc id)).sched l' := hl.step hsafe
    by_cases hu : (m.sched.container id).usage = (m.sched.container id).quota
    · have he : m.step (.alloc id) = m := by simp [Machine.step, Machine.tableAfter, Sched.step, Pmm.containerAlloc, containerAlloc, hu]
      rw [he]
      exact h
    · have he : m.step (.alloc id) =
          ⟨{ m.sched with container := (containerAlloc m.sched.container id).2 }, (palloc m.table).2⟩ := by
        simp [Machine.step, Machine.tableAfter, Sched.step, Pmm.containerAlloc, containerAlloc, hu]
      refine ⟨hinv, ?_, ?_⟩
      · rw [he]
        exact h.accounts.alloc hu
      · rw [he]
        have hg := h.accounts.granted_alloc hu ha
        have hf := card_freePages_palloc m.table
        have := h.backed
        dsimp only
        omega

theorem container_boot (zeroed : ℕ → Bool) (quota : UInt32) (p : ℕ) :
    (Sched.boot zeroed quota).container p =
      if p = 0 then ⟨quota, 201000, 0, 2, true⟩ else if p = 1 then ⟨1000, 0, 0, 0, true⟩
      else if p = 2 then ⟨200000, 0, 0, 0, true⟩ else ⟨0, 0, 0, 0, false⟩ := by
  by_cases h0 : p = 0
  · subst h0
    have hsum : (0 : UInt32) + 1000 + 200000 = 201000 := by decide
    show SContainer.mk quota (0 + 1000 + 200000) 0 2 true = ⟨quota, 201000, 0, 2, true⟩
    rw [hsum]
  by_cases h1 : p = 1
  · subst h1
    rfl
  by_cases h2 : p = 2
  · subst h2
    rfl
  simp [Sched.boot, Sched.switchTo, Sched.setState, Sched.threadSpawn, Sched.init, containerSplit, containerInit, h0, h1, h2]

theorem Machine.ok_start (zeroed : ℕ → Bool) {mm : List MemRange} (h : 201000 ≤ realQuota (pmemInit mm)) :
    (Machine.start zeroed mm).Ok := by
  have hacc : Accounts (Sched.start zeroed mm) := by
    refine ⟨withinQuota_start zeroed h, fun p hp hp0 => ?_, ?_⟩
    · have hp' : p ≠ 2 ∧ p ≠ 1 := by simpa [Sched.start] using hp
      simp [Sched.start, container_boot, hp0, hp'.1, hp'.2]
    · simp [Sched.start, container_boot]
  refine ⟨⟨[1], inv_boot zeroed _⟩, hacc, ?_⟩
  show (Sched.start zeroed mm).granted ≤ (pmemInit mm).freePages.card
  have halive : (Sched.start zeroed mm).alive = {0, 1, 2} := by
    ext p
    have h1 : (Sched.start zeroed mm).state 1 = .ready := rfl
    have h2 : (Sched.start zeroed mm).state 2 = .run := rfl
    rw [Sched.mem_alive]
    simp only [Sched.start, spawned_boot, List.mem_cons, List.not_mem_nil, or_false, mem_insert,
      mem_singleton]
    constructor
    · rintro (rfl | ⟨rfl | rfl, -⟩) <;> simp
    · rintro (rfl | rfl | rfl)
      · exact .inl rfl
      · exact .inr ⟨.inr rfl, fun e => by cases h1.symm.trans e⟩
      · exact .inr ⟨.inl rfl, fun e => by cases h2.symm.trans e⟩
  rw [hacc.granted_eq, halive, ← realQuota_eq_card (userNorm_pmemInit mm)]
  simp [left, Sched.start, container_boot]
  omega

/-- When only processes without usage are terminated, the quotas granted are backed by free pages. -/
theorem no_overcommit (zeroed : ℕ → Bool) {mm : List MemRange} (hmm : 201000 ≤ realQuota (pmemInit mm)) {m : Machine}
    (h : ReflTransGen BackedStep (Machine.start zeroed mm) m) : m.sched.granted ≤ m.table.freePages.card := by
  have hok : m.Ok := by
    induction h with
    | refl => exact Machine.ok_start zeroed hmm
    | tail _ hstep ih =>
      obtain ⟨a, hsafe, ha, rfl⟩ := hstep
      exact ih.step hsafe ha
  exact hok.backed

theorem no_overcommit_kill :
    let m := (((Machine.start (fun _ => false) mem2G).step (.alloc 2)).step (.spawn 6 10)).step (.kill 511 9)
    m.sched.state 511 = .dead ∧ m.sched.granted ≤ m.table.freePages.card := by
  intro m
  have ha : (Act.alloc 2).Backed (Sched.boot (fun _ => false) 262144) := by
    simp only [Act.Backed]
    decide
  have hs : (Act.spawn 6 10).NoWrap ((Sched.boot (fun _ => false) 262144).step (.alloc 2)) := by
    simp only [Act.NoWrap]
    decide
  have hk : (Act.kill 511 9).Backed
      (((Sched.boot (fun _ => false) 262144).step (.alloc 2)).step (.spawn 6 10)) := by
    simp only [Act.Backed]
    decide
  have hstart : Sched.start (fun _ => false) mem2G = Sched.boot (fun _ => false) 262144 := by
    rw [Sched.start, realQuota_mem2G]
    rfl
  rw [← hstart] at ha hs hk
  refine ⟨?_, no_overcommit (fun _ => false) (by rw [realQuota_mem2G]; decide) ?_⟩
  · simp only [m, Machine.start, Machine.step, hstart]
    decide
  · have hsafe : (Act.kill 511 9).Safe
        (((Machine.start (fun _ => false) mem2G).step (.alloc 2)).step (.spawn 6 10)).sched := by
      intro _
      decide
    have h₁ : BackedStep (Machine.start (fun _ => false) mem2G) _ := ⟨.alloc 2, True.intro, ha, rfl⟩
    have h₂ : BackedStep ((Machine.start (fun _ => false) mem2G).step (.alloc 2)) _ :=
      ⟨.spawn 6 10, True.intro, hs, rfl⟩
    exact ((ReflTransGen.single h₁).tail h₂).tail ⟨.kill 511 9, hsafe, hk, rfl⟩

/-- The shell spawns a process with a quota of `10`; a page is allocated for it, as `elf_load` does; the shell kills it.
The whole quota is refunded, but the page stays allocated. -/
theorem refund_overcommits :
    let m := (((Machine.start (fun _ => false) mem2G).step (.spawn 6 10)).step (.alloc 511)).step (.kill 511 9)
    (m.table.freePages.card : ℤ) < m.sched.granted := by
  intro m
  have hstart : Sched.start (fun _ => false) mem2G = Sched.boot (fun _ => false) 262144 := by
    rw [Sched.start, realQuota_mem2G]
    rfl
  have hgranted : m.sched.granted = 262144 := by
    simp only [m, Machine.start, Machine.step, hstart]
    decide
  have htable : m.table = (palloc (pmemInit mem2G)).2 := by
    rfl
  have hfree := card_freePages_of_some nextFree_mem2G
  rw [freePages_mem2G, Nat.card_Ico] at hfree
  rw [hgranted, htable]
  omega

end MCertiKOS.Thread
