import Mathlib.Data.UInt
import Mathlib.Logic.Function.Basic

/-!
# Containers

The per-process resource accounts of `kern/pmm/MContainer/MContainer.c`.
`quota` and `usage` are `int`s in the source, but every comparison and sum they
occur in has an `unsigned int` operand, so they are kept as 32-bit words.
-/

namespace MCertiKOS.Memory

/-- `NUM_IDS`: the number of processes, and the index that stands for none. -/
abbrev NUM_IDS : ℕ := 8192

abbrev MAX_CHILDREN : ℕ := 255

/-- `struct SContainer`. -/
structure SContainer where
  quota : UInt32
  usage : UInt32
  parent : ℕ
  nchildren : ℕ
  used : Bool

/-- The array `CONTAINER`. -/
abbrev Containers := ℕ → SContainer

/-- `container_init`: the root has the quota, the other containers are zeros. -/
def containerInit (quota : UInt32) : Containers := fun id => ⟨if id = 0 then quota else 0, 0, 0, 0, id = 0⟩

def containerCanConsume (c : Containers) (id : ℕ) (n : UInt32) : Bool :=
  if (c id).quota < (c id).usage + n then false else true

/-- `container_split`: the child's index, and the containers. -/
def containerSplit (c : Containers) (id : ℕ) (quota : UInt32) : ℕ × Containers :=
  let nc := (c id).nchildren
  let child := id * MAX_CHILDREN + 1 + nc
  let c₁ := Function.update c child
    { used := true, quota := quota, usage := 0, parent := id, nchildren := 0 }
  (child, Function.update c₁ id { c₁ id with usage := (c₁ id).usage + quota, nchildren := nc + 1 })

/-- `container_alloc`, less the call of `palloc`: whether a page is asked for, and the containers. -/
def containerAlloc (c : Containers) (id : ℕ) : Bool × Containers :=
  if (c id).usage = (c id).quota then (false, c)
  else (true, Function.update c id { c id with usage := (c id).usage + 1 })

def containerRefundUsage (c : Containers) (id : ℕ) (quota : UInt32) : Containers :=
  Function.update c id
    { c id with usage := if quota ≤ (c id).usage then (c id).usage - quota else 0 }

section

variable (c : Containers)

theorem containerSplit_fst (id : ℕ) (quota : UInt32) :
    (containerSplit c id quota).1 = id * MAX_CHILDREN + 1 + (c id).nchildren := rfl

theorem nchildren_containerSplit (id : ℕ) (quota : UInt32) (i : ℕ) :
    ((containerSplit c id quota).2 i).nchildren =
      if i = id then (c id).nchildren + 1
      else if i = id * MAX_CHILDREN + 1 + (c id).nchildren then 0 else (c i).nchildren := by
  simp only [containerSplit, Function.update_apply]
  split_ifs <;> rfl

theorem parent_containerSplit (id : ℕ) (quota : UInt32) (i : ℕ) :
    ((containerSplit c id quota).2 i).parent = if i = (containerSplit c id quota).1 then id else (c i).parent := by
  have hchild : id ≠ id * MAX_CHILDREN + 1 + (c id).nchildren := by
    unfold MAX_CHILDREN
    omega
  simp only [containerSplit, Function.update_apply]
  split_ifs with h1 h2 <;> simp_all

@[simp] theorem parent_containerAlloc (id i : ℕ) : ((containerAlloc c id).2 i).parent = (c i).parent := by
  unfold containerAlloc
  split_ifs with h
  · rfl
  · by_cases hi : i = id
    · simp [hi]
    · simp [hi]

@[simp] theorem nchildren_containerAlloc (id i : ℕ) :
    ((containerAlloc c id).2 i).nchildren = (c i).nchildren := by
  unfold containerAlloc
  split_ifs with h
  · rfl
  · by_cases hi : i = id
    · simp [hi]
    · simp [hi]

@[simp] theorem nchildren_containerRefundUsage (id : ℕ) (quota : UInt32) (i : ℕ) :
    (containerRefundUsage c id quota i).nchildren = (c i).nchildren := by
  unfold containerRefundUsage
  by_cases hi : i = id
  · simp [hi]
  · simp [hi]

@[simp] theorem quota_containerRefundUsage (id : ℕ) (quota : UInt32) (i : ℕ) :
    (containerRefundUsage c id quota i).quota = (c i).quota := by
  unfold containerRefundUsage
  by_cases hi : i = id
  · simp [hi]
  · simp [hi]

@[simp] theorem parent_containerRefundUsage (id : ℕ) (quota : UInt32) (i : ℕ) :
    (containerRefundUsage c id quota i).parent = (c i).parent := by
  unfold containerRefundUsage
  by_cases hi : i = id
  · simp [hi]
  · simp [hi]

end

variable {c : Containers} {id : ℕ} {pids : List ℕ}

theorem usage_containerRefundUsage_of_ne {i : ℕ} (quota : UInt32) (h : i ≠ id) :
    (containerRefundUsage c id quota i).usage = (c i).usage := by
  simp [containerRefundUsage, h]

theorem usage_containerRefundUsage_self (c : Containers) (id : ℕ) (quota : UInt32) :
    (containerRefundUsage c id quota id).usage.toNat = (c id).usage.toNat - quota.toNat := by
  simp only [containerRefundUsage, Function.update_self]
  split_ifs with h
  · exact UInt32.toNat_sub_of_le _ _ h
  · rw [UInt32.not_le, UInt32.lt_iff_toNat_lt] at h
    rw [UInt32.toNat_zero]
    omega

/-! ### The ids handed out -/

theorem eq_child_iff {p k : ℕ} (hk : k < MAX_CHILDREN) :
    p = id * MAX_CHILDREN + 1 + k ↔ 1 ≤ p ∧ (p - 1) / MAX_CHILDREN = id ∧ (p - 1) % MAX_CHILDREN = k := by
  unfold MAX_CHILDREN at *
  omega

/-- `pids` are the ids that `container_split` has handed out: child `k` of container `id` has id
`id * MAX_CHILDREN + 1 + k`. -/
structure Family (c : Containers) (pids : List ℕ) : Prop where
  mem_iff : ∀ p, p ∈ pids ↔ 1 ≤ p ∧ (p - 1) % MAX_CHILDREN < (c ((p - 1) / MAX_CHILDREN)).nchildren
  /-- No container has more than `MAX_CHILDREN` children. -/
  le_max : ∀ i, (c i).nchildren ≤ MAX_CHILDREN
  childless : ∀ p, p ∉ pids → p ≠ 0 → (c p).nchildren = 0

theorem Family.child_notMem (h : Family c pids)
    (hlt : (c id).nchildren < MAX_CHILDREN) : id * MAX_CHILDREN + 1 + (c id).nchildren ∉ pids := fun hm => by
  obtain ⟨-, hdiv, hmod⟩ := (eq_child_iff hlt).mp rfl
  have hp := ((h.mem_iff _).mp hm).2
  rw [hdiv, hmod] at hp
  exact lt_irrefl _ hp

theorem Family.split (h : Family c pids)
    (hlt : (c id).nchildren < MAX_CHILDREN) (quota : UInt32) (hid : id ∈ pids ∨ id = 0) :
    Family (containerSplit c id quota).2 ((containerSplit c id quota).1 :: pids) := by
  rw [containerSplit_fst]
  have hchild := h.child_notMem hlt
  have hn : ∀ i, ((containerSplit c id quota).2 i).nchildren =
      if i = id then (c id).nchildren + 1 else (c i).nchildren := by
    intro i
    rw [nchildren_containerSplit]
    split_ifs with h1 h2
    · rfl
    · rw [h2, h.childless _ hchild (by omega)]
    · rfl
  refine ⟨fun p => ?_, fun i => ?_, fun p hp hp0 => ?_⟩
  · rw [List.mem_cons, h.mem_iff, hn, eq_child_iff hlt]
    by_cases hpid : (p - 1) / MAX_CHILDREN = id
    · rw [if_pos hpid, hpid]
      omega
    · rw [if_neg hpid]
      simp [hpid]
  · rw [hn]
    have := h.le_max i
    split_ifs <;> omega
  · have hpid : p ≠ id := by
      rintro rfl
      rcases hid with hid | hid
      · exact hp (List.mem_cons_of_mem _ hid)
      · exact hp0 hid
    rw [hn, if_neg hpid]
    exact h.childless p (fun hm => hp (List.mem_cons_of_mem _ hm)) hp0

theorem family_init (quota : UInt32) : Family (containerInit quota) [] :=
  ⟨by simp [containerInit], by simp [containerInit], by simp [containerInit]⟩

theorem Family.congr {c' : Containers} (h : Family c pids)
    (hc : ∀ i, (c' i).nchildren = (c i).nchildren) : Family c' pids :=
  ⟨fun p => by rw [hc]; exact h.mem_iff p, fun i => by rw [hc]; exact h.le_max i,
    fun p hp h0 => by rw [hc]; exact h.childless p hp h0⟩

end MCertiKOS.Memory
