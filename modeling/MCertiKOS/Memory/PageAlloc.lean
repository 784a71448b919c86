import MCertiKOS.Memory.Container
import Mathlib.Algebra.Order.BigOperators.Group.Finset
import Mathlib.Order.Interval.Finset.Nat

/-!
# Physical pages

The physical memory manager of `kern/pmm`: the allocation table `AT` with its
initialisation from the memory map (`MATIntro.c`, `MATInit.c`), the page
allocator `palloc` (`MATOp.c`), and `container_init` and `container_alloc`
(`MContainer.c`), which join the table to the accounts of `Container`.

Addresses of the memory map are 32-bit words, and their sums wrap around; page
indices are below `2 ^ 20` and are kept as numbers. No system call reaches `pfree`;
`container_free` is left out.
-/

namespace MCertiKOS.Memory

open List Finset

abbrev PAGESIZE : ℕ := 4096

namespace Paging

/-- `VM_USERLO`: the first address of user memory. -/
abbrev VM_USERLO : ℕ := 0x40000000

/-- `VM_USERHI`: the end of user memory. -/
abbrev VM_USERHI : ℕ := 0xF0000000

abbrev VM_USERLO_PI : ℕ := VM_USERLO / PAGESIZE

abbrev VM_USERHI_PI : ℕ := VM_USERHI / PAGESIZE

end Paging

open Paging
open Function (update update_of_ne)

/-! ### The allocation table -/

/-- A row of the memory map. -/
structure MemRange where
  /-- `get_mms`: the start address. -/
  mms : UInt32
  /-- `get_mml`: the length. -/
  mml : UInt32
  /-- `is_usable`. -/
  usable : Bool

def MemRange.Contains (r : MemRange) (i : ℕ) : Prop :=
  r.mms.toNat ≤ i * PAGESIZE ∧ (i + 1) * PAGESIZE ≤ (r.mml + r.mms).toNat

instance (r : MemRange) (i : ℕ) : Decidable (r.Contains i) := inferInstanceAs (Decidable (_ ∧ _))

/-- The allocation table. -/
structure AT where
  /-- `NUM_PAGES`. -/
  nps : ℕ
  /-- `AT[i].perm`: `0` reserved, `1` kernel only, above that normal. -/
  perm : ℕ → ℕ
  /-- `AT[i].allocated`. -/
  allocated : ℕ → Bool
  /-- `last_palloc_index`. -/
  last : ℕ

/-- `at_is_norm`. -/
def AT.isNorm (a : AT) (i : ℕ) : Bool := if a.perm i = 0 then false else if a.perm i = 1 then false else true

/-- The number of pages that `pmem_init` computes: the highest address of the memory map, in pages. -/
def numPages (mm : List MemRange) : ℕ :=
  mm.foldl (fun nps r => if nps < (r.mms + r.mml).toNat / PAGESIZE + 1 then (r.mms + r.mml).toNat / PAGESIZE + 1 else nps) 0

/-- The permission that `pmem_init` gives to a page: the first row that contains the page decides. -/
def pagePerm (mm : List MemRange) (i : ℕ) : ℕ :=
  if i < VM_USERLO_PI ∨ VM_USERHI_PI ≤ i then 1
  else
    match mm.find? fun r => r.Contains i with
    | some r => if r.usable then 2 else 0
    | none => 0

/-- `pmem_init`. What lies beyond `NUM_PAGES` keeps the zeros of the `.bss` section. -/
def pmemInit (mm : List MemRange) : AT where
  nps := numPages mm
  perm i := if i < numPages mm then pagePerm mm i else 0
  allocated _ := false
  last := 262144

/-- The loop of `palloc`: the first normal page above `last_palloc_index` that is not allocated. -/
def AT.nextFree (a : AT) : Option ℕ :=
  (List.range' (a.last + 1) (a.nps - (a.last + 1))).find? fun i => a.isNorm i && !a.allocated i

/-- `palloc`: the index of the page, `0` if none was found, and the table. -/
def palloc (a : AT) : ℕ × AT :=
  match a.nextFree with
  | none => (0, { a with last := 0 % a.nps })
  | some i => (i, { a with allocated := update a.allocated i true, last := i % a.nps })

def pfree (a : AT) (i : ℕ) : AT := { a with allocated := update a.allocated i false }

/-- The table knows user memory from the kernel's: only pages of user memory are normal. -/
def AT.UserNorm (a : AT) : Prop := ∀ i, a.isNorm i = true → VM_USERLO_PI ≤ i ∧ i < VM_USERHI_PI

theorem userNorm_pmemInit (mm : List MemRange) : (pmemInit mm).UserNorm := by
  intro i hi
  simp only [AT.isNorm, pmemInit, pagePerm] at hi
  by_cases h : i < VM_USERLO_PI ∨ VM_USERHI_PI ≤ i
  · simp [h] at hi
    omega
  · omega

variable {a : AT} {i j : ℕ}

theorem AT.nextFree_some (h : a.nextFree = some i) :
    a.last < i ∧ i < a.nps ∧ a.isNorm i = true ∧ a.allocated i = false := by
  have hp := List.find?_some h
  have hm := mem_of_find?_eq_some h
  simp only [mem_range'_1] at hm
  simp only [Bool.and_eq_true, Bool.not_eq_true'] at hp
  exact ⟨by omega, by omega, hp⟩

theorem palloc_cases (a : AT) :
    palloc a = (0, { a with last := 0 % a.nps }) ∨
      ∃ i, palloc a = (i, { a with allocated := update a.allocated i true, last := i % a.nps }) ∧
        i < a.nps ∧ a.isNorm i = true ∧ a.allocated i = false := by
  unfold palloc
  cases h : a.nextFree with
  | none => exact .inl rfl
  | some i =>
    obtain ⟨-, hlt, hn, ha⟩ := AT.nextFree_some h
    exact .inr ⟨i, rfl, hlt, hn, ha⟩

@[simp] theorem isNorm_palloc (a : AT) (i : ℕ) : (palloc a).2.isNorm i = a.isNorm i := by
  unfold palloc
  split <;> rfl

/-! ### Free pages -/

def AT.freePages (a : AT) : Finset ℕ := {i ∈ Finset.range a.nps | a.isNorm i = true ∧ a.allocated i = false}

theorem card_freePages_of_some (h : a.nextFree = some i) :
    (palloc a).2.freePages.card + 1 = a.freePages.card := by
  obtain ⟨-, hlt, hn, ha⟩ := AT.nextFree_some h
  have he : (palloc a).2.freePages = a.freePages.erase i := by
    ext j
    by_cases hj : j = i
    · simp [palloc, h, AT.freePages, hj]
    · simp [palloc, h, AT.freePages, AT.isNorm, hj]
  rw [he, card_erase_add_one]
  simp [AT.freePages, hlt, hn, ha]

theorem card_freePages_palloc (a : AT) : a.freePages.card ≤ (palloc a).2.freePages.card + 1 := by
  cases h : a.nextFree with
  | none =>
    have he : (palloc a).2.freePages = a.freePages := by
      rw [palloc, h]
      rfl
    rw [he]
    exact Nat.le_succ _
  | some i => exact (card_freePages_of_some h).ge

/-- The free pages above `last_palloc_index`: those that the loop of `palloc` can find without starting over. -/
def AT.above (a : AT) : Finset ℕ := {i ∈ a.freePages | a.last < i}

theorem AT.mem_above :
    j ∈ a.above ↔ j < a.nps ∧ a.isNorm j = true ∧ a.allocated j = false ∧ a.last < j := by
  simp [AT.above, AT.freePages, and_assoc]

theorem AT.nextFree_le (h : a.nextFree = some i) (hj : j ∈ a.above) : i ≤ j := by
  obtain ⟨hlt, hn, ha, hlast⟩ := AT.mem_above.mp hj
  obtain ⟨-, as, bs, hl, has⟩ := List.find?_eq_some_iff_append.mp h
  have hmem : j ∈ as ++ i :: bs := by
    rw [← hl, mem_range'_1]
    omega
  have hsorted : (as ++ i :: bs).Pairwise (· < ·) := hl ▸ pairwise_lt_range'
  rcases mem_append.mp hmem with hj | hj
  · simpa [hn, ha] using has j hj
  · rcases mem_cons.mp hj with rfl | hj
    · exact le_rfl
    · exact (rel_of_pairwise_cons (pairwise_append.mp hsorted).2.1 hj).le

theorem AT.exists_nextFree (h : a.above.Nonempty) : ∃ i, a.nextFree = some i := by
  obtain ⟨j, hj⟩ := h
  obtain ⟨hlt, hn, ha, hlast⟩ := AT.mem_above.mp hj
  refine Option.isSome_iff_exists.mp (List.find?_isSome.mpr ⟨j, ?_, by simp [hn, ha]⟩)
  rw [mem_range'_1]
  omega

theorem card_above_palloc (h : a.nextFree = some i) :
    (palloc a).2.above.card + 1 = a.above.card := by
  obtain ⟨hlast, hlt, hn, ha⟩ := AT.nextFree_some h
  have he : (palloc a).2.above = a.above.erase i := by
    ext j
    have hp : (palloc a).2 = { a with allocated := update a.allocated i true, last := i % a.nps } := by
      rw [palloc, h]
    rw [mem_erase, AT.mem_above, hp, Nat.mod_eq_of_lt hlt]
    show j < a.nps ∧ a.isNorm j = true ∧ update a.allocated i true j = false ∧ i < j ↔ _
    constructor
    · rintro ⟨h1, h2, h3, h4⟩
      have hji : j ≠ i := by omega
      rw [update_of_ne hji] at h3
      exact ⟨hji, AT.mem_above.mpr ⟨h1, h2, h3, by omega⟩⟩
    · rintro ⟨hji, hj⟩
      have hle := AT.nextFree_le h hj
      obtain ⟨h1, h2, h3, -⟩ := AT.mem_above.mp hj
      refine ⟨h1, h2, ?_, by omega⟩
      rw [update_of_ne hji]
      exact h3
  rw [he, card_erase_add_one]
  exact AT.mem_above.mpr ⟨hlt, hn, ha, hlast⟩

/-! ### Runs of the allocator -/

/-- A call of the allocator. -/
inductive AtCall where
  | palloc
  | pfree (i : ℕ)

def AtCall.after : AtCall → AT → AT
  | .palloc, a => (Memory.palloc a).2
  | .pfree i, a => Memory.pfree a i

/-- The tables that any calls lead to after `pmem_init`. -/
def AT.Reached (mm : List MemRange) (a : AT) : Prop := ∃ calls : List AtCall, a = calls.foldl (fun a c => c.after a) (pmemInit mm)

theorem AtCall.isNorm_after (c : AtCall) (a : AT) (i : ℕ) : (c.after a).isNorm i = a.isNorm i := by
  cases c with
  | palloc => exact isNorm_palloc a i
  | pfree j => rfl

theorem AT.Reached.userNorm {mm : List MemRange} (h : a.Reached mm) : a.UserNorm := by
  obtain ⟨calls, rfl⟩ := h
  refine List.foldlRecOn (motive := AT.UserNorm) calls _ (userNorm_pmemInit mm) fun a ha c _ i hi => ?_
  rw [c.isNorm_after] at hi
  exact ha i hi

theorem AT.UserNorm.not_isNorm_zero (h : a.UserNorm) : a.isNorm 0 = false := by
  by_contra h0
  have := (h 0 (Bool.eq_true_of_not_eq_false h0)).1
  exact absurd this (by decide)

/-- If some page is free, one is that the loop of `palloc` gets to without starting over. -/
def AT.Ahead (a : AT) : Prop := a.above.Nonempty ∨ ∀ i ∈ a.freePages, a.last < i

theorem palloc_eq_zero (h : a.UserNorm) : (palloc a).1 = 0 ↔ a.above = ∅ := by
  constructor
  · intro h0
    by_contra hne
    obtain ⟨i, hi⟩ := AT.exists_nextFree (nonempty_iff_ne_empty.mpr hne)
    have hnorm := (AT.nextFree_some hi).2.2.1
    rw [palloc, hi] at h0
    rw [show i = 0 from h0, h.not_isNorm_zero] at hnorm
    cases hnorm
  · intro he
    cases hi : a.nextFree with
    | none => rw [palloc, hi]
    | some i =>
      obtain ⟨hlast, hlt, hn, ha⟩ := AT.nextFree_some hi
      have : i ∈ a.above := AT.mem_above.mpr ⟨hlt, hn, ha, hlast⟩
      rw [he] at this
      exact absurd this (notMem_empty i)

/-- A page that `palloc` returns was free; it is allocated now, and nothing else has changed in the table. If a free page is ahead,
or none is behind, then `palloc` returns `0` only if no page is free. Two calls in a row both return `0` only if no page is free. -/
theorem palloc_sound_complete {mm : List MemRange} {a : AT} (h : a.Reached mm) :
    ((palloc a).1 ≠ 0 → (palloc a).1 < a.nps ∧ a.isNorm (palloc a).1 = true ∧ a.allocated (palloc a).1 = false ∧
        (palloc a).2.allocated = update a.allocated (palloc a).1 true) ∧
      ((palloc a).1 = 0 → (palloc a).2.allocated = a.allocated) ∧ (palloc a).2.perm = a.perm ∧
      (a.Ahead → (palloc a).1 = 0 → ∀ i < a.nps, ¬ (a.isNorm i = true ∧ a.allocated i = false)) ∧
      ((palloc a).1 = 0 → (palloc (palloc a).2).1 = 0 → ∀ i < a.nps, ¬ (a.isNorm i = true ∧ a.allocated i = false)) := by
  have hnorm := h.userNorm
  have hfree : ∀ i < a.nps, (a.isNorm i = true ∧ a.allocated i = false) → i ∈ a.freePages := fun i hi hf =>
    Finset.mem_filter.mpr ⟨Finset.mem_range.mpr hi, hf⟩
  refine ⟨fun hne => ?_, fun h0 => ?_, ?_, fun ha h0 i hi hf => ?_, fun h0 h0' i hi hf => ?_⟩
  · rcases palloc_cases a with he | ⟨i, he, hlt, hn, hal⟩
    · rw [he] at hne
      exact absurd rfl hne
    · rw [he]
      exact ⟨hlt, hn, hal, rfl⟩
  · rcases palloc_cases a with he | ⟨i, he, -, hn, -⟩
    · rw [he]
    · rw [he] at h0
      rw [show i = 0 from h0, hnorm.not_isNorm_zero] at hn
      cases hn
  · rcases palloc_cases a with he | ⟨i, he, -⟩ <;> rw [he]
  · rw [palloc_eq_zero hnorm] at h0
    rcases ha with ha | ha
    · rw [h0] at ha
      exact Finset.not_nonempty_empty ha
    · have hmem : i ∈ a.above := Finset.mem_filter.mpr ⟨hfree i hi hf, ha i (hfree i hi hf)⟩
      rw [h0] at hmem
      exact Finset.notMem_empty i hmem
  · -- the second call starts over, from page `1`
    have hsecond : (palloc a).2 = { a with last := 0 % a.nps } := by
      rcases palloc_cases a with he | ⟨i, he, -, hn, -⟩
      · rw [he]
      · rw [he] at h0
        rw [show i = 0 from h0, hnorm.not_isNorm_zero] at hn
        cases hn
    have hnorm' : (palloc a).2.UserNorm := fun j hj => hnorm j (by rwa [isNorm_palloc] at hj)
    rw [palloc_eq_zero hnorm', hsecond] at h0'
    have hmem : i ∈ AT.above { a with last := 0 % a.nps } := by
      refine AT.mem_above.mpr ⟨hi, hf.1, hf.2, ?_⟩
      show 0 % a.nps < i
      rw [Nat.zero_mod]
      exact lt_of_lt_of_le (show 0 < VM_USERLO_PI by decide) (hnorm i hf.1).1
    rw [h0'] at hmem
    exact Finset.notMem_empty i hmem

def memTwo : List MemRange := [⟨0, 0x40002000, true⟩]

theorem palloc_sound_complete_first : (palloc (pmemInit memTwo)).1 = 262145 ∧
    (pmemInit memTwo).allocated (palloc (pmemInit memTwo)).1 = false ∧ (pmemInit memTwo).Ahead := by
  have hp : (palloc (pmemInit memTwo)).1 = 262145 := by decide
  have hreach : (pmemInit memTwo).Reached memTwo := ⟨[], rfl⟩
  have h := palloc_sound_complete hreach
  have ha : (pmemInit memTwo).Ahead := by
    refine .inl (nonempty_iff_ne_empty.mpr fun he => ?_)
    rw [(palloc_eq_zero (userNorm_pmemInit memTwo)).mpr he] at hp
    cases hp
  exact ⟨hp, (h.1 (by rw [hp]; decide)).2.2.1, ha⟩

/-- The second returns `0`, though the first page of user memory is free: the loop begins behind it. -/
theorem palloc_gives_up : (palloc (palloc (pmemInit memTwo)).2).1 = 0 ∧ 262144 < (palloc (pmemInit memTwo)).2.nps ∧
    (palloc (pmemInit memTwo)).2.isNorm 262144 = true ∧ (palloc (pmemInit memTwo)).2.allocated 262144 = false := by
  decide

/-! ### Containers -/

/-- The loop of `container_init`: the number of normal pages that are not allocated, from page `1` on. -/
def realQuota (a : AT) : ℕ := (List.range' 1 (a.nps - 1)).countP fun i => a.isNorm i && !a.allocated i

/-- The state of the physical memory manager. -/
structure Pmm where
  container : Containers
  /-- `AT`. -/
  table : AT

/-- `container_alloc`: the index of the page, `0` if there is none. -/
def Pmm.containerAlloc (m : Pmm) (id : ℕ) : ℕ × Pmm :=
  if (Memory.containerAlloc m.container id).1 then
    ((palloc m.table).1, ⟨(Memory.containerAlloc m.container id).2, (palloc m.table).2⟩)
  else (0, m)

theorem Pmm.container_containerAlloc (m : Pmm) (id : ℕ) :
    (m.containerAlloc id).2.container = (Memory.containerAlloc m.container id).2 := by
  unfold Pmm.containerAlloc Memory.containerAlloc
  by_cases h : (m.container id).usage = (m.container id).quota
  · simp [h]
  · simp [h]

theorem realQuota_eq_card (h : a.UserNorm) : realQuota a = a.freePages.card := by
  rw [realQuota, countP_eq_length_filter,
    ← toFinset_card_of_nodup (List.Nodup.filter _ nodup_range')]
  congr 1
  ext i
  simp only [mem_toFinset, mem_filter, mem_range'_1, Bool.and_eq_true, Bool.not_eq_true', AT.freePages,
    Finset.mem_filter, Finset.mem_range]
  constructor
  · rintro ⟨hi, hn⟩
    exact ⟨by omega, hn⟩
  · rintro ⟨hi, hn⟩
    -- page `0` belongs to the kernel
    have : 262144 ≤ i := (h i hn.1).1
    exact ⟨by omega, hn⟩

theorem numPages_le (mm : List MemRange) : numPages mm ≤ 2 ^ 20 := by
  unfold numPages
  refine List.foldlRecOn (motive := fun n => n ≤ 2 ^ 20) _ _ (Nat.zero_le _) fun n hn r _ => ?_
  have := (r.mms + r.mml).toNat_lt
  unfold PAGESIZE
  split_ifs <;> omega

theorem realQuota_le (mm : List MemRange) : realQuota (pmemInit mm) ≤ 2 ^ 20 := by
  have h : realQuota (pmemInit mm) ≤ numPages mm - 1 := by
    simpa [realQuota, pmemInit] using countP_le_length (l := List.range' 1 (numPages mm - 1))
  have := numPages_le mm
  omega

/-! ### The machine of the Makefile -/

/-- The memory map of a machine with two gigabytes, as `make qemu` starts it: one usable range. -/
def mem2G : List MemRange := [⟨0, 0x80000000, true⟩]

theorem contains_mem2G (i : ℕ) : MemRange.Contains ⟨0, 0x80000000, true⟩ i ↔ i < 524288 := by
  have h : ((0x80000000 : UInt32) + 0).toNat = 2147483648 := by decide
  simp only [MemRange.Contains, h, UInt32.toNat_zero, Nat.zero_le, true_and, PAGESIZE]
  omega

theorem freePages_mem2G : (pmemInit mem2G).freePages = Finset.Ico 262144 524288 := by
  have hn : numPages [⟨0, 0x80000000, true⟩] = 524289 := by decide
  ext i
  have hlo : VM_USERLO_PI = 262144 := by decide
  have hhi : VM_USERHI_PI = 983040 := by decide
  simp only [mem2G, AT.freePages, pmemInit, AT.isNorm, hn, Finset.mem_filter, Finset.mem_range, Finset.mem_Ico, pagePerm,
    hlo, hhi, List.find?_cons, List.find?_nil, contains_mem2G]
  by_cases h1 : i < 262144 ∨ 983040 ≤ i
  · simp only [h1, if_true]
    split_ifs <;> simp <;> omega
  · by_cases h2 : i < 524288
    · have h3 : i < 524289 := by omega
      simp [h1, h2, h3]
      omega
    · simp [h1, h2]

theorem nextFree_mem2G : (pmemInit mem2G).nextFree = some 262145 := by decide

theorem realQuota_mem2G : realQuota (pmemInit mem2G) = 262144 := by
  rw [realQuota_eq_card (userNorm_pmemInit _), freePages_mem2G, Nat.card_Ico]

end MCertiKOS.Memory
