import MCertiKOS.Memory.PageTable
import Mathlib.Logic.Relation

/-!
# Isolation of address spaces

No physical page is in two places of the user address spaces. A place is an entry of a page table, or an entry of a
page directory that registers a page table; the tables are pages of the same allocator, and are written through the
directories.

The invariant is `Isolated`: the pages found at user places are normal, allocated and all different, and the kernel's
parts of the directories lead to `IDPTbl`, which cannot be allocated. A page that `container_alloc` has just returned
is at no place (`Fresh`), and storing a fresh page at one place keeps the invariant (`Isolated.store`); `map_page`
does this once or twice.

`set_ptbl_entry` adds the permission to the address of the page, so a "permission" of `4096` or more names another
page (`perm_not_masked`). The steps are taken with permissions below `4096`, as the callers in the kernel pass.
-/

namespace MCertiKOS.Memory

open Library Paging Relation

/-! ### Places -/

/-- Where the address space of a process names a physical page. -/
inductive PtPlace where
  /-- Entry `i` of the page directory of `p`, which registers a page table. -/
  | table (p i : ℕ)
  /-- Entry `j` of the page table that entry `i` of the page directory of `p` registers. -/
  | entry (p i j : ℕ)
  deriving DecidableEq

/-- The place is in the user range of a process other than the kernel's. -/
def PtPlace.User : PtPlace → Prop
  | .table p i => 1 ≤ p ∧ 256 ≤ i ∧ i < 960
  | .entry p i j => 1 ≤ p ∧ 256 ≤ i ∧ i < 960 ∧ j < 1024

/-- An entry of a page table, `0` if there is no table. -/
def Vm.entryAt (v : Vm) (p i j : ℕ) : ℕ := if v.pdir p i = 0 then 0 else v.getPtblEntry p i j

def Vm.pageAt (v : Vm) : PtPlace → Option ℕ
  | .table p i => if v.pdir p i = 0 then none else some (v.pdir p i / PAGESIZE)
  | .entry p i j => if v.entryAt p i j = 0 then none else some (v.entryAt p i j / PAGESIZE)

/-- The invariant. -/
structure Isolated (v : Vm) : Prop where
  norm : v.pmm.table.UserNorm
  kernel : v.idptbl + 1024 ≤ VM_USERLO_PI
  inj : ∀ x y n, x.User → y.User → v.pageAt x = some n → v.pageAt y = some n → x = y
  owned : ∀ x n, x.User → v.pageAt x = some n → v.pmm.table.isNorm n = true ∧ v.pmm.table.allocated n = true
  /-- The directories map the kernel's memory through `IDPTbl`. -/
  ident : ∀ p i, i < 256 ∨ 960 ≤ i ∧ i < 1024 → v.pdir p i = Vm.identityPde v.idptbl i
  idtbl : ∀ i < 1024, ∀ j < 1024, v.word (v.idptbl + i) j = Vm.identityPte i j

/-- A page that is allocated and at no place. -/
structure Fresh (v : Vm) (n : ℕ) : Prop where
  norm : v.pmm.table.isNorm n = true
  allocated : v.pmm.table.allocated n = true
  unused : ∀ x : PtPlace, x.User → v.pageAt x ≠ some n

/-- Between `v` and `t` the page `n` was stored at `x₀`, and nothing else has changed. -/
structure Stores (v t : Vm) (x₀ : PtPlace) (n : ℕ) : Prop where
  pmm : t.pmm = v.pmm
  idptbl : t.idptbl = v.idptbl
  pageAt : ∀ x : PtPlace, x.User → t.pageAt x = if x = x₀ then some n else v.pageAt x
  entryAt : ∀ p i j, (PtPlace.entry p i j).User → .entry p i j ≠ x₀ → t.entryAt p i j = v.entryAt p i j
  pdir : ∀ p i, i < 256 ∨ 960 ≤ i ∧ i < 1024 → t.pdir p i = v.pdir p i
  word : ∀ i < 1024, ∀ j < 1024, t.word (v.idptbl + i) j = v.word (v.idptbl + i) j

namespace Isolated

variable {v t : Vm} {x₀ : PtPlace} {n m : ℕ}

theorem store (h : Isolated v) (hf : Fresh v n) (hs : Stores v t x₀ n) : Isolated t where
  norm := hs.pmm ▸ h.norm
  kernel := hs.idptbl ▸ h.kernel
  inj x y k hx hy hxk hyk := by
    rw [hs.pageAt x hx] at hxk
    rw [hs.pageAt y hy] at hyk
    split_ifs at hxk hyk with h₁ h₂ h₂
    · rw [h₁, h₂]
    · cases hxk
      exact absurd hyk (hf.unused y hy)
    · cases hyk
      exact absurd hxk (hf.unused x hx)
    · exact h.inj x y k hx hy hxk hyk
  owned x k hx hxk := by
    rw [hs.pageAt x hx] at hxk
    rw [hs.pmm]
    split_ifs at hxk with h₁
    · cases hxk
      exact ⟨hf.norm, hf.allocated⟩
    · exact h.owned x k hx hxk
  ident p i hi := by
    rw [hs.pdir p i hi, hs.idptbl]
    exact h.ident p i hi
  idtbl i hi j hj := by
    rw [hs.idptbl, hs.word i hi j hj]
    exact h.idtbl i hi j hj

end Isolated

variable {v t u : Vm} {x₀ : PtPlace} {n m p : ℕ}

theorem Fresh.of_stores (hm : Fresh v m) (hs : Stores v t x₀ n) (hne : m ≠ n) :
    Fresh t m where
  norm := hs.pmm ▸ hm.norm
  allocated := hs.pmm ▸ hm.allocated
  unused x hx := by
    rw [hs.pageAt x hx]
    split_ifs
    · exact fun e => hne (Option.some.inj e).symm
    · exact hm.unused x hx

/-! ### Allocation -/

/-- What `container_alloc` does to the allocation table: the page it returns, if any, was free and is not any more. -/
structure Takes (a b : AT) (n : ℕ) : Prop where
  norm : ∀ i, b.isNorm i = a.isNorm i
  keep : ∀ i, a.allocated i = true → b.allocated i = true
  free : n ≠ 0 → a.isNorm n = true ∧ a.allocated n = false ∧ b.allocated n = true

theorem Takes.refl (a : AT) : Takes a a 0 := ⟨fun _ => rfl, fun _ h => h, fun h => absurd rfl h⟩

theorem takes_palloc (a : AT) : Takes a (palloc a).2 (palloc a).1 := by
  rcases palloc_cases a with h | ⟨i, h, -, hn, ha⟩
  · rw [h]
    exact ⟨fun _ => rfl, fun _ hi => hi, fun h0 => absurd rfl h0⟩
  · rw [h]
    refine ⟨fun _ => rfl, fun j hj => ?_, fun _ => ⟨hn, ha, Function.update_self ..⟩⟩
    by_cases hji : j = i
    · simp [hji]
    · simpa [hji] using hj

theorem takes_containerAlloc (m : Pmm) (id : ℕ) :
    Takes m.table (m.containerAlloc id).2.table (m.containerAlloc id).1 := by
  unfold Pmm.containerAlloc
  split_ifs
  · exact takes_palloc m.table
  · exact .refl m.table

namespace Isolated

variable {v t : Vm} {n m p i j perm : ℕ}

theorem lt_of_isNorm (h : Isolated v) (hn : v.pmm.table.isNorm n = true) : 262144 ≤ n ∧ n < 983040 := h.norm n hn

theorem containerAlloc (h : Isolated v) (p : ℕ) : Isolated (v.containerAlloc p).2 := by
  have ht := takes_containerAlloc v.pmm p
  refine ⟨fun k hk => h.norm k ?_, h.kernel, h.inj, fun x k hx hxk => ?_, h.ident, h.idtbl⟩
  · rw [← ht.norm]
    exact hk
  · obtain ⟨hn, ha⟩ := h.owned x k hx hxk
    exact ⟨(ht.norm k).trans hn, ht.keep k ha⟩

theorem fresh_containerAlloc (h : Isolated v) (p : ℕ) (hne : (v.containerAlloc p).1 ≠ 0) :
    Fresh (v.containerAlloc p).2 (v.containerAlloc p).1 := by
  have ht := takes_containerAlloc v.pmm p
  obtain ⟨hn, hfree, ha⟩ := ht.free hne
  refine ⟨(ht.norm _).trans hn, ha, fun x hx hxn => ?_⟩
  -- a page at a place was allocated before
  have := (h.owned x _ hx hxn).2
  rw [show v.pmm.table.allocated (v.containerAlloc p).1 = false from hfree] at this
  cases this

end Isolated

theorem Fresh.containerAlloc (hm : Fresh v m) (p : ℕ) :
    Fresh (v.containerAlloc p).2 m ∧ ((v.containerAlloc p).1 ≠ 0 → m ≠ (v.containerAlloc p).1) := by
  have ht := takes_containerAlloc v.pmm p
  refine ⟨⟨(ht.norm m).trans hm.norm, ht.keep m hm.allocated, hm.unused⟩, fun hne e => ?_⟩
  have hfree : v.pmm.table.allocated (v.containerAlloc p).1 = false := (ht.free hne).2.1
  rw [← e, hm.allocated] at hfree
  cases hfree

theorem Vm.clears_newTable (v : Vm) (p i : ℕ) {n : ℕ} (hlo : 262144 ≤ n) (hhi : n < 983040) :
    ∃ e, e / PAGESIZE = n ∧ e ≠ 0 ∧
      (∀ q k, ((v.setPdirEntry p i n).clearPtbl p i).pdir q k = if q = p ∧ k = i then e else v.pdir q k) ∧
      Clears (v.setPdirEntry p i n) ((v.setPdirEntry p i n).clearPtbl p i) n 1024 := by
  set e := (n * PAGESIZE + PT_PERM_PTU) % 2 ^ 32 with he
  have hdiv : e / PAGESIZE = n ∧ e ≠ 0 := by
    rw [he]
    unfold PAGESIZE PT_PERM_PTU PTE_P PTE_W PTE_U
    omega
  have hdir : ∀ q k, (v.setPdirEntry p i n).pdir q k = if q = p ∧ k = i then e else v.pdir q k := v.pdir_storePdir p i e
  have hc := (v.setPdirEntry p i n).clears_clearPtbl p i
  rw [hdir, if_pos ⟨rfl, rfl⟩, hdiv.1] at hc
  exact ⟨e, hdiv.1, hdiv.2, fun q k => by rw [hc.pdir, hdir], hc⟩

namespace Isolated

variable {v t : Vm} {n m p i j perm : ℕ}

theorem table_ge (h : Isolated v) (hu : (PtPlace.table p i).User) (h0 : v.pdir p i ≠ 0) :
    262144 ≤ v.pdir p i / PAGESIZE := by
  have ho := h.owned (.table p i) (v.pdir p i / PAGESIZE) hu (if_neg h0)
  exact (h.lt_of_isNorm ho.1).1

theorem stores_table (h : Isolated v) (hf : Fresh v n) (hu : (PtPlace.table p i).User) (h0 : v.pdir p i = 0) :
    Stores v ((v.setPdirEntry p i n).clearPtbl p i) (.table p i) n := by
  obtain ⟨hlo, hhi⟩ := h.lt_of_isNorm hf.norm
  obtain ⟨e, hdiv, he, hdir, hc⟩ := v.clears_newTable p i hlo hhi
  set t := (v.setPdirEntry p i n).clearPtbl p i
  -- the table of another entry is another page
  have hother : ∀ p' i', (PtPlace.table p' i').User → ¬ (p' = p ∧ i' = i) → v.pdir p' i' ≠ 0 →
      ∀ j', t.word (v.pdir p' i' / PAGESIZE) j' = v.word (v.pdir p' i' / PAGESIZE) j' := by
    intro p' i' hu' hne h0' j'
    refine Vm.word_congr (hc.mem _ fun e' => hf.unused (.table p' i') hu' ?_) j'
    rw [Vm.pageAt, if_neg h0', e']
  have hentry : ∀ p' i' j', (PtPlace.entry p' i' j').User → t.entryAt p' i' j' = v.entryAt p' i' j' := by
    rintro p' i' j' ⟨h1, h2, h3, h4⟩
    unfold Vm.entryAt Vm.getPtblEntry
    rw [hdir]
    by_cases hpi : p' = p ∧ i' = i
    · rw [if_pos hpi, if_neg he, hdiv, hc.word, if_pos h4, hpi.1, hpi.2, if_pos h0]
    · rw [if_neg hpi]
      by_cases h0' : v.pdir p' i' = 0
      · rw [if_pos h0', if_pos h0']
      · rw [if_neg h0', if_neg h0', hother p' i' ⟨h1, h2, h3⟩ hpi h0']
  refine ⟨hc.pmm, hc.idptbl, fun x hx => ?_, fun p' i' j' hu' _ => hentry p' i' j' hu', fun p' i' hi' => ?_,
    fun i' hi' j' hj' => ?_⟩
  · cases x with
    | table p' i' =>
      simp only [Vm.pageAt, hdir, PtPlace.table.injEq]
      by_cases hpi : p' = p ∧ i' = i
      · rw [if_pos hpi, if_neg he, if_pos hpi, hdiv]
      · rw [if_neg hpi, if_neg hpi]
    | entry p' i' j' =>
      rw [if_neg nofun]
      simp only [Vm.pageAt, hentry p' i' j' hx]
  · have hne : ¬ (p' = p ∧ i' = i) := by
      rintro ⟨-, rfl⟩
      obtain ⟨-, h2, h3⟩ := hu
      omega
    rw [hdir, if_neg hne]
  · refine Vm.word_congr (hc.mem _ ?_) j'
    have := h.kernel
    have hpi : VM_USERLO_PI = 262144 := by decide
    omega

theorem stores_entry (h : Isolated v) (hf : Fresh v n) (hu : (PtPlace.entry p i j).User) (h0 : v.pdir p i ≠ 0)
    (hperm : perm < PAGESIZE) : Stores v (v.setPtblEntry p i j n perm) (.entry p i j) n := by
  obtain ⟨hlo, hhi⟩ := h.lt_of_isNorm hf.norm
  obtain ⟨h1, h2, h3, h4⟩ := hu
  have hge := h.table_ge ⟨h1, h2, h3⟩ h0
  have hw : ∀ page' j', (v.setPtblEntry p i j n perm).word page' j' =
      if page' = v.pdir p i / PAGESIZE ∧ j' = j then n * PAGESIZE + perm else v.word page' j' := by
    intro page' j'
    rw [Vm.setPtblEntry, v.word_setWord h4, Nat.mod_eq_of_lt]
    unfold PAGESIZE at hperm ⊢
    omega
  have hentry : ∀ p' i' j', (PtPlace.entry p' i' j').User →
      (v.setPtblEntry p i j n perm).entryAt p' i' j' =
        if PtPlace.entry p' i' j' = .entry p i j then n * PAGESIZE + perm else v.entryAt p' i' j' := by
    rintro p' i' j' ⟨h1', h2', h3', -⟩
    unfold Vm.entryAt Vm.getPtblEntry
    rw [hw]
    show (if v.pdir p' i' = 0 then 0 else if v.pdir p' i' / PAGESIZE = v.pdir p i / PAGESIZE ∧ j' = j then _ else _) = _
    by_cases h0' : v.pdir p' i' = 0
    · have hne : PtPlace.entry p' i' j' ≠ .entry p i j := by
        rintro ⟨⟩
        exact h0 h0'
      rw [if_pos h0', if_neg hne, if_pos h0']
    · rw [if_neg h0', if_neg h0']
      refine if_congr ?_ rfl rfl
      constructor
      · rintro ⟨hpage, rfl⟩
        -- one page, so one table
        have := h.inj (.table p' i') (.table p i) _ ⟨h1', h2', h3'⟩ ⟨h1, h2, h3⟩ (if_neg h0') (by rw [hpage]; exact if_neg h0)
        cases this
        rfl
      · rintro ⟨⟩
        exact ⟨rfl, rfl⟩
  refine ⟨rfl, rfl, fun x hx => ?_, fun p' i' j' hu' hne => ?_, fun _ _ _ => rfl, fun i' hi' j' hj' => ?_⟩
  · cases x with
    | table p' i' =>
      rw [if_neg nofun]
      rfl
    | entry p' i' j' =>
      rw [Vm.pageAt, hentry p' i' j' hx]
      by_cases he : PtPlace.entry p' i' j' = .entry p i j
      · have hdiv : n * PAGESIZE + perm ≠ 0 ∧ (n * PAGESIZE + perm) / PAGESIZE = n := by
          unfold PAGESIZE at hperm ⊢
          omega
        rw [if_pos he, if_pos he, if_neg hdiv.1, hdiv.2]
      · rw [if_neg he, if_neg he]
        rfl
  · rw [hentry p' i' j' hu', if_neg hne]
  · have := h.kernel
    have hpi : VM_USERLO_PI = 262144 := by decide
    rw [hw, if_neg (by omega)]

end Isolated

/-! ### Mapping -/

theorem user_of_range {va : UInt32} (hp : 1 ≤ p) (hlo : VM_USERLO ≤ va.toNat) (hhi : va.toNat < VM_USERHI) :
    (PtPlace.entry p (Vm.pdeIndex va) (Vm.pteIndex va)).User := by
  unfold VM_USERLO at hlo
  unfold VM_USERHI at hhi
  unfold Vm.pdeIndex Vm.pteIndex
  refine ⟨hp, ?_, ?_, ?_⟩ <;> omega

/-- Between `v` and `t` pages may have been allocated, and only such pages have been stored. -/
structure Grows (v t : Vm) : Prop where
  norm : ∀ n, t.pmm.table.isNorm n = v.pmm.table.isNorm n
  keep : ∀ n, v.pmm.table.allocated n = true → t.pmm.table.allocated n = true
  old : ∀ x n, x.User → t.pageAt x = some n → v.pageAt x = some n ∨ v.pmm.table.allocated n = false

theorem Grows.refl (v : Vm) : Grows v v := ⟨fun _ => rfl, fun _ h => h, fun _ _ _ h => .inl h⟩

theorem Grows.trans (h : Grows v t) (h' : Grows t u) : Grows v u := by
  refine ⟨fun n => (h'.norm n).trans (h.norm n), fun n hn => h'.keep n (h.keep n hn), fun x n hx hxn => ?_⟩
  rcases h'.old x n hx hxn with ho | ho
  · exact h.old x n hx ho
  · refine .inr ?_
    by_contra ha
    rw [h.keep n (by simpa using ha)] at ho
    cases ho

theorem Grows.containerAlloc (h : Grows v t) (p : ℕ) : Grows v (t.containerAlloc p).2 := by
  have ht := takes_containerAlloc t.pmm p
  exact ⟨fun n => (ht.norm n).trans (h.norm n), fun n hn => ht.keep n (h.keep n hn), h.old⟩

theorem Grows.free (h : Grows v t) (hne : (t.containerAlloc p).1 ≠ 0) :
    v.pmm.table.allocated (t.containerAlloc p).1 = false := by
  have hfree : t.pmm.table.allocated (t.containerAlloc p).1 = false := ((takes_containerAlloc t.pmm p).free hne).2.1
  by_contra ha
  have := h.keep _ (by simpa using ha)
  rw [hfree] at this
  cases this

theorem Grows.stores (h : Grows v t) (hs : Stores t u x₀ n)
    (hn : v.pmm.table.allocated n = false) : Grows v u := by
  refine ⟨fun k => hs.pmm ▸ h.norm k, fun k hk => hs.pmm ▸ h.keep k hk, fun x k hx hxk => ?_⟩
  rw [hs.pageAt x hx] at hxk
  split_ifs at hxk
  · cases hxk
    exact .inr hn
  · exact h.old x k hx hxk

/-- What `map_page` and `alloc_page` do at the place of the virtual address: they store a page there, or, when they
return `MagicNumber`, they do not. -/
structure MapsAt (v t : Vm) (p i j perm res : ℕ) : Prop where
  inv : Isolated t
  idptbl : t.idptbl = v.idptbl
  keep : ∀ p' i' j', (PtPlace.entry p' i' j').User → PtPlace.entry p' i' j' ≠ .entry p i j →
    t.entryAt p' i' j' = v.entryAt p' i' j'
  done : res ≠ MagicNumber → ∃ n, t.entryAt p i j = n * PAGESIZE + perm
  fail : res = MagicNumber → t.entryAt p i j = v.entryAt p i j

namespace Isolated

variable {v t : Vm} {n p i j perm : ℕ} {va : UInt32}

theorem mapsAt_setPtblEntry (h : Isolated v) (hf : Fresh v n) (hu : (PtPlace.entry p i j).User) (h0 : v.pdir p i ≠ 0)
    (hperm : perm < PAGESIZE) {res : ℕ} (hres : res ≠ MagicNumber) :
    MapsAt v (v.setPtblEntry p i j n perm) p i j perm res := by
  have hs := h.stores_entry hf hu h0 hperm
  obtain ⟨hlo, hhi⟩ := h.lt_of_isNorm hf.norm
  refine ⟨h.store hf hs, rfl, hs.entryAt, fun _ => ⟨n, ?_⟩, fun e => absurd e hres⟩
  have hdir : (v.setPtblEntry p i j n perm).pdir p i ≠ 0 := h0
  rw [Vm.entryAt, if_neg hdir]
  show (v.setPtblEntry p i j n perm).word (v.pdir p i / PAGESIZE) j = _
  rw [Vm.setPtblEntry, v.word_setWord hu.2.2.2, if_pos ⟨rfl, rfl⟩, Nat.mod_eq_of_lt]
  unfold PAGESIZE at hperm ⊢
  omega

theorem mapPage {w : Vm} (h : Isolated v) (hf : Fresh v n) (hg : Grows w v) (hn : w.pmm.table.allocated n = false)
    (hu : (PtPlace.entry p (Vm.pdeIndex va) (Vm.pteIndex va)).User) (hperm : perm < PAGESIZE) :
    MapsAt v (v.mapPage p va n perm).2 p (Vm.pdeIndex va) (Vm.pteIndex va) perm (v.mapPage p va n perm).1 ∧
      Grows w (v.mapPage p va n perm).2 := by
  have hu' : (PtPlace.table p (Vm.pdeIndex va)).User := ⟨hu.1, hu.2.1, hu.2.2.1⟩
  unfold Vm.mapPage
  by_cases h0 : v.pdir p (Vm.pdeIndex va) = 0
  · -- a table has to be allocated first
    simp only [Vm.getPdirEntry, h0, ne_eq, not_true_eq_false, if_false]
    unfold Vm.allocPtbl
    have hi := h.containerAlloc p
    obtain ⟨hf', hne⟩ := hf.containerAlloc p
    by_cases hr : (v.containerAlloc p).1 = 0
    · simp only [hr, ne_eq, not_true_eq_false, if_false, if_true]
      exact ⟨⟨hi, rfl, fun _ _ _ _ _ => rfl, fun e => absurd rfl e, fun _ => rfl⟩, hg.containerAlloc p⟩
    · simp only [hr, ne_eq, not_false_eq_true, if_true, if_false]
      have hfr := h.fresh_containerAlloc p hr
      have hst := hi.stores_table hfr hu' h0
      have hlt := hi.lt_of_isNorm hfr.norm
      have hmagic : (v.containerAlloc p).1 ≠ MagicNumber := by
        unfold MagicNumber
        omega
      rw [if_pos hmagic]
      have hdir : (((v.containerAlloc p).2.setPdirEntry p (Vm.pdeIndex va) (v.containerAlloc p).1).clearPtbl p
          (Vm.pdeIndex va)).pdir p (Vm.pdeIndex va) ≠ 0 := by
        have := hst.pageAt _ hu'
        intro e
        rw [if_pos rfl, Vm.pageAt, if_pos e] at this
        cases this
      have hi' := hi.store hfr hst
      have hf'' := hf'.of_stores hst (hne hr)
      have hm := hi'.mapsAt_setPtblEntry hf'' hu hdir hperm hmagic
      have hg' := ((hg.containerAlloc p).stores hst (hg.free hr)).stores (hi'.stores_entry hf'' hu hdir hperm) hn
      refine ⟨⟨hm.inv, hm.idptbl.trans hst.idptbl, fun p' i' j' hu'' hne' => ?_, hm.done, fun e => absurd e hmagic⟩, hg'⟩
      rw [hm.keep p' i' j' hu'' hne', hst.entryAt p' i' j' hu'' nofun]
      rfl
  · have hmagic : (0 : ℕ) ≠ MagicNumber := by decide
    simp only [Vm.getPdirEntry, h0, hmagic, ne_eq, not_false_eq_true, if_true]
    exact ⟨h.mapsAt_setPtblEntry hf hu h0 hperm hmagic, hg.stores (h.stores_entry hf hu h0 hperm) hn⟩

theorem allocPage (h : Isolated v) (hu : (PtPlace.entry p (Vm.pdeIndex va) (Vm.pteIndex va)).User) (hperm : perm < PAGESIZE) :
    MapsAt v (v.allocPage p va perm).2 p (Vm.pdeIndex va) (Vm.pteIndex va) perm (v.allocPage p va perm).1 ∧
      Grows v (v.allocPage p va perm).2 := by
  unfold Vm.allocPage
  have hi := h.containerAlloc p
  by_cases hr : (v.containerAlloc p).1 = 0
  · simp only [hr, if_true]
    exact ⟨⟨hi, rfl, fun _ _ _ _ _ => rfl, fun e => absurd rfl e, fun _ => rfl⟩, (Grows.refl v).containerAlloc p⟩
  · simp only [hr, if_false]
    obtain ⟨hm, hg⟩ := hi.mapPage (h.fresh_containerAlloc p hr) ((Grows.refl v).containerAlloc p)
      ((Grows.refl v).free hr) hu hperm
    exact ⟨⟨hm.inv, hm.idptbl, hm.keep, hm.done, hm.fail⟩, hg⟩

end Isolated

/-! ### Runs -/

/-- The calls that change quotas and page tables. -/
inductive VmAct where
  /-- `container_split`. -/
  | split (id : ℕ) (quota : UInt32)
  | allocPage (p : ℕ) (va perm : UInt32)

def Vm.step (v : Vm) : VmAct → Vm
  | .split id quota => { v with pmm := { v.pmm with container := (containerSplit v.pmm.container id quota).2 } }
  | .allocPage p va perm => (v.allocPage p va perm.toNat).2

/-- The call is for a process other than the kernel's and for a virtual address of user memory. -/
def VmAct.User : VmAct → Prop
  | .split _ _ => True
  | .allocPage p va _ => 1 ≤ p ∧ VM_USERLO ≤ va.toNat ∧ va.toNat < VM_USERHI

def VmAct.PermBits : VmAct → Prop
  | .split _ _ => True
  | .allocPage _ _ perm => perm.toNat < PAGESIZE

def VmStep (v t : Vm) : Prop := ∃ a : VmAct, a.User ∧ a.PermBits ∧ t = v.step a

theorem Isolated.step (h : Isolated v) {a : VmAct} (hu : a.User) (hp : a.PermBits) :
    Isolated (v.step a) ∧ (v.step a).idptbl = v.idptbl := by
  cases a with
  | split id quota => exact ⟨⟨h.norm, h.kernel, h.inj, h.owned, h.ident, h.idtbl⟩, rfl⟩
  | allocPage p va perm =>
    obtain ⟨hm, -⟩ := h.allocPage (user_of_range hu.1 hu.2.1 hu.2.2) hp
    exact ⟨hm.inv, hm.idptbl⟩

theorem isolated_pdirInitKern (mm : List MemRange) {idptbl : ℕ} (hid : idptbl + 1024 ≤ VM_USERLO_PI) (mem : ℕ → Page) :
    Isolated (Vm.pdirInitKern mm idptbl mem) := by
  have hnone : ∀ x : PtPlace, x.User → (Vm.pdirInitKern mm idptbl mem).pageAt x = none := by
    intro x hx
    have hdir : ∀ p i, 1 ≤ p → 256 ≤ i → i < 960 → (Vm.pdirInitKern mm idptbl mem).pdir p i = 0 := by
      intro p i h1 h2 h3
      exact if_neg (by omega)
    cases x with
    | table p i => exact if_pos (hdir p i hx.1 hx.2.1 hx.2.2)
    | entry p i j =>
      have : (Vm.pdirInitKern mm idptbl mem).entryAt p i j = 0 := if_pos (hdir p i hx.1 hx.2.1 hx.2.2.1)
      rw [Vm.pageAt, if_pos this]
  refine ⟨userNorm_pmemInit mm, hid, fun x y n hx _ hxn _ => ?_, fun x n hx hxn => ?_, fun p i hi => ?_, fun i hi j hj => ?_⟩
  · rw [hnone x hx] at hxn
    cases hxn
  · rw [hnone x hx] at hxn
    cases hxn
  · exact if_pos (by omega)
  · exact Vm.word_pdirInitKern mm idptbl mem hi hj

theorem Isolated.reach (hv : Isolated v) (h : ReflTransGen VmStep v t) :
    Isolated t ∧ t.idptbl = v.idptbl := by
  induction h with
  | refl => exact ⟨hv, rfl⟩
  | tail _ hstep ih =>
    obtain ⟨a, hu, hp, rfl⟩ := hstep
    obtain ⟨hinv, hid⟩ := ih.1.step hu hp
    exact ⟨hinv, hid.trans ih.2⟩

theorem identityPte_not_user (i j : ℕ) : Vm.identityPte i j / PTE_U % 2 = 0 := by
  unfold Vm.identityPte Vm.identityPerm PAGESIZE PTE_P PTE_W PTE_G PTE_U
  split_ifs <;> omega

/-- Along every run of `container_split` and `alloc_page` with permission bits for user addresses, a physical page is at
most at one place of the user address spaces, it is a normal page that is allocated, and the kernel's parts of the page
directories lead to the unchanged identity table, which has no `PTE_U` bit. -/
theorem address_space_isolation (mm : List MemRange) {idptbl : ℕ} (hid : idptbl + 1024 ≤ VM_USERLO_PI) (mem : ℕ → Page)
    {v : Vm} (h : ReflTransGen VmStep (Vm.pdirInitKern mm idptbl mem) v) :
    (∀ x y n, x.User → y.User → v.pageAt x = some n → v.pageAt y = some n → x = y) ∧
      (∀ x n, x.User → v.pageAt x = some n → v.pmm.table.isNorm n = true ∧ v.pmm.table.allocated n = true) ∧
      (∀ p i, i < 256 ∨ 960 ≤ i ∧ i < 1024 → v.pdir p i = Vm.identityPde idptbl i) ∧
      ∀ i < 1024, ∀ j < 1024, v.word (idptbl + i) j = Vm.identityPte i j ∧ v.word (idptbl + i) j / PTE_U % 2 = 0 := by
  obtain ⟨hi, rfl : v.idptbl = idptbl⟩ := (isolated_pdirInitKern mm hid mem).reach h
  refine ⟨hi.inj, hi.owned, hi.ident, fun i hi' j hj => ?_⟩
  rw [hi.idtbl i hi' j hj]
  exact ⟨rfl, identityPte_not_user i j⟩

def Vm.start2G : Vm := pdirInitKern mem2G 1024 fun _ _ => 0

theorem address_space_isolation_map :
    let v := (Vm.start2G.step (.split 0 1000)).step (.allocPage 1 0x40000000 7)
    v.pageAt (.entry 1 256 0) = some 262145 ∧
    (∀ x y n, x.User → y.User → v.pageAt x = some n → v.pageAt y = some n → x = y) ∧
      (∀ x n, x.User → v.pageAt x = some n → v.pmm.table.isNorm n = true ∧ v.pmm.table.allocated n = true) ∧
      (∀ p i, i < 256 ∨ 960 ≤ i ∧ i < 1024 → v.pdir p i = Vm.identityPde 1024 i) ∧
      ∀ i < 1024, ∀ j < 1024, v.word (1024 + i) j = Vm.identityPte i j ∧ v.word (1024 + i) j / PTE_U % 2 = 0 := by
  refine ⟨?_, address_space_isolation mem2G (by decide) (fun _ _ => 0) ?_⟩
  · simp only [Vm.start2G, Vm.pdirInitKern, realQuota_mem2G]
    decide +kernel
  · exact (ReflTransGen.single ⟨.split 0 1000, trivial, trivial, rfl⟩).tail
      ⟨.allocPage 1 0x40000000 7, by simp only [VmAct.User]; decide, by simp only [VmAct.PermBits]; decide, rfl⟩

/-- With the "permission" `4096`, the entry for the page that `alloc_page` has allocated names the next page, which was
allocated for the page table: the process has its own page table mapped. -/
theorem perm_not_masked :
    let v := (Vm.start2G.step (.split 0 1000)).step (.allocPage 1 0x40000000 4096)
    (VmAct.allocPage 1 0x40000000 4096).User ∧ (PtPlace.table 1 256).User ∧ (PtPlace.entry 1 256 0).User ∧
      v.pageAt (.table 1 256) = some 262146 ∧ v.pageAt (.entry 1 256 0) = some 262146 := by
  simp only [Vm.start2G, Vm.pdirInitKern, realQuota_mem2G, VmAct.User, PtPlace.User]
  decide +kernel

end MCertiKOS.Memory
