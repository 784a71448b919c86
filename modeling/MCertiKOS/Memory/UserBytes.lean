import MCertiKOS.Memory.UserCopy
import Mathlib.Data.List.GetD

/-!
# What copies leave in user memory

`userByte v p a` is the byte at virtual address `a` of process `p`. A copy from user memory changes no byte of any
process and returns the bytes of the range (`copyin_spec`); a copy to user memory stores the bytes in the range and
changes nothing else (`copyout_spec`). One after the other, they give back what was stored (`copyin_copyout`).

Pages are allocated on the way. `Untouched` is the frame condition: which pages may become mapped and which bytes may
change. `Spends` accounts for the allocations: a copy takes at most two pages for each page of the range that was
missing, from the quota of its own process.
-/

namespace MCertiKOS.Memory

open Library Paging Relation List Finset

namespace Vm

/-- The byte at virtual address `a` of process `p`. -/
def userByte (v : Vm) (p a : ℕ) : UInt8 := byteAt (v.mem (v.entryOf p (a / PAGESIZE) / PAGESIZE)) (a % PAGESIZE)

/-- The number of pages of `S` that `p` has not mapped. -/
def missingIn (v : Vm) (p : ℕ) (S : Finset ℕ) : ℕ := (S.filter fun q => ¬ v.Present p q).card

def pagesOf (uva len : ℕ) : Finset ℕ := Finset.Ico (uva / PAGESIZE) ((uva + len + 4095) / PAGESIZE)

variable {uva len : ℕ}

theorem mem_pagesOf {a : ℕ} (h1 : uva ≤ a) (h2 : a < uva + len) : a / PAGESIZE ∈ pagesOf uva len := by
  unfold pagesOf PAGESIZE
  rw [mem_Ico]
  omega

theorem pagesOf_subset {uva' len' : ℕ} (h1 : uva ≤ uva') (h2 : uva' + len' ≤ uva + len) :
    pagesOf uva' len' ⊆ pagesOf uva len := by
  unfold pagesOf PAGESIZE
  intro q hq
  rw [mem_Ico] at hq ⊢
  omega

theorem missingIn_mono (v : Vm) (p : ℕ) {S T : Finset ℕ} (h : S ⊆ T) : v.missingIn p S ≤ v.missingIn p T :=
  card_le_card (filter_subset_filter _ h)

end Vm

open Vm

/-! ### Ranges of user memory -/

variable {uva va : UInt32} {len a q p p' n n' size fuel k : ℕ} {v t : Vm} {m m' : Pmm} {S : Finset ℕ}
  {memcpy : Vm → ℕ → ℕ → ℕ → Vm × List UInt8} {f : ℕ → UInt8}

theorem rangeOk_of_user {kva len : UInt32} (hlo : VM_USERLO ≤ uva.toNat) (hhi : uva.toNat + len.toNat ≤ VM_USERHI)
    (hk : kva.toNat + len.toNat ≤ VM_USERHI) : Vm.rangeOk uva kva len = true := by
  unfold VM_USERHI at hhi hk
  have e1 : (uva + len).toNat = uva.toNat + len.toNat := by rw [UInt32.toNat_add, Nat.mod_eq_of_lt (by omega)]
  have e2 : (kva + len).toNat = kva.toNat + len.toNat := by rw [UInt32.toNat_add, Nat.mod_eq_of_lt (by omega)]
  unfold Vm.rangeOk VM_USERHI
  rw [e1, e2]
  simp only [Bool.and_eq_true, decide_eq_true_eq]
  exact ⟨⟨hlo, hhi⟩, hk⟩

theorem userPage_of_mem_pagesOf (hlo : VM_USERLO ≤ a) (hhi : a + len ≤ VM_USERHI) (hq : q ∈ pagesOf a len) :
    UserPage q := by
  unfold pagesOf PAGESIZE at hq
  rw [mem_Ico] at hq
  unfold VM_USERLO at hlo
  unfold VM_USERHI at hhi
  unfold UserPage
  omega

/-! ### Frame condition -/

/-- Between `v` and `t` only pages in `M` became mapped, and only bytes in `W` have changed. -/
structure Untouched (v t : Vm) (M W : ℕ → ℕ → Prop) : Prop where
  /-- The mappings there were are kept, and those outside of `M`. -/
  entry : ∀ p q, 1 ≤ p → UserPage q → v.Present p q ∨ ¬ M p q → t.entryOf p q = v.entryOf p q
  byte : ∀ p a, 1 ≤ p → UserPage (a / PAGESIZE) → v.Present p (a / PAGESIZE) → ¬ W p a → t.userByte p a = v.userByte p a

namespace Untouched

variable {v t u : Vm} {M W M' W' : ℕ → ℕ → Prop}

theorem refl (v : Vm) (M W : ℕ → ℕ → Prop) : Untouched v v M W := ⟨fun _ _ _ _ _ => rfl, fun _ _ _ _ _ _ => rfl⟩

theorem mono (h : Untouched v t M W) (hM : ∀ p q, M p q → M' p q) (hW : ∀ p a, W p a → W' p a) : Untouched v t M' W' :=
  ⟨fun p q hp hq hor => h.entry p q hp hq (hor.imp id fun hn hm => hn (hM p q hm)),
    fun p a hp hq hpr hn => h.byte p a hp hq hpr fun hw => hn (hW p a hw)⟩

variable {p : ℕ}

theorem present (h : Untouched v t M W) {q : ℕ} (hp : 1 ≤ p) (hq : UserPage q) (hpr : v.Present p q) : t.Present p q := by
  rw [Vm.Present, h.entry p q hp hq (.inl hpr)]
  exact hpr

theorem trans (h : Untouched v t M W) (h' : Untouched t u M W) : Untouched v u M W := by
  refine ⟨fun p q hp hq hor => ?_, fun p a hp hq hpr hn => ?_⟩
  · rw [h'.entry p q hp hq (hor.imp (h.present hp hq) id), h.entry p q hp hq hor]
  · rw [h'.byte p a hp hq (h.present hp hq hpr) hn, h.byte p a hp hq hpr hn]

theorem missingIn_eq (h : Untouched v t M W) (hp : 1 ≤ p) {S : Finset ℕ} (hS : ∀ q ∈ S, UserPage q)
    (hM : ∀ q, ¬ M p q) : t.missingIn p S = v.missingIn p S := by
  unfold Vm.missingIn
  congr 1
  refine filter_congr fun q hq => ?_
  rw [Vm.Present, Vm.Present, h.entry p q hp (hS q hq) (.inr (hM q))]

end Untouched

theorem Isolated.place_eq (h : Isolated v) {q' : ℕ} (hp : 1 ≤ p) (hp' : 1 ≤ p') (hq : UserPage q)
    (hq' : UserPage q') (hpr : v.Present p q) (hpr' : v.Present p' q')
    (he : v.entryOf p q / PAGESIZE = v.entryOf p' q' / PAGESIZE) : p = p' ∧ q = q' := by
  have hat : ∀ p q, v.Present p q → v.pageAt (.entry p (q / 1024) (q % 1024)) = some (v.entryOf p q / PAGESIZE) := by
    intro p q hpr
    refine if_neg fun h0 => ?_
    rw [Vm.Present, Vm.entryOf, h0] at hpr
    omega
  have := h.inj _ _ _ (hq.user hp) (hq'.user hp') (hat p q hpr) (by rw [he]; exact hat p' q' hpr')
  injection this with h1 h2 h3
  omega

/-! ### Allocation -/

theorem Isolated.mem_allocPage (h : Isolated v) (perm : ℕ)
    (hu : (PtPlace.entry p (pdeIndex va) (pteIndex va)).User) {i j : ℕ} (hx : (PtPlace.entry p' i j).User)
    (hn : v.pageAt (.entry p' i j) = some n) : (v.allocPage p va perm).2.mem n = v.mem n := by
  have hu' : (PtPlace.table p (pdeIndex va)).User := ⟨hu.1, hu.2.1, hu.2.2.1⟩
  unfold Vm.allocPage
  by_cases hr : (v.containerAlloc p).1 = 0
  · simp only [hr, if_true]
    rfl
  · simp only [hr, if_false]
    have hi := h.containerAlloc p
    have hn' : (v.containerAlloc p).2.pageAt (.entry p' i j) = some n := hn
    have hm : (v.containerAlloc p).2.mem = v.mem := rfl
    rw [← hm]
    set w := (v.containerAlloc p).2
    unfold Vm.mapPage
    by_cases h0 : w.pdir p (pdeIndex va) = 0
    · simp only [Vm.getPdirEntry, h0, ne_eq, not_true_eq_false, if_false]
      unfold Vm.allocPtbl
      by_cases hr' : (w.containerAlloc p).1 = 0
      · simp only [hr', ne_eq, not_true_eq_false, if_false, if_true]
        rfl
      · simp only [hr', ne_eq, not_false_eq_true, if_true, if_false]
        have hfr := hi.fresh_containerAlloc p hr'
        have hlt := (hi.containerAlloc p).lt_of_isNorm hfr.norm
        have hmagic : (w.containerAlloc p).1 ≠ MagicNumber := by
          unfold MagicNumber
          omega
        rw [if_pos hmagic]
        -- both writes are to the new table
        have hne : n ≠ (w.containerAlloc p).1 := fun e => hfr.unused _ hx (e ▸ hn')
        set x := (w.containerAlloc p).2.setPdirEntry p (pdeIndex va) (w.containerAlloc p).1
        have hdir : x.pdir p (pdeIndex va) / PAGESIZE = (w.containerAlloc p).1 := by
          show ((w.containerAlloc p).2.setPdirEntry p (pdeIndex va) (w.containerAlloc p).1).pdir p (pdeIndex va) / PAGESIZE = _
          rw [Vm.setPdirEntry, Vm.pdir_storePdir, if_pos ⟨rfl, rfl⟩]
          unfold PAGESIZE PT_PERM_PTU PTE_P PTE_W PTE_U
          omega
        have hc := x.clears_clearPtbl p (pdeIndex va)
        have hmem : (x.clearPtbl p (pdeIndex va)).mem n = w.mem n := hc.mem n (by rwa [hdir])
        rw [← hmem]
        refine Function.update_of_ne ?_ _ _
        rw [hc.pdir, hdir]
        exact hne
    · have hmagic : (0 : ℕ) ≠ MagicNumber := by decide
      simp only [Vm.getPdirEntry, h0, hmagic, ne_eq, not_false_eq_true, if_true]
      refine Function.update_of_ne ?_ _ _
      intro e
      have := hi.inj (.table p (pdeIndex va)) (.entry p' i j) n hu' hx (by rw [e]; exact if_neg h0) hn'
      cases this

theorem untouched_translate (h : Isolated v) (hp : 1 ≤ p) (hq : UserPage (va.toNat / PAGESIZE)) :
    Untouched v (v.translate p va).2 (fun p' q => p' = p ∧ q = va.toNat / PAGESIZE) (fun _ _ => False) := by
  unfold Vm.translate
  split_ifs with hpres
  · obtain ⟨hpde, hu⟩ := hq.place hp
    obtain ⟨hm, -⟩ := h.allocPage hu (show PTE_P + PTE_U + PTE_W < PAGESIZE by decide)
    have hentry : ∀ p' q, 1 ≤ p' → UserPage q → v.Present p' q ∨ ¬ (p' = p ∧ q = va.toNat / PAGESIZE) →
        (v.allocPage p va (PTE_P + PTE_U + PTE_W)).2.entryOf p' q = v.entryOf p' q := by
      intro p' q hp' hq' hor
      refine hm.keep p' (q / 1024) (q % 1024) (hq'.user hp') fun e => ?_
      rw [hpde] at e
      injection e with h1 h2 h3
      have h3 : q % 1024 = va.toNat / PAGESIZE % 1024 := h3
      obtain rfl : q = va.toNat / PAGESIZE := by omega
      rcases hor with hpr | hn
      · rw [v.getPtblEntryByVa_eq, ← h1] at hpres
        rw [Vm.Present] at hpr
        omega
      · exact hn ⟨h1, rfl⟩
    refine ⟨hentry, fun p' a hp' hq' hpr _ => ?_⟩
    have h0 : v.entryAt p' (a / PAGESIZE / 1024) (a / PAGESIZE % 1024) ≠ 0 := by
      intro e
      rw [Vm.Present, Vm.entryOf, e] at hpr
      omega
    unfold Vm.userByte
    rw [hentry p' _ hp' hq' (.inl hpr)]
    have := h.mem_allocPage (PTE_P + PTE_U + PTE_W) hu (hq'.user hp')
      (n := v.entryOf p' (a / PAGESIZE) / PAGESIZE) (if_neg h0)
    rw [this]
  · exact .refl _ _ _

/-! ### Quota -/

/-- Between `v` and `t` at most `n` pages were allocated, for `p`. -/
structure Took (m m' : Pmm) (p n : ℕ) : Prop where
  quota : (m'.container p).quota = (m.container p).quota
  usage : (m'.container p).usage.toNat ≤ (m.container p).usage.toNat + n
  other : ∀ p', p' ≠ p → m'.container p' = m.container p'
  pages : m.table.above.card ≤ m'.table.above.card + n

theorem Took.refl (m : Pmm) (p : ℕ) : Took m m p 0 := ⟨rfl, le_rfl, fun _ _ => rfl, le_rfl⟩

theorem Took.trans {m'' : Pmm} (h : Took m m' p n) (h' : Took m' m'' p n') : Took m m'' p (n + n') := by
  have h1 := h.usage
  have h2 := h'.usage
  have h3 := h.pages
  have h4 := h'.pages
  exact ⟨h'.quota.trans h.quota, by omega, fun q hq => (h'.other q hq).trans (h.other q hq), by omega⟩

theorem Took.mono (h : Took m m' p n) (hle : n ≤ n') : Took m m' p n' :=
  ⟨h.quota, h.usage.trans (by omega), h.other, h.pages.trans (by omega)⟩

theorem took_containerAlloc (m : Pmm) (p : ℕ) : Took m (m.containerAlloc p).2 p 1 := by
  have hc := m.container_containerAlloc p
  refine ⟨?_, ?_, fun q hq => ?_, ?_⟩
  · rw [hc]
    unfold Memory.containerAlloc
    split_ifs
    · rfl
    · simp
  · rw [hc]
    unfold Memory.containerAlloc
    split_ifs
    · exact Nat.le_succ _
    · dsimp only
      rw [Function.update_self]
      show ((m.container p).usage + 1).toNat ≤ _
      rw [UInt32.toNat_add]
      exact Nat.mod_le _ _
  · rw [hc]
    unfold Memory.containerAlloc
    split_ifs
    · rfl
    · exact Function.update_of_ne hq _ _
  · unfold Pmm.containerAlloc
    split_ifs
    · show m.table.above.card ≤ (palloc m.table).2.above.card + 1
      cases hf : m.table.nextFree with
      | some i => exact (card_above_palloc hf).ge
      | none =>
        -- there was nothing to find
        have : m.table.above = ∅ := by
          by_contra hne
          obtain ⟨i, hi⟩ := AT.exists_nextFree (nonempty_iff_ne_empty.mpr hne)
          rw [hf] at hi
          cases hi
        rw [this]
        exact Nat.zero_le _
    · exact Nat.le_succ _

theorem took_mapPage (v : Vm) (p : ℕ) (va : UInt32) (page perm : ℕ) : Took v.pmm (v.mapPage p va page perm).2.pmm p 1 := by
  have htbl : Took v.pmm (v.allocPtbl p va).2.pmm p 1 := by
    unfold Vm.allocPtbl
    dsimp only
    split_ifs
    · rw [(Vm.clears_clearPtbl _ p (pdeIndex va)).pmm]
      exact took_containerAlloc v.pmm p
    · exact took_containerAlloc v.pmm p
  have hr : Took v.pmm (if v.getPdirEntry p (pdeIndex va) ≠ 0 then ((0, v) : ℕ × Vm)
      else ((if (v.allocPtbl p va).1 = 0 then MagicNumber else (v.allocPtbl p va).1), (v.allocPtbl p va).2)).2.pmm p 1 := by
    split_ifs
    · exact (Took.refl v.pmm p).mono (Nat.zero_le 1)
    · exact htbl
    · exact htbl
  unfold Vm.mapPage
  generalize (if v.getPdirEntry p (pdeIndex va) ≠ 0 then ((0, v) : ℕ × Vm)
      else ((if (v.allocPtbl p va).1 = 0 then MagicNumber else (v.allocPtbl p va).1), (v.allocPtbl p va).2)) = r at hr
  dsimp only
  split_ifs
  · exact hr
  · exact hr

theorem took_allocPage (v : Vm) (p : ℕ) (va : UInt32) (perm : ℕ) : Took v.pmm (v.allocPage p va perm).2.pmm p 2 := by
  have h1 : Took v.pmm (v.containerAlloc p).2.pmm p 1 := took_containerAlloc v.pmm p
  unfold Vm.allocPage
  dsimp only
  split_ifs
  · exact h1.mono (by omega)
  · exact h1.trans (took_mapPage _ p va _ perm)

/-- Between `v` and `t` process `p` took two pages for each page of `S` that is mapped now and was missing. -/
structure Spends (v t : Vm) (p : ℕ) (S : Finset ℕ) : Prop where
  quota : (t.pmm.container p).quota = (v.pmm.container p).quota
  usage : (t.pmm.container p).usage.toNat + 2 * t.missingIn p S ≤ (v.pmm.container p).usage.toNat + 2 * v.missingIn p S
  other : ∀ p', p' ≠ p → t.pmm.container p' = v.pmm.container p'
  pages : v.pmm.table.above.card + 2 * t.missingIn p S ≤ t.pmm.table.above.card + 2 * v.missingIn p S

namespace Spends

variable {v t u : Vm} {p : ℕ} {S : Finset ℕ}

theorem refl (v : Vm) (p : ℕ) (S : Finset ℕ) : Spends v v p S := ⟨rfl, le_rfl, fun _ _ => rfl, le_rfl⟩

theorem trans (h : Spends v t p S) (h' : Spends t u p S) : Spends v u p S := by
  have h1 := h.usage
  have h2 := h'.usage
  have h3 := h.pages
  have h4 := h'.pages
  exact ⟨h'.quota.trans h.quota, by omega, fun q hq => (h'.other q hq).trans (h.other q hq), by omega⟩

theorem of_eq (hpmm : t.pmm = v.pmm) (hS : t.missingIn p S = v.missingIn p S) : Spends v t p S := by
  exact ⟨by rw [hpmm], by rw [hS, hpmm], fun _ _ => by rw [hpmm], by rw [hS, hpmm]⟩

end Spends

theorem Room.spend (h : Room v.pmm p (2 * v.missingIn p S)) (hs : Spends v t p S) :
    Room t.pmm p (2 * t.missingIn p S) := by
  have h1 := h.quota
  have h2 := h.pages
  have h3 := hs.usage
  have h4 := hs.pages
  refine ⟨?_, ?_⟩
  · rw [hs.quota]
    omega
  · omega

theorem spends_translate (h : Isolated v) (hp : 1 ≤ p) (hq : UserPage (va.toNat / PAGESIZE))
    (hpres : (v.translate p va).2.Present p (va.toNat / PAGESIZE)) (hS : ∀ q ∈ S, UserPage q)
    (hmem : va.toNat / PAGESIZE ∈ S) : Spends v (v.translate p va).2 p S := by
  by_cases hpr : v.Present p (va.toNat / PAGESIZE)
  · have he : (v.translate p va).2 = v := by
      unfold Vm.translate
      rw [v.getPtblEntryByVa_eq, if_neg]
      rw [Vm.Present] at hpr
      omega
    rw [he]
    exact .refl v p S
  · have hun := untouched_translate h hp hq
    have ht : Took v.pmm (v.translate p va).2.pmm p 2 := by
      unfold Vm.translate
      split_ifs
      · exact took_allocPage v p va _
      · exact (Took.refl v.pmm p).mono (Nat.zero_le 2)
    -- the page is no longer missing, and the others are as before
    have hmiss : (v.translate p va).2.missingIn p S + 1 ≤ v.missingIn p S := by
      refine Finset.card_lt_card (Finset.ssubset_iff_of_subset ?_ |>.mpr ⟨va.toNat / PAGESIZE, ?_, ?_⟩)
      · intro q hqm
        rw [Finset.mem_filter] at hqm ⊢
        refine ⟨hqm.1, fun hpq => hqm.2 (hun.present hp (hS q hqm.1) hpq)⟩
      · exact Finset.mem_filter.mpr ⟨hmem, hpr⟩
      · intro hm
        exact (Finset.mem_filter.mp hm).2 hpres
    have h1 := ht.usage
    have h2 := ht.pages
    exact ⟨ht.quota, by omega, ht.other, by omega⟩

/-! ### Stores -/

theorem untouched_writeBytes (bytes : List UInt8) (h : Isolated v) (hp : 1 ≤ p) (hq : UserPage (a / PAGESIZE))
    (hpres : v.Present p (a / PAGESIZE)) (hfit : a % PAGESIZE + bytes.length ≤ PAGESIZE) :
    Untouched v (v.writeBytes (v.physOf p a) bytes) (fun _ _ => False)
        (fun p' a' => p' = p ∧ a ≤ a' ∧ a' < a + bytes.length) ∧
      ∀ j < bytes.length, (v.writeBytes (v.physOf p a) bytes).userByte p (a + j) = bytes.getD j 0 := by
  obtain ⟨-, -, hk⟩ := h.writeBytes hp hq hpres (physOf_div v p a) bytes
  have hoff : v.physOf p a % PAGESIZE = a % PAGESIZE := by
    unfold Vm.physOf PAGESIZE
    omega
  have hmod : ∀ x, x % PAGESIZE < PAGESIZE := fun x => Nat.mod_lt _ (by decide)
  -- the page written, byte by byte
  have hmem : ∀ x, byteAt ((v.writeBytes (v.physOf p a) bytes).mem (v.entryOf p (a / PAGESIZE) / PAGESIZE)) (x % PAGESIZE) =
      if a % PAGESIZE ≤ x % PAGESIZE then
        bytes.getD (x % PAGESIZE - a % PAGESIZE) (byteAt (v.mem (v.entryOf p (a / PAGESIZE) / PAGESIZE)) (x % PAGESIZE))
      else byteAt (v.mem (v.entryOf p (a / PAGESIZE) / PAGESIZE)) (x % PAGESIZE) := by
    intro x
    unfold Vm.writeBytes byteAt
    simp only [physOf_div, hoff, Function.update_self, hmod, dif_pos]
  refine ⟨⟨fun p' q' hp' hq' _ => hk p' q' hp' hq', fun p' a' hp' hq' hpr' hn => ?_⟩, fun j hj => ?_⟩
  · unfold Vm.userByte
    rw [hk p' _ hp' hq']
    by_cases he : v.entryOf p' (a' / PAGESIZE) / PAGESIZE = v.entryOf p (a / PAGESIZE) / PAGESIZE
    · obtain ⟨rfl, hqq⟩ := h.place_eq hp' hp hq' hq hpr' hpres he
      rw [he, hmem]
      split_ifs with hle
      · rw [getD_eq_default]
        by_contra hlt
        refine hn ⟨rfl, ?_, ?_⟩
        · unfold PAGESIZE at *
          omega
        · unfold PAGESIZE at *
          omega
      · rfl
    · have : (v.writeBytes (v.physOf p a) bytes).mem (v.entryOf p' (a' / PAGESIZE) / PAGESIZE) =
          v.mem (v.entryOf p' (a' / PAGESIZE) / PAGESIZE) := Function.update_of_ne (by rwa [physOf_div]) _ _
      rw [this]
  · have hdiv : (a + j) / PAGESIZE = a / PAGESIZE ∧ (a + j) % PAGESIZE = a % PAGESIZE + j := by
      unfold PAGESIZE at hfit ⊢
      omega
    unfold Vm.userByte
    rw [hk p _ hp (by rw [hdiv.1]; exact hq), hdiv.1, hmem, hdiv.2, if_pos (Nat.le_add_right _ _), Nat.add_sub_cancel_left]
    rw [getD_eq_getElem _ _ hj, getD_eq_getElem _ _ hj]

/-! ### Copies -/

/-- The addresses of a range, for process `p`. -/
def InRange (p uva len : ℕ) (p' a : ℕ) : Prop := p' = p ∧ uva ≤ a ∧ a < uva + len

/-- The pages of a range, for process `p`. -/
def InPages (p uva len : ℕ) (p' q : ℕ) : Prop := p' = p ∧ q ∈ pagesOf uva len

theorem inPages_of_round {uva : ℕ} (h : Round v t p uva len size)
    (hq : p' = p ∧ q = uva / PAGESIZE) : InPages p uva len p' q := by
  have := h.pos
  have := h.le
  rw [hq.2]
  exact ⟨hq.1, mem_pagesOf le_rfl (by omega)⟩

theorem InPages.of_rest {uva : ℕ} (hle : size ≤ len) (h : InPages p (uva + size) (len - size) p' q) :
    InPages p uva len p' q :=
  ⟨h.1, pagesOf_subset (by omega) (by omega) h.2⟩

/-- What a copy keeps for `p`, besides the bytes. -/
structure Passes (v t : Vm) (p uva len : ℕ) (W : ℕ → ℕ → Prop) : Prop where
  inv : Isolated t
  untouched : Untouched v t (InPages p uva len) W
  spends : ∀ S : Finset ℕ, (∀ q ∈ S, UserPage q) → pagesOf uva len ⊆ S → Spends v t p S

theorem Passes.round {u w : Vm} {W : ℕ → ℕ → Prop} (hv : Isolated v) (hp : 1 ≤ p)
    (hr : Round v (v.translate p uva).2 p uva.toNat len size) (hpmm : u.pmm = (v.translate p uva).2.pmm)
    (hu : Untouched (v.translate p uva).2 u (fun _ _ => False) W) (h : Passes u w p (uva.toNat + size) (len - size) W) :
    Passes v w p uva.toNat len W := by
  have hle := hr.le
  have hpos := hr.pos
  refine ⟨h.inv, ?_, fun S hS hsub => ?_⟩
  · have h1 : Untouched v (v.translate p uva).2 (InPages p uva.toNat len) W :=
      (untouched_translate hv hp hr.user).mono (fun _ _ => inPages_of_round hr) (fun _ _ => False.elim)
    have h2 : Untouched (v.translate p uva).2 u (InPages p uva.toNat len) W :=
      hu.mono (fun _ _ => False.elim) (fun _ _ hw => hw)
    have h3 : Untouched u w (InPages p uva.toNat len) W :=
      h.untouched.mono (fun _ _ => InPages.of_rest hle) (fun _ _ hw => hw)
    exact (h1.trans h2).trans h3
  · have h1 := spends_translate hv hp hr.user hr.present hS (hsub (mem_pagesOf le_rfl (by omega)))
    have h2 : Spends (v.translate p uva).2 u p S := .of_eq hpmm (hu.missingIn_eq hp hS fun _ => id)
    have h3 := h.spends S hS ((pagesOf_subset (by omega) (by omega)).trans hsub)
    exact (h1.trans h2).trans h3

theorem passes_zero (h : Isolated v) (p uva : ℕ) (W : ℕ → ℕ → Prop) : Passes v v p uva 0 W :=
  ⟨h, .refl _ _ _, fun S _ _ => .refl v p S⟩

theorem readBytes_physOf (v : Vm) (p : ℕ) {uva : ℕ} (h : uva % PAGESIZE + size ≤ PAGESIZE) :
    v.readBytes (v.physOf p uva) size = (List.range' uva size).map (v.userByte p) := by
  unfold Vm.readBytes
  refine ext_getElem (by simp) fun x h1 h2 => ?_
  have hx : x < size := by simpa using h1
  have hdiv : (uva + x) / PAGESIZE = uva / PAGESIZE ∧ (uva + x) % PAGESIZE = uva % PAGESIZE + x := by
    unfold PAGESIZE at h ⊢
    omega
  have hphys : (v.physOf p uva + x) / PAGESIZE = v.entryOf p (uva / PAGESIZE) / PAGESIZE ∧
      (v.physOf p uva + x) % PAGESIZE = uva % PAGESIZE + x := by
    unfold Vm.physOf
    unfold PAGESIZE at h ⊢
    omega
  simp only [getElem_map, getElem_range', Nat.one_mul]
  unfold Vm.userByte
  rw [hdiv.1, hdiv.2, hphys.1, hphys.2]

theorem copyin_spec (h : Isolated v) (hp : 1 ≤ p) (hfuel : len ≤ fuel)
    (hlo : VM_USERLO ≤ uva.toNat) (hhi : uva.toNat + len ≤ VM_USERHI)
    (hroom : Room v.pmm p (2 * v.missingIn p (pagesOf uva.toNat len))) (off : ℕ) :
    (copyLoop p memcpyIn fuel v uva off len).bytes =
        (List.range' uva.toNat len).map ((copyLoop p memcpyIn fuel v uva off len).vm.userByte p) ∧
      Passes v (copyLoop p memcpyIn fuel v uva off len).vm p uva.toNat len (fun _ _ => False) := by
  refine (copyLoop_rule harmless_memcpyIn hp
    (P := fun v uva _ len r => r.bytes = (List.range' uva len).map (r.vm.userByte p) ∧ Passes v r.vm p uva len (fun _ _ => False))
    (fun v uva _ hv => ⟨rfl, passes_zero hv p uva _⟩) (fun v uva off len size rest hv hr hrest => ?_)
    hfuel h hlo hhi (k := 0) hroom off).1
  obtain ⟨hbytes, hpass⟩ := hrest
  have hle := hr.le
  refine ⟨?_, hpass.round hv hp hr rfl (.refl _ _ _)⟩
  show (v.translate p uva).2.readBytes _ size ++ rest.bytes = _
  rw [readBytes_physOf _ _ hr.page, hbytes, show len = size + (len - size) by omega, ← List.range'_append_1, map_append]
  congr 1
  · -- the rest of the copy leaves the bytes of the round alone
    refine map_congr_left fun a ha => ?_
    rw [mem_range'_1] at ha
    obtain ⟨hd, -⟩ := hr.div_eq (x := a - uva.toNat) (by omega)
    rw [show uva.toNat + (a - uva.toNat) = a by omega] at hd
    exact (hpass.untouched.byte p a hp (by rw [hd]; exact hr.user) (by rw [hd]; exact hr.present) id).symm
  · rw [show size + (len - size) - size = len - size by omega]

theorem copyin_present (hfuel : len ≤ fuel) (hhi : uva.toNat + len ≤ VM_USERHI)
    (hpres : ∀ a, uva.toNat ≤ a → a < uva.toNat + len → v.Present p (a / PAGESIZE)) (off : ℕ) :
    copyLoop p memcpyIn fuel v uva off len =
      ⟨len, (List.range' uva.toNat len).map (v.physOf p), (List.range' uva.toNat len).map (v.userByte p), v⟩ := by
  induction fuel generalizing uva len off with
  | zero =>
    obtain rfl : len = 0 := by omega
    rfl
  | succ fuel ih =>
    by_cases hl : len = 0
    · subst hl
      rw [copyLoop_zero]
      rfl
    have hpr := hpres uva.toNat le_rfl (by omega)
    have htr : v.translate p uva = (v.entryOf p (uva.toNat / PAGESIZE), v) := by
      unfold Vm.translate
      rw [v.getPtblEntryByVa_eq, if_neg]
      rw [Vm.Present] at hpr
      omega
    rw [Vm.copyLoop, if_neg hl, htr]
    dsimp only
    have hpa : physAddr (v.entryOf p (uva.toNat / PAGESIZE)) uva = v.physOf p uva.toNat := rfl
    rw [hpa]
    have hmod : v.physOf p uva.toNat % PAGESIZE = uva.toNat % PAGESIZE := by
      unfold Vm.physOf PAGESIZE
      omega
    obtain ⟨hpos, hle, hpage, -⟩ := chunk_spec (v.physOf p uva.toNat) hl
    set size := Vm.chunk (v.physOf p uva.toNat) len
    rw [hmod] at hpage
    have hsum := toNat_add_size hle hhi
    have hrest : copyLoop p memcpyIn fuel v (uva + UInt32.ofNat size) (off + size) (len - size) =
        ⟨len - size, (List.range' (uva + UInt32.ofNat size).toNat (len - size)).map (v.physOf p),
          (List.range' (uva + UInt32.ofNat size).toNat (len - size)).map (v.userByte p), v⟩ :=
      ih (by omega) (by omega) (fun a h1 h2 => hpres a (by omega) (by omega)) (off + size)
    rw [hsum] at hrest
    have hcopy : memcpyIn v (v.physOf p uva.toNat) off size = (v, v.readBytes (v.physOf p uva.toNat) size) := rfl
    rw [hcopy]
    dsimp only
    rw [hrest, show (List.range' uva.toNat len) = List.range' uva.toNat size ++ List.range' (uva.toNat + size) (len - size) by
      rw [List.range'_append_1]; congr 1; omega, map_append, map_append]
    have hin : ∀ x < size, (uva.toNat + x) / PAGESIZE = uva.toNat / PAGESIZE ∧
        (uva.toNat + x) % PAGESIZE = uva.toNat % PAGESIZE + x := by
      intro x hx
      unfold PAGESIZE at hpage ⊢
      omega
    congr 1
    · show size + (len - size) = len
      omega
    · congr 1
      refine (map_range'_eq fun x hx => ?_).symm
      obtain ⟨hd, hm⟩ := hin x hx
      rw [Vm.physOf, hd, hm, Vm.physOf]
      omega
    · congr 1
      exact readBytes_physOf v p hpage

/-- The body of a copy loop stores byte `k` of `f` at place `k` of the range, for the places below `n`. -/
def Writes (memcpy : Vm → ℕ → ℕ → ℕ → Vm × List UInt8) (f : ℕ → UInt8) (n : ℕ) : Prop :=
  ∀ v pa off size, off + size ≤ n → ∃ bytes : List UInt8, (memcpy v pa off size).1 = v.writeBytes pa bytes ∧
    bytes.length = size ∧ ∀ j < size, bytes.getD j 0 = f (off + j)

theorem writes_memcpyOut (bytes : List UInt8) : Writes (memcpyOut bytes) (fun k => bytes.getD k 0) bytes.length := by
  intro v pa off size h
  have hlen : ((bytes.drop off).take size).length = size := by
    rw [length_take, length_drop]
    omega
  refine ⟨_, rfl, hlen, fun j hj => ?_⟩
  show _ = bytes.getD (off + j) 0
  rw [getD_eq_getElem _ _ (by omega), getD_eq_getElem _ _ (by omega)]
  simp

theorem writes_memset (c : UInt8) (n : ℕ) : Writes (memset c) (fun _ => c) n := by
  intro v pa off size _
  refine ⟨_, rfl, length_replicate, fun j hj => ?_⟩
  rw [getD_eq_getElem _ _ (by rwa [length_replicate]), getElem_replicate]

/-- A copy to user memory has stored `len` bytes of `f`, from place `off` on, at `uva`. -/
structure Stored (f : ℕ → UInt8) (v : Vm) (p uva off len : ℕ) (r : Copied) : Prop where
  copied : r.copied = len
  present : ∀ j < len, r.vm.Present p ((uva + j) / PAGESIZE)
  stored : ∀ j < len, r.vm.userByte p (uva + j) = f (off + j)
  passes : Passes v r.vm p uva len (InRange p uva len)

theorem stored_zero (f : ℕ → UInt8) (h : Isolated v) (p uva off : ℕ) : Stored f v p uva off 0 ⟨0, [], [], v⟩ :=
  ⟨rfl, fun j hj => absurd hj (Nat.not_lt_zero j), fun j hj => absurd hj (Nat.not_lt_zero j), passes_zero h p uva _⟩

theorem Stored.round (hw : Writes memcpy f n)
    (hv : Isolated v) (hp : 1 ≤ p) {off : ℕ} (hr : Round v (v.translate p uva).2 p uva.toNat len size)
    (hoff : off + len ≤ n) {rest : Copied}
    (h : Stored f (memcpy (v.translate p uva).2 ((v.translate p uva).2.physOf p uva.toNat) off size).1 p (uva.toNat + size)
      (off + size) (len - size) rest) (touched : List ℕ) (bytes : List UInt8) :
    Stored f v p uva.toNat off len ⟨size + rest.copied, touched, bytes, rest.vm⟩ := by
  have hle := hr.le
  set t := (v.translate p uva).2
  obtain ⟨bs, hbs, hlen, hget⟩ := hw t (t.physOf p uva.toNat) off size (by omega)
  rw [hbs] at h
  obtain ⟨hun, hnew⟩ := untouched_writeBytes bs hr.keeps.inv hp hr.user hr.present (by rw [hlen]; exact hr.page)
  rw [hlen] at hun hnew
  have hpass := h.passes
  have hrest : ∀ p' a, InRange p (uva.toNat + size) (len - size) p' a → InRange p uva.toNat len p' a := by
    rintro p' a ⟨h1, h2, h3⟩
    exact ⟨h1, by omega, by omega⟩
  have hfirst : ∀ p' a, p' = p ∧ uva.toNat ≤ a ∧ a < uva.toNat + size → InRange p uva.toNat len p' a := by
    rintro p' a ⟨h1, h2, h3⟩
    exact ⟨h1, h2, by omega⟩
  have hcopied := h.copied
  refine ⟨?_, fun j hj => ?_, fun j hj => ?_, Passes.round (u := t.writeBytes (t.physOf p uva.toNat) bs) hv hp hr rfl
    (hun.mono (fun _ _ => id) hfirst) ⟨hpass.inv, hpass.untouched.mono (fun _ _ hm => hm) hrest, hpass.spends⟩⟩
  · show size + rest.copied = len
    omega
  · by_cases hjs : j < size
    · obtain ⟨hd, -⟩ := hr.div_eq hjs
      rw [hd]
      exact hpass.untouched.present hp hr.user (hun.present hp hr.user hr.present)
    · have := h.present (j - size) (by omega)
      rwa [show uva.toNat + size + (j - size) = uva.toNat + j by omega] at this
  · by_cases hjs : j < size
    · -- the rest of the copy leaves the bytes of the round alone
      obtain ⟨hd, -⟩ := hr.div_eq hjs
      have hkeep := hpass.untouched.byte p (uva.toNat + j) hp (by rw [hd]; exact hr.user)
        (by rw [hd]; exact hun.present hp hr.user hr.present) (by rintro ⟨-, h2, -⟩; omega)
      show rest.vm.userByte p (uva.toNat + j) = _
      rw [hkeep, hnew j hjs, hget j hjs]
    · have := h.stored (j - size) (by omega)
      rwa [show uva.toNat + size + (j - size) = uva.toNat + j by omega, show off + size + (j - size) = off + j by omega] at this

theorem stores_spec (hmem : Harmless memcpy)
    (hw : Writes memcpy f n) (h : Isolated v) (hp : 1 ≤ p) (hfuel : len ≤ fuel)
    (hlo : VM_USERLO ≤ uva.toNat) (hhi : uva.toNat + len ≤ VM_USERHI)
    (hroom : Room v.pmm p (2 * v.missingIn p (pagesOf uva.toNat len) + k)) (off : ℕ) (hoff : off + len ≤ n) :
    Stored f v p uva.toNat off len (copyLoop p memcpy fuel v uva off len) ∧
      Room (copyLoop p memcpy fuel v uva off len).vm.pmm p k := by
  obtain ⟨hs, hr⟩ := copyLoop_rule hmem hp
    (P := fun v uva off len r => off + len ≤ n → Stored f v p uva off len r)
    (fun v uva off hv _ => stored_zero f hv p uva off)
    (fun v uva off len size rest hv hr hrest hoff => (hrest (by have := hr.le; omega)).round hw hv hp hr hoff _ _)
    hfuel h hlo hhi hroom off
  exact ⟨hs hoff, hr⟩

theorem copyout_spec (bytes : List UInt8) (h : Isolated v) (hp : 1 ≤ p)
    (hfuel : len ≤ fuel) (hlo : VM_USERLO ≤ uva.toNat) (hhi : uva.toNat + len ≤ VM_USERHI)
    (hroom : Room v.pmm p (2 * v.missingIn p (pagesOf uva.toNat len))) (off : ℕ) (hoff : off + len ≤ bytes.length) :
    (∀ j < len, (copyLoop p (memcpyOut bytes) fuel v uva off len).vm.userByte p (uva.toNat + j) = bytes.getD (off + j) 0) ∧
      Passes v (copyLoop p (memcpyOut bytes) fuel v uva off len).vm p uva.toNat len (InRange p uva.toNat len) := by
  obtain ⟨hs, -⟩ := stores_spec (harmless_memcpyOut bytes) (writes_memcpyOut bytes) h hp hfuel hlo hhi (k := 0) hroom off hoff
  exact ⟨hs.stored, hs.passes⟩

/-! ### Copies whose allocations succeed -/

/-- Each page that a copy loop looks up is mapped then: it was before, or its allocation has succeeded. -/
def Backed (p : ℕ) (memcpy : Vm → ℕ → ℕ → ℕ → Vm × List UInt8) : ℕ → Vm → UInt32 → ℕ → ℕ → Prop
  | 0, _, _, _, _ => True
  | fuel + 1, v, uva, off, len =>
    len = 0 ∨
      let r := v.translate p uva
      let pa := r.2.physOf p uva.toNat
      let size := chunk pa len
      r.2.Present p (uva.toNat / PAGESIZE) ∧
        Backed p memcpy fuel (memcpy r.2 pa off size).1 (uva + UInt32.ofNat size) (off + size) (len - size)

theorem stores_backed (hmem : Harmless memcpy)
    (hw : Writes memcpy f n) (h : Isolated v) (hp : 1 ≤ p)
    (hlo : VM_USERLO ≤ uva.toNat) (hhi : uva.toNat + len ≤ VM_USERHI) (off : ℕ) (hoff : off + len ≤ n)
    (hs : Backed p memcpy len v uva off len) : Stored f v p uva.toNat off len (copyLoop p memcpy len v uva off len) := by
  refine copyLoop_induct hmem hp
    (J := fun v uva off len => ∃ fuel, len ≤ fuel ∧ Backed p memcpy fuel v uva off len)
    (P := fun v uva off len r => off + len ≤ n → Stored f v p uva off len r)
    (fun v uva off len _ _ hl hJ => ?_) (fun v uva off len _ _ hl _ hJ => ?_)
    (fun v uva off hv _ _ => stored_zero f hv p _ off)
    (fun v uva off len size rest hv hr hrest hoff => (hrest (by have := hr.le; omega)).round hw hv hp hr hoff _ _)
    le_rfl h hlo hhi ⟨len, le_rfl, hs⟩ hoff
  · obtain ⟨fuel, hle, hJ⟩ := hJ
    obtain ⟨fuel, rfl⟩ := Nat.exists_eq_succ_of_ne_zero (show fuel ≠ 0 by omega)
    exact (hJ.resolve_left hl).1
  · obtain ⟨fuel, hle, hJ⟩ := hJ
    obtain ⟨fuel, rfl⟩ := Nat.exists_eq_succ_of_ne_zero (show fuel ≠ 0 by omega)
    obtain ⟨hpos, -, -, -⟩ := chunk_spec ((v.translate p uva).2.physOf p uva.toNat) hl
    exact ⟨fuel, by omega, (hJ.resolve_left hl).2⟩

theorem Room.backed (hmem : Harmless memcpy) (hp : 1 ≤ p)
    (h : Isolated v) (hlo : VM_USERLO ≤ uva.toNat) (hhi : uva.toNat + len ≤ VM_USERHI)
    (hroom : Room v.pmm p (2 * v.missingIn p (pagesOf uva.toNat len) + k)) (fuel off : ℕ) :
    Backed p memcpy fuel v uva off len := by
  induction fuel generalizing v uva off len with
  | zero => trivial
  | succ fuel ih =>
    by_cases hl : len = 0
    · exact .inl hl
    have hq : UserPage (uva.toNat / PAGESIZE) := userPage_of_mem_pagesOf hlo hhi (mem_pagesOf le_rfl (by omega))
    obtain ⟨hpres, hnext⟩ := hroom.next hmem hp h hq hl hhi off
    obtain ⟨hk, -, -⟩ := h.translate_keeps hp hq
    obtain ⟨hku, -, -⟩ := hmem.keeps hk.inv hp hq hpres (physOf_div _ _ _) off
      (chunk ((v.translate p uva).2.physOf p uva.toNat) len)
    obtain ⟨hpos, hle, -, -⟩ := chunk_spec ((v.translate p uva).2.physOf p uva.toNat) hl
    have hsum := toNat_add_size hle hhi
    exact .inr ⟨hpres, ih hku.inv (by omega) (by omega) hnext _⟩

theorem untouched_copyin (h : Isolated v) (hp : 1 ≤ p) (hlo : VM_USERLO ≤ uva.toNat)
    (hhi : uva.toNat + len ≤ VM_USERHI) (fuel off : ℕ) :
    Untouched v (copyLoop p memcpyIn fuel v uva off len).vm (fun _ _ => True) (fun _ _ => False) := by
  induction fuel generalizing v uva off len with
  | zero => exact .refl v _ _
  | succ fuel ih =>
    unfold copyLoop
    by_cases hl : len = 0
    · rw [if_pos hl]
      exact .refl v _ _
    · rw [if_neg hl]
      have hq : UserPage (uva.toNat / PAGESIZE) := userPage_of_mem_pagesOf hlo hhi (mem_pagesOf le_rfl (by omega))
      obtain ⟨hpos, hle, -, -⟩ := chunk_spec (physAddr (v.translate p uva).1 uva) hl
      have hsum := toNat_add_size hle hhi
      exact ((untouched_translate h hp hq).mono (fun _ _ _ => trivial) fun _ _ => id).trans
        (ih (h.translate_keeps hp hq).1.inv (by omega) (by omega) _)

theorem stored_ptCopyout (h : Isolated v) (hp : 1 ≤ p) (bytes : List UInt8) (kva : UInt32)
    (hlo : VM_USERLO ≤ uva.toNat) (hhi : uva.toNat + bytes.length ≤ VM_USERHI) (hk : kva.toNat + bytes.length ≤ VM_USERHI)
    (hs : Backed p (memcpyOut bytes) bytes.length v uva 0 bytes.length) :
    Stored (fun k => bytes.getD k 0) v p uva.toNat 0 bytes.length (v.ptCopyout p kva uva bytes) := by
  have hlen : (UInt32.ofNat bytes.length).toNat = bytes.length := by
    unfold VM_USERHI at hhi
    exact UInt32.toNat_ofNat_of_lt' (by unfold UInt32.size; omega)
  rw [show v.ptCopyout p kva uva bytes = copyLoop p (memcpyOut bytes) bytes.length v uva 0 bytes.length from
    if_pos (rangeOk_of_user hlo (by rwa [hlen]) (by rwa [hlen]))]
  exact stores_backed (harmless_memcpyOut bytes) (writes_memcpyOut bytes) h hp hlo hhi 0 (by omega) hs

/-- `pt_copyout` and then `pt_copyin` of the same range, in a state in which the processes are isolated. -/
theorem copyin_copyout {v : Vm} (h : Isolated v) {p : ℕ} (hp : 1 ≤ p) (bytes : List UInt8) {uva : UInt32} (kva kva' : UInt32)
    (hlo : VM_USERLO ≤ uva.toNat) (hhi : uva.toNat + bytes.length ≤ VM_USERHI) (hk : kva.toNat + bytes.length ≤ VM_USERHI)
    (hk' : kva'.toNat + bytes.length ≤ VM_USERHI) (hs : Backed p (memcpyOut bytes) bytes.length v uva 0 bytes.length) :
    let out := v.ptCopyout p kva uva bytes
    let r := out.vm.ptCopyin p uva kva' (UInt32.ofNat bytes.length)
    (out.copied = bytes.length ∧ r.copied = bytes.length ∧ r.bytes = bytes ∧ r.vm = out.vm) ∧
      (∀ p' a, 1 ≤ p' → UserPage (a / PAGESIZE) → v.Present p' (a / PAGESIZE) →
        ¬ (p' = p ∧ uva.toNat ≤ a ∧ a < uva.toNat + bytes.length) → out.vm.userByte p' a = v.userByte p' a) ∧
      ∀ p' q, 1 ≤ p' → UserPage q → v.Present p' q → out.vm.entryOf p' q = v.entryOf p' q := by
  have hlen : (UInt32.ofNat bytes.length).toNat = bytes.length := by
    unfold VM_USERHI at hhi
    exact UInt32.toNat_ofNat_of_lt' (by unfold UInt32.size; omega)
  have hst := stored_ptCopyout h hp bytes kva hlo hhi hk hs
  intro out r
  have hr : r = ⟨bytes.length, (List.range' uva.toNat bytes.length).map (out.vm.physOf p),
      (List.range' uva.toNat bytes.length).map (out.vm.userByte p), out.vm⟩ := by
    have hin : r = copyLoop p memcpyIn (UInt32.ofNat bytes.length).toNat out.vm uva 0 (UInt32.ofNat bytes.length).toNat :=
      if_pos (rangeOk_of_user hlo (by rwa [hlen]) (by rwa [hlen]))
    rw [hin, hlen]
    refine copyin_present le_rfl hhi (fun a h1 h2 => ?_) 0
    have := hst.present (a - uva.toNat) (by omega)
    rwa [Nat.add_sub_cancel' h1] at this
  have hbytes : (List.range' uva.toNat bytes.length).map (out.vm.userByte p) = bytes := by
    refine ext_getElem (by simp) fun j h1 h2 => ?_
    rw [getElem_map, getElem_range', Nat.one_mul, hst.stored j h2, Nat.zero_add, getD_eq_getElem _ _ h2]
  have hun := hst.passes.untouched
  refine ⟨⟨hst.copied, ?_, ?_, ?_⟩, fun p' a hp' hq hpr hn => hun.byte p' a hp' hq hpr hn,
    fun p' q hp' hq hpr => hun.entry p' q hp' hq (.inl hpr)⟩
  · rw [hr]
  · rw [hr]
    exact hbytes
  · rw [hr]

theorem copyin_copyout_pages :
    let v := Vm.start2G.step (.split 0 1000)
    let bytes : List UInt8 := [1, 2, 3, 4]
    let out := v.ptCopyout 1 0 0x40000FFE bytes
    out.copied = bytes.length ∧ (out.vm.ptCopyin 1 0x40000FFE 0 (UInt32.ofNat bytes.length)).bytes = bytes := by
  intro v bytes out
  have h0 : Isolated Vm.start2G := isolated_pdirInitKern mem2G (by decide) _
  have hi : Isolated v := (h0.step (a := .split 0 1000) trivial trivial).1
  have hmiss : v.missingIn 1 (pagesOf (0x40000FFE : UInt32).toNat bytes.length) ≤ 2 := by
    refine (card_filter_le _ _).trans ?_
    rw [pagesOf, Nat.card_Ico]
    decide
  have hroom : Room v.pmm 1 (2 * v.missingIn 1 (pagesOf (0x40000FFE : UInt32).toNat bytes.length) + 0) :=
    room_start2G.mono (by omega)
  have hb : Backed 1 (memcpyOut bytes) bytes.length v 0x40000FFE 0 bytes.length :=
    hroom.backed (harmless_memcpyOut _) le_rfl hi (by decide) (by decide) _ 0
  -- the state need not be evaluated any further
  clear_value v
  obtain ⟨⟨h1, -, h2, -⟩, -⟩ := copyin_copyout hi le_rfl bytes 0 0 (by decide) (by decide) (by decide)
    (by decide) hb
  exact ⟨h1, h2⟩

/-- A state in which the first table of processes `1` and `2` is the same, with one entry. -/
def Vm.twins : Vm :=
  ((start2G.storePdir 1 256 (300000 * 4096 + 7)).storePdir 2 256 (300000 * 4096 + 7)).setWord 300000 0 (300001 * 4096 + 7)

/-- The mapping of process `1` is injective, its page is there, and a copy to it changes the memory of process `2`. -/
theorem copyout_seen_by_twin :
    (∀ q q', UserPage q → UserPage q' → Vm.twins.Present 1 q → Vm.twins.Present 1 q' →
      Vm.twins.entryOf 1 q / PAGESIZE = Vm.twins.entryOf 1 q' / PAGESIZE → q = q') ∧
    Backed 1 (memcpyOut [1]) 1 Vm.twins 0x40000000 0 1 ∧ Vm.twins.Present 2 262144 ∧
      (Vm.twins.ptCopyout 1 0 0x40000000 [1]).copied = 1 ∧ Vm.twins.userByte 2 0x40000000 = 0 ∧
      (Vm.twins.ptCopyout 1 0 0x40000000 [1]).vm.userByte 2 0x40000000 = 1 := by
  have hone : ∀ q, UserPage q → Vm.twins.Present 1 q → q = 262144 := by
    intro q hq hpr
    have hdir : Vm.twins.pdir 1 (q / 1024) = if q / 1024 = 256 then 300000 * 4096 + 7 else 0 := by
      show ((start2G.storePdir 1 256 (300000 * 4096 + 7)).storePdir 2 256 (300000 * 4096 + 7)).pdir 1 (q / 1024) = _
      have h0 : start2G.pdir 1 (q / 1024) = 0 := if_neg (by obtain ⟨h1, h2⟩ := hq; omega)
      rw [pdir_storePdir, pdir_storePdir, if_neg (by omega), h0]
      simp only [true_and]
    have hword : ∀ j, Vm.twins.word 300000 j = if j = 0 then 300001 * 4096 + 7 else 0 := by
      intro j
      unfold Vm.twins
      rw [word_setWord _ (by decide)]
      simp only [true_and]
      congr 1
      exact getLE_zero _ _
    rw [Vm.Present, Vm.entryOf, Vm.entryAt, hdir] at hpr
    by_cases h1 : q / 1024 = 256
    · rw [if_pos h1, if_neg (by decide)] at hpr
      have : Vm.twins.word (Vm.twins.pdir 1 (q / 1024) / PAGESIZE) (q % 1024) % 2 = 1 := hpr
      rw [hdir, if_pos h1, show (300000 * 4096 + 7) / PAGESIZE = 300000 by decide, hword] at this
      by_cases h2 : q % 1024 = 0
      · omega
      · rw [if_neg h2] at this
        omega
    · rw [if_neg h1, if_pos rfl] at hpr
      omega
  refine ⟨fun q q' hq hq' h h' _ => (hone q hq h).trans (hone q' hq' h').symm, ?_⟩
  unfold Backed Backed
  simp only [Vm.twins, Vm.start2G, Vm.pdirInitKern]
  decide +kernel

end MCertiKOS.Memory
