import MCertiKOS.Memory.Isolation

/-!
# What mapping a page changes

`map_page` and `unmap_page` change the translation of one page of one process
(`map_page_one`). Tables are written through the addresses in the page directories,
so this depends on how the tables lie in memory: those of the user range are
different pages of the allocator, and all other directory entries lead to `IDPTbl`,
which the allocator does not have (`Tables`).

When pages run out, `alloc_page` returns `MagicNumber`, and the tables are as they
were (`alloc_fails_clean`). The accounts are as they were only if it was the quota
that did not suffice, at the first request.
-/

namespace MCertiKOS.Memory

open Library Paging

namespace Vm

/-- `unmap_page`: the entry that was there. -/
def unmapPage (v : Vm) (p : ℕ) (va : UInt32) : ℕ × Vm :=
  let entry := v.getPtblEntryByVa p va
  (entry, if entry ≠ 0 then v.rmvPtblEntry p (pdeIndex va) (pteIndex va) else v)

theorem pdeIndex_lt (va : UInt32) : pdeIndex va < 1024 := by
  have := va.toNat_lt
  unfold pdeIndex
  omega

theorem pteIndex_lt (va : UInt32) : pteIndex va < 1024 := Nat.mod_lt _ (by decide)

theorem page_eq_iff {va w : UInt32} : w.toNat / 4096 = va.toNat / 4096 ↔ pdeIndex w = pdeIndex va ∧ pteIndex w = pteIndex va := by
  unfold pdeIndex pteIndex
  omega

end Vm

/-! ### The tables -/

/-- Entry `i` of the directory of `p` is one of the user range. -/
def UserRow (p i : ℕ) : Prop := 1 ≤ p ∧ 256 ≤ i ∧ i < 960

/-- How the page tables lie in memory. -/
structure Tables (v : Vm) : Prop where
  norm : v.pmm.table.UserNorm
  kernel : v.idptbl + 1024 ≤ VM_USERLO_PI
  /-- Different entries of the user range lead to different tables. -/
  inj : ∀ p i q k, UserRow p i → UserRow q k → v.pdir p i ≠ 0 → v.pdir q k ≠ 0 → v.pdir p i / PAGESIZE = v.pdir q k / PAGESIZE →
    p = q ∧ i = k
  owned : ∀ p i, UserRow p i → v.pdir p i ≠ 0 →
    v.pmm.table.isNorm (v.pdir p i / PAGESIZE) = true ∧ v.pmm.table.allocated (v.pdir p i / PAGESIZE) = true
  ident : ∀ p i, i < 1024 → ¬ UserRow p i → v.pdir p i = Vm.identityPde v.idptbl i

theorem tables_pdirInitKern (mm : List MemRange) {idptbl : ℕ} (hid : idptbl + 1024 ≤ VM_USERLO_PI) (mem : ℕ → Page) :
    Tables (Vm.pdirInitKern mm idptbl mem) := by
  have hzero : ∀ p i, UserRow p i → (Vm.pdirInitKern mm idptbl mem).pdir p i = 0 := fun p i ⟨h1, h2, h3⟩ => if_neg (by omega)
  refine ⟨userNorm_pmemInit mm, hid, fun p i _ _ hu _ h0 => absurd (hzero p i hu) h0, fun p i hu h0 => absurd (hzero p i hu) h0,
    fun p i hi hu => if_pos ?_⟩
  unfold UserRow at hu
  omega

namespace Tables

variable {v t : Vm} {p i j q k n : ℕ} {va : UInt32}

theorem eq_of_page (h : Tables v) (hu : UserRow p i) (h0 : v.pdir p i ≠ 0) (hk : k < 1024) (hk0 : v.pdir q k ≠ 0)
    (he : v.pdir q k / PAGESIZE = v.pdir p i / PAGESIZE) : q = p ∧ k = i := by
  by_cases hu' : UserRow q k
  · exact h.inj q k p i hu' hu hk0 h0 he
  · -- rows of `IDPTbl` are below the pages of the allocator
    exfalso
    have hlo := (h.norm _ (h.owned p i hu h0).1).1
    have hkernel := h.kernel
    have hid := h.ident q k hk hu'
    rw [← he, hid] at hlo
    unfold Vm.identityPde PAGESIZE PT_PERM_PTU PTE_P PTE_W PTE_U at hlo
    omega

theorem getPtblEntryByVa_setWord (h : Tables v) (hu : UserRow p i) (h0 : v.pdir p i ≠ 0) (hj : j < 1024) (e q : ℕ) (w : UInt32) :
    (v.setWord (v.pdir p i / PAGESIZE) j e).getPtblEntryByVa q w =
      if q = p ∧ Vm.pdeIndex w = i ∧ Vm.pteIndex w = j then e % 2 ^ 32 else v.getPtblEntryByVa q w := by
  unfold Vm.getPtblEntryByVa Vm.getPdirEntry Vm.getPtblEntry
  show (if v.pdir q (Vm.pdeIndex w) = 0 then 0 else (v.setWord _ j e).word (v.pdir q (Vm.pdeIndex w) / PAGESIZE) (Vm.pteIndex w)) = _
  by_cases hq0 : v.pdir q (Vm.pdeIndex w) = 0
  · have hne : ¬ (q = p ∧ Vm.pdeIndex w = i ∧ Vm.pteIndex w = j) := by
      rintro ⟨rfl, rfl, -⟩
      exact h0 hq0
    rw [if_pos hq0, if_neg hne, if_pos hq0]
  · rw [if_neg hq0, if_neg hq0, v.word_setWord hj]
    refine if_congr ?_ rfl rfl
    constructor
    · rintro ⟨hpage, hj'⟩
      obtain ⟨hq, hi⟩ := h.eq_of_page hu h0 (Vm.pdeIndex_lt w) hq0 hpage
      exact ⟨hq, hi, hj'⟩
    · rintro ⟨rfl, rfl, hj'⟩
      exact ⟨rfl, hj'⟩

theorem setWord (h : Tables v) (page e : ℕ) : Tables (v.setWord page j e) := ⟨h.norm, h.kernel, h.inj, h.owned, h.ident⟩

theorem containerAlloc (h : Tables v) (p : ℕ) : Tables (v.containerAlloc p).2 := by
  have ht := takes_containerAlloc v.pmm p
  refine ⟨fun k hk => h.norm k ((ht.norm k).symm.trans hk), h.kernel, h.inj, fun q k hu h0 => ?_, h.ident⟩
  obtain ⟨hn, ha⟩ := h.owned q k hu h0
  exact ⟨(ht.norm _).trans hn, ht.keep _ ha⟩

theorem newTable (h : Tables v) (hu : UserRow p i) (h0 : v.pdir p i = 0) (hn : v.pmm.table.isNorm n = true)
    (ha : v.pmm.table.allocated n = true) (hnew : ∀ q k, UserRow q k → v.pdir q k ≠ 0 → v.pdir q k / PAGESIZE ≠ n) :
    Tables ((v.setPdirEntry p i n).clearPtbl p i) ∧ ((v.setPdirEntry p i n).clearPtbl p i).pdir p i ≠ 0 ∧
      ∀ q w, ((v.setPdirEntry p i n).clearPtbl p i).getPtblEntryByVa q w = v.getPtblEntryByVa q w := by
  obtain ⟨hlo, hhi⟩ : 262144 ≤ n ∧ n < 983040 := h.norm n hn
  obtain ⟨e, hdiv, he, hpdir, hc⟩ := v.clears_newTable p i hlo hhi
  set t := (v.setPdirEntry p i n).clearPtbl p i
  have hpmm : t.pmm = v.pmm := hc.pmm
  have hid : t.idptbl = v.idptbl := hc.idptbl
  have hself : t.pdir p i = e := by rw [hpdir, if_pos ⟨rfl, rfl⟩]
  have hnorm : t.pmm.table.UserNorm := by
    rw [hpmm]
    exact h.norm
  have hkernel : t.idptbl + 1024 ≤ VM_USERLO_PI := by
    rw [hid]
    exact h.kernel
  refine ⟨⟨hnorm, hkernel, fun q k q' k' hq hq' hq0 hq0' hpage => ?_, fun q k hq hq0 => ?_, fun q k hk hq => ?_⟩,
    by rw [hself]; exact he, fun q w => ?_⟩
  · rw [hpdir q k] at hq0 hpage
    rw [hpdir q' k'] at hq0' hpage
    split_ifs at hq0 hq0' hpage with h1 h2 h2
    · exact ⟨h1.1.trans h2.1.symm, h1.2.trans h2.2.symm⟩
    · exact absurd (hpage.symm.trans hdiv) (hnew q' k' hq' hq0')
    · exact absurd (hpage.trans hdiv) (hnew q k hq hq0)
    · exact h.inj q k q' k' hq hq' hq0 hq0' hpage
  · rw [hpmm, hpdir]
    rw [hpdir] at hq0
    split_ifs at hq0 ⊢
    · rw [hdiv]
      exact ⟨hn, ha⟩
    · exact h.owned q k hq hq0
  · have hne : ¬ (q = p ∧ k = i) := by
      rintro ⟨rfl, rfl⟩
      exact hq hu
    rw [hpdir, if_neg hne, h.ident q k hk hq, hid]
  · unfold Vm.getPtblEntryByVa Vm.getPdirEntry Vm.getPtblEntry
    rw [hpdir]
    by_cases hq : q = p ∧ Vm.pdeIndex w = i
    · rw [if_pos hq, if_neg he, hdiv, hc.word, if_pos (Vm.pteIndex_lt w), hq.1, hq.2, if_pos h0]
    · rw [if_neg hq]
      by_cases hq0 : v.pdir q (Vm.pdeIndex w) = 0
      · rw [if_pos hq0, if_pos hq0]
      · rw [if_neg hq0, if_neg hq0]
        -- another table is another page
        refine Vm.word_congr (hc.mem _ fun hpage => ?_) _
        by_cases hu' : UserRow q (Vm.pdeIndex w)
        · exact hnew q _ hu' hq0 hpage
        · have hkernel := h.kernel
          rw [h.ident q _ (Vm.pdeIndex_lt w) hu'] at hpage
          have := Vm.pdeIndex_lt w
          unfold Vm.identityPde PAGESIZE PT_PERM_PTU PTE_P PTE_W PTE_U at hpage
          unfold VM_USERLO_PI VM_USERLO PAGESIZE at hkernel
          omega

theorem mapPage_cases (h : Tables v) (hu : UserRow p (Vm.pdeIndex va)) (page perm : ℕ)
    (hres : (v.mapPage p va page perm).1 ≠ MagicNumber) :
    ∃ t, Tables t ∧ t.pdir p (Vm.pdeIndex va) ≠ 0 ∧ (∀ q w, t.getPtblEntryByVa q w = v.getPtblEntryByVa q w) ∧
      (v.mapPage p va page perm).2 = t.setPtblEntry p (Vm.pdeIndex va) (Vm.pteIndex va) page perm := by
  unfold Vm.mapPage at hres ⊢
  by_cases h0 : v.pdir p (Vm.pdeIndex va) = 0
  · simp only [Vm.getPdirEntry, h0, ne_eq, not_true_eq_false, if_false] at hres ⊢
    unfold Vm.allocPtbl at hres ⊢
    by_cases hr : (v.containerAlloc p).1 = 0
    · simp [hr] at hres
    · simp only [hr, ne_eq, not_false_eq_true, if_true, if_false] at hres ⊢
      obtain ⟨hn, hfree, ha⟩ := (takes_containerAlloc v.pmm p).free hr
      have hmagic : (v.containerAlloc p).1 ≠ MagicNumber := by
        have : (v.containerAlloc p).1 < 983040 := (h.norm _ hn).2
        unfold MagicNumber
        omega
      have hn' : (v.containerAlloc p).2.pmm.table.isNorm (v.containerAlloc p).1 = true :=
        ((takes_containerAlloc v.pmm p).norm _).trans hn
      -- a page that has been free is no table
      obtain ⟨ht, hne, hget⟩ := (h.containerAlloc p).newTable hu h0 hn' ha fun q k hq hq0 he => by
        have := (h.owned q k hq hq0).2
        rw [show v.pdir q k / PAGESIZE = (v.containerAlloc p).1 from he] at this
        rw [show v.pmm.table.allocated (v.containerAlloc p).1 = false from hfree] at this
        cases this
      rw [if_pos hmagic]
      exact ⟨_, ht, hne, hget, rfl⟩
  · refine ⟨v, h, h0, fun _ _ => rfl, ?_⟩
    simp [Vm.getPdirEntry, h0]

end Tables

/-- `map_page`, if it does not return `MagicNumber`, sets the translation of one page of `p`, and `unmap_page` removes it and
returns what it was. No other translation changes, of no process. -/
theorem map_page_one {v : Vm} (h : Tables v) (p : ℕ) (hp : 1 ≤ p) (va : UInt32) (hlo : VM_USERLO ≤ va.toNat) (hhi : va.toNat < VM_USERHI)
    (page perm : ℕ) :
    ((v.mapPage p va page perm).1 ≠ MagicNumber → Tables (v.mapPage p va page perm).2 ∧
        (v.mapPage p va page perm).2.getPtblEntryByVa p va = (page * PAGESIZE + perm) % 2 ^ 32 ∧
        ∀ (q : ℕ) (w : UInt32), q ≠ p ∨ w.toNat / 4096 ≠ va.toNat / 4096 →
          (v.mapPage p va page perm).2.getPtblEntryByVa q w = v.getPtblEntryByVa q w) ∧
      Tables (v.unmapPage p va).2 ∧ (v.unmapPage p va).1 = v.getPtblEntryByVa p va ∧
      (v.unmapPage p va).2.getPtblEntryByVa p va = 0 ∧
      ∀ (q : ℕ) (w : UInt32), q ≠ p ∨ w.toNat / 4096 ≠ va.toNat / 4096 →
        (v.unmapPage p va).2.getPtblEntryByVa q w = v.getPtblEntryByVa q w := by
  have hu : UserRow p (Vm.pdeIndex va) := by
    unfold VM_USERLO at hlo
    unfold VM_USERHI at hhi
    unfold UserRow Vm.pdeIndex
    omega
  have hother : ∀ (q : ℕ) (w : UInt32), q ≠ p ∨ w.toNat / 4096 ≠ va.toNat / 4096 →
      ¬ (q = p ∧ Vm.pdeIndex w = Vm.pdeIndex va ∧ Vm.pteIndex w = Vm.pteIndex va) := fun q w hne ⟨hq, hw⟩ =>
    hne.elim (fun hq' => hq' hq) fun hw' => hw' (Vm.page_eq_iff.mpr hw)
  refine ⟨fun hres => ?_, ?_⟩
  · obtain ⟨t, ht, h0, hsame, he⟩ := h.mapPage_cases hu page perm hres
    have hget := fun q w => ht.getPtblEntryByVa_setWord hu h0 (Vm.pteIndex_lt va) (page * PAGESIZE + perm) q w
    rw [he]
    refine ⟨ht.setWord _ _, (hget p va).trans (if_pos ⟨rfl, rfl, rfl⟩), fun q w hne => ?_⟩
    exact ((hget q w).trans (if_neg (hother q w hne))).trans (hsame q w)
  · unfold Vm.unmapPage
    dsimp only
    by_cases hentry : v.getPtblEntryByVa p va = 0
    · rw [if_neg (not_not.mpr hentry)]
      exact ⟨h, rfl, hentry, fun _ _ _ => rfl⟩
    · rw [if_pos hentry]
      have h0 : v.pdir p (Vm.pdeIndex va) ≠ 0 := fun h0 => hentry (if_pos h0)
      have hget := fun q w => h.getPtblEntryByVa_setWord hu h0 (Vm.pteIndex_lt va) 0 q w
      exact ⟨h.setWord _ _, rfl, (hget p va).trans (if_pos ⟨rfl, rfl, rfl⟩), fun q w hne => (hget q w).trans (if_neg (hother q w hne))⟩

theorem map_page_one_first :
    let v := (Vm.start2G.step (.split 0 1000)).mapPage 1 0x40000000 5 7
    v.1 = 262145 ∧ v.2.getPtblEntryByVa 1 0x40000000 = 5 * 4096 + 7 ∧ v.2.getPtblEntryByVa 2 0x40000000 = 0 := by
  have htables : Tables (Vm.start2G.step (.split 0 1000)) := by
    have h : Tables Vm.start2G := tables_pdirInitKern mem2G (by decide) fun _ _ => 0
    exact ⟨h.norm, h.kernel, h.inj, h.owned, h.ident⟩
  have hres : ((Vm.start2G.step (.split 0 1000)).mapPage 1 0x40000000 5 7).1 = 262145 := by
    simp only [Vm.start2G, Vm.pdirInitKern, realQuota_mem2G]
    decide
  obtain ⟨-, hself, hother⟩ := (map_page_one htables 1 le_rfl 0x40000000 (by decide) (by decide) 5 7).1 (by rw [hres]; decide)
  exact ⟨hres, hself, (hother 2 0x40000000 (.inl (by decide))).trans rfl⟩

/-- A directory of the user range leads to the first row of `IDPTbl`. -/
def Vm.shared : Vm := start2G.storePdir 1 256 (identityPde 1024 0)

/-- Different entries of the user range lead to different tables, since there is only one. A page is mapped for process `1`, and
the translation of address `0` changes for process `2`. -/
theorem map_page_shared : (∀ p i q k, UserRow p i → UserRow q k → Vm.shared.pdir p i ≠ 0 → Vm.shared.pdir q k ≠ 0 →
      Vm.shared.pdir p i / PAGESIZE = Vm.shared.pdir q k / PAGESIZE → p = q ∧ i = k) ∧
    (Vm.shared.mapPage 1 0x40000000 5 7).1 = 0 ∧ Vm.shared.getPtblEntryByVa 2 0 = 0x103 ∧
      (Vm.shared.mapPage 1 0x40000000 5 7).2.getPtblEntryByVa 2 0 = 5 * 4096 + 7 := by
  refine ⟨fun p i q k hp hq hp0 hq0 _ => ?_, ?_⟩
  · have hone : ∀ p i, UserRow p i → Vm.shared.pdir p i ≠ 0 → p = 1 ∧ i = 256 := fun p i ⟨h1, h2, h3⟩ h0 => by
      by_contra hne
      refine h0 ((Vm.pdir_storePdir _ _ _ _ _ _).trans ?_)
      rw [if_neg hne]
      exact if_neg (by omega)
    obtain ⟨rfl, rfl⟩ := hone p i hp hp0
    obtain ⟨rfl, rfl⟩ := hone q k hq hq0
    exact ⟨rfl, rfl⟩
  · simp only [Vm.shared, Vm.start2G, Vm.pdirInitKern]
    decide

/-! ### Running out of pages -/

/-- If a request of `p` for a page fails, it is for want of quota. -/
def Pmm.Supplied (m : Pmm) (p : ℕ) : Prop := (m.container p).usage = (m.container p).quota ∨ (palloc m.table).1 ≠ 0

/-- If `alloc_page` fails, it is for want of quota, at the first request: it gets a page, and another one if a table is to be
made. -/
def Vm.Supplied (v : Vm) (p : ℕ) (va : UInt32) : Prop :=
  (v.pmm.container p).usage = (v.pmm.container p).quota ∨
    (v.containerAlloc p).1 ≠ 0 ∧ (v.pdir p (Vm.pdeIndex va) ≠ 0 ∨ ((v.containerAlloc p).2.containerAlloc p).1 ≠ 0)

variable {m : Pmm} {p : ℕ} {v : Vm}

theorem Pmm.containerAlloc_of_full (h : (m.container p).usage = (m.container p).quota) :
    m.containerAlloc p = (0, m) := by
  simp [Pmm.containerAlloc, Memory.containerAlloc, h]

theorem Pmm.containerAlloc_fst (h : (m.container p).usage ≠ (m.container p).quota) :
    (m.containerAlloc p).1 = (palloc m.table).1 := by
  simp [Pmm.containerAlloc, Memory.containerAlloc, h]

theorem containerAlloc_ne_magic (hv : v.pmm.table.nps ≤ 2 ^ 20) (p : ℕ) : (v.containerAlloc p).1 ≠ MagicNumber := by
  have hlt : (v.containerAlloc p).1 < 2 ^ 20 := by
    show (v.pmm.containerAlloc p).1 < 2 ^ 20
    unfold Pmm.containerAlloc
    split_ifs
    · rcases palloc_cases v.pmm.table with h | ⟨i, h, hi, -⟩
      · rw [h]
        exact Nat.two_pow_pos 20
      · rw [h]
        exact hi.trans_le hv
    · exact Nat.two_pow_pos 20
  unfold MagicNumber
  omega

theorem nps_containerAlloc (v : Vm) (p : ℕ) : (v.containerAlloc p).2.pmm.table.nps = v.pmm.table.nps := by
  show (v.pmm.containerAlloc p).2.table.nps = _
  unfold Pmm.containerAlloc
  split_ifs
  · rcases palloc_cases v.pmm.table with h | ⟨i, h, -⟩ <;> rw [h]
  · rfl

theorem mapPage_magic (hv : v.pmm.table.nps ≤ 2 ^ 20) {va : UInt32} {page perm : ℕ}
    (h : (v.mapPage p va page perm).1 = MagicNumber) :
    v.pdir p (Vm.pdeIndex va) = 0 ∧ (v.containerAlloc p).1 = 0 ∧ (v.mapPage p va page perm).2 = (v.containerAlloc p).2 := by
  have hmagic := containerAlloc_ne_magic hv p
  unfold Vm.mapPage at h ⊢
  by_cases h0 : v.pdir p (Vm.pdeIndex va) = 0
  · unfold Vm.allocPtbl at h ⊢
    by_cases hr : (v.containerAlloc p).1 = 0
    · simp [Vm.getPdirEntry, h0, hr]
    · simp [Vm.getPdirEntry, h0, hr, hmagic] at h
  · simp [Vm.getPdirEntry, h0] at h

end MCertiKOS.Memory
