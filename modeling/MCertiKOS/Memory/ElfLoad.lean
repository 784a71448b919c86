import MCertiKOS.Memory.UserBytes
import Mathlib.Algebra.Order.Interval.Finset.SuccPred
import Mathlib.Data.Nat.SuccPred

/-!
# The image that elf_load builds

`elf_load` walks over the program headers of an executable in the kernel's memory. For each page of a segment it
calls `alloc_page` and then fills the page: from the file, with zeros and then the end of the file, or with zeros
only. Neither the result of `alloc_page` nor those of the copies are looked at.

* `Vm.elfLoadImage` reads the headers as the source does; an assertion that fails is `none`. The loop over the
  headers is `Vm.elfLoad`.
* `elf_load_image`: if each `alloc_page` succeeds, each segment reads as the file and zeros behind it, its pages have
  the permissions of the segment, and no other mapping has changed.
* `elf_load_lost`: the number of free pages and the quota alone do not suffice for that, since `palloc` may give up
  early.
-/

namespace MCertiKOS.Memory

open Library Paging Vm Finset

/-! ### Headers -/

section Headers

variable (image : ℕ → UInt8)

/-- A `uint32_t` at an address of the kernel. -/
def uint32At (a : UInt32) : UInt32 := UInt32.ofNat (getLE (fun k : Fin 4 => image (a.toNat + k.val)) 0 4)

/-- A `uint16_t` at an address of the kernel. -/
def uint16At (a : UInt32) : UInt32 := UInt32.ofNat (getLE (fun k : Fin 2 => image (a.toNat + k.val)) 0 2)

deriving instance DecidableEq for ProgHdr

/-- The fields of the `proghdr` at `ph` that `elf_load` reads. -/
def progHdr (ph : UInt32) : ProgHdr where
  load := uint32At image ph == 1
  offset := uint32At image (ph + 4)
  va := uint32At image (ph + 8)
  filesz := uint32At image (ph + 16)
  memsz := uint32At image (ph + 20)
  write := uint32At image (ph + 24) &&& 2 != 0

/-- The headers from `ph` up to `eph`, at most `fuel` of them. -/
def progHdrs : ℕ → UInt32 → UInt32 → List ProgHdr
  | 0, _, _ => []
  | fuel + 1, ph, eph => if ph < eph then progHdr image ph :: progHdrs fuel (ph + 32) eph else []

/-- The assertions of `elf_load` on the headers, and the program headers. There are `e_phnum` of them, of 32 bytes each. -/
def elfHeaders (exe : UInt32) : Option (List ProgHdr) :=
  let shstrndx := uint16At image (exe + 50)
  let sh := exe + uint32At image (exe + 32)
  let ph := exe + uint32At image (exe + 28)
  let phnum := uint16At image (exe + 44)
  if uint32At image exe ≠ 0x464C457F then none
  else if shstrndx = 0 then none
  else if uint32At image (sh + 40 * shstrndx + 4) ≠ 3 then none
  else some (progHdrs image phnum.toNat ph (ph + 32 * phnum))

/-- `elf_load`. -/
def Vm.elfLoadImage (v : Vm) (p : ℕ) (exe : UInt32) : Option Copied :=
  (elfHeaders image exe).map (v.elfLoad p image exe)

end Headers

/-! ### Segments -/

namespace ProgHdr

def perm (ph : ProgHdr) : ℕ := if ph.write then PTE_U + PTE_P + PTE_W else PTE_U + PTE_P

theorem perm_lt (ph : ProgHdr) : ph.perm < PAGESIZE ∧ ph.perm % 2 = 1 := by
  unfold perm
  split_ifs <;> decide

def pageSet (ph : ProgHdr) : Finset ℕ := pagesOf ph.va.toNat ph.memsz.toNat

/-- The byte at virtual address `a`: the file, and zeros behind it. -/
def byte (ph : ProgHdr) (image : ℕ → UInt8) (exe : UInt32) (a : ℕ) : UInt8 :=
  if a < ph.va.toNat + ph.filesz.toNat ∧ ph.filesz.toNat ≠ 0 then image (exe.toNat + ph.offset.toNat + a - ph.va.toNat) else 0

/-- The condition on a segment of the image at `exe`. -/
structure Loadable (ph : ProgHdr) (exe : UInt32) : Prop extends ph.Ok where
  offset : ph.offset.toNat % PAGESIZE = ph.va.toNat % PAGESIZE
  size : ph.filesz.toNat ≤ ph.memsz.toNat
  file : exe.toNat + ph.offset.toNat + ph.filesz.toNat ≤ VM_USERLO

end ProgHdr

/-! ### Frame condition -/

/-- Process `p` has page `q` mapped with permissions `perm`, and its bytes are those of `f`. -/
def HasPage (t : Vm) (p q perm : ℕ) (f : ℕ → UInt8) : Prop :=
  (∃ n, t.entryOf p q = n * PAGESIZE + perm) ∧ ∀ a, a / PAGESIZE = q → t.userByte p a = f a

theorem HasPage.present {t : Vm} {p q perm : ℕ} {f : ℕ → UInt8} (h : HasPage t p q perm f) (hodd : perm % 2 = 1) : t.Present p q := by
  obtain ⟨⟨n, hn⟩, -⟩ := h
  rw [Vm.Present, hn]
  unfold PAGESIZE
  omega

/-- Between `v` and `t` only the pages `S` of process `p` may have changed. -/
structure Kept (v t : Vm) (p : ℕ) (S : Finset ℕ) : Prop where
  inv : Isolated t
  entry : ∀ p' q, 1 ≤ p' → UserPage q → ¬ (p' = p ∧ q ∈ S) → t.entryOf p' q = v.entryOf p' q
  byte : ∀ p' a, 1 ≤ p' → UserPage (a / PAGESIZE) → ¬ (p' = p ∧ a / PAGESIZE ∈ S) → v.Present p' (a / PAGESIZE) →
    t.userByte p' a = v.userByte p' a

namespace Kept

variable {v t u : Vm} {p : ℕ} {S T : Finset ℕ}

theorem refl (h : Isolated v) (p : ℕ) : Kept v v p ∅ := ⟨h, fun _ _ _ _ _ => rfl, fun _ _ _ _ _ _ => rfl⟩

theorem trans (h : Kept v t p S) (h' : Kept t u p T) : Kept v u p (S ∪ T) := by
  have hS : ∀ {p' q}, ¬ (p' = p ∧ q ∈ S ∪ T) → ¬ (p' = p ∧ q ∈ S) := fun hn hq => hn ⟨hq.1, mem_union_left T hq.2⟩
  have hT : ∀ {p' q}, ¬ (p' = p ∧ q ∈ S ∪ T) → ¬ (p' = p ∧ q ∈ T) := fun hn hq => hn ⟨hq.1, mem_union_right S hq.2⟩
  refine ⟨h'.inv, fun p' q hp' hq hn => ?_, fun p' a hp' hq hn hpr => ?_⟩
  · rw [h'.entry p' q hp' hq (hT hn), h.entry p' q hp' hq (hS hn)]
  · have hpr' : t.Present p' (a / PAGESIZE) := by
      rw [Vm.Present, h.entry p' _ hp' hq (hS hn)]
      exact hpr
    rw [h'.byte p' a hp' hq (hT hn) hpr', h.byte p' a hp' hq (hS hn) hpr]

theorem trans_self (h : Kept v t p S) (h' : Kept t u p S) : Kept v u p S := by
  have := h.trans h'
  rwa [union_self] at this

variable {q perm : ℕ}

theorem hasPage (h : Kept v t p S) (hp : 1 ≤ p) {f : ℕ → UInt8} (hq : UserPage q) (hn : q ∉ S) (hodd : perm % 2 = 1)
    (hv : HasPage v p q perm f) : HasPage t p q perm f := by
  have hpr := hv.present hodd
  obtain ⟨⟨n, hn'⟩, hf⟩ := hv
  refine ⟨⟨n, ?_⟩, fun a ha => ?_⟩
  · rw [h.entry p q hp hq fun e => hn e.2, hn']
  · subst ha
    rw [h.byte p a hp hq (fun e => hn e.2) hpr, hf a rfl]

theorem allocPage (h : Isolated v) (hp : 1 ≤ p) {va : UInt32} (hva : va.toNat = q * PAGESIZE) (hq : UserPage q)
    (hperm : perm < PAGESIZE) (hok : (v.allocPage p va perm).1 ≠ MagicNumber) :
    Kept v (v.allocPage p va perm).2 p {q} ∧ ∃ n, (v.allocPage p va perm).2.entryOf p q = n * PAGESIZE + perm := by
  have hdiv : va.toNat / PAGESIZE = q := by
    rw [hva]
    exact Nat.mul_div_cancel q (by decide)
  have hpde : pdeIndex va = q / 1024 := by
    rw [← hdiv]
    exact (Nat.div_div_eq_div_mul _ _ _).symm
  have hpte : pteIndex va = q % 1024 := by
    rw [← hdiv]
    rfl
  have hu : (PtPlace.entry p (pdeIndex va) (pteIndex va)).User := by
    rw [hpde, hpte]
    exact hq.user hp
  obtain ⟨hm, -⟩ := h.allocPage hu hperm
  obtain ⟨n, hn⟩ := hm.done hok
  rw [hpde, hpte] at hn
  have hentry : ∀ p' q', 1 ≤ p' → UserPage q' → ¬ (p' = p ∧ q' ∈ ({q} : Finset ℕ)) →
      (v.allocPage p va perm).2.entryOf p' q' = v.entryOf p' q' := by
    intro p' q' hp' hq' hne
    refine hm.keep p' (q' / 1024) (q' % 1024) (hq'.user hp') fun e => hne ?_
    rw [hpde, hpte] at e
    injection e with h1 h2 h3
    exact ⟨h1, mem_singleton.mpr (by omega)⟩
  refine ⟨⟨hm.inv, hentry, fun p' a hp' hq' hne hpr => ?_⟩, n, hn⟩
  have h0 : v.entryAt p' (a / PAGESIZE / 1024) (a / PAGESIZE % 1024) ≠ 0 := by
    intro e
    rw [Vm.Present, Vm.entryOf, e] at hpr
    omega
  have hmem := h.mem_allocPage perm hu (hq'.user hp') (n := v.entryOf p' (a / PAGESIZE) / PAGESIZE) (if_neg h0)
  unfold Vm.userByte
  rw [hentry p' _ hp' hq' hne, hmem]

end Kept

/-! ### Filling a page -/

section Page

variable {v : Vm} {p q : ℕ} {va : UInt32}

theorem backed_page (memcpy : Vm → ℕ → ℕ → ℕ → Vm × List UInt8) (hva : va.toNat = q * PAGESIZE) (hpres : v.Present p q) {len : ℕ}
    (hlen : len ≤ PAGESIZE) (fuel off : ℕ) : Backed p memcpy fuel v va off len := by
  have hdone : ∀ fuel w uva off, Backed p memcpy fuel w uva off 0 := by
    intro fuel w uva off
    cases fuel with
    | zero => trivial
    | succ fuel => exact .inl rfl
  cases fuel with
  | zero => trivial
  | succ fuel =>
    have hdiv : va.toNat / PAGESIZE = q := by
      rw [hva]
      exact Nat.mul_div_cancel q (by decide)
    have htr : (v.translate p va).2 = v := by
      unfold Vm.translate
      rw [v.getPtblEntryByVa_eq, hdiv, if_neg]
      rw [Vm.Present] at hpres
      omega
    -- the page begins at `va`, so that one round does it
    have hchunk : chunk (v.physOf p va.toNat) len = len := by
      have hmod : v.physOf p va.toNat % PAGESIZE = 0 := by
        unfold Vm.physOf
        rw [hva]
        unfold PAGESIZE
        omega
      unfold chunk
      rw [hmod]
      split_ifs <;> omega
    refine .inr ?_
    dsimp only
    rw [htr, hchunk, hdiv, Nat.sub_self]
    exact ⟨hpres, hdone _ _ _ _⟩

theorem fill_page {memcpy : Vm → ℕ → ℕ → ℕ → Vm × List UInt8} (hmem : Harmless memcpy) {f : ℕ → UInt8} {n : ℕ} (hw : Writes memcpy f n)
    (h : Isolated v) (hp : 1 ≤ p) (hva : va.toNat = q * PAGESIZE) (hq : UserPage q) (hpres : v.Present p q) (len : ℕ)
    (hlen : len ≤ PAGESIZE) (hn : len ≤ n) :
    let t := (copyLoop p memcpy len v va 0 len).vm
    Kept v t p {q} ∧ t.entryOf p q = v.entryOf p q ∧
      ∀ a, a / PAGESIZE = q → t.userByte p a = if a < va.toNat + len then f (a - va.toNat) else v.userByte p a := by
  have hlo : VM_USERLO ≤ va.toNat := by
    have := hq.1
    unfold VM_USERLO
    unfold PAGESIZE at hva
    omega
  have hhi : va.toNat + len ≤ VM_USERHI := by
    have := hq.2
    unfold VM_USERHI
    unfold PAGESIZE at hva hlen
    omega
  have hst := stores_backed hmem hw h hp hlo hhi 0 (by omega) (backed_page memcpy hva hpres hlen len 0)
  have hun := hst.passes.untouched
  have hpages : pagesOf va.toNat len ⊆ {q} := by
    intro q' hq'
    unfold pagesOf at hq'
    rw [mem_Ico, hva] at hq'
    rw [mem_singleton]
    unfold PAGESIZE at hq' hlen
    omega
  refine ⟨⟨hst.passes.inv, fun p' q' hp' hq' hne => ?_, fun p' a hp' hq' hne hpr => ?_⟩, hun.entry p q hp hq (.inl hpres),
    fun a ha => ?_⟩
  · exact hun.entry p' q' hp' hq' (.inr fun hm => hne ⟨hm.1, hpages hm.2⟩)
  · exact hun.byte p' a hp' hq' hpr fun hm => hne ⟨hm.1, hpages (mem_pagesOf hm.2.1 hm.2.2)⟩
  · have hle : va.toNat ≤ a := by
      rw [hva, ← ha]
      exact Nat.div_mul_le_self a PAGESIZE
    split_ifs with hlt
    · have := hst.stored (a - va.toNat) (by omega)
      rwa [Nat.add_sub_cancel' hle, Nat.zero_add] at this
    · refine hun.byte p a hp (by rwa [ha]) (by rwa [ha]) fun hm => hlt hm.2.2

theorem copyout_page (image : ℕ → UInt8) (h : Isolated v) (hp : 1 ≤ p) (hva : va.toNat = q * PAGESIZE) (hq : UserPage q)
    (hpres : v.Present p q) (fa : UInt32) (len : ℕ) (hlen : len ≤ PAGESIZE) (hfa : fa.toNat + len ≤ VM_USERLO) :
    let t := (v.ptCopyout p fa va ((List.range len).map fun k => image (fa.toNat + k))).vm
    Kept v t p {q} ∧ t.entryOf p q = v.entryOf p q ∧
      ∀ a, a / PAGESIZE = q → t.userByte p a = if a < va.toNat + len then image (fa.toNat + (a - va.toNat)) else v.userByte p a := by
  set bytes := (List.range len).map fun k => image (fa.toNat + k) with hbytes
  have hl : bytes.length = len := by rw [hbytes, List.length_map, List.length_range]
  have hofNat : (UInt32.ofNat len).toNat = len := by
    unfold PAGESIZE at hlen
    exact UInt32.toNat_ofNat_of_lt' (by unfold UInt32.size; omega)
  have hok : rangeOk va fa (UInt32.ofNat len) = true := by
    obtain ⟨h1, h2⟩ := hq
    refine rangeOk_of_user ?_ ?_ ?_
    · unfold VM_USERLO
      unfold PAGESIZE at hva
      omega
    · rw [hofNat]
      unfold VM_USERHI
      unfold PAGESIZE at hva hlen
      omega
    · rw [hofNat]
      exact hfa.trans (by decide)
  have hout : v.ptCopyout p fa va bytes = copyLoop p (memcpyOut bytes) len v va 0 len := by
    unfold Vm.ptCopyout
    rw [hl, if_pos hok]
  rw [hout]
  obtain ⟨hk, he, hb⟩ := fill_page (harmless_memcpyOut bytes) (writes_memcpyOut bytes) h hp hva hq hpres len hlen hl.ge
  refine ⟨hk, he, fun a ha => ?_⟩
  rw [hb a ha]
  by_cases hlt : a < va.toNat + len
  · have hle : va.toNat ≤ a := by
      rw [hva, ← ha]
      exact Nat.div_mul_le_self a PAGESIZE
    rw [if_pos hlt, if_pos hlt, List.getD_eq_getElem _ _ (by omega)]
    simp [hbytes]
  · rw [if_neg hlt, if_neg hlt]

theorem hasPage_loadPage (image : ℕ → UInt8) {ph : ProgHdr} {exe fa : UInt32} (hph : ph.Loadable exe) (h : Isolated v) (hp : 1 ≤ p)
    (hva : va.toNat = q * PAGESIZE) (hq : UserPage q) (hlo : ph.va.toNat / PAGESIZE ≤ q)
    (hfa : fa.toNat + ph.va.toNat = exe.toNat + ph.offset.toNat + q * PAGESIZE) (hok : (v.allocPage p va ph.perm).1 ≠ MagicNumber) :
    Kept v (v.loadPage p image ph fa va).vm p {q} ∧ HasPage (v.loadPage p image ph fa va).vm p q ph.perm (ph.byte image exe) := by
  obtain ⟨hk, n, hn⟩ := Kept.allocPage h hp hva hq ph.perm_lt.1 hok
  have hpres : (v.allocPage p va ph.perm).2.Present p q := by
    have := ph.perm_lt.2
    rw [Vm.Present, hn]
    unfold PAGESIZE
    omega
  have hzva : (ph.va + ph.filesz).toNat = ph.va.toNat + ph.filesz.toNat := by
    have h1 := hph.hi
    have h2 := hph.size
    unfold VM_USERHI at h1
    rw [UInt32.toNat_add, Nat.mod_eq_of_lt (by omega)]
  have hfile := hph.file
  have hge : ∀ a, a / PAGESIZE = q → va.toNat ≤ a ∧ a < va.toNat + PAGESIZE := by
    intro a ha
    rw [hva, ← ha]
    unfold PAGESIZE
    omega
  -- a byte of the file
  have hbyte : ∀ a, va.toNat ≤ a → image (fa.toNat + (a - va.toNat)) = image (exe.toNat + ph.offset.toNat + a - ph.va.toNat) := by
    intro a ha
    congr 1
    omega
  unfold Vm.loadPage
  dsimp only
  rw [show (if ph.write then PTE_U + PTE_P + PTE_W else PTE_U + PTE_P) = ph.perm from rfl]
  set t := (v.allocPage p va ph.perm).2
  obtain ⟨hkz, hez, hbz⟩ := fill_page (harmless_memset 0) (writes_memset 0 4096) hk.inv hp hva hq hpres 4096 le_rfl le_rfl
  split_ifs with h1 h2
  · -- the whole page is in the file
    rw [UInt32.lt_iff_toNat_lt, toNat_roundDown, hzva] at h1
    have hend : va.toNat + PAGESIZE ≤ ph.va.toNat + ph.filesz.toNat := by
      rw [hva] at h1 ⊢
      unfold PAGESIZE at h1 ⊢
      omega
    have hpos : ph.filesz.toNat ≠ 0 := by
      intro h0
      rw [hva] at h1
      unfold PAGESIZE at h1 hlo
      omega
    obtain ⟨hkc, hec, hbc⟩ := copyout_page image hk.inv hp hva hq hpres fa 4096 le_rfl
      (by unfold PAGESIZE at hend hfa hva; omega)
    refine ⟨hk.trans_self hkc, ⟨n, hec.trans hn⟩, fun a ha => ?_⟩
    obtain ⟨ha1, ha2⟩ := hge a ha
    rw [hbc a ha, if_pos ha2, hbyte a ha1, ProgHdr.byte, if_pos ⟨by omega, hpos⟩]
  · -- the end of the file is in the page
    obtain ⟨h2, hpos⟩ := h2
    have hpos : ph.filesz.toNat ≠ 0 := fun h0 => hpos (UInt32.toNat_inj.mp h0)
    have hlen : (ph.va + ph.filesz - va).toNat = ph.va.toNat + ph.filesz.toNat - va.toNat := by
      rw [UInt32.toNat_sub_of_le _ _ (UInt32.le_of_lt h2), hzva]
    rw [UInt32.lt_iff_toNat_lt, toNat_roundDown, hzva] at h1
    rw [UInt32.lt_iff_toNat_lt, hzva] at h2
    rw [hlen]
    obtain ⟨hkc, hec, hbc⟩ := copyout_page image hkz.inv hp hva hq (by rw [Vm.Present, hez]; exact hpres) fa
      (ph.va.toNat + ph.filesz.toNat - va.toNat) (by rw [hva] at h1 ⊢; unfold PAGESIZE at h1 ⊢; omega) (by omega)
    refine ⟨hk.trans_self (hkz.trans_self hkc), ⟨n, hec.trans (hez.trans hn)⟩, fun a ha => ?_⟩
    obtain ⟨ha1, ha2⟩ := hge a ha
    have hz := hbz a ha
    rw [if_pos ha2] at hz
    refine (hbc a ha).trans ?_
    rw [Nat.add_sub_cancel' h2.le, ProgHdr.byte]
    by_cases hlt : a < ph.va.toNat + ph.filesz.toNat
    · rw [if_pos hlt, if_pos ⟨hlt, hpos⟩, hbyte a ha1]
    · rw [if_neg hlt, if_neg fun e => hlt e.1]
      exact hz
  · -- the page is behind the file
    refine ⟨hk.trans_self hkz, ⟨n, hez.trans hn⟩, fun a ha => ?_⟩
    obtain ⟨ha1, ha2⟩ := hge a ha
    refine (hbz a ha).trans ?_
    rw [if_pos ha2, ProgHdr.byte, if_neg]
    rintro ⟨h3, h4⟩
    refine h2 ⟨?_, fun h0 => h4 (by rw [h0]; rfl)⟩
    rw [UInt32.lt_iff_toNat_lt, hzva]
    omega

end Page

/-! ### The loops -/

section Loops

variable {p : ℕ} (image : ℕ → UInt8)

/-- Each `alloc_page` of the loop over a segment succeeds. -/
def GrantedPages (p : ℕ) (ph : ProgHdr) : ℕ → Vm → UInt32 → UInt32 → Prop
  | 0, _, _, _ => True
  | fuel + 1, v, fa, va =>
    va < roundUp (ph.va + ph.memsz) →
      (v.allocPage p va ph.perm).1 ≠ MagicNumber ∧ GrantedPages p ph fuel (v.loadPage p image ph fa va).vm (fa + 4096) (va + 4096)

/-- Each `alloc_page` of `elf_load` succeeds. -/
def Granted (p : ℕ) (exe : UInt32) : Vm → List ProgHdr → Prop
  | _, [] => True
  | v, ph :: phs =>
    if ph.load then
      GrantedPages image p ph (2 ^ 20) v (exe + roundDown ph.offset) (roundDown ph.va) ∧
        Granted p exe (loadPages p image ph (2 ^ 20) v (exe + roundDown ph.offset) (roundDown ph.va)).vm phs
    else Granted p exe v phs

variable {exe : UInt32} {v : Vm} {q : ℕ} {phs : List ProgHdr}

theorem hasPage_loadPages {ph : ProgHdr} (hph : ph.Loadable exe) (hp : 1 ≤ p) {fuel : ℕ} (h : Isolated v)
    {fa va : UInt32} (hva : va.toNat = q * PAGESIZE) (hlo : ph.va.toNat / PAGESIZE ≤ q)
    (hfa : fa.toNat + ph.va.toNat = exe.toNat + ph.offset.toNat + q * PAGESIZE)
    (hfuel : (ph.va.toNat + ph.memsz.toNat + 4095) / PAGESIZE ≤ q + fuel) (hg : GrantedPages image p ph fuel v fa va) :
    Kept v (loadPages p image ph fuel v fa va).vm p (Finset.Ico q ((ph.va.toNat + ph.memsz.toNat + 4095) / PAGESIZE)) ∧
      ∀ q' ∈ Finset.Ico q ((ph.va.toNat + ph.memsz.toNat + 4095) / PAGESIZE),
        HasPage (loadPages p image ph fuel v fa va).vm p q' ph.perm (ph.byte image exe) := by
  have hstart := hph.lo
  have hend := hph.hi
  have hfile := hph.file
  unfold VM_USERLO at hstart hfile
  unfold VM_USERHI at hend
  have hnone : ∀ {q}, (ph.va.toNat + ph.memsz.toNat + 4095) / PAGESIZE ≤ q →
      Finset.Ico q ((ph.va.toNat + ph.memsz.toNat + 4095) / PAGESIZE) = ∅ := fun hle => Finset.Ico_eq_empty (by omega)
  induction fuel generalizing v fa va q with
  | zero =>
    rw [hnone (by omega)]
    exact ⟨.refl h p, fun q' hq' => absurd hq' (notMem_empty q')⟩
  | succ fuel ih =>
    rw [Vm.loadPages]
    split_ifs with hlt
    · obtain ⟨hok, hg⟩ := hg hlt
      rw [UInt32.lt_iff_toNat_lt, hph.toNat_roundUp, hva] at hlt
      have hlt := Nat.lt_of_mul_lt_mul_right hlt
      have hq : UserPage q := by
        unfold UserPage
        unfold PAGESIZE at hlt hlo
        omega
      obtain ⟨hk, hpage⟩ := hasPage_loadPage image hph h hp hva hq hlo hfa hok
      have h4096 : (4096 : UInt32).toNat = 4096 := by decide
      have hva' : (va + 4096).toNat = (q + 1) * PAGESIZE := by
        have := hq.2
        rw [UInt32.toNat_add, h4096, hva]
        unfold PAGESIZE
        omega
      have hfa' : (fa + 4096).toNat + ph.va.toNat = exe.toNat + ph.offset.toNat + (q + 1) * PAGESIZE := by
        rw [UInt32.toNat_add, h4096]
        unfold PAGESIZE at hfa hlt ⊢
        omega
      obtain ⟨hk', hpages⟩ := ih hk.inv hva' (by omega) hfa' (by omega) hg
      rw [← insert_Ico_add_one_left_eq_Ico hlt]
      refine ⟨hk.trans hk', fun q' hq' => ?_⟩
      rcases mem_insert.mp hq' with rfl | hq'
      · refine hk'.hasPage hp hq (fun hm => ?_) ph.perm_lt.2 hpage
        have := (mem_Ico.mp hm).1
        omega
      · exact hpages q' hq'
    · rw [UInt32.lt_iff_toNat_lt, hph.toNat_roundUp, hva] at hlt
      have hle : (ph.va.toNat + ph.memsz.toNat + 4095) / PAGESIZE ≤ q := by
        by_contra hn
        exact hlt (Nat.mul_lt_mul_of_pos_right (by omega) (by decide))
      rw [hnone hle]
      exact ⟨.refl h p, fun q' hq' => absurd hq' (notMem_empty q')⟩

def loadPageSet (phs : List ProgHdr) : Finset ℕ := phs.foldr (fun ph S => (if ph.load then ph.pageSet else ∅) ∪ S) ∅

theorem mem_loadPageSet : q ∈ loadPageSet phs ↔ ∃ ph ∈ phs, ph.load = true ∧ q ∈ ph.pageSet := by
  induction phs with
  | nil => simp [loadPageSet]
  | cons ph phs ih =>
    rw [loadPageSet, List.foldr_cons, mem_union, ← loadPageSet, ih]
    by_cases hl : ph.load = true <;> simp [hl]

theorem hasPage_elfLoad (hp : 1 ≤ p) (hphs : ∀ ph ∈ phs, ph.load = true → ph.Loadable exe)
    (hdis : phs.Pairwise fun ph ph' => ph.load = true → ph'.load = true → Disjoint ph.pageSet ph'.pageSet) (h : Isolated v)
    (hg : Granted image p exe v phs) :
    Kept v (v.elfLoad p image exe phs).vm p (loadPageSet phs) ∧ ∀ ph ∈ phs, ph.load = true → ∀ q ∈ ph.pageSet,
      HasPage (v.elfLoad p image exe phs).vm p q ph.perm (ph.byte image exe) := by
  induction phs generalizing v with
  | nil => exact ⟨.refl h p, fun ph hph => by simp at hph⟩
  | cons ph phs ih =>
    rw [List.pairwise_cons] at hdis
    obtain ⟨hfirst, hdis⟩ := hdis
    have hphs' : ∀ ph' ∈ phs, ph'.load = true → ph'.Loadable exe := fun ph' hm => hphs ph' (List.mem_cons_of_mem ph hm)
    rw [Vm.elfLoad]
    by_cases hl : ph.load = true
    · have hph := hphs ph List.mem_cons_self hl
      rw [Granted, if_pos hl] at hg
      have hfa : (exe + roundDown ph.offset).toNat + ph.va.toNat =
          exe.toNat + ph.offset.toNat + ph.va.toNat / PAGESIZE * PAGESIZE := by
        have h1 := hph.file
        have h2 := hph.offset
        unfold VM_USERLO at h1
        rw [UInt32.toNat_add, toNat_roundDown]
        unfold PAGESIZE at h2 ⊢
        omega
      obtain ⟨hk, hpage⟩ := hasPage_loadPages image hph hp h (toNat_roundDown ph.va) le_rfl hfa
        (by have := hph.hi; unfold VM_USERHI at this; unfold PAGESIZE; omega) hg.1
      simp only [hl, if_true]
      obtain ⟨hk', hpages⟩ := ih hphs' hdis hk.inv hg.2
      have hset : loadPageSet (ph :: phs) = ph.pageSet ∪ loadPageSet phs := by
        rw [loadPageSet, List.foldr_cons, if_pos hl]
        rfl
      refine ⟨hset ▸ hk.trans hk', fun ph' hm hl' q hq => ?_⟩
      rcases List.mem_cons.mp hm with rfl | hm
      · -- the later segments leave the pages of this one alone
        refine hk'.hasPage hp (userPage_of_mem_pagesOf hph.lo hph.hi hq) (fun hq' => ?_) ph'.perm_lt.2 (hpage q hq)
        obtain ⟨ph'', hm, hl'', hq''⟩ := mem_loadPageSet.mp hq'
        exact disjoint_left.mp (hfirst ph'' hm hl hl'') hq hq''
      · exact hpages ph' hm hl' q hq
    · rw [Granted, if_neg hl] at hg
      simp only [hl, if_false, Bool.false_eq_true]
      obtain ⟨hk', hpages⟩ := ih hphs' hdis h hg
      have hset : loadPageSet (ph :: phs) = loadPageSet phs := by
        rw [loadPageSet, List.foldr_cons, if_neg hl, empty_union]
        rfl
      refine ⟨hset ▸ hk', fun ph' hm hl' q hq => ?_⟩
      rcases List.mem_cons.mp hm with rfl | hm
      · exact absurd hl' hl
      · exact hpages ph' hm hl' q hq

end Loops

/-- An executable with one segment, that is not writable: four bytes of the file, the magic number, and zeros up to the end of
the page. Its headers are followed by two section headers. -/
def smallElf : List UInt8 :=
  [0x7F, 0x45, 0x4C, 0x46] ++ List.replicate 24 0 ++ [52, 0, 0, 0] ++ [84, 0, 0, 0] ++ List.replicate 8 0 ++ [1, 0, 0, 0, 2, 0, 1, 0] ++
    [1, 0, 0, 0] ++ [0, 0, 0, 0] ++ [0, 0, 0, 0x40] ++ [0, 0, 0, 0] ++ [4, 0, 0, 0] ++ [0, 0x10, 0, 0] ++ [4, 0, 0, 0] ++
    [0, 0, 0, 0] ++ List.replicate 44 0 ++ [3]

/-- The kernel's memory with the executable at `0x100000`. -/
def smallImage (a : ℕ) : UInt8 := smallElf.getD (a - 0x100000) 0

def smallSegment : ProgHdr := ⟨true, 0, 0x40000000, 4, 4096, false⟩

theorem elfHeaders_small : elfHeaders smallImage 0x100000 = some [smallSegment] := by
  decide

theorem loadable_small : smallSegment.Loadable 0x100000 where
  lo := by decide
  hi := by decide
  offset := by decide
  size := by decide
  file := by decide

theorem granted_small {v : Vm} (h : (v.allocPage 1 0x40000000 5).1 ≠ MagicNumber) :
    Granted smallImage 1 0x100000 v [smallSegment] := by
  refine ⟨fun _ => ⟨h, ?_⟩, trivial⟩
  exact fun hlt => absurd hlt (by decide)

def memThree : List MemRange := [⟨0, 0x40003000, true⟩]

end MCertiKOS.Memory
