import MCertiKOS.Memory.Isolation

/-!
# Copies between the kernel and user memory

`pt_copyin`, `pt_copyout` and `pt_memset` of `kern/lib/pmap.c`, and the functions that use them on addresses a user
program or an executable supplies: the memory side of `sys_read`, `sys_write` and `sys_pipe` (`kern/fs/sysfile.c`),
and `elf_load` (`kern/lib/elf.c`). The kernel's own buffer is the list of bytes that is copied; the other physical
addresses a copy accesses are recorded in `touched`.

The range check adds 32-bit words. For an address above `VM_USERHI` the sum can wrap around, and the copy then goes
through the kernel's part of the page directory; and when `alloc_page` fails, the entry is still `0`, and the copy
goes to physical page `0` (`copy_leaves_user_memory`). When neither happens the copies access exactly the pages that
the process has mapped for the range (`user_copy_safe`).
-/

namespace MCertiKOS.Memory

open Library Paging Relation List

/-- The outcome of a copy. -/
structure Copied where
  copied : ℕ
  touched : List ℕ
  bytes : List UInt8
  vm : Vm

namespace Vm

/-- The bytes of physical memory from `pa` on. -/
def readBytes (v : Vm) (pa n : ℕ) : List UInt8 :=
  (List.range' pa n).map fun a => byteAt (v.mem (a / PAGESIZE)) (a % PAGESIZE)

/-- Store bytes in physical memory from `pa` on, within one page. -/
def writeBytes (v : Vm) (pa : ℕ) (bytes : List UInt8) : Vm :=
  { v with
    mem := Function.update v.mem (pa / PAGESIZE) fun x =>
      if pa % PAGESIZE ≤ x.val then bytes.getD (x.val - pa % PAGESIZE) (v.mem (pa / PAGESIZE) x)
      else v.mem (pa / PAGESIZE) x }

/-- The part common to the copy loops: the entry for the address, and `alloc_page` if it is not present. -/
def translate (v : Vm) (p : ℕ) (va : UInt32) : ℕ × Vm :=
  if v.getPtblEntryByVa p va % 2 = 0 then
    let t := (v.allocPage p va (PTE_P + PTE_U + PTE_W)).2
    (t.getPtblEntryByVa p va, t)
  else (v.getPtblEntryByVa p va, v)

def physAddr (e : ℕ) (va : UInt32) : ℕ := e / PAGESIZE * PAGESIZE + va.toNat % PAGESIZE

/-- The number of bytes to copy in one round: up to the end of the page. -/
def chunk (pa len : ℕ) : ℕ := if len < PAGESIZE - pa % PAGESIZE then len else PAGESIZE - pa % PAGESIZE

/-- The loop of `pt_copyin`, `pt_copyout` and `pt_memset`. `memcpy v pa off size` is the call in the body, for `size`
bytes at the physical address `pa` when `off` bytes have been copied. Each round copies at least one byte. -/
def copyLoop (p : ℕ) (memcpy : Vm → ℕ → ℕ → ℕ → Vm × List UInt8) : ℕ → Vm → UInt32 → ℕ → ℕ → Copied
  | 0, v, _, _, _ => ⟨0, [], [], v⟩
  | fuel + 1, v, uva, off, len =>
    if len = 0 then ⟨0, [], [], v⟩
    else
      let r := v.translate p uva
      let pa := physAddr r.1 uva
      let size := chunk pa len
      let c := memcpy r.2 pa off size
      let rest := copyLoop p memcpy fuel c.1 (uva + UInt32.ofNat size) (off + size) (len - size)
      ⟨size + rest.copied, List.range' pa size ++ rest.touched, c.2 ++ rest.bytes, rest.vm⟩

/-- `memcpy` from user memory. -/
def memcpyIn (v : Vm) (pa _off size : ℕ) : Vm × List UInt8 := (v, v.readBytes pa size)

/-- `memcpy` of the kernel's bytes to user memory. -/
def memcpyOut (bytes : List UInt8) (v : Vm) (pa off size : ℕ) : Vm × List UInt8 :=
  (v.writeBytes pa ((bytes.drop off).take size), [])

def memset (c : UInt8) (v : Vm) (pa _off size : ℕ) : Vm × List UInt8 := (v.writeBytes pa (List.replicate size c), [])

/-- The checks of `pt_copyin` and `pt_copyout`, with 32-bit sums. -/
def rangeOk (uva kva len : UInt32) : Bool :=
  decide (VM_USERLO ≤ uva.toNat ∧ (uva + len).toNat ≤ VM_USERHI) && decide ((kva + len).toNat ≤ VM_USERHI)

def ptCopyin (v : Vm) (p : ℕ) (uva kva len : UInt32) : Copied :=
  if rangeOk uva kva len then copyLoop p memcpyIn len.toNat v uva 0 len.toNat else ⟨0, [], [], v⟩

/-- `pt_copyout`, of the bytes at `kva`. -/
def ptCopyout (v : Vm) (p : ℕ) (kva uva : UInt32) (bytes : List UInt8) : Copied :=
  if rangeOk uva kva (UInt32.ofNat bytes.length) then copyLoop p (memcpyOut bytes) bytes.length v uva 0 bytes.length
  else ⟨0, [], [], v⟩

/-- `pt_memset`, which has no check. -/
def ptMemset (v : Vm) (p : ℕ) (va : UInt32) (c : UInt8) (len : ℕ) : Copied :=
  copyLoop p (memset c) len v va 0 len

end Vm

/-! ### System calls -/

/-- The check of `sys_read` and `sys_write`, with a 32-bit sum. -/
def userBufOk (userBuf n : UInt32) : Bool :=
  !(decide (userBuf.toNat < VM_USERLO) || decide (VM_USERHI < (userBuf + n).toNat) || decide (4096 < n.toNat))

namespace Vm

/-- `sys_read`: `data` is what `file_read` has put into the kernel's buffer, at most `n` bytes. -/
def sysRead (v : Vm) (p : ℕ) (kva userBuf n : UInt32) (data : List UInt8) : Copied :=
  if userBufOk userBuf n then
    if 0 < data.length then v.ptCopyout p kva userBuf data else ⟨0, [], [], v⟩
  else ⟨0, [], [], v⟩

/-- `sys_write`, up to `file_write`. -/
def sysWrite (v : Vm) (p : ℕ) (kva userBuf n : UInt32) : Copied :=
  if userBufOk userBuf n then v.ptCopyin p userBuf kva n else ⟨0, [], [], v⟩

/-- `sys_pipe`: the two descriptors are stored as `int`s. -/
def sysPipe (v : Vm) (p : ℕ) (kva addr : UInt32) (fds : List UInt8) : Copied :=
  if addr.toNat < VM_USERLO ∨ VM_USERHI < (addr + 8).toNat then ⟨0, [], [], v⟩ else v.ptCopyout p kva addr fds

end Vm

/-! ### Executables -/

/-- A program header. -/
structure ProgHdr where
  /-- `p_type` is `ELF_PROG_LOAD`. -/
  load : Bool
  /-- `p_offset`. -/
  offset : UInt32
  /-- `p_va`. -/
  va : UInt32
  /-- `p_filesz`. -/
  filesz : UInt32
  /-- `p_memsz`. -/
  memsz : UInt32
  /-- `p_flags` has `ELF_PROG_FLAG_WRITE`. -/
  write : Bool

/-- `rounddown(n, PAGESIZE)`. -/
def roundDown (n : UInt32) : UInt32 := n - n % 4096

/-- `roundup(n, PAGESIZE)`. -/
def roundUp (n : UInt32) : UInt32 := roundDown (n + 4095)

namespace Vm

/-- One round of the inner loop of `elf_load`: a page is allocated and filled. The image is in the kernel's memory. -/
def loadPage (v : Vm) (p : ℕ) (image : ℕ → UInt8) (ph : ProgHdr) (fa va : UInt32) : Copied :=
  let zva := ph.va + ph.filesz
  let t := (v.allocPage p va (if ph.write then PTE_U + PTE_P + PTE_W else PTE_U + PTE_P)).2
  if va < roundDown zva then t.ptCopyout p fa va ((List.range 4096).map fun k => image (fa.toNat + k))
  else if va < zva ∧ ph.filesz ≠ 0 then
    let r := t.ptMemset p va 0 4096
    let r' := r.vm.ptCopyout p fa va ((List.range (zva - va).toNat).map fun k => image (fa.toNat + k))
    ⟨r.copied + r'.copied, r.touched ++ r'.touched, [], r'.vm⟩
  else t.ptMemset p va 0 4096

/-- The inner loop of `elf_load`, for at most `fuel` pages. -/
def loadPages (p : ℕ) (image : ℕ → UInt8) (ph : ProgHdr) : ℕ → Vm → UInt32 → UInt32 → Copied
  | 0, v, _, _ => ⟨0, [], [], v⟩
  | fuel + 1, v, fa, va =>
    if va < roundUp (ph.va + ph.memsz) then
      let r := v.loadPage p image ph fa va
      let rest := loadPages p image ph fuel r.vm (fa + 4096) (va + 4096)
      ⟨r.copied + rest.copied, r.touched ++ rest.touched, [], rest.vm⟩
    else ⟨0, [], [], v⟩

/-- `elf_load`: the program headers of the image at `exe`. An address space has `2 ^ 20` pages. -/
def elfLoad (v : Vm) (p : ℕ) (image : ℕ → UInt8) (exe : UInt32) : List ProgHdr → Copied
  | [] => ⟨0, [], [], v⟩
  | ph :: phs =>
    let r := if ph.load then loadPages p image ph (2 ^ 20) v (exe + roundDown ph.offset) (roundDown ph.va)
      else ⟨0, [], [], v⟩
    let rest := elfLoad r.vm p image exe phs
    ⟨r.copied + rest.copied, r.touched ++ rest.touched, [], rest.vm⟩

end Vm

/-! ### Room for pages -/

/-- `r` calls of `container_alloc` for `p` succeed: the quota and the free pages that `palloc` has not passed yet
suffice. -/
structure Room (m : Pmm) (p r : ℕ) : Prop where
  quota : (m.container p).usage.toNat + r ≤ (m.container p).quota.toNat
  pages : r ≤ m.table.above.card

variable {m : Pmm} {p r q n len size fuel k : ℕ} {v t u : Vm} {uva : UInt32} {memcpy : Vm → ℕ → ℕ → ℕ → Vm × List UInt8}
  {P : Vm → ℕ → ℕ → ℕ → Copied → Prop} {c : CopyCall}

theorem Room.mono {r' : ℕ} (h : Room m p r) (hle : r' ≤ r) : Room m p r' :=
  ⟨by have := h.quota; omega, hle.trans h.pages⟩

theorem Room.containerAlloc (h : Room m p (r + 1)) (hn : m.table.UserNorm) :
    (m.containerAlloc p).1 ≠ 0 ∧ Room (m.containerAlloc p).2 p r := by
  have hq := h.quota
  have hne : (m.container p).usage ≠ (m.container p).quota := by
    intro e
    rw [e] at hq
    omega
  have hpos : 0 < m.table.above.card := by
    have := h.pages
    omega
  obtain ⟨i, hi⟩ := AT.exists_nextFree (Finset.card_pos.mp hpos)
  have hp : palloc m.table = (i, (palloc m.table).2) := by
    rw [palloc, hi]
  have he : m.containerAlloc p = (i, ⟨(Memory.containerAlloc m.container p).2, (palloc m.table).2⟩) := by
    unfold Pmm.containerAlloc
    rw [if_pos (by simp [Memory.containerAlloc, hne]), hp]
  have hlt := ((m.container p).quota).toNat_lt
  rw [he]
  refine ⟨?_, ?_, ?_⟩
  · have : 262144 ≤ i := (hn i (AT.nextFree_some hi).2.2.1).1
    show i ≠ 0
    omega
  · simp only [Memory.containerAlloc, if_neg hne, Function.update_self]
    rw [UInt32.toNat_add, UInt32.toNat_one, Nat.mod_eq_of_lt (by omega)]
    omega
  · have := card_above_palloc hi
    have := h.pages
    show r ≤ (palloc m.table).2.above.card
    omega

theorem Room.allocPage (h : Room v.pmm p (r + 2)) (hi : Isolated v) (va : UInt32) (perm : ℕ) :
    (v.allocPage p va perm).1 ≠ MagicNumber ∧ Room (v.allocPage p va perm).2.pmm p r := by
  obtain ⟨hne, h1⟩ := h.containerAlloc hi.norm
  have hi1 := hi.containerAlloc p
  have hne' : (v.containerAlloc p).1 ≠ 0 := hne
  unfold Vm.allocPage
  simp only [hne', if_false]
  set u := (v.containerAlloc p).2
  have h1 : Room u.pmm p (r + 1) := h1
  unfold Vm.mapPage
  by_cases h0 : u.pdir p (Vm.pdeIndex va) = 0
  · obtain ⟨hne2, h2⟩ := h1.containerAlloc hi1.norm
    have hne2' : (u.containerAlloc p).1 ≠ 0 := hne2
    have hlt := (hi1.containerAlloc p).lt_of_isNorm (hi1.fresh_containerAlloc p hne2').norm
    have hmagic : (u.containerAlloc p).1 ≠ MagicNumber := by
      unfold MagicNumber
      omega
    simp only [Vm.getPdirEntry, h0, Vm.allocPtbl, hne2', hmagic, ne_eq, not_true_eq_false, not_false_eq_true, if_true,
      if_false]
    refine ⟨True.intro, ?_⟩
    have hc := Vm.clears_clearPtbl ((u.containerAlloc p).2.setPdirEntry p (Vm.pdeIndex va) (u.containerAlloc p).1) p
      (Vm.pdeIndex va)
    rw [Vm.pmm_setPtblEntry, hc.pmm]
    exact h2
  · have hmagic : (0 : ℕ) ≠ MagicNumber := by decide
    simp only [Vm.getPdirEntry, h0, hmagic, ne_eq, not_false_eq_true, if_true]
    exact ⟨True.intro, h1.mono (by omega)⟩

/-! ### Virtual pages -/

namespace Vm

variable (v : Vm) (p : ℕ)

/-- The entry for virtual page `q`. -/
def entryOf (q : ℕ) : ℕ := v.entryAt p (q / 1024) (q % 1024)

/-- The process has virtual page `q` mapped. -/
def Present (q : ℕ) : Prop := v.entryOf p q % 2 = 1

instance (q : ℕ) : Decidable (v.Present p q) := inferInstanceAs (Decidable (_ = _))

def physOf (a : ℕ) : ℕ := v.entryOf p (a / PAGESIZE) / PAGESIZE * PAGESIZE + a % PAGESIZE

/-- The number of virtual pages from `lo` to `hi` that are not mapped. -/
def missing (lo hi : ℕ) : ℕ := ((Finset.Ico lo hi).filter fun q => ¬ v.Present p q).card

theorem getPtblEntryByVa_eq (va : UInt32) : v.getPtblEntryByVa p va = v.entryOf p (va.toNat / PAGESIZE) := by
  have h : pdeIndex va = va.toNat / PAGESIZE / 1024 := (Nat.div_div_eq_div_mul _ _ _).symm
  rw [entryOf, ← h]
  rfl

theorem missing_of_lt {lo hi : ℕ} (h : lo < hi) :
    v.missing p lo hi = (if v.Present p lo then 0 else 1) + v.missing p (lo + 1) hi := by
  have hI : Finset.Ico lo hi = insert lo (Finset.Ico (lo + 1) hi) := by
    ext q
    simp only [Finset.mem_insert, Finset.mem_Ico]
    omega
  unfold missing
  rw [hI, Finset.filter_insert]
  by_cases hp : v.Present p lo
  · simp [hp]
  · rw [if_pos hp, if_neg hp, Finset.card_insert_of_notMem (by simp), Nat.add_comm]

end Vm

def UserPage (q : ℕ) : Prop := 262144 ≤ q ∧ q < 983040

theorem UserPage.user (h : UserPage q) (hp : 1 ≤ p) : (PtPlace.entry p (q / 1024) (q % 1024)).User := by
  obtain ⟨h1, h2⟩ := h
  refine ⟨hp, ?_, ?_, ?_⟩ <;> omega

theorem UserPage.place {va : UInt32} (h : UserPage (va.toNat / PAGESIZE)) (hp : 1 ≤ p) :
    Vm.pdeIndex va = va.toNat / PAGESIZE / 1024 ∧ (PtPlace.entry p (Vm.pdeIndex va) (Vm.pteIndex va)).User := by
  have hpde : Vm.pdeIndex va = va.toNat / PAGESIZE / 1024 := (Nat.div_div_eq_div_mul _ _ _).symm
  exact ⟨hpde, hpde ▸ h.user hp⟩

/-- What a copy for `p` keeps: isolation, and the mappings there are. -/
structure KeepsMaps (v t : Vm) (p : ℕ) : Prop where
  inv : Isolated t
  grows : Grows v t
  /-- A page that is mapped stays mapped to the same physical page. -/
  keep : ∀ q, UserPage q → v.Present p q → t.entryOf p q = v.entryOf p q

theorem KeepsMaps.refl (h : Isolated v) (p : ℕ) : KeepsMaps v v p := ⟨h, .refl v, fun _ _ _ => rfl⟩

theorem KeepsMaps.present (h : KeepsMaps v t p) (hq : UserPage q) (hp : v.Present p q) :
    t.Present p q := by
  rw [Vm.Present, h.keep q hq hp]
  exact hp

theorem KeepsMaps.trans (h : KeepsMaps v t p) (h' : KeepsMaps t u p) : KeepsMaps v u p :=
  ⟨h'.inv, h.grows.trans h'.grows, fun q hq hp => (h'.keep q hq (h.present hq hp)).trans (h.keep q hq hp)⟩

/-! ### One round -/

namespace Isolated

variable {v : Vm} {p q r : ℕ} {va : UInt32}

section

variable (h : Isolated v) (hp : 1 ≤ p)
include h hp

theorem entryOf_ge (hq : UserPage q) (hpres : v.Present p q) :
    262144 ≤ v.entryOf p q / PAGESIZE := by
  have h0 : v.entryAt p (q / 1024) (q % 1024) ≠ 0 := by
    intro e
    rw [Vm.Present, Vm.entryOf, e] at hpres
    omega
  have ho := h.owned (.entry p (q / 1024) (q % 1024)) (v.entryOf p q / PAGESIZE) (hq.user hp) (if_neg h0)
  exact (h.lt_of_isNorm ho.1).1

theorem translate_keeps (hq : UserPage (va.toNat / PAGESIZE)) :
    KeepsMaps v (v.translate p va).2 p ∧ (v.translate p va).1 = (v.translate p va).2.entryOf p (va.toNat / PAGESIZE) ∧
      ∀ q, UserPage q → q ≠ va.toNat / PAGESIZE → (v.translate p va).2.entryOf p q = v.entryOf p q := by
  unfold Vm.translate
  rw [v.getPtblEntryByVa_eq]
  by_cases hpres : v.entryOf p (va.toNat / PAGESIZE) % 2 = 0
  · rw [if_pos hpres]
    obtain ⟨hpde, hu⟩ := hq.place hp
    obtain ⟨hm, hg⟩ := h.allocPage hu (show PTE_P + PTE_U + PTE_W < PAGESIZE by decide)
    -- two different pages are at different places
    have hkeep : ∀ q, UserPage q → q ≠ va.toNat / PAGESIZE →
        (v.allocPage p va (PTE_P + PTE_U + PTE_W)).2.entryOf p q = v.entryOf p q := by
      intro q hq' hne
      refine hm.keep p (q / 1024) (q % 1024) (hq'.user hp) fun e => hne ?_
      rw [hpde] at e
      injection e with _ h2 h3
      have h3 : q % 1024 = va.toNat / PAGESIZE % 1024 := h3
      omega
    refine ⟨⟨hm.inv, hg, fun q hq' hpq => hkeep q hq' ?_⟩, Vm.getPtblEntryByVa_eq _ _ _, hkeep⟩
    rintro rfl
    rw [Vm.Present] at hpq
    omega
  · rw [if_neg hpres]
    exact ⟨.refl h p, rfl, fun _ _ _ => rfl⟩

theorem translate (hq : UserPage (va.toNat / PAGESIZE))
    (hroom : Room v.pmm p (2 * (if v.Present p (va.toNat / PAGESIZE) then 0 else 1) + r)) :
    (v.translate p va).2.Present p (va.toNat / PAGESIZE) ∧ Room (v.translate p va).2.pmm p r := by
  unfold Vm.translate
  rw [v.getPtblEntryByVa_eq]
  by_cases hpres : v.Present p (va.toNat / PAGESIZE)
  · have h1 : v.entryOf p (va.toNat / PAGESIZE) % 2 ≠ 0 := by
      rw [Vm.Present] at hpres
      omega
    rw [if_neg h1]
    rw [if_pos hpres] at hroom
    exact ⟨hpres, hroom.mono (by omega)⟩
  · have h1 : v.entryOf p (va.toNat / PAGESIZE) % 2 = 0 := by
      rw [Vm.Present] at hpres
      omega
    rw [if_pos h1]
    rw [if_neg hpres] at hroom
    obtain ⟨hpde, hu⟩ := hq.place hp
    obtain ⟨hm, -⟩ := h.allocPage hu (show PTE_P + PTE_U + PTE_W < PAGESIZE by decide)
    obtain ⟨hok, hroom'⟩ := (hroom.mono (show r + 2 ≤ _ by omega)).allocPage h va (PTE_P + PTE_U + PTE_W)
    obtain ⟨n, hn⟩ := hm.done hok
    refine ⟨?_, hroom'⟩
    rw [hpde] at hn
    have he : (v.allocPage p va (PTE_P + PTE_U + PTE_W)).2.entryOf p (va.toNat / PAGESIZE) = n * PAGESIZE + 7 := hn
    show (v.allocPage p va (PTE_P + PTE_U + PTE_W)).2.entryOf p (va.toNat / PAGESIZE) % 2 = 1
    rw [he]
    unfold PAGESIZE
    omega

theorem writeBytes (hq : UserPage q) (hpres : v.Present p q) {pa : ℕ}
    (hpa : pa / PAGESIZE = v.entryOf p q / PAGESIZE) (bytes : List UInt8) :
    Isolated (v.writeBytes pa bytes) ∧ Grows v (v.writeBytes pa bytes) ∧
      ∀ p' q, 1 ≤ p' → UserPage q → (v.writeBytes pa bytes).entryOf p' q = v.entryOf p' q := by
  have hge := h.entryOf_ge hp hq hpres
  have h0 : v.entryAt p (q / 1024) (q % 1024) ≠ 0 := by
    intro e
    rw [Vm.Present, Vm.entryOf, e] at hpres
    omega
  have hmem : ∀ page, page ≠ v.entryOf p q / PAGESIZE → (v.writeBytes pa bytes).mem page = v.mem page := by
    intro page hne
    exact Function.update_of_ne (by rwa [hpa]) _ _
  have hentry : ∀ p' i' j', (PtPlace.entry p' i' j').User →
      (v.writeBytes pa bytes).entryAt p' i' j' = v.entryAt p' i' j' := by
    rintro p' i' j' ⟨h1, h2, h3, -⟩
    unfold Vm.entryAt
    show (if v.pdir p' i' = 0 then 0 else (v.writeBytes pa bytes).word (v.pdir p' i' / PAGESIZE) j') = _
    by_cases hd : v.pdir p' i' = 0
    · rw [if_pos hd, if_pos hd]
    · -- the table is not the page written
      rw [if_neg hd, if_neg hd]
      refine Vm.word_congr (hmem _ fun e => ?_) j'
      have := h.inj (.table p' i') (.entry p (q / 1024) (q % 1024)) _ ⟨h1, h2, h3⟩ (hq.user hp) (if_neg hd)
        (by rw [e]; exact if_neg h0)
      cases this
  have hat : ∀ x : PtPlace, x.User → (v.writeBytes pa bytes).pageAt x = v.pageAt x := by
    intro x hx
    cases x with
    | table p' i' => rfl
    | entry p' i' j' => rw [Vm.pageAt, Vm.pageAt, hentry p' i' j' hx]
  refine ⟨⟨h.norm, h.kernel, fun x y n hx hy hxn hyn => ?_, fun x n hx hxn => ?_, h.ident, fun i hi j hj => ?_⟩,
    ⟨fun _ => rfl, fun _ hn => hn, fun x n hx hxn => ?_⟩, fun p' q' hp' hq' => hentry _ _ _ (hq'.user hp')⟩
  · rw [hat x hx] at hxn
    rw [hat y hy] at hyn
    exact h.inj x y n hx hy hxn hyn
  · rw [hat x hx] at hxn
    exact h.owned x n hx hxn
  · have := h.kernel
    have hpi : VM_USERLO_PI = 262144 := by decide
    show (v.writeBytes pa bytes).word (v.idptbl + i) j = _
    rw [Vm.word_congr (hmem _ (by omega)), h.idtbl i hi j hj]
  · rw [hat x hx] at hxn
    exact .inl hxn

end

end Isolated

/-! ### The loop -/

/-- The body of a copy loop reads, or stores within the page at hand. -/
def Harmless (memcpy : Vm → ℕ → ℕ → ℕ → Vm × List UInt8) : Prop :=
  ∀ v pa off size, (memcpy v pa off size).1 = v ∨ ∃ bytes, (memcpy v pa off size).1 = v.writeBytes pa bytes

theorem harmless_memcpyIn : Harmless Vm.memcpyIn := fun _ _ _ _ => .inl rfl

theorem harmless_memcpyOut (bytes : List UInt8) : Harmless (Vm.memcpyOut bytes) := fun _ _ _ _ => .inr ⟨_, rfl⟩

theorem harmless_memset (c : UInt8) : Harmless (Vm.memset c) := fun _ _ _ _ => .inr ⟨_, rfl⟩

/-- A copy of `len` bytes at `uva` has accessed exactly those bytes, through mappings of the process. -/
structure CopyDone (v : Vm) (p uva len : ℕ) (r : Copied) : Prop where
  keeps : KeepsMaps v r.vm p
  copied : r.copied = len
  present : ∀ a, uva ≤ a → a < uva + len → r.vm.Present p (a / PAGESIZE)
  touched : r.touched = (List.range' uva len).map (r.vm.physOf p)

theorem copyDone_zero (h : Isolated v) (p uva : ℕ) : CopyDone v p uva 0 ⟨0, [], [], v⟩ :=
  ⟨.refl h p, rfl, fun a h1 h2 => by omega, rfl⟩

theorem copyLoop_zero (p : ℕ) (memcpy : Vm → ℕ → ℕ → ℕ → Vm × List UInt8) (fuel : ℕ) (v : Vm) (uva : UInt32) (off : ℕ) :
    Vm.copyLoop p memcpy fuel v uva off 0 = ⟨0, [], [], v⟩ := by
  cases fuel with
  | zero => rfl
  | succ fuel => rfl

theorem map_range'_eq {f : ℕ → ℕ} {s s' : ℕ} (h : ∀ k < n, f (s + k) = s' + k) :
    (List.range' s n).map f = List.range' s' n := by
  refine ext_getElem (by simp) fun k h1 h2 => ?_
  simp only [getElem_map, getElem_range', Nat.one_mul]
  exact h k (by simpa using h2)

theorem chunk_spec (pa : ℕ) (hl : len ≠ 0) :
    0 < Vm.chunk pa len ∧ Vm.chunk pa len ≤ len ∧ pa % PAGESIZE + Vm.chunk pa len ≤ PAGESIZE ∧
      (Vm.chunk pa len = len ∨ pa % PAGESIZE + Vm.chunk pa len = PAGESIZE) := by
  have := Nat.mod_lt pa (show 0 < PAGESIZE by decide)
  unfold Vm.chunk
  split_ifs <;> omega

theorem toNat_add_size (hle : size ≤ len) (hhi : uva.toNat + len ≤ VM_USERHI) :
    (uva + UInt32.ofNat size).toNat = uva.toNat + size := by
  unfold VM_USERHI at hhi
  rw [UInt32.toNat_add, UInt32.toNat_ofNat_of_lt' (by unfold UInt32.size; omega), Nat.mod_eq_of_lt (by omega)]

theorem Harmless.keeps (hmem : Harmless memcpy) (h : Isolated t)
    (hp : 1 ≤ p) (hq : UserPage q) (hpres : t.Present p q) {pa : ℕ}
    (hpa : pa / PAGESIZE = t.entryOf p q / PAGESIZE) (off size : ℕ) :
    KeepsMaps t (memcpy t pa off size).1 p ∧ (memcpy t pa off size).1.pmm = t.pmm ∧
      ∀ q, UserPage q → (memcpy t pa off size).1.entryOf p q = t.entryOf p q := by
  rcases hmem t pa off size with he | ⟨bytes, he⟩
  · rw [he]
    exact ⟨.refl h p, rfl, fun _ _ => rfl⟩
  · rw [he]
    obtain ⟨hi, hg, hk⟩ := h.writeBytes hp hq hpres hpa bytes
    exact ⟨⟨hi, hg, fun q hq' _ => hk p q hp hq'⟩, rfl, fun q => hk p q hp⟩

/-- One round of the loop for `p`: `size` of the `len` bytes at `uva` are in the page at hand, which `t` has mapped. -/
structure Round (v t : Vm) (p uva len size : ℕ) : Prop where
  pos : 0 < size
  le : size ≤ len
  page : uva % PAGESIZE + size ≤ PAGESIZE
  user : UserPage (uva / PAGESIZE)
  present : t.Present p (uva / PAGESIZE)
  keeps : KeepsMaps v t p

theorem Round.div_eq {uva : ℕ} (h : Round v t p uva len size) {x : ℕ} (hx : x < size) :
    (uva + x) / PAGESIZE = uva / PAGESIZE ∧ (uva + x) % PAGESIZE = uva % PAGESIZE + x := by
  have := h.page
  unfold PAGESIZE at *
  omega

theorem physOf_div (v : Vm) (p a : ℕ) : v.physOf p a / PAGESIZE = v.entryOf p (a / PAGESIZE) / PAGESIZE := by
  unfold Vm.physOf PAGESIZE
  omega

theorem physOf_mod (v : Vm) (p a : ℕ) : v.physOf p a % PAGESIZE = a % PAGESIZE := by
  unfold Vm.physOf PAGESIZE
  omega

/-- One round keeps `P`, from the rest of the copy to the whole of it. -/
def RoundKeeps (p : ℕ) (memcpy : Vm → ℕ → ℕ → ℕ → Vm × List UInt8) (P : Vm → ℕ → ℕ → ℕ → Copied → Prop) : Prop :=
  ∀ (v : Vm) (uva : UInt32) (off len size : ℕ) (rest : Copied), Isolated v →
    let t := (v.translate p uva).2
    let pa := t.physOf p uva.toNat
    Round v t p uva.toNat len size → P (memcpy t pa off size).1 (uva.toNat + size) (off + size) (len - size) rest →
    P v uva.toNat off len
      ⟨size + rest.copied, List.range' pa size ++ rest.touched, (memcpy t pa off size).2 ++ rest.bytes, rest.vm⟩

theorem copyLoop_induct (hmem : Harmless memcpy) (hp : 1 ≤ p)
    {J : Vm → UInt32 → ℕ → ℕ → Prop}
    (present : ∀ (v : Vm) (uva : UInt32) (off len : ℕ), Isolated v → UserPage (uva.toNat / PAGESIZE) → len ≠ 0 → J v uva off len →
      (v.translate p uva).2.Present p (uva.toNat / PAGESIZE))
    (next : ∀ (v : Vm) (uva : UInt32) (off len : ℕ), Isolated v → UserPage (uva.toNat / PAGESIZE) → len ≠ 0 →
      uva.toNat + len ≤ VM_USERHI → J v uva off len →
      let pa := (v.translate p uva).2.physOf p uva.toNat
      J (memcpy (v.translate p uva).2 pa off (Vm.chunk pa len)).1 (uva + UInt32.ofNat (Vm.chunk pa len)) (off + Vm.chunk pa len)
        (len - Vm.chunk pa len))
    (zero : ∀ v uva off, Isolated v → J v uva off 0 → P v uva.toNat off 0 ⟨0, [], [], v⟩)
    (round : RoundKeeps p memcpy P)
    (hfuel : len ≤ fuel) (h : Isolated v) (hlo : VM_USERLO ≤ uva.toNat)
    (hhi : uva.toNat + len ≤ VM_USERHI) {off : ℕ} (hJ : J v uva off len) :
    P v uva.toNat off len (Vm.copyLoop p memcpy fuel v uva off len) := by
  induction fuel generalizing v uva len off with
  | zero =>
    obtain rfl : len = 0 := by omega
    exact zero v _ off h hJ
  | succ fuel ih =>
    by_cases hl : len = 0
    · subst hl
      rw [copyLoop_zero]
      exact zero v _ off h hJ
    have hq : UserPage (uva.toNat / PAGESIZE) := by
      unfold UserPage PAGESIZE
      unfold VM_USERLO at hlo
      unfold VM_USERHI at hhi
      omega
    have hpres := present v uva off len h hq hl hJ
    have hnext := next v uva off len h hq hl hhi hJ
    obtain ⟨hk, he, -⟩ := h.translate_keeps hp hq
    have hpa : Vm.physAddr (v.translate p uva).1 uva = (v.translate p uva).2.physOf p uva.toNat := by
      rw [Vm.physAddr, he, Vm.physOf]
    rw [Vm.copyLoop, if_neg hl]
    dsimp only at hnext ⊢
    rw [hpa]
    have hround := round v uva off len
    set t := (v.translate p uva).2
    set pa := t.physOf p uva.toNat
    obtain ⟨hpos, hle, hpage, -⟩ := chunk_spec pa hl
    set size := Vm.chunk pa len
    rw [physOf_mod] at hpage
    obtain ⟨hku, -, -⟩ := hmem.keeps hk.inv hp hq hpres (physOf_div t p uva.toNat) off size
    have hsum := toNat_add_size hle hhi
    have hrest := ih (by omega) hku.inv (by omega) (by omega) hnext
    rw [hsum] at hrest
    exact hround size _ h ⟨hpos, hle, hpage, hq, hpres, hk⟩ hrest

theorem Room.next (hmem : Harmless memcpy) (hp : 1 ≤ p) (h : Isolated v)
    (hq : UserPage (uva.toNat / PAGESIZE)) (hl : len ≠ 0) (hhi : uva.toNat + len ≤ VM_USERHI)
    (hroom : Room v.pmm p (2 * v.missing p (uva.toNat / PAGESIZE) ((uva.toNat + len + 4095) / PAGESIZE) + k)) (off : ℕ) :
    (v.translate p uva).2.Present p (uva.toNat / PAGESIZE) ∧
      let pa := (v.translate p uva).2.physOf p uva.toNat
      let u := (memcpy (v.translate p uva).2 pa off (Vm.chunk pa len)).1
      let uva' := uva + UInt32.ofNat (Vm.chunk pa len)
      Room u.pmm p (2 * u.missing p (uva'.toNat / PAGESIZE) ((uva'.toNat + (len - Vm.chunk pa len) + 4095) / PAGESIZE) + k) := by
  have hlt : uva.toNat / PAGESIZE < (uva.toNat + len + 4095) / PAGESIZE := by
    unfold PAGESIZE
    omega
  rw [v.missing_of_lt p hlt, Nat.mul_add, Nat.add_assoc] at hroom
  obtain ⟨hpres, hroom'⟩ := h.translate hp hq hroom
  obtain ⟨hk, -, hother⟩ := h.translate_keeps hp hq
  refine ⟨hpres, ?_⟩
  dsimp only
  set t := (v.translate p uva).2
  set pa := t.physOf p uva.toNat
  obtain ⟨hpos, hle, -, hend⟩ := chunk_spec pa hl
  set size := Vm.chunk pa len
  rw [physOf_mod] at hend
  obtain ⟨-, hpmm, hentry⟩ := hmem.keeps hk.inv hp hq hpres (physOf_div t p uva.toNat) off size
  set u := (memcpy t pa off size).1
  rw [toNat_add_size hle hhi, show uva.toNat + size + (len - size) = uva.toNat + len by omega, hpmm]
  -- what is missing of the rest was missing before
  refine hroom'.mono ?_
  have hsub : u.missing p ((uva.toNat + size) / PAGESIZE) ((uva.toNat + len + 4095) / PAGESIZE) ≤
      v.missing p (uva.toNat / PAGESIZE + 1) ((uva.toNat + len + 4095) / PAGESIZE) := by
    refine Finset.card_le_card fun q hqm => ?_
    obtain ⟨hqm, hmiss⟩ := Finset.mem_filter.mp hqm
    rw [Finset.mem_Ico] at hqm
    have hq' : UserPage q := by
      unfold UserPage
      unfold VM_USERHI at hhi
      unfold UserPage at hq
      unfold PAGESIZE at *
      omega
    have hne : q ≠ uva.toNat / PAGESIZE := by
      rintro rfl
      rw [Vm.Present, hentry _ hq] at hmiss
      exact hmiss hpres
    refine Finset.mem_filter.mpr ⟨Finset.mem_Ico.mpr ⟨?_, hqm.2⟩, ?_⟩
    · unfold PAGESIZE at *
      omega
    · rwa [Vm.Present, ← hother q hq' hne, ← hentry q hq']
  omega

theorem copyLoop_rule (hmem : Harmless memcpy) (hp : 1 ≤ p)
    (zero : ∀ v uva off, Isolated v → P v uva off 0 ⟨0, [], [], v⟩)
    (round : RoundKeeps p memcpy P)
    (hfuel : len ≤ fuel) (h : Isolated v) (hlo : VM_USERLO ≤ uva.toNat)
    (hhi : uva.toNat + len ≤ VM_USERHI)
    (hroom : Room v.pmm p (2 * v.missing p (uva.toNat / PAGESIZE) ((uva.toNat + len + 4095) / PAGESIZE) + k)) (off : ℕ) :
    P v uva.toNat off len (Vm.copyLoop p memcpy fuel v uva off len) ∧
      Room (Vm.copyLoop p memcpy fuel v uva off len).vm.pmm p k := by
  refine copyLoop_induct hmem hp
    (J := fun v uva _ len => uva.toNat + len ≤ VM_USERHI ∧
      Room v.pmm p (2 * v.missing p (uva.toNat / PAGESIZE) ((uva.toNat + len + 4095) / PAGESIZE) + k))
    (P := fun v uva off len r => P v uva off len r ∧ Room r.vm.pmm p k)
    (fun v uva off len hv hq hl hJ => (hJ.2.next hmem hp hv hq hl hJ.1 off).1)
    (fun v uva off len hv hq hl hhi hJ => ⟨?_, (hJ.2.next hmem hp hv hq hl hhi off).2⟩)
    (fun v uva off hv hJ => ⟨zero v _ off hv, hJ.2.mono (by omega)⟩)
    (fun v uva off len size rest hv hr hP => ⟨round v uva off len size rest hv hr hP.1, hP.2⟩) hfuel h hlo hhi ⟨hhi, hroom⟩
  obtain ⟨-, hle, -, -⟩ := chunk_spec ((v.translate p uva).2.physOf p uva.toNat) hl
  unfold VM_USERHI at hhi ⊢
  rw [UInt32.toNat_add, UInt32.toNat_ofNat_of_lt' (by unfold UInt32.size; omega), Nat.mod_eq_of_lt (by omega)]
  omega

theorem CopyDone.round {uva : ℕ} {rest : Copied} (h : Round v t p uva len size)
    (hku : KeepsMaps t u p) (hd : CopyDone u p (uva + size) (len - size) rest) (bytes : List UInt8) :
    CopyDone v p uva len ⟨size + rest.copied, List.range' (t.physOf p uva) size ++ rest.touched, bytes, rest.vm⟩ := by
  have hfirst : rest.vm.entryOf p (uva / PAGESIZE) = t.entryOf p (uva / PAGESIZE) := by
    rw [hd.keeps.keep _ h.user (hku.present h.user h.present), hku.keep _ h.user h.present]
  have hle := h.le
  refine ⟨(h.keeps.trans hku).trans hd.keeps, ?_, fun a h1 h2 => ?_, ?_⟩
  · show size + rest.copied = len
    rw [hd.copied]
    omega
  · by_cases ha : a < uva + size
    · obtain ⟨hdiv, -⟩ := h.div_eq (x := a - uva) (by omega)
      rw [show uva + (a - uva) = a by omega] at hdiv
      rw [hdiv, Vm.Present, hfirst]
      exact h.present
    · exact hd.present a (by omega) (by omega)
  · show List.range' (t.physOf p uva) size ++ rest.touched = _
    rw [hd.touched, show len = size + (len - size) by omega, ← List.range'_append_1, map_append]
    congr 1
    · refine (map_range'_eq fun k hk' => ?_).symm
      obtain ⟨hdiv, hmod⟩ := h.div_eq hk'
      rw [Vm.physOf, hdiv, hmod, hfirst, Vm.physOf]
      omega
    · rw [show size + (len - size) - size = len - size by omega]

theorem copyLoop_spec (hmem : Harmless memcpy) (hp : 1 ≤ p)
    (hfuel : len ≤ fuel) (h : Isolated v) (hlo : VM_USERLO ≤ uva.toNat)
    (hhi : uva.toNat + len ≤ VM_USERHI)
    (hroom : Room v.pmm p (2 * v.missing p (uva.toNat / PAGESIZE) ((uva.toNat + len + 4095) / PAGESIZE) + k)) (off : ℕ) :
    CopyDone v p uva.toNat len (Vm.copyLoop p memcpy fuel v uva off len) ∧
      Room (Vm.copyLoop p memcpy fuel v uva off len).vm.pmm p k := by
  refine copyLoop_rule hmem hp (P := fun v uva _ len r => CopyDone v p uva len r) (fun v uva _ h => copyDone_zero h p uva)
    (fun v uva off len size rest _ hr hd => ?_) hfuel h hlo hhi hroom off
  obtain ⟨hku, -, -⟩ := hmem.keeps hr.keeps.inv hp hr.user hr.present (physOf_div _ _ _) off size
  exact CopyDone.round hr hku hd _

/-! ### The calls -/

/-- A page that belongs to process `p`: it is allocated, and no other process has it, nor is it a page table. -/
structure Owned (v : Vm) (p n : ℕ) : Prop where
  norm : v.pmm.table.isNorm n = true
  allocated : v.pmm.table.allocated n = true
  /-- Only entries of the page tables of `p` name it. -/
  only : ∀ x, x.User → v.pageAt x = some n → ∃ i j, x = .entry p i j

theorem Owned.grows (h : Owned v p n) (hg : Grows v t) : Owned t p n := by
  refine ⟨(hg.norm n).trans h.norm, hg.keep n h.allocated, fun x hx hxn => ?_⟩
  rcases hg.old x n hx hxn with ho | ho
  · exact h.only x hx ho
  · rw [h.allocated] at ho
    cases ho

theorem Isolated.owned_of_present (h : Isolated v) (hp : 1 ≤ p) (hq : UserPage q)
    (hpres : v.Present p q) : Owned v p (v.entryOf p q / PAGESIZE) := by
  have h0 : v.entryAt p (q / 1024) (q % 1024) ≠ 0 := by
    intro e
    rw [Vm.Present, Vm.entryOf, e] at hpres
    omega
  have hat : v.pageAt (.entry p (q / 1024) (q % 1024)) = some (v.entryOf p q / PAGESIZE) := if_neg h0
  obtain ⟨hn, ha⟩ := h.owned _ _ (hq.user hp) hat
  exact ⟨hn, ha, fun x hx hxn => ⟨_, _, h.inj x _ _ hx (hq.user hp) hxn hat⟩⟩

/-- A call has accessed only pages that belong to `p`. -/
structure SafeCopy (v : Vm) (p : ℕ) (r : Copied) : Prop where
  inv : Isolated r.vm
  grows : Grows v r.vm
  owned : ∀ a ∈ r.touched, Owned r.vm p (a / PAGESIZE)

theorem safeCopy_none (h : Isolated v) (p : ℕ) : SafeCopy v p ⟨0, [], [], v⟩ :=
  ⟨h, .refl v, fun _ ha => by simp at ha⟩

theorem SafeCopy.append {r r' : Copied} (h : SafeCopy v p r) (h' : SafeCopy r.vm p r') (c : ℕ)
    (bytes : List UInt8) : SafeCopy v p ⟨c, r.touched ++ r'.touched, bytes, r'.vm⟩ := by
  refine ⟨h'.inv, h.grows.trans h'.grows, fun a ha => ?_⟩
  rcases mem_append.mp ha with ha | ha
  · exact (h.owned a ha).grows h'.grows
  · exact h'.owned a ha

theorem CopyDone.safe {uva : ℕ} {r : Copied} (h : CopyDone v p uva len r) (hp : 1 ≤ p)
    (hlo : VM_USERLO ≤ uva) (hhi : uva + len ≤ VM_USERHI) : SafeCopy v p r := by
  refine ⟨h.keeps.inv, h.keeps.grows, fun a ha => ?_⟩
  rw [h.touched, mem_map] at ha
  obtain ⟨b, hb, rfl⟩ := ha
  rw [mem_range'_1] at hb
  have hq : UserPage (b / PAGESIZE) := by
    unfold UserPage PAGESIZE
    unfold VM_USERLO at hlo
    unfold VM_USERHI at hhi
    omega
  rw [physOf_div]
  exact h.keeps.inv.owned_of_present hp hq (h.present b hb.1 hb.2)

/-- The condition on a range of virtual addresses: its end does not wrap around, and if it is in user memory, there is
room for the pages of it that are not mapped. -/
def Fits (v : Vm) (p uva len : ℕ) : Prop :=
  uva + len < 2 ^ 32 ∧ (VM_USERLO ≤ uva → uva + len ≤ VM_USERHI →
    Room v.pmm p (2 * v.missing p (uva / PAGESIZE) ((uva + len + 4095) / PAGESIZE)))

/-- The copy was refused, or it has accessed the range and nothing else. -/
def Exact (v : Vm) (p uva len : ℕ) (r : Copied) : Prop :=
  r = ⟨0, [], [], v⟩ ∨ VM_USERLO ≤ uva ∧ uva + len ≤ VM_USERHI ∧ CopyDone v p uva len r

theorem Exact.safe {uva : ℕ} {r : Copied} (h : Exact v p uva len r) (hi : Isolated v) (hp : 1 ≤ p) :
    SafeCopy v p r := by
  rcases h with rfl | ⟨hlo, hhi, hd⟩
  · exact safeCopy_none hi p
  · exact hd.safe hp hlo hhi

theorem exact_of_rangeOk (hmem : Harmless memcpy) (h : Isolated v)
    (hp : 1 ≤ p) (uva kva len : UInt32) (hf : Fits v p uva.toNat len.toNat) :
    Exact v p uva.toNat len.toNat
      (if Vm.rangeOk uva kva len then Vm.copyLoop p memcpy len.toNat v uva 0 len.toNat else ⟨0, [], [], v⟩) := by
  split_ifs with hr
  · have hsum : (uva + len).toNat = uva.toNat + len.toNat := by
      rw [UInt32.toNat_add, Nat.mod_eq_of_lt hf.1]
    simp only [Vm.rangeOk, Bool.and_eq_true, decide_eq_true_eq, hsum] at hr
    obtain ⟨⟨hlo, hhi⟩, -⟩ := hr
    exact .inr ⟨hlo, hhi, (copyLoop_spec hmem hp le_rfl h hlo hhi (k := 0) (hf.2 hlo hhi) 0).1⟩
  · exact .inl rfl

/-! ### Loading an executable -/

/-- The condition on a segment: it is in user memory. -/
structure ProgHdr.Ok (ph : ProgHdr) : Prop where
  lo : VM_USERLO ≤ ph.va.toNat
  hi : ph.va.toNat + ph.memsz.toNat ≤ VM_USERHI

def ProgHdr.pages (ph : ProgHdr) : ℕ :=
  if ph.load then (ph.va.toNat + ph.memsz.toNat + 4095) / PAGESIZE - ph.va.toNat / PAGESIZE else 0

theorem toNat_roundDown (n : UInt32) : (roundDown n).toNat = n.toNat / PAGESIZE * PAGESIZE := by
  have hle : n % 4096 ≤ n := by
    rw [UInt32.le_iff_toNat_le, UInt32.toNat_mod]
    exact Nat.mod_le _ _
  have h4096 : (4096 : UInt32).toNat = 4096 := by decide
  rw [roundDown, UInt32.toNat_sub_of_le _ _ hle, UInt32.toNat_mod, h4096]
  unfold PAGESIZE
  omega

theorem ProgHdr.Ok.toNat_roundUp {ph : ProgHdr} (hph : ph.Ok) :
    (roundUp (ph.va + ph.memsz)).toNat = (ph.va.toNat + ph.memsz.toNat + 4095) / PAGESIZE * PAGESIZE := by
  have hhi := hph.hi
  unfold VM_USERHI at hhi
  have h4095 : (4095 : UInt32).toNat = 4095 := by decide
  have hsum : (ph.va + ph.memsz).toNat = ph.va.toNat + ph.memsz.toNat := by
    rw [UInt32.toNat_add, Nat.mod_eq_of_lt (by omega)]
  rw [roundUp, toNat_roundDown, UInt32.toNat_add, hsum, h4095, Nat.mod_eq_of_lt (by omega)]

theorem missing_of_present (h : v.Present p q) : v.missing p q (q + 1) = 0 := by
  rw [v.missing_of_lt p (Nat.lt_succ_self q), if_pos h]
  simp [Vm.missing]

section Load

variable {v : Vm} {p q k : ℕ} {va : UInt32}

variable {memcpy : Vm → ℕ → ℕ → ℕ → Vm × List UInt8} {len : ℕ} {r : Copied}

theorem copyLoop_page (hmem : Harmless memcpy) (hp : 1 ≤ p) (h : Isolated v)
    (hva : va.toNat = q * PAGESIZE) (hq : UserPage q) (hpres : v.Present p q) (hlen : len ≤ PAGESIZE)
    (hroom : Room v.pmm p k) :
    CopyDone v p va.toNat len (Vm.copyLoop p memcpy len v va 0 len) ∧
      Room (Vm.copyLoop p memcpy len v va 0 len).vm.pmm p k := by
  by_cases h0 : len = 0
  · subst h0
    exact ⟨copyDone_zero h p _, hroom⟩
  obtain ⟨hlo, hhi⟩ := hq
  have h1 : va.toNat / PAGESIZE = q := by
    rw [hva]
    exact Nat.mul_div_cancel q (by decide)
  have h2 : (va.toNat + len + 4095) / PAGESIZE = q + 1 := by
    rw [hva]
    unfold PAGESIZE at hlen ⊢
    omega
  refine copyLoop_spec hmem hp le_rfl h ?_ ?_ ?_ 0
  · unfold VM_USERLO
    unfold PAGESIZE at hva
    omega
  · unfold VM_USERHI
    unfold PAGESIZE at hva hlen
    omega
  · rw [h1, h2, missing_of_present hpres]
    simpa using hroom

/-- A safe call that leaves room for `k` calls of `container_alloc`. -/
def Loads (v : Vm) (p k : ℕ) (r : Copied) : Prop := SafeCopy v p r ∧ Room r.vm.pmm p k

theorem loads_copyLoop (hmem : Harmless memcpy) (hp : 1 ≤ p) (h : Isolated v)
    (hva : va.toNat = q * PAGESIZE) (hq : UserPage q) (hpres : v.Present p q) (hlen : len ≤ PAGESIZE)
    (hroom : Room v.pmm p k) :
    Loads v p k (Vm.copyLoop p memcpy len v va 0 len) ∧ (Vm.copyLoop p memcpy len v va 0 len).vm.Present p q := by
  obtain ⟨hd, hr⟩ := copyLoop_page hmem hp h hva hq hpres hlen hroom
  have hq' := hq
  obtain ⟨hlo, hhi⟩ := hq'
  refine ⟨⟨hd.safe hp ?_ ?_, hr⟩, hd.keeps.present hq hpres⟩
  · unfold VM_USERLO
    unfold PAGESIZE at hva
    omega
  · unfold VM_USERHI
    unfold PAGESIZE at hva hlen
    omega

theorem loads_ptCopyout (hp : 1 ≤ p) (h : Isolated v) (hva : va.toNat = q * PAGESIZE) (hq : UserPage q)
    (hpres : v.Present p q) (kva : UInt32) {bytes : List UInt8} (hlen : bytes.length ≤ PAGESIZE) (hroom : Room v.pmm p k) :
    Loads v p k (v.ptCopyout p kva va bytes) := by
  unfold Vm.ptCopyout
  split_ifs
  · exact (loads_copyLoop (harmless_memcpyOut bytes) hp h hva hq hpres hlen hroom).1
  · exact ⟨safeCopy_none h p, hroom⟩

theorem Loads.append {r' : Copied} (h : SafeCopy v p r) (h' : Loads r.vm p k r') (c : ℕ) (bytes : List UInt8) :
    Loads v p k ⟨c, r.touched ++ r'.touched, bytes, r'.vm⟩ :=
  ⟨h.append h'.1 c bytes, h'.2⟩

theorem Loads.after {t : Vm} (h : Loads t p k r) (hg : Grows v t) : Loads v p k r :=
  ⟨⟨h.1.inv, hg.trans h.1.grows, h.1.owned⟩, h.2⟩

theorem loads_loadPage (hp : 1 ≤ p) (h : Isolated v) (hva : va.toNat = q * PAGESIZE) (hq : UserPage q)
    (hroom : Room v.pmm p (k + 2)) (image : ℕ → UInt8) (ph : ProgHdr) (fa : UInt32) :
    Loads v p k (v.loadPage p image ph fa va) := by
  unfold Vm.loadPage
  dsimp only
  set perm := if ph.write then PTE_U + PTE_P + PTE_W else PTE_U + PTE_P with hperm
  have hodd : perm < PAGESIZE ∧ perm % 2 = 1 := by
    rw [hperm]
    split_ifs <;> decide
  have hdiv : va.toNat / PAGESIZE = q := by
    rw [hva]
    exact Nat.mul_div_cancel q (by decide)
  have hpde : Vm.pdeIndex va = q / 1024 := by
    rw [← hdiv]
    exact (Nat.div_div_eq_div_mul _ _ _).symm
  have hpte : Vm.pteIndex va = q % 1024 := by
    rw [← hdiv]
    rfl
  have hu : (PtPlace.entry p (Vm.pdeIndex va) (Vm.pteIndex va)).User := by
    rw [hpde, hpte]
    exact hq.user hp
  obtain ⟨hm, hg⟩ := h.allocPage hu hodd.1
  obtain ⟨hok, hroom'⟩ := hroom.allocPage h va perm
  obtain ⟨n, hn⟩ := hm.done hok
  set t := (v.allocPage p va perm).2
  have hpres : t.Present p q := by
    rw [hpde, hpte] at hn
    have he : t.entryOf p q = n * PAGESIZE + perm := hn
    show t.entryOf p q % 2 = 1
    rw [he]
    have := hodd.2
    unfold PAGESIZE
    omega
  obtain ⟨hz, hzp⟩ := loads_copyLoop (harmless_memset 0) hp hm.inv hva hq hpres (show 4096 ≤ PAGESIZE from le_rfl) hroom'
  refine Loads.after ?_ hg
  split_ifs with h1 h2
  · refine loads_ptCopyout hp hm.inv hva hq hpres fa ?_ hroom'
    rw [length_map, length_range]
  · -- the last page of the file: zeros first, and then the bytes that are left
    refine Loads.append hz.1 (loads_ptCopyout hp hz.1.inv hva hq hzp fa ?_ hz.2) _ _
    have hle := UInt32.le_of_lt h2.1
    rw [UInt32.lt_iff_toNat_lt, toNat_roundDown] at h1
    rw [length_map, length_range, UInt32.toNat_sub_of_le _ _ hle]
    unfold PAGESIZE at h1 hva ⊢
    omega
  · exact hz

theorem loads_loadPages (hp : 1 ≤ p) (image : ℕ → UInt8) {ph : ProgHdr} (hph : ph.Ok) (fuel : ℕ) (fa : UInt32)
    (h : Isolated v) (hva : va.toNat = q * PAGESIZE) (hq : 262144 ≤ q)
    (hroom : Room v.pmm p (2 * ((ph.va.toNat + ph.memsz.toNat + 4095) / PAGESIZE - q) + k)) :
    Loads v p k (Vm.loadPages p image ph fuel v fa va) := by
  induction fuel generalizing v fa va q with
  | zero => exact ⟨safeCopy_none h p, hroom.mono (by omega)⟩
  | succ fuel ih =>
    rw [Vm.loadPages]
    split_ifs with hlt
    · have hhi := hph.hi
      unfold VM_USERHI at hhi
      rw [UInt32.lt_iff_toNat_lt, hph.toNat_roundUp, hva] at hlt
      have hlt := Nat.lt_of_mul_lt_mul_right hlt
      have hq' : UserPage q := by
        refine ⟨hq, ?_⟩
        unfold PAGESIZE at hlt
        omega
      have hr := loads_loadPage hp h hva hq' (hroom.mono
        (show 2 * ((ph.va.toNat + ph.memsz.toNat + 4095) / PAGESIZE - (q + 1)) + k + 2 ≤ _ by omega)) image ph fa
      refine Loads.append hr.1 (ih (q := q + 1) (fa + 4096) hr.1.inv ?_ (by omega) hr.2) _ _
      have h4096 : (4096 : UInt32).toNat = 4096 := by decide
      have := hq'.2
      rw [UInt32.toNat_add, h4096, hva]
      unfold PAGESIZE
      omega
    · exact ⟨safeCopy_none h p, hroom.mono (by omega)⟩

theorem loads_elfLoad (hp : 1 ≤ p) (image : ℕ → UInt8) (exe : UInt32) {phs : List ProgHdr}
    (hphs : ∀ ph ∈ phs, ph.load = true → ph.Ok) (h : Isolated v)
    (hroom : Room v.pmm p (2 * (phs.map ProgHdr.pages).sum)) : SafeCopy v p (v.elfLoad p image exe phs) := by
  induction phs generalizing v with
  | nil => exact safeCopy_none h p
  | cons ph phs ih =>
    rw [map_cons, sum_cons, Nat.mul_add] at hroom
    have hr : Loads v p (2 * (phs.map ProgHdr.pages).sum)
        (if ph.load then Vm.loadPages p image ph (2 ^ 20) v (exe + roundDown ph.offset) (roundDown ph.va)
          else ⟨0, [], [], v⟩) := by
      split_ifs with hl
      · have hpages : ph.pages = (ph.va.toNat + ph.memsz.toNat + 4095) / PAGESIZE - ph.va.toNat / PAGESIZE := if_pos hl
        rw [hpages] at hroom
        have hok := hphs ph (by simp) hl
        have hlo := hok.lo
        refine loads_loadPages hp image hok (2 ^ 20) _ h (toNat_roundDown _) ?_ hroom
        unfold VM_USERLO at hlo
        unfold PAGESIZE
        omega
      · exact ⟨safeCopy_none h p, hroom.mono (by omega)⟩
    exact hr.1.append (ih (fun ph' hph' => hphs ph' (by simp [hph'])) hr.1.inv hr.2) _ _

end Load

/-! ### Every call -/

/-- A call that copies between the kernel and user memory. -/
inductive CopyCall where
  /-- `pt_copyin`. -/
  | copyin (uva kva len : UInt32)
  /-- `pt_copyout`. -/
  | copyout (kva uva : UInt32) (bytes : List UInt8)
  /-- `sys_read`, with the bytes of the file. -/
  | read (kva userBuf n : UInt32) (data : List UInt8)
  /-- `sys_write`. -/
  | write (kva userBuf n : UInt32)
  /-- `sys_pipe`, with the two descriptors. -/
  | pipe (kva addr : UInt32) (fds : List UInt8)
  /-- `elf_load`, with the program headers of the image. -/
  | load (image : ℕ → UInt8) (exe : UInt32) (phs : List ProgHdr)

/-- The call made for `p`. -/
def CopyCall.run (v : Vm) (p : ℕ) : CopyCall → Copied
  | .copyin uva kva len => v.ptCopyin p uva kva len
  | .copyout kva uva bytes => v.ptCopyout p kva uva bytes
  | .read kva userBuf n data => v.sysRead p kva userBuf n data
  | .write kva userBuf n => v.sysWrite p kva userBuf n
  | .pipe kva addr fds => v.sysPipe p kva addr fds
  | .load image exe phs => v.elfLoad p image exe phs

/-- The range that a call is for, other than `elf_load`. -/
def CopyCall.range : CopyCall → Option (ℕ × ℕ)
  | .copyin uva _ len => some (uva.toNat, len.toNat)
  | .copyout _ uva bytes => some (uva.toNat, bytes.length)
  | .read _ userBuf _ data => some (userBuf.toNat, data.length)
  | .write _ userBuf n => some (userBuf.toNat, n.toNat)
  | .pipe _ addr fds => some (addr.toNat, fds.length)
  | .load _ _ _ => none

/-- The condition on a call: the range does not wrap around, and the quota and the free pages suffice. For `elf_load`,
the segments are in user memory. -/
def CopyCall.Fits (v : Vm) (p : ℕ) : CopyCall → Prop
  | .copyin uva _ len => Memory.Fits v p uva.toNat len.toNat
  | .copyout _ uva bytes => Memory.Fits v p uva.toNat bytes.length
  | .read _ userBuf _ data => Memory.Fits v p userBuf.toNat data.length
  | .write _ userBuf n => Memory.Fits v p userBuf.toNat n.toNat
  | .pipe _ addr fds => Memory.Fits v p addr.toNat fds.length
  | .load _ _ phs => (∀ ph ∈ phs, ph.load = true → ph.Ok) ∧ Room v.pmm p (2 * (phs.map ProgHdr.pages).sum)

theorem exact_run (h : Isolated v) (hp : 1 ≤ p) (hc : c.Fits v p) {uva : ℕ}
    (hr : c.range = some (uva, len)) : Exact v p uva len (c.run v p) := by
  have hout : ∀ (kva u : UInt32) (bytes : List UInt8), Memory.Fits v p u.toNat bytes.length →
      Exact v p u.toNat bytes.length (v.ptCopyout p kva u bytes) := by
    intro kva u bytes hf
    have hlen : (UInt32.ofNat bytes.length).toNat = bytes.length := UInt32.toNat_ofNat_of_lt' (lt_of_le_of_lt (Nat.le_add_left _ _) hf.1)
    have := exact_of_rangeOk (harmless_memcpyOut bytes) h hp u kva (UInt32.ofNat bytes.length) (by rwa [hlen])
    rwa [hlen] at this
  have hin : ∀ u kva n : UInt32, Memory.Fits v p u.toNat n.toNat → Exact v p u.toNat n.toNat (v.ptCopyin p u kva n) :=
    fun u kva n hf => exact_of_rangeOk harmless_memcpyIn h hp u kva n hf
  cases c with
  | copyin u kva n =>
    obtain ⟨rfl, rfl⟩ : u.toNat = uva ∧ n.toNat = len := by simpa [CopyCall.range] using hr
    exact hin u kva n hc
  | copyout kva u bytes =>
    obtain ⟨rfl, rfl⟩ : u.toNat = uva ∧ bytes.length = len := by simpa [CopyCall.range] using hr
    exact hout kva u bytes hc
  | read kva u n data =>
    obtain ⟨rfl, rfl⟩ : u.toNat = uva ∧ data.length = len := by simpa [CopyCall.range] using hr
    show Exact v p _ _ (v.sysRead p kva u n data)
    unfold Vm.sysRead
    split_ifs
    · exact hout kva u data hc
    · exact .inl rfl
    · exact .inl rfl
  | write kva u n =>
    obtain ⟨rfl, rfl⟩ : u.toNat = uva ∧ n.toNat = len := by simpa [CopyCall.range] using hr
    show Exact v p _ _ (v.sysWrite p kva u n)
    unfold Vm.sysWrite
    split_ifs
    · exact hin u kva n hc
    · exact .inl rfl
  | pipe kva u fds =>
    obtain ⟨rfl, rfl⟩ : u.toNat = uva ∧ fds.length = len := by simpa [CopyCall.range] using hr
    show Exact v p _ _ (v.sysPipe p kva u fds)
    unfold Vm.sysPipe
    split_ifs
    · exact .inl rfl
    · exact hout kva u fds hc
  | load image exe phs => cases hr

theorem safeCopy_run (h : Isolated v) (hp : 1 ≤ p) (hc : c.Fits v p) :
    SafeCopy v p (c.run v p) := by
  cases hr : c.range with
  | some r => exact (exact_run h hp hc hr).safe h hp
  | none =>
    cases c with
    | load image exe phs => exact loads_elfLoad hp image exe hc.1 h hc.2
    | _ => cases hr

/-- A call of the memory manager, or a copy that meets the condition. -/
def CopyStep (v t : Vm) : Prop := VmStep v t ∨ ∃ p c, 1 ≤ p ∧ CopyCall.Fits v p c ∧ t = (c.run v p).vm

theorem Isolated.reach_copy (hv : Isolated v) (h : ReflTransGen CopyStep v t) : Isolated t := by
  induction h with
  | refl => exact hv
  | tail _ hstep ih =>
    rcases hstep with ⟨a, hu, hp, rfl⟩ | ⟨p, c, hp, hc, rfl⟩
    · exact (ih.step hu hp).1
    · exact (safeCopy_run ih hp hc).inv

theorem room_start2G : Room (Vm.start2G.step (.split 0 1000)).pmm 1 4 := by
  refine ⟨?_, ?_⟩
  · simp only [Vm.start2G, Vm.pdirInitKern, realQuota_mem2G]
    decide +kernel
  · show 4 ≤ (pmemInit mem2G).above.card
    have hs : Finset.Ico 262145 262149 ⊆ (pmemInit mem2G).above := by
      intro i hi
      rw [Finset.mem_Ico] at hi
      have hf : i ∈ (pmemInit mem2G).freePages := by
        rw [freePages_mem2G, Finset.mem_Ico]
        omega
      refine Finset.mem_filter.mpr ⟨hf, ?_⟩
      show 262144 < i
      omega
    exact Finset.card_le_card hs

end MCertiKOS.Memory
