import MCertiKOS.Library.Bytes
import MCertiKOS.Memory.PageAlloc

/-!
# Page tables

The virtual memory manager of `kern/vmm`, from `MPTIntro.c` to `MPTNew.c`. Page directories are the static array
`PDirPool`; second-level tables are either rows of the static array `IDPTbl`, in the kernel's memory, or pages from
`container_alloc`. Both are reached through the addresses in the page directories, so physical memory is kept as
pages of bytes, and a table entry is the little-endian word at its address.

`idptbl` is the page on which `IDPTbl` starts; the linker places it below `VM_USERLO`. The kernel runs on the page
structure of process `0`, the identity map, so its addresses are physical ones.
-/

namespace MCertiKOS.Memory

open Library Paging

/-- `PTE_P`: present. -/
abbrev PTE_P : ℕ := 0x001

/-- `PTE_W`: writeable. -/
abbrev PTE_W : ℕ := 0x002

/-- `PTE_U`: user-accessible. -/
abbrev PTE_U : ℕ := 0x004

/-- `PTE_G`: global. -/
abbrev PTE_G : ℕ := 0x100

abbrev PT_PERM_PTU : ℕ := PTE_P + PTE_W + PTE_U

abbrev MagicNumber : ℕ := 1048577

abbrev Page := Fin PAGESIZE → UInt8

/-- The state of the memory managers. -/
structure Vm where
  pmm : Pmm
  /-- `PDirPool`. -/
  pdir : ℕ → ℕ → ℕ
  mem : ℕ → Page
  /-- The page where `IDPTbl` starts. -/
  idptbl : ℕ

namespace Vm

/-! ### Entries -/

/-- The word at index `j` of a page. -/
def word (v : Vm) (page j : ℕ) : ℕ := getLE (v.mem page) (4 * j) 4

def setWord (v : Vm) (page j w : ℕ) : Vm := { v with mem := Function.update v.mem page (setLE (v.mem page) (4 * j) 4 w) }

def getPdirEntry (v : Vm) (p i : ℕ) : ℕ := v.pdir p i

def storePdir (v : Vm) (p i e : ℕ) : Vm := { v with pdir := Function.update v.pdir p (Function.update (v.pdir p) i e) }

def setPdirEntry (v : Vm) (p i page : ℕ) : Vm := v.storePdir p i ((page * PAGESIZE + PT_PERM_PTU) % 2 ^ 32)

/-- `get_ptbl_entry`: the low bits of the directory entry are masked out. -/
def getPtblEntry (v : Vm) (p i j : ℕ) : ℕ := v.word (v.pdir p i / PAGESIZE) j

def setPtblEntry (v : Vm) (p i j page perm : ℕ) : Vm := v.setWord (v.pdir p i / PAGESIZE) j (page * PAGESIZE + perm)

def rmvPtblEntry (v : Vm) (p i j : ℕ) : Vm := v.setWord (v.pdir p i / PAGESIZE) j 0

def pdeIndex (va : UInt32) : ℕ := va.toNat / (4096 * 1024)

def pteIndex (va : UInt32) : ℕ := va.toNat / 4096 % 1024

def getPtblEntryByVa (v : Vm) (p : ℕ) (va : UInt32) : ℕ :=
  if v.getPdirEntry p (pdeIndex va) = 0 then 0 else v.getPtblEntry p (pdeIndex va) (pteIndex va)

/-! ### Allocation -/

def containerAlloc (v : Vm) (p : ℕ) : ℕ × Vm := ((v.pmm.containerAlloc p).1, { v with pmm := (v.pmm.containerAlloc p).2 })

/-- The loop of `alloc_ptbl`: the new table is cleared. -/
def clearPtbl (v : Vm) (p i : ℕ) : Vm := (List.range 1024).foldl (fun v j => v.rmvPtblEntry p i j) v

def allocPtbl (v : Vm) (p : ℕ) (va : UInt32) : ℕ × Vm :=
  let r := v.containerAlloc p
  if r.1 ≠ 0 then (r.1, (r.2.setPdirEntry p (pdeIndex va) r.1).clearPtbl p (pdeIndex va)) else r

def mapPage (v : Vm) (p : ℕ) (va : UInt32) (page perm : ℕ) : ℕ × Vm :=
  let r : ℕ × Vm :=
    if v.getPdirEntry p (pdeIndex va) ≠ 0 then (0, v)
    else ((if (v.allocPtbl p va).1 = 0 then MagicNumber else (v.allocPtbl p va).1), (v.allocPtbl p va).2)
  if r.1 ≠ MagicNumber then (r.1, r.2.setPtblEntry p (pdeIndex va) (pteIndex va) page perm) else r

def allocPage (v : Vm) (p : ℕ) (va : UInt32) (perm : ℕ) : ℕ × Vm :=
  let r := v.containerAlloc p
  if r.1 = 0 then (MagicNumber, r.2) else r.2.mapPage p va r.1 perm

/-! ### Start -/

/-- The entry that `set_pdir_entry_identity` stores. -/
def identityPde (idptbl i : ℕ) : ℕ := (idptbl + i) * PAGESIZE + PT_PERM_PTU

/-- The permission that `idptbl_init` gives to row `i`. -/
def identityPerm (i : ℕ) : ℕ := if i < 256 ∨ 960 ≤ i then PTE_P + PTE_W + PTE_G else PTE_P + PTE_W

/-- The entry that `set_ptbl_entry_identity` stores. -/
def identityPte (i j : ℕ) : ℕ := (i * 1024 + j) * PAGESIZE + identityPerm i

/-- A row of `IDPTbl` after `idptbl_init`. -/
def identityRow (i : ℕ) : Page := fun x => UInt8.ofNat (identityPte i (x / 4) / 256 ^ (x.val % 4))

/-- The state after `pdir_init_kern`, which calls `pmem_init`, `container_init`, `idptbl_init` and `pdir_init` and makes
all of the page directory of process `0` the identity. What else is in memory is arbitrary. -/
def pdirInitKern (mm : List MemRange) (idptbl : ℕ) (mem : ℕ → Page) : Vm where
  pmm := ⟨containerInit (UInt32.ofNat (realQuota (pmemInit mm))), pmemInit mm⟩
  pdir p i := if p = 0 ∨ i < 256 ∨ 960 ≤ i then identityPde idptbl i else 0
  mem page := if idptbl ≤ page ∧ page < idptbl + 1024 then identityRow (page - idptbl) else mem page
  idptbl := idptbl

/-! ### Words -/

variable (v : Vm)

variable {page j : ℕ}

theorem word_setWord (hj : j < 1024) (w page' j' : ℕ) :
    (v.setWord page j w).word page' j' = if page' = page ∧ j' = j then w % 2 ^ 32 else v.word page' j' := by
  unfold word setWord
  by_cases hp : page' = page
  · subst hp
    by_cases hjj : j' = j
    · subst hjj
      simp only [Function.update_self, and_self, if_true]
      exact getLE_setLE (by unfold PAGESIZE; omega) w
    · simp only [Function.update_self, hjj, and_false, if_false]
      exact getLE_setLE_of_disjoint (by omega) w
  · simp [hp]

theorem pmm_setPtblEntry (p i j page perm : ℕ) : (v.setPtblEntry p i j page perm).pmm = v.pmm := rfl

theorem word_congr {v t : Vm} (h : t.mem page = v.mem page) (j : ℕ) : t.word page j = v.word page j := by
  rw [word, word, h]

theorem pdir_storePdir (p i e p' i' : ℕ) :
    (v.storePdir p i e).pdir p' i' = if p' = p ∧ i' = i then e else v.pdir p' i' := by
  unfold storePdir
  by_cases hp : p' = p
  · subst hp
    by_cases hi : i' = i
    · simp [hi]
    · simp [hi]
  · simp [hp]

theorem word_rmvPtblEntry (p i : ℕ) (hj : j < 1024) (page' j' : ℕ) :
    (v.rmvPtblEntry p i j).word page' j' =
      if page' = v.pdir p i / PAGESIZE ∧ j' = j then 0 else v.word page' j' := by
  rw [rmvPtblEntry, word_setWord v hj, Nat.zero_mod]

/-- The loop of `alloc_ptbl` clears the words of one page. -/
structure Clears (v t : Vm) (page n : ℕ) : Prop where
  pmm : t.pmm = v.pmm
  pdir : t.pdir = v.pdir
  idptbl : t.idptbl = v.idptbl
  mem : ∀ page', page' ≠ page → t.mem page' = v.mem page'
  word : ∀ j, t.word page j = if j < n then 0 else v.word page j

theorem clears_clearPtbl (p i : ℕ) : Clears v (v.clearPtbl p i) (v.pdir p i / PAGESIZE) 1024 := by
  have key : ∀ n ≤ 1024,
      Clears v ((List.range n).foldl (fun v j => v.rmvPtblEntry p i j) v) (v.pdir p i / PAGESIZE) n := by
    intro n hn
    induction n with
    | zero => exact ⟨rfl, rfl, rfl, fun _ _ => rfl, fun j => by simp⟩
    | succ n ih =>
      obtain ⟨hpmm, hdir, hid, hmem, hword⟩ := ih (by omega)
      rw [List.range_succ, List.foldl_append]
      set t := (List.range n).foldl (fun v j => v.rmvPtblEntry p i j) v
      refine ⟨hpmm, hdir, hid, fun page' hne => ?_, fun j => ?_⟩
      · rw [← hmem page' hne]
        exact Function.update_of_ne (by rwa [hdir]) _ _
      · rw [List.foldl_cons, List.foldl_nil, word_rmvPtblEntry t p i (by omega), hdir, hword]
        split_ifs <;> first | rfl | omega
  exact key 1024 le_rfl

theorem word_pdirInitKern (mm : List MemRange) (idptbl : ℕ) (mem : ℕ → Page) {i : ℕ} (hi : i < 1024) (hj : j < 1024) :
    (pdirInitKern mm idptbl mem).word (idptbl + i) j = identityPte i j := by
  have hlt : identityPte i j < 2 ^ 32 := by
    unfold identityPte identityPerm PAGESIZE PTE_P PTE_W PTE_G
    split_ifs <;> omega
  have hrow : (pdirInitKern mm idptbl mem).mem (idptbl + i) = identityRow i := by
    simp [pdirInitKern, hi]
  rw [word, hrow]
  have hset : getLE (identityRow i) (4 * j) 4 =
      getLE (setLE (identityRow i) (4 * j) 4 (identityPte i j)) (4 * j) 4 := by
    refine getLE_congr fun x hx hx' => ?_
    have hc : x < PAGESIZE := by unfold PAGESIZE; omega
    rw [byteAt_setLE, if_pos ⟨hc, hx, hx'⟩, byteAt, dif_pos hc]
    have h4 : x / 4 = j := by omega
    have hm : x % 4 = x - 4 * j := by omega
    simp only [identityRow, h4, hm]
  rw [hset, getLE_setLE (by unfold PAGESIZE; omega)]
  exact Nat.mod_eq_of_lt hlt

end Vm

end MCertiKOS.Memory
