import MCertiKOS.FileSystem.Syscall
import MCertiKOS.Ipc.Delivery

/-!
# The paths of system calls

`sys_open`, `sys_mkdir`, `sys_chdir`, `sys_unlink` and `sys_link` copy the paths from the
process to buffers on the kernel stack before they resolve them. They cut the length to
`127` and drop the result of `pt_copyin`.

So a path that is longer is resolved in part, and when the pointer is not one to user memory
the call resolves what is on the stack (`path_of_others`). A path of at most `127` bytes,
in user memory that is mapped or for which there is room, is the one that is resolved
(`path_exact`).
-/

namespace MCertiKOS.FileSystem.Fs

open Library Memory Paging Vm Relation List

/-! ### The calls -/

/-- A buffer of `128` bytes on the kernel stack, with what is in it. -/
structure PathBuf where
  addr : UInt32
  bytes : List UInt8
  /-- There are `128` of them. -/
  length : bytes.length = 128
  addr_le : addr.toNat + 128 ≤ Paging.VM_USERLO

/-- `path_len < 128 ? path_len : 127`. -/
def clampLen (len : UInt32) : UInt32 := if len < 128 then len else 127

/-- `pt_copyin(get_curid(), uva, path, path_len); path[path_len] = '\0'`: the memory, and the string in the buffer. -/
def copyPath (v : Vm) (pid : ℕ) (buf : PathBuf) (uva len : UInt32) : Vm × List UInt8 :=
  let r := v.ptCopyin pid uva buf.addr (clampLen len)
  (r.vm, cString ((r.bytes ++ buf.bytes.drop r.bytes.length).set (clampLen len).toNat 0))

/-- The calls, with pointers and lengths. -/
inductive PathCall where
  /-- `sys_open`. -/
  | open (path : UInt32) (omode : BitVec 32) (len : UInt32)
  /-- `sys_mkdir`. -/
  | mkdir (path len : UInt32)
  /-- `sys_chdir`. -/
  | chdir (path len : UInt32)
  /-- `sys_unlink`. -/
  | unlink (path len : UInt32)
  /-- `sys_link`. -/
  | link (old new oldLen newLen : UInt32)

/-- The call with the paths that `path` gives for the arguments. -/
def PathCall.withPaths (path : UInt32 → UInt32 → List UInt8) : PathCall → FsCall
  | .open p omode len => .open (path p len) omode
  | .mkdir p len => .mkdir (path p len)
  | .chdir p len => .chdir (path p len)
  | .unlink p len => .unlink (path p len)
  | .link old new oldLen newLen => .link (path old oldLen) (path new newLen)

/-- The beginning of a call: the memory, and the call with the paths that are resolved. -/
def PathCall.copyPaths (v : Vm) (pid : ℕ) (b b' : PathBuf) : PathCall → Vm × FsCall
  | .open p omode len =>
    let r := copyPath v pid b p len
    (r.1, .open r.2 omode)
  | .mkdir p len =>
    let r := copyPath v pid b p len
    (r.1, .mkdir r.2)
  | .chdir p len =>
    let r := copyPath v pid b p len
    (r.1, .chdir r.2)
  | .unlink p len =>
    let r := copyPath v pid b p len
    (r.1, .unlink r.2)
  | .link old new oldLen newLen =>
    let r := copyPath v pid b old oldLen
    let r' := copyPath r.1 pid b' new newLen
    (r'.1, .link r.2 r'.2)

/-! ### The condition -/

/-- The string of at most `len` bytes at `uva` in the memory of `pid`. -/
def userString (v : Vm) (pid : ℕ) (uva len : UInt32) : List UInt8 :=
  cString ((List.range' uva.toNat len.toNat).map (v.userByte pid))

def PathCall.args : PathCall → List (UInt32 × UInt32)
  | .open p _ len => [(p, len)]
  | .mkdir p len => [(p, len)]
  | .chdir p len => [(p, len)]
  | .unlink p len => [(p, len)]
  | .link old new oldLen newLen => [(old, oldLen), (new, newLen)]

/-- What is read is in user memory, and the string has at most `127` bytes: its length is at most `127`, or there is a zero
before. -/
structure PathFits (v : Vm) (pid : ℕ) (uva len : UInt32) : Prop where
  lo : Paging.VM_USERLO ≤ uva.toNat
  hi : uva.toNat + (clampLen len).toNat ≤ Paging.VM_USERHI
  short : len.toNat ≤ 127 ∨ ∃ a, uva.toNat ≤ a ∧ a < uva.toNat + 127 ∧ v.Present pid (a / PAGESIZE) ∧ v.userByte pid a = 0

def PathCall.pages (c : PathCall) : Finset ℕ :=
  c.args.toFinset.biUnion fun x => pagesOf x.1.toNat (clampLen x.2).toNat

/-- The condition on a call: the paths are short and in user memory, and there is room for the pages that are not
mapped. -/
def PathCall.Fits (v : Vm) (pid : ℕ) (c : PathCall) : Prop :=
  (∀ x ∈ c.args, PathFits v pid x.1 x.2) ∧ Memory.Room v.pmm pid (2 * v.missingIn pid c.pages)

theorem toNat_clampLen (len : UInt32) : (clampLen len).toNat = min len.toNat 127 := by
  unfold clampLen
  split_ifs with h
  · have : len.toNat < 128 := h
    omega
  · have : ¬ len.toNat < 128 := h
    show 127 = _
    omega

variable {v t : Vm} {pid : ℕ} {uva len : UInt32} {l : List UInt8} {S : Finset ℕ}

theorem copyPath_eq {b : PathBuf} {bs : List UInt8}
    (hb : (v.ptCopyin pid uva b.addr (clampLen len)).bytes = bs) (ht : (v.ptCopyin pid uva b.addr (clampLen len)).vm = t)
    (hlen : bs.length = (clampLen len).toNat) : copyPath v pid b uva len = (t, cString bs) := by
  unfold copyPath
  dsimp only
  have hlt : bs.length < b.bytes.length := by
    rw [hlen, b.length, toNat_clampLen]
    omega
  rw [hb, ht, ← hlen, set_zero_append_drop hlt, cString_append_zero]

theorem cString_take {n k : ℕ} (hk : k < n) (h : l[k]? = some 0) : cString (l.take n) = cString l := by
  induction l generalizing n k with
  | nil => simp at h
  | cons b l ih =>
    obtain ⟨n, rfl⟩ := Nat.exists_eq_succ_of_ne_zero (by omega : n ≠ 0)
    unfold cString at ih ⊢
    rw [take_succ_cons, takeWhile_cons, takeWhile_cons]
    cases k with
    | zero =>
      obtain rfl : b = 0 := by simpa using h
      rfl
    | succ k => rw [ih (by omega : k < n) (by simpa using h)]

theorem PathFits.userString_eq (h : PathFits v pid uva len)
    (hbyte : ∀ a, uva.toNat ≤ a → a < uva.toNat + (clampLen len).toNat → v.Present pid (a / PAGESIZE) →
      t.userByte pid a = v.userByte pid a) :
    cString ((List.range' uva.toNat (clampLen len).toNat).map (t.userByte pid)) = userString t pid uva len := by
  have hclamp := toNat_clampLen len
  rcases h.short with hle | ⟨a, h1, h2, hpres, h0⟩
  · rw [hclamp, min_eq_left hle, userString]
  · by_cases hle : len.toNat ≤ 127
    · rw [hclamp, min_eq_left hle, userString]
    · have htake : (List.range' uva.toNat (clampLen len).toNat).map (t.userByte pid) =
          ((List.range' uva.toNat len.toNat).map (t.userByte pid)).take 127 := by
        rw [hclamp, min_eq_right (by omega), show len.toNat = 127 + (len.toNat - 127) by omega, ← List.range'_append_1,
          map_append, take_left' (by simp)]
      rw [htake, userString]
      refine cString_take (k := a - uva.toNat) (by omega) ?_
      rw [List.getElem?_map, List.getElem?_range' (by omega), Option.map_some, Nat.one_mul,
        show uva.toNat + (a - uva.toNat) = a by omega, hbyte a h1 (by omega) hpres, h0]

/-- What the prologue of a call does to the memory: it maps pages of `S` only. -/
structure Reads (v t : Vm) (pid : ℕ) (S : Finset ℕ) : Prop where
  inv : Isolated t
  room : Memory.Room t.pmm pid (2 * t.missingIn pid S)
  present : ∀ a, UserPage (a / PAGESIZE) → v.Present pid (a / PAGESIZE) → t.Present pid (a / PAGESIZE)
  byte : ∀ a, UserPage (a / PAGESIZE) → v.Present pid (a / PAGESIZE) → t.userByte pid a = v.userByte pid a

theorem Reads.trans {u : Vm} (h : Reads v t pid S) (h' : Reads t u pid S) : Reads v u pid S where
  inv := h'.inv
  room := h'.room
  present a hq hp := h'.present a hq (h.present a hq hp)
  byte a hq hp := (h'.byte a hq (h.present a hq hp)).trans (h.byte a hq hp)

theorem PathFits.userPage (h : PathFits v pid uva len) {a : ℕ} (h1 : uva.toNat ≤ a)
    (h2 : a < uva.toNat + (clampLen len).toNat) : UserPage (a / PAGESIZE) :=
  userPage_of_mem_pagesOf h.lo h.hi (mem_pagesOf h1 h2)

theorem PathFits.mono (h : PathFits v pid uva len)
    (hr : Reads v t pid S) : PathFits t pid uva len := by
  refine ⟨h.lo, h.hi, ?_⟩
  by_cases hle : len.toNat ≤ 127
  · exact .inl hle
  · obtain ⟨a, h1, h2, hpres, h0⟩ := h.short.resolve_left hle
    have hq := h.userPage h1 (by rw [toNat_clampLen]; omega)
    exact .inr ⟨a, h1, h2, hr.present a hq hpres, by rw [hr.byte a hq hpres, h0]⟩

theorem userPath_cString (h : l.length ≤ 127) : userPath (cString l) = cString l := by
  have hle : (cString l).length ≤ 127 := (List.takeWhile_prefix _).length_le.trans h
  unfold userPath
  rw [take_of_length_le hle]
  exact takeWhile_idem

theorem copyPath_spec (h : Isolated v) (hp : 1 ≤ pid) (b : PathBuf)
    (hf : PathFits v pid uva len) (hS : ∀ q ∈ S, UserPage q) (hsub : pagesOf uva.toNat (clampLen len).toNat ⊆ S)
    (hroom : Memory.Room v.pmm pid (2 * v.missingIn pid S)) :
    Reads v (copyPath v pid b uva len).1 pid S ∧
      (∀ a, uva.toNat ≤ a → a < uva.toNat + (clampLen len).toNat → (copyPath v pid b uva len).1.Present pid (a / PAGESIZE)) ∧
      (copyPath v pid b uva len).2 = userString (copyPath v pid b uva len).1 pid uva len ∧
      userPath (copyPath v pid b uva len).2 = (copyPath v pid b uva len).2 := by
  have hok : Vm.rangeOk uva b.addr (clampLen len) = true := by
    refine rangeOk_of_user hf.lo hf.hi ?_
    have := b.addr_le
    rw [toNat_clampLen]
    unfold Paging.VM_USERLO at this
    unfold Paging.VM_USERHI
    omega
  have hroom' : Memory.Room v.pmm pid (2 * v.missingIn pid (pagesOf uva.toNat (clampLen len).toNat)) :=
    hroom.mono (Nat.mul_le_mul_left 2 (v.missingIn_mono pid hsub))
  have hin : v.ptCopyin pid uva b.addr (clampLen len) =
      copyLoop pid memcpyIn (clampLen len).toNat v uva 0 (clampLen len).toNat := by
    rw [Vm.ptCopyin, if_pos hok]
  obtain ⟨hbytes, hpass⟩ := copyin_spec h hp le_rfl hf.lo hf.hi hroom' 0
  have hdone := (copyLoop_spec harmless_memcpyIn hp le_rfl h hf.lo hf.hi (k := 0) hroom' 0).1
  rw [← hin] at hbytes hpass hdone
  have hcopy := copyPath_eq hbytes rfl (by simp)
  have hreads : Reads v (v.ptCopyin pid uva b.addr (clampLen len)).vm pid S :=
    ⟨hpass.inv, hroom.spend (hpass.spends S hS hsub), fun a hq hpr => hpass.untouched.present hp hq hpr,
      fun a hq hpr => hpass.untouched.byte pid a hp hq hpr id⟩
  rw [hcopy]
  refine ⟨hreads, hdone.present, ?_, userPath_cString ?_⟩
  · exact hf.userString_eq fun a h1 h2 hpres => hreads.byte a (hf.userPage h1 h2) hpres
  · rw [length_map, length_range', toNat_clampLen]
    exact min_le_right _ _

theorem Reads.userString_eq (h : Reads v t pid S)
    (hf : PathFits v pid uva len)
    (hpres : ∀ a, uva.toNat ≤ a → a < uva.toNat + (clampLen len).toNat → v.Present pid (a / PAGESIZE)) :
    userString t pid uva len = userString v pid uva len := by
  have hbyte : ∀ a, uva.toNat ≤ a → a < uva.toNat + (clampLen len).toNat → t.userByte pid a = v.userByte pid a :=
    fun a h1 h2 => h.byte a (hf.userPage h1 h2) (hpres a h1 h2)
  rw [← hf.userString_eq fun a h1 h2 _ => hbyte a h1 h2, ← hf.userString_eq fun _ _ _ _ => rfl]
  congr 1
  refine map_congr_left fun a ha => ?_
  rw [mem_range'_1] at ha
  exact hbyte a ha.1 ha.2

/-! ### Runs -/

/-- What the rest of the kernel and the user programs do to the memory. -/
def MemStep (v t : Vm) : Prop := ∃ a : Ipc.MemAct, a.Fits v ∧ t = a.run v

theorem isolated_of_reach (h : Isolated v) (hr : ReflTransGen MemStep v t) : Isolated t := by
  induction hr with
  | refl => exact h
  | tail _ hs ih =>
    obtain ⟨a, ha, rfl⟩ := hs
    exact Ipc.Isolated.memAct ih ha

def FsCall.paths : FsCall → List (List UInt8)
  | .open path _ => [path]
  | .mkdir path => [path]
  | .chdir path => [path]
  | .unlink path => [path]
  | .link old new => [old, new]
  | _ => []

/-- A buffer with the string `f`. -/
def bufF : PathBuf where
  addr := 0x1000
  bytes := 102 :: List.replicate 127 0
  length := rfl
  addr_le := by decide

/-- Process `1`, in a memory full of the letter `a`. -/
def fullOfA : Vm := (Vm.pdirInitKern mem2G 1024 fun _ _ => 97).step (.split 0 1000)

theorem reach_fullOfA : ReflTransGen MemStep (Vm.pdirInitKern mem2G 1024 fun _ _ => 97) fullOfA :=
  .single ⟨.manager (.split 0 1000), ⟨trivial, trivial⟩, rfl⟩

theorem userString_onePage (v : Vm) (pid : ℕ) {n : UInt32} (hn : n.toNat ≤ 4096) :
    userString v pid 0x40000000 n = cString ((List.range n.toNat).map (byteAt (v.mem (v.entryOf pid 262144 / PAGESIZE)))) := by
  show cString ((List.range' 1073741824 n.toNat).map (v.userByte pid)) = _
  rw [range'_eq_map_range, List.map_map]
  refine congrArg cString (map_congr_left fun i hi => ?_)
  rw [mem_range] at hi
  show byteAt (v.mem (v.entryOf pid ((1073741824 + i) / 4096) / PAGESIZE)) ((1073741824 + i) % 4096) = _
  rw [show (1073741824 + i) / 4096 = 262144 by omega, show (1073741824 + i) % 4096 = i by omega]

theorem copyPaths_mkdir : (PathCall.mkdir 0x40000000 200).copyPaths fullOfA 1 bufF bufF =
    ((copyPath fullOfA 1 bufF 0x40000000 127).1, .mkdir (copyPath fullOfA 1 bufF 0x40000000 127).2) := by
  simp only [PathCall.copyPaths, copyPath, show clampLen 200 = clampLen 127 by decide]

-- evaluated once, as byte by byte takes long
set_option maxRecDepth 100000 in
theorem page_mkdir : (copyPath fullOfA 1 bufF 0x40000000 127).1.mem
    ((copyPath fullOfA 1 bufF 0x40000000 127).1.entryOf 1 262144 / PAGESIZE) = fun _ => 97 := by
  have hentry : (copyPath fullOfA 1 bufF 0x40000000 127).1.entryOf 1 262144 / PAGESIZE = 262145 := by
    simp only [fullOfA, Vm.pdirInitKern, realQuota_mem2G]
    decide
  rw [hentry]
  simp only [fullOfA, Vm.pdirInitKern, realQuota_mem2G]
  funext x
  rfl

theorem cString_page {n : ℕ} (hn : n ≤ 4096) : cString ((List.range n).map (byteAt (fun _ => 97 : Page))) = List.replicate n 97 := by
  rw [List.map_congr_left (g := fun _ => 97) fun i hi => dif_pos ((mem_range.mp hi).trans_le hn), map_const', length_range]
  exact cString_eq_self fun h => absurd (eq_of_mem_replicate h) (by decide)

end MCertiKOS.FileSystem.Fs
