import MCertiKOS.FileSystem.Walk
import MCertiKOS.Memory.UserBytes

/-!
# Listing a directory

`sys_ls` of `kern/trap/TSyscall/TSyscall.c` as a whole: it reads the entries of
the working directory, puts the names into `sys_buf[cur_pid]`, and copies the
buffer to the process. `de` is a local variable of `sys_ls`, and `strnlen` looks
for the end of a name behind it if the field is full; so what is on the stack
there matters. The kernel's memory is given by the distance from `sys_buf[0]`,
and the buffers of the processes lie side by side.
-/

namespace MCertiKOS.FileSystem.Fs

open Library Memory Vm List

/-! ### The entries -/

/-- The entries of a directory with the contents `bs`. -/
def direntsOf (bs : List UInt8) : List Dirent := (List.range (bs.length / DESIZE)).map fun k => getDirent ((bs.drop (DESIZE * k)).take DESIZE)

/-- The names in the entries that are in use, as they are on disk. -/
def fieldsOf (es : List Dirent) : List (List UInt8) := (es.filter (·.inum ≠ 0)).map Dirent.name

theorem length_direntsOf (bs : List UInt8) : (direntsOf bs).length = bs.length / DESIZE := by
  rw [direntsOf, length_map, length_range]

theorem drop_direntsOf {bs : List UInt8} {k : ℕ} (hk : k < bs.length / DESIZE) :
    (direntsOf bs).drop k = getDirent ((bs.drop (DESIZE * k)).take DESIZE) :: (direntsOf bs).drop (k + 1) := by
  rw [drop_eq_getElem_cons (by rwa [length_direntsOf])]
  simp [direntsOf]

theorem map_nameKey_fieldsOf (bs : List UInt8) : (fieldsOf (direntsOf bs)).map nameKey = Slots.keys (slotsOf bs) := by
  rw [fieldsOf, direntsOf, slotsOf, Slots.keys, filterMap_map, filter_map, map_map, map_map, ← filterMap_eq_map,
    filterMap_filter]
  refine filterMap_congr fun k _ => ?_
  by_cases h : (getDirent ((bs.drop (DESIZE * k)).take DESIZE)).inum = 0
  · simp [slotOf, h]
  · simp [slotOf, h]

theorem length_field {bs : List UInt8} {name : List UInt8} (h : name ∈ fieldsOf (direntsOf bs)) : name.length = DIRSIZ := by
  simp only [fieldsOf, direntsOf, mem_map, mem_filter, mem_range] at h
  obtain ⟨_, ⟨⟨k, hk, rfl⟩, -⟩, rfl⟩ := h
  have hle := (Nat.mul_le_mul_left DESIZE hk).trans (Nat.mul_div_le bs.length DESIZE)
  rw [Nat.mul_succ] at hle
  show (((((bs.drop (DESIZE * k)).take DESIZE).drop 2).take DIRSIZ)).length = DIRSIZ
  simp only [length_take, length_drop]
  unfold DESIZE DIRSIZ at *
  omega

variable {M : Mode} {pid : ℕ} {sb : Superblock} {X : Finset ℕ} {u : Bool} {K : Finset ℕ} {D : Disk} {s₀ s t : FS}
  {L : List (InodePtr × ℕ)} {B : Finset InodePtr} {dp ip : InodePtr} {i k m : ℕ} {n : Node}

theorem Doing.runs_lsLoop (h : Doing M sb X u K D s₀ L B t) (hip : Has s₀ L dp i) (hB : dp ∈ B) (hn : tree sb D none i = some n)
    (hd : IsDir n) (hm : k + m = n.data.length / DESIZE) : (M.guard pid).Runs (lsLoop dp m (DESIZE * k))
      (fun r t => r = fieldsOf ((direntsOf n.data).drop k) ∧ Doing M sb X u K D s₀ L B t) t := by
  induction m generalizing k t with
  | zero =>
    rw [drop_of_length_le (by rw [length_direntsOf]; omega)]
    exact ⟨rfl, h⟩
  | succ m ih =>
    have hk : k < n.data.length / DESIZE := by omega
    unfold lsLoop
    refine (h.runs_entry hip hB hn hd hk).bind ?_
    rintro _ t ⟨rfl, h⟩
    dsimp only
    rw [if_neg (not_not.mpr (length_entry n hk)), drop_direntsOf hk]
    refine (ih (k := k + 1) h (by omega)).bind ?_
    rintro _ t ⟨rfl, h⟩
    refine ⟨?_, h⟩
    by_cases hfree : (getDirent ((n.data.drop (DESIZE * k)).take DESIZE)).inum = 0
    · rw [if_pos hfree, fieldsOf, fieldsOf, filter_cons_of_neg (by simpa using hfree)]
    · rw [if_neg hfree, fieldsOf, fieldsOf, filter_cons_of_pos (by simpa using hfree), map_cons]

/-! ### The working directory -/

/-- The directory that `sys_ls` lists is inode `i`: the working directory of `pid`, or the root, for which there is then an entry
in the inode cache. -/
def Lists (total : Prop) (sb : Superblock) (D : Disk) (s : FS) (pid i : ℕ) : Prop :=
  Cwd total sb D s pid i ∨
    s.cwd pid = none ∧ i = ROOTINO ∧ ROOTINO < sb.ninodes ∧ (total → tree sb D none ROOTINO ≠ none) ∧ (total → 0 < (spare s).card)

theorem Doing.runs_getCwd_lists (h : Doing M sb X u K D s [] B s) (hcwd : Lists M.total sb D s pid i) :
    (M.guard pid).Runs getCwd (fun ip t => ∃ s1, (s.cwd pid ≠ none → s1 = s) ∧ Has s1 [] ip i ∧ i < sb.ninodes ∧
      (M.total → tree sb D none i ≠ none) ∧ Doing M sb X u K D s1 [] B t) s := by
  rcases hcwd with ⟨⟨ip, hip, hpos, hin⟩, hlt, hex⟩ | ⟨hnone, rfl, hlt, hex, hspare⟩
  · refine (h.runs_getCwd hip).mono ?_
    rintro _ t ⟨rfl, h⟩
    exact ⟨s, fun _ => rfl, .inr ⟨hpos, hin⟩, hlt, hex, h⟩
  · unfold getCwd
    refine h.runs_cwd.bind ?_
    rintro _ t ⟨rfl, h⟩
    rw [hnone]
    have hget : (M.guard pid).Runs (Code.op .igetRoot) _ t := Doing.runs_inodeGet rfl trivial h hspare
    refine hget.bind fun ip t ⟨_, h⟩ => ?_
    refine (h.runs_setCwd ip).bind ?_
    rintro _ t' ⟨⟨-, hin⟩, h'⟩
    refine ⟨t', fun hne => absurd rfl hne, .inr ⟨?_, ?_⟩, hlt, hex, h'⟩
    · rw [hin]
      exact h.cached.pos_of_mem mem_cons_self
    · rw [hin]
      exact h.inum_of_has (.inl mem_cons_self)

theorem Doing.runs_sysLs (h : Doing M sb X u K D s [] ∅ s) (hcwd : Lists M.total sb D s pid i) (hn : tree sb D none i = some n)
    (hd : IsDir n) : (M.guard pid).Runs sysLs (fun r t => r = fieldsOf (direntsOf n.data) ∧ ∃ s1, (s.cwd pid ≠ none → s1 = s) ∧
      Doing M sb X u K D s1 [] ∅ t) s := by
  unfold sysLs
  refine (h.runs_getCwd_lists hcwd).bind fun ip t ⟨s1, hs1, hip, hlt, hex, h⟩ => ?_
  refine (h.runs_inodeLock hip hlt hex fun _ => Finset.notMem_empty ip).bind fun _ t h => ?_
  have hB : ip ∈ insert ip (∅ : Finset InodePtr) := Finset.mem_insert_self ..
  refine (h.2.runs_size hip hB hn).bind fun v t ⟨⟨_, _, hsize⟩, h⟩ => ?_
  rw [hsize, entries_zero _ hd.whole]
  refine (h.runs_lsLoop (k := 0) hip hB hn hd (Nat.zero_add _)).bind ?_
  rintro _ t ⟨rfl, h⟩
  refine (h.runs_inodeUnlock hB).bind fun _ t h => ?_
  rw [Finset.erase_insert (Finset.notMem_empty ip)] at h
  exact ⟨rfl, s1, hs1, h⟩

/-! ### The buffer -/

/-- The first byte of `sys_buf[pid]`. -/
def sysBuf (pid : ℕ) : ℤ := pid * PAGESIZE

/-- The `strnlen(de.name, PAGESIZE)` bytes from `de.name` on, if the bytes behind the field are `behind`. -/
def nameAt (field : List UInt8) (behind : ℕ → UInt8) : List UInt8 :=
  cString (field ++ (List.range (PAGESIZE - field.length)).map behind)

/-- The loop of `sys_ls` puts the names, each with a space, at `p`: the memory and `buf_p` after it. In round `k` the bytes behind
`de` are `behind k`. -/
def lsNames (behind : ℕ → ℕ → UInt8) : ℕ → (ℤ → UInt8) → ℤ → List (List UInt8) → (ℤ → UInt8) × ℤ
  | _, m, p, [] => (m, p)
  | k, m, p, field :: fields =>
    let name := nameAt field (behind k)
    lsNames behind (k + 1) (Function.update (storeBytes m p name) (p + name.length) 32) (p + name.length + 1) fields

/-- The kernel's buffers, the memory of the processes, and the file system. -/
structure LsState where
  fs : FS
  /-- The kernel's memory, by the distance from `sys_buf[0]`. -/
  buf : ℤ → UInt8
  vm : Vm

/-- The end of `sys_ls`, for what is in the entries: `len`, and the memory after it. -/
def lsOut (pid : ℕ) (kva userBuf : UInt32) (bufLen : BitVec 32) (behind : ℕ → ℕ → UInt8) (fields : List (List UInt8)) (m : ℤ → UInt8)
    (v : Vm) : ℤ × (ℤ → UInt8) × Vm :=
  let (m, p) := lsNames behind 0 m (sysBuf pid) fields
  let m := Function.update m (p - 1) 0
  let len := if p - sysBuf pid < bufLen.toInt then p - sysBuf pid else bufLen.toInt
  -- `pt_copyout` takes the length as an unsigned number
  let bytes := (List.range (len % 2 ^ 32).toNat).map fun k : ℕ => m (sysBuf pid + k)
  (len, m, (v.ptCopyout pid kva userBuf bytes).vm)

/-- `sys_ls` of process `pid`, whose buffer `sys_buf[pid]` is at `kva`: the return value `len`. -/
def sysLsCall (pid : ℕ) (kva userBuf : UInt32) (bufLen : BitVec 32) (behind : ℕ → ℕ → UInt8) (s : LsState) : Except FsStop ℤ × LsState :=
  match (sysLs.run (sem pid)).run s.fs with
  | (.error e, fs) => (.error e, { s with fs := fs })
  | (.ok fields, fs) =>
    let (len, m, v) := lsOut pid kva userBuf bufLen behind fields s.buf s.vm
    (.ok len, ⟨fs, m, v⟩)

theorem nameAt_eq {field : List UInt8} (hlen : field.length = DIRSIZ) (h : (nameKey field).length < DIRSIZ) (behind : ℕ → UInt8) :
    nameAt field behind = nameKey field := by
  rw [nameKey, take_of_length_le hlen.le] at h ⊢
  exact cString_append (hlen.symm ▸ h) _

theorem lsNames_eq (behind : ℕ → ℕ → UInt8) {fields : List (List UInt8)} {k : ℕ} {m : ℤ → UInt8} {p : ℤ}
    (h : ∀ field ∈ fields, ∀ k, nameAt field (behind k) = nameKey field) :
    lsNames behind k m p fields = (storeBytes m p ((fields.map nameKey).flatMap (· ++ [32])),
      p + ((fields.map nameKey).flatMap (· ++ [32])).length) := by
  induction fields generalizing k m p with
  | nil => simp [lsNames, storeBytes]
  | cons field fields ih =>
    have hstep : Function.update (storeBytes m p (nameKey field)) (p + (nameKey field).length) 32 = storeBytes m p (nameKey field ++ [32]) := by
      rw [storeBytes_append]
      rfl
    rw [lsNames, h field mem_cons_self, hstep, ih fun f hf => h f (mem_cons_of_mem _ hf), map_cons, flatMap_cons,
      storeBytes_append (nameKey field ++ [32])]
    simp only [length_append, length_singleton, Nat.cast_add, Nat.cast_one, add_assoc]

def lsLine (names : List (List UInt8)) : List UInt8 := [32].intercalate names ++ [0]

theorem flatMap_space {names : List (List UInt8)} (h : names ≠ []) : names.flatMap (· ++ [32]) = [32].intercalate names ++ [32] := by
  induction names with
  | nil => exact absurd rfl h
  | cons name names ih =>
    cases names with
    | nil => simp
    | cons name' names => rw [flatMap_cons, ih (cons_ne_nil _ _), intercalate_cons_cons, append_assoc, append_assoc,
        append_assoc]

theorem update_lsNames {names : List (List UInt8)} (h : names ≠ []) (m : ℤ → UInt8) (p : ℤ) :
    Function.update (storeBytes m p (names.flatMap (· ++ [32]))) (p + (names.flatMap (· ++ [32])).length - 1) 0 =
      storeBytes m p (lsLine names) := by
  rw [flatMap_space h, lsLine, storeBytes_append, storeBytes_append, length_append, length_singleton]
  push_cast
  rw [← add_assoc, add_sub_cancel_right]
  exact Function.update_idem ..

theorem map_storeBytes {m : ℤ → UInt8} {p : ℤ} (bs : List UInt8) {len : ℕ} (h : len ≤ bs.length) :
    ((List.range len).map fun k : ℕ => storeBytes m p bs (p + k)) = bs.take len := by
  refine ext_getElem (by simp [h]) fun k h1 h2 => ?_
  rw [length_map, length_range] at h1
  rw [getElem_map, getElem_range, storeBytes_apply, if_pos (by omega), getElem_take, add_sub_cancel_left, Int.toNat_natCast,
    getD_eq_getElem]

def Node.names (n : Node) : List (List UInt8) := Slots.keys (slotsOf n.data)

/-- What a process gets that asks for `bufLen` bytes. -/
def Node.listing (n : Node) (bufLen : BitVec 32) : List UInt8 := (lsLine n.names).take bufLen.toInt.toNat

theorem lsOut_eq (pid : ℕ) (kva userBuf : UInt32) (bufLen : BitVec 32) (behind : ℕ → ℕ → UInt8) (hlen : 0 ≤ bufLen.toInt)
    (hused : n.names ≠ []) (hends : ∀ name ∈ n.names, name.length < DIRSIZ) (m : ℤ → UInt8) (v : Vm) :
    lsOut pid kva userBuf bufLen behind (fieldsOf (direntsOf n.data)) m v =
      (((n.listing bufLen).length : ℤ), storeBytes m (sysBuf pid) (lsLine n.names), (v.ptCopyout pid kva userBuf (n.listing bufLen)).vm) := by
  have hnames : (fieldsOf (direntsOf n.data)).map nameKey = n.names := map_nameKey_fieldsOf n.data
  have hfields : ∀ field ∈ fieldsOf (direntsOf n.data), ∀ k, nameAt field (behind k) = nameKey field := fun field hf k =>
    nameAt_eq (length_field hf) (hends _ (hnames ▸ mem_map_of_mem hf)) _
  have hend : ((n.names.flatMap (· ++ [32])).length : ℤ) = (lsLine n.names).length := by
    rw [flatMap_space hused, lsLine, length_append, length_append]
    rfl
  have hmin : (if ((lsLine n.names).length : ℤ) < bufLen.toInt then ((lsLine n.names).length : ℤ) else bufLen.toInt) =
      (n.listing bufLen).length := by
    rw [Node.listing, length_take]
    split_ifs <;> omega
  have hle : (n.listing bufLen).length ≤ (lsLine n.names).length ∧ (n.listing bufLen).length ≤ bufLen.toInt.toNat := by
    rw [Node.listing, length_take]
    omega
  have hmod : ((n.listing bufLen).length : ℤ) % 2 ^ 32 = (n.listing bufLen).length := by
    have := bufLen.toInt_lt
    exact Int.emod_eq_of_lt (by omega) (by omega)
  have htake : (lsLine n.names).take (n.listing bufLen).length = n.listing bufLen := by
    rw [Node.listing, length_take, ← take_take, take_length]
  unfold lsOut
  rw [lsNames_eq behind hfields, hnames]
  dsimp only
  rw [update_lsNames hused, add_sub_cancel_left, hend, hmin, hmod, Int.toNat_natCast, map_storeBytes _ hle.1, htake]

theorem sysLsCall_eq (pid : ℕ) (kva userBuf : UInt32) (bufLen : BitVec 32) (behind : ℕ → ℕ → UInt8) {s : LsState} {lim : ℕ}
    (hs : Doing (full lim) sb X u K D s.fs [] ∅ s.fs) (hcwd : Lists True sb D s.fs pid i) (hn : tree sb D none i = some n) (hd : IsDir n)
    (hlen : 0 ≤ bufLen.toInt) (hused : n.names ≠ []) (hends : ∀ name ∈ n.names, name.length < DIRSIZ) :
    ∃ fs, sysLsCall pid kva userBuf bufLen behind s = (.ok (n.listing bufLen).length,
      ⟨fs, storeBytes s.buf (sysBuf pid) (lsLine n.names), (s.vm.ptCopyout pid kva userBuf (n.listing bufLen)).vm⟩) ∧
      Doing (full lim) sb X u K D fs [] ∅ fs := by
  obtain ⟨_, fs, hrun, rfl, _, -, hdoing⟩ := run_full lim pid (hs.runs_sysLs hcwd hn hd)
  refine ⟨fs, ?_, hdoing.rebase⟩
  unfold sysLsCall
  rw [hrun]
  dsimp only
  rw [lsOut_eq pid kva userBuf bufLen behind hlen hused hends]

theorem ls_overruns (pid : ℕ) (kva userBuf : UInt32) (bufLen : BitVec 32) (behind : ℕ → ℕ → UInt8) {s : LsState} {lim : ℕ}
    (hs : Doing (full lim) sb X u K D s.fs [] ∅ s.fs) (hcwd : Lists True sb D s.fs pid i) (hn : tree sb D none i = some n) (hd : IsDir n)
    (hlen : 0 ≤ bufLen.toInt) (hused : n.names ≠ []) (hends : ∀ name ∈ n.names, name.length < DIRSIZ) {k : ℕ}
    (hk : PAGESIZE + k < (lsLine n.names).length) :
    (sysLsCall pid kva userBuf bufLen behind s).2.buf (sysBuf (pid + 1) + k) = (lsLine n.names).getD (PAGESIZE + k) 0 := by
  obtain ⟨fs, hrun, -⟩ := sysLsCall_eq pid kva userBuf bufLen behind hs hcwd hn hd hlen hused hends
  have hnext : sysBuf (pid + 1) + k = sysBuf pid + (PAGESIZE + k : ℕ) := by
    unfold sysBuf
    push_cast
    ring
  rw [hrun, hnext]
  exact (storeBytes_apply ..).trans (by rw [if_pos (by omega), add_sub_cancel_left, Int.toNat_natCast])

theorem names_smallRoot : smallRootNode.names = [dot, dotdot, [102]] := by
  show Slots.keys (slotsOf (contents smallDisk smallRoot)) = _
  rw [slots_smallRoot]
  decide

/-- The small disk, but the name of the file has `DIRSIZ` characters. -/
def fullFieldDisk : Disk :=
  Function.update smallDisk 29 (putBytes (fun _ => 0) 0 (direntBytes 1 dot ++ direntBytes 1 dotdot ++ direntBytes 2 (List.range' 97 14 |>.map UInt8.ofNat)))

end MCertiKOS.FileSystem.Fs
