import MCertiKOS.FileSystem.FileWrite
import MCertiKOS.Memory.UserBytes

/-!
# Asking about a file

`sys_fstat` of `kern/fs/sysfile.c`, with `file_stat` and `inode_stat`. The call copies
the process's `struct file_stat` into a variable of the kernel, and `file_stat` stores
the fields of the inode there; nothing is copied back. So the kernel's copy has
what the claim of the call is, and the memory of the process stays as it was.
-/

namespace MCertiKOS.FileSystem.Fs

open Library Memory Thread Vm

abbrev ROOTDEV : ℕ := 1

/-- The bytes of a `struct file_stat`: `type` at `0`, `dev` at `4`, `ino` at `8`, `nlink` at `12`, `size` at `16`. -/
abbrev StatBytes : Type := Fin 20 → UInt8

def inodeStat (n : Inode) (st : StatBytes) : StatBytes :=
  setFields st [(4, 4, ROOTDEV), (8, 4, n.inum), (0, 2, n.d.type), (12, 2, n.d.nlink), (16, 4, n.d.size)]

/-- `file_stat`, of the structure `st`; `none` for `-1`. -/
def fileStat (f : Fin NFILE) (st : StatBytes) : Code FsOp (Option StatBytes) := do
  let ff ← Code.op (.file f)
  if ff.type = .inode then do
    let ip ← fileInode f
    inodeLock ip
    let n ← Code.op (.node ip)
    inodeUnlock ip
    return some (inodeStat n st)
  else return none

/-- The file system, the memory of the processes, and `kern_st`. -/
structure StatState where
  fs : FS
  vm : Vm
  /-- `kern_st`. -/
  st : StatBytes

/-- `sys_fstat` of process `pid`, with `kern_st` at `kva`: the error number. -/
def sysFstat (pid : ℕ) (kva userSt : UInt32) (fd : BitVec 32) (s : StatState) : Except FsStop Errno × StatState :=
  if fd.toInt < 0 ∨ NOFILE ≤ fd.toInt ∨ userSt < VM_USERLO ∨ VM_USERHI < userSt + 20 then (.ok .badf, s)
  else
    match s.fs.procs.files.lookup pid fd.toInt with
    | none => (.ok .badf, s)
    | some f =>
      let r := s.vm.ptCopyin pid userSt kva 20
      let st : StatBytes := fun x => r.bytes.getD x (s.st x)
      match ((fileStat f st).run (sem pid)).run s.fs with
      | (.error e, fs) => (.error e, ⟨fs, r.vm, st⟩)
      | (.ok none, fs) => (.ok .badf, ⟨fs, r.vm, st⟩)
      | (.ok (some st), fs) => (.ok .succ, ⟨fs, r.vm, st⟩)

/-- The bytes say what inode `i` is. -/
structure Reports (st : StatBytes) (i : ℕ) (n : Node) : Prop where
  ino : getLE st 8 4 = i
  type : getLE st 0 2 = n.type
  nlink : getLE st 12 2 = n.nlink
  size : getLE st 16 4 = n.data.length

variable {M : Mode} {pid : ℕ} {sb : Superblock} {X : Finset ℕ} {u : Bool} {K : Finset ℕ} {D : Disk} {s₀ s t : FS}
  {L : List (InodePtr × ℕ)} {B : Finset InodePtr} {ip : InodePtr} {i lim : ℕ} {f : Fin NFILE} {n : Node}

theorem reports_inodeStat (hl : Lays lim sb none X D) (hn : tree sb D none i = some n) {v : Inode} (hin : v.inum = i)
    (hd : v.d = dinodeAt D i) (st : StatBytes) : Reports (inodeStat v st) i n := by
  have hget : ∀ f ∈ [(4, 4, ROOTDEV), (8, 4, v.inum), (0, 2, v.d.type), (12, 2, v.d.nlink), (16, 4, v.d.size)],
      f.1 + f.2.1 ≤ 20 → getLE (inodeStat v st) f.1 f.2.1 = f.2.2 % 256 ^ f.2.1 := fun f hf hc =>
    getLE_setFields (by simp [Field.Apart]) hf hc
  have hfits : (dinodeAt D i).Fits := fits_getDinode ..
  have hlt : i < 2 ^ 32 := by
    refine (tree_some hn).1.trans_le ?_
    rw [← hl.super]
    exact (getLE_lt (D 1) 8 4).le
  obtain ⟨-, -, rfl⟩ := tree_some hn
  rw [hin, hd] at hget
  refine ⟨?_, ?_, ?_, ?_⟩
  · exact (hget (8, 4, i) (by simp) (show 8 + 4 ≤ 20 by decide)).trans (Nat.mod_eq_of_lt hlt)
  · exact (hget (0, 2, (dinodeAt D i).type) (by simp) (show 0 + 2 ≤ 20 by decide)).trans (Nat.mod_eq_of_lt hfits.type)
  · exact (hget (12, 2, (dinodeAt D i).nlink) (by simp) (show 12 + 2 ≤ 20 by decide)).trans (Nat.mod_eq_of_lt hfits.nlink)
  · exact (hget (16, 4, (dinodeAt D i).size) (by simp) (show 16 + 4 ≤ 20 by decide)).trans
      ((Nat.mod_eq_of_lt hfits.size).trans length_contents.symm)

theorem Doing.runs_fileStat (h : Doing M sb X u K D s₀ L B t) (hip : Has s₀ L ip i) (hB : ip ∉ B)
    (htype : (s₀.procs.files.file f).type = .inode) (hfile : (s₀.procs.files.file f).ip = some ip) (hn : tree sb D none i = some n)
    (st : StatBytes) : (M.guard pid).Runs (fileStat f st) (fun r t => (∃ st', r = some st' ∧ Reports st' i n) ∧
      Doing M sb X u K D s₀ L B t) t := by
  have hmem : ip ∈ insert ip B := Finset.mem_insert_self ..
  unfold fileStat
  refine (h.runs_file).bind ?_
  rintro _ t ⟨rfl, h⟩
  rw [if_pos htype]
  refine (h.runs_fileInode hfile).bind ?_
  rintro _ t ⟨rfl, h⟩
  refine (h.runs_inodeLock hip (tree_some hn).1 (fun _ => by rw [hn]; nofun) fun _ => hB).bind fun _ t hl => ?_
  refine (hl.2.runs_fields hip hmem).bind ?_
  rintro v t ⟨⟨hin, hd⟩, h⟩
  refine (h.runs_inodeUnlock hmem).bind fun _ t h => ?_
  rw [Finset.erase_insert hB] at h
  exact ⟨⟨_, rfl, reports_inodeStat h.lays hn hin hd st⟩, h⟩

/-! ### Writes before -/

/-- From `s₀` on, inode `i` has been written up to the offsets `ends`. Between the writes there may be calls that leave the contents
of the file as they are. -/
inductive Grew (lim : ℕ) (sb : Superblock) (X : Finset ℕ) (i : ℕ) (s₀ : FS) : List ℕ → FS → Prop where
  /-- The beginning. -/
  | start : Grew lim sb X i s₀ [] s₀
  /-- `file_write` of the bytes `src` by process `pid`, with blocks for those of them that the largest file has room for. -/
  | write {ends : List ℕ} {s t : FS} (pid : ℕ) (f : Fin NFILE) (ip : InodePtr) (off : ℕ) (src : List UInt8) (n : Node) {r : Bool} :
      Grew lim sb X i s₀ ends s → (s.procs.files.file f).ip = some ip → (s.procs.files.file f).off.toNat = off →
      0 < (s.inode ip).ref → (s.inode ip).inum = i → tree sb (s.store.home lim) none i = some n → n.type ≠ T_DEV → off ≤ n.data.length →
      need (s.store.home lim) (dinodeAt (s.store.home lim) i) (writeSlots off (fitLen off src.length)) ≤
        (freeBlocks lim sb (s.store.home lim)).card →
      ((fileWrite f src).run (sem pid)).run s = (.ok r, t) → Grew lim sb X i s₀ (ends ++ [off + fitLen off src.length]) t
  /-- Other calls. -/
  | other {ends : List ℕ} {s t : FS} : Grew lim sb X i s₀ ends s → Idle lim sb X (t.store.home lim) t →
      (tree sb (t.store.home lim) none i).map Node.data = (tree sb (s.store.home lim) none i).map Node.data → Grew lim sb X i s₀ ends t

theorem Idle.home_eq (h : Idle lim sb X D s) : s.store.home lim = D := h.doing.shows.home

theorem Grew.size {ends : List ℕ} {n₀ : Node} (h : Grew lim sb X i s₀ ends t) (hs : Idle lim sb X (s₀.store.home lim) s₀)
    (hn : tree sb (s₀.store.home lim) none i = some n₀) : Idle lim sb X (t.store.home lim) t ∧
      ∃ n, tree sb (t.store.home lim) none i = some n ∧ n.data.length = ends.foldl max n₀.data.length := by
  induction h with
  | start => exact ⟨hs, n₀, hn, rfl⟩
  | @write ends s t pid f ip off src n _ _ hfile hoff href hin hnode hdev hle hfree hrun ih =>
    obtain ⟨hidle, n', hn', hlen⟩ := ih
    obtain rfl : n = n' := Option.some.inj (hnode.symm.trans hn')
    subst hin
    obtain ⟨_, t', hrun', -, D', hdoing, htree⟩ := run_full lim pid (hidle.doing.runs_writeChunks (fun _ => hidle.log) hidle.bits id
      (.inr ⟨href, rfl⟩) (Finset.notMem_empty ip) hfile hoff hnode hdev hle le_rfl (Finset.Subset.refl _) fun _ => hfree)
    cases congrArg Prod.snd (hrun.symm.trans hrun')
    have hidle' : Idle lim sb X D' t := ⟨hdoing.rebase, hdoing.size.symm ▸ hidle.log, hidle.bits⟩
    rw [hidle'.home_eq]
    refine ⟨hidle', _, by rw [htree, Function.update_self], ?_⟩
    rw [List.foldl_append, ← hlen]
    refine (length_overlay _ hle).trans ?_
    rw [List.length_take, Nat.min_eq_left (fitLen_le ..)]
    rfl
  | other _ hidle hdata ih =>
    obtain ⟨-, n', hn', hlen⟩ := ih
    rw [hn'] at hdata
    obtain ⟨n, hn, hd⟩ := Option.map_eq_some_iff.mp hdata
    exact ⟨hidle, n, hn, by rw [hd, hlen]⟩

/-! ### The call -/

/-- The `struct file_stat` at address `a` of process `p`. -/
def userStat (v : Vm) (p a : ℕ) : StatBytes := fun x => v.userByte p (a + x)

/-- The kernel's copy gets the number, the type, the links and the size of the inode as they are, and the size is the largest end of
a write. No byte of the processes changes; so the process has them if it has had them before. -/
theorem fstat_reports (pid : ℕ) (kva userSt : UInt32) {fd : BitVec 32} {s : StatState} {ends : List ℕ} {n₀ : Node}
    (hs₀ : Idle lim sb X (s₀.store.home lim) s₀) (hn₀ : tree sb (s₀.store.home lim) none i = some n₀)
    (hgrew : Grew lim sb X i s₀ ends s.fs) (hfd : s.fs.procs.files.lookup pid fd.toInt = some f)
    (htype : (s.fs.procs.files.file f).type = .inode) (hfile : (s.fs.procs.files.file f).ip = some ip) (href : 0 < (s.fs.inode ip).ref)
    (hin : (s.fs.inode ip).inum = i) (hv : Isolated s.vm) (hp : 1 ≤ pid) (hlo : Paging.VM_USERLO ≤ userSt.toNat)
    (hhi : userSt.toNat + 20 ≤ Paging.VM_USERHI) :
    ∃ t n, sysFstat pid kva userSt fd s = (.ok .succ, t) ∧ Idle lim sb X (s.fs.store.home lim) t.fs ∧
      tree sb (s.fs.store.home lim) none i = some n ∧ n.data.length = ends.foldl max n₀.data.length ∧ Reports t.st i n ∧
      (∀ p a, 1 ≤ p → UserPage (a / PAGESIZE) → s.vm.Present p (a / PAGESIZE) → t.vm.userByte p a = s.vm.userByte p a) ∧
      ((∀ k < 20, s.vm.Present pid ((userSt.toNat + k) / PAGESIZE)) → Reports (userStat s.vm pid userSt.toNat) i n →
        Reports (userStat t.vm pid userSt.toNat) i n) := by
  obtain ⟨hidle, n, hn, hsize⟩ := hgrew.size hs₀ hn₀
  have hip : Has s.fs [] ip i := .inr ⟨href, hin⟩
  obtain ⟨_, t, hrun, ⟨st', rfl, hst⟩, hdoing⟩ := run_full lim pid (hidle.doing.runs_fileStat hip (Finset.notMem_empty ip) htype hfile hn
    fun x => (s.vm.ptCopyin pid userSt kva 20).bytes.getD x (s.st x))
  have hun : Untouched s.vm (s.vm.ptCopyin pid userSt kva 20).vm (fun _ _ => True) (fun _ _ => False) := by
    unfold ptCopyin
    split_ifs
    · exact untouched_copyin hv hp hlo hhi 20 0
    · exact .refl _ _ _
  have hbyte : ∀ p a, 1 ≤ p → UserPage (a / PAGESIZE) → s.vm.Present p (a / PAGESIZE) →
      (s.vm.ptCopyin pid userSt kva 20).vm.userByte p a = s.vm.userByte p a := fun p a hp hq hpr => hun.byte p a hp hq hpr id
  refine ⟨⟨t, (s.vm.ptCopyin pid userSt kva 20).vm, st'⟩, n, ?_, ⟨hdoing.rebase, hdoing.size.symm ▸ hidle.log, hidle.bits⟩, hn, hsize, hst, hbyte,
    fun hpres hrep => ?_⟩
  · have hok : ¬ (fd.toInt < 0 ∨ NOFILE ≤ fd.toInt ∨ userSt < VM_USERLO ∨ VM_USERHI < userSt + 20) := by
      have hrange : 0 ≤ fd.toInt ∧ fd.toInt < NOFILE := by
        by_contra hout
        rw [Files.lookup, if_neg hout] at hfd
        cases hfd
      have hadd : (userSt + 20).toNat = userSt.toNat + 20 :=
        toNat_add_size (show 20 ≤ 20 from le_rfl) hhi
      rw [UInt32.lt_iff_toNat_lt, UInt32.lt_iff_toNat_lt, hadd]
      have h1 : VM_USERLO.toNat = Paging.VM_USERLO := rfl
      have h2 : VM_USERHI.toNat = Paging.VM_USERHI := rfl
      omega
    unfold sysFstat
    rw [if_neg hok, hfd]
    dsimp only
    rw [hrun]
  · have hsame : userStat (s.vm.ptCopyin pid userSt kva 20).vm pid userSt.toNat = userStat s.vm pid userSt.toNat := by
      funext x
      exact hbyte pid _ hp (userPage_of_mem_pagesOf hlo hhi (mem_pagesOf (Nat.le_add_right ..) (by omega))) (hpres x x.isLt)
    rwa [hsame]

def twoProcs : Vm :=
  (start2G.step (.split 0 1000)).step (.split 0 1000)

theorem fstat_reports_small : ∃ t n, sysFstat 2 0x100000 0x40000000 0 ⟨smallOpen, twoProcs, fun _ => 0⟩ = (.ok .succ, t) ∧
    tree mkfsSb smallDisk none 2 = some n ∧ Reports t.st 2 n := by
  have h0 : Isolated Vm.start2G := isolated_pdirInitKern mem2G (by decide) _
  have hi : Isolated twoProcs := ((h0.step (a := .split 0 1000) trivial trivial).1.step (a := .split 0 1000) trivial trivial).1
  have hhome : smallOpen.store.home 1014 = smallDisk := idle_smallOpen.home_eq
  have hs : Idle 1014 mkfsSb ∅ (smallOpen.store.home 1014) smallOpen := hhome.symm ▸ idle_smallOpen
  have hfd : smallOpen.procs.files.lookup 2 (0 : BitVec 32).toInt = some 0 := by decide
  have href : 0 < (smallOpen.inode 0).ref := by decide
  -- the memory need not be evaluated
  generalize twoProcs = v at hi
  obtain ⟨t, n, h1, -, h2, -, h3, -⟩ := fstat_reports (f := 0) (s := ⟨smallOpen, v, fun _ => 0⟩) 2 0x100000 0x40000000 hs
    (hhome.symm ▸ tree_smallFile) .start hfd rfl rfl href rfl hi (by decide) (by decide) (by decide)
  exact ⟨t, n, h1, hhome ▸ h2, h3⟩

/-- `sys_fstat` of the file of the small disk, which is inode `2`, succeeds, and the process finds inode `0`. -/
theorem fstat_not_copied :
    let r := sysFstat 2 0x100000 0x40000000 0 ⟨smallOpen, twoProcs, fun _ => 0⟩
    (r.1 matches .ok .succ) ∧ getLE r.2.st 8 4 = 2 ∧ getLE (userStat r.2.vm 2 0x40000000) 8 4 = 0 := by
  simp only [twoProcs, Vm.start2G, Vm.pdirInitKern]
  decide +kernel

end MCertiKOS.FileSystem.Fs
