import MCertiKOS.FileSystem.Listing
import MCertiKOS.FileSystem.UserPath

/-!
# The working directory

`sys_pwd` of `kern/trap/TSyscall/TSyscall.c` and `sys_chdir` of `kern/fs/sysfile.c`. `sys_pwd` climbs from the
working directory to the root and keeps the name of each directory on the way in a row of `arr`. It reads inodes that
are not locked, so their copies have to be in the inode cache (`Climb.runs_pwdLoop`). In the end it goes through the
rows backwards, but does not copy the names: it moves `p` on by their lengths and stores slashes. What comes out is a
path, from the root but without a slash before it, if there is one name at most (`pwdBytes_nil`, `pwdBytes_single`).
-/

namespace MCertiKOS.FileSystem.Fs

open Library Memory Thread Vm List
open Function (update update_apply update_of_ne update_self)

variable {M : Mode} {pid : ℕ} {sb : Superblock} {X : Finset ℕ} {u : Bool} {K : Finset ℕ} {D : Disk} {s₀ s t : FS}
  {L : List (InodePtr × ℕ)} {B : Finset InodePtr} {dp ip jp : InodePtr} {i j k m : ℕ} {n : Node} {name path : List UInt8}

/-! ### Changing the working directory -/

theorem Doing.spare_le (h : Doing M sb X u K D s₀ L B t) : (spare s₀).card ≤ (spare t).card + L.length := by
  have hsub : spare s₀ ⊆ spare t ∪ (L.map Prod.fst).toFinset := fun ip hip => by
    by_cases hL : ip ∈ L.map Prod.fst
    · exact Finset.mem_union_right _ (mem_toFinset.mpr hL)
    · refine Finset.mem_union_left _ (Finset.mem_filter.mpr ⟨Finset.mem_univ ip, ?_⟩)
      rw [h.cached.refs ip, (Finset.mem_filter.mp hip).2, count_eq_zero.mpr hL]
      rfl
  have hcard := (toFinset_card_le (L.map Prod.fst)).trans_eq (length_map ..)
  exact (Finset.card_le_card hsub).trans ((Finset.card_union_le ..).trans (Nat.add_le_add_left hcard _))

theorem Doing.lend (h : Doing M sb X u K D s₀ L B t) (hpos : 0 < (t.inode ip).ref) (hin : (t.inode ip).inum = i) :
    Doing M sb X u K D (t.setInode ip { t.inode ip with ref := (t.inode ip).ref - 1 }) [(ip, i)] B t := by
  have hself : (t.setInode ip { t.inode ip with ref := (t.inode ip).ref - 1 }).inode ip = { t.inode ip with ref := (t.inode ip).ref - 1 } :=
    update_self ..
  have hne : ∀ jp, jp ≠ ip → (t.setInode ip { t.inode ip with ref := (t.inode ip).ref - 1 }).inode jp = t.inode jp := fun jp hj =>
    update_of_ne hj ..
  have hc := h.cached
  refine ⟨h.shows, rfl, h.lays, ⟨fun jp => ?_, fun jp => ?_, fun jp _ => ?_, ?_, hc.busy, hc.locked, hc.uniq, hc.copy⟩, rfl, rfl, rfl, rfl⟩
  · by_cases hj : jp = ip
    · rw [hj, hself]
      dsimp only
      omega
    · rw [hne jp hj]
      exact hc.nonneg jp
  · by_cases hj : jp = ip
    · rw [hj, hself]
      simp
    · rw [hne jp hj]
      simp [Ne.symm hj]
  · by_cases hj : jp = ip
    · rw [hj, hself]
    · rw [hne jp hj]
  · rintro p hp
    rw [mem_singleton.mp hp]
    exact hin

theorem Doing.runs_sysChdir (hl : Linked M.total sb D s) (h : Doing M sb X u K D s [] ∅ s) (hcwd : Cwd M.total sb D s pid i)
    (hold : (dinodeAt D i).nlink ≠ 0) (hspare : M.total → 2 ≤ (spare s).card)
    (hw : walk (tree sb D none) (startAt i (userPath path)) (components (userPath path)) = some j)
    (hj : dirAt (tree sb D none) j = some n) : (M.guard pid).Runs (sysChdir path) (fun r t => r = .succ ∧ Cwd M.total sb D t pid j ∧
      (spare s).card ≤ (spare t).card + 1 ∧ Doing M sb X u K D t [] ∅ t) s := by
  obtain ⟨hn, htype⟩ := dirAt_some hj
  obtain ⟨old, hcold, hpos, hin⟩ := hcwd.entry
  have hnone : ∀ ip : InodePtr, ip ∉ (∅ : Finset InodePtr) := Finset.notMem_empty
  unfold sysChdir
  have hname := h.runs_namei hl (userPath path) (fun _ => hcwd) hspare
  rw [hw] at hname
  refine hname.bind ?_
  rintro _ t ⟨ip, rfl, h⟩
  have hip : Has s [(ip, j)] ip j := .inl mem_cons_self
  refine (h.runs_inodeLock hip (tree_some hn).1 (fun _ => by rw [hn]; nofun) fun _ => hnone ip).bind fun _ t h => ?_
  refine (h.2.runs_size hip (Finset.mem_insert_self ..) hn).bind fun v t ⟨⟨_, hty, _⟩, h⟩ => ?_
  rw [hty, if_neg (not_not.mpr htype)]
  refine (h.runs_inodeUnlock (Finset.mem_insert_self ..)).bind fun _ t h => ?_
  rw [Finset.erase_insert (hnone ip)] at h
  have hgetOld : (M.guard pid).Runs (Code.op .oldCwd) (fun r t => r = s.cwd pid ∧ Doing M sb X u K D s [(ip, j)] ∅ t) t := h.runs_cwd
  refine hgetOld.bind ?_
  rintro _ t ⟨rfl, h⟩
  rw [hcold]
  -- the reference of the old working directory is given back
  have hhas : Has s [(ip, j)] old i := .inr ⟨hpos, hin⟩
  have hspare1 := h.spare_le
  have hlent := h.lend (h.pos_of_has hhas) (h.inum_of_has hhas)
  set s1 := t.setInode old { t.inode old with ref := (t.inode old).ref - 1 } with hs1
  have hip1 : 0 < (s1.inode ip).ref ∧ (s1.inode ip).inum = j := by
    have hrefs := h.refs_single ip
    rw [if_pos rfl] at hrefs
    have hstart := h.cached.start ip
    by_cases e : ip = old
    · subst e
      rw [show s1.inode ip = _ from update_self ..]
      exact ⟨by dsimp only; omega, h.inum_of_has hip⟩
    · rw [show s1.inode ip = t.inode ip from update_of_ne e ..]
      exact ⟨by omega, h.inum_of_has hip⟩
  have hsub : spare t ⊆ spare s1 := fun jp hjp => by
    have h0 := (Finset.mem_filter.mp hjp).2
    refine Finset.mem_filter.mpr ⟨Finset.mem_univ jp, ?_⟩
    have hne : jp ≠ old := fun e => by
      have := h.pos_of_has hhas
      rw [← e] at this
      omega
    rw [show s1.inode jp = t.inode jp from update_of_ne hne .., h0]
  refine (hlent.runs_inodePut mem_cons_self (fun hb => absurd hb (hnone old)) (.inl hold)).bind fun _ t' h' => ?_
  rw [erase_cons_head] at h'
  have hspare2 := h'.spare_le
  have hcard := Finset.card_le_card hsub
  refine (h'.runs_setCwd ip).bind ?_
  rintro _ t'' ⟨⟨hcwd', hinode⟩, h''⟩
  have hsame : spare t'' = spare t' := by
    unfold spare
    rw [hinode]
  refine ⟨rfl, ⟨⟨ip, hcwd', ?_, ?_⟩, (tree_some hn).1, fun _ => by rw [hn]; nofun⟩, ?_, h''⟩
  · rw [hinode]
    exact h'.pos_of_has (.inr hip1)
  · rw [hinode]
    exact h'.inum_of_has (.inr hip1)
  · rw [hsame]
    simp only [length_singleton, length_nil] at hspare1 hspare2
    omega

/-! ### Climbing -/

/-- Inode `i` has an entry in the inode cache, with the copy that is on disk. -/
def Loaded (D : Disk) (s : FS) (i : ℕ) : Prop := ∃ ip, 0 < (s.inode ip).ref ∧ (s.inode ip).inum = i ∧ (s.inode ip).d = dinodeAt D i

/-- There may be more references in `t` to the entries in use, and nothing else has changed in the inode cache. -/
structure MoreRefs (s t : FS) : Prop where
  copy : ∀ ip, (t.inode ip).d = (s.inode ip).d
  inum : ∀ ip, (t.inode ip).inum = (s.inode ip).inum
  ref : ∀ ip, (s.inode ip).ref ≤ (t.inode ip).ref
  spare : ∀ ip, (s.inode ip).ref = 0 → (t.inode ip).ref = 0

theorem MoreRefs.of_eq (h : t.inode = s.inode) : MoreRefs s t := by
  refine ⟨?_, ?_, ?_, ?_⟩ <;> intro ip <;> simp [h]

theorem MoreRefs.trans {v : FS} (h : MoreRefs s t) (h' : MoreRefs t v) : MoreRefs s v where
  copy ip := (h'.copy ip).trans (h.copy ip)
  inum ip := (h'.inum ip).trans (h.inum ip)
  ref ip := (h.ref ip).trans (h'.ref ip)
  spare ip h0 := h'.spare ip (h.spare ip h0)

theorem MoreRefs.card_spare (h : MoreRefs s t) : (Fs.spare s).card ≤ (Fs.spare t).card :=
  Finset.card_le_card fun ip hip => Finset.mem_filter.mpr ⟨Finset.mem_univ ip, h.spare ip (Finset.mem_filter.mp hip).2⟩

theorem Loaded.mono (h : Loaded D s i) (hm : MoreRefs s t) : Loaded D t i := by
  obtain ⟨ip, hpos, hin, hd⟩ := h
  exact ⟨ip, hpos.trans_le (hm.ref ip), (hm.inum ip).trans hin, (hm.copy ip).trans hd⟩

theorem Doing.runs_inodeGet_used {o : FsOp InodePtr} (hsem : sem pid _ o = inodeGet i) (hok : (M.guard pid).ok t _ o)
    (h : Doing M sb X u K D s₀ L B t) (hpos : 0 < (t.inode ip).ref) (hin : (t.inode ip).inum = i) :
    (M.guard pid).Runs (Code.op o) (fun r t' => r = ip ∧ MoreRefs t t' ∧ Doing M sb X u K D s₀ ((ip, i) :: L) B t') t := by
  refine fun _ => ⟨hok, ?_⟩
  show wp (sem pid _ o) _ _ t
  rw [hsem]
  unfold inodeGet
  rw [wp_bind, wp_get]
  cases hfind : (List.finRange NINODE).find? fun ip => 0 < (t.inode ip).ref ∧ (t.inode ip).inum = i with
  | some jp =>
    have hjp := List.find?_some hfind
    rw [decide_eq_true_eq] at hjp
    obtain rfl := h.cached.uniq ip jp hpos hjp.1 (hin.trans hjp.2.symm)
    dsimp only
    rw [wp_bind, wp_set, wp_pure]
    have hset : ∀ jp, (t.setInode ip { t.inode ip with ref := (t.inode ip).ref + 1 }).inode jp =
        if jp = ip then { t.inode ip with ref := (t.inode ip).ref + 1 } else t.inode jp := fun jp => update_apply ..
    refine ⟨rfl, ⟨fun jp => ?_, fun jp => ?_, fun jp => ?_, fun jp h0 => ?_⟩, h.setInodes (h.cached.dup hpos hin)⟩ <;> rw [hset] <;>
      split_ifs with e
    · rw [e]
    · rfl
    · rw [e]
    · rfl
    · rw [e]
      exact Int.le_of_lt (Int.lt_succ _)
    · exact le_rfl
    · rw [e] at h0
      omega
    · exact h0
  | none =>
    have := List.find?_eq_none.mp hfind ip (mem_finRange ip)
    rw [decide_eq_true_eq] at this
    exact absurd ⟨hpos, hin⟩ this

theorem Doing.runs_dirLookup_used (h : Doing M sb X u K D s₀ L B t) (hc : (t.inode dp).d = dinodeAt D i)
    (hn : tree sb D none i = some n) (hd : IsDir n) (hf : n.lookup name = some (j, k)) (hpos : 0 < (t.inode ip).ref)
    (hin : (t.inode ip).inum = j) : (M.guard pid).Runs (dirLookup dp name) (fun r t' => r = some (ip, DESIZE * k) ∧ MoreRefs t t' ∧
      Doing M sb X u K D s₀ ((ip, j) :: L) B t') t := by
  unfold dirLookup
  refine (runs_node h.sees).bind ?_
  rintro _ t₁ ⟨rfl, hs⟩
  rw [hc, type_of_tree hn, hd.type, if_neg (not_not.mpr rfl), ← length_contents (D := D), contents_of_tree hn, entries_zero _ hd.whole]
  refine (hs.runs_lookupLoop (k := 0) h.lays hc hn hd (Nat.zero_add _)).bind ?_
  rintro _ t₁ ⟨rfl, hs⟩
  rw [drop_zero, show Slots.find (nameKey name) (slotsOf n.data) = some (j, k) from hf]
  show (M.guard pid).Runs (Code.op (.igetEntry dp name j) >>= fun ip => pure (some (ip, DESIZE * (0 + k)))) _ t₁
  have hrest : t₁.inode = t.inode := hs.rest.inode
  have hpos₁ : 0 < (t₁.inode ip).ref := by rwa [hrest]
  have hin₁ : (t₁.inode ip).inum = j := by rwa [hrest]
  have hget : (M.guard pid).Runs (Code.op (.igetEntry dp name j)) _ t₁ := Doing.runs_inodeGet_used rfl trivial (h.move hs) hpos₁ hin₁
  refine hget.bind ?_
  rintro _ t₂ ⟨rfl, hm, h⟩
  exact ⟨by rw [Nat.zero_add], (MoreRefs.of_eq hrest).trans hm, h⟩

theorem Sees.runs_pwdName (hs : Sees M u K [] D s t) (hl : Lays M.lim sb none X D) (hc : (s.inode dp).d = dinodeAt D i)
    (hn : tree sb D none i = some n) (hd : IsDir n) (inum : ℕ) (hm : k + m = n.data.length / DESIZE) :
    (M.guard pid).Runs (pwdName dp inum m (DESIZE * k))
      (fun r t => r = (((direntsOf n.data).drop k).find? (·.inum = inum)).map Dirent.name ∧ Sees M u K [] D s t) t := by
  induction m generalizing k t with
  | zero =>
    rw [drop_of_length_le (by rw [length_direntsOf]; omega)]
    exact ⟨rfl, hs⟩
  | succ m ih =>
    have hk : k < n.data.length / DESIZE := by omega
    unfold pwdName
    refine (hs.runs_entry hl hc hn hd hk).bind ?_
    rintro _ t ⟨rfl, hs⟩
    dsimp only
    rw [if_neg (not_not.mpr (length_entry n hk)), drop_direntsOf hk]
    by_cases hin : (getDirent ((n.data.drop (DESIZE * k)).take DESIZE)).inum = inum
    · rw [if_pos hin, List.find?_cons_of_pos (by simpa using hin)]
      exact ⟨rfl, hs⟩
    · rw [if_neg hin, List.find?_cons_of_neg (by simpa using hin)]
      exact ih (k := k + 1) hs (by omega)

/-- From inode `i` up to a directory that is its own parent, through inodes for which `P` holds: the entries for them. -/
inductive Climb (T : ℕ → Option Node) (P : ℕ → Prop) : ℕ → List (List UInt8) → Prop where
  /-- The top. -/
  | top {i k : ℕ} {n : Node} : P i → T i = some n → IsDir n → n.lookup dotdot = some (i, k) → Climb T P i []
  /-- A directory with a parent. -/
  | up {i j k : ℕ} {n m : Node} {e : Dirent} {names : List (List UInt8)} : P i → T i = some n → IsDir n → n.lookup dotdot = some (j, k) →
      j ≠ i → T j = some m → (direntsOf m.data).find? (·.inum = i) = some e → Climb T P j names → Climb T P i (e.name :: names)

variable {names : List (List UInt8)} {fuel : ℕ} {r : Node}

theorem Climb.dir {T : ℕ → Option Node} {P : ℕ → Prop} (h : Climb T P i names) : P i ∧ ∃ n, T i = some n ∧ IsDir n := by
  cases h with
  | top hp hn hd => exact ⟨hp, _, hn, hd⟩
  | up hp hn hd => exact ⟨hp, _, hn, hd⟩

theorem Climb.runs_pwdLoop (hcl : Climb (tree sb D none) (Loaded D s) i names)
    (h : Doing M sb X u K D s₀ L B t) (hm : MoreRefs s t) (hpos : 0 < (t.inode ip).ref) (hin : (t.inode ip).inum = i)
    (hfuel : names.length < fuel) : (M.guard pid).Runs (pwdLoop fuel ip) (fun r t' => r = names ∧ MoreRefs t t' ∧
      ∃ L, Doing M sb X u K D s₀ L B t') t := by
  -- the entry of an inode is the one with the copy
  have hentry : ∀ {t : FS} {L : List (InodePtr × ℕ)} {ip : InodePtr} {j : ℕ}, Doing M sb X u K D s₀ L B t → MoreRefs s t →
      0 < (t.inode ip).ref → (t.inode ip).inum = j → Loaded D s j → (t.inode ip).d = dinodeAt D j := by
    intro t L ip j h hm hpos hin hload
    obtain ⟨jp, hjpos, hjin, hd⟩ := hload.mono hm
    obtain rfl := h.cached.uniq ip jp hpos hjpos (hin.trans hjin.symm)
    exact hd
  induction hcl generalizing t L ip fuel with
  | @top i k n hload hn hd hup =>
    obtain ⟨fuel, rfl⟩ := Nat.exists_eq_succ_of_ne_zero (by omega : fuel ≠ 0)
    rw [pwdLoop]
    refine (h.runs_dirLookup_used (hentry h hm hpos hin hload) hn hd hup hpos hin).bind ?_
    rintro _ t₁ ⟨rfl, hm₁, h⟩
    dsimp only
    refine (runs_node h.sees).bind ?_
    rintro _ t₂ ⟨rfl, hs⟩
    refine (runs_node hs).bind ?_
    rintro _ t₃ ⟨rfl, hs⟩
    rw [if_pos rfl]
    exact ⟨rfl, hm₁.trans (.of_eq hs.rest.inode), _, h.move hs⟩
  | @up i j k n m e names hload hn hd hup hne hnj hfind hcl ih =>
    obtain ⟨fuel, rfl⟩ := Nat.exists_eq_succ_of_ne_zero (by omega : fuel ≠ 0)
    obtain ⟨hloadj, m', hnj', hdj⟩ := hcl.dir
    obtain rfl : m = m' := Option.some.inj (hnj.symm.trans hnj')
    obtain ⟨jp, hjpos, hjin, hjd⟩ := hloadj.mono hm
    rw [pwdLoop]
    refine (h.runs_dirLookup_used (hentry h hm hpos hin hload) hn hd hup hjpos hjin).bind ?_
    rintro _ t₁ ⟨rfl, hm₁, h⟩
    dsimp only
    refine (runs_node h.sees).bind ?_
    rintro _ t₂ ⟨rfl, hs⟩
    refine (runs_node hs).bind ?_
    rintro _ t₃ ⟨rfl, hs⟩
    have hd₁ : (t₁.inode jp).d = dinodeAt D j := (hm₁.copy jp).trans hjd
    rw [hm₁.inum, hm₁.inum, hin, hjin, if_neg hne, hd₁, ← length_contents (D := D), contents_of_tree hnj, entries_zero _ hdj.whole]
    refine (hs.runs_pwdName (k := 0) h.lays hd₁ hnj hdj i (Nat.zero_add _)).bind ?_
    rintro _ t₄ ⟨rfl, hs⟩
    rw [drop_zero, hfind]
    have hm₄ : MoreRefs t t₄ := hm₁.trans (.of_eq hs.rest.inode)
    have hfuel' : names.length < fuel := Nat.lt_of_succ_lt_succ hfuel
    refine (ih (h.move hs) (hm.trans hm₄) (hjpos.trans_le (hm₄.ref jp)) ((hm₄.inum jp).trans hjin) hfuel').bind ?_
    rintro _ t₅ ⟨rfl, hm₅, hex⟩
    exact ⟨rfl, hm₄.trans hm₅, hex⟩

theorem Doing.runs_getCwd_used (h : Doing M sb X u K D s [] B s) (hcwd : Cwd M.total sb D s pid i ∨ s.cwd pid = none ∧ i = ROOTINO)
    (hload : Loaded D s i) : (M.guard pid).Runs getCwd (fun ip t => (t.cwd pid = some ip ∧ 0 < (t.inode ip).ref ∧ (t.inode ip).inum = i) ∧
      MoreRefs s t ∧ Doing M sb X u K D t [] B t) s := by
  unfold getCwd
  have hread : (M.guard pid).Runs (Code.op .cwd) (fun r t => r = s.cwd pid ∧ Sees M u K [] D s t) s := by
    refine fun _ => ⟨trivial, ?_⟩
    show wp (do return (← get).cwd pid : Prog FS FsStop _) _ _ s
    rw [wp_bind, wp_get, wp_pure]
    exact ⟨rfl, h.sees⟩
  refine hread.bind ?_
  rintro _ t ⟨rfl, hs⟩
  have hinode : t.inode = s.inode := hs.rest.inode
  rcases hcwd with ⟨⟨ip, hip, hpos, hin⟩, -, -⟩ | ⟨hnone, rfl⟩
  · rw [hip]
    exact ⟨⟨(congrFun hs.rest.cwd pid).trans hip, by rwa [hinode], by rwa [hinode]⟩, .of_eq hinode, (h.move hs).rebase⟩
  · rw [hnone]
    obtain ⟨ip, hpos, hin, -⟩ := hload
    have hpos1 : 0 < (t.inode ip).ref := by rwa [hinode]
    have hin1 : (t.inode ip).inum = ROOTINO := by rwa [hinode]
    have hget : (M.guard pid).Runs (Code.op .igetRoot) _ t := Doing.runs_inodeGet_used rfl trivial (h.move hs) hpos1 hin1
    refine hget.bind ?_
    rintro jp t1 ⟨rfl, hm, h1⟩
    refine (h1.runs_setCwd jp).bind ?_
    rintro _ t2 ⟨⟨hcwd, hinode2⟩, h2⟩
    have hm2 : MoreRefs s t2 := (MoreRefs.of_eq hinode).trans (hm.trans (.of_eq hinode2))
    exact ⟨⟨hcwd, hpos.trans_le (hm2.ref jp), (hm2.inum jp).trans hin⟩, hm2, h2⟩

theorem Doing.runs_sysPwd (h : Doing M sb X u K D s [] ∅ s)
    (hcwd : Cwd M.total sb D s pid i ∨ s.cwd pid = none ∧ i = ROOTINO) (hcl : Climb (tree sb D none) (Loaded D s) i names)
    (hfuel : names.length < fuel) : (M.guard pid).Runs (sysPwd fuel) (fun r t => r = names ∧ Cwd M.total sb D t pid i ∧ MoreRefs s t ∧
      Doing M sb X u K D t [] ∅ t) s := by
  obtain ⟨hload, n, hn, -⟩ := hcl.dir
  unfold sysPwd
  refine (h.runs_getCwd_used hcwd hload).bind ?_
  rintro ip t ⟨⟨hip, hpos, hin⟩, hm, h⟩
  refine (hcl.runs_pwdLoop h hm hpos hin hfuel).mono ?_
  rintro _ t' ⟨rfl, hm', L, h'⟩
  exact ⟨rfl, ⟨⟨ip, (congrFun h'.cwd pid).trans hip, hpos.trans_le (hm'.ref ip), (hm'.inum ip).trans hin⟩, (tree_some hn).1,
    fun _ => by rw [hn]; nofun⟩, hm.trans hm', h'.rebase⟩

/-! ### The path -/

/-- A row of `arr`. -/
abbrev ROW : ℕ := 100

/-- `strncpy(arr[k], de.name, DIRSIZ); arr[k][DIRSIZ] = 0`, for the names from row `k` on. -/
def pwdRows : ℕ → (ℤ → UInt8) → List (List UInt8) → ℤ → UInt8
  | _, m, [] => m
  | k, m, name :: names =>
    pwdRows (k + 1) (storeBytes m (ROW * k) (nameKey name ++ List.replicate (DIRSIZ + 1 - (nameKey name).length) 0)) names

/-- `strnlen(arr[k], sizeof(arr[k]))`. -/
def rowLen (m : ℤ → UInt8) (k : ℕ) : ℕ := (cString ((List.range ROW).map fun x : ℕ => m (ROW * k + x))).length

/-- The last loop of `sys_pwd`, for the rows below `k`: the memory and `p`. -/
def pwdSlashes : ℕ → (ℤ → UInt8) → ℕ → (ℤ → UInt8) × ℕ
  | 0, m, p => (m, p)
  | k + 1, m, p =>
    let p := p + rowLen m k
    pwdSlashes k (update m p slash) (p + 1)

/-- What `sys_pwd` copies to the process, if `arr` has the bytes `m` before. -/
def pwdBytes (m : ℤ → UInt8) (names : List (List UInt8)) : List UInt8 :=
  let (m, p) := pwdSlashes names.length (pwdRows 0 m names) 0
  let m := update m p 0
  (List.range (p + 1)).map fun x : ℕ => m x

/-- The file system and the memory of the processes. -/
structure DirState where
  fs : FS
  vm : Vm

/-- `sys_pwd` of process `pid`, with `arr` at `kva` and with the bytes `m` in it; at most `fuel` rounds of the loop. -/
def sysPwdCall (pid fuel : ℕ) (kva userBuf : UInt32) (m : ℤ → UInt8) (s : DirState) : Except FsStop PUnit × DirState :=
  match ((sysPwd fuel).run (sem pid)).run s.fs with
  | (.error e, fs) => (.error e, ⟨fs, s.vm⟩)
  | (.ok names, fs) => (.ok ⟨⟩, ⟨fs, (s.vm.ptCopyout pid kva userBuf (pwdBytes m names)).vm⟩)

/-- `sys_chdir` of process `pid`, with `path` in `buf`. -/
def sysChdirCall (pid : ℕ) (buf : PathBuf) (path len : UInt32) (s : DirState) : Except FsStop Errno × DirState :=
  let (vm, bs) := copyPath s.vm pid buf path len
  let (r, fs) := ((sysChdir bs).run (sem pid)).run s.fs
  (r, ⟨fs, vm⟩)

theorem pwdBytes_nil (m : ℤ → UInt8) : pwdBytes m [] = [0] := by
  simp [pwdBytes, pwdSlashes, pwdRows]

theorem zero_notMem_nameKey (name : List UInt8) : (0 : UInt8) ∉ nameKey name := fun h => by
  simpa using mem_takeWhile_imp h

theorem length_nameKey_le (name : List UInt8) : (nameKey name).length ≤ DIRSIZ :=
  (List.takeWhile_prefix _).length_le.trans (length_take_le ..)

theorem nameKey_nameKey (name : List UInt8) : nameKey (nameKey name) = nameKey name := by
  rw [nameKey, take_of_length_le (length_nameKey_le name), cString_eq_self (zero_notMem_nameKey name)]

theorem rowLen_store (m : ℤ → UInt8) (name : List UInt8) :
    rowLen (storeBytes m (ROW * (0 : ℕ)) (nameKey name ++ List.replicate (DIRSIZ + 1 - (nameKey name).length) 0)) 0 = (nameKey name).length := by
  have hle := length_nameKey_le name
  set row := nameKey name ++ List.replicate (DIRSIZ + 1 - (nameKey name).length) 0 with hrow
  have hlen : row.length = DIRSIZ + 1 := by
    rw [hrow, length_append, length_replicate]
    omega
  have hbytes : (List.range ROW).map (fun x : ℕ => storeBytes m (ROW * (0 : ℕ)) row (ROW * (0 : ℕ) + x)) =
      row ++ ((List.range (ROW - row.length)).map (row.length + ·)).map fun x : ℕ => storeBytes m (ROW * (0 : ℕ)) row (ROW * (0 : ℕ) + x) := by
    rw [show List.range ROW = List.range (row.length + (ROW - row.length)) by rw [hlen]; rfl, range_add, map_append,
      map_storeBytes row le_rfl, take_length]
  have hzero : row = nameKey name ++ 0 :: List.replicate (DIRSIZ - (nameKey name).length) 0 := by
    rw [hrow, show DIRSIZ + 1 - (nameKey name).length = DIRSIZ - (nameKey name).length + 1 by omega, replicate_succ]
  rw [rowLen, hbytes, hzero, append_assoc, cons_append, cString_append_zero, cString_eq_self (zero_notMem_nameKey name)]

theorem pwdBytes_single (m : ℤ → UInt8) (name : List UInt8) : pwdBytes m [name] = nameKey name ++ [slash] ++ [0] := by
  have hle := length_nameKey_le name
  have hstore : pwdRows 0 m [name] = storeBytes m (ROW * (0 : ℕ)) (nameKey name ++ List.replicate (DIRSIZ + 1 - (nameKey name).length) 0) := rfl
  simp only [pwdBytes, length_singleton, pwdSlashes, hstore, rowLen_store, Nat.zero_add]
  refine ext_getElem (by simp) fun x h1 h2 => ?_
  rw [length_map, length_range] at h1
  rw [getElem_map, getElem_range]
  rcases (by omega : x < (nameKey name).length ∨ x = (nameKey name).length ∨ x = (nameKey name).length + 1) with hx | rfl | rfl
  · rw [update_of_ne (by omega), update_of_ne (by omega), storeBytes_apply, if_pos (by simp; omega)]
    simp [hx, List.getElem?_append_left hx]
  · rw [update_of_ne (by omega), update_self]
    simp
  · rw [update_self]
    simp

/-! ### Back again -/

/-- The root directory: it is its own parent, and its names can be parts of paths. -/
structure RootDir (sb : Superblock) (D : Disk) (r : Node) : Prop extends IsMap r where
  node : tree sb D none ROOTINO = some r
  up : ∃ k, r.lookup dotdot = some (ROOTINO, k)
  proper : ∀ name ∈ r.names, name ≠ [] ∧ slash ∉ name ∧ name.length < DIRSIZ

/-- Inode `i` is the root, or a directory in it. -/
def AtTop (sb : Superblock) (D : Disk) (r : Node) (i : ℕ) : Prop :=
  i = ROOTINO ∨ i ≠ ROOTINO ∧ (∃ name k, r.lookup name = some (i, k)) ∧
    ∃ n k, tree sb D none i = some n ∧ IsDir n ∧ n.lookup dotdot = some (ROOTINO, k)

def Node.above (r : Node) (i : ℕ) : List (List UInt8) :=
  if i = ROOTINO then [] else (((direntsOf r.data).find? (·.inum = i)).map Dirent.name).toList

/-- What `sys_pwd` returns there. -/
def Node.pathTo (r : Node) (i : ℕ) : List UInt8 := (r.above i).flatMap fun name => nameKey name ++ [slash]

theorem slotsOf_eq_map (bs : List UInt8) :
    slotsOf bs = (direntsOf bs).map fun e => if e.inum = 0 then none else some (nameKey e.name, e.inum) := by
  rw [slotsOf, direntsOf, map_map]
  rfl

theorem getElem?_slotsOf {bs : List UInt8} {e : Option (List UInt8 × ℕ)} : (slotsOf bs)[k]? = some e ↔
    ∃ d, (direntsOf bs)[k]? = some d ∧ (if d.inum = 0 then none else some (nameKey d.name, d.inum)) = e := by
  rw [slotsOf_eq_map, List.getElem?_map, Option.map_eq_some_iff]

theorem lookup_of_find (hr : IsMap r) (h0 : i ≠ 0) {e : Dirent} (he : (direntsOf r.data).find? (·.inum = i) = some e) :
    nameKey e.name ∈ r.names ∧ ∃ k, r.lookup (nameKey e.name) = some (i, k) := by
  have hin : e.inum = i := by simpa using List.find?_some he
  obtain ⟨k, hk⟩ := mem_iff_getElem?.mp (mem_of_find?_eq_some he)
  have hslot : (slotsOf r.data)[k]? = some (some (nameKey e.name, i)) :=
    getElem?_slotsOf.mpr ⟨e, hk, by rw [if_neg (hin.symm ▸ h0), hin]⟩
  refine ⟨Slots.mem_keys_of_getElem? hslot, k, ?_⟩
  rw [Node.lookup, nameKey_nameKey]
  exact (Slots.find_eq_some hr.names).mpr hslot

theorem find_of_lookup (hr : IsMap r) (hl : r.lookup name = some (i, k)) :
    i ≠ 0 ∧ ∃ e, (direntsOf r.data).find? (·.inum = i) = some e := by
  obtain ⟨d, hd, he⟩ := getElem?_slotsOf.mp ((Slots.find_eq_some hr.names).mp hl)
  split_ifs at he with h0
  obtain ⟨-, rfl⟩ := Prod.mk.inj (Option.some.inj he)
  refine ⟨h0, Option.isSome_iff_exists.mp (List.find?_isSome.mpr ⟨d, mem_of_getElem? hd, by simp⟩)⟩

section Top

variable {r : Node}

section

variable (hr : RootDir sb D r) (hi : AtTop sb D r i)
include hr hi

theorem AtTop.above : i = ROOTINO ∧ r.above i = [] ∨
    ∃ e : Dirent, r.above i = [e.name] ∧ (direntsOf r.data).find? (·.inum = i) = some e ∧ i ≠ ROOTINO ∧ nameKey e.name ∈ r.names ∧
      ∃ k, r.lookup (nameKey e.name) = some (i, k) := by
  rcases hi with rfl | ⟨hne, ⟨name, k, hl⟩, -⟩
  · exact .inl ⟨rfl, if_pos rfl⟩
  · obtain ⟨h0, e, he⟩ := find_of_lookup hr.toIsMap hl
    refine .inr ⟨e, ?_, he, hne, lookup_of_find hr.toIsMap h0 he⟩
    rw [Node.above, if_neg hne, he]
    rfl

theorem AtTop.climb {P : ℕ → Prop} (hP : P i) (hroot : P ROOTINO) :
    Climb (tree sb D none) P i (r.above i) := by
  obtain ⟨k, hk⟩ := hr.up
  have htop : Climb (tree sb D none) P ROOTINO [] := .top hroot hr.node hr.toIsDir hk
  rcases hi.above hr with ⟨rfl, hab⟩ | ⟨e, hab, he, hne, -⟩
  · rw [hab]
    exact htop
  · rw [hab]
    obtain ⟨-, -, n, k', hn, hd, hup⟩ := hi.resolve_left hne
    exact .up hP hn hd hup (Ne.symm hne) hr.node he htop

theorem pwdBytes_above (m : ℤ → UInt8) : pwdBytes m (r.above i) = r.pathTo i ++ [0] := by
  unfold Node.pathTo
  rcases hi.above hr with ⟨-, hab⟩ | ⟨e, hab, -⟩
  · rw [hab, pwdBytes_nil]
    rfl
  · rw [hab, pwdBytes_single, flatMap_singleton]

end

theorem zero_notMem_pathTo (r : Node) (i : ℕ) : (0 : UInt8) ∉ r.pathTo i := by
  unfold Node.pathTo
  intro h
  obtain ⟨name, -, h⟩ := mem_flatMap.mp h
  rcases mem_append.mp h with h | h
  · exact zero_notMem_nameKey name h
  · exact absurd (mem_singleton.mp h) (by decide)

theorem length_pathTo_le (r : Node) (i : ℕ) : (r.pathTo i).length ≤ DIRSIZ + 1 := by
  unfold Node.pathTo Node.above
  split_ifs
  · exact Nat.zero_le _
  · cases (direntsOf r.data).find? (·.inum = i) with
    | none => exact Nat.zero_le _
    | some e =>
      have := length_nameKey_le e.name
      simpa using this

theorem walk_pathTo (hr : RootDir sb D r) (hi : AtTop sb D r i) :
    walk (tree sb D none) (startAt ROOTINO (r.pathTo i)) (components (r.pathTo i)) = some i := by
  have hstart : ∀ path, startAt ROOTINO path = ROOTINO := fun path => ite_self _
  rw [hstart, Node.pathTo]
  rcases hi.above hr with ⟨rfl, hab⟩ | ⟨e, hab, -, -, hmem, k, hl⟩
  · rw [hab]
    rfl
  · obtain ⟨hne, hslash, hlen⟩ := hr.proper _ hmem
    have hcomp : components (nameKey e.name ++ [slash]) = [nameKey e.name] := by
      rw [components, splitOn_slash hslash []]
      simpa [hne] using Nat.le_of_lt_succ hlen
    have hstep : stepTo (tree sb D none) ROOTINO (nameKey e.name) = some i := by
      rw [stepTo, dirAt_of_type hr.node hr.type, Option.bind_some, hl]
      rfl
    rw [hab, flatMap_singleton, hcomp]
    simp [walk, hstep]

variable {uva : UInt32}

theorem copyPath_present {v : Vm} (hpath : path.length ≤ 127) (h0 : (0 : UInt8) ∉ path) (buf : PathBuf)
    (hlo : Paging.VM_USERLO ≤ uva.toNat) (hhi : uva.toNat + path.length ≤ Paging.VM_USERHI)
    (hbytes : ∀ k < path.length, v.Present pid ((uva.toNat + k) / PAGESIZE) ∧ v.userByte pid (uva.toNat + k) = path.getD k 0) :
    copyPath v pid buf uva (UInt32.ofNat path.length) = (v, path) := by
  have hlen : (UInt32.ofNat path.length).toNat = path.length := UInt32.toNat_ofNat_of_lt' (by unfold UInt32.size; omega)
  have hclamp : (clampLen (UInt32.ofNat path.length)).toNat = path.length := by
    rw [toNat_clampLen, hlen]
    omega
  have haddr := buf.addr_le
  have hcopy : v.ptCopyin pid uva buf.addr (clampLen (UInt32.ofNat path.length)) =
      ⟨path.length, (List.range' uva.toNat path.length).map (v.physOf pid), (List.range' uva.toNat path.length).map (v.userByte pid), v⟩ := by
    unfold ptCopyin
    rw [if_pos (rangeOk_of_user hlo (by rwa [hclamp]) (by unfold Paging.VM_USERLO at haddr; unfold Paging.VM_USERHI; omega)), hclamp]
    refine copyin_present le_rfl hhi (fun a h1 h2 => ?_) 0
    have := (hbytes (a - uva.toNat) (by omega)).1
    rwa [Nat.add_sub_cancel' h1] at this
  have hmap : (List.range' uva.toNat path.length).map (v.userByte pid) = path := by
    refine ext_getElem (by simp) fun k h1 h2 => ?_
    rw [getElem_map, getElem_range', Nat.one_mul, (hbytes k h2).2, getD_eq_getElem _ _ h2]
  rw [hmap] at hcopy
  refine (copyPath_eq (congrArg Copied.bytes hcopy) (congrArg Copied.vm hcopy) hclamp.symm).trans ?_
  rw [cString_eq_self h0]

theorem userPath_pathTo (r : Node) (i : ℕ) : userPath (r.pathTo i) = r.pathTo i := by
  have hle := length_pathTo_le r i
  have h := userPath_cString (l := r.pathTo i) (by unfold DIRSIZ at hle; omega)
  rwa [cString_eq_self (zero_notMem_pathTo r i)] at h

theorem AtTop.nlink (hr : RootDir sb D r) (hi : AtTop sb D r i) (hl : ∀ s, Linked True sb D s) : (dinodeAt D i).nlink ≠ 0 := by
  -- in a state in which no inode is in use
  have h0 := hl { FS.boot D 0 with inode := fun _ => ⟨0, 0, false, false, ⟨0, 0, 0, 0, 0, fun _ => 0⟩⟩ }
  rcases hi with rfl | ⟨-, ⟨name, k, hf⟩, -⟩
  · exact h0.root.2.2
  · exact (h0.target ROOTINO r name i k (dirAt_of_type hr.node hr.type) hf).2.2.resolve_right fun ⟨_, hpos, _⟩ => lt_irrefl 0 hpos

theorem AtTop.dirAt (hr : RootDir sb D r) (hi : AtTop sb D r i) : ∃ n, dirAt (tree sb D none) i = some n := by
  rcases hi with rfl | ⟨-, -, n, k, hn, hd, -⟩
  · exact ⟨r, dirAt_of_type hr.node hr.type⟩
  · exact ⟨n, dirAt_of_type hn hd.type⟩

theorem sysChdirCall_pathTo (pid : ℕ) {lim : ℕ} (buf : PathBuf) {s : DirState} (hr : RootDir sb D r) (hi : AtTop sb D r i)
    (hs : Doing (full lim) sb X u K D s.fs [] ∅ s.fs) (hl : Linked True sb D s.fs) (hcwd : Cwd True sb D s.fs pid ROOTINO)
    (hspare : 2 ≤ (spare s.fs).card) (hlo : Paging.VM_USERLO ≤ uva.toNat) (hhi : uva.toNat + (r.pathTo i).length ≤ Paging.VM_USERHI)
    (hbytes : ∀ k < (r.pathTo i).length, s.vm.Present pid ((uva.toNat + k) / PAGESIZE) ∧
      s.vm.userByte pid (uva.toNat + k) = (r.pathTo i).getD k 0) :
    ∃ fs, sysChdirCall pid buf uva (UInt32.ofNat (r.pathTo i).length) s = (.ok .succ, ⟨fs, s.vm⟩) ∧ Cwd True sb D fs pid i ∧
      Doing (full lim) sb X u K D fs [] ∅ fs := by
  obtain ⟨n, hn⟩ := hi.dirAt hr
  have hle := length_pathTo_le r i
  have hw := walk_pathTo hr hi
  rw [← userPath_pathTo] at hw
  obtain ⟨_, fs, hrun, rfl, hcwd', -, hdoing⟩ := run_full lim pid (hs.runs_sysChdir hl hcwd hl.root.2.2 (fun _ => hspare) hw hn)
  refine ⟨fs, ?_, hcwd', hdoing⟩
  unfold sysChdirCall
  rw [copyPath_present (by unfold DIRSIZ at hle; omega) (zero_notMem_pathTo r i) buf hlo hhi hbytes]
  dsimp only
  rw [hrun]

end Top

theorem rootDir_small : RootDir mkfsSb smallDisk smallRootNode where
  toIsMap := isMap_smallRoot
  node := tree_smallRoot
  up := ⟨1, by
    rw [Node.lookup, show slotsOf smallRootNode.data = _ from slots_smallRoot]
    rfl⟩
  proper := by
    rw [names_smallRoot]
    decide

open scoped Fs.Sizes in
/-- A disk with the directories `a` in the root and `b` in `a`. -/
def deepDisk : Disk :=
  let dir (i up : ℕ) (rest : List UInt8) := putBytes (fun _ => 0) 0 (direntBytes i dot ++ direntBytes up dotdot ++ rest)
  let blocks := update (update (update (image 32) 29 (dir 1 1 (direntBytes 2 [97]))) 30 (dir 2 1 (direntBytes 3 [98])))
    31 (dir 3 2 [])
  stored (stored (stored blocks 1 ⟨T_DIR, 0, 0, 1, 48, fun k => if k = 0 then 29 else 0⟩) 2 ⟨T_DIR, 0, 0, 1, 48, fun k => if k = 0 then 30 else 0⟩)
    3 ⟨T_DIR, 0, 0, 1, 32, fun k => if k = 0 then 31 else 0⟩

/-- The directories are in the inode cache, and the working directory is the one in entry `ip`. -/
def deepCwd (ip : InodePtr) : FS :=
  { FS.ready deepDisk false with
    inode := fun jp => if jp.val < 3 then ⟨jp + 1, 1, false, true, dinodeAt deepDisk (jp + 1)⟩ else vacant jp
    cwd := fun _ => some ip }

end MCertiKOS.FileSystem.Fs
