import MCertiKOS.FileSystem.Contents
import Mathlib.Data.Finset.Card

/-!
# The inode cache

What `inode_get`, `inode_dup`, `inode_lock`, `inode_unlock` and `inode_put` do,
and reading and writing through a locked entry. A system call runs from a state
`s₀` in which no entry is locked. On its way (`Doing`) it has references of its own
(`L`: entries and the inodes they are for) and has locked some entries (`B`); all
other references are those of `s₀`. The copies of the inodes agree with the disk.
-/

namespace MCertiKOS.FileSystem.Fs

open Library List
open Function (update update_of_ne update_self)

/-- The inode cache `I` of a system call that began with `I₀`. -/
structure Cached (sb : Superblock) (D : Disk) (I₀ : InodePtr → Inode) (L : List (InodePtr × ℕ)) (B : Finset InodePtr)
    (I : InodePtr → Inode) : Prop where
  start : ∀ ip, 0 ≤ (I₀ ip).ref
  refs : ∀ ip, (I ip).ref = (I₀ ip).ref + (L.map Prod.fst).count ip
  kept : ∀ ip, 0 < (I₀ ip).ref → (I ip).inum = (I₀ ip).inum
  held : ∀ p ∈ L, (I p.1).inum = p.2
  busy : ∀ ip, (I ip).busy = true ↔ ip ∈ B
  locked : ∀ ip ∈ B, 0 < (I ip).ref ∧ (I ip).valid = true
  uniq : ∀ ip jp, 0 < (I ip).ref → 0 < (I jp).ref → (I ip).inum = (I jp).inum → ip = jp
  /-- If it has been read it is in use, and the copy is that on disk. -/
  copy : ∀ ip, 0 < (I ip).ref → (I ip).valid = true → tree sb D none (I ip).inum ≠ none ∧ (I ip).d = dinodeAt D (I ip).inum

/-- A system call that began in `s₀`. -/
structure Doing (M : Mode) (sb : Superblock) (X : Finset ℕ) (u : Bool) (K : Finset ℕ) (D : Disk) (s₀ : FS) (L : List (InodePtr × ℕ))
    (B : Finset InodePtr) (t : FS) : Prop where
  shows : Shows M u K [] D t.store
  size : t.store.log.size = s₀.store.log.size
  lays : Lays M.lim sb none X D
  cached : Cached sb D s₀.inode L B t.inode
  procs : t.procs = s₀.procs
  cwd : t.cwd = s₀.cwd
  first : t.first = s₀.first
  dead : t.dead = s₀.dead

/-- The call may use `ip`, which is for inode `i`. -/
def Has (s₀ : FS) (L : List (InodePtr × ℕ)) (ip : InodePtr) (i : ℕ) : Prop :=
  (ip, i) ∈ L ∨ 0 < (s₀.inode ip).ref ∧ (s₀.inode ip).inum = i

variable {M : Mode} {pid : ℕ} {sb : Superblock} {X : Finset ℕ} {u : Bool} {K K' : Finset ℕ} {D D' : Disk} {s₀ s t t' : FS}
  {I₀ I : InodePtr → Inode} {L L' : List (InodePtr × ℕ)} {B : Finset InodePtr} {ip jp : InodePtr} {i j : ℕ} {S : Finset ℕ}

namespace Cached

theorem nonneg (h : Cached sb D I₀ L B I) (ip : InodePtr) : 0 ≤ (I ip).ref := by
  have := h.start ip
  have := h.refs ip
  omega

theorem pos_of_mem (h : Cached sb D I₀ L B I) (hip : (ip, i) ∈ L) : 0 < (I ip).ref := by
  have hcount : 0 < (L.map Prod.fst).count ip := count_pos_iff.mpr (mem_map.mpr ⟨_, hip, rfl⟩)
  have := h.start ip
  have := h.refs ip
  omega

variable {v : Inode} {C : Finset InodePtr}

section

variable (h : Cached sb D I₀ L B I)
include h

theorem change
    (hrefs : v.ref = (I₀ ip).ref + (L'.map Prod.fst).count ip)
    (hcount : ∀ jp, jp ≠ ip → (L'.map Prod.fst).count jp = (L.map Prod.fst).count jp)
    (hkept : 0 < (I₀ ip).ref → v.inum = (I ip).inum) (hheld : ∀ p ∈ L', p.1 = ip ∧ v.inum = p.2 ∨ p.1 ≠ ip ∧ p ∈ L)
    (hbusy : v.busy = true ↔ ip ∈ C) (hC : ∀ jp, jp ≠ ip → (jp ∈ C ↔ jp ∈ B)) (hlock : ip ∈ C → 0 < v.ref ∧ v.valid = true)
    (huniq : 0 < v.ref → ∀ jp, jp ≠ ip → 0 < (I jp).ref → (I jp).inum ≠ v.inum)
    (hcopy : 0 < v.ref → v.valid = true → tree sb D none v.inum ≠ none ∧ v.d = dinodeAt D v.inum) :
    Cached sb D I₀ L' C (update I ip v) := by
  refine ⟨h.start, fun jp => ?_, fun jp hj => ?_, fun p hp => ?_, fun jp => ?_, fun jp hj => ?_, fun jp kp hj hk e => ?_, fun jp => ?_⟩
  · by_cases e : jp = ip
    · rw [e, update_self, hrefs]
    · rw [update_of_ne e, h.refs, hcount jp e]
  · by_cases e : jp = ip
    · subst e
      rw [update_self, hkept hj, h.kept jp hj]
    · rw [update_of_ne e, h.kept jp hj]
  · rcases hheld p hp with ⟨e, hin⟩ | ⟨e, hmem⟩
    · rw [e, update_self, hin]
    · rw [update_of_ne e, h.held p hmem]
  · by_cases e : jp = ip
    · rw [e, update_self]
      exact hbusy
    · rw [update_of_ne e, hC jp e]
      exact h.busy jp
  · by_cases e : jp = ip
    · subst e
      rw [update_self]
      exact hlock hj
    · rw [update_of_ne e]
      exact h.locked jp ((hC jp e).mp hj)
  · by_cases ej : jp = ip <;> by_cases ek : kp = ip
    · rw [ej, ek]
    · rw [ej, update_self] at hj e
      rw [update_of_ne ek] at hk e
      exact absurd e.symm (huniq hj kp ek hk)
    · rw [ek, update_self] at hk e
      rw [update_of_ne ej] at hj e
      exact absurd e (huniq hk jp ej hj)
    · rw [update_of_ne ej] at hj e
      rw [update_of_ne ek] at hk e
      exact h.uniq jp kp hj hk e
  · by_cases e : jp = ip
    · rw [e, update_self]
      exact hcopy
    · rw [update_of_ne e]
      exact h.copy jp

theorem set (hin : v.inum = (I ip).inum) (href : v.ref = (I ip).ref)
    (hbusy : v.busy = true ↔ ip ∈ C) (hC : ∀ jp, jp ≠ ip → (jp ∈ C ↔ jp ∈ B)) (hlock : ip ∈ C → 0 < v.ref ∧ v.valid = true)
    (hcopy : 0 < v.ref → v.valid = true → tree sb D none v.inum ≠ none ∧ v.d = dinodeAt D v.inum) :
    Cached sb D I₀ L C (update I ip v) := by
  refine h.change (href.trans (h.refs ip)) (fun _ _ => rfl) (fun _ => hin) (fun p hp => ?_) hbusy hC hlock (fun hpos jp hne hj e => ?_)
    hcopy
  · by_cases e : p.1 = ip
    · refine .inl ⟨e, ?_⟩
      rw [hin, ← e, h.held p hp]
    · exact .inr ⟨e, hp⟩
  · rw [href] at hpos
    exact hne (h.uniq jp ip hj hpos (e.trans hin))

theorem dup (hpos : 0 < (I ip).ref) (hin : (I ip).inum = i) :
    Cached sb D I₀ ((ip, i) :: L) B (update I ip { I ip with ref := (I ip).ref + 1 }) := by
  refine h.change ?_ (fun jp hne => ?_) (fun _ => rfl) (fun p hp => ?_) (h.busy ip) (fun _ _ => Iff.rfl)
    (fun hB => ⟨by dsimp only; omega, (h.locked ip hB).2⟩) (fun _ jp hne hj e => hne (h.uniq jp ip hj hpos e))
    fun _ => h.copy ip hpos
  · rw [map_cons, count_cons_self, h.refs ip]
    push_cast
    ring
  · rw [map_cons, count_cons_of_ne (Ne.symm hne)]
  · rcases mem_cons.mp hp with rfl | hp
    · exact .inl ⟨rfl, hin⟩
    · by_cases e : p.1 = ip
      · refine .inl ⟨e, ?_⟩
        rw [← h.held p hp, e]
      · exact .inr ⟨e, hp⟩

theorem take (hfree : (I ip).ref = 0) (hnew : ∀ jp, 0 < (I jp).ref → (I jp).inum ≠ i) :
    Cached sb D I₀ ((ip, i) :: L) B
      (update I ip { I ip with inum := i, ref := 1, busy := false, valid := false }) := by
  have hrefs := h.refs ip
  have hstart := h.start ip
  have h0 : (I₀ ip).ref = 0 := by omega
  have hnot : ip ∉ B := fun hB => by
    have := (h.locked ip hB).1
    omega
  have hcount : (L.map Prod.fst).count ip = 0 := by omega
  have hL : ∀ p ∈ L, p.1 ≠ ip := fun p hp e => count_eq_zero.mp hcount (mem_map.mpr ⟨p, hp, e⟩)
  refine h.change ?_ (fun jp hne => ?_) (fun hpos => by omega) (fun p hp => ?_) (iff_of_false (by simp) hnot) (fun _ _ => Iff.rfl)
    (fun hB => absurd hB hnot) (fun _ jp hne hj => hnew jp hj) nofun
  · rw [map_cons, count_cons_self, hcount, h0]
    rfl
  · rw [map_cons, count_cons_of_ne (Ne.symm hne)]
  · rcases mem_cons.mp hp with rfl | hp
    · exact .inl ⟨rfl, rfl⟩
    · exact .inr ⟨hL p hp, hp⟩

theorem put (hip : (ip, i) ∈ L) (hB : ip ∈ B → 1 < (I ip).ref) :
    Cached sb D I₀ (L.erase (ip, i)) B (update I ip { I ip with ref := (I ip).ref - 1 }) := by
  have hpos := h.pos_of_mem hip
  have hin := h.held _ hip
  have hcount : ∀ jp, (L.map Prod.fst).count jp = ((L.erase (ip, i)).map Prod.fst).count jp + if jp = ip then 1 else 0 := by
    intro jp
    rw [((perm_cons_erase hip).map Prod.fst).count_eq, map_cons]
    by_cases e : jp = ip
    · rw [if_pos e, e, count_cons_self]
    · rw [if_neg e, count_cons_of_ne (Ne.symm e), Nat.add_zero]
  refine h.change ?_ (fun jp hne => ?_) (fun _ => rfl) (fun p hp => ?_) (h.busy ip) (fun _ _ => Iff.rfl)
    (fun hb => ⟨by have := hB hb; dsimp only; omega, (h.locked ip hb).2⟩) (fun _ jp hne hj e => hne (h.uniq jp ip hj hpos e))
    fun _ => h.copy ip hpos
  · have := hcount ip
    rw [if_pos rfl] at this
    have hr := h.refs ip
    rw [this] at hr
    push_cast at hr
    dsimp only
    omega
  · rw [hcount jp, if_neg hne, Nat.add_zero]
  · have hp' := mem_of_mem_erase hp
    by_cases e : p.1 = ip
    · refine .inl ⟨e, ?_⟩
      rw [← h.held p hp', e]
    · exact .inr ⟨e, hp'⟩

end

end Cached

namespace Doing

section

variable (h : Doing M sb X u K D s₀ L B t)
include h

theorem sees : Sees M u K [] D t t := ⟨Rest.refl t, rfl, h.shows⟩

theorem move (hs : Sees M u K [] D t t') : Doing M sb X u K D s₀ L B t' :=
  ⟨hs.shows, hs.size.trans h.size, h.lays, by rw [hs.rest.inode]; exact h.cached, hs.rest.procs.trans h.procs,
    hs.rest.cwd.trans h.cwd, hs.rest.first.trans h.first, hs.rest.dead.trans h.dead⟩

theorem inum_of_has (hip : Has s₀ L ip i) : (t.inode ip).inum = i := by
  rcases hip with hip | ⟨hip, hi⟩
  · exact h.cached.held _ hip
  · exact (h.cached.kept ip hip).trans hi

theorem pos_of_has (hip : Has s₀ L ip i) : 0 < (t.inode ip).ref := by
  rcases hip with hip | ⟨hip, -⟩
  · exact h.cached.pos_of_mem hip
  · have := h.cached.refs ip
    omega

theorem has_of_pos (hpos : 0 < (t.inode ip).ref) (hi : (t.inode ip).inum = i) : Has s₀ L ip i := by
  by_cases h0 : 0 < (s₀.inode ip).ref
  · exact .inr ⟨h0, (h.cached.kept ip h0).symm.trans hi⟩
  · have hcount : 0 < (L.map Prod.fst).count ip := by
      have := h.cached.refs ip
      omega
    obtain ⟨p, hp, rfl⟩ := mem_map.mp (count_pos_iff.mp hcount)
    rw [h.cached.held p hp] at hi
    exact .inl (hi ▸ hp)

theorem copy_of_locked (hip : Has s₀ L ip i) (hB : ip ∈ B) : (t.inode ip).d = dinodeAt D i := by
  obtain ⟨hpos, hvalid⟩ := h.cached.locked ip hB
  rw [(h.cached.copy ip hpos hvalid).2, h.inum_of_has hip]

theorem setInodes {I : InodePtr → Inode} {C : Finset InodePtr} (hI : Cached sb D s₀.inode L' C I) :
    Doing M sb X u K D s₀ L' C { t with inode := I } :=
  ⟨h.shows, h.size, h.lays, hI, h.procs, h.cwd, h.first, h.dead⟩

end

end Doing

theorem Doing.rebase (h : Doing M sb X u K D s₀ L B t) : Doing M sb X u K D t [] B t :=
  ⟨h.shows, rfl, h.lays, ⟨h.cached.nonneg, fun _ => (add_zero _).symm, fun _ _ => rfl, nofun, h.cached.busy, h.cached.locked,
    h.cached.uniq, h.cached.copy⟩, rfl, rfl, rfl, rfl⟩

theorem Doing.trans {u' : Bool} {K' : Finset ℕ} (h : Doing M sb X u K D s₀ L B s) {B' : Finset InodePtr}
    (h' : Doing M sb X u' K' D' s L' B' t) : Doing M sb X u' K' D' s₀ (L' ++ L) B' t := by
  have hkept : ∀ ip, 0 < (s.inode ip).ref → (t.inode ip).inum = (s.inode ip).inum := h'.cached.kept
  refine ⟨h'.shows, h'.size.trans h.size, h'.lays, ⟨h.cached.start, fun ip => ?_, fun ip hip => ?_, fun p hp => ?_, h'.cached.busy,
    h'.cached.locked, h'.cached.uniq, h'.cached.copy⟩, h'.procs.trans h.procs, h'.cwd.trans h.cwd, h'.first.trans h.first,
    h'.dead.trans h.dead⟩
  · rw [h'.cached.refs, h.cached.refs, map_append, count_append]
    push_cast
    ring
  · have hrefs := h.cached.refs ip
    rw [hkept ip (by omega), h.cached.kept ip hip]
  · rcases mem_append.mp hp with hp | hp
    · exact h'.cached.held p hp
    · rw [hkept p.1 (h.cached.pos_of_mem (i := p.2) hp), h.cached.held p hp]

/-- Between system calls, on a disk with one block of bitmap. -/
structure Idle (lim : ℕ) (sb : Superblock) (X : Finset ℕ) (D : Disk) (s : FS) : Prop where
  doing : Doing (full lim) sb X false ∅ D s [] ∅ s
  log : LOGSIZE ≤ s.store.log.size
  bits : sb.size ≤ BPB

/-! ### Locking -/

section

variable (h : Doing M sb X u K D s₀ L B t)
include h

theorem Doing.runs_fields (hip : Has s₀ L ip i) (hB : ip ∈ B) :
    (M.guard pid).Runs (Code.op (.node ip)) (fun n t => (n.inum = i ∧ n.d = dinodeAt D i) ∧ Doing M sb X u K D s₀ L B t) t := by
  refine (runs_node h.sees).mono ?_
  rintro _ t' ⟨rfl, hs⟩
  exact ⟨⟨h.inum_of_has hip, h.copy_of_locked hip hB⟩, h.move hs⟩

theorem Doing.runs_inodeLock (hip : Has s₀ L ip i) (hi : i < sb.ninodes)
    (hn : M.total → tree sb D none i ≠ none) (hB : M.total → ip ∉ B) : (M.guard pid).Runs (inodeLock ip)
      (fun _ t => (tree sb D none i ≠ none ∧ ip ∉ B) ∧ Doing M sb X u K D s₀ L (insert ip B) t) t := by
  have hpos := h.pos_of_has hip
  have hinum := h.inum_of_has hip
  refine fun _ => ⟨trivial, ?_⟩
  show wp (lockInode ip) _ _ t
  unfold lockInode
  rw [wp_bind, wp_get, if_neg (by omega)]
  by_cases hbusy : (t.inode ip).busy = true
  · rw [if_pos hbusy, wp_throw]
    exact fun hm => hB hm ((h.cached.busy ip).mp hbusy)
  · rw [if_neg hbusy, wp_bind, wp_set]
    have hnot : ip ∉ B := fun hmem => hbusy ((h.cached.busy ip).mpr hmem)
    have hC : ∀ jp, jp ≠ ip → (jp ∈ insert ip B ↔ jp ∈ B) := fun jp hj => by rw [Finset.mem_insert, or_iff_right hj]
    show (M.guard pid).Runs (if (t.inode ip).valid = true then _ else _) _ _
    by_cases hvalid : (t.inode ip).valid = true
    · rw [if_pos hvalid]
      have hcopy := (h.cached.copy ip hpos hvalid).1
      rw [hinum] at hcopy
      refine ⟨⟨hcopy, hnot⟩, h.setInodes (h.cached.set rfl rfl ?_ hC (fun _ => ⟨hpos, hvalid⟩) fun _ _ => h.cached.copy ip hpos hvalid)⟩
      exact iff_of_true rfl (Finset.mem_insert_self ..)
    · rw [if_neg hvalid]
      -- the inode is read from disk
      set v : Inode := { t.inode ip with busy := true } with hv
      have hs : Sees M u K [] D (t.setInode ip v) (t.setInode ip v) := ⟨Rest.refl _, rfl, h.shows⟩
      have hself : (t.setInode ip v).inode ip = v := update_self ..
      have hlim : iblock i < M.lim := (iblock_lt_dataStart hi).trans_le h.lays.area.1
      refine (runs_node hs).bind fun n t' hn => ?_
      obtain ⟨rfl, hs⟩ := hn
      rw [hself, show v.inum = i from hinum]
      refine (runs_bufcacheRead hs fun _ => ⟨not_mem_nil, spare_nil⟩).bind fun bp t' hs => ?_
      refine (runs_data hs (mem_cons_self ..) hlim).bind fun w t' hw => ?_
      obtain ⟨rfl, hs⟩ := hw
      refine (runs_bufcacheRelease hs).bind fun _ t' hs => ?_
      refine fun _ => ⟨trivial, ?_⟩
      show wp (modify fun s : FS => s.setInode ip { s.inode ip with d := dinodeAt D i, valid := true }) _ _ t'
      rw [wp_modify]
      show (M.guard pid).Runs (if (dinodeAt D i).type = 0 then _ else _) _ _
      by_cases htype : (dinodeAt D i).type = 0
      · rw [if_pos htype]
        exact fun _ => ⟨trivial, fun hm => hn hm (tree_eq_none fun h => h.2 htype)⟩
      rw [if_neg htype]
      have htree : tree sb D none i ≠ none := fun h => by
        rw [tree_of (P := none) hi htype] at h
        cases h
      have hset : t'.setInode ip { t'.inode ip with d := dinodeAt D i, valid := true } =
          { t' with inode := update t.inode ip { t.inode ip with busy := true, d := dinodeAt D i, valid := true } } := by
        unfold FS.setInode
        rw [hs.rest.inode]
        simp [FS.setInode, hv]
      rw [hset]
      refine ⟨⟨htree, hnot⟩, ⟨hs.shows, hs.size.trans h.size, h.lays, ?_, hs.rest.procs.trans h.procs, hs.rest.cwd.trans h.cwd,
        hs.rest.first.trans h.first, hs.rest.dead.trans h.dead⟩⟩
      refine h.cached.set rfl rfl (iff_of_true rfl (Finset.mem_insert_self ..)) hC (fun _ => ⟨hpos, rfl⟩) fun _ _ => ?_
      dsimp only
      rw [hinum]
      exact ⟨htree, rfl⟩

theorem Doing.runs_inodeUnlock (hB : ip ∈ B) :
    (M.guard pid).Runs (inodeUnlock ip) (fun _ t => Doing M sb X u K D s₀ L (B.erase ip) t) t := by
  obtain ⟨hpos, hvalid⟩ := h.cached.locked ip hB
  have hbusy := (h.cached.busy ip).mpr hB
  refine fun _ => ⟨trivial, ?_⟩
  show wp (unlockInode ip) _ _ t
  unfold unlockInode
  rw [wp_bind, wp_get, if_neg (by rw [hbusy]; rintro (h | h); exacts [Bool.noConfusion h, by omega]), wp_set]
  refine h.setInodes (h.cached.set rfl rfl ?_ (fun jp hj => ?_) (fun hm => ?_) fun _ _ => h.cached.copy ip hpos hvalid)
  · exact iff_of_false (by simp) (Finset.notMem_erase ip B)
  · rw [Finset.mem_erase, and_iff_right hj]
  · exact absurd hm (Finset.notMem_erase ip B)

/-! ### References -/

theorem Doing.runs_idup (hip : Has s₀ L ip i) :
    (M.guard pid).Runs (Code.op (.idup ip)) (fun _ t => Doing M sb X u K D s₀ ((ip, i) :: L) B t) t := by
  refine fun _ => ⟨trivial, ?_⟩
  show wp (dupInode ip) _ _ t
  unfold dupInode
  rw [wp_modify]
  exact h.setInodes (h.cached.dup (h.pos_of_has hip) (h.inum_of_has hip))

end

def spare (s : FS) : Finset InodePtr := Finset.univ.filter fun ip => (s.inode ip).ref = 0

section

variable (h : Doing M sb X u K D s₀ L B t)
include h

theorem Doing.exists_spare (hspare : L.length < (spare s₀).card) : ∃ ip, (t.inode ip).ref = 0 := by
  have hcard : (L.map Prod.fst).toFinset.card < (spare s₀).card :=
    (toFinset_card_le _).trans_lt (by rwa [length_map])
  obtain ⟨ip, hip, hnot⟩ := Finset.exists_mem_notMem_of_card_lt_card hcard
  refine ⟨ip, ?_⟩
  rw [h.cached.refs, (Finset.mem_filter.mp hip).2, count_eq_zero.mpr fun hmem => hnot (mem_toFinset.mpr hmem)]
  rfl

omit h in
theorem Doing.runs_inodeGet {o : FsOp InodePtr} (hsem : sem pid _ o = inodeGet i) (hok : (M.guard pid).ok t _ o)
    (h : Doing M sb X u K D s₀ L B t) (hspare : M.total → L.length < (spare s₀).card) : (M.guard pid).Runs (Code.op o)
      (fun ip t => (Has s₀ L ip i ∨ (t.inode ip).valid = false) ∧ Doing M sb X u K D s₀ ((ip, i) :: L) B t) t := by
  refine fun _ => ⟨hok, ?_⟩
  show wp (sem pid _ o) _ _ t
  rw [hsem]
  unfold inodeGet
  rw [wp_bind, wp_get]
  cases hfind : (List.finRange NINODE).find? fun ip => 0 < (t.inode ip).ref ∧ (t.inode ip).inum = i with
  | some ip =>
    have hip := List.find?_some hfind
    rw [decide_eq_true_eq] at hip
    dsimp only
    rw [wp_bind, wp_set, wp_pure]
    exact ⟨.inl (h.has_of_pos hip.1 hip.2), h.setInodes (h.cached.dup hip.1 hip.2)⟩
  | none =>
    have hnew : ∀ jp, 0 < (t.inode jp).ref → (t.inode jp).inum ≠ i := fun jp hj e => by
      have := List.find?_eq_none.mp hfind jp (mem_finRange jp)
      rw [decide_eq_true_eq] at this
      exact this ⟨hj, e⟩
    dsimp only
    cases hfree : (List.finRange NINODE).find? fun ip => (t.inode ip).ref = 0 with
    | some ip =>
      have hip := List.find?_some hfree
      rw [decide_eq_true_eq] at hip
      dsimp only
      rw [wp_bind, wp_set, wp_pure]
      refine ⟨.inr ?_, h.setInodes (h.cached.take hip hnew)⟩
      show (update t.inode ip _ ip).valid = false
      rw [update_self]
    | none =>
      dsimp only
      rw [wp_throw]
      intro hm
      obtain ⟨ip, hip⟩ := h.exists_spare (hspare hm)
      have := List.find?_eq_none.mp hfree ip (mem_finRange ip)
      rw [decide_eq_true_eq] at this
      exact this hip

theorem Doing.two_of_has (hip : (ip, i) ∈ L) (hhas : Has s₀ (L.erase (ip, i)) ip i) :
    1 < (t.inode ip).ref := by
  have hcount : (L.map Prod.fst).count ip = ((L.erase (ip, i)).map Prod.fst).count ip + 1 := by
    rw [((perm_cons_erase hip).map Prod.fst).count_eq, map_cons, count_cons_self]
  have hrefs := h.cached.refs ip
  have hstart := h.cached.start ip
  rcases hhas with hmem | ⟨hpos, -⟩
  · have : 0 < ((L.erase (ip, i)).map Prod.fst).count ip := count_pos_iff.mpr (mem_map.mpr ⟨_, hmem, rfl⟩)
    omega
  · omega

theorem Doing.runs_inodePut (hip : (ip, i) ∈ L) (hB : ip ∈ B → Has s₀ (L.erase (ip, i)) ip i)
    (hkeep : (dinodeAt D i).nlink ≠ 0 ∨ (t.inode ip).valid = false ∨ Has s₀ (L.erase (ip, i)) ip i) :
    (M.guard pid).Runs (inodePut ip) (fun _ t => Doing M sb X u K D s₀ (L.erase (ip, i)) B t) t := by
  have hhas : Has s₀ L ip i := .inl hip
  have hpos := h.pos_of_has hhas
  refine fun _ => ⟨trivial, ?_⟩
  show wp (putInode ip) _ _ t
  unfold putInode
  rw [wp_bind, wp_get, if_neg, wp_bind, wp_set, wp_pure]
  · exact h.setInodes (h.cached.put hip fun hb => h.two_of_has hip (hB hb))
  · rintro ⟨hone, hvalid, hlink⟩
    rw [(h.cached.copy ip hpos hvalid).2, h.inum_of_has hhas] at hlink
    rcases hkeep with hk | hk | hk
    · exact hk hlink
    · rw [hk] at hvalid
      cases hvalid
    · have := h.two_of_has hip hk
      omega

theorem Doing.runs_inodeUnlockput (hip : (ip, i) ∈ L) (hB : ip ∈ B)
    (hkeep : (dinodeAt D i).nlink ≠ 0 ∨ Has s₀ (L.erase (ip, i)) ip i) :
    (M.guard pid).Runs (inodeUnlockput ip) (fun _ t => Doing M sb X u K D s₀ (L.erase (ip, i)) (B.erase ip) t) t :=
  (h.runs_inodeUnlock hB).bind fun _ _ h => h.runs_inodePut hip (fun hb => absurd hb (Finset.notMem_erase ip B)) (hkeep.imp_right .inr)

end

theorem Doing.runs_giveBack (h : Doing M sb X u K D s₀ ((ip, i) :: L) (insert ip B) t) (hB : ip ∉ B)
    (hkeep : (dinodeAt D i).nlink ≠ 0 ∨ Has s₀ L ip i) : (M.guard pid).Runs (inodeUnlockput ip) (fun _ t => Doing M sb X u K D s₀ L B t) t := by
  have herase : ((ip, i) :: L).erase (ip, i) = L := erase_cons_head ..
  refine (h.runs_inodeUnlockput mem_cons_self (Finset.mem_insert_self ip B) (herase.symm ▸ hkeep)).mono fun _ t h => ?_
  rwa [herase, Finset.erase_insert hB] at h

/-! ### Contents -/

variable {n : Node}

theorem Sees.runs_read (hs : Sees M u K [] D s t) (hl : Lays M.lim sb none X D) (hc : (s.inode ip).d = dinodeAt D i)
    (hn : tree sb D none i = some n) (hdev : n.type ≠ T_DEV) (off len : ℕ) : (M.guard pid).Runs (inodeRead ip off len)
      (fun r t => r = readSpec n.data off len ∧ Sees M u K [] D s t) t := by
  obtain ⟨hi, ht, -⟩ := tree_some hn
  have harea : ∀ m, slot D (dinodeAt D i) m ≠ 0 → slot D (dinodeAt D i) m < M.lim :=
    fun m h0 => ((hl.begin hi).slot_area ht h0).2.1
  rw [← contents_of_tree hn]
  exact runs_inodeRead hs hc (by rwa [type_of_tree hn]) (hl.mapped i hi nofun ht) harea off len

section

variable (h : Doing M sb X u K D s₀ L B t)
include h

theorem Doing.runs_read (hip : Has s₀ L ip i) (hB : ip ∈ B) (hn : tree sb D none i = some n)
    (hdev : n.type ≠ T_DEV) (off len : ℕ) : (M.guard pid).Runs (inodeRead ip off len)
      (fun r t => r = readSpec n.data off len ∧ Doing M sb X u K D s₀ L B t) t :=
  (h.sees.runs_read h.lays (h.copy_of_locked hip hB) hn hdev off len).mono fun _ _ hr => ⟨hr.1, h.move hr.2⟩

omit h in
theorem Cached.disk (h : Cached sb D I₀ L B I) (hin : (I ip).inum = i) (hpos : 0 < (I ip).ref)
    (hinodes : ∀ j < sb.ninodes, j ≠ i → dinodeAt D' j = dinodeAt D j)
    (htree : ∀ j, j ≠ i → tree sb D' none j = tree sb D none j) (hi : tree sb D' none i ≠ none) :
    Cached sb D' I₀ L B (update I ip { I ip with d := dinodeAt D' i }) := by
  have hsame : ∀ jp, (update I ip { I ip with d := dinodeAt D' i } jp).inum = (I jp).inum ∧
      (update I ip { I ip with d := dinodeAt D' i } jp).ref = (I jp).ref ∧
      (update I ip { I ip with d := dinodeAt D' i } jp).busy = (I jp).busy ∧
      (update I ip { I ip with d := dinodeAt D' i } jp).valid = (I jp).valid := fun jp => by
    by_cases e : jp = ip
    · subst e
      simp
    · simp [e]
  refine ⟨h.start, fun jp => ?_, fun jp hj => ?_, fun p hp => ?_, fun jp => ?_, fun jp hj => ?_, fun jp kp => ?_, fun jp hj hv => ?_⟩
  · rw [(hsame jp).2.1, h.refs]
  · rw [(hsame jp).1, h.kept jp hj]
  · rw [(hsame p.1).1, h.held p hp]
  · rw [(hsame jp).2.2.1]
    exact h.busy jp
  · rw [(hsame jp).2.1, (hsame jp).2.2.2]
    exact h.locked jp hj
  · rw [(hsame jp).1, (hsame jp).2.1, (hsame kp).1, (hsame kp).2.1]
    exact h.uniq jp kp
  · rw [(hsame jp).2.1] at hj
    rw [(hsame jp).2.2.2] at hv
    rw [(hsame jp).1]
    by_cases e : jp = ip
    · rw [e, update_self, hin]
      exact ⟨hi, rfl⟩
    · obtain ⟨hin', hd⟩ := h.copy jp hj hv
      have hne : (I jp).inum ≠ i := fun e' => e (h.uniq jp ip hj hpos (e'.trans hin.symm))
      obtain ⟨n, hn⟩ := Option.ne_none_iff_exists'.mp hin'
      rw [update_of_ne e, htree _ hne, hinodes _ (tree_some hn).1 hne]
      exact ⟨hin', hd⟩

theorem Doing.changed (hip : Has s₀ L ip i)
    (hc : Changed M sb u X S ip i n K D K' D' t t') : Doing M sb X u K' D' s₀ L B t' := by
  refine ⟨hc.sees.shows, hc.sees.size.trans h.size, hc.lays, ?_, hc.sees.rest.procs.trans h.procs, hc.sees.rest.cwd.trans h.cwd,
    hc.sees.rest.first.trans h.first, hc.sees.rest.dead.trans h.dead⟩
  have htree : tree sb D' none i = some n := by rw [hc.tree, update_self]
  rw [hc.sees.rest.inode]
  refine h.cached.disk (h.inum_of_has hip) (h.pos_of_has hip) hc.inodes (fun j hj => ?_) ?_
  · rw [hc.tree, update_of_ne hj]
  · rw [htree]
    nofun

theorem Doing.runs_write (hip : Has s₀ L ip i) (hB : ip ∈ B) (hn : tree sb D none i = some n)
    (hdev : n.type ≠ T_DEV) {off : ℕ} {src : List UInt8} (hoff : off ≤ n.data.length) (hmax : off + src.length ≤ MAXFILE * BSIZE)
    (hr : Room M sb u K D (dinodeAt D i) S) (hS : ∀ j, off ≤ j → j < off + src.length → Covers S (j / BSIZE))
    (hK : M.tracked → iblock i ∈ K) : (M.guard pid).Runs (inodeWrite ip src off) (fun r t' => r = some src.length ∧ ∃ K' D',
      Changed M sb u X S ip i { n with data := overlay n.data off src } K D K' D' t t' ∧ Doing M sb X u K' D' s₀ L B t') t := by
  obtain ⟨hi, ht, rfl⟩ := tree_some hn
  have hsize : (nodeOf D (dinodeAt D i)).data.length = (dinodeAt D i).size := length_contents
  rw [hsize] at hoff
  refine (runs_inodeWrite h.sees h.lays (h.inum_of_has hip) hi (h.copy_of_locked hip hB) rfl ht hdev
    hoff hmax hr hS hK).mono ?_
  rintro _ t' ⟨rfl, K', D', hc⟩
  exact ⟨rfl, K', D', hc, h.changed hip hc⟩

/-! ### Transactions -/

theorem Doing.widen (hK : K ⊆ K') (hsmall : M.tracked → K'.card ≤ LOGSIZE - 2) :
    Doing M sb X u K' D s₀ L B t :=
  { h with shows := (h.sees.widen hK hsmall).shows }

omit h in
theorem Doing.runs_begin (h : Doing M sb X false K D s₀ L B t) (hlarge : M.tracked → LOGSIZE ≤ s₀.store.log.size) :
    (M.guard pid).Runs beginTrans (fun _ t => Doing M sb X true K D s₀ L B t) t := by
  refine (runs_beginTrans h.sees (fun _ => rfl) fun hm => h.size ▸ hlarge hm).mono ?_
  rintro _ t' ⟨-, hs⟩
  exact ⟨hs.shows, hs.size.trans h.size, h.lays, by rw [hs.rest.inode]; exact h.cached, hs.rest.procs.trans h.procs,
    hs.rest.cwd.trans h.cwd, hs.rest.first.trans h.first, hs.rest.dead.trans h.dead⟩

theorem Doing.runs_commit :
    (M.guard pid).Runs commitTrans (fun _ t => Doing M sb X false ∅ D s₀ L B t) t := by
  refine (runs_commitTrans h.sees).mono fun _ t' hs => ?_
  exact ⟨hs.shows, hs.size.trans h.size, h.lays, by rw [hs.rest.inode]; exact h.cached, hs.rest.procs.trans h.procs,
    hs.rest.cwd.trans h.cwd, hs.rest.first.trans h.first, hs.rest.dead.trans h.dead⟩

end

end MCertiKOS.FileSystem.Fs
