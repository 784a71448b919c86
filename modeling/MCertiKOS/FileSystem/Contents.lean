import MCertiKOS.FileSystem.Blocks
import Mathlib.Order.Interval.Finset.Nat

/-!
# The contents of files

What `bmap`, `inode_read`, `inode_update` and `inode_write` do to a disk that is
laid out as it should be. While an inode is being changed its copy in the cache is
ahead of the disk (`Edits`). `Room` is what a function needs to be able to fill
slots of the inode: free blocks and space in the log for as many as are empty.
-/

namespace MCertiKOS.FileSystem.Fs

open Library List
open Function (update update_of_ne update_self)

variable {M : Mode} {pid : ℕ} {sb : Superblock} {u : Bool} {K K' : Finset ℕ} {H : List (Fin NBUF × ℕ)} {P : Option (ℕ × Dinode)}
  {X S : Finset ℕ} {D D' D'' : Disk} {d d' d'' : Dinode} {s t : FS} {ip : InodePtr} {i x k bn off : ℕ}

/-! ### The copy of an inode -/

def FS.setD (s : FS) (ip : InodePtr) (d : Dinode) : FS := s.setInode ip { s.inode ip with d := d }

@[simp] theorem FS.setD_inode_self : (s.setD ip d).inode ip = { s.inode ip with d := d } := update_self ..

@[simp] theorem FS.setD_setD : (s.setD ip d).setD ip d' = s.setD ip d' := by
  simp [FS.setD, FS.setInode]

theorem FS.setD_self (h : (s.inode ip).d = d) : s.setD ip d = s := by
  subst h
  simp [FS.setD, FS.setInode]

theorem runs_node (h : Sees M u K H D s t) :
    (M.guard pid).Runs (Code.op (.node ip)) (fun n t => n = s.inode ip ∧ Sees M u K H D s t) t := by
  refine fun _ => ⟨trivial, ?_⟩
  exact ⟨congrFun h.rest.inode ip, h⟩

theorem runs_indirect (h : Sees M u K H D s t) :
    (M.guard pid).Runs (Code.op (.indirect ip)) (fun a t => a = (s.inode ip).d.addrs (Fin.last NDIRECT) ∧ Sees M u K H D s t) t := by
  refine fun _ => ⟨trivial, ?_⟩
  exact ⟨by rw [h.rest.inode], h⟩

theorem runs_setNode (h : Sees M u K H D s t) (d : Dinode) :
    (M.guard pid).Runs (Code.op (.setNode ip d)) (fun _ t => Sees M u K H D (s.setD ip d) t) t := by
  refine fun _ => ⟨trivial, ?_⟩
  refine ⟨⟨?_, h.rest.procs, h.rest.cwd, h.rest.first, h.rest.dead⟩, h.size, h.shows⟩
  show update t.inode ip { t.inode ip with d := d } = update s.inode ip { s.inode ip with d := d }
  rw [h.rest.inode]

/-- Inode `i` is being changed, through its entry `ip` of the cache, where it is `d`. -/
structure Edits (M : Mode) (sb : Superblock) (u : Bool) (K X : Finset ℕ) (ip : InodePtr) (i : ℕ) (D : Disk) (d : Dinode)
    (s t : FS) : Prop where
  sees : Sees M u K [] D (s.setD ip d) t
  lays : Lays M.lim sb (some (i, d)) X D
  type : d.type ≠ 0

/-- How many of the slots `S` are empty. -/
def need (D : Disk) (d : Dinode) (S : Finset ℕ) : ℕ := (S.filter fun k => slot D d k = 0).card

/-- The slots of `S` can be filled and their blocks written. -/
structure Room (M : Mode) (sb : Superblock) (u : Bool) (K : Finset ℕ) (D : Disk) (d : Dinode) (S : Finset ℕ) : Prop where
  trans : M.total → u = true
  bitmaps : Bitmaps M sb K
  known : M.tracked → ∀ k ∈ S, slot D d k ≠ 0 → slot D d k ∈ K
  log : M.tracked → K.card + need D d S ≤ LOGSIZE - 2
  free : M.total → need D d S ≤ (freeBlocks M.lim sb D).card
  loud : M.quiet → need D d S = 0

/-- Slots of inode `i` have been filled. -/
structure Grown (sb : Superblock) (i : ℕ) (D : Disk) (d : Dinode) (D' : Disk) (d' : Dinode) : Prop where
  slots : ∀ k, slot D d k ≠ 0 → slot D' d' k = slot D d k
  fields : d' = { d with addrs := d'.addrs }
  inodes : ∀ j < sb.ninodes, dinodeAt D' j = dinodeAt D j
  tree : ∀ j, j ≠ i → tree sb D' (some (i, d')) j = tree sb D (some (i, d)) j

theorem Grown.refl (sb : Superblock) (i : ℕ) (D : Disk) (d : Dinode) : Grown sb i D d D d :=
  ⟨fun _ _ => rfl, rfl, fun _ _ => rfl, fun _ _ => rfl⟩

theorem Grown.trans (h : Grown sb i D d D' d') (h' : Grown sb i D' d' D'' d'') : Grown sb i D d D'' d'' := by
  refine ⟨fun k hk => ?_, ?_, fun j hj => (h'.inodes j hj).trans (h.inodes j hj), fun j hj => (h'.tree j hj).trans (h.tree j hj)⟩
  · rw [h'.slots k (by rw [h.slots k hk]; exact hk), h.slots k hk]
  · rw [h'.fields, h.fields]

/-! ### A slot is filled -/

/-- Block `x` has been found and put into slot `k` of inode `i`. -/
structure Fills (lim : ℕ) (sb : Superblock) (X : Finset ℕ) (i k x : ℕ) (D : Disk) (d : Dinode) (D' : Disk) (d' : Dinode) : Prop where
  lays : Lays lim sb (some (i, d')) X D'
  slot : ∀ m, slot D' d' m = if m = k then x else slot D d m
  empty : Fs.slot D d k = 0
  ne_zero : x ≠ 0
  mem : x ∈ freeBlocks lim sb D
  free : freeBlocks lim sb D' = (freeBlocks lim sb D).erase x
  fields : d' = { d with addrs := d'.addrs }
  inodes : ∀ j < sb.ninodes, dinodeAt D' j = dinodeAt D j
  tree : ∀ j, j ≠ i → tree sb D' (some (i, d')) j = tree sb D (some (i, d)) j
  data : ∀ m, m ≠ NDIRECT → Fs.slot D d m ≠ 0 → D' (Fs.slot D d m) = D (Fs.slot D d m)

theorem Fills.grown {lim : ℕ} (h : Fills lim sb X i k x D d D' d') : Grown sb i D d D' d' := by
  refine ⟨fun m hm => ?_, h.fields, h.inodes, h.tree⟩
  rw [h.slot, if_neg]
  rintro rfl
  exact hm h.empty

namespace Lays

variable {lim : ℕ}

section

variable (h : Lays lim sb (some (i, d)) X D)
include h

theorem found_pending (ht : d.type ≠ 0) (hx : x < lim) (hbit : bitAt sb D x = false) :
    (∀ m, slot D d m ≠ 0 → found sb D x (slot D d m) = D (slot D d m)) ∧ ∀ m, slot (found sb D x) d m = slot D d m := by
  obtain ⟨-, -, hD⟩ := h.found_frame hx hbit
  have hdata : ∀ m, slot D d m ≠ 0 → found sb D x (slot D d m) = D (slot D d m) := fun m => by
    rw [← h.refs_pending ht m]
    exact hD (i, m)
  refine ⟨hdata, slot_congr fun h0 => ?_⟩
  rw [← slot_last (D := D)] at h0 ⊢
  exact hdata _ h0

theorem tree_found (hx : x < lim) (hbit : bitAt sb D x = false) {j : ℕ} (hj : j ≠ i) :
    tree sb (found sb D x) (some (i, d)) j = tree sb D (some (i, d)) j := by
  obtain ⟨-, htable, hD⟩ := h.found_frame hx hbit
  exact h.tree_row (fun hlt => table_congr (htable j hlt)) (fun m => hD (j, m)) fun e he => hj (by cases he; rfl)

theorem fillAddr (ht : d.type ≠ 0) {k : Fin (NDIRECT + 1)} (hk : d.addrs k = 0) (hx : x < lim)
    (hbit : bitAt sb D x = false) : Fills lim sb X i k.val x D d (found sb D x) (setAddr d k x) := by
  obtain ⟨hlo, hX, -⟩ := h.owned.fresh hx hbit
  have hpos := dataStart_pos sb
  obtain ⟨-, htable, -⟩ := h.found_frame hx hbit
  obtain ⟨hdata, hslot⟩ := h.found_pending ht hx hbit
  have hzero : found sb D x x = fun _ => 0 := update_self ..
  have hlays := (h.alloc hx hbit).putAddr ht hk (Finset.mem_insert_self ..) fun _ => hzero
  rw [Finset.erase_insert hX] at hlays
  refine ⟨hlays, fun m => ?_, ?_, by omega, Finset.mem_filter.mpr ⟨Finset.mem_range.mpr hx, hbit⟩, h.freeBlocks_found hx hbit, rfl,
    htable, fun j hj => ?_, fun m _ => hdata m⟩
  · rw [slot_setAddr (fun _ => ⟨hk, hzero⟩), hslot]
  · rw [slot, dif_pos k.isLt]
    exact hk
  · rw [tree_change hj, h.tree_found hx hbit hj]

theorem fillEntry (ht : d.type ≠ 0) {a j : ℕ} (ha : d.addrs (Fin.last NDIRECT) = a)
    (ha0 : a ≠ 0) (hj : j < NINDIRECT) (h0 : slot D d (NDIRECT + 1 + j) = 0) (hx : x < lim) (hbit : bitAt sb D x = false) :
    Fills lim sb X i (NDIRECT + 1 + j) x D d (update (found sb D x) a (setLE (D a) (4 * j) 4 x)) d := by
  obtain ⟨hlo, hX, -⟩ := h.owned.fresh hx hbit
  have hpos := dataStart_pos sb
  obtain ⟨-, htable, -⟩ := h.found_frame hx hbit
  obtain ⟨hdata, hslot⟩ := h.found_pending ht hx hbit
  have hlast : slot D d NDIRECT = a := slot_last.trans ha
  have ha' : found sb D x a = D a := by
    rw [← hlast] at ha0 ⊢
    exact hdata _ ha0
  have halloc := h.alloc hx hbit
  obtain ⟨hlays, hslots, htree⟩ := halloc.putEntry ht ha ha0 hj ((hslot _).trans h0) (Finset.mem_insert_self ..)
  rw [Finset.erase_insert hX, ha'] at hlays
  rw [ha'] at hslots htree
  have hra : refs sb (found sb D x) (some (i, d)) (i, NDIRECT) = a := by rw [halloc.refs_pending ht, slot_last, ha]
  obtain ⟨-, hinodes, hbits, hother⟩ := halloc.update_frame hra ha0 (setLE (D a) (4 * j) 4 x)
  refine ⟨hlays, fun m => ?_, h0, by omega, Finset.mem_filter.mpr ⟨Finset.mem_range.mpr hx, hbit⟩, ?_, rfl,
    fun j hj => (hinodes j hj).trans (htable j hj), fun j hj => (htree j hj).trans (h.tree_found hx hbit hj), fun m hm hm0 => ?_⟩
  · rw [hslots, hslot]
  · rw [← h.freeBlocks_found hx hbit]
    refine Finset.filter_congr fun y hy => ?_
    rw [hbits y (Finset.mem_range.mp hy)]
  · have hrm : refs sb (found sb D x) (some (i, d)) (i, m) = slot D d m := by rw [halloc.refs_pending ht, hslot]
    have := hother (i, m) (fun e => hm (congrArg Prod.snd e))
    rw [hrm] at this
    rw [this hm0, hdata m hm0]

end

end Lays

theorem Fills.need {lim : ℕ} (h : Fills lim sb X i k x D d D' d') (hk : k ∈ S) : Fs.need D' d' S + 1 = Fs.need D d S := by
  have : (S.filter fun m => Fs.slot D' d' m = 0) = (S.filter fun m => Fs.slot D d m = 0).erase k := by
    ext m
    rw [Finset.mem_filter, Finset.mem_erase, Finset.mem_filter, h.slot]
    by_cases e : m = k
    · simp [e, h.ne_zero]
    · simp [e]
  rw [Fs.need, this, Fs.need]
  exact Finset.card_erase_add_one (Finset.mem_filter.mpr ⟨hk, h.empty⟩)

theorem Fills.card_free {lim : ℕ} (h : Fills lim sb X i k x D d D' d') :
    (freeBlocks lim sb D').card + 1 = (freeBlocks lim sb D).card := by
  rw [h.free]
  exact Finset.card_erase_add_one h.mem

theorem Room.put (h : Room M sb u K D d S) (hk : k ∈ S) (hf : Fills M.lim sb X i k x D d D' d') : Room M sb u (insert x K) D' d' S := by
  have hneed := hf.need hk
  refine ⟨h.trans, fun hm y hy => Finset.mem_insert_of_mem (h.bitmaps hm y hy), fun hm m hmS hm0 => ?_, fun hm => ?_, fun hm => ?_,
    fun hq => ?_⟩
  · rw [hf.slot] at hm0 ⊢
    by_cases e : m = k
    · rw [if_pos e]
      exact Finset.mem_insert_self ..
    · rw [if_neg e] at hm0 ⊢
      exact Finset.mem_insert_of_mem (h.known hm m hmS hm0)
  · have := h.log hm
    have := Finset.card_insert_le x K
    omega
  · have := h.free hm
    have := hf.card_free
    omega
  · have := h.loud hq
    omega

def Balance (lim : ℕ) (sb : Superblock) (S : Finset ℕ) (D : Disk) (d : Dinode) (D' : Disk) (d' : Dinode) : Prop :=
  ∀ T, S ⊆ T → need D' d' T + (freeBlocks lim sb D).card = need D d T + (freeBlocks lim sb D').card

theorem Balance.trans {lim : ℕ} (h : Balance lim sb S D d D' d') (h' : Balance lim sb S D' d' D'' d'') : Balance lim sb S D d D'' d'' := by
  intro T hT
  have := h T hT
  have := h' T hT
  omega

/-- Slots of `S` have been filled for inode `i`, through its entry `ip` of the cache. -/
structure Filled (M : Mode) (sb : Superblock) (u : Bool) (X S : Finset ℕ) (ip : InodePtr) (i : ℕ) (K : Finset ℕ) (D : Disk) (d : Dinode)
    (K' : Finset ℕ) (D' : Disk) (d' : Dinode) (s t : FS) : Prop where
  edits : Edits M sb u K' X ip i D' d' s t
  room : Room M sb u K' D' d' S
  grown : Grown sb i D d D' d'
  data : ∀ k, k ≠ NDIRECT → slot D d k ≠ 0 → D' (slot D d k) = D (slot D d k)
  subset : K ⊆ K'
  card : K'.card + need D' d' S ≤ K.card + need D d S
  balance : Balance M.lim sb S D d D' d'

theorem Filled.refl (h : Edits M sb u K X ip i D d s t) (hr : Room M sb u K D d S) : Filled M sb u X S ip i K D d K D d s t :=
  ⟨h, hr, .refl .., fun _ _ _ => rfl, fun _ h => h, le_rfl, fun _ _ => rfl⟩

theorem Filled.trans {K'' : Finset ℕ} {t' : FS} (h : Filled M sb u X S ip i K D d K' D' d' s t)
    (h' : Filled M sb u X S ip i K' D' d' K'' D'' d'' s t') : Filled M sb u X S ip i K D d K'' D'' d'' s t' := by
  refine ⟨h'.edits, h'.room, h.grown.trans h'.grown, fun k hk h0 => ?_, h.subset.trans h'.subset, h'.card.trans h.card,
    h.balance.trans h'.balance⟩
  have := h'.data k hk
  rw [h.grown.slots k h0] at this
  rw [this h0, h.data k hk h0]

theorem Fills.filled (hf : Fills M.lim sb X i k x D d D' d') (hr : Room M sb u K D d S) (hk : k ∈ S) (ht : d.type ≠ 0)
    (h : Sees M u (insert x K) [] D' (s.setD ip d') t) : Filled M sb u X S ip i K D d (insert x K) D' d' s t := by
  have hneed := hf.need hk
  refine ⟨⟨h, hf.lays, ?_⟩, hr.put hk hf, hf.grown, hf.data, Finset.subset_insert .., ?_, fun T hT => ?_⟩
  · rw [hf.fields]
    exact ht
  · have := Finset.card_insert_le x K
    omega
  · have := hf.need (hT hk)
    have := hf.card_free
    omega

/-! ### `bmap` -/

section

-- block numbers are not to be evaluated in the conditions of `bmap`
attribute [local irreducible] getLE

theorem runs_bmapAddr_of_ne {k : Fin (NDIRECT + 1)} (h : Sees M u K H D s t) (hk : (s.inode ip).d.addrs k ≠ 0) :
    (M.guard pid).Runs (bmapAddr ip k) (fun x t => x = (s.inode ip).d.addrs k ∧ Sees M u K H D s t) t := by
  refine (runs_node h).bind ?_
  rintro _ t ⟨rfl, ht⟩
  rw [if_neg hk]
  exact ⟨rfl, ht⟩

theorem runs_blockAlloc_room (h : Sees M u K H D s t) (hl : Super M.lim sb D) (hH : Handy M sb u K H D) (hr : Room M sb u K D d S)
    (hk : k ∈ S) (h0 : slot D d k = 0) : (M.guard pid).Runs blockAlloc (fun x t => x < M.lim ∧ bitAt sb D x = false ∧
      Sees M u (insert x K) H (found sb D x) s t) t := by
  have hneed : 0 < need D d S := Finset.card_pos.mpr ⟨k, Finset.mem_filter.mpr ⟨hk, h0⟩⟩
  refine runs_blockAlloc h hl hr.bitmaps hH (fun hm => ?_) (fun hq => hneed.ne' (hr.loud hq)) fun hm => ?_
  · have := hr.log hm
    omega
  · have := hr.free hm
    exact Finset.card_pos.mp (by omega)

theorem runs_bmapAddr (h : Edits M sb u K X ip i D d s t) (hr : Room M sb u K D d S) {k : Fin (NDIRECT + 1)}
    (hk : d.addrs k = 0 → k.val ∈ S) : (M.guard pid).Runs (bmapAddr ip k) (fun x t => ∃ K' D' d',
      Filled M sb u X S ip i K D d K' D' d' s t ∧ d'.addrs k = x ∧ x ≠ 0 ∧ (d.addrs k ≠ 0 → K' = K ∧ D' = D ∧ d' = d)) t := by
  by_cases h0 : d.addrs k = 0
  · refine (runs_node h.sees).bind ?_
    rintro _ t ⟨rfl, ht⟩
    rw [FS.setD_inode_self, if_pos h0]
    have hslot : slot D d k.val = 0 := by rwa [slot, dif_pos k.isLt]
    refine (runs_blockAlloc_room ht h.lays.toSuper (handy_nil hr.trans) hr (hk h0) hslot).bind ?_
    rintro x t ⟨hx, hbit, ht⟩
    refine (runs_node ht).bind ?_
    rintro _ t ⟨rfl, ht⟩
    refine (runs_setNode ht _).bind fun _ t ht => ?_
    rw [FS.setD_setD, FS.setD_inode_self] at ht
    have hf := h.lays.fillAddr h.type h0 hx hbit
    exact ⟨_, _, _, hf.filled hr (hk h0) h.type ht, update_self .., hf.ne_zero, fun hne => absurd h0 hne⟩
  · have hself : ((s.setD ip d).inode ip).d = d := by rw [FS.setD_inode_self]
    refine (runs_bmapAddr_of_ne h.sees (by rwa [hself])).mono ?_
    rintro x t ⟨rfl, ht⟩
    rw [hself]
    exact ⟨K, D, d, .refl ⟨ht, h.lays, h.type⟩ hr, rfl, h0, fun _ => ⟨rfl, rfl, rfl⟩⟩

/-- The slots of block `bn` of a file. -/
def Covers (S : Finset ℕ) (bn : ℕ) : Prop := dataSlot bn ∈ S ∧ (NDIRECT ≤ bn → NDIRECT ∈ S)

theorem Covers.mono {T : Finset ℕ} (h : Covers S bn) (hS : S ⊆ T) : Covers T bn := ⟨hS h.1, fun hbn => hS (h.2 hbn)⟩

theorem blockNo_direct (hbn : bn < NDIRECT) : blockNo D d bn = d.addrs (Fin.ofNat (NDIRECT + 1) bn) := by
  have hmod : bn % (NDIRECT + 1) = bn := Nat.mod_eq_of_lt (hbn.trans (Nat.lt_succ_self _))
  rw [blockNo, dataSlot, if_pos hbn, slot, dif_pos (hbn.trans (Nat.lt_succ_self _))]
  exact congrArg d.addrs (Fin.ext hmod.symm)

theorem dataSlot_indirect (hbn : NDIRECT ≤ bn) : dataSlot bn = NDIRECT + 1 + (bn - NDIRECT) := by
  rw [dataSlot, if_neg (by omega)]
  omega

theorem slot_entry (h : d.addrs (Fin.last NDIRECT) ≠ 0) (j : ℕ) :
    slot D d (NDIRECT + 1 + j) = getLE (D (d.addrs (Fin.last NDIRECT))) (4 * j) 4 := by
  rw [slot, dif_neg (by omega), if_neg h, Nat.add_sub_cancel_left]

theorem last_ne_zero (hbn : NDIRECT ≤ bn) (h : blockNo D d bn ≠ 0) : d.addrs (Fin.last NDIRECT) ≠ 0 := by
  intro h0
  rw [blockNo, dataSlot_indirect hbn, slot, dif_neg (by omega), if_pos h0] at h
  exact h rfl

theorem Lays.slot_area {lim : ℕ} (h : Lays lim sb (some (i, d)) X D) (ht : d.type ≠ 0) {m : ℕ} (h0 : slot D d m ≠ 0) :
    dataStart sb ≤ slot D d m ∧ slot D d m < lim ∧ bitAt sb D (slot D d m) = true := by
  rw [← h.refs_pending ht] at h0 ⊢
  have harea := h.owned.area _ h0
  exact ⟨harea.1, harea.2, (h.owned.used _ harea.2).mpr (.inr (.inr ⟨_, rfl⟩))⟩

theorem runs_bmapEntry (h : Edits M sb u K X ip i D d s t) (hr : Room M sb u K D d S) (hlo : NDIRECT ≤ bn) (hbn : bn - NDIRECT < NINDIRECT)
    (hS : Covers S bn) (ha : d.addrs (Fin.last NDIRECT) ≠ 0) {k : ℕ → Code FsOp ℕ}
    (hk : k = fun addr => do
      let bp ← bufcacheRead addr
      let a ← Code.op (.data bp)
      if getLE a (4 * (bn - NDIRECT)) 4 = 0 then do
        let addr ← blockAlloc
        Code.op (.setData bp (setLE a (4 * (bn - NDIRECT)) 4 addr))
        logWrite bp
        bufcacheRelease bp
        return addr
      else do
        bufcacheRelease bp
        return getLE a (4 * (bn - NDIRECT)) 4) :
    (M.guard pid).Runs (Code.op (.indirect ip) >>= k) (fun x t => ∃ K' D' d', Filled M sb u X S ip i K D d K' D' d' s t ∧
      blockNo D' d' bn = x ∧ x ≠ 0 ∧ (blockNo D d bn ≠ 0 → K' = K ∧ D' = D ∧ d' = d)) t := by
  subst hk
  have hlast : slot D d NDIRECT = d.addrs (Fin.last NDIRECT) := slot_last
  obtain ⟨halo, halim, habit⟩ := h.lays.slot_area h.type (hlast.trans_ne ha)
  have hblock : blockNo D d bn = getLE (D (d.addrs (Fin.last NDIRECT))) (4 * (bn - NDIRECT)) 4 := by
    rw [blockNo, dataSlot_indirect hlo, slot_entry ha]
  have hmem : M.tracked → d.addrs (Fin.last NDIRECT) ∈ K := fun hm => by
    exact hr.known hm _ (hS.2 hlo) ha
  refine (runs_indirect h.sees).bind ?_
  rintro _ t ⟨rfl, ht⟩
  rw [FS.setD_inode_self]
  refine (runs_bufcacheRead ht fun _ => ⟨not_mem_nil, spare_nil⟩).bind fun bp t ht => ?_
  refine (runs_data ht (mem_cons_self ..) halim).bind ?_
  rintro _ t ⟨rfl, ht⟩
  by_cases h0 : blockNo D d bn = 0
  · rw [if_pos (hblock.symm.trans h0)]
    have hspare : Spare K [(bp, d.addrs (Fin.last NDIRECT))] := spare_cons nofun
    have hH : Handy M sb u K [(bp, d.addrs (Fin.last NDIRECT))] D := fun hm =>
      ⟨hr.trans hm, hspare, forall_mem_cons.mpr ⟨⟨halo, halim, habit⟩, nofun⟩⟩
    refine (runs_blockAlloc_room ht h.lays.toSuper hH hr hS.1 h0).bind ?_
    rintro x t ⟨hx, hbit, ht⟩
    refine runs_logWrite ht (mem_cons_self ..) halim (fun hm => ?_) (fun hm => Finset.mem_insert_of_mem (hmem hm)) _ fun t ht => ?_
    · exact ⟨hr.trans hm, forall_mem_cons.mpr ⟨halim, nofun⟩, hspare.mono (Finset.subset_insert ..)⟩
    refine (runs_bufcacheRelease ht).bind fun _ t ht => ?_
    rw [blockNo, dataSlot_indirect hlo] at h0
    have hf := h.lays.fillEntry h.type rfl ha hbn h0 hx hbit
    refine ⟨_, _, d, hf.filled hr (by rw [← dataSlot_indirect hlo]; exact hS.1) h.type ht, ?_, hf.ne_zero, fun hne => ?_⟩
    · rw [blockNo, dataSlot_indirect hlo, hf.slot, if_pos rfl]
    · rw [blockNo, dataSlot_indirect hlo] at hne
      exact absurd h0 hne
  · rw [if_neg (by rwa [← hblock]), ← hblock]
    refine (runs_bufcacheRelease ht).bind fun _ t ht => ?_
    exact ⟨K, D, d, .refl ⟨ht, h.lays, h.type⟩ hr, rfl, h0, fun _ => ⟨rfl, rfl, rfl⟩⟩

theorem runs_bmap (h : Edits M sb u K X ip i D d s t) (hr : Room M sb u K D d S) (hbn : bn < MAXFILE) (hS : Covers S bn) :
    (M.guard pid).Runs (bmap ip bn) (fun x t => ∃ K' D' d', Filled M sb u X S ip i K D d K' D' d' s t ∧
      blockNo D' d' bn = x ∧ x ≠ 0 ∧ (blockNo D d bn ≠ 0 → K' = K ∧ D' = D ∧ d' = d)) t := by
  unfold bmap
  by_cases hlt : bn < NDIRECT
  · rw [if_pos hlt]
    have hval : (Fin.ofNat (NDIRECT + 1) bn).val = dataSlot bn := by
      rw [dataSlot, if_pos hlt]
      exact Nat.mod_eq_of_lt (hlt.trans (Nat.lt_succ_self _))
    refine (runs_bmapAddr h hr fun _ => hval ▸ hS.1).mono ?_
    rintro x t ⟨K', D', d', hf, hx, hx0, hsame⟩
    rw [← blockNo_direct (D := D') hlt] at hx
    rw [← blockNo_direct (D := D) hlt] at hsame
    exact ⟨K', D', d', hf, hx, hx0, hsame⟩
  · have hlo : NDIRECT ≤ bn := by omega
    have hhi : bn - NDIRECT < NINDIRECT := by
      unfold NDIRECT NINDIRECT MAXFILE at *
      omega
    rw [if_neg hlt, if_pos hhi]
    refine (runs_bmapAddr h hr fun _ => hS.2 hlo).bind ?_
    rintro a t ⟨K', D', d', hf, rfl, ha, hsame⟩
    refine (runs_bmapEntry hf.edits hf.room hlo hhi hS ha rfl).mono ?_
    rintro x t ⟨K'', D'', d'', hf', hx, hx0, hsame'⟩
    refine ⟨K'', D'', d'', hf.trans hf', hx, hx0, fun hne => ?_⟩
    obtain ⟨rfl, rfl, rfl⟩ := hsame (last_ne_zero hlo hne)
    exact hsame' hne

theorem runs_bmap_of_ne (h : Sees M u K [] D s t) (hbn : bn < MAXFILE) (hd : (s.inode ip).d = d)
    (harea : ∀ m, slot D d m ≠ 0 → slot D d m < M.lim) (h0 : blockNo D d bn ≠ 0) :
    (M.guard pid).Runs (bmap ip bn) (fun x t => x = blockNo D d bn ∧ Sees M u K [] D s t) t := by
  unfold bmap
  by_cases hlt : bn < NDIRECT
  · rw [if_pos hlt]
    rw [blockNo_direct hlt, ← hd] at h0 ⊢
    exact runs_bmapAddr_of_ne h h0
  · have hlo : NDIRECT ≤ bn := by omega
    have ha := last_ne_zero hlo h0
    have hblock : blockNo D d bn = getLE (D (d.addrs (Fin.last NDIRECT))) (4 * (bn - NDIRECT)) 4 := by
      rw [blockNo, dataSlot_indirect hlo, slot_entry ha]
    have halim : d.addrs (Fin.last NDIRECT) < M.lim := by
      rw [← slot_last (D := D)] at ha ⊢
      exact harea _ ha
    rw [if_neg hlt, if_pos (by unfold NDIRECT NINDIRECT MAXFILE at *; omega)]
    refine (runs_bmapAddr_of_ne h (by rwa [hd])).bind ?_
    rintro _ t ⟨-, ht⟩
    refine (runs_indirect ht).bind ?_
    rintro _ t ⟨rfl, ht⟩
    rw [hd]
    refine (runs_bufcacheRead ht fun _ => ⟨not_mem_nil, spare_nil⟩).bind fun bp t ht => ?_
    refine (runs_data ht (mem_cons_self ..) halim).bind ?_
    rintro _ t ⟨rfl, ht⟩
    rw [if_neg (by rwa [← hblock]), ← hblock]
    exact (runs_bufcacheRelease ht).bind fun _ t ht => ⟨rfl, ht⟩

end

/-! ### `inode_read` -/

/-- `n` bytes of a file from `off` on. -/
def bytesAt (D : Disk) (d : Dinode) (off n : ℕ) : List UInt8 := (List.range n).map fun j => fileByte D d (off + j)

theorem bytesAt_add (m n : ℕ) : bytesAt D d off (m + n) = bytesAt D d off m ++ bytesAt D d (off + m) n := by
  rw [bytesAt, range_add, map_append, map_map]
  simp only [bytesAt, Function.comp_def, Nat.add_assoc]

theorem getBytes_block {m : ℕ} (hm : off % BSIZE + m ≤ BSIZE) : getBytes (D (blockNo D d (off / BSIZE))) (off % BSIZE) m = bytesAt D d off m := by
  refine map_congr_left fun j hj => ?_
  have hj := mem_range.mp hj
  unfold BSIZE at *
  rw [fileByte, show (off + j) / BSIZE = off / BSIZE by unfold BSIZE; omega, show (off + j) % BSIZE = off % BSIZE + j by unfold BSIZE; omega]

theorem runs_readLoop (h : Sees M u K [] D s t) (hd : (s.inode ip).d = d) (harea : ∀ m, slot D d m ≠ 0 → slot D d m < M.lim)
    {n fuel : ℕ} (hfuel : n ≤ fuel) (hn : off + n ≤ MAXFILE * BSIZE) (h0 : ∀ bn, bn * BSIZE < off + n → blockNo D d bn ≠ 0) :
    (M.guard pid).Runs (readLoop ip fuel off n) (fun bs t => bs = bytesAt D d off n ∧ Sees M u K [] D s t) t := by
  induction fuel generalizing off n t with
  | zero =>
    obtain rfl : n = 0 := by omega
    exact ⟨rfl, h⟩
  | succ fuel ih =>
    unfold readLoop
    by_cases hz : n = 0
    · subst hz
      exact ⟨rfl, h⟩
    · rw [if_neg hz]
      have hbn : off / BSIZE * BSIZE < off + n := by
        have := Nat.div_mul_le_self off BSIZE
        omega
      have hb0 := h0 _ hbn
      have hmax : off / BSIZE < MAXFILE := by
        unfold BSIZE MAXFILE at *
        omega
      refine (runs_bmap_of_ne h hmax hd harea hb0).bind ?_
      rintro _ t ⟨rfl, ht⟩
      refine (runs_bufcacheRead ht fun _ => ⟨not_mem_nil, spare_nil⟩).bind fun bp t ht => ?_
      refine (runs_data ht (mem_cons_self ..) (harea _ hb0)).bind ?_
      rintro _ t ⟨rfl, ht⟩
      refine (runs_bufcacheRelease ht).bind fun _ t ht => ?_
      set m := min n (BSIZE - off % BSIZE) with hm
      have hmod : off % BSIZE < BSIZE := Nat.mod_lt _ (by decide)
      have hmn : m ≤ n := min_le_left ..
      have hsum : off + m + (n - m) = off + n := by omega
      refine (ih ht (by omega) (hsum ▸ hn) fun bn hbn => h0 bn (hsum ▸ hbn)).bind ?_
      rintro _ t ⟨rfl, ht⟩
      refine ⟨?_, ht⟩
      rw [getBytes_block (by omega), ← bytesAt_add, Nat.add_sub_cancel' hmn]

theorem length_bytesAt (n : ℕ) : (bytesAt D d off n).length = n := by rw [bytesAt, length_map, length_range]

theorem length_contents : (contents D d).length = d.size := by rw [contents, length_map, length_range]

theorem contents_drop_take {n : ℕ} (h : off + n ≤ d.size) : ((contents D d).drop off).take n = bytesAt D d off n := by
  refine ext_getElem ?_ fun j hj hj' => ?_
  · rw [length_take, length_drop, length_contents, length_bytesAt]
    omega
  · simp [contents, bytesAt]

/-- What `inode_read` returns for a file with the bytes `bs`. -/
def readSpec (bs : List UInt8) (off n : ℕ) : Option (List UInt8) :=
  if bs.length < off ∨ (off + n) % 2 ^ 32 < off then none else some ((bs.drop off).take n)

theorem runs_inodeRead (h : Sees M u K [] D s t) (hd : (s.inode ip).d = d) (ht : d.type ≠ T_DEV) (hm : Mapped D d)
    (harea : ∀ m, slot D d m ≠ 0 → slot D d m < M.lim) (off n : ℕ) :
    (M.guard pid).Runs (inodeRead ip off n) (fun r t => r = readSpec (contents D d) off n ∧ Sees M u K [] D s t) t := by
  refine (runs_node h).bind ?_
  rintro _ t ⟨rfl, h⟩
  rw [hd, if_neg ht]
  by_cases hbad : d.size < off ∨ (off + n) % 2 ^ 32 < off
  · rw [if_pos hbad]
    exact ⟨by rw [readSpec, length_contents, if_pos hbad], h⟩
  · rw [if_neg hbad]
    have hmax := hm.size_le
    set n' := if d.size < off + n then d.size - off else n with hn'
    have hle : off + n' ≤ d.size := by
      rw [hn']
      split_ifs <;> omega
    refine (runs_readLoop h hd harea le_rfl (hle.trans hmax) fun bn hbn => hm bn (hbn.trans_le hle)).bind ?_
    rintro _ t ⟨rfl, h⟩
    refine ⟨?_, h⟩
    rw [readSpec, length_contents, if_neg hbad, ← contents_drop_take hle]
    refine congrArg some ?_
    rw [hn']
    split_ifs with hlt
    · have hlen : ((contents D d).drop off).length = d.size - off := by rw [length_drop, length_contents]
      rw [take_of_length_le hlen.le, take_of_length_le (by omega)]
    · rfl

/-! ### `inode_write` -/

theorem Lays.write_pending {lim : ℕ} (h : Lays lim sb (some (i, d)) X D) (ht : d.type ≠ 0) (h0 : blockNo D d bn ≠ 0) (v : Block) :
    Lays lim sb (some (i, d)) X (update D (blockNo D d bn) v) ∧
      (∀ m, slot (update D (blockNo D d bn) v) d m = slot D d m) ∧
      Grown sb i D d (update D (blockNo D d bn) v) d ∧
      freeBlocks lim sb (update D (blockNo D d bn) v) = freeBlocks lim sb D := by
  have hx : refs sb D (some (i, d)) (i, dataSlot bn) = blockNo D d bn := h.refs_pending ht _
  obtain ⟨hlays, hrefs, htree⟩ := h.writeData (dataSlot_ne_last bn) hx h0 v
  obtain ⟨-, hinodes, hbits, -⟩ := h.update_frame hx h0 v
  have hslot : ∀ m, slot (update D (blockNo D d bn) v) d m = slot D d m := fun m => by
    rw [← h.refs_pending ht, ← hlays.refs_pending ht, hrefs]
  refine ⟨hlays, hslot, ⟨fun m _ => hslot m, rfl, hinodes, fun j hj => htree j hj fun e he => hj (by cases he; rfl)⟩, ?_⟩
  refine Finset.filter_congr fun y hy => ?_
  rw [hbits y (Finset.mem_range.mp hy)]

theorem Lays.fileByte_write {lim : ℕ} (h : Lays lim sb (some (i, d)) X D) (ht : d.type ≠ 0) {off : ℕ} {src : List UInt8}
    (h0 : blockNo D d (off / BSIZE) ≠ 0) (hlen : off % BSIZE + src.length ≤ BSIZE) (j : ℕ) :
    fileByte (update D (blockNo D d (off / BSIZE)) (putBytes (D (blockNo D d (off / BSIZE))) (off % BSIZE) src)) d j =
      if off ≤ j ∧ j < off + src.length then src.getD (j - off) 0 else fileByte D d j := by
  have hj : j % BSIZE < BSIZE := Nat.mod_lt _ (by decide)
  obtain ⟨-, hslot, -⟩ := h.write_pending ht h0 (putBytes (D (blockNo D d (off / BSIZE))) (off % BSIZE) src)
  have hblock : ∀ bn, blockNo (update D (blockNo D d (off / BSIZE)) (putBytes (D (blockNo D d (off / BSIZE))) (off % BSIZE) src)) d bn =
    blockNo D d bn := fun bn => hslot _
  rw [fileByte, hblock]
  by_cases hb : j / BSIZE = off / BSIZE
  · have hiff : off % BSIZE ≤ j % BSIZE ∧ j % BSIZE < off % BSIZE + src.length ↔ off ≤ j ∧ j < off + src.length := by
      unfold BSIZE at *
      omega
    have hsub : j % BSIZE - off % BSIZE = j - off := by
      unfold BSIZE at *
      omega
    rw [hb, update_self, byteAt_putBytes _ _ _ hj]
    simp only [hiff, hsub]
    rw [fileByte, hb]
  · -- other blocks of the file
    have hne : blockNo D d (j / BSIZE) ≠ blockNo D d (off / BSIZE) := by
      intro e
      have hinj := h.owned.inj (i, dataSlot (j / BSIZE)) (i, dataSlot (off / BSIZE))
      rw [h.refs_pending ht, h.refs_pending ht] at hinj
      exact hb (dataSlot_inj (congrArg Prod.snd (hinj (e.trans_ne h0) e)))
    rw [update_of_ne hne, if_neg, fileByte]
    unfold BSIZE at *
    omega

/-- The bytes `src` have been written at `off`. -/
structure Wrote (off : ℕ) (src : List UInt8) (D : Disk) (d : Dinode) (D' : Disk) (d' : Dinode) : Prop where
  put : ∀ j, off ≤ j → j < off + src.length → fileByte D' d' j = src.getD (j - off) 0
  there : ∀ j, off ≤ j → j < off + src.length → blockNo D' d' (j / BSIZE) ≠ 0
  keep : ∀ j, ¬ (off ≤ j ∧ j < off + src.length) → blockNo D d (j / BSIZE) ≠ 0 → fileByte D' d' j = fileByte D d j

theorem Grown.blockNo (h : Grown sb i D d D' d') (h0 : blockNo D d bn ≠ 0) : Fs.blockNo D' d' bn = Fs.blockNo D d bn :=
  h.slots _ h0

theorem wrote_nil : Wrote off [] D d D d :=
  ⟨fun j h h' => absurd h' (by simpa using h), fun j h h' => absurd h' (by simpa using h), fun _ _ _ => rfl⟩

theorem Wrote.append {src : List UInt8} {m : ℕ} (hm : m ≤ src.length) (hg : Grown sb i D d D' d') (hg' : Grown sb i D' d' D'' d'')
    (h : Wrote off (src.take m) D d D' d') (h' : Wrote (off + m) (src.drop m) D' d' D'' d'') : Wrote off src D d D'' d'' := by
  have hl : (src.take m).length = m := length_take_of_le hm
  have hl' : (src.drop m).length = src.length - m := length_drop ..
  obtain ⟨hput, hthere, hkeep⟩ := h
  obtain ⟨hput', hthere', hkeep'⟩ := h'
  rw [hl] at hput hthere hkeep
  refine ⟨fun j hlo hhi => ?_, fun j hlo hhi => ?_, fun j hout h0 => ?_⟩
  · by_cases hj : j < off + m
    · rw [hkeep' j (by omega) (hthere j hlo hj), hput j hlo hj]
      simp only [getD_eq_getElem?_getD, List.getElem?_take, if_pos (show j - off < m by omega)]
    · rw [hput' j (by omega) (by omega)]
      simp only [getD_eq_getElem?_getD, List.getElem?_drop]
      congr 2
      omega
  · by_cases hj : j < off + m
    · rw [hg'.blockNo (hthere j hlo hj)]
      exact hthere j hlo hj
    · exact hthere' j (by omega) (by omega)
  · rw [hkeep' j (by omega) (by rwa [hg.blockNo h0]), hkeep j (by omega) h0]

theorem need_congr (h : ∀ m, slot D' d' m = slot D d m) : need D' d' S = need D d S := by
  simp only [need, h]

theorem Room.congr (h : Room M sb u K D d S) (hslot : ∀ m, slot D' d' m = slot D d m)
    (hfree : freeBlocks M.lim sb D' = freeBlocks M.lim sb D) : Room M sb u K D' d' S := by
  have hneed : need D' d' S = need D d S := need_congr hslot
  refine ⟨h.trans, h.bitmaps, fun hm k hk => ?_, fun hm => hneed ▸ h.log hm, fun hm => ?_, fun hq => hneed ▸ h.loud hq⟩
  · rw [hslot]
    exact h.known hm k hk
  · rw [hneed, hfree]
    exact h.free hm

/-- The bytes `src` have been written to the file at `off`. -/
structure Written (M : Mode) (sb : Superblock) (u : Bool) (X S : Finset ℕ) (ip : InodePtr) (i off : ℕ) (src : List UInt8)
    (K : Finset ℕ) (D : Disk) (d : Dinode) (K' : Finset ℕ) (D' : Disk) (d' : Dinode) (s t : FS) : Prop where
  edits : Edits M sb u K' X ip i D' d' s t
  room : Room M sb u K' D' d' S
  grown : Grown sb i D d D' d'
  wrote : Wrote off src D d D' d'
  subset : K ⊆ K'
  card : K'.card + need D' d' S ≤ K.card + need D d S
  balance : Balance M.lim sb S D d D' d'
  same : (∀ j, off ≤ j → j < off + src.length → blockNo D d (j / BSIZE) ≠ 0) → d' = d

theorem Filled.fileByte (h : Filled M sb u X S ip i K D d K' D' d' s t) {j : ℕ} (h0 : blockNo D d (j / BSIZE) ≠ 0) :
    fileByte D' d' j = Fs.fileByte D d j := by
  have hdata : D' (blockNo D d (j / BSIZE)) = D (blockNo D d (j / BSIZE)) := h.data _ (dataSlot_ne_last _) h0
  rw [Fs.fileByte, h.grown.blockNo h0, hdata, Fs.fileByte]

theorem runs_writeLoop {fuel : ℕ} {src : List UInt8} (h : Edits M sb u K X ip i D d s t) (hr : Room M sb u K D d S)
    (hS : ∀ j, off ≤ j → j < off + src.length → Covers S (j / BSIZE)) (hfuel : src.length ≤ fuel)
    (hmax : off + src.length ≤ MAXFILE * BSIZE) : (M.guard pid).Runs (writeLoop ip fuel off src) (fun _ t => ∃ K' D' d',
      Written M sb u X S ip i off src K D d K' D' d' s t) t := by
  induction fuel generalizing off src K D d t with
  | zero =>
    obtain rfl := length_eq_zero_iff.mp (Nat.le_zero.mp hfuel)
    exact ⟨K, D, d, h, hr, .refl .., wrote_nil, fun _ h => h, le_rfl, fun _ _ => rfl, fun _ => rfl⟩
  | succ fuel ih =>
    unfold writeLoop
    by_cases hnil : src = []
    · subst hnil
      exact ⟨K, D, d, h, hr, .refl .., wrote_nil, fun _ h => h, le_rfl, fun _ _ => rfl, fun _ => rfl⟩
    · rw [if_neg hnil]
      have hpos : 0 < src.length := length_pos_iff.mpr hnil
      have hmod : off % BSIZE < BSIZE := Nat.mod_lt _ (by decide)
      have hcov := hS off le_rfl (by omega)
      have hbn : off / BSIZE < MAXFILE := by
        unfold BSIZE MAXFILE at *
        omega
      refine (runs_bmap h hr hbn hcov).bind ?_
      rintro _ t ⟨K₁, D₁, d1, hf, rfl, hx0, hsame⟩
      have hxlim : blockNo D₁ d1 (off / BSIZE) < M.lim := (hf.edits.lays.slot_area hf.edits.type hx0).2.1
      refine (runs_bufcacheRead hf.edits.sees fun _ => ⟨not_mem_nil, spare_nil⟩).bind fun bp t ht => ?_
      refine (runs_data ht (mem_cons_self ..) hxlim).bind ?_
      rintro _ t ⟨rfl, ht⟩
      set m := min src.length (BSIZE - off % BSIZE) with hm
      have hmle : m ≤ src.length := min_le_left ..
      have hlen : (src.take m).length = m := length_take_of_le hmle
      have hlen' : (src.drop m).length = src.length - m := length_drop ..
      set v := putBytes (D₁ (blockNo D₁ d1 (off / BSIZE))) (off % BSIZE) (src.take m) with hv
      refine runs_logWrite ht (mem_cons_self ..) hxlim (fun hm => ⟨hr.trans hm, forall_mem_cons.mpr ⟨hxlim, nofun⟩, spare_cons nofun⟩)
        (fun hm => hf.room.known hm _ hcov.1 hx0) v fun t ht => ?_
      refine (runs_bufcacheRelease ht).bind fun _ t ht => ?_
      obtain ⟨hlays, hslot, hg, hfree⟩ := hf.edits.lays.write_pending hf.edits.type hx0 v
      set D₂ := update D₁ (blockNo D₁ d1 (off / BSIZE)) v with hD2
      have hbyte : ∀ j, fileByte D₂ d1 j = if off ≤ j ∧ j < off + m then (src.take m).getD (j - off) 0 else fileByte D₁ d1 j := fun j => by
        rw [hf.edits.lays.fileByte_write hf.edits.type hx0 (by omega), hlen]
      -- one round has written the bytes of one block
      have hwrote : Wrote off (src.take m) D d D₂ d1 := by
        refine ⟨fun j hlo hhi => ?_, fun j hlo hhi => ?_, fun j hout h0 => ?_⟩
        · rw [hbyte, if_pos ⟨hlo, hlen ▸ hhi⟩]
        · have hj : j / BSIZE = off / BSIZE := by
            unfold BSIZE at *
            omega
          rw [hj]
          exact (hslot _).trans_ne hx0
        · rw [hlen] at hout
          rw [hbyte, if_neg hout]
          exact hf.fileByte h0
      have hg' := hf.grown.trans hg
      have hr' := hf.room.congr hslot hfree
      have hle : off + m + (src.drop m).length = off + src.length := by omega
      refine (ih ⟨ht, hlays, hf.edits.type⟩ hr' (fun j hlo hhi => hS j (by omega) (hle ▸ hhi)) (by omega) (hle ▸ hmax)).mono ?_
      rintro _ t ⟨K', D', d', hw⟩
      refine ⟨K', D', d', hw.edits, hw.room, hg'.trans hw.grown, .append hmle hg' hw.grown hwrote hw.wrote, hf.subset.trans hw.subset,
        ?_, hf.balance.trans (.trans (fun T _ => ?_) hw.balance), fun hall => ?_⟩
      · exact hw.card.trans ((congrArg (K₁.card + ·) (need_congr hslot)).le.trans hf.card)
      · rw [need_congr hslot, hfree]
      · obtain ⟨rfl, rfl, rfl⟩ := hsame (hall off le_rfl (by omega))
        refine hw.same fun j hlo hhi => ?_
        exact (hslot _).trans_ne (hall j (by omega) (hle ▸ hhi))

theorem runs_inodeUpdate (h : Sees M u K [] D s t) (hi : (s.inode ip).inum = i) (hd : (s.inode ip).d = d) (hlim : iblock i < M.lim)
    (htotal : M.total → u = true) (hK : M.tracked → iblock i ∈ K) :
    (M.guard pid).Runs (inodeUpdate ip) (fun _ t => Sees M u K [] (stored D i d) s t) t := by
  refine (runs_node h).bind ?_
  rintro _ t ⟨rfl, h⟩
  rw [hi]
  refine (runs_bufcacheRead h fun _ => ⟨not_mem_nil, spare_nil⟩).bind fun bp t h => ?_
  refine (runs_node h).bind ?_
  rintro _ t ⟨rfl, h⟩
  refine (runs_data h (mem_cons_self ..) hlim).bind ?_
  rintro _ t ⟨rfl, h⟩
  rw [hi, hd]
  refine runs_logWrite h (mem_cons_self ..) hlim (fun hm => ⟨htotal hm, forall_mem_cons.mpr ⟨hlim, nofun⟩, spare_cons nofun⟩) hK _
    fun t h => runs_bufcacheRelease h

/-- The bytes `src` are written over `bs` at `off`. -/
def overlay (bs : List UInt8) (off : ℕ) (src : List UInt8) : List UInt8 := bs.take off ++ src ++ bs.drop (off + src.length)

theorem length_overlay {bs : List UInt8} (src : List UInt8) (h : off ≤ bs.length) : (overlay bs off src).length = max bs.length (off + src.length) := by
  simp only [overlay, length_append, length_take, length_drop]
  omega

theorem getElem?_overlay {bs src : List UInt8} (h : off ≤ bs.length) (j : ℕ) :
    (overlay bs off src)[j]? = if off ≤ j ∧ j < off + src.length then src[j - off]? else bs[j]? := by
  have hlen : (bs.take off).length = off := length_take_of_le h
  have hlen' : (bs.take off ++ src).length = off + src.length := by rw [length_append, hlen]
  rw [overlay]
  by_cases hhi : j < off + src.length
  · rw [List.getElem?_append_left (by omega)]
    by_cases hlo : off ≤ j
    · rw [List.getElem?_append_right (by omega), hlen, if_pos ⟨hlo, hhi⟩]
    · rw [List.getElem?_append_left (by omega), if_neg (by omega), List.getElem?_take_of_lt (by omega)]
  · rw [List.getElem?_append_right (by omega), hlen', if_neg (by omega), List.getElem?_drop]
    congr 1
    omega

theorem getElem?_contents (j : ℕ) : (contents D d)[j]? = if j < d.size then some (fileByte D d j) else none := by
  by_cases hj : j < d.size
  · simp [contents, hj]
  · rw [if_neg hj, List.getElem?_eq_none_iff, length_contents]
    omega

theorem Wrote.contents {src : List UInt8} (h : Wrote off src D d D' d') (hm : Mapped D d) (hoff : off ≤ d.size) (hd : d''.addrs = d'.addrs)
    (hsize : d''.size = max d.size (off + src.length)) : contents D' d'' = overlay (contents D d) off src := by
  have hbyte : ∀ j, fileByte D' d'' j = fileByte D' d' j := fun j => by simp only [fileByte, blockNo, slot, hd]
  refine ext_getElem? fun j => ?_
  rw [getElem?_overlay (by rwa [length_contents]), getElem?_contents, getElem?_contents, hbyte]
  have h0 : j < d.size → blockNo D d (j / BSIZE) ≠ 0 := fun hlt => hm _ ((Nat.div_mul_le_self ..).trans_lt hlt)
  by_cases hj : off ≤ j ∧ j < off + src.length
  · rw [if_pos hj, if_pos (by omega), h.put j hj.1 hj.2]
    simp [List.getElem?_eq_getElem (show j - off < src.length by omega)]
  · rw [if_neg hj]
    by_cases hlt : j < d.size
    · rw [if_pos hlt, if_pos (by omega), h.keep j hj (h0 hlt)]
    · rw [if_neg hlt, if_neg (by omega)]

/-- Inode `i` has been changed, through its entry `ip` of the cache; it is `n` now. -/
structure Changed (M : Mode) (sb : Superblock) (u : Bool) (X S : Finset ℕ) (ip : InodePtr) (i : ℕ) (n : Node) (K : Finset ℕ)
    (D : Disk) (K' : Finset ℕ) (D' : Disk) (s t : FS) : Prop where
  sees : Sees M u K' [] D' (s.setD ip (dinodeAt D' i)) t
  lays : Lays M.lim sb none X D'
  tree : tree sb D' none = update (tree sb D none) i (some n)
  inodes : ∀ j < sb.ninodes, j ≠ i → dinodeAt D' j = dinodeAt D j
  subset : K ⊆ K'
  card : K'.card ≤ K.card + need D (dinodeAt D i) S
  balance : Balance M.lim sb S D (dinodeAt D i) D' (dinodeAt D' i)

theorem Grown.mapped (h : Grown sb i D d D' d') (hm : Mapped D d) : Mapped D' d' := by
  intro bn hbn
  have hsize : d'.size = d.size := by rw [h.fields]
  have h0 := hm bn (hsize ▸ hbn)
  rw [h.blockNo h0]
  exact h0

theorem Lays.slot_stored {lim : ℕ} (h : Lays lim sb (some (i, d)) X D) (ht : d.type ≠ 0) (m : ℕ) : slot (stored D i d) d m = slot D d m := by
  refine slot_congr (fun h0 => (h.stored_frame (h.pending i d rfl).1 d).2.2 _ ?_) m
  rw [← slot_last (D := D)] at h0 ⊢
  exact (h.slot_area ht h0).1

theorem Lays.freeBlocks_stored {lim : ℕ} (h : Lays lim sb (some (i, d)) X D) : freeBlocks lim sb (stored D i d) = freeBlocks lim sb D := by
  refine Finset.filter_congr fun y hy => ?_
  rw [(h.stored_frame (h.pending i d rfl).1 d).2.1 y (Finset.mem_range.mp hy)]

theorem tree_pending (hi : i < sb.ninodes) (ht : d.type ≠ 0) : tree sb D (some (i, d)) i = some (nodeOf D d) := by
  rw [tree_of hi (by rwa [table_self]), table_self]

theorem Written.tree {src : List UInt8} (h : Written M sb u X S ip i off src K D d K' D' d' s t) (hd : dinodeAt D i = d) {j : ℕ}
    (hj : j ≠ i) (d'' : Dinode) : tree sb D' (some (i, d'')) j = Fs.tree sb D none j := by
  rw [Lays.tree_change hj, h.grown.tree j hj, ← hd, Lays.tree_dinodeAt]

theorem Written.inside {src : List UInt8} (h : Written M sb u X S ip i off src K D d K' D' d' s t) (hd : dinodeAt D i = d)
    (hm : Mapped D d) (hin : off + src.length ≤ d.size ∨ src = []) (hoff : off ≤ d.size) :
    Changed M sb u X S ip i { nodeOf D d with data := overlay (Fs.contents D d) off src } K D K' D' s t := by
  have hi : i < sb.ninodes := (h.edits.lays.pending i d' rfl).1
  have hle : off + src.length ≤ d.size := hin.elim id fun e => by simpa [e] using hoff
  obtain rfl : d' = d := h.same fun j hlo hhi => hm _ ((Nat.div_mul_le_self ..).trans_lt (hhi.trans_le hle))
  have hself : dinodeAt D' i = d' := (h.grown.inodes i hi).trans hd
  have hm' := h.grown.mapped hm
  have hl' := h.edits.lays
  rw [← hself] at hl' hm'
  refine ⟨by rw [hself]; exact h.edits.sees, hl'.cancel fun _ => hm', ?_, fun j hj _ => h.grown.inodes j hj, h.subset, ?_, ?_⟩
  · funext j
    by_cases hj : j = i
    · subst hj
      rw [update_self, ← Lays.tree_dinodeAt (i := j), hself, tree_pending hi h.edits.type, nodeOf, nodeOf,
        h.wrote.contents hm hoff rfl (max_eq_left hle).symm]
    · rw [update_of_ne hj, ← Lays.tree_dinodeAt (i := i), h.tree hd hj]
  · rw [hd]
    exact (Nat.le_add_right ..).trans h.card
  · rw [hself, hd]
    exact h.balance

theorem Written.larger {src : List UInt8} {t' : FS} (h : Written M sb u X S ip i off src K D d K' D' d' s t) (hd : dinodeAt D i = d)
    (hm : Mapped D d) (hoff : off ≤ d.size) (hgrow : d.size < off + src.length) (hmax : off + src.length ≤ MAXFILE * BSIZE)
    (hs : Sees M u K' [] (stored D' i { d' with size := off + src.length }) (s.setD ip { d' with size := off + src.length }) t') :
    Changed M sb u X S ip i { nodeOf D d with data := overlay (Fs.contents D d) off src } K D K'
      (stored D' i { d' with size := off + src.length }) s t' := by
  obtain ⟨hi, hfits'⟩ := h.edits.lays.pending i d' rfl
  have hfields := h.grown.fields
  set d'' : Dinode := { d' with size := off + src.length } with hd''
  have hfits : d''.Fits := ⟨hfits'.type, hfits'.major, hfits'.minor, hfits'.nlink, hmax.trans_lt (by decide), hfits'.addrs⟩
  have hl'' := h.edits.lays.setMeta hfits rfl Iff.rfl
  have hmapped : Mapped D' d'' := by
    intro bn hbn
    show blockNo D' d' bn ≠ 0
    by_cases hlt : bn * BSIZE < d.size
    · rw [h.grown.blockNo (hm bn hlt)]
      exact hm bn hlt
    · have := h.wrote.there (bn * BSIZE) (by omega) hbn
      rwa [Nat.mul_div_cancel _ (by decide)] at this
  obtain ⟨hlays, hstored⟩ := hl''.store fun _ => hmapped
  have hself : dinodeAt (stored D' i d'') i = d'' := by rw [dinodeAt_stored hfits, if_pos rfl]
  have htype : d''.type ≠ 0 := h.edits.type
  refine ⟨by rwa [hself], hlays, ?_, fun j hj hne => ?_, h.subset, ?_, fun T hT => ?_⟩
  · rw [hstored]
    funext j
    by_cases hj : j = i
    · subst hj
      rw [update_self, tree_pending hi htype, nodeOf, nodeOf,
        h.wrote.contents hm hoff (show d''.addrs = d'.addrs from rfl) (max_eq_right hgrow.le).symm, hd'', hfields]
    · rw [update_of_ne hj, h.tree hd hj]
  · rw [dinodeAt_stored hfits, if_neg hne, h.grown.inodes j hj]
  · rw [hd]
    exact (Nat.le_add_right ..).trans h.card
  · have hneed : need (stored D' i d'') d'' T = need D' d' T := need_congr (hl''.slot_stored htype)
    rw [hself, hd, hneed, hl''.freeBlocks_stored]
    exact h.balance T hT

theorem runs_inodeWrite {src : List UInt8} (h : Sees M u K [] D s t) (hl : Lays M.lim sb none X D) (hi : (s.inode ip).inum = i)
    (hlt : i < sb.ninodes) (hd : (s.inode ip).d = d) (hdi : dinodeAt D i = d) (ht : d.type ≠ 0) (hdev : d.type ≠ T_DEV)
    (hoff : off ≤ d.size) (hmax : off + src.length ≤ MAXFILE * BSIZE) (hr : Room M sb u K D d S)
    (hS : ∀ j, off ≤ j → j < off + src.length → Covers S (j / BSIZE)) (hK : M.tracked → iblock i ∈ K) :
    (M.guard pid).Runs (inodeWrite ip src off) (fun r t => r = some src.length ∧ ∃ K' D',
      Changed M sb u X S ip i { nodeOf D d with data := overlay (contents D d) off src } K D K' D' s t) t := by
  have hm : Mapped D d := by
    subst hdi
    exact hl.mapped i hlt nofun ht
  have hnowrap : ¬ (d.size < off ∨ (off + src.length) % 2 ^ 32 < off) := by
    have : off + src.length < 2 ^ 32 := hmax.trans_lt (by decide)
    rw [Nat.mod_eq_of_lt this]
    omega
  have hedits : ∀ {t}, Sees M u K [] D s t → Edits M sb u K X ip i D d s t := fun h =>
    ⟨by rwa [FS.setD_self hd], hdi ▸ hl.begin hlt, ht⟩
  refine (runs_node h).bind ?_
  rintro _ t ⟨rfl, h⟩
  rw [hd, if_neg hdev, if_neg hnowrap, if_neg (by omega)]
  refine (runs_writeLoop (hedits h) hr hS le_rfl hmax).bind ?_
  rintro _ t ⟨K', D', d', hw⟩
  refine (runs_node hw.edits.sees).bind ?_
  rintro _ t ⟨rfl, h⟩
  have hsize : d'.size = d.size := by rw [hw.grown.fields]
  have hw : Written M sb u X S ip i off src K D d K' D' d' s t := { hw with edits := ⟨h, hw.edits.lays, hw.edits.type⟩ }
  rw [FS.setD_inode_self]
  by_cases hgrow : 0 < src.length ∧ d.size < off + src.length
  · rw [if_pos (by rwa [hsize])]
    refine (runs_setNode h _).bind fun _ t h => ?_
    rw [FS.setD_setD] at h
    refine (runs_inodeUpdate (i := i) h ?_ rfl ?_ hr.trans fun hm => hw.subset (hK hm)).bind fun _ t h => ?_
    · rw [FS.setD_inode_self]
      exact hi
    · exact (iblock_lt_dataStart hlt).trans_le hl.area.1
    · rw [FS.setD_inode_self] at h
      exact ⟨rfl, K', _, hw.larger hdi hm hoff hgrow.2 hmax h⟩
  · rw [if_neg (by rwa [hsize])]
    refine ⟨rfl, K', D', hw.inside hdi hm ?_ hoff⟩
    rw [not_and_or, Nat.not_lt, Nat.not_lt, Nat.le_zero, length_eq_zero_iff] at hgrow
    exact hgrow.symm

theorem runs_inodeWrite_bad {src : List UInt8} (hdev : (t.inode ip).d.type ≠ T_DEV)
    (hbad : ¬ (off ≤ (t.inode ip).d.size ∧ off + src.length ≤ MAXFILE * BSIZE)) :
    (M.guard pid).Runs (inodeWrite ip src off) (fun r t' => r = none ∧ t' = t) t := by
  refine fun _ => ⟨trivial, ?_⟩
  show (M.guard pid).Runs (if (t.inode ip).d.type = T_DEV then _ else _) _ t
  rw [if_neg hdev]
  by_cases hwrap : (t.inode ip).d.size < off ∨ (off + src.length) % 2 ^ 32 < off
  · rw [if_pos hwrap]
    exact ⟨rfl, rfl⟩
  · rw [if_neg hwrap, if_pos (by omega)]
    exact ⟨rfl, rfl⟩

/-! ### A file is an array of bytes -/

/-- `inode_read` through `ip` finds the bytes `bs`. -/
def ReadsAs (s : FS) (ip : InodePtr) (bs : List UInt8) : Prop :=
  ∀ pid off n, ∃ t, ((inodeRead ip off n).run (sem pid)).run s = (.ok (readSpec bs off n), t)

theorem readsAs {lim : ℕ} (h : Shows (full lim) u K [] D s.store) (hl : Lays lim sb none X D) (hi : i < sb.ninodes)
    (hd : (s.inode ip).d = dinodeAt D i) (ht : (dinodeAt D i).type ≠ 0) (hdev : (dinodeAt D i).type ≠ T_DEV) :
    ReadsAs s ip (contents D (dinodeAt D i)) := by
  intro pid off n
  have hs : Sees (full lim) u K [] D s s := ⟨Rest.refl s, rfl, h⟩
  have harea : ∀ m, slot D (dinodeAt D i) m ≠ 0 → slot D (dinodeAt D i) m < lim :=
    fun m h0 => ((hl.begin hi).slot_area ht h0).2.1
  obtain ⟨_, t, hr, rfl, -⟩ := run_full lim pid (runs_inodeRead hs hd hdev (hl.mapped i hi nofun ht) harea off n)
  exact ⟨t, hr⟩

/-- The slots of `n` bytes from `off` on. -/
def writeSlots (off n : ℕ) : Finset ℕ :=
  (Finset.Ico off (off + n)).biUnion fun j => if j / BSIZE < NDIRECT then {dataSlot (j / BSIZE)} else {dataSlot (j / BSIZE), NDIRECT}

theorem covers_writeSlots {n j : ℕ} (hlo : off ≤ j) (hhi : j < off + n) : Covers (writeSlots off n) (j / BSIZE) := by
  have hmem : ∀ k ∈ (if j / BSIZE < NDIRECT then {dataSlot (j / BSIZE)} else {dataSlot (j / BSIZE), NDIRECT} : Finset ℕ),
      k ∈ writeSlots off n := fun k hk => Finset.mem_biUnion.mpr ⟨j, Finset.mem_Ico.mpr ⟨hlo, hhi⟩, hk⟩
  refine ⟨hmem _ ?_, fun hge => hmem _ ?_⟩
  · split_ifs <;> simp
  · rw [if_neg (by omega)]
    simp

/-- The inode cache has inode `i` at `ip`. -/
structure Holds (sb : Superblock) (D : Disk) (s : FS) (ip : InodePtr) (i : ℕ) : Prop where
  inum : (s.inode ip).inum = i
  lt : i < sb.ninodes
  copy : (s.inode ip).d = dinodeAt D i
  type : (dinodeAt D i).type ≠ 0

section

variable {n : Node} (h : tree sb D none i = some n)
include h

theorem tree_some : i < sb.ninodes ∧ (dinodeAt D i).type ≠ 0 ∧ nodeOf D (dinodeAt D i) = n := by
  unfold tree at h
  split_ifs at h with hu
  exact ⟨hu.1, hu.2, Option.some.inj h⟩

theorem contents_of_tree : contents D (dinodeAt D i) = n.data := by
  obtain ⟨-, -, rfl⟩ := tree_some h
  rw [nodeOf]

theorem type_of_tree : (dinodeAt D i).type = n.type := by
  obtain ⟨-, -, rfl⟩ := tree_some h
  rw [nodeOf]

end

/-- A transaction may log the sectors of `K`, among them that of the inode and those of the bitmap, and has space for
the blocks that are to be found. Then a write that begins in the file and ends below the largest size of files returns the number
of bytes, the file reads as its old contents with the bytes put over them, and the other inodes are as they were. Any other write
returns `-1` and changes nothing. -/
theorem inode_write_overlay (pid off : ℕ) (src : List UInt8) {lim : ℕ} (hs : Shows (full lim) true K [] D s.store) (hl : Lays lim sb none X D)
    (hf : Holds sb D s ip i) (hfile : (dinodeAt D i).type = T_FILE) :
    (off ≤ (dinodeAt D i).size ∧ off + src.length ≤ MAXFILE * BSIZE →
      Room (full lim) sb true K D (dinodeAt D i) (writeSlots off src.length) → iblock i ∈ K →
      ∃ t, ((inodeWrite ip src off).run (sem pid)).run s = (.ok (some src.length), t) ∧
        (t.inode ip).d.size = max (dinodeAt D i).size (off + src.length) ∧
        ReadsAs t ip (overlay (contents D (dinodeAt D i)) off src) ∧
        (∀ j, j ≠ i → tree sb (t.store.home lim) none j = tree sb D none j) ∧
        ∀ jp j, j ≠ i → Holds sb D s jp j → (dinodeAt D j).type ≠ T_DEV → ReadsAs t jp (contents D (dinodeAt D j))) ∧
      (¬ (off ≤ (dinodeAt D i).size ∧ off + src.length ≤ MAXFILE * BSIZE) →
        ((inodeWrite ip src off).run (sem pid)).run s = (.ok none, s)) := by
  have hdev : (dinodeAt D i).type ≠ T_DEV := by
    rw [hfile]
    decide
  refine ⟨fun hfit hr hK => ?_, fun hbad => ?_⟩
  · have hsees : Sees (full lim) true K [] D s s := ⟨Rest.refl s, rfl, hs⟩
    obtain ⟨_, t, hrun, rfl, K', D', hc⟩ := run_full lim pid (runs_inodeWrite hsees hl hf.inum hf.lt hf.copy rfl hf.type hdev
      hfit.1 hfit.2 hr (fun j => covers_writeSlots) fun _ => hK)
    have hown : tree sb D' none i = some { nodeOf D (dinodeAt D i) with data := overlay (contents D (dinodeAt D i)) off src } := by
      rw [hc.tree, update_self]
    have hdata : contents D' (dinodeAt D' i) = overlay (contents D (dinodeAt D i)) off src := contents_of_tree hown
    have htype : (dinodeAt D' i).type = (dinodeAt D i).type := type_of_tree hown
    have hcopy : (t.inode ip).d = dinodeAt D' i := by rw [hc.sees.rest.inode, FS.setD_inode_self]
    have hother : ∀ j, j ≠ i → tree sb D' none j = tree sb D none j := fun j hj => by rw [hc.tree, update_of_ne hj]
    refine ⟨t, hrun, ?_, ?_, fun j hj => ?_, fun jp j hj hj' hdev' => ?_⟩
    · have hlen := congrArg List.length hdata
      rwa [length_overlay _ (by rw [length_contents]; exact hfit.1), length_contents, length_contents, ← hcopy] at hlen
    · rw [← hdata]
      exact readsAs hc.sees.shows hc.lays hf.lt hcopy (htype ▸ hf.type) (htype ▸ hdev)
    · have hhome : t.store.home lim = D' := hc.sees.shows.home
      rw [hhome, hother j hj]
    · have hsame := hc.inodes j hj'.lt hj
      have hne : jp ≠ ip := by
        rintro rfl
        exact hj (hj'.inum.symm.trans hf.inum)
      have hcopy' : (t.inode jp).d = dinodeAt D' j := by
        rw [hc.sees.rest.inode, hsame, ← hj'.copy]
        exact congrArg Inode.d (update_of_ne hne ..)
      have hj'' : tree sb D' none j = some (nodeOf D (dinodeAt D j)) := (hother j hj).trans (tree_of hj'.lt hj'.type)
      have hdata' : contents D' (dinodeAt D' j) = contents D (dinodeAt D j) := contents_of_tree hj''
      rw [← hdata']
      exact readsAs hc.sees.shows hc.lays hj'.lt hcopy' (hsame ▸ hj'.type) (hsame ▸ hdev')
  · obtain ⟨_, t, hrun, rfl, rfl⟩ := run_full lim pid (runs_inodeWrite_bad (by rwa [hf.copy]) (by rwa [hf.copy]))
    exact hrun

/-! ### A small disk -/

open scoped Fs.Sizes in
def smallRoot : Dinode := ⟨T_DIR, 0, 0, 1, 512, fun k => if k = 0 then 29 else 0⟩

def smallFile : Dinode := ⟨T_FILE, 0, 0, 1, 0, fun _ => 0⟩

/-- The root has one block, with its own entries and that of the empty file `f`. -/
def smallDisk : Disk :=
  stored (stored (update (image 30) 29
    (putBytes (fun _ => 0) 0 (direntBytes 1 dot ++ direntBytes 1 dotdot ++ direntBytes 2 [102]))) 1 smallRoot) 2 smallFile

theorem fits_smallRoot : smallRoot.Fits :=
  ⟨by decide, by decide, by decide, by decide, by decide, fun k => by unfold smallRoot; dsimp only; split_ifs <;> decide⟩

theorem fits_smallFile : smallFile.Fits := ⟨by decide, by decide, by decide, by decide, by decide, fun _ => Nat.two_pow_pos 32⟩

theorem smallDisk_of_ne (h2 : x ≠ 2) (h29 : x ≠ 29) : smallDisk x = image 30 x := by
  unfold smallDisk stored
  rw [update_of_ne (show x ≠ iblock 2 from h2), update_of_ne (show x ≠ iblock 1 from h2), update_of_ne h29]

theorem dinodeAt_smallDisk_root : dinodeAt smallDisk 1 = smallRoot := by
  rw [smallDisk, dinodeAt_stored fits_smallFile, if_neg (by decide), dinodeAt_stored fits_smallRoot, if_pos rfl]

theorem dinodeAt_smallDisk_file : dinodeAt smallDisk 2 = smallFile := by
  rw [smallDisk, dinodeAt_stored fits_smallFile, if_pos rfl]

theorem type_smallDisk (hi : i < 200) (h1 : i ≠ 1) (h2 : i ≠ 2) : (dinodeAt smallDisk i).type = 0 := by
  have hblock : iblock i ≠ 1 ∧ iblock i ≠ 28 ∧ iblock i ≠ 29 := by
    unfold iblock IPB
    omega
  rw [smallDisk, dinodeAt_stored fits_smallFile, if_neg h2, dinodeAt_stored fits_smallRoot, if_neg h1, dinodeAt,
    update_of_ne hblock.2.2, image, if_neg hblock.1, if_neg hblock.2.1]
  exact getLE_zero ..

theorem slot_smallFile (k : ℕ) : slot D smallFile k = 0 := by
  unfold slot
  by_cases h : k < NDIRECT + 1
  · rw [dif_pos h]
    rfl
  · rw [dif_neg h, if_pos (show smallFile.addrs (Fin.last NDIRECT) = 0 from rfl)]

theorem slot_smallRoot (k : ℕ) : slot D smallRoot k = if k = 0 then 29 else 0 := by
  unfold slot smallRoot
  by_cases h : k < NDIRECT + 1
  · rw [dif_pos h]
    simp only [Fin.ext_iff]
    rfl
  · rw [dif_neg h, if_pos (by decide), if_neg (by omega)]

theorem refs_smallDisk (p : ℕ × ℕ) : refs mkfsSb smallDisk none p = if p = (1, 0) then 29 else 0 := by
  obtain ⟨j, k⟩ := p
  show (if j < 200 ∧ (dinodeAt smallDisk j).type ≠ 0 then slot smallDisk (dinodeAt smallDisk j) k else 0) = _
  by_cases h1 : j = 1
  · subst h1
    rw [dinodeAt_smallDisk_root, if_pos ⟨by decide, by decide⟩, slot_smallRoot]
    simp only [Prod.mk.injEq, true_and]
  · rw [if_neg (show (j, k) ≠ (1, 0) from fun e => h1 (congrArg Prod.fst e))]
    by_cases h2 : j = 2
    · subst h2
      rw [dinodeAt_smallDisk_file, slot_smallFile, ite_self]
    · refine if_neg fun h => h.2 (type_smallDisk h.1 h1 h2)

theorem lays_smallDisk : Lays 1014 mkfsSb none ∅ smallDisk := by
  refine ⟨⟨?_, by decide⟩, ⟨fun p q hp e => ?_, fun p hp => ?_, nofun, fun x hx => ?_⟩, fun j hj _ ht => ?_, nofun⟩
  · rw [smallDisk_of_ne (by decide) (by decide)]
    rfl
  · rw [refs_smallDisk] at hp e
    rw [refs_smallDisk] at e
    split_ifs at hp e with h h'
    · rw [h, h']
    · exact absurd rfl hp
  · rw [refs_smallDisk] at hp ⊢
    split_ifs at hp ⊢ with h
    · decide
    · exact absurd rfl hp
  · have hblock : bblock x mkfsSb.ninodes = 28 := by
      show x / 4096 + 200 / 8 + 3 = 28
      omega
    rw [bitAt_congr (D := image 30) (smallDisk_of_ne (by rw [hblock]; decide) (by rw [hblock]; decide)),
      (made_image (by decide)).bits x (hx.trans (by decide)), decide_eq_true_eq]
    simp only [refs_smallDisk]
    constructor
    · intro h
      by_cases hlt : x < 29
      · exact .inl hlt
      · exact .inr (.inr ⟨(1, 0), by rw [if_pos rfl]; omega⟩)
    · rintro (h | h | ⟨p, hp⟩)
      · exact h.trans (by decide)
      · cases h
      · split_ifs at hp <;> omega
  · show Mapped smallDisk (dinodeAt smallDisk j)
    by_cases h1 : j = 1
    · subst h1
      rw [dinodeAt_smallDisk_root]
      intro bn hbn
      obtain rfl : bn = 0 := by
        have : bn * 512 < 512 := hbn
        omega
      exact (slot_smallRoot 0).trans_ne (by decide)
    · by_cases h2 : j = 2
      · subst h2
        exact fun bn hbn => absurd hbn (Nat.not_lt_zero _)
      · exact absurd (type_smallDisk hj h1 h2) ht

/-- The machine on the disk `D` after `log_init`; a transaction has begun if `u`. -/
def FS.ready (D : Disk) (u : Bool) : FS :=
  { FS.boot D 300000 with
    store := { Store.boot D 0 0 with log := ⟨1014, LOGSIZE, u, 0, fun _ => 0⟩ }
    first := false }

theorem shows_ready (hhead : headN (D 1014) = 0) : Shows (full 1014) u ∅ [] ((Store.boot D 0 0).home 1014) (FS.ready D u).store := by
  refine ⟨?_, rfl, rfl, hhead, fun _ _ => le_rfl, fun _ => ?_, fun _ => Nat.zero_le _⟩
  · exact (steady_boot D 1014).setLog (l := ⟨1014, LOGSIZE, u, 0, fun _ => 0⟩) (.inl rfl) (fun i hi => absurd hi (Nat.not_lt_zero i))
      (.inr rfl) (.inl rfl) (fun _ => rfl) [] []
  · exact (homes_eq_empty rfl).le

theorem home_smallDisk : (Store.boot smallDisk 0 0).home 1014 = smallDisk := by
  funext x
  by_cases hx : x < 1014
  · exact home_boot _ _ hx
  · rw [Store.home, if_neg hx, smallDisk_of_ne (by omega) (by omega), image, if_neg (by omega), if_neg (by omega)]

theorem shows_smallDisk : Shows (full 1014) u ∅ [] smallDisk (FS.ready smallDisk u).store := by
  have hhead : headN (smallDisk 1014) = 0 := by
    rfl
  have := shows_ready (u := u) hhead
  rwa [home_smallDisk] at this

theorem free_smallDisk : 100 ∈ freeBlocks 1014 mkfsSb smallDisk := by
  refine Finset.mem_filter.mpr ⟨Finset.mem_range.mpr (by decide), ?_⟩
  rfl

theorem type_smallDisk_file : (dinodeAt smallDisk 2).type ≠ 0 := by
  decide

theorem contents_smallFile : contents smallDisk smallFile = [] := length_eq_zero_iff.mp length_contents

theorem tree_smallFile : tree mkfsSb smallDisk none 2 = some ⟨T_FILE, 0, 0, 1, []⟩ := by
  refine (tree_of (P := none) (by decide) type_smallDisk_file).trans ?_
  show some (nodeOf smallDisk (dinodeAt smallDisk 2)) = _
  rw [dinodeAt_smallDisk_file, nodeOf, contents_smallFile]
  rfl

/-- The file of the small disk has been locked in a transaction. -/
def smallState : FS := (FS.ready smallDisk true).setInode 0 ⟨2, 1, true, true, smallFile⟩

theorem holds_smallState : Holds mkfsSb smallDisk smallState 0 2 :=
  ⟨rfl, by decide, dinodeAt_smallDisk_file.symm, type_smallDisk_file⟩

theorem inode_write_overlay_small : ∃ t, ((inodeWrite 0 [97] 0).run (sem 2)).run smallState = (.ok (some 1), t) ∧ ReadsAs t 0 [97] := by
  have hslots : ∀ k ∈ writeSlots 0 1, slot smallDisk (dinodeAt smallDisk 2) k = 0 := fun k _ => by
    rw [dinodeAt_smallDisk_file, slot_smallFile]
  have hneed : need smallDisk (dinodeAt smallDisk 2) (writeSlots 0 1) ≤ 1 :=
    (Finset.card_filter_le ..).trans (by decide)
  have hshows : Shows (full 1014) true {28, 2} [] smallDisk smallState.store :=
    { shows_smallDisk with logged := fun _ => (homes_eq_empty rfl).le.trans (Finset.empty_subset _), small := fun _ => by decide }
  have hroom : Room (full 1014) mkfsSb true {28, 2} smallDisk (dinodeAt smallDisk 2) (writeSlots 0 1) := by
    refine ⟨fun _ => rfl, fun _ y hy => ?_, fun _ k hk h0 => absurd (hslots k hk) h0, fun _ => ?_, fun _ => ?_, nofun⟩
    · exact Finset.mem_insert.mpr (.inl (Finset.mem_singleton.mp (Calls.bitmaps (M := full 1014) trivial y hy)))
    · exact (Nat.add_le_add_left hneed 2).trans (by decide)
    · exact hneed.trans (Finset.card_pos.mpr ⟨100, free_smallDisk⟩)
  have hlow := (inode_write_overlay 2 0 [97] hshows lays_smallDisk holds_smallState
    (by rw [dinodeAt_smallDisk_file]; rfl)).1 ⟨Nat.zero_le _, by decide⟩ hroom (by decide)
  obtain ⟨t, hr, -, hread, -⟩ := hlow
  rw [dinodeAt_smallDisk_file, contents_smallFile] at hread
  exact ⟨t, hr, hread⟩

/-- Nine blocks do not fit the log, though they fit the file. -/
theorem inode_write_too_big :
    Shows (full 1014) true ∅ [] smallDisk smallState.store ∧ Lays 1014 mkfsSb none ∅ smallDisk ∧ Holds mkfsSb smallDisk smallState 0 2 ∧
      (((inodeWrite 0 (List.replicate 4608 97) 0).run (sem 2)).run smallState).1 matches .error (.store .tooBig) := by
  refine ⟨shows_smallDisk, lays_smallDisk, holds_smallState, ?_⟩
  decide +kernel

end MCertiKOS.FileSystem.Fs
