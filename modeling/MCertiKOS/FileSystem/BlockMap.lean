import MCertiKOS.FileSystem.View
import MCertiKOS.Library.Owned

/-!
# Which blocks belong to which inodes

The layout that the kernel keeps up on the disk `D`. The inodes are those on disk, but for one that is being changed
(`P`); together they are `table D P`. The block numbers of the inodes and of their indirect blocks are in slots
(`refs`). Blocks that `block_alloc` has found and no slot has yet, or that are still to be freed, are loose (`X`).
`Lays` is the invariant: no block is in two places, the bitmap has those that are in one, and every block of a file
below its size is there.

What the rest of the file system knows of this is the `tree`: the fields of an inode and its contents. There is one
lemma for each way in which the kernel changes the disk: a block is found, freed, put into a slot, dropped or
written, or an inode is stored.
-/

namespace MCertiKOS.FileSystem.Fs

open Library List
open Function (update update_apply update_eq_self update_of_ne update_self)

/-! ### Parts of blocks -/

theorem testBit_bit : ∀ a b : Fin 8, (UInt8.ofNat (2 ^ a.val)).toNat.testBit b.val = decide (b = a) ∧
    (~~~ UInt8.ofNat (2 ^ a.val)).toNat.testBit b.val = !decide (b = a) := by decide

theorem getBit_setBit (v : Block) {bi bi' : ℕ} (h' : bi' < BPB) (on : Bool) :
    getBit (setBit v bi on) bi' = if bi' = bi then on else getBit v bi' := by
  have hlt : bi' / 8 < BSIZE := by
    unfold BSIZE BPB at *
    omega
  unfold getBit byteAt
  rw [dif_pos hlt, dif_pos hlt]
  show (if bi' / 8 = bi / 8 then _ else _ : UInt8).toNat.testBit (bi' % 8) = _
  by_cases hb : bi' / 8 = bi / 8
  · obtain ⟨hor, hand⟩ := testBit_bit ⟨bi % 8, Nat.mod_lt _ (by decide)⟩ ⟨bi' % 8, Nat.mod_lt _ (by decide)⟩
    have hiff : bi' % 8 = bi % 8 ↔ bi' = bi := by omega
    simp only [Fin.mk.injEq, hiff] at hor hand
    rw [if_pos hb]
    cases on with
    | false =>
      rw [if_neg Bool.false_ne_true, UInt8.toNat_and, Nat.testBit_and, hand]
      by_cases e : bi' = bi <;> simp [e]
    | true =>
      rw [if_pos rfl, UInt8.toNat_or, Nat.testBit_or, hor]
      by_cases e : bi' = bi <;> simp [e]
  · rw [if_neg hb, if_neg fun e => hb (by rw [e])]

/-- The fields have the width they have on disk. -/
structure Dinode.Fits (d : Dinode) : Prop where
  type : d.type < 2 ^ 16
  major : d.major < 2 ^ 16
  minor : d.minor < 2 ^ 16
  nlink : d.nlink < 2 ^ 16
  size : d.size < 2 ^ 32
  addrs : ∀ k, d.addrs k < 2 ^ 32

theorem fits_getDinode (v : Block) (k : ℕ) : (getDinode v k).Fits :=
  ⟨getLE_lt .., getLE_lt .., getLE_lt .., getLE_lt .., getLE_lt .., fun _ => getLE_lt ..⟩

theorem apart_dinodeFields (k : ℕ) (d : Dinode) : (dinodeFields k d).Pairwise Field.Apart := by
  have hr : (List.finRange (NDIRECT + 1)).Pairwise (· < ·) := pairwise_lt_finRange _
  unfold dinodeFields
  rw [pairwise_append, pairwise_map]
  refine ⟨by simp [Field.Apart], hr.imp fun {a b} hab => ?_, fun f hf g hg => ?_⟩
  · have := Fin.lt_def.mp hab
    exact .inl (by dsimp only; omega)
  · obtain ⟨j, -, rfl⟩ := mem_map.mp hg
    refine .inl ?_
    simp only [mem_cons, not_mem_nil, or_false] at hf
    rcases hf with rfl | rfl | rfl | rfl | rfl <;> dsimp only <;> omega

theorem getDinode_putDinode {v : Block} {k : ℕ} (hk : k < IPB) {d : Dinode} (hd : d.Fits) : getDinode (putDinode v k d) k = d := by
  have hget : ∀ f ∈ dinodeFields k d, f.1 + f.2.1 ≤ BSIZE → f.2.2 < 256 ^ f.2.1 → getLE (putDinode v k d) f.1 f.2.1 = f.2.2 :=
    fun f hf hc hlt => (getLE_setFields (apart_dinodeFields k d) hf hc).trans (Nat.mod_eq_of_lt hlt)
  unfold IPB at hk
  unfold BSIZE at hget
  obtain ⟨h1, h2, h3, h4, h5, h6⟩ := hd
  ext j
  · exact hget (64 * k, 2, d.type) (by simp [dinodeFields]) (by dsimp only; omega) h1
  · exact hget (64 * k + 2, 2, d.major) (by simp [dinodeFields]) (by dsimp only; omega) h2
  · exact hget (64 * k + 4, 2, d.minor) (by simp [dinodeFields]) (by dsimp only; omega) h3
  · exact hget (64 * k + 6, 2, d.nlink) (by simp [dinodeFields]) (by dsimp only; omega) h4
  · exact hget (64 * k + 8, 4, d.size) (by simp [dinodeFields]) (by dsimp only; omega) h5
  · have hj := j.isLt
    unfold NDIRECT at hj
    exact hget (64 * k + 12 + 4 * j.val, 4, d.addrs j)
      (mem_append_right _ (mem_map.mpr ⟨j, mem_finRange j, rfl⟩)) (by dsimp only; omega) (h6 j)

theorem getDinode_putDinode_of_ne {v : Block} {k k' : ℕ} (h : k' ≠ k) (d : Dinode) :
    getDinode (putDinode v k d) k' = getDinode v k' := by
  have hget : ∀ off w, 64 * k' ≤ off → off + w ≤ 64 * k' + 64 → getLE (putDinode v k d) off w = getLE v off w := by
    intro off w hlo hhi
    refine getLE_setFields_of_apart fun f hf => ?_
    have hf' : 64 * k ≤ f.1 ∧ f.1 + f.2.1 ≤ 64 * k + 64 := by
      unfold dinodeFields at hf
      rcases mem_append.mp hf with hf | hf
      · simp only [mem_cons, not_mem_nil, or_false] at hf
        rcases hf with rfl | rfl | rfl | rfl | rfl <;> dsimp only <;> omega
      · obtain ⟨j, -, rfl⟩ := mem_map.mp hf
        have hj := j.isLt
        unfold NDIRECT at hj
        dsimp only
        omega
    omega
  ext j
  · exact hget (64 * k') 2 (by omega) (by omega)
  · exact hget (64 * k' + 2) 2 (by omega) (by omega)
  · exact hget (64 * k' + 4) 2 (by omega) (by omega)
  · exact hget (64 * k' + 6) 2 (by omega) (by omega)
  · exact hget (64 * k' + 8) 4 (by omega) (by omega)
  · have hj := j.isLt
    unfold NDIRECT at hj
    exact hget (64 * k' + 12 + 4 * j.val) 4 (by omega) (by omega)

theorem byteAt_putBytes (v : Block) (o : ℕ) (bs : List UInt8) {x : ℕ} (hx : x < BSIZE) :
    byteAt (putBytes v o bs) x = if o ≤ x ∧ x < o + bs.length then bs.getD (x - o) 0 else byteAt v x := by
  unfold byteAt putBytes
  rw [dif_pos hx, dif_pos hx]

/-! ### The layout -/

/-- The first block of data: before it are the boot block, the superblock, the inodes and the bitmap. -/
def dataStart (sb : Superblock) : ℕ := sb.ninodes / IPB + 3 + (sb.size / BPB + 1)

/-- The bit of block `x`. -/
def bitAt (sb : Superblock) (D : Disk) (x : ℕ) : Bool := getBit (D (bblock x sb.ninodes)) (x % BPB)

/-- Inode `i` on disk. -/
def dinodeAt (D : Disk) (i : ℕ) : Dinode := getDinode (D (iblock i)) (i % IPB)

def table (D : Disk) : Option (ℕ × Dinode) → ℕ → Dinode
  | none => dinodeAt D
  | some (i, d) => update (dinodeAt D) i d

/-- The block numbers of an inode: those of the direct blocks, that of the indirect block, and those in it. -/
def slot (D : Disk) (d : Dinode) (k : ℕ) : ℕ :=
  if h : k < NDIRECT + 1 then d.addrs ⟨k, h⟩
  else if d.addrs (Fin.last NDIRECT) = 0 then 0
  else getLE (D (d.addrs (Fin.last NDIRECT))) (4 * (k - (NDIRECT + 1))) 4

/-- The slot of block `bn` of a file. -/
def dataSlot (bn : ℕ) : ℕ := if bn < NDIRECT then bn else bn + 1

/-- Block `bn` of a file. -/
def blockNo (D : Disk) (d : Dinode) (bn : ℕ) : ℕ := slot D d (dataSlot bn)

def refs (sb : Superblock) (D : Disk) (P : Option (ℕ × Dinode)) (p : ℕ × ℕ) : ℕ :=
  if p.1 < sb.ninodes ∧ (table D P p.1).type ≠ 0 then slot D (table D P p.1) p.2 else 0

def Mapped (D : Disk) (d : Dinode) : Prop := ∀ bn, bn * BSIZE < d.size → blockNo D d bn ≠ 0

/-- Byte `j` of a file. -/
def fileByte (D : Disk) (d : Dinode) (j : ℕ) : UInt8 := byteAt (D (blockNo D d (j / BSIZE))) (j % BSIZE)

def contents (D : Disk) (d : Dinode) : List UInt8 := (List.range d.size).map (fileByte D d)

/-- An inode as the rest of the file system sees it. -/
structure Node where
  type : ℕ
  major : ℕ
  minor : ℕ
  nlink : ℕ
  data : List UInt8

def nodeOf (D : Disk) (d : Dinode) : Node := ⟨d.type, d.major, d.minor, d.nlink, contents D d⟩

def tree (sb : Superblock) (D : Disk) (P : Option (ℕ × Dinode)) (i : ℕ) : Option Node :=
  if i < sb.ninodes ∧ (table D P i).type ≠ 0 then some (nodeOf D (table D P i)) else none

/-- The superblock, and where the log is. -/
structure Super (lim : ℕ) (sb : Superblock) (D : Disk) : Prop where
  super : getSuperblock (D 1) = sb
  area : dataStart sb ≤ lim ∧ lim ≤ sb.size

/-- The disk is laid out as it should be. -/
structure Lays (lim : ℕ) (sb : Superblock) (P : Option (ℕ × Dinode)) (X : Finset ℕ) (D : Disk) : Prop extends Super lim sb D where
  owned : Owned (dataStart sb) lim (refs sb D P) X (bitAt sb D)
  /-- Every file has its blocks, but for one that is being changed. -/
  mapped : ∀ i < sb.ninodes, (∀ d, P ≠ some (i, d)) → (table D P i).type ≠ 0 → Mapped D (table D P i)
  pending : ∀ i d, P = some (i, d) → i < sb.ninodes ∧ d.Fits

variable {lim : ℕ} {sb : Superblock} {P : Option (ℕ × Dinode)} {X : Finset ℕ} {D D' : Disk} {d d' : Dinode} {i k x : ℕ}

theorem iblock_lt (hi : i < sb.ninodes) : 1 < iblock i ∧ iblock i < sb.ninodes / IPB + 3 := by
  unfold iblock IPB
  omega

theorem bblock_lt (hx : x ≤ sb.size) : sb.ninodes / IPB + 3 ≤ bblock x sb.ninodes ∧ bblock x sb.ninodes < dataStart sb := by
  have := Nat.div_le_div_right (c := BPB) hx
  unfold bblock dataStart
  unfold BPB IPB at *
  omega

theorem iblock_lt_dataStart (hi : i < sb.ninodes) : iblock i < dataStart sb := by
  have := iblock_lt hi
  unfold dataStart
  unfold IPB BPB at *
  omega

theorem slot_congr (h : d.addrs (Fin.last NDIRECT) ≠ 0 → D' (d.addrs (Fin.last NDIRECT)) = D (d.addrs (Fin.last NDIRECT)))
    (k : ℕ) : slot D' d k = slot D d k := by
  unfold slot
  by_cases h0 : d.addrs (Fin.last NDIRECT) = 0
  · simp only [h0, if_true]
  · rw [h h0]

theorem slot_last : slot D d NDIRECT = d.addrs (Fin.last NDIRECT) := dif_pos (Nat.lt_succ_self NDIRECT)

theorem slot_eq_zero (h : NDIRECT + 1 + NINDIRECT ≤ k) : slot D d k = 0 := by
  have hzero : ∀ (v : Block) (off w : ℕ), BSIZE ≤ off → getLE v off w = 0 := by
    intro v off w
    induction w generalizing off with
    | zero => exact fun _ => rfl
    | succ w ih =>
      intro hoff
      rw [getLE, ih (off + 1) (by omega), byteAt, dif_neg (by omega)]
      rfl
  unfold slot
  unfold NDIRECT NINDIRECT at *
  rw [dif_neg (by omega)]
  split_ifs
  · rfl
  · exact hzero _ _ _ (by unfold BSIZE; omega)

theorem dataSlot_ne_last (bn : ℕ) : dataSlot bn ≠ NDIRECT := by
  unfold dataSlot NDIRECT
  split_ifs <;> omega

theorem dataSlot_inj {bn bn' : ℕ} (h : dataSlot bn = dataSlot bn') : bn = bn' := by
  unfold dataSlot NDIRECT at h
  split_ifs at h <;> omega

theorem Mapped.size_le (h : Mapped D d) : d.size ≤ MAXFILE * BSIZE := by
  by_contra hlt
  refine h MAXFILE (by omega) (slot_eq_zero ?_)
  decide

theorem table_of_ne (h : ∀ d, P ≠ some (i, d)) : table D P i = dinodeAt D i := by
  match P, h with
  | none, _ => rfl
  | some (j, d), h => exact update_of_ne (fun e => h d (by rw [e])) ..

@[simp] theorem table_self : table D (some (i, d)) i = d := update_self ..

theorem table_congr {j : ℕ} (h : dinodeAt D' j = dinodeAt D j) : table D' P j = table D P j := by
  match P with
  | none => exact h
  | some (i, d) =>
    by_cases e : j = i
    · rw [e, table_self, table_self]
    · rw [table, table, update_of_ne e, update_of_ne e, h]

theorem refs_of (hi : i < sb.ninodes) (ht : (table D P i).type ≠ 0) (k : ℕ) : refs sb D P (i, k) = slot D (table D P i) k :=
  if_pos ⟨hi, ht⟩

theorem refs_eq_zero (h : ¬ (i < sb.ninodes ∧ (table D P i).type ≠ 0)) (k : ℕ) : refs sb D P (i, k) = 0 := if_neg h

theorem refs_row (htable : i < sb.ninodes → table D' P i = table D P i)
    (hD : ∀ k, refs sb D P (i, k) ≠ 0 → D' (refs sb D P (i, k)) = D (refs sb D P (i, k))) (k : ℕ) :
    refs sb D' P (i, k) = refs sb D P (i, k) := by
  by_cases h : i < sb.ninodes ∧ (table D P i).type ≠ 0
  · have hlast := hD NDIRECT
    rw [refs_of h.1 h.2, slot_last] at hlast
    rw [refs_of h.1 h.2, refs_of h.1 (by rw [htable h.1]; exact h.2), htable h.1, slot_congr hlast]
  · rw [refs_eq_zero h]
    refine refs_eq_zero (fun h' => h ⟨h'.1, ?_⟩) k
    rw [← htable h'.1]
    exact h'.2

theorem contents_frame (hm : Mapped D d) (hslot : ∀ k, slot D' d k = slot D d k)
    (hD : ∀ bn, blockNo D d bn ≠ 0 → D' (blockNo D d bn) = D (blockNo D d bn)) : contents D' d = contents D d := by
  refine map_congr_left fun j hj => ?_
  rw [mem_range] at hj
  have hne := hm (j / BSIZE) (lt_of_le_of_lt (Nat.div_mul_le_self j BSIZE) hj)
  have hb : blockNo D' d (j / BSIZE) = blockNo D d (j / BSIZE) := hslot _
  rw [fileByte, fileByte, hb, hD _ hne]

-- the bytes of a file are not to be written out in proofs
attribute [irreducible] contents

theorem tree_of (hi : i < sb.ninodes) (ht : (table D P i).type ≠ 0) : tree sb D P i = some (nodeOf D (table D P i)) :=
  if_pos ⟨hi, ht⟩

theorem tree_eq_none (h : ¬ (i < sb.ninodes ∧ (table D P i).type ≠ 0)) : tree sb D P i = none := if_neg h

namespace Lays

theorem slot_row (htable : i < sb.ninodes → table D' P i = table D P i)
    (hD : ∀ k, refs sb D P (i, k) ≠ 0 → D' (refs sb D P (i, k)) = D (refs sb D P (i, k))) (hi : i < sb.ninodes)
    (ht : (table D P i).type ≠ 0) (k : ℕ) : slot D' (table D P i) k = slot D (table D P i) k := by
  have := refs_row htable hD k
  rwa [refs_of hi ht, refs_of hi (by rw [htable hi]; exact ht), htable hi] at this

section

variable (h : Lays lim sb P X D) (htable : i < sb.ninodes → table D' P i = table D P i)
    (hD : ∀ k, refs sb D P (i, k) ≠ 0 → D' (refs sb D P (i, k)) = D (refs sb D P (i, k)))
include h htable hD

theorem tree_row (hP : ∀ d, P ≠ some (i, d)) :
    tree sb D' P i = tree sb D P i := by
  by_cases hu : i < sb.ninodes ∧ (table D P i).type ≠ 0
  · rw [tree_of hu.1 hu.2, tree_of hu.1 (by rw [htable hu.1]; exact hu.2), htable hu.1, nodeOf, nodeOf]
    rw [contents_frame (h.mapped i hu.1 hP hu.2) (slot_row htable hD hu.1 hu.2) fun bn hbn => ?_]
    have := hD (dataSlot bn)
    rw [refs_of hu.1 hu.2] at this
    exact this hbn
  · rw [tree_eq_none hu]
    refine tree_eq_none fun h' => hu ⟨h'.1, ?_⟩
    rw [← htable h'.1]
    exact h'.2

theorem mapped_row (hi : i < sb.ninodes)
    (hP : ∀ d, P ≠ some (i, d)) (ht : (table D' P i).type ≠ 0) : Mapped D' (table D' P i) := by
  rw [htable hi] at ht ⊢
  exact fun bn hbn => (slot_row htable hD hi ht _).trans_ne (h.mapped i hi hP ht bn hbn)

end

theorem frame (h : Lays lim sb P X D) (hsuper : D' 1 = D 1) (htable : ∀ i < sb.ninodes, table D' P i = table D P i)
    (hD : ∀ p, refs sb D P p ≠ 0 → D' (refs sb D P p) = D (refs sb D P p)) {Y : Finset ℕ}
    (howned : Owned (dataStart sb) lim (refs sb D P) Y (bitAt sb D')) : Lays lim sb P Y D' := by
  have hrefs : refs sb D' P = refs sb D P := funext fun p => refs_row (htable p.1) (fun k => hD (p.1, k)) p.2
  exact ⟨⟨by rw [hsuper]; exact h.super, h.area⟩, hrefs ▸ howned,
    fun i hi hP ht => h.mapped_row (htable i) (fun k => hD (i, k)) hi hP ht, h.pending⟩

/-! ### Blocks are found and freed -/

end Lays

theorem dataStart_pos (sb : Superblock) : 3 < dataStart sb := by
  unfold dataStart IPB BPB
  omega

/-- The bit of block `x` is set or cleared. -/
def markBit (sb : Superblock) (D : Disk) (x : ℕ) (on : Bool) : Disk :=
  update D (bblock x sb.ninodes) (setBit (D (bblock x sb.ninodes)) (x % BPB) on)

/-- `block_alloc` has found block `x`. -/
def found (sb : Superblock) (D : Disk) (x : ℕ) : Disk := update (markBit sb D x true) x fun _ => 0

def freeBlocks (lim : ℕ) (sb : Superblock) (D : Disk) : Finset ℕ := (Finset.range lim).filter fun x => bitAt sb D x = false

theorem bitAt_markBit (x y : ℕ) (on : Bool) : bitAt sb (markBit sb D x on) y = if y = x then on else bitAt sb D y := by
  have hmod : y % BPB < BPB := Nat.mod_lt _ (by decide)
  unfold bitAt markBit
  by_cases hb : bblock y sb.ninodes = bblock x sb.ninodes
  · have hdiv : y / BPB = x / BPB := by
      unfold bblock at hb
      omega
    have hiff : y % BPB = x % BPB ↔ y = x := by
      unfold BPB at *
      omega
    rw [hb, update_self, getBit_setBit _ hmod]
    simp only [hiff]
  · rw [update_of_ne hb, if_neg]
    rintro rfl
    exact hb rfl

theorem bitAt_congr (h : D' (bblock x sb.ninodes) = D (bblock x sb.ninodes)) : bitAt sb D' x = bitAt sb D x := by
  rw [bitAt, bitAt, h]

namespace Lays

section

variable (h : Lays lim sb P X D)
include h

section

variable (hx : x < lim)
include hx

theorem markBit_of_le {y : ℕ} (hy : dataStart sb ≤ y) (on : Bool) :
    markBit sb D x on y = D y := by
  have := bblock_lt (hx.le.trans h.area.2)
  exact update_of_ne (by omega) ..

theorem markBit_of_lt {y : ℕ} (hy : y < sb.ninodes / IPB + 3) (on : Bool) :
    markBit sb D x on y = D y := by
  have := bblock_lt (hx.le.trans h.area.2)
  exact update_of_ne (by omega) ..

theorem markBit_frame (on : Bool) : markBit sb D x on 1 = D 1 ∧
    (∀ i < sb.ninodes, dinodeAt (markBit sb D x on) i = dinodeAt D i) ∧
    ∀ p, refs sb D P p ≠ 0 → markBit sb D x on (refs sb D P p) = D (refs sb D P p) := by
  refine ⟨h.markBit_of_lt hx (Nat.lt_add_left _ (by decide)) on, fun i hi => ?_, fun p hp => h.markBit_of_le hx (h.owned.area p hp).1 on⟩
  rw [dinodeAt, dinodeAt, h.markBit_of_lt hx (iblock_lt hi).2]

section

variable (hbit : bitAt sb D x = false)
include hbit

theorem found_frame : found sb D x 1 = D 1 ∧
    (∀ i < sb.ninodes, dinodeAt (found sb D x) i = dinodeAt D i) ∧
    ∀ p, refs sb D P p ≠ 0 → found sb D x (refs sb D P p) = D (refs sb D P p) := by
  obtain ⟨hlo, -, hfresh⟩ := h.owned.fresh hx hbit
  obtain ⟨hsuper, htable, hD⟩ := h.markBit_frame hx true
  have hpos : 3 < dataStart sb := dataStart_pos sb
  have hother : ∀ y, y ≠ x → found sb D x y = markBit sb D x true y := fun y hy => update_of_ne hy ..
  refine ⟨(hother 1 (by omega)).trans hsuper, fun i hi => ?_, fun p hp => (hother _ (hfresh p)).trans (hD p hp)⟩
  rw [← htable i hi, dinodeAt, dinodeAt, hother _ (by have := iblock_lt_dataStart hi; omega)]

theorem bitAt_found {y : ℕ} (hy : y < lim) :
    bitAt sb (found sb D x) y = if y = x then true else bitAt sb D y := by
  have hlo := (h.owned.fresh hx hbit).1
  have := bblock_lt (hy.le.trans h.area.2)
  rw [← bitAt_markBit]
  exact bitAt_congr (update_of_ne (by omega) ..)

theorem alloc : Lays lim sb P (insert x X) (found sb D x) := by
  obtain ⟨hsuper, htable, hD⟩ := h.found_frame hx hbit
  refine h.frame hsuper (fun i hi => table_congr (htable i hi)) hD ((h.owned.alloc hx hbit).congr fun y hy => ?_)
  rw [h.bitAt_found hx hbit hy, update_apply]

theorem freeBlocks_found :
    freeBlocks lim sb (found sb D x) = (freeBlocks lim sb D).erase x := by
  ext y
  rw [freeBlocks, freeBlocks, Finset.mem_erase, Finset.mem_filter, Finset.mem_filter, Finset.mem_range]
  constructor
  · rintro ⟨hy, hb⟩
    rw [h.bitAt_found hx hbit hy] at hb
    split_ifs at hb with e
    exact ⟨e, hy, hb⟩
  · rintro ⟨e, hy, hb⟩
    rw [h.bitAt_found hx hbit hy, if_neg e]
    exact ⟨hy, hb⟩

end

end

end

end Lays

/-! ### Slots of the inode that is being changed -/

def setAddr (d : Dinode) (k : Fin (NDIRECT + 1)) (x : ℕ) : Dinode := { d with addrs := update d.addrs k x }

theorem Dinode.Fits.setAddr (h : d.Fits) (k : Fin (NDIRECT + 1)) (hx : x < 2 ^ 32) : (setAddr d k x).Fits := by
  refine ⟨h.type, h.major, h.minor, h.nlink, h.size, fun j => ?_⟩
  show update d.addrs k x j < 2 ^ 32
  rw [update_apply]
  split_ifs
  · exact hx
  · exact h.addrs j

theorem slot_setAddr {k : Fin (NDIRECT + 1)} (hk : k = Fin.last NDIRECT → d.addrs k = 0 ∧ D x = fun _ => 0) (m : ℕ) :
    slot D (setAddr d k x) m = if m = k.val then x else slot D d m := by
  have haddr : ∀ j, (setAddr d k x).addrs j = if j = k then x else d.addrs j := fun j => update_apply ..
  unfold slot
  by_cases hm : m < NDIRECT + 1
  · rw [dif_pos hm, dif_pos hm, haddr]
    simp only [Fin.ext_iff]
  · have hmk : m ≠ k.val := by
      have := k.isLt
      omega
    rw [dif_neg hm, dif_neg hm, if_neg hmk, haddr]
    by_cases hlast : Fin.last NDIRECT = k
    · obtain ⟨h0, hx⟩ := hk hlast.symm
      rw [if_pos hlast, hlast, h0, if_pos rfl, hx]
      split_ifs
      · rfl
      · exact getLE_zero ..
    · rw [if_neg hlast]

namespace Lays

section

variable (h : Lays lim sb (some (i, d)) X D)
include h

theorem change (hfits : d'.Fits) {Y : Finset ℕ}
    (howned : Owned (dataStart sb) lim (refs sb D (some (i, d'))) Y (bitAt sb D)) : Lays lim sb (some (i, d')) Y D := by
  refine ⟨h.toSuper, howned, fun j hj hP ht => ?_, ?_⟩
  · have hne : ∀ e : Dinode, some (i, d) ≠ some (j, e) := fun e he => by
      cases he
      exact hP d' rfl
    rw [table_of_ne hP] at ht ⊢
    rw [← table_of_ne hne] at ht ⊢
    exact h.mapped j hj hne ht
  · rintro _ _ ⟨⟩
    exact ⟨(h.pending i d rfl).1, hfits⟩

omit h in
theorem tree_change {j : ℕ} (hj : j ≠ i) : tree sb D (some (i, d')) j = tree sb D (some (i, d)) j := by
  have : table D (some (i, d')) j = table D (some (i, d)) j := by
    rw [table, table, update_of_ne hj, update_of_ne hj]
  rw [tree, tree, this]

omit h in
theorem refs_change {j : ℕ} (hj : j ≠ i) (k : ℕ) : refs sb D (some (i, d')) (j, k) = refs sb D (some (i, d)) (j, k) := by
  have : table D (some (i, d')) j = table D (some (i, d)) j := by
    rw [table, table, update_of_ne hj, update_of_ne hj]
  rw [refs, refs, this]

theorem refs_pending (ht : d.type ≠ 0) (k : ℕ) : refs sb D (some (i, d)) (i, k) = slot D d k := by
  rw [refs_of (h.pending i d rfl).1 (by rwa [table_self]), table_self]

theorem setMeta (hfits : d'.Fits) (haddrs : d'.addrs = d.addrs)
    (htype : d'.type = 0 ↔ d.type = 0) : Lays lim sb (some (i, d')) X D := by
  refine h.change hfits ?_
  have hrefs : refs sb D (some (i, d')) = refs sb D (some (i, d)) := by
    funext ⟨j, k⟩
    by_cases hj : j = i
    · subst hj
      unfold refs
      rw [table_self, table_self]
      simp only [ne_eq, htype, slot, haddrs]
    · exact refs_change hj k
  rw [hrefs]
  exact h.owned

omit h in
theorem lt_two_pow (h : Lays lim sb P X D) : lim ≤ 2 ^ 32 := by
  have : (getSuperblock (D 1)).size < 2 ^ 32 := getLE_lt ..
  rw [h.super] at this
  exact h.area.2.trans this.le

theorem putAddr (ht : d.type ≠ 0) {k : Fin (NDIRECT + 1)} (hk : d.addrs k = 0) (hx : x ∈ X)
    (hlast : k = Fin.last NDIRECT → D x = fun _ => 0) : Lays lim sb (some (i, setAddr d k x)) (X.erase x) D := by
  have hxlim := (h.owned.loose x hx).2.1.trans_le h.lt_two_pow
  refine h.change ((h.pending i d rfl).2.setAddr k hxlim) ?_
  have hslot : ∀ m, slot D (setAddr d k x) m = if m = k.val then x else slot D d m :=
    slot_setAddr fun e => ⟨hk, hlast e⟩
  have hrefs : refs sb D (some (i, setAddr d k x)) = update (refs sb D (some (i, d))) (i, k.val) x := by
    funext ⟨j, m⟩
    by_cases hj : j = i
    · subst hj
      rw [update_apply, h.refs_pending ht, refs_of (h.pending j d rfl).1 (by rw [table_self]; exact ht), table_self, hslot]
      simp only [Prod.mk.injEq, true_and]
    · rw [update_of_ne (fun e => hj (congrArg Prod.fst e)), refs_change hj]
  rw [hrefs]
  refine h.owned.put (by have := dataStart_pos sb; omega) hx ?_
  rw [h.refs_pending ht, slot, dif_pos k.isLt]
  exact hk

omit h in
theorem update_frame (h : Lays lim sb P X D) {p : ℕ × ℕ} (hx : refs sb D P p = x) (hx0 : x ≠ 0) (v : Block) :
    update D x v 1 = D 1 ∧ (∀ i < sb.ninodes, dinodeAt (update D x v) i = dinodeAt D i) ∧
      (∀ y < lim, bitAt sb (update D x v) y = bitAt sb D y) ∧
      ∀ q, q ≠ p → refs sb D P q ≠ 0 → update D x v (refs sb D P q) = D (refs sb D P q) := by
  have hlo := (h.owned.area p (hx.trans_ne hx0)).1
  have hpos : 3 < dataStart sb := dataStart_pos sb
  rw [hx] at hlo
  refine ⟨update_of_ne (by omega) .., fun i hi => ?_, fun y hy => bitAt_congr ?_, fun q hq hq0 => ?_⟩
  · have := iblock_lt_dataStart hi
    rw [dinodeAt, dinodeAt, update_of_ne (by omega)]
  · have := bblock_lt (hy.le.trans h.area.2)
    exact update_of_ne (by omega) ..
  · refine update_of_ne (fun e => hq ?_) ..
    exact h.owned.inj q p hq0 (e.trans hx.symm)

omit h in
theorem writeData (h : Lays lim sb P X D) (hk : k ≠ NDIRECT) (hx : refs sb D P (i, k) = x) (hx0 : x ≠ 0) (v : Block) :
    Lays lim sb P X (update D x v) ∧ (∀ q, refs sb (update D x v) P q = refs sb D P q) ∧
      ∀ j, j ≠ i → (∀ d, P ≠ some (j, d)) → tree sb (update D x v) P j = tree sb D P j := by
  obtain ⟨hsuper, htable, hbit, hD⟩ := h.update_frame hx hx0 v
  have htable' : ∀ j < sb.ninodes, table (update D x v) P j = table D P j := fun j hj => table_congr (htable j hj)
  -- the block is no indirect block
  have hslot : ∀ j, j < sb.ninodes → (table D P j).type ≠ 0 →
      ∀ m, slot (update D x v) (table D P j) m = slot D (table D P j) m := by
    intro j hj ht
    refine slot_congr fun h0 => ?_
    have hr := refs_of hj ht NDIRECT
    rw [slot_last] at hr
    rw [← hr] at h0 ⊢
    exact hD (j, NDIRECT) (fun e => hk (congrArg Prod.snd e).symm) h0
  have hrefs : refs sb (update D x v) P = refs sb D P := by
    funext ⟨j, m⟩
    by_cases hu : j < sb.ninodes ∧ (table D P j).type ≠ 0
    · rw [refs_of hu.1 hu.2, refs_of hu.1 (by rw [htable' j hu.1]; exact hu.2), htable' j hu.1, hslot j hu.1 hu.2]
    · rw [refs_eq_zero hu]
      refine refs_eq_zero (fun hh => hu ⟨hh.1, ?_⟩) m
      rw [← htable' j hh.1]
      exact hh.2
  refine ⟨⟨⟨by rw [hsuper]; exact h.super, h.area⟩, hrefs ▸ h.owned.congr hbit, fun j hj hP ht => ?_, h.pending⟩,
    fun q => congrFun hrefs q, fun j hj hP => ?_⟩
  · rw [htable' j hj] at ht ⊢
    exact fun bn hbn => (hslot j hj ht _).trans_ne (h.mapped j hj hP ht bn hbn)
  · exact h.tree_row (htable' j) (fun m => hD (j, m) fun e => hj (congrArg Prod.fst e)) hP

theorem putEntry (ht : d.type ≠ 0) {a j : ℕ} (ha : d.addrs (Fin.last NDIRECT) = a)
    (ha0 : a ≠ 0) (hj : j < NINDIRECT) (h0 : slot D d (NDIRECT + 1 + j) = 0) (hx : x ∈ X) :
    Lays lim sb (some (i, d)) (X.erase x) (update D a (setLE (D a) (4 * j) 4 x)) ∧
      (∀ m, slot (update D a (setLE (D a) (4 * j) 4 x)) d m = if m = NDIRECT + 1 + j then x else slot D d m) ∧
      ∀ j', j' ≠ i → tree sb (update D a (setLE (D a) (4 * j) 4 x)) (some (i, d)) j' = tree sb D (some (i, d)) j' := by
  have hxlim := (h.owned.loose x hx).2.1.trans_le h.lt_two_pow
  have hra : refs sb D (some (i, d)) (i, NDIRECT) = a := by rw [h.refs_pending ht, slot_last, ha]
  set v := setLE (D a) (4 * j) 4 x
  obtain ⟨hsuper, htable, hbit, hD⟩ := h.update_frame hra ha0 v
  have htable' : ∀ j < sb.ninodes, table (update D a v) (some (i, d)) j = table D (some (i, d)) j :=
    fun j hj => table_congr (htable j hj)
  have hother : ∀ j', j' ≠ i → ∀ m, refs sb D (some (i, d)) (j', m) ≠ 0 →
      update D a v (refs sb D (some (i, d)) (j', m)) = D (refs sb D (some (i, d)) (j', m)) :=
    fun j' hj' m => hD (j', m) fun e => hj' (congrArg Prod.fst e)
  have hslot : ∀ m, slot (update D a v) d m = if m = NDIRECT + 1 + j then x else slot D d m := by
    intro m
    unfold slot
    by_cases hm : m < NDIRECT + 1
    · rw [dif_pos hm, dif_pos hm, if_neg (by omega)]
    · rw [dif_neg hm, dif_neg hm, ha, if_neg ha0, if_neg ha0, update_self]
      by_cases e : m = NDIRECT + 1 + j
      · subst e
        rw [if_pos rfl, Nat.add_sub_cancel_left, getLE_setLE (by unfold NINDIRECT at hj; unfold BSIZE; omega)]
        exact Nat.mod_eq_of_lt hxlim
      · rw [if_neg e, getLE_setLE_of_disjoint (by omega)]
  have hrefs : refs sb (update D a v) (some (i, d)) =
      update (refs sb D (some (i, d))) (i, NDIRECT + 1 + j) x := by
    funext ⟨j', m⟩
    by_cases hj' : j' = i
    · subst hj'
      rw [update_apply, h.refs_pending ht, refs_of (h.pending j' d rfl).1 (by rw [table_self]; exact ht), table_self, hslot]
      simp only [Prod.mk.injEq, true_and]
    · rw [update_of_ne (fun e => hj' (congrArg Prod.fst e))]
      exact refs_row (htable' j') (hother j' hj') m
  have hne : ∀ {j'}, (∀ e, some (i, d) ≠ some (j', e)) → j' ≠ i := fun hP e => hP d (by rw [e])
  refine ⟨⟨⟨by rw [hsuper]; exact h.super, h.area⟩, ?_, fun j' hj' hP => ?_, h.pending⟩, hslot, fun j' hj' => ?_⟩
  · rw [hrefs]
    refine Owned.congr (Owned.put h.owned (by have := dataStart_pos sb; omega) hx ?_) hbit
    rw [h.refs_pending ht]
    exact h0
  · exact h.mapped_row (htable' j') (hother j' (hne hP)) hj' hP
  · exact h.tree_row (htable' j') (hother j' hj') fun e he => hj' (by cases he; rfl)

end

/-! ### The inode is stored -/

end Lays

/-- Inode `i` is stored on disk. -/
def stored (D : Disk) (i : ℕ) (d : Dinode) : Disk :=
  update D (iblock i) (putDinode (D (iblock i)) (i % IPB) d)

theorem dinodeAt_stored (hd : d.Fits) (j : ℕ) : dinodeAt (stored D i d) j = if j = i then d else dinodeAt D j := by
  have hlt : ∀ j, j % IPB < IPB := fun j => Nat.mod_lt j (by decide)
  unfold dinodeAt stored
  by_cases hb : iblock j = iblock i
  · rw [hb, update_self]
    by_cases e : j = i
    · rw [if_pos e, e, getDinode_putDinode (hlt i) hd]
    · rw [if_neg e, getDinode_putDinode_of_ne]
      unfold iblock at hb
      unfold IPB at *
      omega
  · rw [update_of_ne hb, if_neg fun e => hb (by rw [e])]

namespace Lays

theorem stored_frame (h : Lays lim sb P X D) (hi : i < sb.ninodes) (d : Dinode) : stored D i d 1 = D 1 ∧
    (∀ y < lim, bitAt sb (stored D i d) y = bitAt sb D y) ∧ ∀ y, dataStart sb ≤ y → stored D i d y = D y := by
  have hblock := iblock_lt hi
  have hblock' := iblock_lt_dataStart hi
  refine ⟨update_of_ne (by omega) .., fun y hy => bitAt_congr ?_, fun y hy => update_of_ne (by omega) ..⟩
  have := bblock_lt (hy.le.trans h.area.2)
  exact update_of_ne (by omega) ..

theorem store (h : Lays lim sb (some (i, d)) X D) (hm : d.type ≠ 0 → Mapped D d) :
    Lays lim sb none X (stored D i d) ∧ tree sb (stored D i d) none = tree sb D (some (i, d)) := by
  obtain ⟨hi, hfits⟩ := h.pending i d rfl
  obtain ⟨hsuper, hbit, hdata⟩ := h.stored_frame hi d
  have htable : ∀ j, table (stored D i d) none j = table D (some (i, d)) j := fun j => by
    rw [table, dinodeAt_stored hfits, table, update_apply]
  -- the slots of an inode are outside of the inodes
  have hlast : ∀ j, j < sb.ninodes → (table D (some (i, d)) j).type ≠ 0 → ∀ k,
      slot (stored D i d) (table D (some (i, d)) j) k = slot D (table D (some (i, d)) j) k := by
    intro j hj ht
    refine slot_congr fun h0 => hdata _ ?_
    have hr := refs_of hj ht NDIRECT
    rw [slot_last] at hr
    rw [← hr] at h0 ⊢
    exact (h.owned.area _ h0).1
  have hrefs : refs sb (stored D i d) none = refs sb D (some (i, d)) := by
    funext ⟨j, k⟩
    unfold refs
    rw [htable]
    split_ifs with hu
    · exact hlast j hu.1 hu.2 k
    · rfl
  have hmapped : ∀ j < sb.ninodes, (table D (some (i, d)) j).type ≠ 0 → Mapped D (table D (some (i, d)) j) := by
    intro j hj ht
    by_cases e : j = i
    · subst e
      rw [table_self] at ht ⊢
      exact hm ht
    · exact h.mapped j hj (fun e' he => e (by cases he; rfl)) ht
  refine ⟨⟨⟨by rw [hsuper]; exact h.super, h.area⟩, hrefs ▸ h.owned.congr hbit, fun j hj _ ht bn hbn => ?_, nofun⟩, ?_⟩
  · rw [htable] at ht hbn ⊢
    exact (hlast j hj ht _).trans_ne (hmapped j hj ht bn hbn)
  · funext j
    unfold tree
    rw [htable]
    split_ifs with hu
    · refine congrArg some ?_
      rw [nodeOf, nodeOf, contents_frame (hmapped j hu.1 hu.2) (hlast j hu.1 hu.2) fun bn hbn => ?_]
      have hr := refs_of hu.1 hu.2 (dataSlot bn)
      refine hdata _ ?_
      rw [← show refs sb D (some (i, d)) (j, dataSlot bn) = blockNo D (table D (some (i, d)) j) bn from hr] at hbn ⊢
      exact (h.owned.area _ hbn).1
    · rfl

theorem table_dinodeAt : table D (some (i, dinodeAt D i)) = table D none := update_eq_self ..

theorem refs_dinodeAt : refs sb D (some (i, dinodeAt D i)) = refs sb D none := by
  funext p
  rw [refs, refs, table_dinodeAt]

theorem tree_dinodeAt : tree sb D (some (i, dinodeAt D i)) = tree sb D none := by
  funext j
  rw [tree, tree, table_dinodeAt]

theorem begin (h : Lays lim sb none X D) (hi : i < sb.ninodes) : Lays lim sb (some (i, dinodeAt D i)) X D := by
  refine ⟨h.toSuper, ?_, fun j hj _ ht => ?_, ?_⟩
  · rw [refs_dinodeAt]
    exact h.owned
  · rw [table_dinodeAt] at ht ⊢
    exact h.mapped j hj nofun ht
  · rintro _ _ ⟨⟩
    exact ⟨hi, fits_getDinode ..⟩

theorem cancel (h : Lays lim sb (some (i, dinodeAt D i)) X D) (hm : (dinodeAt D i).type ≠ 0 → Mapped D (dinodeAt D i)) :
    Lays lim sb none X D := by
  refine ⟨h.toSuper, ?_, fun j hj _ ht => ?_, nofun⟩
  · rw [← refs_dinodeAt (i := i)]
    exact h.owned
  · by_cases e : j = i
    · subst e
      exact hm ht
    · have := h.mapped j hj (fun e' he => e (by cases he; rfl))
      rw [table_dinodeAt] at this
      exact this ht

/-! ### Slots are emptied -/

end Lays

end MCertiKOS.FileSystem.Fs
