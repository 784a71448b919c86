import MCertiKOS.FileSystem.BlockMap

/-!
# Finding and freeing blocks

What `block_alloc` and `block_free` do to a disk that is laid out as it should be.
-/

namespace MCertiKOS.FileSystem.Fs

open Library Finset Store Function

variable {M : Mode} {pid : ℕ} {sb : Superblock} {u : Bool} {K : Finset ℕ} {H : List (Fin NBUF × ℕ)} {P : Option (ℕ × Dinode)}
  {X : Finset ℕ} {D : Disk} {s t : FS} {x : ℕ}

/-- The buffers `H` are those of blocks of data, and in a transaction more can be had. -/
def Handy (M : Mode) (sb : Superblock) (u : Bool) (K : Finset ℕ) (H : List (Fin NBUF × ℕ)) (D : Disk) : Prop :=
  M.total → u = true ∧ Spare K H ∧ ∀ p ∈ H, dataStart sb ≤ p.2 ∧ p.2 < M.lim ∧ bitAt sb D p.2 = true

theorem Handy.notMem (h : Handy M sb u K H D) (hm : M.total) (hx : x < dataStart sb ∨ bitAt sb D x = false) :
    x ∉ H.map Prod.snd := by
  intro hmem
  obtain ⟨p, hp, rfl⟩ := List.mem_map.mp hmem
  obtain ⟨hlo, -, hbit⟩ := (h hm).2.2 p hp
  rcases hx with hx | hx
  · omega
  · rw [hbit] at hx
    cases hx

theorem handy_nil (h : M.total → u = true) : Handy M sb u K [] D := fun hm => ⟨h hm, spare_nil, nofun⟩

def Bitmaps (M : Mode) (sb : Superblock) (K : Finset ℕ) : Prop := M.tracked → ∀ y < sb.size, bblock y sb.ninodes ∈ K

theorem runs_blockZero (h : Sees M u K H D s t) (hx : x < M.lim) (hK : M.tracked → x ∈ K)
    (htotal : M.total → u = true ∧ (∀ p ∈ H, p.2 < M.lim) ∧ x ∉ H.map Prod.snd ∧ Spare K H) :
    (M.guard pid).Runs (blockZero x) (fun _ t => Sees M u K H (update D x fun _ => 0) s t) t := by
  refine (runs_bufcacheRead h fun hm => (htotal hm).2.2).bind fun b t ht => ?_
  refine runs_logWrite ht (List.mem_cons_self ..) hx (fun hm => ?_) hK _ fun t ht => runs_bufcacheRelease ht
  obtain ⟨hu, hlim, -, hspare⟩ := htotal hm
  exact ⟨hu, List.forall_mem_cons.mpr ⟨hx, hlim⟩, hspare.of_mem (hK (M.tracked_of_total hm))⟩

variable {α : Type} {b : ℕ}

theorem runs_stop {e : FsStop} {Q : α → FS → Prop} (h : ¬ M.total) : (M.guard pid).Runs (stop e) Q t :=
  fun _ => ⟨trivial, h⟩

theorem bblock_add {bi : ℕ} (hb : b % BPB = 0) (hbi : bi < BPB) (n : ℕ) :
    bblock (b + bi) n = bblock b n ∧ (b + bi) % BPB = bi := by
  unfold bblock
  unfold BPB at *
  omega

section

variable (h : Sees M u K H D s t) (hl : Super M.lim sb D) (hK : Bitmaps M sb K) (hH : Handy M sb u K H D)
include h hl hK hH

theorem runs_blockAllocLoop
    (hroom : M.tracked → K.card < LOGSIZE - 2) (hquiet : ¬ M.quiet) {n : ℕ} (hb : b % BPB = 0) (hsize : b + n * BPB < sb.size + BPB)
    (hfree : M.total → ∃ y < M.lim, b ≤ y ∧ y < b + n * BPB ∧ bitAt sb D y = false) :
    (M.guard pid).Runs (blockAllocLoop sb n b) (fun x t => x < M.lim ∧ bitAt sb D x = false ∧
      Sees M u (insert x K) H (found sb D x) s t) t := by
  induction n generalizing b t with
  | zero =>
    refine runs_stop fun hm => ?_
    obtain ⟨y, -, hlo, hhi, -⟩ := hfree hm
    omega
  | succ n ih =>
    have hlt : b < sb.size := by
      unfold BPB at hsize
      omega
    have hblock := bblock_lt hlt.le
    have hbit : ∀ {bi}, bi < BPB → bitAt sb D (b + bi) = getBit (D (bblock b sb.ninodes)) bi := fun hbi => by
      rw [bitAt, (bblock_add hb hbi sb.ninodes).1, (bblock_add hb hbi sb.ninodes).2]
    have hblim : bblock b sb.ninodes < M.lim := hblock.2.trans_le hl.area.1
    have hread : M.total → bblock b sb.ninodes ∉ H.map Prod.snd ∧ Spare K H :=
      fun hm => ⟨hH.notMem hm (.inl hblock.2), (hH hm).2.1⟩
    refine (runs_bufcacheRead h hread).bind fun bp t ht => (runs_data ht (List.mem_cons_self ..) hblim).bind ?_
    rintro _ t ⟨rfl, ht⟩
    cases hf : findFree (D (bblock b sb.ninodes)) b sb.size with
    | none =>
      refine (runs_bufcacheRelease ht).bind fun _ t ht => ?_
      refine ih ht (by unfold BPB at *; omega) (by unfold BPB at *; omega) fun hm => ?_
      -- the free block is in another block of the bitmap
      obtain ⟨y, hy, hlo, hhi, hyfree⟩ := hfree hm
      refine ⟨y, hy, ?_, by unfold BPB at *; omega, hyfree⟩
      by_contra hyb
      have hyb' : y - b < BPB := by omega
      have hset := findFree_none hf hyb' (by have := hl.area.2; omega)
      rw [← hbit hyb', Nat.add_sub_cancel' hlo, hyfree] at hset
      cases hset
    | some bi =>
      obtain ⟨hbi, hbisize, hclear, hfirst⟩ := findFree_some hf
      obtain ⟨hbb, hmod⟩ := bblock_add hb hbi sb.ninodes
      have hxfree : bitAt sb D (b + bi) = false := (hbit hbi).trans hclear
      -- the first free block is below the log, if there is one there
      have hxlim : M.total → b + bi < M.lim := by
        intro hm
        obtain ⟨y, hy, hlo, hhi, hyfree⟩ := hfree hm
        by_contra hge
        have hset := hfirst (y - b) (by omega) (by have := hl.area.2; omega)
        rw [← hbit (by omega), Nat.add_sub_cancel' hlo, hyfree] at hset
        cases hset
      have hmark : update D (bblock b sb.ninodes) (setBit (D (bblock b sb.ninodes)) bi true) = markBit sb D (b + bi) true := by
        rw [markBit, hbb, hmod]
      refine runs_logWrite ht (List.mem_cons_self ..) hblim (fun hm => ?_) (fun hm => hK hm b hlt) _ fun t ht => ?_
      · obtain ⟨hu, hspare, hheld⟩ := hH hm
        exact ⟨hu, List.forall_mem_cons.mpr ⟨hblim, fun p hp => (hheld p hp).2.1⟩,
          hspare.of_mem (hK (M.tracked_of_total hm) b hlt)⟩
      rw [hmark] at ht
      refine (runs_bufcacheRelease ht).bind fun _ t ht => ?_
      intro hcond
      have hlim : b + bi < M.lim := hcond.elim hxlim fun h => h.resolve_left hquiet
      refine ⟨trivial, ?_⟩
      show wp (modify fun s : FS => { s with taken := (b + bi) :: s.taken }) _ _ _
      rw [wp_modify]
      have ht' : Sees M u (insert (b + bi) K) H (markBit sb D (b + bi) true) s { t with taken := (b + bi) :: t.taken } := by
        refine Sees.widen ⟨⟨ht.rest.inode, ht.rest.procs, ht.rest.cwd, ht.rest.first, ht.rest.dead⟩, ht.size, ht.shows⟩
          (subset_insert ..) fun hm => ?_
        exact (card_insert_le ..).trans (hroom hm)
      refine (runs_blockZero ht' hlim (fun _ => mem_insert_self ..) fun hm => ?_).bind fun _ t ht => ⟨hlim, hxfree, ht⟩
      obtain ⟨hu, hspare, hheld⟩ := hH hm
      exact ⟨hu, fun p hp => (hheld p hp).2.1, hH.notMem hm (.inr hxfree), hspare.mono (subset_insert ..)⟩

theorem runs_blockAlloc
    (hroom : M.tracked → K.card < LOGSIZE - 2) (hquiet : ¬ M.quiet) (hfree : M.total → (freeBlocks M.lim sb D).Nonempty) :
    (M.guard pid).Runs blockAlloc (fun x t => x < M.lim ∧ bitAt sb D x = false ∧
      Sees M u (insert x K) H (found sb D x) s t) t := by
  have hpos : 3 < dataStart sb := dataStart_pos sb
  have harea := hl.area
  refine fun _ => ⟨hquiet, ?_⟩
  show (M.guard pid).Runs (readSuperblock >>= fun sb => blockAllocLoop sb ((sb.size + BPB - 1) / BPB) 0) _ t
  refine (runs_readSuperblock h (by omega) fun hm => ⟨hH.notMem hm (.inl (by omega)), (hH hm).2.1⟩).bind ?_
  rintro _ t ⟨rfl, ht⟩
  rw [hl.super]
  refine runs_blockAllocLoop ht hl hK hH hroom hquiet (Nat.zero_mod _) ?_ fun hm => ?_
  · unfold BPB
    omega
  · obtain ⟨y, hy⟩ := hfree hm
    obtain ⟨hylim, hyfree⟩ := mem_filter.mp hy
    rw [mem_range] at hylim
    refine ⟨y, hylim, Nat.zero_le y, ?_, hyfree⟩
    unfold BPB
    omega

theorem runs_blockFree (hx : x < M.lim) (hbit : M.total → bitAt sb D x = true) :
    (M.guard pid).Runs (blockFree x) (fun _ t => bitAt sb D x = true ∧ Sees M u K H (markBit sb D x false) s t) t := by
  have hpos : 3 < dataStart sb := dataStart_pos sb
  have harea := hl.area
  have hblock := bblock_lt (hx.le.trans harea.2)
  have hblim : bblock x sb.ninodes < M.lim := hblock.2.trans_le harea.1
  refine fun _ => ⟨trivial, ?_⟩
  show (M.guard pid).Runs (readSuperblock >>= _) _ t
  refine (runs_readSuperblock h (by omega) fun hm => ⟨hH.notMem hm (.inl (by omega)), (hH hm).2.1⟩).bind ?_
  rintro _ t ⟨rfl, ht⟩
  rw [hl.super]
  refine (runs_bufcacheRead ht fun hm => ⟨hH.notMem hm (.inl hblock.2), (hH hm).2.1⟩).bind fun bp t ht => ?_
  refine (runs_data ht (List.mem_cons_self ..) hblim).bind ?_
  rintro _ t ⟨rfl, ht⟩
  by_cases hclear : getBit (D (bblock x sb.ninodes)) (x % BPB) = false
  · rw [if_pos hclear]
    refine runs_stop fun hm => ?_
    rw [show getBit (D (bblock x sb.ninodes)) (x % BPB) = true from hbit hm] at hclear
    cases hclear
  · rw [if_neg hclear]
    refine runs_logWrite ht (List.mem_cons_self ..) hblim (fun hm => ?_) (fun hm => hK hm x (hx.trans_le harea.2)) _
      fun t ht => (runs_bufcacheRelease ht).mono fun _ t ht => ⟨by simpa [bitAt] using hclear, ht⟩
    obtain ⟨hu, hspare, hheld⟩ := hH hm
    exact ⟨hu, List.forall_mem_cons.mpr ⟨hblim, fun p hp => (hheld p hp).2.1⟩,
      hspare.of_mem (hK (M.tracked_of_total hm) x (hx.trans_le harea.2))⟩

end

/-! ### A sequence of calls -/

/-- Everything is shown: transactions fit the log, and nothing stops. -/
def full (lim : ℕ) : Mode := ⟨lim, True, False, True, fun _ => trivial⟩

theorem run_full (lim pid : ℕ) {c : Code FsOp α} {Q : α → FS → Prop} (h : ((full lim).guard pid).Runs c Q s) :
    ∃ a t, (c.run (sem pid)).run s = (.ok a, t) ∧ Q a t := by
  have hwp := wp_iff_run.mp (h.wp_run fun _ _ o => by cases o <;> first | trivial | exact .inl trivial)
  rcases hr : (c.run (sem pid)).run s with ⟨e | a, t⟩
  · exact absurd trivial (hwp.2 e t hr)
  · exact ⟨a, t, rfl, hwp.1 a t hr⟩

/-- `block_alloc` is not called; the program may stop. -/
def reading (lim : ℕ) : Mode := ⟨lim, False, True, False, False.elim⟩

def anyGuard (pid : ℕ) : Guard FS FsStop FsOp := ⟨sem pid, fun _ _ _ => True, fun _ _ _ => True, fun _ _ => True⟩

theorem runs_any_of_reading {lim : ℕ} {c : Code FsOp α} {Q : α → FS → Prop} (h : ((reading lim).guard pid).Runs c Q s) :
    (anyGuard pid).Runs c Q s :=
  h.weaken rfl (fun _ _ o _ => by cases o <;> first | trivial | exact .inr (.inl trivial)) (fun _ _ _ _ => trivial) fun _ _ _ => trivial

theorem runs_any (c : Code FsOp α) (s : FS) : (anyGuard pid).Runs c (fun _ _ => True) s := by
  induction c generalizing s with
  | ret a => trivial
  | act o k ih => exact fun _ => ⟨trivial, wp_of_forall (fun b t => ih b t) (fun _ _ => trivial) s⟩

theorem run_any {c : Code FsOp α} {Q : α → FS → Prop} (h : (anyGuard pid).Runs c Q s) {a : α}
    (hr : (c.run (sem pid)).run s = (.ok a, t)) : Q a t :=
  (wp_iff_run.mp (h.wp_run fun _ _ _ => trivial)).1 a t hr

theorem steady_boot (d : Disk) (lim : ℕ) : Steady lim none [] (boot d 0 0) where
  all b := by simp [boot]
  uniq b b' x h := by cases h
  nodup := List.nodup_nil
  busy b := by simp [boot]
  held := nofun
  writing := nofun
  clean b x _ h := by cases h
  dirty b h := by cases h
  place := .inl rfl
  room := .inl rfl
  idle _ := rfl
  home i hi := absurd hi (Nat.not_lt_zero i)
  inj i hi := absurd hi (Nat.not_lt_zero i)
  mirror i hi := absurd hi (Nat.not_lt_zero i)

theorem home_boot (d : Disk) (lim : ℕ) (hx : x < lim) : (boot d 0 0).home lim x = d x := by
  rw [home, if_pos hx]
  exact view_of_none fun b h => by cases h

theorem sees_boot (d : Disk) (quota : UInt32) (hhead : headN (d M.lim) = 0) :
    Sees M false ∅ [] ((boot d 0 0).home M.lim) (FS.boot d quota) (FS.boot d quota) :=
  ⟨Rest.refl _, rfl, steady_boot d M.lim, rfl, rfl, hhead, nofun, fun _ => empty_subset _, fun _ => Nat.zero_le _⟩

/-- The superblock that `mkfs` writes. -/
def mkfsSb : Superblock := ⟨1024, 985, 200, 10⟩

/-- A disk with the superblock of `mkfs`, the bitmap of `balloc(used)` and an empty log. -/
structure Made (used : ℕ) (D : Disk) : Prop where
  super : getSuperblock (D 1) = mkfsSb
  low : 29 ≤ used
  bits : ∀ x < BPB, bitAt mkfsSb D x = decide (x < used)
  head : headN (D 1014) = 0

/-- `block_alloc` in a transaction. -/
def allocCall : Code FsOp ℕ := do
  beginTrans
  let x ← blockAlloc
  commitTrans
  return x

/-- `block_free` in a transaction. -/
def freeCall (x : ℕ) : Code FsOp PUnit := do
  beginTrans
  blockFree x
  commitTrans

def FS.disk (s : FS) : Disk := s.store.home 1014

/-- `x` is a data block. -/
def IsData (x : ℕ) : Prop := 29 ≤ x ∧ x < 1014

instance (x : ℕ) : Decidable (IsData x) := inferInstanceAs (Decidable (_ ∧ _))

/-- The condition on a call: `block_alloc` is called when a data block is free, and `block_free` for a data block that is
in use. -/
inductive BlockStep (pid : ℕ) (s t : FS) : Prop where
  /-- `block_alloc`. -/
  | alloc (x y : ℕ) (hy : IsData y) (hfree : bitAt mkfsSb s.disk y = false)
      (hr : (allocCall.run (sem pid)).run s = (.ok x, t))
  /-- `block_free`. -/
  | free (x : ℕ) (hx : IsData x) (hbit : bitAt mkfsSb s.disk x = true) (hr : ((freeCall x).run (sem pid)).run s = (.ok ⟨⟩, t))

/-- What `block_alloc` is to do: it returns `x`. -/
structure Fresh (s t : FS) (x : ℕ) : Prop where
  data : IsData x
  before : bitAt mkfsSb s.disk x = false
  after : bitAt mkfsSb t.disk x = true
  zero : t.disk x = fun _ => 0
  other : ∀ y < BPB, y ≠ x → bitAt mkfsSb t.disk y = bitAt mkfsSb s.disk y

/-- The invariant of the calls. -/
structure Calls (s : FS) : Prop where
  shows : Shows (full 1014) false ∅ [] s.disk s.store
  size : s.store.log.size = LOGSIZE
  super : getSuperblock (s.disk 1) = mkfsSb
  low : ∀ y < 29, bitAt mkfsSb s.disk y = true

namespace Calls

theorem super_disk (h : Calls s) : Super 1014 mkfsSb s.disk := ⟨h.super, by decide⟩

theorem bitmaps : Bitmaps M mkfsSb {28} := fun _ y (hy : y < 1024) => by
  rw [mem_singleton, bblock]
  show y / 4096 + 200 / 8 + 3 = 28
  omega

theorem begins (h : Calls s) (M : Mode) (hlim : M.lim = 1014) :
    (M.guard pid).Runs beginTrans (fun _ t => Sees M true {28} [] s.disk s t) s := by
  have hs : Sees M false ∅ [] s.disk s s :=
    ⟨Rest.refl s, rfl, hlim ▸ h.shows.steady, hlim ▸ h.shows.home, h.shows.busy, hlim ▸ h.shows.head, nofun,
      fun _ => h.shows.logged trivial, fun _ => Nat.zero_le _⟩
  refine (runs_beginTrans hs (fun _ => rfl) fun _ => h.size.ge).mono fun _ t ht => ?_
  exact ht.2.widen (empty_subset _) fun _ => by decide

variable {D : Disk}

theorem commits (h : Calls s) (M : Mode) (hlim : M.lim = 1014) (ht : Sees M true K [] D s t)
    (hsuper : getSuperblock (D 1) = mkfsSb) (hlow : ∀ y < 29, bitAt mkfsSb D y = true) :
    (M.guard pid).Runs commitTrans (fun _ t => t.disk = D ∧ Calls t) t := by
  refine (runs_commitTrans ht).mono fun _ t ht => ?_
  have hD : t.disk = D := (hlim ▸ ht.shows.home :)
  refine ⟨hD, ⟨hlim ▸ ht.shows.steady, rfl, ht.shows.busy, hlim ▸ ht.shows.head, nofun, fun _ => ?_, fun _ => Nat.zero_le _⟩,
    ht.size.trans h.size, hD ▸ hsuper, hD ▸ hlow⟩
  rw [homes_eq_empty (ht.shows.steady.idle ht.shows.busy)]

theorem alloc (h : Calls s) (pid : ℕ) {y : ℕ} (hy : IsData y) (hfree : bitAt mkfsSb s.disk y = false) :
    ∃ x t, (allocCall.run (sem pid)).run s = (.ok x, t) ∧ Fresh s t x ∧ Calls t := by
  refine run_full 1014 pid ((h.begins (full 1014) rfl).bind fun _ t ht => ?_)
  refine (runs_blockAlloc ht h.super_disk bitmaps (handy_nil fun _ => rfl) (fun _ => by decide) id fun _ => ?_).bind ?_
  · exact ⟨y, mem_filter.mpr ⟨mem_range.mpr hy.2, hfree⟩⟩
  rintro x t ⟨hx, hbit, ht⟩
  -- the block is no block of the bitmap
  have hlow : 29 ≤ x := by
    by_contra hlt
    rw [h.low x (by omega)] at hbit
    cases hbit
  have hblock : ∀ z < BPB, bblock z 200 = 28 := fun z hz => by
    show z / 4096 + 200 / 8 + 3 = 28
    unfold BPB at hz
    omega
  have hbits : ∀ z < BPB, bitAt mkfsSb (found mkfsSb s.disk x) z = if z = x then true else bitAt mkfsSb s.disk z := by
    intro z hz
    rw [← bitAt_markBit]
    refine bitAt_congr (update_of_ne ?_ ..)
    rw [show bblock z mkfsSb.ninodes = 28 from hblock z hz]
    omega
  have h1 : found mkfsSb s.disk x 1 = s.disk 1 := by
    rw [found, update_of_ne (by omega), markBit, update_of_ne]
    rw [show bblock x mkfsSb.ninodes = 28 from hblock x (hx.trans (by decide))]
    decide
  refine (h.commits (full 1014) rfl ht (h1 ▸ h.super) fun z hz => ?_).bind ?_
  · rw [hbits z (hz.trans (by decide)), h.low z hz, ite_self]
  rintro _ t ⟨hD, hc⟩
  refine ⟨⟨⟨hlow, hx⟩, hbit, ?_, ?_, fun z hz hne => ?_⟩, hc⟩
  · rw [hD, hbits x (hx.trans (by decide)), if_pos rfl]
  · rw [hD]
    exact update_self ..
  · rw [hD, hbits z hz, if_neg hne]

theorem free (h : Calls s) (pid : ℕ) (hx : IsData x) (hbit : bitAt mkfsSb s.disk x = true) :
    ∃ a t, ((freeCall x).run (sem pid)).run s = (.ok a, t) ∧ Calls t := by
  refine run_full 1014 pid ((h.begins (full 1014) rfl).bind fun _ t ht => ?_)
  refine (runs_blockFree ht h.super_disk bitmaps (handy_nil fun _ => rfl) hx.2 fun _ => hbit).bind ?_
  rintro _ t ⟨-, ht⟩
  have hblock : bblock x mkfsSb.ninodes = 28 := by
    have := hx.2
    show x / 4096 + 200 / 8 + 3 = 28
    omega
  refine (h.commits (full 1014) rfl ht ?_ fun z hz => ?_).mono fun _ t ht => ht.2
  · rw [markBit, update_of_ne (by rw [hblock]; decide)]
    exact h.super
  · have := hx.1
    rw [bitAt_markBit, if_neg (by omega)]
    exact h.low z hz

theorem step (h : Calls s) (hst : BlockStep pid s t) : Calls t := by
  cases hst with
  | alloc x y hy hfree hr =>
    obtain ⟨x', t', hr', -, hc⟩ := h.alloc pid hy hfree
    rw [hr] at hr'
    cases hr'
    exact hc
  | free x hx hbit hr =>
    obtain ⟨a, t', hr', hc⟩ := h.free pid hx hbit
    rw [hr] at hr'
    cases hr'
    exact hc

theorem start {used : ℕ} (hD : Made used D) (pid : ℕ) (quota : UInt32) :
    ∃ a t, (logInit.run (sem pid)).run (FS.boot D quota) = (.ok a, t) ∧
      (∀ y < BPB, bitAt mkfsSb t.disk y = decide (y < used)) ∧ Calls t := by
  have h1 : (boot D 0 0).home 1014 1 = D 1 := home_boot D 1014 (by decide)
  refine run_full 1014 pid ((runs_logInit (sees_boot (M := full 1014) D quota hD.head) (by decide) ?_).mono ?_)
  · show (getSuperblock ((boot D 0 0).home 1014 1)).size - (getSuperblock ((boot D 0 0).home 1014 1)).nlog = 1014
    rw [h1, hD.super]
    rfl
  · rintro _ t ⟨-, hsize, hs⟩
    have hdisk : t.disk = (boot D 0 0).home 1014 := hs.home
    have hbits : ∀ y < BPB, bitAt mkfsSb t.disk y = decide (y < used) := fun y hy => by
      have hblock : bblock y mkfsSb.ninodes = 28 := by
        show y / 4096 + 200 / 8 + 3 = 28
        unfold BPB at hy
        omega
      rw [hdisk, bitAt_congr (D := D) (home_boot D 1014 (by rw [hblock]; decide)), hD.bits y hy]
    refine ⟨hbits, hdisk ▸ hs, ?_, ?_, fun y hy => ?_⟩
    · rw [hsize]
      show (getSuperblock ((boot D 0 0).home 1014 1)).nlog = LOGSIZE
      rw [h1, hD.super]
      rfl
    · rw [hdisk, h1]
      exact hD.super
    · rw [hbits y (hy.trans (by decide))]
      exact decide_eq_true (hy.trans_le hD.low)

end Calls

/-- A disk made by `mkfs`, and calls of `block_alloc` while a data block is free and of `block_free` for data blocks in use:
whenever a data block is free, `block_alloc` returns a data block whose bit was clear and is set afterwards, and that is
empty; the other bits do not change. -/
theorem block_alloc_fresh {used pid : ℕ} {D : Disk} {quota : UInt32} {s₀ s : FS} (hD : Made used D)
    (hboot : (logInit.run (sem pid)).run (FS.boot D quota) = (.ok ⟨⟩, s₀)) (h : Relation.ReflTransGen (BlockStep pid) s₀ s)
    {y : ℕ} (hy : IsData y) (hfree : bitAt mkfsSb s.disk y = false) :
    ∃ x t, (allocCall.run (sem pid)).run s = (.ok x, t) ∧ Fresh s t x := by
  have hcalls : Calls s := by
    clear hfree
    induction h with
    | refl =>
      obtain ⟨a, t, hr, -, hc⟩ := Calls.start hD pid quota
      rw [hboot] at hr
      cases hr
      exact hc
    | tail _ hst ih => exact ih.step hst
  obtain ⟨x, t, hr, hf, -⟩ := hcalls.alloc pid hy hfree
  exact ⟨x, t, hr, hf⟩

/-- A disk on which the first `used` blocks are in use. -/
def image (used : ℕ) : Disk := fun x =>
  if x = 1 then setFields (fun _ => 0) [(0, 4, 1024), (4, 4, 985), (8, 4, 200), (12, 4, 10)]
  else if x = 28 then fun k => UInt8.ofNat (2 ^ (used - 8 * k.val) - 1)
  else fun _ => 0

theorem made_image {used : ℕ} (h : 29 ≤ used) : Made used (image used) := by
  refine ⟨rfl, h, fun x hx => ?_, rfl⟩
  have hblock : bblock x mkfsSb.ninodes = 28 := by
    show x / 4096 + 200 / 8 + 3 = 28
    unfold BPB at hx
    omega
  have hx8 : x / 8 < BSIZE := by
    unfold BPB at hx
    unfold BSIZE
    omega
  rw [bitAt, hblock, Nat.mod_eq_of_lt hx, getBit, byteAt, dif_pos hx8]
  show (UInt8.ofNat (2 ^ (used - 8 * (x / 8)) - 1)).toNat.testBit (x % 8) = _
  rw [UInt8.toNat_ofNat', Nat.testBit_mod_two_pow, Nat.testBit_two_pow_sub_one, decide_eq_true (Nat.mod_lt x (by decide)),
    Bool.true_and, decide_eq_decide]
  omega

theorem block_alloc_fresh_first :
    ∃ s₀, (logInit.run (sem 2)).run (FS.boot (image 30) 300000) = (.ok ⟨⟩, s₀) ∧ bitAt mkfsSb s₀.disk 100 = false ∧
      ∃ x t, (allocCall.run (sem 2)).run s₀ = (.ok x, t) ∧ Fresh s₀ t x := by
  have hD : Made 30 (image 30) := made_image (by decide)
  obtain ⟨_, s₀, hr, hbits, -⟩ := Calls.start hD 2 300000
  have hfree : bitAt mkfsSb s₀.disk 100 = false := hbits 100 (by decide)
  exact ⟨s₀, hr, hfree, block_alloc_fresh hD hr .refl (by decide) hfree⟩

/-- All the data blocks are in use, and `block_alloc` returns a block of the log. -/
theorem block_alloc_log :
    Made 1014 (image 1014) ∧ (∀ x, IsData x → bitAt mkfsSb (image 1014) x = true) ∧
      (((do logInit; allocCall : Code FsOp ℕ).run (sem 2)).run (FS.boot (image 1014) 300000)).1.toOption = some 1014 ∧
      ¬ IsData 1014 := by
  have hD : Made 1014 (image 1014) := made_image (by decide)
  refine ⟨hD, fun x hx => ?_, by decide +kernel, by decide⟩
  rw [hD.bits x (hx.2.trans (by decide))]
  exact decide_eq_true hx.2

end MCertiKOS.FileSystem.Fs
