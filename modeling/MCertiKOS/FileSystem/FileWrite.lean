import MCertiKOS.FileSystem.Nodes

/-!
# Reading and writing open files

`file_write` cuts what is to be written into chunks that fit the log and writes
each in a transaction of its own. Together they do what one `inode_write` does to
an array of bytes; if the largest size of a file is exceeded, the chunks before
the first that does not fit have been written.
-/

namespace MCertiKOS.FileSystem.Fs

open Library Finset
open Function (update update_apply update_eq_self_iff update_idem update_self)

variable {M : Mode} {pid : ℕ} {sb : Superblock} {X : Finset ℕ} {u : Bool} {K K' : Finset ℕ} {D D' : Disk} {d : Dinode} {s₀ s t t' : FS}
  {L : List (InodePtr × ℕ)} {B : Finset InodePtr} {ip : InodePtr} {i off : ℕ} {S T : Finset ℕ} {f : Fin NFILE} {src : List UInt8}

/-! ### The room for a chunk -/

theorem room_union (htrans : M.total → u = true) (hbits : Bitmaps M sb K) (hcard : M.tracked → K.card + S.card ≤ LOGSIZE - 2)
    (hfree : M.total → need D d S ≤ (freeBlocks M.lim sb D).card) (hquiet : M.quiet → need D d S = 0) :
    Room M sb u (K ∪ (S.filter fun k => slot D d k ≠ 0).image (slot D d)) D d S ∧
      (K ∪ (S.filter fun k => slot D d k ≠ 0).image (slot D d)).card + need D d S ≤ K.card + S.card := by
  have hle : (K ∪ (S.filter fun k => slot D d k ≠ 0).image (slot D d)).card + need D d S ≤ K.card + S.card := by
    have h1 := card_union_le K ((S.filter fun k => slot D d k ≠ 0).image (slot D d))
    have h2 : ((S.filter fun k => slot D d k ≠ 0).image (slot D d)).card ≤ _ := card_image_le
    have h3 : (S.filter fun k => slot D d k = 0).card + (S.filter fun k => slot D d k ≠ 0).card = S.card :=
      card_filter_add_card_filter_not _
    unfold need
    omega
  refine ⟨⟨htrans, fun hm y hy => mem_union_left _ (hbits hm y hy), fun _ k hk h0 => ?_, fun hm => hle.trans (hcard hm), hfree, hquiet⟩,
    hle⟩
  exact mem_union_right _ (mem_image_of_mem _ (mem_filter.mpr ⟨hk, h0⟩))

theorem bblock_single (hbits : sb.size ≤ BPB) {y : ℕ} (hy : y < sb.size) : bblock y sb.ninodes = bblock 0 sb.ninodes := by
  unfold bblock
  rw [Nat.div_eq_of_lt (hy.trans_le hbits), Nat.zero_div]

theorem Doing.room (h : Doing M sb X true K D s₀ L B t) (hbits : sb.size ≤ BPB) (hK : M.tracked → K.card + 2 + S.card ≤ LOGSIZE - 2)
    (hfree : M.total → need D (dinodeAt D i) S ≤ (freeBlocks M.lim sb D).card) (hquiet : M.quiet → need D (dinodeAt D i) S = 0) :
    ∃ K', iblock i ∈ K' ∧ K'.card + need D (dinodeAt D i) S ≤ K.card + 2 + S.card ∧
      Room M sb true K' D (dinodeAt D i) S ∧ Doing M sb X true K' D s₀ L B t := by
  have hcard : (K ∪ {bblock 0 sb.ninodes, iblock i}).card ≤ K.card + 2 :=
    (card_union_le ..).trans (Nat.add_le_add_left card_le_two _)
  obtain ⟨hroom, hle⟩ := room_union (M := M) (u := true) (K := K ∪ {bblock 0 sb.ninodes, iblock i}) (D := D) (d := dinodeAt D i) (S := S)
    (fun _ => rfl) (fun _ y hy => by rw [bblock_single hbits hy]; exact mem_union_right _ (mem_insert_self ..))
    (fun hm => (Nat.add_le_add_right hcard _).trans (hK hm)) hfree hquiet
  refine ⟨_, mem_union_left _ (mem_union_right _ (mem_insert_of_mem (mem_singleton_self _))),
    hle.trans (Nat.add_le_add_right hcard _), hroom, h.widen ?_ fun hm => (Nat.le_add_right ..).trans (hroom.log hm)⟩
  exact subset_union_left.trans subset_union_left

variable {n : ℕ}

theorem card_writeSlots (hn : n ≤ maxWrite) : (writeSlots off n).card ≤ 5 := by
  have hsub : writeSlots off n ⊆ insert NDIRECT ((Finset.range 4).image fun j => dataSlot (off / BSIZE + j)) := by
    intro k hk
    obtain ⟨j, hj, hk⟩ := mem_biUnion.mp hk
    obtain ⟨hlo, hhi⟩ := mem_Ico.mp hj
    have hdata : dataSlot (j / BSIZE) ∈ (Finset.range 4).image fun j => dataSlot (off / BSIZE + j) := by
      refine mem_image.mpr ⟨j / BSIZE - off / BSIZE, mem_range.mpr ?_, ?_⟩
      · unfold maxWrite LOGSIZE at hn
        unfold BSIZE
        omega
      · have := Nat.div_le_div_right (c := BSIZE) hlo
        congr 1
        omega
    split_ifs at hk
    · rw [mem_singleton.mp hk]
      exact mem_insert_of_mem hdata
    · rcases mem_insert.mp hk with rfl | hk
      · exact mem_insert_of_mem hdata
      · rw [mem_singleton.mp hk]
        exact mem_insert_self ..
  calc (writeSlots off n).card ≤ _ := card_le_card hsub
    _ ≤ ((Finset.range 4).image fun j => dataSlot (off / BSIZE + j)).card + 1 := card_insert_le ..
    _ ≤ 4 + 1 := Nat.add_le_add_right (card_image_le.trans_eq (card_range 4)) 1

theorem writeSlots_subset {off' n' : ℕ} (hlo : off ≤ off') (hhi : off' + n' ≤ off + n) : writeSlots off' n' ⊆ writeSlots off n :=
  biUnion_subset_biUnion_of_subset_left _ (Finset.Ico_subset_Ico hlo hhi)

theorem need_mono (h : S ⊆ T) : need D d S ≤ need D d T := card_le_card (filter_subset_filter _ h)

/-! ### The file table -/

/-- The offset advances by `r`. -/
def advanceOff (v : File InodePtr) (r : ℕ) : File InodePtr := { v with off := v.off + UInt32.ofNat r }

/-- The offset of `f` advances by `r`. -/
def FS.advance (s : FS) (f : Fin NFILE) (r : ℕ) : FS :=
  { s with procs := { s.procs with files := s.procs.files.setFile f (advanceOff (s.procs.files.file f) r) } }

theorem FS.advance_file (r : ℕ) : (s.advance f r).procs.files.file f = advanceOff (s.procs.files.file f) r := update_self ..

theorem FS.advance_advance (a b : ℕ) : (s.advance f a).advance f b = s.advance f (a + b) := by
  simp [FS.advance, Files.setFile, advanceOff, UInt32.ofNat_add, UInt32.add_assoc]

theorem FS.advance_zero : s.advance f 0 = s := by
  simp [FS.advance, Files.setFile, advanceOff]

theorem Doing.runs_file (h : Doing M sb X u K D s₀ L B t) : (M.guard pid).Runs (Code.op (.file f))
    (fun v t => v = s₀.procs.files.file f ∧ Doing M sb X u K D s₀ L B t) t := by
  refine fun _ => ⟨trivial, ?_⟩
  show wp (do return (← get).procs.files.file f) _ _ t
  rw [wp_bind, wp_get]
  exact ⟨by rw [h.procs], h⟩

theorem Doing.runs_fileInode (h : Doing M sb X u K D s₀ L B t) (hf : (s₀.procs.files.file f).ip = some ip) :
    (M.guard pid).Runs (fileInode f) (fun v t => v = ip ∧ Doing M sb X u K D s₀ L B t) t := by
  refine (h.runs_file).bind fun v t hv => ?_
  obtain ⟨rfl, h⟩ := hv
  rw [hf]
  exact ⟨rfl, h⟩

theorem Doing.runs_advance (h : Doing M sb X u K D s₀ L B t) (r : ℕ) : (M.guard pid).Runs (Code.op (.advance f r))
    (fun _ t => Doing M sb X u K D (s₀.advance f r) L B t) t := by
  refine fun _ => ⟨trivial, ?_⟩
  show wp (onFiles fun s : Files InodePtr => Except.ok (s.setFile f (advanceOff (s.file f) r), PUnit.unit)) _ _ t
  rw [wp_onFiles]
  refine ⟨h.shows, h.size, h.lays, h.cached, ?_, h.cwd, h.first, h.dead⟩
  show (t.advance f r).procs = (s₀.advance f r).procs
  rw [FS.advance, FS.advance, h.procs]

/-! ### The loop of `file_write` -/

theorem overlay_nil (bs : List UInt8) (off : ℕ) : overlay bs off [] = bs := by simp [overlay]

theorem overlay_overlay {bs a b : List UInt8} (h : off ≤ bs.length) :
    overlay (overlay bs off a) (off + a.length) b = overlay bs off (a ++ b) := by
  have hlen := length_overlay a h
  refine List.ext_getElem? fun j => ?_
  rw [getElem?_overlay (by omega), getElem?_overlay h, getElem?_overlay h, List.length_append]
  by_cases h1 : off + a.length ≤ j ∧ j < off + a.length + b.length
  · rw [if_pos h1, if_pos (by omega), List.getElem?_append_right (by omega)]
    congr 1
    omega
  · rw [if_neg h1]
    by_cases h2 : off ≤ j ∧ j < off + a.length
    · rw [if_pos h2, if_pos (by omega), List.getElem?_append_left (by omega)]
    · rw [if_neg h2, if_neg (by omega)]

/-- How many of `n` bytes from `off` on are written. -/
def fitLen (off n : ℕ) : ℕ :=
  if off + n ≤ MAXFILE * BSIZE then n else (MAXFILE * BSIZE - off) / maxWrite * maxWrite

theorem maxWrite_eq : maxWrite = 1536 := rfl

theorem maxSize_eq : MAXFILE * BSIZE = 71680 := rfl

theorem fitLen_le (off n : ℕ) : fitLen off n ≤ n := by
  unfold fitLen
  rw [maxSize_eq, maxWrite_eq]
  split_ifs
  · exact le_rfl
  · omega

theorem fitLen_eq_zero (h : ¬ off + min n maxWrite ≤ MAXFILE * BSIZE) : fitLen off n = 0 := by
  unfold fitLen
  rw [maxSize_eq, maxWrite_eq] at *
  rw [if_neg (by omega), Nat.div_eq_of_lt (by omega), Nat.zero_mul]

theorem fitLen_chunk (h : off + min n maxWrite ≤ MAXFILE * BSIZE) :
    fitLen off n = min n maxWrite + fitLen (off + min n maxWrite) (n - min n maxWrite) := by
  unfold fitLen
  rw [maxSize_eq, maxWrite_eq] at *
  by_cases hfit : off + n ≤ 71680
  · rw [if_pos hfit, if_pos (by omega)]
    omega
  · rw [if_neg hfit, if_neg (by omega)]
    omega

theorem Lays.length_le {lim : ℕ} {n : Node} (h : Lays lim sb none X D) (hn : tree sb D none i = some n) :
    n.data.length ≤ MAXFILE * BSIZE := by
  obtain ⟨hi, ht, rfl⟩ := tree_some hn
  exact length_contents.trans_le (h.mapped i hi nofun ht).size_le

theorem Doing.written_nil {n : Node} (h : Doing M sb X false ∅ D s₀ L B t) (hn : tree sb D none i = some n) {w : ℕ} (hw : w = 0) :
    ∃ D', Doing M sb X false ∅ D' (s₀.advance f w) L B t ∧
      tree sb D' none = update (tree sb D none) i (some { n with data := overlay n.data off (src.take w) }) := by
  rw [hw, FS.advance_zero, List.take_zero, overlay_nil]
  exact ⟨D, h, (update_eq_self_iff.mpr hn.symm).symm⟩

theorem Doing.runs_writeChunks {fuel : ℕ} {n : Node} (h : Doing M sb X false ∅ D s₀ L B t) (hlarge : M.tracked → LOGSIZE ≤ s₀.store.log.size)
    (hbits : sb.size ≤ BPB) (hquiet : ¬ M.quiet) (hip : Has s₀ L ip i) (hB : ip ∉ B) (hfile : (s₀.procs.files.file f).ip = some ip)
    (hoffv : (s₀.procs.files.file f).off.toNat = off) (hn : tree sb D none i = some n) (hdev : n.type ≠ T_DEV) (hoff : off ≤ n.data.length)
    (hfuel : src.length ≤ fuel) (hT : writeSlots off (fitLen off src.length) ⊆ T)
    (hfree : M.total → need D (dinodeAt D i) T ≤ (freeBlocks M.lim sb D).card) :
    (M.guard pid).Runs (writeChunks f fuel src) (fun r t => r = decide (off + src.length ≤ MAXFILE * BSIZE) ∧ ∃ D',
      Doing M sb X false ∅ D' (s₀.advance f (fitLen off src.length)) L B t ∧
      tree sb D' none = update (tree sb D none) i
        (some { n with data := overlay n.data off (src.take (fitLen off src.length)) })) t := by
  induction fuel generalizing src off n D s₀ t with
  | zero =>
    obtain rfl := List.length_eq_zero_iff.mp (Nat.le_zero.mp hfuel)
    have hfit := hoff.trans (h.lays.length_le hn)
    exact ⟨(decide_eq_true hfit).symm, h.written_nil hn (if_pos hfit)⟩
  | succ fuel ih =>
    unfold writeChunks
    by_cases hnil : src = []
    · subst hnil
      rw [if_pos rfl]
      have hfit := hoff.trans (h.lays.length_le hn)
      exact ⟨(decide_eq_true hfit).symm, h.written_nil hn (if_pos hfit)⟩
    · rw [if_neg hnil]
      have hmax := h.lays.length_le hn
      set m := min src.length maxWrite with hm
      have hmle : m ≤ src.length := min_le_left ..
      have hm0 : 0 < m := lt_min (List.length_pos_iff.mpr hnil) (by decide)
      have hlen : (src.take m).length = m := List.length_take_of_le hmle
      have hmem : ip ∈ insert ip B := mem_insert_self ..
      refine (h.runs_begin hlarge).bind fun _ t h => ?_
      refine (h.runs_fileInode hfile).bind fun v t hv => ?_
      obtain ⟨he, h⟩ := hv
      rw [he]
      refine (h.runs_inodeLock hip (tree_some hn).1 (fun _ => by rw [hn]; nofun) fun _ => hB).bind fun _ t hl => ?_
      refine (hl.2.runs_file).bind fun v t hv => ?_
      obtain ⟨rfl, h⟩ := hv
      rw [hoffv]
      by_cases hfit : off + m ≤ MAXFILE * BSIZE
      · have hw := fitLen_chunk hfit
        rw [← hm] at hw
        have hsub : writeSlots off m ⊆ T := (writeSlots_subset le_rfl (by omega)).trans hT
        obtain ⟨K₁, hK₁, -, hroom, h⟩ := h.room (i := i) (S := writeSlots off m) hbits
          (fun _ => (Nat.add_le_add_left (card_writeSlots (min_le_right ..)) _).trans (by decide))
          (fun hm => (need_mono hsub).trans (hfree hm)) fun hq => absurd hq hquiet
        refine (h.runs_write hip hmem hn hdev hoff (hlen.symm ▸ hfit) hroom (fun j hlo hhi => covers_writeSlots hlo (hlen ▸ hhi))
          fun _ => hK₁).bind ?_
        rintro _ t ⟨rfl, K', D', hc, h⟩
        dsimp only
        refine (h.runs_advance _).bind fun _ t h => ?_
        refine (h.runs_inodeUnlock hmem).bind fun _ t h => ?_
        rw [erase_insert hB] at h
        refine (h.runs_commit).bind fun _ t h => ?_
        rw [hlen] at h ⊢
        rw [if_neg (not_not.mpr rfl)]
        have hn' : tree sb D' none i = some { n with data := overlay n.data off (src.take m) } := by rw [hc.tree, update_self]
        have hlen' : (src.drop m).length = src.length - m := List.length_drop ..
        have hoff' : off + m ≤ (overlay n.data off (src.take m)).length := by
          rw [length_overlay _ hoff, hlen]
          exact le_max_right ..
        have hoffv' : ((s₀.advance f m).procs.files.file f).off.toNat = off + m := by
          rw [FS.advance_file]
          show ((s₀.procs.files.file f).off + UInt32.ofNat m).toNat = off + m
          rw [UInt32.toNat_add, hoffv, UInt32.toNat_ofNat', Nat.add_mod_mod, Nat.mod_eq_of_lt (hfit.trans_lt (by decide))]
        have hrest : off + m + (src.drop m).length = off + src.length := by omega
        have hT' : writeSlots (off + m) (fitLen (off + m) (src.drop m).length) ⊆ T := by
          rw [hlen']
          exact (writeSlots_subset (by omega) (by omega)).trans hT
        have hbal := hc.balance T hsub
        refine (ih h hlarge hip ?_ hoffv' hn' hdev hoff' (by omega) hT' fun hm => ?_).mono ?_
        · rw [FS.advance_file]
          exact hfile
        · have := hfree hm
          omega
        rintro _ t ⟨rfl, D'', h, htree⟩
        have hover := overlay_overlay (a := src.take m) (b := (src.drop m).take (fitLen (off + m) (src.length - m))) hoff
        rw [hlen, ← List.take_add, ← hw] at hover
        rw [hlen'] at h htree
        refine ⟨by rw [hrest], D'', by rwa [hw, ← FS.advance_advance], ?_⟩
        rw [htree, hc.tree, update_idem, hover]
      · have hbad : ¬ (off ≤ (t.inode ip).d.size ∧ off + (src.take m).length ≤ MAXFILE * BSIZE) := by
          rw [hlen]
          exact fun hh => hfit hh.2
        have hcopy := h.copy_of_locked hip hmem
        refine (runs_inodeWrite_bad ?_ hbad).bind ?_
        · rw [hcopy, type_of_tree hn]
          exact hdev
        rintro _ t ⟨rfl, rfl⟩
        dsimp only
        refine (h.runs_inodeUnlock hmem).bind fun _ t h => ?_
        rw [erase_insert hB] at h
        refine (h.runs_commit).bind fun _ t h => ?_
        exact ⟨(decide_eq_false (by omega)).symm, h.written_nil hn (fitLen_eq_zero hfit)⟩

/-! ### `file_read` -/

theorem Doing.runs_fileRead {n : Node} (h : Doing M sb X u K D s₀ L B t) (hip : Has s₀ L ip i) (hB : ip ∉ B)
    (hfile : (s₀.procs.files.file f).ip = some ip) (hoffv : (s₀.procs.files.file f).off.toNat = off) (hn : tree sb D none i = some n)
    (hdev : n.type ≠ T_DEV) (len : ℕ) : (M.guard pid).Runs (fileRead f len) (fun r t => r = readSpec n.data off len ∧
      Doing M sb X u K D (s₀.advance f (r.getD []).length) L B t) t := by
  have hmem : ip ∈ insert ip B := mem_insert_self ..
  refine (h.runs_fileInode hfile).bind fun v t hv => ?_
  obtain ⟨he, h⟩ := hv
  rw [he]
  refine (h.runs_inodeLock hip (tree_some hn).1 (fun _ => by rw [hn]; nofun) fun _ => hB).bind fun _ t hl => ?_
  refine (hl.2.runs_file).bind fun v t hv => ?_
  obtain ⟨rfl, h⟩ := hv
  rw [hoffv]
  refine (h.runs_read hip hmem hn hdev off len).bind fun r t hr => ?_
  obtain ⟨hr, h⟩ := hr
  cases r with
  | none =>
    refine (h.runs_inodeUnlock hmem).bind fun _ t h => ?_
    rw [erase_insert hB] at h
    exact ⟨hr, by rwa [Option.getD_none, List.length_nil, FS.advance_zero]⟩
  | some bs =>
    refine (h.runs_advance _).bind fun _ t h => ?_
    refine (h.runs_inodeUnlock hmem).bind fun _ t h => ?_
    rw [erase_insert hB] at h
    exact ⟨hr, h⟩

/-- What is written in chunks is written as by one `inode_write`, and the offset advances; or, if the largest size of files is
exceeded, as many whole chunks as fit. Then `file_read` from the old offset finds it. -/
theorem file_write_chunks (pid : ℕ) (src : List UInt8) {lim : ℕ} {n : Node} (hs : Idle lim sb X D s) (hfile : (s.procs.files.file f).ip = some ip)
    (href : 0 < (s.inode ip).ref) (hoff : (s.procs.files.file f).off.toNat = off) (hn : tree sb D none (s.inode ip).inum = some n)
    (hdev : n.type ≠ T_DEV) (hle : off ≤ n.data.length)
    (hfree : need D (dinodeAt D (s.inode ip).inum) (writeSlots off (fitLen off src.length)) ≤ (freeBlocks lim sb D).card) :
    ∃ t D', ((fileWrite f src).run (sem pid)).run s = (.ok (decide (off + src.length ≤ MAXFILE * BSIZE)), t) ∧ Idle lim sb X D' t ∧
      tree sb D' none = update (tree sb D none) (s.inode ip).inum
        (some { n with data := overlay n.data off (src.take (fitLen off src.length)) }) ∧
      t.procs = (s.advance f (fitLen off src.length)).procs ∧
      ∀ g len, (t.procs.files.file g).ip = some ip → (t.procs.files.file g).off.toNat = off → len < 2 ^ 31 →
        ∃ t', ((fileRead g len).run (sem pid)).run t =
          (.ok (some (((overlay n.data off (src.take (fitLen off src.length))).drop off).take len)), t') := by
  have hip : Has s [] ip (s.inode ip).inum := .inr ⟨href, rfl⟩
  obtain ⟨_, t, hrun, rfl, D', h, htree⟩ := run_full lim pid (hs.doing.runs_writeChunks (fun _ => hs.log) hs.bits id hip
    (notMem_empty ip) hfile hoff hn hdev hle le_rfl (Finset.Subset.refl _) fun _ => hfree)
  refine ⟨t, D', hrun, ⟨h.rebase, h.size.symm ▸ hs.log, hs.bits⟩, htree, h.procs, fun g len hg hgoff hlen => ?_⟩
  have hhas : Has t [] ip (s.inode ip).inum := by
    refine .inr ⟨?_, h.cached.kept ip href⟩
    have := h.cached.refs ip
    exact (this.trans (add_zero _)).symm ▸ href
  have hn' : tree sb D' none (s.inode ip).inum = some { n with data := overlay n.data off (src.take (fitLen off src.length)) } := by
    rw [htree, update_self]
  obtain ⟨_, t', hrun', rfl, -⟩ := run_full lim pid (h.rebase.runs_fileRead hhas (notMem_empty ip) hg hgoff hn' hdev len)
  refine ⟨t', hrun'.trans ?_⟩
  have hmax := h.lays.length_le hn'
  have hlen' := length_overlay (src.take (fitLen off src.length)) hle
  rw [readSpec, if_neg]
  rw [maxSize_eq] at hmax
  dsimp only at hmax ⊢
  rw [Nat.mod_eq_of_lt (by omega)]
  omega

open scoped FileSystem.Sizes Fs.Sizes in
def smallOpen : FS :=
  let s := (FS.ready smallDisk false).setInode 0 ⟨2, 1, false, false, smallFile⟩
  { s with procs := { s.procs with files := s.procs.files.setFile 0 ⟨.inode, 1, true, true, none, some 0, 0⟩ } }

theorem idle_smallOpen : Idle 1014 mkfsSb ∅ smallDisk smallOpen := by
  have hinode : ∀ ip, smallOpen.inode ip = if ip = 0 then ⟨2, 1, false, false, smallFile⟩ else ⟨0, 0, false, false, ⟨0, 0, 0, 0, 0, fun _ => 0⟩⟩ :=
    fun ip => update_apply ..
  have hpos : ∀ ip, 0 < (smallOpen.inode ip).ref → ip = 0 := fun ip hip => by
    by_contra hne
    rw [hinode, if_neg hne] at hip
    exact lt_irrefl _ hip
  have hbusy : ∀ ip, (smallOpen.inode ip).busy = false := fun ip => by
    rw [hinode]
    split_ifs <;> rfl
  refine ⟨⟨shows_smallDisk, rfl, lays_smallDisk, ⟨fun ip => ?_, fun _ => (add_zero _).symm, fun _ _ => rfl, nofun, fun ip => ?_, nofun,
    fun ip jp hi hj _ => (hpos ip hi).trans (hpos jp hj).symm, fun ip hi hv => ?_⟩, rfl, rfl, rfl, rfl⟩, by decide, by decide⟩
  · rw [hinode]
    split_ifs <;> decide
  · rw [hbusy]
    exact iff_of_false Bool.false_ne_true (notMem_empty ip)
  · rw [hpos ip hi] at hv
    cases hv

theorem file_write_chunks_small : ∃ t D', ((fileWrite 0 [97]).run (sem 2)).run smallOpen = (.ok true, t) ∧ Idle 1014 mkfsSb ∅ D' t := by
  have hfree : need smallDisk (dinodeAt smallDisk 2) (writeSlots 0 (fitLen 0 1)) ≤ (freeBlocks 1014 mkfsSb smallDisk).card :=
    (card_filter_le ..).trans (le_trans (show _ ≤ 1 by decide) (card_pos.mpr ⟨100, free_smallDisk⟩))
  obtain ⟨t, D', hr, hi, -⟩ := file_write_chunks (f := 0) 2 [97] idle_smallOpen rfl (by decide) rfl tree_smallFile (by decide) (Nat.zero_le _) hfree
  exact ⟨t, D', hr, hi⟩

end MCertiKOS.FileSystem.Fs
