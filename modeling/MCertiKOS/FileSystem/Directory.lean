import MCertiKOS.FileSystem.FileWrite
import MCertiKOS.Library.Slots

/-!
# Directories

A directory is a file of entries of `DESIZE` bytes, and those with inode number
`0` are holes: it keeps a finite map from names to inode numbers in a row of slots.
`dir_lookup` looks a name up in that map, `dir_link` adds one, and writing an
entry of zeros, as `sys_unlink` does, removes it.
-/

namespace MCertiKOS.FileSystem.Fs

open Library List Slots

/-! ### Entries -/

/-- What `dir_namecmp` compares: a name up to its terminating zero, `DIRSIZ` bytes of it at most. -/
def nameKey (name : List UInt8) : List UInt8 := cString (name.take DIRSIZ)

theorem strncmpEq_iff (s t : List UInt8) (n : ℕ) : strncmpEq s t n = true ↔ cString (s.take n) = cString (t.take n) := by
  induction n generalizing s t with
  | zero => simp [strncmpEq]
  | succ n ih =>
    unfold strncmpEq
    cases s with
    | nil =>
      cases t with
      | nil => simp [cString]
      | cons b t =>
        by_cases hb : b = 0
        · simp [cString, hb]
        · simp [cString, hb, Ne.symm hb]
    | cons a s =>
      by_cases ha : a = 0
      · cases t with
        | nil => simp [cString, ha]
        | cons b t =>
          by_cases hb : b = 0
          · simp [cString, ha, hb]
          · simp [cString, ha, hb, Ne.symm hb]
      · cases t with
        | nil => simp [cString, ha]
        | cons b t =>
          by_cases hab : a = b
          · subst hab
            simp only [headD_cons, tail_cons, ne_eq, ha, not_false_eq_true, and_self, if_true, ih, take_succ_cons]
            simp [cString, ha]
          · by_cases hb : b = 0
            · simp [cString, ha, hb]
            · simp [cString, ha, hb, hab]

theorem dirNamecmp_iff (s t : List UInt8) : dirNamecmp s t = true ↔ nameKey s = nameKey t := strncmpEq_iff s t DIRSIZ

/-- The slot that `DESIZE` bytes are. -/
def slotOf (bs : List UInt8) : Option (List UInt8 × ℕ) :=
  if (getDirent bs).inum = 0 then none else some (nameKey (getDirent bs).name, (getDirent bs).inum)

/-- The slots of a directory with the contents `bs`. -/
def slotsOf (bs : List UInt8) : List (Option (List UInt8 × ℕ)) :=
  (List.range (bs.length / DESIZE)).map fun k => slotOf ((bs.drop (DESIZE * k)).take DESIZE)

theorem length_slotsOf (bs : List UInt8) : (slotsOf bs).length = bs.length / DESIZE := by
  rw [slotsOf, length_map, length_range]

variable {bs e : List UInt8} {inum : ℕ} {v : InodePtr → Inode}

theorem drop_slotsOf {k : ℕ} (hk : k < bs.length / DESIZE) :
    (slotsOf bs).drop k = slotOf ((bs.drop (DESIZE * k)).take DESIZE) :: (slotsOf bs).drop (k + 1) := by
  rw [drop_eq_getElem_cons (by rwa [length_slotsOf])]
  simp [slotsOf]

theorem length_direntBytes (inum : ℕ) (name : List UInt8) : (direntBytes inum name).length = DESIZE := by
  simp only [direntBytes, length_append, length_cons, length_nil, length_take, length_replicate]
  unfold DESIZE DIRSIZ
  omega

theorem slotOf_direntBytes (h0 : 0 < inum) (hlt : inum < 2 ^ 16) (name : List UInt8) :
    slotOf (direntBytes inum name) = some (nameKey name, inum) := by
  have hinum : (getDirent (direntBytes inum name)).inum = inum := by
    show (UInt8.ofNat inum).toNat + 256 * (UInt8.ofNat (inum / 256)).toNat = inum
    rw [UInt8.toNat_ofNat', UInt8.toNat_ofNat']
    omega
  have hname : nameKey (getDirent (direntBytes inum name)).name = nameKey name := by
    show cString (((name.take DIRSIZ ++ List.replicate (DIRSIZ - name.length) 0).take DIRSIZ).take DIRSIZ) = _
    rw [take_take, Nat.min_self, nameKey]
    rcases le_total DIRSIZ name.length with h | h
    · rw [Nat.sub_eq_zero_of_le h, replicate_zero, append_nil, take_take, Nat.min_self]
    · rw [take_of_length_le h, take_of_length_le (by simp [h])]
      cases hz : DIRSIZ - name.length with
      | zero => rw [replicate_zero, append_nil]
      | succ m => rw [replicate_succ, cString_append_zero]
  rw [slotOf, hinum, if_neg (by omega), hname]

theorem slotOf_zero : slotOf (List.replicate DESIZE 0) = none := by decide

theorem slotsOf_append {a : List UInt8} (ha : DESIZE ∣ a.length) (b : List UInt8) : slotsOf (a ++ b) = slotsOf a ++ slotsOf b := by
  obtain ⟨m, hm⟩ := ha
  have hdiv : (DESIZE * m) / DESIZE = m := Nat.mul_div_cancel_left m (by decide)
  have hdiv' : (a ++ b).length / DESIZE = m + b.length / DESIZE := by
    rw [length_append, hm, Nat.mul_add_div (by decide)]
  unfold slotsOf
  rw [hdiv', hm, hdiv, range_add, map_append, map_map]
  congr 1
  · refine map_congr_left fun k hk => ?_
    have hk : DESIZE * (k + 1) ≤ DESIZE * m := Nat.mul_le_mul_left _ (mem_range.mp hk)
    rw [Nat.mul_succ] at hk
    rw [drop_append_of_le_length (by omega), take_append_of_le_length (by rw [length_drop]; omega)]
  · refine map_congr_left fun k _ => ?_
    show slotOf (((a ++ b).drop (DESIZE * (m + k))).take DESIZE) = _
    rw [Nat.mul_add, ← hm, drop_length_add_append]

theorem slotsOf_single (he : e.length = DESIZE) : slotsOf e = [slotOf e] := by
  unfold slotsOf
  rw [he, Nat.div_self (by decide), range_one, map_singleton, Nat.mul_zero, drop_zero, take_of_length_le he.le]

theorem slotsOf_split {k : ℕ} (hk : DESIZE * k ≤ bs.length) :
    slotsOf (bs.take (DESIZE * k)) = (slotsOf bs).take k ∧ slotsOf (bs.drop (DESIZE * k)) = (slotsOf bs).drop k := by
  have hlen : (bs.take (DESIZE * k)).length = DESIZE * k := length_take_of_le hk
  have happ := slotsOf_append (hlen ▸ Nat.dvd_mul_right ..) (bs.drop (DESIZE * k))
  have hk' : (slotsOf (bs.take (DESIZE * k))).length = k := by
    rw [length_slotsOf, hlen, Nat.mul_div_cancel_left k (by decide)]
  rw [take_append_drop] at happ
  rw [happ]
  exact ⟨(take_left' hk').symm, (drop_left' hk').symm⟩

theorem slotsOf_overlay {k : ℕ} (he : e.length = DESIZE) (hk : k < bs.length / DESIZE ∨ DESIZE * k = bs.length) :
    slotsOf (overlay bs (DESIZE * k) e) = put (slotsOf bs) k (slotOf e) := by
  have hmul := Nat.mul_div_le bs.length DESIZE
  have hoff : DESIZE * k ≤ bs.length := hk.elim (fun h => (Nat.mul_le_mul_left _ h.le).trans hmul) Nat.le_of_eq
  have htake : DESIZE ∣ (bs.take (DESIZE * k)).length := by
    rw [length_take_of_le hoff]
    exact Nat.dvd_mul_right ..
  unfold overlay put
  rw [append_assoc, slotsOf_append htake, slotsOf_append (he ▸ Nat.dvd_refl _), slotsOf_single he, he, ← Nat.mul_succ,
    (slotsOf_split hoff).1, length_slotsOf]
  rcases hk with hk | hk
  · rw [if_pos hk, set_eq_take_append_cons_drop, if_pos (by rwa [length_slotsOf]),
      (slotsOf_split ((Nat.mul_le_mul_left _ hk).trans hmul)).2]
    rfl
  · have hle : (slotsOf bs).length ≤ k := by
      rw [length_slotsOf, ← hk, Nat.mul_div_cancel_left k (by decide)]
    rw [length_slotsOf] at hle
    rw [if_neg (by omega), take_of_length_le (by rwa [length_slotsOf]), drop_of_length_le (by rw [← hk, Nat.mul_succ]; omega)]
    rfl

/-! ### Going through the entries -/

/-- A directory of whole entries. -/
structure IsDir (n : Node) : Prop where
  type : n.type = T_DIR
  whole : DESIZE ∣ n.data.length

theorem IsDir.not_dev {n : Node} (h : IsDir n) : n.type ≠ T_DEV := by
  rw [h.type]
  decide

theorem entries_zero (size : ℕ) (h : DESIZE ∣ size) : entries size 0 = size / DESIZE := by
  obtain ⟨m, rfl⟩ := h
  unfold entries DESIZE
  omega

variable {M : Mode} {pid : ℕ} {sb : Superblock} {X : Finset ℕ} {u : Bool} {K K' : Finset ℕ} {D D' : Disk} {s₀ s t t' : FS}
  {L : List (InodePtr × ℕ)} {B : Finset InodePtr} {dp ip : InodePtr} {i j k m : ℕ} {S : Finset ℕ} {n : Node} {name : List UInt8}

theorem Sees.runs_entry (hs : Sees M u K [] D s t) (hl : Lays M.lim sb none X D) (hc : (s.inode dp).d = dinodeAt D i)
    (hn : tree sb D none i = some n) (hd : IsDir n) (hk : k < n.data.length / DESIZE) :
    (M.guard pid).Runs (inodeRead dp (DESIZE * k) DESIZE)
      (fun r t => r = some ((n.data.drop (DESIZE * k)).take DESIZE) ∧ Sees M u K [] D s t) t := by
  have hlen := hl.length_le hn
  have hle := (Nat.mul_le_mul_left DESIZE hk).trans (Nat.mul_div_le n.data.length DESIZE)
  rw [Nat.mul_succ] at hle
  have hspec : readSpec n.data (DESIZE * k) DESIZE = some ((n.data.drop (DESIZE * k)).take DESIZE) := by
    rw [maxSize_eq] at hlen
    rw [readSpec, Nat.mod_eq_of_lt (by omega), if_neg (by omega)]
  rw [← hspec]
  exact hs.runs_read hl hc hn hd.not_dev _ _

theorem Doing.runs_entry (h : Doing M sb X u K D s₀ L B t) (hip : Has s₀ L dp i) (hB : dp ∈ B) (hn : tree sb D none i = some n) (hd : IsDir n)
    (hk : k < n.data.length / DESIZE) : (M.guard pid).Runs (inodeRead dp (DESIZE * k) DESIZE)
      (fun r t => r = some ((n.data.drop (DESIZE * k)).take DESIZE) ∧ Doing M sb X u K D s₀ L B t) t :=
  (h.sees.runs_entry h.lays (h.copy_of_locked hip hB) hn hd hk).mono fun _ _ hr => ⟨hr.1, h.move hr.2⟩

theorem length_entry (n : Node) (hk : k < n.data.length / DESIZE) : ((n.data.drop (DESIZE * k)).take DESIZE).length = DESIZE := by
  have hle := (Nat.mul_le_mul_left DESIZE hk).trans (Nat.mul_div_le n.data.length DESIZE)
  rw [Nat.mul_succ] at hle
  rw [length_take, length_drop]
  omega

theorem Sees.runs_lookupLoop (hs : Sees M u K [] D s t) (hl : Lays M.lim sb none X D) (hc : (s.inode dp).d = dinodeAt D i)
    (hn : tree sb D none i = some n) (hd : IsDir n) (hm : k + m = n.data.length / DESIZE) :
    (M.guard pid).Runs (lookupLoop dp name m (DESIZE * k))
      (fun r t => r = (find (nameKey name) ((slotsOf n.data).drop k)).map (Prod.map id fun j => DESIZE * (k + j)) ∧
        Sees M u K [] D s t) t := by
  induction m generalizing k t with
  | zero =>
    rw [drop_of_length_le (by rw [length_slotsOf]; omega)]
    exact ⟨rfl, hs⟩
  | succ m ih =>
    have hk : k < n.data.length / DESIZE := by omega
    -- what the rest of the loop finds is found one slot further on
    have hnext : ∀ r : Option (ℕ × ℕ), (r.map (Prod.map id (· + 1))).map (Prod.map id fun j => DESIZE * (k + j)) =
        r.map (Prod.map id fun j => DESIZE * (k + 1 + j)) := fun r => by
      rw [Option.map_map]
      congr 1
      funext p
      simp only [Function.comp, Prod.map, id, Nat.add_comm, Nat.add_left_comm]
    unfold lookupLoop
    refine (hs.runs_entry hl hc hn hd hk).bind ?_
    rintro _ t ⟨rfl, hs⟩
    have hrest := ih (k := k + 1) hs (by omega)
    rw [drop_slotsOf hk, slotOf]
    dsimp only
    rw [if_neg (not_not.mpr (length_entry n hk))]
    by_cases hfree : (getDirent ((n.data.drop (DESIZE * k)).take DESIZE)).inum = 0
    · rw [if_pos hfree, if_pos hfree, find, hnext]
      exact hrest
    · rw [if_neg hfree, if_neg hfree, find]
      by_cases hname : dirNamecmp (getDirent ((n.data.drop (DESIZE * k)).take DESIZE)).name name = true
      · rw [if_pos hname, if_pos ((dirNamecmp_iff ..).mp hname)]
        exact ⟨rfl, hs⟩
      · rw [if_neg hname, if_neg fun e => hname ((dirNamecmp_iff ..).mpr e), hnext]
        exact hrest

section

variable (h : Doing M sb X u K D s₀ L B t) (hip : Has s₀ L dp i) (hB : dp ∈ B) (hn : tree sb D none i = some n) (hd : IsDir n)
    (hm : k + m = n.data.length / DESIZE)
include h hip hB hn hd hm

theorem Doing.runs_lookupLoop : (M.guard pid).Runs (lookupLoop dp name m (DESIZE * k))
      (fun r t => r = (find (nameKey name) ((slotsOf n.data).drop k)).map (Prod.map id fun j => DESIZE * (k + j)) ∧
        Doing M sb X u K D s₀ L B t) t :=
  (h.sees.runs_lookupLoop h.lays (h.copy_of_locked hip hB) hn hd hm).mono fun _ _ hr => ⟨hr.1, h.move hr.2⟩

theorem Doing.runs_freeLoop : (M.guard pid).Runs (freeLoop dp m (DESIZE * k))
      (fun r t => r = DESIZE * (k + hole ((slotsOf n.data).drop k)) ∧ Doing M sb X u K D s₀ L B t) t := by
  induction m generalizing k t with
  | zero =>
    rw [drop_of_length_le (by rw [length_slotsOf]; omega)]
    exact ⟨rfl, h⟩
  | succ m ih =>
    have hk : k < n.data.length / DESIZE := by omega
    unfold freeLoop
    refine (h.runs_entry hip hB hn hd hk).bind ?_
    rintro _ t ⟨rfl, h⟩
    have hrest := ih (k := k + 1) h (by omega)
    rw [drop_slotsOf hk, slotOf]
    dsimp only
    rw [if_neg (not_not.mpr (length_entry n hk))]
    by_cases hfree : (getDirent ((n.data.drop (DESIZE * k)).take DESIZE)).inum = 0
    · rw [if_pos hfree, if_pos hfree]
      exact ⟨rfl, h⟩
    · rw [if_neg hfree, if_neg hfree, hole, Nat.add_comm _ 1, ← Nat.add_assoc]
      exact hrest

end

/-! ### Names -/

def Node.lookup (n : Node) (name : List UInt8) : Option (ℕ × ℕ) := find (nameKey name) (slotsOf n.data)

/-- The directory with slot `k` overwritten by the bytes `e`. -/
def Node.setEntry (n : Node) (k : ℕ) (e : List UInt8) : Node := { n with data := overlay n.data (DESIZE * k) e }

section

variable (h : Doing M sb X u K D s₀ L B t)
include h

theorem Doing.runs_size (hip : Has s₀ L dp i) (hB : dp ∈ B) (hn : tree sb D none i = some n) :
    (M.guard pid).Runs (Code.op (.node dp)) (fun v t => (v.inum = i ∧ v.d.type = n.type ∧ v.d.size = n.data.length) ∧
      Doing M sb X u K D s₀ L B t) t := by
  refine (h.runs_fields hip hB).mono ?_
  rintro v t ⟨⟨hin, hd⟩, h⟩
  rw [hin, hd, type_of_tree hn, ← contents_of_tree hn, length_contents]
  exact ⟨⟨rfl, rfl, rfl⟩, h⟩

omit h in
theorem Doing.runs_dirLookup (name : List UInt8) (h : Doing M sb X u K D s₀ L B t) (hip : Has s₀ L dp i) (hB : dp ∈ B)
    (hn : tree sb D none i = some n) (hd : IsDir n) (hspare : M.total → n.lookup name ≠ none → L.length < (spare s₀).card) :
    (M.guard pid).Runs (dirLookup dp name) (fun r t => match n.lookup name with
      | none => r = none ∧ Doing M sb X u K D s₀ L B t
      | some (j, k) => ∃ ip, r = some (ip, DESIZE * k) ∧ (Has s₀ L ip j ∨ (t.inode ip).valid = false) ∧
          Doing M sb X u K D s₀ ((ip, j) :: L) B t) t := by
  unfold dirLookup
  refine (h.runs_size hip hB hn).bind ?_
  rintro v t ⟨⟨-, htype, hsize⟩, h⟩
  rw [htype, hd.type, if_neg (not_not.mpr rfl), hsize, entries_zero _ hd.whole]
  refine (h.runs_lookupLoop (k := 0) hip hB hn hd (Nat.zero_add _)).bind ?_
  rintro _ t ⟨rfl, h⟩
  rw [drop_zero]
  unfold Node.lookup at *
  cases hf : find (nameKey name) (slotsOf n.data) with
  | none => exact ⟨rfl, h⟩
  | some p =>
    obtain ⟨j, k⟩ := p
    show (M.guard pid).Runs (Code.op (.igetEntry dp name j) >>= fun ip => pure (some (ip, DESIZE * (0 + k)))) _ t
    rw [Nat.zero_add]
    have hget : (M.guard pid).Runs (Code.op (.igetEntry dp name j)) _ t :=
      Doing.runs_inodeGet rfl trivial h fun hm => hspare hm (by rw [hf]; nofun)
    exact hget.bind fun ip t h => ⟨ip, rfl, h⟩

section

variable (hip : Has s₀ L dp i) (hB : dp ∈ B) (hn : tree sb D none i = some n) (hd : IsDir n)
include hip hB hn hd

theorem Doing.runs_dirLink_old (hold : n.lookup name ≠ none) (hspare : M.total → L.length < (spare s₀).card) (inum : ℕ) :
    (M.guard pid).Runs (dirLink dp name inum) (fun r t => r = false ∧ Doing M sb X u K D s₀ L B t) t := by
  unfold dirLink
  refine (h.runs_dirLookup name hip hB hn hd fun hm _ => hspare hm).bind fun r t hr => ?_
  cases hf : n.lookup name with
  | none => exact absurd hf hold
  | some p =>
    obtain ⟨j, k⟩ := p
    rw [hf] at hr
    obtain ⟨ip, rfl, hhas, h⟩ := hr
    have herase : ((ip, j) :: L).erase (ip, j) = L := erase_cons_head ..
    -- it is not freed, since it has not been read or there is another reference
    have hlocked : ip ∈ B → Has s₀ L ip j := fun hb => hhas.resolve_right fun hv => by
      rw [(h.cached.locked ip hb).2] at hv
      cases hv
    rw [← herase] at hhas hlocked
    refine (h.runs_inodePut (mem_cons_self ..) hlocked (.inr hhas.symm)).bind fun _ t h => ?_
    rw [herase] at h
    exact ⟨rfl, h⟩

theorem Doing.runs_dirLink_new (hnew : n.lookup name = none) (hmax : n.data.length < MAXFILE * BSIZE)
    (hr : Room M sb u K D (dinodeAt D i) S) (hS : writeSlots (DESIZE * hole (slotsOf n.data)) DESIZE ⊆ S)
    (hK : M.tracked → iblock i ∈ K) (inum : ℕ) :
    (M.guard pid).Runs (dirLink dp name inum) (fun r t => r = true ∧ ∃ t₁ K' D', Changed M sb u X S dp i
      (n.setEntry (hole (slotsOf n.data)) (direntBytes inum name)) K D K' D' t₁ t ∧ Doing M sb X u K' D' s₀ L B t) t := by
  unfold dirLink
  refine (h.runs_dirLookup name hip hB hn hd fun _ hne => absurd hnew hne).bind fun r t hr' => ?_
  rw [hnew] at hr'
  obtain ⟨rfl, h⟩ := hr'
  refine (h.runs_size hip hB hn).bind ?_
  rintro v t ⟨⟨-, -, hsize⟩, h⟩
  rw [hsize, entries_zero _ hd.whole]
  refine (h.runs_freeLoop (k := 0) hip hB hn hd (Nat.zero_add _)).bind ?_
  rintro _ t ⟨rfl, h⟩
  rw [drop_zero, Nat.zero_add]
  have hhole := hole_le (slotsOf n.data)
  rw [length_slotsOf] at hhole
  have hoff : DESIZE * hole (slotsOf n.data) ≤ n.data.length := (Nat.mul_le_mul_left _ hhole).trans (Nat.mul_div_le ..)
  have hend : DESIZE * hole (slotsOf n.data) + DESIZE ≤ MAXFILE * BSIZE := by
    obtain ⟨m, hm⟩ := hd.whole
    rw [maxSize_eq] at hmax ⊢
    unfold DESIZE at *
    omega
  refine (h.runs_write hip hB hn hd.not_dev hoff (by rwa [length_direntBytes]) hr (fun x hlo hhi => ?_) hK).bind ?_
  · rw [length_direntBytes] at hhi
    exact (covers_writeSlots hlo hhi).mono hS
  rintro _ t' ⟨rfl, K', D', hc, h⟩
  rw [if_pos (by rw [length_direntBytes])]
  exact ⟨rfl, t, K', D', hc, h⟩

theorem Doing.runs_clear
    (hk : k < n.data.length / DESIZE) (hr : Room M sb u K D (dinodeAt D i) (writeSlots (DESIZE * k) DESIZE)) (hK : M.tracked → iblock i ∈ K) :
    (M.guard pid).Runs (inodeWrite dp (List.replicate DESIZE 0) (DESIZE * k)) (fun r t' => r = some DESIZE ∧ ∃ K' D',
      Changed M sb u X (writeSlots (DESIZE * k) DESIZE) dp i (n.setEntry k (List.replicate DESIZE 0)) K D K' D' t t' ∧
      Doing M sb X u K' D' s₀ L B t') t := by
  have hlen : (List.replicate DESIZE (0 : UInt8)).length = DESIZE := length_replicate
  have hle := (Nat.mul_le_mul_left DESIZE hk).trans (Nat.mul_div_le n.data.length DESIZE)
  rw [Nat.mul_succ] at hle
  refine (h.runs_write hip hB hn hd.not_dev (by omega) (hlen.symm ▸ hle.trans (h.lays.length_le hn)) hr
    (fun x hlo hhi => covers_writeSlots hlo (hlen ▸ hhi)) hK).mono fun r t' hr => ?_
  rwa [hlen] at hr

end

end

theorem card_entrySlots (k : ℕ) : (writeSlots (DESIZE * k) DESIZE).card ≤ 2 := by
  refine (Finset.card_le_card fun x hx => ?_).trans (Finset.card_le_two (a := dataSlot (DESIZE * k / BSIZE)) (b := NDIRECT))
  obtain ⟨j, hj, hx⟩ := Finset.mem_biUnion.mp hx
  have hblock : j / BSIZE = DESIZE * k / BSIZE := by
    obtain ⟨hlo, hhi⟩ := Finset.mem_Ico.mp hj
    unfold DESIZE BSIZE at *
    omega
  rw [hblock] at hx
  split_ifs at hx
  · exact Finset.mem_insert.mpr (.inl (Finset.mem_singleton.mp hx))
  · exact hx

theorem need_entrySlots {d : Dinode} (hm : Mapped D d) (hd : DESIZE ∣ d.size) (hk : k < d.size / DESIZE) :
    need D d (writeSlots (DESIZE * k) DESIZE) = 0 := by
  refine Finset.card_eq_zero.mpr (Finset.filter_eq_empty_iff.mpr fun x hx => ?_)
  obtain ⟨j, hj, hx⟩ := Finset.mem_biUnion.mp hx
  have h0 : blockNo D d (j / BSIZE) ≠ 0 := by
    refine hm _ ?_
    obtain ⟨hlo, hhi⟩ := Finset.mem_Ico.mp hj
    obtain ⟨m, hm⟩ := hd
    unfold DESIZE BSIZE at *
    omega
  split_ifs at hx with hlt
  · rwa [Finset.mem_singleton.mp hx]
  · rcases Finset.mem_insert.mp hx with rfl | hx
    · exact h0
    · rw [Finset.mem_singleton.mp hx, slot_last]
      exact last_ne_zero (by omega) h0

/-! ### A directory is a finite map -/

/-- A name of at most `DIRSIZ - 1` characters. -/
abbrev Name : Type := { name : List UInt8 // (0 : UInt8) ∉ name ∧ name.length < DIRSIZ }

theorem nameKey_name (name : Name) : nameKey name.1 = name.1 := by
  rw [nameKey, take_of_length_le name.2.2.le, cString_eq_self name.2.1]

/-- A directory whose entries have distinct names. -/
structure IsMap (n : Node) : Prop extends IsDir n where
  names : (keys (slotsOf n.data)).Nodup

theorem whole_setEntry (hd : IsDir n) (he : e.length = DESIZE) (hk : DESIZE * k ≤ n.data.length) : IsDir (n.setEntry k e) := by
  refine ⟨hd.type, ?_⟩
  show DESIZE ∣ (overlay n.data (DESIZE * k) e).length
  rw [length_overlay e hk, he, ← Nat.mul_succ]
  rcases le_total n.data.length (DESIZE * (k + 1)) with h | h
  · rw [max_eq_right h]
    exact Nat.dvd_mul_right ..
  · rw [max_eq_left h]
    exact hd.whole

theorem hole_slotsOf (hd : IsDir n) :
    hole (slotsOf n.data) < n.data.length / DESIZE ∨ DESIZE * hole (slotsOf n.data) = n.data.length := by
  have hle := hole_le (slotsOf n.data)
  rw [length_slotsOf] at hle
  rcases hle.lt_or_eq with h | h
  · exact .inl h
  · rw [h, Nat.mul_div_cancel' hd.whole]
    exact .inr rfl

theorem IsMap.add (hd : IsMap n) (name : Name) (hnew : n.lookup name.1 = none) (h0 : 0 < inum) (hlt : inum < 2 ^ 16) :
    IsMap (n.setEntry (hole (slotsOf n.data)) (direntBytes inum name.1)) ∧
      ∀ name' : Name, (n.setEntry (hole (slotsOf n.data)) (direntBytes inum name.1)).lookup name'.1 =
        if name' = name then some (inum, hole (slotsOf n.data)) else n.lookup name'.1 := by
  have hslots : slotsOf (n.setEntry (hole (slotsOf n.data)) (direntBytes inum name.1)).data = Slots.add (slotsOf n.data) name.1 inum := by
    refine (slotsOf_overlay (length_direntBytes ..) (hole_slotsOf hd.toIsDir)).trans ?_
    rw [slotOf_direntBytes h0 hlt, nameKey_name, Slots.add]
  unfold Node.lookup at *
  rw [nameKey_name] at hnew
  refine ⟨⟨whole_setEntry hd.toIsDir (length_direntBytes ..) ?_, ?_⟩, fun name' => ?_⟩
  · have := Nat.mul_div_le n.data.length DESIZE
    exact (hole_slotsOf hd.toIsDir).elim (fun h => (Nat.mul_le_mul_left _ h.le).trans this) Nat.le_of_eq
  · rw [hslots]
    exact nodup_add hd.names hnew inum
  · rw [hslots, nameKey_name, find_add hnew]
    simp only [Subtype.ext_iff]

theorem IsMap.clear (hd : IsMap n) (name : Name) (hold : n.lookup name.1 = some (inum, k)) :
    k < n.data.length / DESIZE ∧ IsMap (n.setEntry k (List.replicate DESIZE 0)) ∧
      ∀ name' : Name, (n.setEntry k (List.replicate DESIZE 0)).lookup name'.1 = if name' = name then none else n.lookup name'.1 := by
  unfold Node.lookup at *
  rw [nameKey_name] at hold
  have hk : k < n.data.length / DESIZE := by
    rw [← length_slotsOf]
    exact (List.getElem?_eq_some_iff.mp ((Slots.find_eq_some hd.names).mp hold)).1
  have hslots : slotsOf (n.setEntry k (List.replicate DESIZE 0)).data = Slots.clear (slotsOf n.data) k := by
    refine (slotsOf_overlay length_replicate (.inl hk)).trans ?_
    rw [slotOf_zero, Slots.put, length_slotsOf, if_pos hk, Slots.clear]
  refine ⟨hk, ⟨whole_setEntry hd.toIsDir length_replicate ((Nat.mul_le_mul_left _ hk.le).trans (Nat.mul_div_le ..)), ?_⟩, fun name' => ?_⟩
  · rw [hslots]
    exact Slots.nodup_clear hd.names k
  · rw [hslots, nameKey_name, Slots.find_clear hd.names hold]
    simp only [Subtype.ext_iff]

/-- A directory that is locked. `dir_lookup` returns the inode number that is stored under the name, and the place of the entry;
`dir_link` does nothing if the name is there, and adds it otherwise; and a name is removed by clearing its entry. No other names
are affected. An entry of the inode cache is to be free; a transaction can log four sectors more. -/
theorem directory_map (pid : ℕ) (name : Name) {lim : ℕ} (hs : Doing (full lim) sb X u K D s [] B s) (hB : dp ∈ B)
    (hn : tree sb D none (s.inode dp).inum = some n) (hd : IsMap n) (hspare : ∃ ip, (s.inode ip).ref = 0) :
    (match n.lookup name.1 with
      | none => ∃ t, ((dirLookup dp name.1).run (sem pid)).run s = (.ok none, t) ∧ Doing (full lim) sb X u K D s [] B t
      | some (inum, k) => ∃ ip t, ((dirLookup dp name.1).run (sem pid)).run s = (.ok (some (ip, DESIZE * k)), t) ∧
          (t.inode ip).inum = inum ∧ Doing (full lim) sb X u K D s [(ip, inum)] B t) ∧
      (∀ inum k, n.lookup name.1 = some (inum, k) ↔ (slotsOf n.data)[k]? = some (some (name.1, inum))) ∧
      (n.lookup name.1 ≠ none → ∀ inum, ∃ t, ((dirLink dp name.1 inum).run (sem pid)).run s = (.ok false, t) ∧
        Doing (full lim) sb X u K D s [] B t) ∧
      (u = true → sb.size ≤ BPB → K.card + 4 ≤ LOGSIZE - 2 →
        (n.lookup name.1 = none → ∀ inum, 0 < inum → inum < 2 ^ 16 → n.data.length < MAXFILE * BSIZE →
          need D (dinodeAt D (s.inode dp).inum) (writeSlots (DESIZE * hole (slotsOf n.data)) DESIZE) ≤ (freeBlocks lim sb D).card →
          ∃ t K' D' n', ((dirLink dp name.1 inum).run (sem pid)).run s = (.ok true, t) ∧ Doing (full lim) sb X u K' D' s [] B t ∧
            tree sb D' none = Function.update (tree sb D none) (s.inode dp).inum (some n') ∧ IsMap n' ∧
            ∀ name' : Name, n'.lookup name'.1 = if name' = name then some (inum, hole (slotsOf n.data)) else n.lookup name'.1) ∧
        ∀ inum k, n.lookup name.1 = some (inum, k) →
          ∃ t K' D' n', ((inodeWrite dp (List.replicate DESIZE 0) (DESIZE * k)).run (sem pid)).run s = (.ok (some DESIZE), t) ∧
            Doing (full lim) sb X u K' D' s [] B t ∧ tree sb D' none = Function.update (tree sb D none) (s.inode dp).inum (some n') ∧
            IsMap n' ∧ ∀ name' : Name, n'.lookup name'.1 = if name' = name then none else n.lookup name'.1) := by
  have hhas : Has s [] dp (s.inode dp).inum := .inr ⟨(hs.cached.locked dp hB).1, rfl⟩
  have hcard : ([] : List (InodePtr × ℕ)).length < (spare s).card := by
    obtain ⟨ip, hip⟩ := hspare
    exact Finset.card_pos.mpr ⟨ip, Finset.mem_filter.mpr ⟨Finset.mem_univ ip, hip⟩⟩
  refine ⟨?_, fun inum k => ?_, fun hold inum => ?_, fun hu hbits hK => ⟨fun hnew inum h0 hlt hmax hfree => ?_, fun inum k hold => ?_⟩⟩
  · obtain ⟨r, t, hrun, hr⟩ := run_full lim pid (hs.runs_dirLookup name.1 hhas hB hn hd.toIsDir fun _ _ => hcard)
    cases hf : n.lookup name.1 with
    | none =>
      rw [hf] at hr
      obtain ⟨rfl, h⟩ := hr
      exact ⟨t, hrun, h⟩
    | some p =>
      obtain ⟨inum, k⟩ := p
      rw [hf] at hr
      obtain ⟨ip, rfl, -, h⟩ := hr
      exact ⟨ip, t, hrun, h.cached.held _ (mem_singleton_self _), h⟩
  · rw [Node.lookup, nameKey_name]
    exact find_eq_some hd.names
  · obtain ⟨_, t, hrun, rfl, h⟩ := run_full lim pid (hs.runs_dirLink_old hhas hB hn hd.toIsDir hold (fun _ => hcard) inum)
    exact ⟨t, hrun, h⟩
  · subst hu
    have hS := card_entrySlots (hole (slotsOf n.data))
    obtain ⟨K₁, hi, -, hroom, h⟩ := hs.room (i := (s.inode dp).inum) hbits (fun _ => by omega) (fun _ => hfree) nofun
    obtain ⟨_, t, hrun, rfl, t₁, K', D', hc, h⟩ := run_full lim pid (h.runs_dirLink_new hhas hB hn hd.toIsDir hnew hmax hroom
      (Finset.Subset.refl _) (fun _ => hi) inum)
    exact ⟨t, K', D', _, hrun, h, hc.tree, hd.add name hnew h0 hlt⟩
  · subst hu
    obtain ⟨hk, hmap⟩ := hd.clear name hold
    have hS := card_entrySlots k
    obtain ⟨hi, ht, rfl⟩ := tree_some hn
    have hsize : (nodeOf D (dinodeAt D (s.inode dp).inum)).data.length = (dinodeAt D (s.inode dp).inum).size := length_contents
    have hneed := need_entrySlots (hs.lays.mapped _ hi nofun ht) (hsize ▸ hd.whole) (hsize ▸ hk)
    obtain ⟨K₁, hi, -, hroom, h⟩ := hs.room (i := (s.inode dp).inum) hbits (fun _ => by omega) (fun _ => hneed.trans_le (Nat.zero_le _)) nofun
    obtain ⟨_, t, hrun, rfl, K', D', hc, h⟩ := run_full lim pid (h.runs_clear hhas hB hn hd.toIsDir hk hroom fun _ => hi)
    exact ⟨t, K', D', _, hrun, h, hc.tree, hmap⟩

theorem slots_smallRoot : slotsOf (contents smallDisk smallRoot) = [some (dot, 1), some (dotdot, 1), some ([102], 2)] ++ List.replicate 29 none := by
  decide +kernel

def smallRootNode : Node := ⟨T_DIR, 0, 0, 1, contents smallDisk smallRoot⟩

theorem tree_smallRoot : tree mkfsSb smallDisk none 1 = some smallRootNode := by
  have htype : (dinodeAt smallDisk 1).type ≠ 0 := by
    rw [dinodeAt_smallDisk_root]
    decide
  refine (tree_of (P := none) (by decide) htype).trans ?_
  show some (nodeOf smallDisk (dinodeAt smallDisk 1)) = _
  rw [dinodeAt_smallDisk_root]
  rfl

theorem isMap_smallRoot : IsMap smallRootNode := by
  refine ⟨⟨rfl, ?_⟩, ?_⟩
  · exact length_contents.symm ▸ (by decide : DESIZE ∣ 512)
  · show (keys (slotsOf (contents smallDisk smallRoot))).Nodup
    rw [slots_smallRoot]
    decide

open scoped Fs.Sizes in
/-- The small disk, with the root locked in entry `0` of the inode cache, in a transaction. The other entries are as `v` says. -/
def smallLocked (v : InodePtr → Inode) : FS :=
  { FS.ready smallDisk true with inode := fun ip => if ip = 0 then ⟨1, 1, true, true, smallRoot⟩ else v ip }

theorem cached_smallRoot (locked : Bool) (hv : ∀ ip, 0 ≤ (v ip).ref ∧ (v ip).busy = false ∧ (v ip).valid = false)
    (huniq : ∀ ip jp, 0 < (v ip).ref → (v ip).inum ≠ 1 ∧ (0 < (v jp).ref → (v ip).inum = (v jp).inum → ip = jp)) :
    Cached mkfsSb smallDisk (fun ip => if ip = 0 then ⟨1, 1, locked, true, smallRoot⟩ else v ip) [] (if locked then {0} else ∅)
      (fun ip => if ip = 0 then ⟨1, 1, locked, true, smallRoot⟩ else v ip) := by
  refine ⟨fun ip => ?_, fun _ => (add_zero _).symm, fun _ _ => rfl, nofun, fun ip => ?_, fun ip hip => ?_, fun ip jp hi hj e => ?_,
    fun ip hi hvalid => ?_⟩
  · split_ifs
    · exact Int.one_nonneg
    · exact (hv ip).1
  · by_cases h : ip = 0
    · rw [if_pos h, h]
      cases locked <;> simp
    · rw [if_neg h, (hv ip).2.1]
      cases locked <;> simp [h]
  · obtain rfl : ip = 0 := by
      cases locked
      · exact absurd hip (Finset.notMem_empty ip)
      · exact Finset.mem_singleton.mp hip
    rw [if_pos rfl]
    exact ⟨Int.one_pos, rfl⟩
  · split_ifs at hi hj e with h h' h'
    · rw [h, h']
    · exact absurd e.symm (huniq jp jp hj).1
    · exact absurd e (huniq ip ip hi).1
    · exact (huniq ip jp hi).2 hj e
  · split_ifs at hi hvalid ⊢ with h
    · exact ⟨by rw [tree_smallRoot]; nofun, dinodeAt_smallDisk_root.symm⟩
    · rw [(hv ip).2.2] at hvalid
      cases hvalid

theorem doing_smallLocked (hv : ∀ ip, 0 ≤ (v ip).ref ∧ (v ip).busy = false ∧ (v ip).valid = false)
    (huniq : ∀ ip jp, 0 < (v ip).ref → (v ip).inum ≠ 1 ∧ (0 < (v jp).ref → (v ip).inum = (v jp).inum → ip = jp)) :
    Doing (full 1014) mkfsSb ∅ true ∅ smallDisk (smallLocked v) [] {0} (smallLocked v) :=
  ⟨shows_smallDisk, rfl, lays_smallDisk, cached_smallRoot true hv huniq, rfl, rfl, rfl, rfl⟩

def vacant (_ : InodePtr) : Inode := ⟨0, 0, false, false, smallFile⟩

theorem directory_map_small :
    (∃ ip t, ((dirLookup 0 [102]).run (sem 2)).run (smallLocked vacant) = (.ok (some (ip, 32)), t) ∧ (t.inode ip).inum = 2) ∧
      ∃ t, ((dirLink 0 [103] 3).run (sem 2)).run (smallLocked vacant) = (.ok true, t) := by
  have hs : Doing (full 1014) mkfsSb ∅ true ∅ smallDisk (smallLocked vacant) [] {0} (smallLocked vacant) :=
    doing_smallLocked (fun ip => ⟨le_rfl, rfl, rfl⟩) fun ip _ hip => absurd hip (lt_irrefl 0)
  have hmap := fun name : Name => directory_map 2 name hs (Finset.mem_singleton_self 0) tree_smallRoot isMap_smallRoot ⟨1, rfl⟩
  have hlook : ∀ name : Name, smallRootNode.lookup name.1 =
      find (nameKey name.1) ([some (dot, 1), some (dotdot, 1), some ([102], 2)] ++ List.replicate 29 none) := fun name => by
    rw [← slots_smallRoot]
    rfl
  have hf := (hmap ⟨[102], by decide⟩).1
  have hg := (hmap ⟨[103], by decide⟩).2.2.2 rfl (by decide) (by decide)
  rw [hlook] at hf
  rw [hlook] at hg
  have hneed : need smallDisk (dinodeAt smallDisk 1) (writeSlots (DESIZE * hole (slotsOf smallRootNode.data)) DESIZE) = 0 := by
    have hhole : hole (slotsOf smallRootNode.data) = 3 := (congrArg hole slots_smallRoot).trans rfl
    rw [hhole]
    refine need_entrySlots (lays_smallDisk.mapped 1 (by decide) nofun ?_) ?_ ?_
    · show (dinodeAt smallDisk 1).type ≠ 0
      rw [dinodeAt_smallDisk_root]
      decide
    · rw [dinodeAt_smallDisk_root]
      decide
    · rw [dinodeAt_smallDisk_root]
      decide
  obtain ⟨ip, t, hrun, hin, -⟩ := hf
  obtain ⟨t', -, -, -, hrun', -⟩ := hg.1 (by decide) 3 (by decide) (by decide) (length_contents.trans_lt (by decide))
    (hneed.trans_le (Nat.zero_le _))
  exact ⟨⟨ip, t, hrun, hin⟩, t', hrun'⟩

def crowd (ip : InodePtr) : Inode := ⟨10 + ip, 1, false, false, smallFile⟩

/-- The name `f` is there, but there is no entry in the inode cache. -/
theorem directory_map_crowded :
    Doing (full 1014) mkfsSb ∅ true ∅ smallDisk (smallLocked crowd) [] {0} (smallLocked crowd) ∧
      tree mkfsSb smallDisk none ((smallLocked crowd).inode 0).inum = some smallRootNode ∧ IsMap smallRootNode ∧
      (((dirLookup 0 [102]).run (sem 2)).run (smallLocked crowd)).1 matches .error .inodeGet := by
  refine ⟨doing_smallLocked (fun _ => ⟨Int.one_nonneg, rfl, rfl⟩) fun ip jp _ => ⟨?_, fun _ e => ?_⟩, tree_smallRoot, isMap_smallRoot, ?_⟩
  · show 10 + ip.val ≠ 1
    omega
  · exact Fin.ext (Nat.add_left_cancel e)
  · decide +kernel

end MCertiKOS.FileSystem.Fs
