import MCertiKOS.FileSystem.Walk

/-!
# Links

What `ip->nlink++` and `ip->nlink--` do to the disk, and `sys_link` when it fails. It counts
the link before it looks for the directory of the new name, and takes it back on the way out
(`linkBad`). In between the number of links on disk is one too large; it may be `0`, since
it has 16 bits, but the call has a reference then.
-/

namespace MCertiKOS.FileSystem.Fs

open Library Finset
open Function (update update_eq_self_iff update_idem update_of_ne update_self)

variable {M : Mode} {pid lim : ℕ} {sb : Superblock} {X : Finset ℕ} {u : Bool} {K : Finset ℕ} {D : Disk} {s₀ s t : FS}
  {L : List (InodePtr × ℕ)} {B : Finset InodePtr} {ip dp : InodePtr} {i j : ℕ} {n : Node} {d d' : Dinode}

/-! ### Fields of an inode -/

/-- The inodes have the same type and the same blocks. -/
structure SameBlocks (d d' : Dinode) : Prop where
  type : d'.type = d.type
  size : d'.size = d.size
  addrs : d'.addrs = d.addrs

def Node.withMeta (n : Node) (d : Dinode) : Node := { n with major := d.major, minor := d.minor, nlink := d.nlink }

theorem SameBlocks.slot (h : SameBlocks d d') (k : ℕ) : slot D d' k = Fs.slot D d k := by
  unfold Fs.slot
  rw [h.addrs]

theorem SameBlocks.contents (h : SameBlocks d d') : contents D d' = Fs.contents D d := by
  unfold Fs.contents fileByte blockNo
  simp only [h.slot, h.size]

theorem SameBlocks.mapped (h : SameBlocks d d') (hm : Mapped D d) : Mapped D d' := fun bn hbn => by
  rw [blockNo, h.slot]
  exact hm bn (h.size ▸ hbn)

theorem Lays.storeMeta (h : Lays lim sb none X D) (hn : tree sb D none i = some n) (hfits : d'.Fits) (hs : SameBlocks (dinodeAt D i) d') :
    Lays lim sb none X (stored D i d') ∧ tree sb (stored D i d') none = update (tree sb D none) i (some (n.withMeta d')) := by
  obtain ⟨hi, ht, rfl⟩ := tree_some hn
  have ht' : d'.type ≠ 0 := hs.type ▸ ht
  have hpend := (h.begin hi).setMeta hfits hs.addrs (by rw [hs.type])
  obtain ⟨hl, htree⟩ := hpend.store fun _ => hs.mapped (h.mapped i hi nofun ht)
  refine ⟨hl, htree.trans ?_⟩
  funext j
  by_cases hj : j = i
  · subst hj
    rw [update_self, tree_pending hi ht']
    unfold Node.withMeta nodeOf
    rw [hs.type, hs.contents]
  · rw [update_of_ne hj, Lays.tree_change hj, Lays.tree_dinodeAt]

theorem Doing.runs_meta (h : Doing M sb X u K D s₀ L B t) (hip : Has s₀ L ip i) (hn : tree sb D none i = some n)
    (hfits : d'.Fits) (hs : SameBlocks (dinodeAt D i) d') (htotal : M.total → u = true) (hK : M.tracked → iblock i ∈ K) :
    (M.guard pid).Runs (Code.op (.setNode ip d') >>= fun _ => inodeUpdate ip)
      (fun _ t => Doing M sb X u K (stored D i d') s₀ L B t) t := by
  obtain ⟨hi, -, -⟩ := tree_some hn
  obtain ⟨hlays, htree⟩ := h.lays.storeMeta hn hfits hs
  have hself : dinodeAt (stored D i d') i = d' := by rw [dinodeAt_stored hfits, if_pos rfl]
  refine (runs_setNode h.sees d').bind fun _ t' hs' => ?_
  have hin : ((t.setD ip d').inode ip).inum = i := by
    rw [FS.setD_inode_self]
    exact h.inum_of_has hip
  have hd : ((t.setD ip d').inode ip).d = d' := by rw [FS.setD_inode_self]
  refine (runs_inodeUpdate hs' hin hd ((iblock_lt_dataStart hi).trans_le h.lays.area.1) htotal hK).mono fun _ t'' hs'' => ?_
  refine ⟨hs''.shows, hs''.size.trans h.size, hlays, ?_, hs''.rest.procs.trans h.procs, hs''.rest.cwd.trans h.cwd,
    hs''.rest.first.trans h.first, hs''.rest.dead.trans h.dead⟩
  rw [hs''.rest.inode]
  have hother : ∀ j < sb.ninodes, j ≠ i → dinodeAt (stored D i d') j = dinodeAt D j := fun j _ hj => by
    rw [dinodeAt_stored hfits, if_neg hj]
  have hdisk := h.cached.disk (h.inum_of_has hip) (h.pos_of_has hip) hother (fun j hj => by rw [htree, update_of_ne hj])
    (by rw [htree, update_self]; nofun)
  rwa [hself] at hdisk

theorem Dinode.Fits.withLinks (h : d.Fits) {k : ℕ} (hk : k < 2 ^ 16) : ({ d with nlink := k } : Dinode).Fits :=
  ⟨h.type, h.major, h.minor, hk, h.size, h.addrs⟩

theorem Dinode.Fits.incLink (h : d.Fits) : d.incLink.Fits := h.withLinks (by omega)

theorem Dinode.Fits.decLink (h : d.Fits) : d.decLink.Fits := by
  unfold Dinode.decLink
  exact h.withLinks (by omega)

theorem decLink_incLink (h : d.Fits) : d.incLink.decLink = d := by
  have hlt := h.nlink
  unfold Dinode.incLink Dinode.decLink
  rw [show ((d.nlink + 1) % 2 ^ 16 + (2 ^ 16 - 1)) % 2 ^ 16 = d.nlink by omega]

section

variable (h : Doing M sb X u K D s₀ L B t) (hip : Has s₀ L ip i) (hB : ip ∈ B) (hn : tree sb D none i = some n)
    (htotal : M.total → u = true) (hK : M.tracked → iblock i ∈ K)
include h hip hB hn htotal hK

theorem Doing.runs_incLink : (M.guard pid).Runs (incLink ip)
      (fun _ t => Doing M sb X u K (stored D i (dinodeAt D i).incLink) s₀ L B t) t := by
  refine (h.runs_fields hip hB).bind ?_
  rintro v t ⟨⟨-, hd⟩, h⟩
  rw [hd]
  exact h.runs_meta hip hn (fits_getDinode ..).incLink ⟨rfl, rfl, rfl⟩ htotal hK

theorem Doing.runs_decLink : (M.guard pid).Runs (decLink ip)
      (fun _ t => Doing M sb X u K (stored D i (dinodeAt D i).decLink) s₀ L B t) t := by
  refine (h.runs_fields hip hB).bind ?_
  rintro v t ⟨⟨-, hd⟩, h⟩
  rw [hd]
  exact h.runs_meta hip hn (fits_getDinode ..).decLink ⟨rfl, rfl, rfl⟩ htotal hK

end

/-! ### `sys_link` -/

variable {total : Prop} {name : List UInt8}

theorem Linked.parent {cs : List (List UInt8)} (hl : Linked total sb D s) (hi : Kept total sb D s i)
    (hw : walkParent (tree sb D none) i cs = some (j, name)) : Kept total sb D s j ∧ ∃ n, dirAt (tree sb D none) j = some n := by
  obtain ⟨c, -, hw⟩ := Option.bind_eq_some_iff.mp hw
  obtain ⟨k, hk, hw⟩ := Option.bind_eq_some_iff.mp hw
  obtain ⟨n, hn, hw⟩ := Option.bind_eq_some_iff.mp hw
  obtain ⟨rfl, -⟩ := Prod.ext_iff.mp (Option.some.inj hw)
  exact ⟨hl.walk hi hk, n, hn⟩

theorem Linked.withMeta (hl : Linked total sb D s₀) (hroot : dirAt (tree sb D none) ROOTINO ≠ none)
    (hn : tree sb D none i = some n) (htype : n.type ≠ T_DIR) (hfits : d'.Fits)
    (htree : tree sb (stored D i d') none = update (tree sb D none) i (some (n.withMeta d')))
    (h : Doing M sb X u K (stored D i d') s₀ L B t) (hip : Has s₀ L ip i) : Linked total sb (stored D i d') t := by
  have hex : ∀ j, tree sb D none j ≠ none → tree sb (stored D i d') none j ≠ none := fun j hj => by
    rw [htree]
    by_cases e : j = i
    · rw [e, update_self]
      exact Option.some_ne_none _
    · rwa [update_of_ne e]
  have hdirs : dirAt (tree sb (stored D i d') none) = dirAt (tree sb D none) := funext fun j => by
    by_cases e : j = i
    · rw [e, dirAt_of_not_type hn htype]
      exact dirAt_of_not_type (n := n.withMeta d') (by rw [htree, update_self]) htype
    · rw [dirAt, htree, update_of_ne e]
      rfl
  have hne : ROOTINO ≠ i := fun e => hroot (by rw [e, dirAt_of_not_type hn htype])
  have hnode : ∀ j, j ≠ i → dinodeAt (stored D i d') j = dinodeAt D j := fun j hj => by rw [dinodeAt_stored hfits, if_neg hj]
  refine ⟨fun j m hm ht => ?_, fun j m name k x hm hf => ?_, hl.root.1, fun htotal => hex _ (hl.root.2.1 htotal), ?_⟩
  · exact hl.whole j m (dirAt_some (hdirs ▸ dirAt_of_type hm ht)).1 ht
  · rw [hdirs] at hm
    obtain ⟨hk, hused, hkeep⟩ := hl.target j m name k x hm hf
    refine ⟨hk, fun htotal => hex k (hused htotal), ?_⟩
    by_cases e : k = i
    · exact .inr ⟨ip, h.pos_of_has hip, e ▸ h.inum_of_has hip⟩
    · rw [hnode k e]
      refine hkeep.imp_right ?_
      rintro ⟨jp, hjp⟩
      exact ⟨jp, h.pos_of_has (.inr hjp), h.inum_of_has (.inr hjp)⟩
  · rw [hnode _ hne]
    exact hl.root.2.2

/-- The inodes are the same, and so are the contents of files and directories. -/
structure SameNodes (sb : Superblock) (D D' : Disk) : Prop where
  dinode : ∀ k, dinodeAt D' k = dinodeAt D k
  tree : tree sb D' none = tree sb D none

theorem SameNodes.refl : SameNodes sb D D := ⟨fun _ => rfl, rfl⟩

theorem Lays.restored (h : Lays lim sb none X D) (hn : tree sb D none i = some n) (hfits : d'.Fits) (hs : SameBlocks (dinodeAt D i) d') :
    SameNodes sb D (stored (stored D i d') i (dinodeAt D i)) := by
  obtain ⟨hl, htree⟩ := h.storeMeta hn hfits hs
  have hd : (dinodeAt D i).Fits := fits_getDinode ..
  have hself : dinodeAt (stored D i d') i = d' := by rw [dinodeAt_stored hfits, if_pos rfl]
  have hn' : Fs.tree sb (stored D i d') none i = some (n.withMeta d') := by rw [htree, update_self]
  have hback : SameBlocks (dinodeAt (stored D i d') i) (dinodeAt D i) := by
    rw [hself]
    exact ⟨hs.type.symm, hs.size.symm, hs.addrs.symm⟩
  refine ⟨fun k => ?_, (hl.storeMeta hn' hd hback).2.trans ?_⟩
  · rw [dinodeAt_stored hd, dinodeAt_stored hfits]
    split_ifs with e
    · rw [e]
    · rfl
  · rw [htree, update_idem]
    obtain ⟨-, -, rfl⟩ := tree_some hn
    exact update_eq_self_iff.mpr hn.symm

theorem Doing.runs_linkBad (h : Doing M sb X true K (stored D i (dinodeAt D i).incLink) s₀ [(ip, i)] ∅ t) (hlays : Lays M.lim sb none X D)
    (hn : tree sb D none i = some n) (hkeep : Kept M.total sb D s₀ i) (hK : M.tracked → iblock i ∈ K) :
    (M.guard pid).Runs (linkBad ip) (fun _ t => ∃ D', SameNodes sb D D' ∧ Doing M sb X false ∅ D' s₀ [] ∅ t) t := by
  have hip : Has s₀ [(ip, i)] ip i := .inl (List.mem_singleton_self _)
  have hd : (dinodeAt D i).Fits := fits_getDinode ..
  have htree := (hlays.storeMeta hn hd.incLink ⟨rfl, rfl, rfl⟩).2
  have hback := hlays.restored hn hd.incLink ⟨rfl, rfl, rfl⟩
  have hself : dinodeAt (stored D i (dinodeAt D i).incLink) i = (dinodeAt D i).incLink := by rw [dinodeAt_stored hd.incLink, if_pos rfl]
  have hn' : tree sb (stored D i (dinodeAt D i).incLink) none i = some (n.withMeta (dinodeAt D i).incLink) := by
    rw [htree, update_self]
  unfold linkBad
  refine (h.runs_inodeLock hip hkeep.lt (fun _ => by rw [hn']; nofun) fun _ => notMem_empty ip).bind fun _ t h => ?_
  refine (h.2.runs_decLink hip (mem_insert_self ..) hn' (fun _ => rfl) hK).bind fun _ t h => ?_
  rw [hself, decLink_incLink hd] at h
  refine (h.runs_giveBack (notMem_empty ip) ?_).bind fun _ t h => h.runs_commit.bind fun _ t h => ⟨_, hback, h⟩
  rw [dinodeAt_stored hd, if_pos rfl]
  exact hkeep.keep.imp_right h.has_of_used

theorem Doing.runs_dirLink_ok (h : Doing (reading lim) sb X u K D s₀ L B t) (hip : Has s₀ L dp i) (hB : dp ∈ B)
    (hn : tree sb D none i = some n) (hd : IsDir n) (hnew : n.lookup name = none) (inum : ℕ) :
    (anyGuard pid).Runs (dirLink dp name inum) (fun r _ => r = true) t := by
  unfold dirLink
  refine (runs_any_of_reading (h.runs_dirLookup name hip hB hn hd fun _ hne => absurd hnew hne)).bind fun r t hr => ?_
  rw [hnew] at hr
  obtain ⟨rfl, -⟩ := hr
  refine (runs_any _ t).bind fun v t _ => (runs_any _ t).bind fun off t _ => (runs_any _ t).bind fun r t _ => ?_
  split_ifs
  · exact rfl
  · exact fun _ => ⟨trivial, trivial⟩

theorem Doing.runs_sysLink (h : Doing (reading lim) sb X false K D s [] ∅ s) (hl : Linked False sb D s)
    (hroot : dirAt (tree sb D none) ROOTINO ≠ none) (hcwd : Cwd False sb D s pid i) (old new : List UInt8) :
    (anyGuard pid).Runs (sysLink old new)
      (fun e t => e ≠ .succ → ∃ K' D', SameNodes sb D D' ∧ Doing (reading lim) sb X false K' D' s [] ∅ t) s := by
  have hnone : ∀ ip : InodePtr, ip ∉ (∅ : Finset InodePtr) := notMem_empty
  unfold sysLink
  refine (runs_any_of_reading (h.runs_namei hl (userPath old) (fun _ => hcwd) False.elim)).bind fun r t hr => ?_
  cases hw : walk (tree sb D none) (startAt i (userPath old)) (components (userPath old)) with
  | none =>
    rw [hw] at hr
    obtain ⟨rfl, h⟩ := hr
    exact fun _ => ⟨K, D, .refl, h⟩
  | some j =>
    rw [hw] at hr
    obtain ⟨ip, rfl, h⟩ := hr
    have hkeep := hl.walk (hl.start fun _ => hcwd.kept) hw
    have hip : Has s [(ip, j)] ip j := .inl (List.mem_singleton_self _)
    refine (runs_any_of_reading (h.runs_begin False.elim)).bind fun _ t h => ?_
    refine (runs_any_of_reading (h.runs_inodeLock hip hkeep.lt False.elim False.elim)).bind ?_
    rintro _ t ⟨⟨hn, -⟩, h⟩
    obtain ⟨n, hn⟩ := Option.ne_none_iff_exists'.mp hn
    refine (runs_any_of_reading (h.runs_size hip (mem_insert_self ..) hn)).bind ?_
    rintro v t ⟨⟨-, hty, -⟩, h⟩
    rw [hty]
    split_ifs with htype
    · -- a directory is not linked
      refine (runs_any_of_reading (h.runs_giveBack (hnone ip) (hkeep.keep.imp_right h.has_of_used))).bind fun _ t h => ?_
      exact (runs_any_of_reading h.runs_commit).bind fun _ t h _ => ⟨_, D, .refl, h⟩
    · have hlays := h.lays
      have hd : (dinodeAt D j).Fits := fits_getDinode ..
      have htree := (hlays.storeMeta hn hd.incLink ⟨rfl, rfl, rfl⟩).2
      refine (runs_any_of_reading (h.runs_incLink hip (mem_insert_self ..) hn False.elim False.elim)).bind fun _ t h => ?_
      refine (runs_any_of_reading (h.runs_inodeUnlock (mem_insert_self ..))).bind fun _ t h => ?_
      rw [erase_insert (hnone ip)] at h
      -- the second walk begins with one link more, and one reference
      have hl' := hl.withMeta hroot hn htype hd.incLink htree h hip
      have hbad : ∀ t', Doing (reading lim) sb X true K (stored D j (dinodeAt D j).incLink) t [] ∅ t' →
          (anyGuard pid).Runs (linkBad ip) (fun e t => e ≠ .succ → ∃ K' D', SameNodes sb D D' ∧
            Doing (reading lim) sb X false K' D' s [] ∅ t) t' := fun t' h' =>
        (runs_any_of_reading ((h.trans h').runs_linkBad hlays hn hkeep False.elim)).mono fun _ _ hD _ => by
          obtain ⟨D', htree, h⟩ := hD
          exact ⟨∅, D', htree, h⟩
      have hcwd' := hcwd.after h False.elim
      refine (runs_any_of_reading (h.rebase.runs_namex hl' true (userPath new) (fun _ => hcwd') False.elim)).bind fun r t' hr => ?_
      rw [walkTo, if_pos rfl] at hr
      cases hw' : walkParent (tree sb (stored D j (dinodeAt D j).incLink) none) (startAt i (userPath new)) (components (userPath new)) with
      | none =>
        rw [hw'] at hr
        obtain ⟨rfl, h'⟩ := hr
        exact hbad t' h'
      | some p =>
        obtain ⟨k, name⟩ := p
        rw [hw'] at hr
        obtain ⟨dp, rfl, h'⟩ := hr
        obtain ⟨hkeep', m, hm⟩ := hl'.parent (hl'.start fun _ => hcwd'.kept) hw'
        obtain ⟨hm, hdir⟩ := dirAt_some hm
        have hmdir := hl'.whole k m hm hdir
        have hdp : Has t [(dp, k)] dp k := .inl (List.mem_singleton_self _)
        refine (runs_any_of_reading (h'.runs_inodeLock hdp hkeep'.lt False.elim False.elim)).bind ?_
        rintro _ t' ⟨-, h'⟩
        refine (runs_any_of_reading (runs_node h'.sees)).bind fun v t'' hv => ?_
        obtain ⟨-, hs⟩ := hv
        have h' := h'.move hs
        by_cases hnew : m.lookup name = none
        · refine (h'.runs_dirLink_ok hdp (mem_insert_self ..) hm hmdir hnew _).bind ?_
          rintro _ t' rfl
          refine (runs_any _ t').bind fun _ t' _ => (runs_any _ t').bind fun _ t' _ => (runs_any _ t').bind fun _ t' _ => ?_
          exact fun hne => absurd rfl hne
        · refine (runs_any_of_reading (h'.runs_dirLink_old hdp (mem_insert_self ..) hm hmdir hnew False.elim _)).bind ?_
          rintro _ t' ⟨rfl, h'⟩
          exact (runs_any_of_reading (h'.runs_giveBack (hnone dp) (hkeep'.keep.imp_right h'.has_of_used))).bind fun _ t' h' => hbad t' h'

end MCertiKOS.FileSystem.Fs
