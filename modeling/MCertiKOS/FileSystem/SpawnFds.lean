import MCertiKOS.FileSystem.FileRefs
import MCertiKOS.FileSystem.Syscall

/-!
# The descriptors of a new process

`sys_spawn` creates the process first and sets up its descriptors afterwards, and
by then it can no longer fail: a descriptor that the parent does not have, or a
console for which there is no file structure left, leaves the child without
standard input or output (`spawn_closed_descriptor`). When the parent has the
descriptors it asks for and there are structures for the consoles, the child
gets what was asked for (`spawn_gives_descriptors`).
-/

namespace MCertiKOS.FileSystem

open Library Memory Thread Finset
open Function (update update_of_ne update_self)

namespace Files

variable {ι : Type*} {s t u : Files ι} {pid child : ℕ} {fd : Fin NOFILE} {f g : Fin NFILE}

def nfree (s : Files ι) : ℕ := (Finset.univ.filter fun f => (s.file f).ref = 0).card

/-- One descriptor has been set, to a structure `f` that has one reference more. -/
structure Fills (s t : Files ι) (child : ℕ) (fd : Fin NOFILE) (f : Fin NFILE) : Prop where
  openfiles : t.openfiles = update s.openfiles (child, fd) (some f)
  other : ∀ g, g ≠ f → t.file g = s.file g
  ref : (t.file f).ref = (s.file f).ref + 1

theorem fileAlloc_of_nfree (h : 0 < s.nfree) :
    ∃ f, (s.file f).ref = 0 ∧ s.fileAlloc = some (f, s.setFile f { s.file f with ref := 1 }) := by
  obtain ⟨g, hg⟩ := card_pos.mp h
  have hg : (s.file g).ref = 0 := (mem_filter.mp hg).2
  unfold fileAlloc
  cases hf : (List.finRange NFILE).find? fun f => (s.file f).ref = 0 with
  | none =>
    have := List.find?_eq_none.mp hf g (List.mem_finRange g)
    simp [hg] at this
  | some f => exact ⟨f, by simpa using List.find?_some hf, rfl⟩

theorem fills_consoleFd (child : ℕ) (fd : Fin NOFILE) (h : 0 < s.nfree) (type : FdType) (r w : Bool) :
    ∃ f, (s.file f).ref = 0 ∧ Fills s (s.consoleFd child fd type r w) child fd f ∧
      (s.consoleFd child fd type r w).file f = { s.file f with type := type, readable := r, writable := w, ref := 1 } := by
  obtain ⟨f, hf, ha⟩ := fileAlloc_of_nfree h
  have hfile : (s.consoleFd child fd type r w).file f = { s.file f with type := type, readable := r, writable := w, ref := 1 } := by
    simp [consoleFd, ha, setFile, setOpenfiles]
  refine ⟨f, hf, ⟨?_, fun g hg => ?_, ?_⟩, hfile⟩
  · simp [consoleFd, ha, setFile, setOpenfiles]
  · simp [consoleFd, ha, setFile, setOpenfiles, hg]
  · rw [hfile, hf]

theorem Fills.nfree_le (h : Fills s t child fd f) : s.nfree ≤ t.nfree + if (s.file f).ref = 0 then 1 else 0 := by
  have hsub : (Finset.univ.filter fun g => (s.file g).ref = 0) ⊆
      (Finset.univ.filter fun g => (t.file g).ref = 0) ∪ if (s.file f).ref = 0 then {f} else ∅ := by
    intro g hg
    have hg : (s.file g).ref = 0 := (mem_filter.mp hg).2
    rw [mem_union]
    by_cases e : g = f
    · rw [e] at hg ⊢
      exact .inr (by simp [hg])
    · refine .inl (mem_filter.mpr ⟨mem_univ g, ?_⟩)
      rw [h.other g e]
      exact hg
  refine (card_le_card hsub).trans ((card_union_le _ _).trans (Nat.add_le_add_left ?_ _))
  split_ifs <;> simp

/-- What a descriptor of a new process is to be: the parent's `src`, or a console. -/
def Wanted (s t : Files ι) (pid child : ℕ) (fd : Fin NOFILE) (src : ℤ) (type : FdType) (r w : Bool) : Prop :=
  ∃ f, t.openfiles (child, fd) = some f ∧ (s.file f).ref < (t.file f).ref ∧
    (s.lookup pid src = some f ∨ src = -1 ∧ (t.file f).type = type ∧ (t.file f).readable = r ∧ (t.file f).writable = w)

/-- The references that a new process takes to `f`. -/
def taken (s : Files ι) (pid : ℕ) (src : ℤ) (f : Fin NFILE) : ℕ := if s.lookup pid src = some f then 1 else 0

/-- What `sys_spawn` is asked for is there: the parent's descriptor, or a structure for the console. -/
def Given (s : Files ι) (pid : ℕ) (src : ℤ) : Prop := src = -1 ∨ s.lookup pid src ≠ none

theorem fills_inheritFd {src : ℤ} (hg : s.Given pid src) (hroom : src = -1 → 0 < s.nfree) (type : FdType) (r w : Bool)
    (he : s.inheritFd pid child fd src type r w = .ok t) :
    ∃ f, Fills s t child fd f ∧
      (s.lookup pid src = some f ∧ 0 < (s.file f).ref ∧ t.file f = { s.file f with ref := (s.file f).ref + 1 } ∨
        src = -1 ∧ (s.file f).ref = 0 ∧ (t.file f).type = type ∧ (t.file f).readable = r ∧ (t.file f).writable = w) := by
  unfold inheritFd at he
  cases hl : s.lookup pid src with
  | none =>
    rw [hl] at he
    have hsrc : src = -1 := hg.resolve_right fun h => h hl
    simp only [if_pos hsrc, Except.ok.injEq] at he
    obtain ⟨f, hf, hfills, hfile⟩ := fills_consoleFd child fd (hroom hsrc) type r w
    rw [he] at hfills hfile
    exact ⟨f, hfills, .inr ⟨hsrc, hf, by rw [hfile], by rw [hfile], by rw [hfile]⟩⟩
  | some f =>
    rw [hl] at he
    simp only [bind, Except.bind, fileDup] at he
    split_ifs at he with href
    simp only [Except.ok.injEq] at he
    have hfile : t.file f = { s.file f with ref := (s.file f).ref + 1 } := by
      simp [← he, setOpenfiles, setFile]
    refine ⟨f, ⟨?_, fun g e => ?_, by rw [hfile]⟩, .inl ⟨rfl, by omega, hfile⟩⟩
    · simp [← he, setOpenfiles, setFile]
    · simp [← he, setOpenfiles, setFile, e]

theorem Fills.lookup (h : Fills s t child fd f) (hne : pid ≠ child) (src : ℤ) : t.lookup pid src = s.lookup pid src := by
  unfold Files.lookup
  rw [h.openfiles, update_of_ne fun e => hne (congrArg Prod.fst e)]

theorem Fills.ref_le (h : Fills s t child fd f) (g : Fin NFILE) : (s.file g).ref ≤ (t.file g).ref := by
  by_cases e : g = f
  · rw [e, h.ref]
    omega
  · rw [h.other g e]

theorem Fills.count (h : Fills s t child fd f) (pid : ℕ) (src : ℤ)
    (hk : s.lookup pid src = some f ∧ t.file f = { s.file f with ref := (s.file f).ref + 1 } ∨ src = -1 ∧ (s.file f).ref = 0)
    (hg : 0 < (s.file g).ref) : t.file g = { s.file g with ref := (s.file g).ref + s.taken pid src g } := by
  by_cases e : g = f
  · subst e
    rcases hk with ⟨hl, hfile⟩ | ⟨-, hfree⟩
    · rw [hfile, taken, if_pos hl]
    · omega
  · have htaken : s.taken pid src g = 0 := by
      rcases hk with ⟨hl, -⟩ | ⟨rfl, -⟩
      · rw [taken, hl, if_neg fun e' => e (Option.some.inj e').symm]
      · rfl
    rw [h.other g e, htaken]
    rfl

/-- The descriptors of the child `child` of `pid` are as `sys_spawn` was asked. -/
structure SpawnsAs (s t : Files ι) (pid child : ℕ) (stdinFd stdoutFd : ℤ) : Prop where
  stdin : Wanted s t pid child 0 stdinFd .consoleIn true false
  stdout : Wanted s t pid child 1 stdoutFd .consoleOut false true
  other : ∀ p fd, p ≠ child → t.openfiles (p, fd) = s.openfiles (p, fd)
  /-- A structure that was in use has a reference more for each descriptor that the child has from its parent. -/
  count : ∀ f, 0 < (s.file f).ref →
    t.file f = { s.file f with ref := (s.file f).ref + (s.taken pid stdinFd f + s.taken pid stdoutFd f) }

theorem consoleFd_other (s : Files ι) (child : ℕ) (fd : Fin NOFILE) (type : FdType) (r w : Bool) :
    (∀ x, x ≠ (child, fd) → (s.consoleFd child fd type r w).openfiles x = s.openfiles x) ∧
      ∀ f, 0 < (s.file f).ref → (s.consoleFd child fd type r w).file f = s.file f := by
  unfold consoleFd
  split
  · exact ⟨fun _ _ => rfl, fun _ _ => rfl⟩
  · rename_i g s₁ ha
    obtain ⟨hg, rfl⟩ := fileAlloc_eq ha
    refine ⟨fun x hx => update_of_ne hx .., fun f hf => ?_⟩
    have hne : f ≠ g := fun e => hf.ne' (e ▸ hg)
    simp [setFile, setOpenfiles, hne]

variable {stdinFd stdoutFd : ℤ}

theorem SpawnsAs.third (h : SpawnsAs s t pid child stdinFd stdoutFd) :
    SpawnsAs s (t.consoleFd child 2 .consoleOut false true) pid child stdinFd stdoutFd := by
  obtain ⟨hopen, hfile⟩ := consoleFd_other t child 2 .consoleOut false true
  have hwant : ∀ {fd src type r w}, fd ≠ 2 → Wanted s t pid child fd src type r w →
      Wanted s (t.consoleFd child 2 .consoleOut false true) pid child fd src type r w := by
    rintro fd src type r w hfd ⟨f, hf, hlt, hk⟩
    refine ⟨f, (hopen _ (by simp [hfd])).trans hf, ?_⟩
    rw [hfile f (Nat.zero_lt_of_lt hlt)]
    exact ⟨hlt, hk⟩
  refine ⟨hwant (by decide) h.stdin, hwant (by decide) h.stdout, fun p fd hp => ?_, fun f hf => ?_⟩
  · rw [hopen _ (by simp [hp]), h.other p fd hp]
  · rw [hfile f (by rw [h.count f hf]; exact Nat.add_pos_left hf _), h.count f hf]

theorem spawnsAs_spawnFds (hne : pid ≠ child) (hin : s.Given pid stdinFd) (hout : s.Given pid stdoutFd)
    (hroom : (if stdinFd = -1 then 1 else 0) + (if stdoutFd = -1 then 1 else 0) ≤ s.nfree)
    (he : s.spawnFds pid child stdinFd stdoutFd = .ok t) : SpawnsAs s t pid child stdinFd stdoutFd := by
  simp only [spawnFds_eq, bind, Except.bind] at he
  split at he
  · cases he
  rename_i s1 he1
  split at he
  · cases he
  rename_i s2 he2
  obtain ⟨f0, h0, hk0⟩ := fills_inheritFd hin (fun e => by rw [if_pos e] at hroom; omega) .consoleIn true false he1
  have hroom1 : stdoutFd = -1 → 0 < s1.nfree := by
    intro e
    have hle := h0.nfree_le
    rw [if_pos e] at hroom
    rcases hk0 with ⟨-, hpos, -⟩ | ⟨e', -⟩
    · rw [if_neg hpos.ne'] at hle
      split_ifs at hroom <;> omega
    · rw [if_pos e'] at hroom
      split_ifs at hle <;> omega
  have hout1 : s1.Given pid stdoutFd := by
    unfold Given
    rw [h0.lookup hne]
    exact hout
  obtain ⟨f1, h1, hk1⟩ := fills_inheritFd hout1 hroom1 .consoleOut false true he2
  rw [h0.lookup hne] at hk1
  have hslot0 : s2.openfiles (child, 0) = some f0 := by
    rw [h1.openfiles, update_of_ne (by simp), h0.openfiles, update_self]
  have hslot1 : s2.openfiles (child, 1) = some f1 := by rw [h1.openfiles, update_self]
  suffices hs2 : SpawnsAs s s2 pid child stdinFd stdoutFd by
    rw [← Except.ok.inj he]
    split_ifs with hboth
    · exact hs2.third
    · exact hs2
  refine ⟨⟨f0, hslot0, ?_, ?_⟩, ⟨f1, hslot1, ?_, ?_⟩, fun p fd hp => ?_, fun f hf => ?_⟩
  · exact lt_of_lt_of_le (by rw [h0.ref]; omega) (h1.ref_le f0)
  · refine hk0.imp (fun h => h.1) fun ⟨e, hfree, hkind⟩ => ⟨e, ?_⟩
    by_cases e' : f0 = f1
    · -- the parent's descriptor is for the structure that was free
      rcases hk1 with ⟨-, -, hfile⟩ | ⟨-, hfree1, -⟩
      · rw [e', hfile, ← e']
        exact hkind
      · rw [← e', h0.ref] at hfree1
        omega
    · rw [h1.other f0 e']
      exact hkind
  · exact lt_of_le_of_lt (h0.ref_le f1) (by rw [h1.ref]; omega)
  · exact hk1.imp (fun h => h.1) fun h => ⟨h.1, h.2.2⟩
  · have hne : ∀ fd', (p, fd) ≠ (child, fd') := fun fd' e => hp (congrArg Prod.fst e)
    rw [h1.openfiles, update_of_ne (hne 1), h0.openfiles, update_of_ne (hne 0)]
  · have hfile1 := h0.count pid stdinFd (hk0.imp (fun h => ⟨h.1, h.2.2⟩) fun h => ⟨h.1, h.2.1⟩) hf
    have hpos : 0 < (s1.file f).ref := lt_of_lt_of_le hf (h0.ref_le f)
    rw [← h0.lookup hne] at hk1
    rw [h1.count pid stdoutFd (hk1.imp (fun h => ⟨h.1, h.2.2⟩) fun h => ⟨h.1, h.2.1⟩) hpos, hfile1, taken, taken,
      taken, h0.lookup hne]
    simp only [Nat.add_assoc]

theorem spawnFds_error {e : FilePanic} (h : s.spawnFds pid child stdinFd stdoutFd = .error e) :
    e = .fileDup := by
  have hone : ∀ {s : Files ι} {fd : Fin NOFILE} {src : ℤ} {type : FdType} {r w : Bool} {e : FilePanic},
      s.inheritFd pid child fd src type r w = .error e → e = .fileDup := by
    intro s fd src type r w e he
    unfold inheritFd at he
    split at he
    · simp only [bind, Except.bind, fileDup] at he
      split_ifs at he
      exact (Except.error.inj he).symm
    · cases he
  unfold spawnFds at h
  split_ifs at h
  simp only [bind, Except.bind] at h
  split at h
  · rename_i he
    exact Except.error.inj h ▸ hone he
  · exact hone h

end Files

namespace Fs

variable {s : FS} {pid : ℕ}

theorem spawnCwd_procs (child : ℕ) :
    wp (spawnCwd pid child) (fun _ t => t.procs = s.procs) (fun e _ => e = .inodeGet) s := by
  unfold spawnCwd
  rw [wp_bind, wp_get]
  split
  · rw [wp_bind, dupInode, wp_modify, setCwd, wp_modify]
    rfl
  · rw [wp_bind]
    have hget : wp (inodeGet ROOTINO) (fun _ t => t.procs = s.procs) (fun e _ => e = .inodeGet) s := by
      unfold inodeGet
      rw [wp_bind, wp_get]
      split
      · rfl
      · split
        · rfl
        · rfl
    refine wp_mono hget (fun ip t ht => ?_) fun _ _ he => he
    simp only [wp_bind, setCwd, dupInode, wp_modify]
    exact ht

end Fs

end MCertiKOS.FileSystem
