import MCertiKOS.FileSystem.File
import MCertiKOS.Library.Holders

/-!
# References to files and pipes

The reference counts of the file table are exact: a file structure's count is
the number of descriptors that point to it, and an end of a pipe is open as long
as some descriptor holds it.

`FileInv` is what holds of the file structures and the pipes alone, whatever the
descriptors are; each function of the file table keeps it and says how it moves
the counts. The descriptors are then counted with `holders`, over complete
system calls of any processes.
-/

namespace MCertiKOS.FileSystem

open Library Memory Thread Relation Option
open Function (update update_apply update_comm update_eq_self update_eq_self_iff update_idem update_of_ne)

/-! ### Ends of pipes -/

namespace Pipe

def isOpen (p : Pipe) (writable : Bool) : Bool := if writable then p.writeopen else p.readopen

theorem isOpen_close (p : Pipe) (w w' : Bool) : (p.close w).1.isOpen w' = if w' = w then false else p.isOpen w' := by
  unfold Pipe.close isOpen
  cases w <;> cases w' <;> simp <;> split_ifs <;> rfl

theorem ref_close (p : Pipe) (w : Bool) : (p.close w).1.ref = if p.isOpen (!w) then p.ref else 0 := by
  unfold Pipe.close isOpen
  cases w <;> simp <;> split_ifs <;> simp_all

variable {p : Pipe}

theorem close_free_iff (h : p.ref = 0 ↔ ∀ w, p.isOpen w = false) (w : Bool) :
    (p.close w).1.ref = 0 ↔ ∀ w', (p.close w).1.isOpen w' = false := by
  cases w <;> cases h0 : p.isOpen false <;> cases h1 : p.isOpen true <;> simp_all [ref_close, isOpen_close]

theorem Ok.close (h : p.Ok) (w : Bool) : (p.close w).1.Ok := by
  rw [ok_iff, close_ring, ← ok_iff]
  exact h

theorem isOpen_opened (p : Pipe) (w : Bool) : p.opened.isOpen w = true := by cases w <;> rfl

end Pipe

variable {ι : Type*}

/-! ### File structures -/

/-- A file structure is well formed. -/
structure File.Ok (v : File ι) : Prop where
  free : v.ref = 0 → v.type = .none
  pipe : v.type = .pipe → v.pipe ≠ none ∧ v.readable = !v.writable
  inode : v.type = .inode → v.ip ≠ none

/-- The structure is the write end or the read end of pipe `k`. -/
def File.IsEnd (v : File ι) (k : Fin NPIPE) (writable : Bool) : Prop :=
  v.type = .pipe ∧ v.pipe = some k ∧ v.writable = writable

/-- What holds of the file structures and the pipes. -/
structure FileInv (s : Files ι) : Prop where
  file_ok : ∀ f, (s.file f).Ok
  uniq : ∀ f g k w, (s.file f).IsEnd k w → (s.file g).IsEnd k w → f = g
  open_iff : ∀ k w, (s.pipe k).isOpen w = true ↔ ∃ f, (s.file f).IsEnd k w
  ref_iff : ∀ k, (s.pipe k).ref = 0 ↔ ∀ w, (s.pipe k).isOpen w = false
  ok : ∀ k, (s.pipe k).Ok

namespace Files

variable (s : Files ι) (f g : Fin NFILE) (v : File ι)

theorem setFile_file : (s.setFile f v).file g = if g = f then v else s.file g := by
  simp [setFile, update_apply]

@[simp] theorem setFile_pipe : (s.setFile f v).pipe = s.pipe := rfl

@[simp] theorem setFile_openfiles : (s.setFile f v).openfiles = s.openfiles := rfl

end Files

namespace FileInv

variable {s : Files ι} {f : Fin NFILE}

section

variable (h : FileInv s)
include h

theorem ref_pos (hf : (s.file f).type ≠ .none) : 0 < (s.file f).ref :=
  Nat.pos_of_ne_zero fun e => hf ((h.file_ok f).free e)

variable {v : File ι} {k : Fin NPIPE}

theorem setFile (hv : v.Ok) (hend : ∀ k w, v.IsEnd k w ↔ (s.file f).IsEnd k w) :
    FileInv (s.setFile f v) := by
  have hends : ∀ g k w, ((s.setFile f v).file g).IsEnd k w ↔ (s.file g).IsEnd k w := by
    intro g k w
    rw [Files.setFile_file]
    split_ifs with hg
    · rw [hg, hend]
    · rfl
  refine ⟨fun g => ?_, fun g g' k w => ?_, fun k w => ?_, h.ref_iff, h.ok⟩
  · rw [Files.setFile_file]
    split_ifs
    · exact hv
    · exact h.file_ok g
  · rw [hends, hends]
    exact h.uniq g g' k w
  · simp only [hends]
    exact h.open_iff k w

theorem setRef {n : ℕ} (hn : n ≠ 0) : FileInv (s.setFile f { s.file f with ref := n }) :=
  h.setFile ⟨fun e => absurd e hn, (h.file_ok f).pipe, (h.file_ok f).inode⟩ fun _ _ => Iff.rfl

theorem setOther (hf : (s.file f).type ≠ .pipe) (hv : v.type ≠ .pipe)
    (hfree : v.ref = 0 → v.type = .none) (hino : v.type = .inode → v.ip ≠ none) : FileInv (s.setFile f v) :=
  h.setFile ⟨hfree, fun e => absurd e hv, hino⟩ fun _ _ => by simp [File.IsEnd, hf, hv]

theorem closeEnd {w : Bool} (hf : (s.file f).IsEnd k w) :
    FileInv ((s.setFile f { s.file f with ref := 0, type := .none }).setPipe k ((s.pipe k).close w).1) := by
  set t := (s.setFile f { s.file f with ref := 0, type := .none }).setPipe k ((s.pipe k).close w).1 with ht
  have hfile : ∀ g, t.file g = if g = f then { s.file f with ref := 0, type := .none } else s.file g :=
    fun g => s.setFile_file f g _
  have hends : ∀ g k' w', (t.file g).IsEnd k' w' ↔ g ≠ f ∧ (s.file g).IsEnd k' w' := by
    intro g k' w'
    rw [hfile]
    split_ifs with hg
    · simp [File.IsEnd, hg]
    · simp [hg]
  have hpipe : ∀ k', t.pipe k' = if k' = k then ((s.pipe k).close w).1 else s.pipe k' := by
    simp [ht, Files.setPipe, update_apply]
  have hopen : ∀ k' w', (t.pipe k').isOpen w' = if k' = k ∧ w' = w then false else (s.pipe k').isOpen w' := by
    intro k' w'
    rw [hpipe]
    by_cases hk : k' = k
    · simp [hk, Pipe.isOpen_close]
    · simp [hk]
  refine ⟨fun g => ?_, fun g g' k' w' hg hg' => ?_, fun k' w' => ?_, fun k' => ?_, fun k' => ?_⟩
  · rw [hfile]
    split_ifs
    · exact ⟨fun _ => rfl, nofun, nofun⟩
    · exact h.file_ok g
  · rw [hends] at hg hg'
    exact h.uniq g g' k' w' hg.2 hg'.2
  · rw [hopen]
    simp only [hends]
    split_ifs with hc
    · obtain ⟨rfl, rfl⟩ := hc
      simp only [false_iff, not_exists, not_and]
      exact fun g hg hge => hg (h.uniq g f _ _ hge hf)
    · rw [h.open_iff]
      refine exists_congr fun g => ⟨fun hg => ⟨?_, hg⟩, And.right⟩
      rintro rfl
      refine hc ⟨?_, ?_⟩
      · simpa [hf.2.1, eq_comm] using hg.2.1
      · rw [← hg.2.2, hf.2.2]
  · rw [hpipe]
    split_ifs
    · exact Pipe.close_free_iff (h.ref_iff k) w
    · exact h.ref_iff k'
  · rw [hpipe]
    split_ifs
    · exact (h.ok k).close w
    · exact h.ok k'

theorem setEnds {f₀ f₁ : Fin NFILE} (hne : f₀ ≠ f₁)
    (ht₀ : (s.file f₀).type = .none) (ht₁ : (s.file f₁).type = .none) (hr₀ : (s.file f₀).ref ≠ 0)
    (hr₁ : (s.file f₁).ref ≠ 0) (hk : (s.pipe k).ref = 0) :
    FileInv ((s.setPipe k (s.pipe k).opened).setEnds f₀ f₁ k) := by
  set t := (s.setPipe k (s.pipe k).opened).setEnds f₀ f₁ k with ht
  have hclosed := (h.ref_iff k).mp hk
  have hnoend : ∀ g w, ¬ (s.file g).IsEnd k w := fun g w hg => by
    have := (h.open_iff k w).mpr ⟨g, hg⟩
    rw [hclosed w] at this
    cases this
  have hfile : ∀ g, t.file g =
      if g = f₁ then { s.file f₁ with type := .pipe, readable := false, writable := true, pipe := some k }
      else if g = f₀ then { s.file f₀ with type := .pipe, readable := true, writable := false, pipe := some k }
      else s.file g := by
    intro g
    simp only [ht, Files.setEnds, Files.setFile_file, Files.setPipe]
    rw [if_neg hne.symm]
  have hends : ∀ g k' w', (t.file g).IsEnd k' w' ↔
      (k = k' ∧ g = if w' then f₁ else f₀) ∨ (k ≠ k' ∧ (s.file g).IsEnd k' w') := by
    intro g k' w'
    rw [hfile]
    by_cases hg₁ : g = f₁
    · cases w' <;> simp [File.IsEnd, hg₁, ht₁, hne.symm]
    · by_cases hg₀ : g = f₀
      · cases w' <;> simp [File.IsEnd, hg₀, ht₀, hne]
      · rw [if_neg hg₁, if_neg hg₀]
        by_cases hk' : k = k'
        · subst hk'
          cases w' <;> simp [hg₀, hg₁, hnoend]
        · simp [hk']
  have hpipe : ∀ k', t.pipe k' = if k' = k then (s.pipe k).opened else s.pipe k' := by
    simp [ht, Files.setEnds, Files.setPipe, update_apply]
  refine ⟨fun g => ?_, fun g g' k' w' hg hg' => ?_, fun k' w' => ?_, fun k' => ?_, fun k' => ?_⟩
  · rw [hfile]
    split_ifs
    · exact ⟨fun e => absurd e hr₁, fun _ => by simp, nofun⟩
    · exact ⟨fun e => absurd e hr₀, fun _ => by simp, nofun⟩
    · exact h.file_ok g
  · rw [hends] at hg hg'
    rcases hg with ⟨hk', rfl⟩ | ⟨hk', hg⟩ <;> rcases hg' with ⟨hk'', rfl⟩ | ⟨hk'', hg'⟩
    · rfl
    · exact absurd hk' hk''
    · exact absurd hk'' hk'
    · exact h.uniq g g' k' w' hg hg'
  · rw [hpipe]
    simp only [hends]
    by_cases hk' : k' = k
    · simp [hk', Pipe.isOpen_opened]
    · simpa [hk', Ne.symm hk'] using h.open_iff k' w'
  · rw [hpipe]
    split_ifs
    · simp only [Pipe.isOpen_opened]
      simp [Pipe.opened]
    · exact h.ref_iff k'
  · rw [hpipe]
    split_ifs
    · exact Pipe.ok_opened _
    · exact h.ok k'

end

end FileInv

/-! ### What the functions do to the counts -/

/-- The channel `pipe_close` wakes. -/
def endChan (writable : Bool) : PipeChan := if writable then .nread else .nwrite

theorem Pipe.close_chan (p : Pipe) (w : Bool) : (p.close w).2 = endChan w := by
  unfold Pipe.close endChan
  cases w <;> simp <;> split_ifs <;> rfl

/-- From `s` to `t`, with the calls `c`, what is in use stays as it is; only ends of pipes are closed, and whoever waits
for the end is woken. -/
structure Quiet (s t : Files ι) (c : List (FileCall ι)) : Prop where
  file : ∀ g, 0 < (s.file g).ref → 0 < (t.file g).ref → t.file g = { s.file g with ref := (t.file g).ref }
  ring : ∀ k, (s.pipe k).ref ≠ 0 → (t.pipe k).ring = (s.pipe k).ring
  isOpen : ∀ k w, (s.pipe k).ref ≠ 0 → (t.pipe k).isOpen w = (s.pipe k).isOpen w ∨ .wakeup k (endChan w) ∈ c

namespace Quiet

variable {s t u : Files ι} {c c' : List (FileCall ι)}

theorem refl (s : Files ι) : Quiet s s [] := ⟨fun _ _ _ => rfl, fun _ _ => rfl, fun _ _ _ => .inl rfl⟩

theorem of_pipe_eq (hfile : ∀ g, 0 < (s.file g).ref → 0 < (t.file g).ref → t.file g = { s.file g with ref := (t.file g).ref })
    (hpipe : t.pipe = s.pipe) : Quiet s t [] :=
  ⟨hfile, fun _ _ => by rw [hpipe], fun _ _ _ => .inl (by rw [hpipe])⟩

end Quiet

namespace Files

variable {s t : Files ι} {f f₀ f₁ : Fin NFILE}

/-- `file_alloc` finds a free structure and counts one reference to it. -/
structure Allocs (s t : Files ι) (f : Fin NFILE) : Prop where
  inv : FileInv t
  free : (s.file f).ref = 0
  file : t.file f = { s.file f with ref := 1 }
  type : (t.file f).type = .none
  ref : ∀ g, (t.file g).ref = if g = f then 1 else (s.file g).ref
  other : ∀ g, g ≠ f → t.file g = s.file g
  pipe : t.pipe = s.pipe
  openfiles : t.openfiles = s.openfiles

/-- One reference to `f` goes, with the calls `c`. -/
structure Drops (s t : Files ι) (f : Fin NFILE) (c : List (FileCall ι)) : Prop where
  inv : FileInv t
  ref : ∀ g, (t.file g).ref + (if g = f then 1 else 0) = (s.file g).ref
  openfiles : t.openfiles = s.openfiles
  file : ∀ g, 0 < (t.file g).ref → t.file g = { s.file g with ref := (t.file g).ref }
  pipe : ∀ k, (∀ w, ¬ (s.file f).IsEnd k w) → t.pipe k = s.pipe k
  close : ∀ k w, (s.file f).IsEnd k w →
    t.pipe k = s.pipe k ∨ t.pipe k = ((s.pipe k).close w).1 ∧ .wakeup k (endChan w) ∈ c

variable {c : List (FileCall ι)}

theorem Drops.quiet (h : Drops s t f c) : Quiet s t c := by
  refine ⟨fun g _ => h.file g, fun k _ => ?_, fun k w _ => ?_⟩
  · by_cases hk : ∃ w, (s.file f).IsEnd k w
    · obtain ⟨w, hw⟩ := hk
      rcases h.close k w hw with e | ⟨e, -⟩
      · rw [e]
      · rw [e, Pipe.close_ring]
    · rw [h.pipe k fun w hw => hk ⟨w, hw⟩]
  · by_cases hk : ∃ w', (s.file f).IsEnd k w'
    · obtain ⟨w', hw⟩ := hk
      rcases h.close k w' hw with e | ⟨e, hc⟩
      · exact .inl (by rw [e])
      · by_cases hww : w = w'
        · exact .inr (hww ▸ hc)
        · exact .inl (by rw [e, Pipe.isOpen_close, if_neg hww])
    · exact .inl (by rw [h.pipe k fun w hw => hk ⟨w, hw⟩])

theorem Drops.file_of_ne (h : Drops s t f c) {g : Fin NFILE} (hg : g ≠ f)
    (hpos : 0 < (s.file g).ref) : t.file g = s.file g := by
  have href := h.ref g
  rw [if_neg hg, Nat.add_zero] at href
  rw [h.file g (href ▸ hpos), href]

theorem fileAlloc_spec (h : FileInv s) (ha : s.fileAlloc = some (f, t)) : Allocs s t f := by
  unfold fileAlloc at ha
  split at ha
  · cases ha
  · rename_i f' hfind
    cases ha
    have hfree : (s.file f).ref = 0 := by simpa using List.find?_some hfind
    have ht := (h.file_ok f).free hfree
    refine ⟨h.setRef one_ne_zero, hfree, by simp [setFile], by simpa [setFile] using ht, fun g => ?_, fun g hg => ?_, rfl, rfl⟩
    · rw [setFile_file]
      split_ifs <;> rfl
    · rw [setFile_file, if_neg hg]

theorem fileClose_spec (h : FileInv s) (hf : 0 < (s.file f).ref) :
    ∃ t c, s.fileClose f = .ok (t, c) ∧ Drops s t f c := by
  have hcount : ∀ v : File ι, v.ref + 1 = (s.file f).ref → ∀ g,
      ((s.setFile f v).file g).ref + (if g = f then 1 else 0) = (s.file g).ref := by
    intro v hv g
    rw [setFile_file]
    split_ifs with hg
    · rw [hv, hg]
    · rfl
  have hfile : ∀ v : File ι, (0 < v.ref → v = { s.file f with ref := v.ref }) → ∀ g, 0 < ((s.setFile f v).file g).ref →
      (s.setFile f v).file g = { s.file g with ref := ((s.setFile f v).file g).ref } := by
    intro v hv g
    rw [setFile_file]
    split_ifs with hg
    · rw [hg]
      exact hv
    · exact fun _ => rfl
  unfold fileClose
  rw [if_neg (by omega)]
  by_cases hlast : 0 < (s.file f).ref - 1
  · rw [if_pos hlast]
    exact ⟨_, _, rfl, h.setRef (by omega), hcount _ (by simp; omega), rfl, hfile _ fun _ => rfl, fun _ _ => rfl,
      fun _ _ _ => .inl rfl⟩
  · rw [if_neg hlast]
    have hone : 0 + 1 = (s.file f).ref := by omega
    -- the last reference: what the structure stands for is given up
    cases htype : (s.file f).type with
    | pipe =>
      obtain ⟨k, hk⟩ := ne_none_iff_exists'.mp ((h.file_ok f).pipe htype).1
      have hend : (s.file f).IsEnd k (s.file f).writable := ⟨htype, hk, rfl⟩
      simp only [pipeClose, hk]
      refine ⟨_, _, rfl, hk ▸ h.closeEnd hend, hcount _ hone, rfl, hfile _ nofun, fun k' hk' => ?_, fun k' w hw => ?_⟩
      · have hne : k' ≠ k := by
          rintro rfl
          exact hk' _ hend
        simp [setPipe, hne]
      · obtain rfl : k = k' := by simpa [hk] using hw.2.1
        obtain rfl : (s.file f).writable = w := hw.2.2
        exact .inr ⟨by simp [setPipe], by simp [Pipe.close_chan]⟩
    | inode =>
      obtain ⟨ip, hip⟩ := ne_none_iff_exists'.mp ((h.file_ok f).inode htype)
      simp only [hip]
      exact ⟨_, _, rfl, hip ▸ h.setOther (by simp [htype]) (by simp) (by simp) (by simp), hcount _ hone, rfl,
        hfile _ nofun, fun _ _ => rfl, fun _ _ _ => .inl rfl⟩
    | none =>
      exact ⟨_, _, rfl, h.setOther (by simp [htype]) (by simp) (by simp) (by simp), hcount _ hone, rfl, hfile _ nofun,
        fun _ _ => rfl, fun _ _ _ => .inl rfl⟩
    | consoleIn =>
      exact ⟨_, _, rfl, h.setOther (by simp [htype]) (by simp) (by simp) (by simp), hcount _ hone, rfl, hfile _ nofun,
        fun _ _ => rfl, fun _ _ _ => .inl rfl⟩
    | consoleOut =>
      exact ⟨_, _, rfl, h.setOther (by simp [htype]) (by simp) (by simp) (by simp), hcount _ hone, rfl, hfile _ nofun,
        fun _ _ => rfl, fun _ _ _ => .inl rfl⟩

def FreeOk (s : Files ι) : Prop := ∀ f, (s.file f).ref = 0 → (s.file f).type = .none

theorem fileAlloc_eq (ha : s.fileAlloc = some (f, t)) : (s.file f).ref = 0 ∧ t = s.setFile f { s.file f with ref := 1 } := by
  unfold fileAlloc at ha
  split at ha
  · cases ha
  · rename_i hfind
    cases ha
    exact ⟨by simpa using List.find?_some hfind, rfl⟩

theorem fileClose_none (href : (s.file f).ref = 1) (htype : (s.file f).type = .none) :
    s.fileClose f = .ok (s.setFile f { s.file f with ref := 0 }, []) := by
  unfold fileClose
  simp only [href, htype, lt_irrefl, if_false, Nat.sub_self]

theorem FreeOk.undo (h : FreeOk s) (href : (s.file f).ref = 0) : (s.setFile f { s.file f with ref := 1 }).fileClose f = .ok (s, []) := by
  have hself : (s.setFile f { s.file f with ref := 1 }).file f = { s.file f with ref := 1 } := by rw [setFile_file, if_pos rfl]
  have hback : ({ s.file f with ref := 0 } : File ι) = s.file f := by rw [← href]
  rw [fileClose_none (by rw [hself]) (by rw [hself]; exact h f href), hself]
  simp only [Files.setFile, update_idem, hback, update_eq_self]

theorem FreeOk.pipeAlloc_eq (h : FreeOk s) : s.pipeAlloc = .ok (s, [], none) ∨ ∃ f₀ f₁ k, f₀ ≠ f₁ ∧ (s.file f₀).ref = 0 ∧
    (s.file f₁).ref = 0 ∧ (s.pipe k).ref = 0 ∧ s.pipeAlloc = .ok
      (((((s.setFile f₀ { s.file f₀ with ref := 1 }).setFile f₁ { s.file f₁ with ref := 1 }).setPipe k (s.pipe k).opened).setEnds f₀ f₁ k),
        [], some (f₀, f₁)) := by
  unfold Files.pipeAlloc
  split
  · exact .inl rfl
  · rename_i f0 s1 ha0
    obtain ⟨hfree0, hs1⟩ := fileAlloc_eq ha0
    split
    · rw [hs1, h.undo hfree0]
      exact .inl rfl
    · rename_i f1 s2 ha1
      obtain ⟨hfree1, hs2⟩ := fileAlloc_eq ha1
      have hne : f1 ≠ f0 := by
        rintro rfl
        rw [hs1, setFile_file, if_pos rfl] at hfree1
        exact one_ne_zero hfree1
      have hf1 : s1.file f1 = s.file f1 := by rw [hs1, setFile_file, if_neg hne]
      rw [hf1] at hfree1 hs2
      split
      · -- no pipe: both structures are given back
        have hf0 : s2.file f0 = { s.file f0 with ref := 1 } := by
          rw [hs2, setFile_file, if_neg hne.symm, hs1, setFile_file, if_pos rfl]
        have hback : s2.setFile f0 { s2.file f0 with ref := 0 } = s.setFile f1 { s.file f1 with ref := 1 } := by
          have hfile : ({ s.file f0 with ref := 0 } : File ι) = s.file f0 := by rw [← hfree0]
          rw [hf0, hs2, hs1]
          simp only [Files.setFile, update_comm hne.symm _ _ s.file, update_idem, hfile]
          rw [update_comm hne, update_eq_self]
        rw [fileClose_none (by rw [hf0]) (by rw [hf0]; exact h f0 hfree0), hback]
        simp only [bind, Except.bind, h.undo hfree1]
        exact .inl rfl
      · rename_i k hfind
        have hk : (s2.pipe k).ref = 0 := by simpa using List.find?_some hfind
        rw [hs2, hs1] at hk ⊢
        exact .inr ⟨f0, f1, k, hne.symm, hfree0, hfree1, hk, rfl⟩

/-- The references `pipe_alloc` returns. -/
def endRefs (g : Fin NFILE) : Option (Fin NFILE × Fin NFILE) → ℕ
  | none => 0
  | some (f₀, f₁) => (if g = f₀ then 1 else 0) + if g = f₁ then 1 else 0

/-- What `pipe_alloc` does: two new references to the ends of a pipe, or none at all. -/
structure AllocsPipe (s t : Files ι) (ends : Option (Fin NFILE × Fin NFILE)) : Prop where
  inv : FileInv t
  fresh : ∀ f₀ f₁, ends = some (f₀, f₁) → f₀ ≠ f₁ ∧ (s.file f₀).ref = 0 ∧ (s.file f₁).ref = 0
  ref : ∀ g, (t.file g).ref = (s.file g).ref + endRefs g ends
  openfiles : t.openfiles = s.openfiles
  file : ∀ g, 0 < (s.file g).ref → t.file g = s.file g
  pipe : ∀ k, (s.pipe k).ref ≠ 0 → t.pipe k = s.pipe k
  ends : ∀ f₀ f₁, ends = some (f₀, f₁) → ∃ k, (s.pipe k).ref = 0 ∧ t.pipe k = (s.pipe k).opened ∧
    (t.file f₀).IsEnd k false ∧ (t.file f₁).IsEnd k true

theorem pipeAlloc_spec (h : FileInv s) : ∃ t c ends, s.pipeAlloc = .ok (t, c, ends) ∧ AllocsPipe s t ends := by
  have hfree : FreeOk s := fun f => (h.file_ok f).free
  rcases hfree.pipeAlloc_eq with e | ⟨f₀, f₁, k, hne, h₀, h₁, hk, e⟩
  · exact ⟨s, [], none, e, h, by simp, fun _ => rfl, rfl, fun _ _ => rfl, fun _ _ => rfl, by simp⟩
  · have hinv := (h.setRef (f := f₀) one_ne_zero).setRef (f := f₁) one_ne_zero
    rw [setFile_file, if_neg hne.symm] at hinv
    refine ⟨_, _, _, e, hinv.setEnds hne ?_ ?_ ?_ ?_ hk, ?_, fun g => ?_, rfl, fun g hg => ?_, fun k' hk' => ?_, ?_⟩
    · simp [setFile_file, hne, hfree f₀ h₀]
    · simp [setFile_file, hfree f₁ h₁]
    · simp [setFile_file, hne]
    · simp [setFile_file]
    · rintro _ _ ⟨⟩
      exact ⟨hne, h₀, h₁⟩
    · by_cases hg₁ : g = f₁
      · simp [endRefs, setEnds, setFile_file, setPipe, hg₁, hne.symm, h₁]
      · by_cases hg₀ : g = f₀
        · simp [endRefs, setEnds, setFile_file, setPipe, hg₀, hne, h₀]
        · simp [endRefs, setEnds, setFile_file, setPipe, hg₀, hg₁]
    · have hg₀ : g ≠ f₀ := by
        rintro rfl
        exact hg.ne' h₀
      have hg₁ : g ≠ f₁ := by
        rintro rfl
        exact hg.ne' h₁
      simp [setEnds, setFile_file, setPipe, hg₀, hg₁]
    · have hne' : k' ≠ k := by
        rintro rfl
        exact hk' hk
      simp [setEnds, setFile, setPipe, hne']
    · rintro _ _ ⟨⟩
      refine ⟨k, hk, ?_, ?_, ?_⟩
      · simp [setEnds, setFile, setPipe]
      · simp [setEnds, setFile_file, setPipe, File.IsEnd, hne]
      · simp [setEnds, setFile_file, setPipe, File.IsEnd]

end Files

/-! ### Counting the descriptors -/

/-- The descriptors of the first `n` thread control blocks. -/
@[irreducible]
def slots (n : ℕ) : Finset (ℕ × Fin NOFILE) := Finset.range n ×ˢ Finset.univ

variable {n pid : ℕ} {fd : Fin NOFILE}

theorem mem_slots : (pid, fd) ∈ slots n ↔ pid < n := by simp [slots]

/-- A reference to `f`. -/
def one (f g : Fin NFILE) : ℕ := if g = f then 1 else 0

/-- The counts are right when the running system call holds the references `e` besides the descriptors. -/
structure Held (s : Files ι) (e : Fin NFILE → ℕ) : Prop where
  inv : FileInv s
  count : ∀ g, (s.file g).ref = holders (slots NUM_IDS) s.openfiles g + e g

namespace Held

variable {s t : Files ι} {e : Fin NFILE → ℕ} {f : Fin NFILE} {pid : ℕ} {fd : Fin NOFILE}

theorem alloc (h : Held s e) (ha : s.fileAlloc = some (f, t)) : Held t (e + one f) := by
  have hs := Files.fileAlloc_spec h.inv ha
  refine ⟨hs.inv, fun g => ?_⟩
  rw [hs.ref, hs.openfiles]
  have := h.count g
  by_cases hg : g = f
  · subst hg
    simp only [if_true, Pi.add_apply, one]
    have := hs.free
    omega
  · simp only [if_neg hg, Pi.add_apply, one]
    omega

theorem close (h : Held s (e + one f)) : ∃ t c, s.fileClose f = .ok (t, c) ∧ Held t e ∧ Files.Drops s t f c := by
  have hpos : 0 < (s.file f).ref := by
    rw [h.count]
    simp only [Pi.add_apply, one, if_true]
    omega
  obtain ⟨t, c, he, hd⟩ := Files.fileClose_spec h.inv hpos
  refine ⟨t, c, he, ⟨hd.inv, fun g => ?_⟩, hd⟩
  have h1 := hd.ref g
  have h2 := h.count g
  rw [hd.openfiles]
  simp only [Pi.add_apply, one] at h2
  omega

theorem store (h : Held s (e + one f)) (hp : pid < NUM_IDS) (hfd : s.openfiles (pid, fd) = none) :
    Held (s.setOpenfiles pid fd (some f)) e := by
  refine ⟨⟨h.inv.file_ok, h.inv.uniq, h.inv.open_iff, h.inv.ref_iff, h.inv.ok⟩, fun g => ?_⟩
  have h1 := h.count g
  have h2 := holders_set (mem_slots.mpr hp) hfd f g
  simp only [Pi.add_apply, one] at h1
  simp only [Files.setOpenfiles]
  omega

theorem take (h : Held s e) (hp : pid < NUM_IDS) (hfd : s.openfiles (pid, fd) = some f) :
    Held (s.setOpenfiles pid fd none) (e + one f) := by
  refine ⟨⟨h.inv.file_ok, h.inv.uniq, h.inv.open_iff, h.inv.ref_iff, h.inv.ok⟩, fun g => ?_⟩
  have h1 := h.count g
  have h2 := holders_clear (mem_slots.mpr hp) hfd g
  simp only [Pi.add_apply, one, Files.setOpenfiles]
  omega

theorem ref_pos (h : Held s e) (hp : pid < NUM_IDS) (hfd : s.openfiles (pid, fd) = some f) : 0 < (s.file f).ref := by
  rw [h.count]
  have := holders_pos_iff.mpr ⟨(pid, fd), mem_slots.mpr hp, hfd⟩
  omega

theorem setOther (h : Held s e) {v : File ι} (hf : (s.file f).type ≠ .pipe) (hv : v.type ≠ .pipe)
    (href : v.ref = (s.file f).ref) (hpos : v.ref ≠ 0) (hino : v.type = .inode → v.ip ≠ none) :
    Held (s.setFile f v) e := by
  refine ⟨h.inv.setOther hf hv (fun e => absurd e hpos) hino, fun g => ?_⟩
  rw [Files.setFile_file]
  split_ifs with hg
  · rw [href, ← hg]
    exact h.count g
  · exact h.count g

theorem dup (h : Held s e) (hf : 0 < (s.file f).ref) :
    ∃ t, s.fileDup f = .ok t ∧ Held t (e + one f) ∧ t.openfiles = s.openfiles ∧
      (∀ g, 0 < (s.file g).ref → 0 < (t.file g).ref ∧ t.file g = { s.file g with ref := (t.file g).ref }) ∧
      (∀ g, (s.file g).ref = 0 → (t.file g).ref = 0) ∧ t.pipe = s.pipe := by
  unfold Files.fileDup
  rw [if_neg (by omega)]
  refine ⟨_, rfl, ⟨h.inv.setRef (by omega), fun g => ?_⟩, rfl, fun g hg => ?_, fun g hg => ?_, rfl⟩
  · rw [Files.setFile_file]
    have := h.count g
    by_cases hg : g = f
    · subst hg
      simp only [if_true, Pi.add_apply, one, Files.setFile_openfiles]
      omega
    · simp only [if_neg hg, Pi.add_apply, one, Files.setFile_openfiles]
      omega
  · rw [Files.setFile_file]
    split_ifs with e
    · rw [e]
      exact ⟨by simp, rfl⟩
    · exact ⟨hg, rfl⟩
  · rw [Files.setFile_file, if_neg (by rintro rfl; omega)]
    exact hg

end Held

/-! ### System calls -/

/-- The counts are right, and the descriptors of processes other than `pid` are as in `s`. -/
structure Keeps (s t : Files ι) (pid : ℕ) : Prop where
  held : Held t 0
  other : ∀ p fd, p ≠ pid → t.openfiles (p, fd) = s.openfiles (p, fd)

theorem Keeps.of_update {s t : Files ι} {v : Option (Fin NFILE)} (h : Held t 0)
    (ho : t.openfiles = update s.openfiles (pid, fd) v) : Keeps s t pid :=
  ⟨h, fun p fd' hne => by rw [ho, update_of_ne (by simp [hne])]⟩

namespace Files

variable {s t : Files ι} {f : Fin NFILE} {pid : ℕ} {fd : Fin NOFILE}

theorem fdalloc_eq (h : s.fdalloc pid f = some (fd, t)) :
    s.openfiles (pid, fd) = none ∧ t = s.setOpenfiles pid fd (some f) := by
  unfold fdalloc at h
  split at h
  · cases h
  · rename_i hfind
    cases h
    exact ⟨by simpa using List.find?_some hfind, rfl⟩

theorem closeFd_spec (h : Held s 0) (hp : pid < NUM_IDS) (fd : Fin NOFILE) :
    ∃ t c, s.closeFd pid fd = .ok (t, c) ∧ Held t 0 ∧
      t.openfiles = update s.openfiles (pid, fd) none ∧ Quiet s t c := by
  unfold closeFd
  split
  · rename_i hfd
    exact ⟨s, [], rfl, h, (update_eq_self_iff.mpr hfd.symm).symm, .refl s⟩
  · rename_i f hfd
    obtain ⟨t, c, he, hd⟩ := fileClose_spec h.inv (h.ref_pos hp hfd)
    refine ⟨t.setOpenfiles pid fd none, c, by rw [he]; rfl,
      ⟨⟨hd.inv.file_ok, hd.inv.uniq, hd.inv.open_iff, hd.inv.ref_iff, hd.inv.ok⟩, fun g => ?_⟩,
      by rw [setOpenfiles, hd.openfiles], ⟨hd.quiet.file, hd.quiet.ring, hd.quiet.isOpen⟩⟩
    have h1 := hd.ref g
    have h2 := h.count g
    have h3 := holders_clear (mem_slots.mpr hp) hfd g
    simp only [setOpenfiles, hd.openfiles, Pi.zero_apply] at h1 h2 ⊢
    omega

theorem closeFds_spec (h : Held s 0) (hp : pid < NUM_IDS) (fds : List (Fin NOFILE)) :
    ∃ t c, s.closeFds pid fds = .ok (t, c) ∧ Keeps s t pid := by
  induction fds generalizing s with
  | nil => exact ⟨s, [], rfl, h, fun _ _ _ => rfl⟩
  | cons fd fds ih =>
    obtain ⟨s1, c, he, h1, ho, -⟩ := closeFd_spec h hp fd
    obtain ⟨s2, c', he', hk'⟩ := ih h1
    refine ⟨s2, c ++ c', ?_, hk'.held, fun p fd' hne => ?_⟩
    · rw [closeFds, he]
      simp only [bind, Except.bind]
      rw [he']
    · rw [hk'.other p fd' hne, ho, update_of_ne (by simp [hne])]

theorem lookup_natCast (s : Files ι) (pid fd : ℕ) :
    s.lookup pid fd = if fd < NOFILE then s.openfiles (pid, Fin.ofNat NOFILE fd) else none := by
  simp only [lookup, Int.natCast_nonneg, true_and, Int.ofNat_lt, Int.toNat_natCast]

theorem sysClose_spec (h : Held s 0) (hp : pid < NUM_IDS) (fd : ℕ) :
    ∃ t c e, s.sysClose pid fd = .ok (t, c, e) ∧ Held t 0 ∧ Quiet s t c ∧
      t.openfiles = if fd < NOFILE then update s.openfiles (pid, Fin.ofNat NOFILE fd) none else s.openfiles := by
  unfold sysClose
  rw [lookup_natCast]
  split
  · rename_i hnone
    refine ⟨s, [], .badf, rfl, h, .refl s, ?_⟩
    split_ifs at hnone ⊢ with hfd
    · exact (update_eq_self_iff.mpr hnone.symm).symm
    · rfl
  · rename_i f hf
    obtain ⟨t, c, he, ht, ho, hq⟩ := closeFd_spec h hp (Fin.ofNat NOFILE fd)
    split_ifs at hf with hfd
    exact ⟨t, c, .succ, by rw [he]; rfl, ht, hq, by rw [if_pos hfd, ho]⟩

theorem keeps_close {fd : ℕ} (ht : Held t 0) (ho : t.openfiles =
    if fd < NOFILE then update s.openfiles (pid, Fin.ofNat NOFILE fd) none else s.openfiles) : Keeps s t pid := by
  split_ifs at ho
  · exact .of_update ht ho
  · exact ⟨ht, fun p fd _ => congrFun ho (p, fd)⟩

/-- What `sys_open` returns: an error, or a descriptor that was free, for a structure of its own. -/
def OpenRet (s t : Files ι) (pid : ℕ) (omode : BitVec 32) (ip : ι) : Except Errno (Fin NOFILE) → Prop
  | .error _ => t.openfiles = s.openfiles
  | .ok fd => s.openfiles (pid, fd) = none ∧ ∃ f, (s.file f).ref = 0 ∧
      t.openfiles = update s.openfiles (pid, fd) (some f) ∧
      t.file f = { s.file f with
        ref := 1
        type := .inode
        ip := some ip
        off := 0
        readable := !omode.getLsbD 0
        writable := omode.getLsbD 0 || omode.getLsbD 1 }

theorem OpenRet.keeps {omode : BitVec 32} {ip : ι} {r : Except Errno (Fin NOFILE)} (h : OpenRet s t pid omode ip r)
    (ht : Held t 0) : Keeps s t pid := by
  rcases r with e | fd
  · exact ⟨ht, fun p fd _ => congrFun h (p, fd)⟩
  · obtain ⟨-, f, -, ho, -⟩ := h
    exact .of_update ht ho

theorem sysOpen_spec (h : Held s 0) (hp : pid < NUM_IDS) (omode : BitVec 32) (ip : ι) :
    ∃ t c r, s.sysOpen pid omode ip = .ok (t, c, r) ∧ Held t 0 ∧ Quiet s t c ∧ OpenRet s t pid omode ip r := by
  unfold sysOpen
  split
  · exact ⟨s, [], _, rfl, h, .refl s, rfl⟩
  · rename_i f s1 ha
    have hs := fileAlloc_spec h.inv ha
    have h1 := h.alloc ha
    have hused : ∀ g, 0 < (s.file g).ref → g ≠ f := by
      rintro g hg rfl
      exact hg.ne' hs.free
    split
    · -- no descriptor: the structure is given back
      have hfree : FreeOk s := fun f => (h.inv.file_ok f).free
      rw [(fileAlloc_eq ha).2, hfree.undo hs.free]
      exact ⟨s, [], .error .diskOp, rfl, h, .refl s, rfl⟩
    · rename_i fd s2 hfd
      obtain ⟨hnone, rfl⟩ := fdalloc_eq hfd
      have href : (s1.file f).ref = 1 := by simp [hs.ref]
      refine ⟨_, _, _, rfl, (h1.store hp hnone).setOther ?_ (by simp) rfl ?_ (by simp),
        .of_pipe_eq (fun g hg _ => ?_) hs.pipe, by rwa [hs.openfiles] at hnone, f, hs.free, ?_, ?_⟩
      · rw [show ((s1.setOpenfiles pid fd (some f)).file f).type = .none from hs.type]
        simp
      · exact ne_of_eq_of_ne href one_ne_zero
      · rw [setFile_file, if_neg (hused g hg), show (s1.setOpenfiles pid fd (some f)).file g = s1.file g from rfl,
          hs.other g (hused g hg)]
      · rw [setFile_openfiles, setOpenfiles, hs.openfiles]
      · rw [setFile_file, if_pos rfl, show (s1.setOpenfiles pid fd (some f)).file f = s1.file f from rfl, hs.file]

theorem AllocsPipe.undo {s1 s2 s3 s4 : Files ι} {rf wf : Fin NFILE} {c1 c2 : List (FileCall ι)}
    (h : AllocsPipe s s1 (some (rf, wf))) (hfile : s2.file = s1.file) (hpipe : s2.pipe = s1.pipe)
    (hr : Drops s2 s3 rf c1) (hw : Drops s3 s4 wf c2) (c : List (FileCall ι)) : Quiet s s4 c := by
  obtain ⟨hne, hfr, hfw⟩ := h.fresh rf wf rfl
  obtain ⟨k, hk, -, hrend, hwend⟩ := h.ends rf wf rfl
  have hwf : s3.file wf = s1.file wf := by
    have href : 0 < (s2.file wf).ref := by
      rw [hfile, h.ref, endRefs, if_neg hne.symm, if_pos rfl]
      omega
    rw [hr.file_of_ne hne.symm href, hfile]
  have hother : ∀ g, 0 < (s.file g).ref → s4.file g = s.file g := by
    intro g hg
    have hgr : g ≠ rf := by
      rintro rfl
      exact hg.ne' hfr
    have hgw : g ≠ wf := by
      rintro rfl
      exact hg.ne' hfw
    have e1 : s2.file g = s.file g := by rw [hfile, h.file g hg]
    have e2 : s3.file g = s.file g := by rw [hr.file_of_ne hgr (by rwa [e1]), e1]
    rw [hw.file_of_ne hgw (by rwa [e2]), e2]
  have hpipes : ∀ k', (s.pipe k').ref ≠ 0 → s4.pipe k' = s.pipe k' := by
    intro k' hk'
    have hkk : k ≠ k' := by
      rintro rfl
      exact hk' hk
    have hno : ∀ {v : File ι} {w : Bool}, v.IsEnd k w → ∀ w', ¬ v.IsEnd k' w' := fun hv w' hv' =>
      hkk (by simpa [hv.2.1] using hv'.2.1)
    rw [hw.pipe k' (hwf ▸ hno hwend), hr.pipe k' (hfile ▸ hno hrend), hpipe, h.pipe k' hk']
  exact ⟨fun g hg _ => by rw [hother g hg], fun k' hk' => by rw [hpipes k' hk'], fun k' w hk' => .inl (by rw [hpipes k' hk'])⟩

/-- What `sys_pipe` returns: an error, or two descriptors that were free, for the ends of a pipe that was free. -/
def PipeRet (s t : Files ι) (pid : ℕ) : Except Errno (Fin NOFILE × Fin NOFILE) → Prop
  | .error _ => t.openfiles = s.openfiles
  | .ok (fd₀, fd₁) => fd₀ ≠ fd₁ ∧ s.openfiles (pid, fd₀) = none ∧ s.openfiles (pid, fd₁) = none ∧ ∃ f₀ f₁ k,
      (s.pipe k).ref = 0 ∧ t.pipe k = (s.pipe k).opened ∧ (t.file f₀).IsEnd k false ∧ (t.file f₁).IsEnd k true ∧
      t.openfiles = update (update s.openfiles (pid, fd₀) (some f₀)) (pid, fd₁) (some f₁)

theorem PipeRet.keeps {r : Except Errno (Fin NOFILE × Fin NOFILE)} (h : PipeRet s t pid r) (ht : Held t 0) :
    Keeps s t pid := by
  rcases r with e | ⟨fd₀, fd₁⟩
  · exact ⟨ht, fun p fd _ => congrFun h (p, fd)⟩
  · obtain ⟨-, -, -, f₀, f₁, k, -, -, -, -, ho⟩ := h
    refine ⟨ht, fun p fd hne => ?_⟩
    rw [ho, update_of_ne (by simp [hne]), update_of_ne (by simp [hne])]

theorem sysPipe_spec (h : Held s 0) (hp : pid < NUM_IDS) (addr : UInt32) :
    ∃ t c r, s.sysPipe pid addr = .ok (t, c, r) ∧ Held t 0 ∧ Quiet s t c ∧ PipeRet s t pid r := by
  unfold sysPipe
  by_cases haddr : addr < VM_USERLO ∨ VM_USERHI < addr + 8
  · rw [if_pos haddr]
    exact ⟨s, [], _, rfl, h, .refl s, rfl⟩
  rw [if_neg haddr]
  obtain ⟨s₁, c, ends, he, hs⟩ := pipeAlloc_spec h.inv
  rw [he]
  have hheld : Held s₁ (endRefs · ends) := ⟨hs.inv, fun g => by
    have := h.count g
    rw [hs.ref, hs.openfiles, this]
    simp⟩
  have hquiet : ∀ c, Quiet s s₁ c := fun c => ⟨fun g hg _ => by rw [hs.file g hg], fun k hk => by rw [hs.pipe k hk],
    fun k w hk => .inl (by rw [hs.pipe k hk])⟩
  simp only [bind, Except.bind]
  rcases ends with _ | ⟨rf, wf⟩
  · exact ⟨_, _, _, rfl, hheld, hquiet _, hs.openfiles⟩
  have h₁ : Held s₁ ((0 + one wf) + one rf) := ⟨hheld.inv, fun g => by
    rw [hheld.count]
    simp only [endRefs, one, Pi.add_apply, Pi.zero_apply]
    omega⟩
  cases hfd₀ : s₁.fdalloc pid rf with
  | none =>
    obtain ⟨s₂, c₁, he₁, h₂, hd₁⟩ := h₁.close
    obtain ⟨s₃, c₂, he₂, h₃, hd₂⟩ := h₂.close
    refine ⟨s₃, c ++ (c₁ ++ c₂), .error .badf, ?_, h₃, hs.undo rfl rfl hd₁ hd₂ _, ?_⟩
    · simp only [hfd₀, he₁, he₂]
    · exact hd₂.openfiles.trans (hd₁.openfiles.trans hs.openfiles)
  | some r =>
    obtain ⟨fd₀, s₂⟩ := r
    obtain ⟨hnone, rfl⟩ := fdalloc_eq hfd₀
    have h₂ := h₁.store hp hnone
    have hslot : (s₁.setOpenfiles pid fd₀ (some rf)).openfiles (pid, fd₀) = some rf := by simp [setOpenfiles]
    cases hfd₁ : (s₁.setOpenfiles pid fd₀ (some rf)).fdalloc pid wf with
    | none =>
      -- the first descriptor is taken back
      have h₂' := h₂.take hp hslot
      obtain ⟨s₃, c₁, he₁, h₃, hd₁⟩ := h₂'.close
      obtain ⟨s₄, c₂, he₂, h₄, hd₂⟩ := h₃.close
      refine ⟨s₄, c ++ (c₁ ++ c₂), .error .badf, ?_, h₄, hs.undo (by rfl) (by rfl) hd₁ hd₂ _, ?_⟩
      · simp only [hfd₀, hfd₁, he₁, he₂]
      · refine hd₂.openfiles.trans (hd₁.openfiles.trans ?_)
        simp only [setOpenfiles, update_idem]
        rw [update_eq_self_iff.mpr hnone.symm, hs.openfiles]
    | some r =>
      obtain ⟨fd₁, s₃⟩ := r
      obtain ⟨hnone', rfl⟩ := fdalloc_eq hfd₁
      have hne : fd₀ ≠ fd₁ := by
        rintro rfl
        rw [hslot] at hnone'
        cases hnone'
      have hfree₁ : s₁.openfiles (pid, fd₁) = none := by
        simpa [setOpenfiles, update_of_ne, hne.symm] using hnone'
      obtain ⟨k, hk, hopened, hrend, hwend⟩ := hs.ends rf wf rfl
      refine ⟨(s₁.setOpenfiles pid fd₀ (some rf)).setOpenfiles pid fd₁ (some wf), c, .ok (fd₀, fd₁),
        by simp only [hfd₀, hfd₁], h₂.store hp hnone', ⟨(hquiet c).file, (hquiet c).ring, (hquiet c).isOpen⟩, hne, ?_, ?_,
        rf, wf, k, hk, hopened, hrend, hwend, ?_⟩
      · rwa [hs.openfiles] at hnone
      · rwa [hs.openfiles] at hfree₁
      · simp only [setOpenfiles, hs.openfiles]

/-- Descriptor `x` now has `v`; what was in use still is. -/
structure Gives (s t : Files ι) (x : ℕ × Fin NOFILE) (v : Option (Fin NFILE)) : Prop where
  held : Held t 0
  openfiles : t.openfiles = update s.openfiles x v
  file : ∀ g, 0 < (s.file g).ref → 0 < (t.file g).ref ∧ t.file g = { s.file g with ref := (t.file g).ref }
  pipe : t.pipe = s.pipe

/-- `v` is a structure of its own for the console. -/
def IsConsole (s t : Files ι) (type : FdType) (r w : Bool) (v : Option (Fin NFILE)) : Prop :=
  ∀ f, v = some f → (s.file f).ref = 0 ∧ t.file f = { s.file f with type := type, readable := r, writable := w, ref := 1 }

theorem consoleFd_spec (h : Held s 0) (hp : pid < NUM_IDS) (hfd : s.openfiles (pid, fd) = none) (type : FdType)
    (hpipe : type ≠ .pipe) (hino : type ≠ .inode) (r w : Bool) :
    ∃ v, Gives s (s.consoleFd pid fd type r w) (pid, fd) v ∧ IsConsole s (s.consoleFd pid fd type r w) type r w v ∧
      ((∃ f, (s.file f).ref = 0) → v ≠ none) := by
  unfold consoleFd
  split
  · rename_i hnone
    refine ⟨none, ⟨h, (update_eq_self_iff.mpr hfd.symm).symm, fun _ hg => ⟨hg, rfl⟩, rfl⟩, nofun, fun ⟨f, hf⟩ => ?_⟩
    unfold fileAlloc at hnone
    split at hnone
    · rename_i hfind
      have := List.find?_eq_none.mp hfind f (List.mem_finRange f)
      simp [hf] at this
    · cases hnone
  · rename_i f s1 ha
    have hs := fileAlloc_spec h.inv ha
    have href : (s1.file f).ref = 1 := by simp [hs.ref]
    have h1 : Held (s1.setFile f { s1.file f with type := type, readable := r, writable := w, ref := 1 }) (0 + one f) :=
      (h.alloc ha).setOther (by simp [hs.type]) hpipe href.symm one_ne_zero (fun e => absurd e hino)
    refine ⟨some f, ⟨h1.store hp ?_, ?_, fun g hg => ?_, hs.pipe⟩, ?_, fun _ => Option.some_ne_none f⟩
    · rw [setFile_openfiles, hs.openfiles]
      exact hfd
    · rw [setOpenfiles, setFile_openfiles, hs.openfiles]
    · have hne : g ≠ f := by
        rintro rfl
        exact hg.ne' hs.free
      have hfile : (s1.setFile f { s1.file f with type := type, readable := r, writable := w, ref := 1 }).file g = s.file g := by
        rw [setFile_file, if_neg hne, hs.other g hne]
      exact ⟨by simpa only [setOpenfiles, hfile] using hg, by simp only [setOpenfiles, hfile]⟩
    · rintro _ ⟨⟩
      refine ⟨hs.free, ?_⟩
      simp only [setOpenfiles, setFile_file, if_true, hs.file]

/-- The descriptors of a new process `child` of `curid`. -/
structure Spawns (s t : Files ι) (curid child : ℕ) (stdinFd stdoutFd : ℤ) : Prop where
  held : Held t 0
  other : ∀ p fd, p ≠ child → t.openfiles (p, fd) = s.openfiles (p, fd)
  file : ∀ g, 0 < (s.file g).ref → 0 < (t.file g).ref ∧ t.file g = { s.file g with ref := (t.file g).ref }
  pipe : t.pipe = s.pipe
  /-- What the child has it has from the parent, or it is the console. -/
  own : ∀ fd f, t.openfiles (child, fd) = some f → fd = 0 ∧ s.lookup curid stdinFd = some f ∨
    fd = 1 ∧ s.lookup curid stdoutFd = some f ∨ (s.file f).ref = 0 ∧ (t.file f).type ≠ .pipe
  low : ∀ fd, t.openfiles (child, fd) ≠ none → fd.val < 3
  stdin : ∀ f, s.lookup curid stdinFd = some f → t.openfiles (child, 0) = some f
  stdout : ∀ f, s.lookup curid stdoutFd = some f → t.openfiles (child, 1) = some f
  /-- Standard output is the console if there is a structure left. -/
  console : stdoutFd = -1 → s.lookup curid stdinFd ≠ none → (∃ f, (s.file f).ref = 0) →
    ∃ f, t.openfiles (child, 1) = some f ∧ (t.file f).type = .consoleOut ∧ (t.file f).writable = true

variable {curid : ℕ} {stdinFd stdoutFd : ℤ} {u : Files ι} {x : ℕ × Fin NOFILE} {v : Option (Fin NFILE)}

theorem Spawns.keeps (h : Spawns s t curid pid stdinFd stdoutFd) : Keeps s t pid :=
  ⟨h.held, h.other⟩

theorem Spawns.quiet (h : Spawns s t curid pid stdinFd stdoutFd) : Quiet s t [] :=
  .of_pipe_eq (fun g hg _ => (h.file g hg).2) h.pipe

theorem inheritFd_spec (h : Held s 0) (hc : curid < NUM_IDS) (hp : pid < NUM_IDS)
    (hfd : s.openfiles (pid, fd) = none) (src : ℤ) (type : FdType) (hpipe : type ≠ .pipe) (hino : type ≠ .inode)
    (r w : Bool) :
    ∃ t v, s.inheritFd curid pid fd src type r w = .ok t ∧ Gives s t (pid, fd) v ∧
      (∀ f, s.lookup curid src = some f → v = some f ∧ ∀ g, (s.file g).ref = 0 → (t.file g).ref = 0) ∧
      (s.lookup curid src = none → IsConsole s t type r w v) ∧
      (s.lookup curid src = none → src = -1 → (∃ f, (s.file f).ref = 0) → v ≠ none) := by
  unfold inheritFd
  cases hl : s.lookup curid src with
  | some f =>
    obtain ⟨fd', hslot⟩ : ∃ fd', s.openfiles (curid, fd') = some f := by
      unfold lookup at hl
      split_ifs at hl
      exact ⟨_, hl⟩
    obtain ⟨t, he, ht, ho, hfile, hzero, hpipes⟩ := h.dup (h.ref_pos hc hslot)
    exact ⟨t.setOpenfiles pid fd (some f), some f, by simp only [he]; rfl,
      ⟨ht.store hp (by rw [ho]; exact hfd), by rw [setOpenfiles, ho], hfile, hpipes⟩, fun _ e => ⟨e ▸ rfl, hzero⟩, nofun,
      nofun⟩
  | none =>
    by_cases hsrc : src = -1
    · obtain ⟨v, hg, hcon, hv⟩ := consoleFd_spec h hp hfd type hpipe hino r w
      simp only [if_pos hsrc]
      exact ⟨_, v, rfl, hg, nofun, fun _ => hcon, fun _ _ => hv⟩
    · simp only [if_neg hsrc]
      exact ⟨s, none, rfl, ⟨h, (update_eq_self_iff.mpr hfd.symm).symm, fun _ hg => ⟨hg, rfl⟩, rfl⟩, nofun, nofun,
        fun _ e => absurd e hsrc⟩

theorem Gives.file_trans {y : ℕ × Fin NOFILE} {w : Option (Fin NFILE)} (h : Gives s t x v)
    (h' : Gives t u y w) (g : Fin NFILE) (hg : 0 < (s.file g).ref) :
    0 < (u.file g).ref ∧ u.file g = { s.file g with ref := (u.file g).ref } := by
  obtain ⟨h1, e1⟩ := h.file g hg
  obtain ⟨h2, e2⟩ := h'.file g h1
  exact ⟨h2, by rw [e2, e1]⟩

theorem Gives.free (h : Gives s t x v) (hf : (t.file f).ref = 0) :
    (s.file f).ref = 0 :=
  Nat.eq_zero_of_not_pos fun hpos => (h.file f hpos).1.ne' hf

theorem IsConsole.type_eq {v' : Option (Fin NFILE)} {type : FdType} {r w : Bool}
    (h : IsConsole s t type r w v) (hv : v = some f) (h' : Gives t u x v') :
    (s.file f).ref = 0 ∧ (u.file f).type = type := by
  obtain ⟨hfree, hfile⟩ := h f hv
  obtain ⟨-, e⟩ := h'.file f (by rw [hfile]; exact one_pos)
  exact ⟨hfree, by rw [e, hfile]⟩

theorem lookup_neg_one (s : Files ι) (pid : ℕ) : s.lookup pid (-1) = none := by simp [lookup]

theorem spawnFds_eq (s : Files ι) (curid pid : ℕ) (stdinFd stdoutFd : ℤ) :
    s.spawnFds curid pid stdinFd stdoutFd = (do
      let s₁ ← s.inheritFd curid pid 0 stdinFd .consoleIn true false
      let s₂ ← s₁.inheritFd curid pid 1 stdoutFd .consoleOut false true
      .ok (if stdinFd = -1 ∧ stdoutFd = -1 then s₂.consoleFd pid 2 .consoleOut false true else s₂)) := by
  unfold spawnFds
  split_ifs with h
  · rw [h.1, h.2]
    simp [inheritFd, lookup_neg_one, consoleInitFds, bind, Except.bind]
  · exact congrArg _ (funext fun _ => (bind_pure _).symm)

theorem Spawns.third (h : Spawns s t curid pid (-1) (-1)) (hp : pid < NUM_IDS) (hfd : t.openfiles (pid, 2) = none) :
    Spawns s (t.consoleFd pid 2 .consoleOut false true) curid pid (-1) (-1) := by
  obtain ⟨v, hv, hcon, -⟩ := consoleFd_spec h.held hp hfd .consoleOut (by decide) (by decide) false true
  refine ⟨hv.held, fun p fd hne => ?_, fun g hg => ?_, hv.pipe.trans h.pipe, fun fd f hf => ?_, fun fd hfd => ?_,
    fun f hf => ?_, fun f hf => ?_, fun _ hl => absurd (lookup_neg_one s curid) hl⟩
  · rw [hv.openfiles, update_of_ne (by simp [hne]), h.other p fd hne]
  · obtain ⟨h₁, e₁⟩ := h.file g hg
    obtain ⟨h₂, e₂⟩ := hv.file g h₁
    exact ⟨h₂, by rw [e₂, e₁]⟩
  · rw [hv.openfiles, update_apply] at hf
    split_ifs at hf
    · obtain ⟨hz, e⟩ := hcon f hf
      exact .inr (.inr ⟨Nat.eq_zero_of_not_pos fun hpos => (h.file f hpos).1.ne' hz, by rw [e]; simp⟩)
    · refine (h.own fd f hf).imp_right (.imp_right fun ⟨hz, htype⟩ => ⟨hz, ?_⟩)
      rw [(hv.file f (h.held.ref_pos hp hf)).2]
      exact htype
  · rw [hv.openfiles, update_apply] at hfd
    split_ifs at hfd with e
    · rw [(Prod.mk.inj e).2]
      decide
    · exact h.low fd hfd
  · cases (lookup_neg_one s curid).symm.trans hf
  · cases (lookup_neg_one s curid).symm.trans hf

theorem spawnFds_spec (h : Held s 0) (hc : curid < NUM_IDS) (hp : pid < NUM_IDS) (hne : curid ≠ pid)
    (hfree : ∀ fd, s.openfiles (pid, fd) = none) (stdinFd stdoutFd : ℤ) :
    ∃ t, s.spawnFds curid pid stdinFd stdoutFd = .ok t ∧ Spawns s t curid pid stdinFd stdoutFd := by
  obtain ⟨s₁, v₀, he₀, h₀, hin, hc₀, -⟩ :=
    inheritFd_spec h hc hp (hfree 0) stdinFd .consoleIn (by decide) (by decide) true false
  have hfree₁ : s₁.openfiles (pid, 1) = none := by
    rw [h₀.openfiles, update_of_ne (by simp)]
    exact hfree 1
  have hlook : ∀ fd, s₁.lookup curid fd = s.lookup curid fd := fun fd => by
    simp only [lookup, h₀.openfiles]
    rw [update_of_ne (by simp [hne])]
  obtain ⟨s₂, v₁, he₁, h₁, hout, hc₁, hv₁⟩ :=
    inheritFd_spec h₀.held hc hp hfree₁ stdoutFd .consoleOut (by decide) (by decide) false true
  rw [hlook] at hout hc₁ hv₁
  have hopen : ∀ x, s₂.openfiles x = if x = (pid, 1) then v₁ else if x = (pid, 0) then v₀ else s.openfiles x := by
    intro x
    rw [h₁.openfiles, h₀.openfiles]
    simp only [update_apply]
  suffices hs₂ : Spawns s s₂ curid pid stdinFd stdoutFd by
    simp only [spawnFds_eq, he₀, he₁, bind, Except.bind]
    refine ⟨_, rfl, ?_⟩
    split_ifs with hboth
    · obtain ⟨rfl, rfl⟩ := hboth
      exact hs₂.third hp (by rw [hopen]; simpa using hfree 2)
    · exact hs₂
  refine ⟨h₁.held, fun p fd hne' => ?_, h₀.file_trans h₁, h₁.pipe.trans h₀.pipe, fun fd f hf => ?_, fun fd hfd => ?_,
    fun f hf => ?_, fun f hf => ?_, fun hsrc hl hfr => ?_⟩
  · simp [hopen, hne']
  · rw [hopen] at hf
    split_ifs at hf with e₁ e₀
    · cases hl : s.lookup curid stdoutFd with
      | some g =>
        obtain rfl : g = f := by simpa [(hout g hl).1] using hf
        exact .inr (.inl ⟨(Prod.mk.inj e₁).2, rfl⟩)
      | none =>
        obtain ⟨hz, e⟩ := hc₁ hl f hf
        exact .inr (.inr ⟨h₀.free hz, by rw [e]; simp⟩)
    · cases hl : s.lookup curid stdinFd with
      | some g =>
        obtain rfl : g = f := by simpa [(hin g hl).1] using hf
        exact .inl ⟨(Prod.mk.inj e₀).2, rfl⟩
      | none =>
        obtain ⟨hz, e⟩ := (hc₀ hl).type_eq hf h₁
        exact .inr (.inr ⟨hz, by rw [e]; simp⟩)
    · rw [hfree fd] at hf
      cases hf
  · rw [hopen] at hfd
    split_ifs at hfd with e₁ e₀
    · rw [(Prod.mk.inj e₁).2]
      decide
    · rw [(Prod.mk.inj e₀).2]
      decide
    · exact absurd (hfree fd) hfd
  · simp [hopen, (hin f hf).1]
  · simp [hopen, (hout f hf).1]
  · -- standard input took no structure, so the one that was left still is
    subst hsrc
    have hl₁ := lookup_neg_one s curid
    obtain ⟨f₀, hf₀⟩ := ne_none_iff_exists'.mp hl
    obtain ⟨f, hf⟩ := hfr
    obtain ⟨f₁, hf₁⟩ := ne_none_iff_exists'.mp (hv₁ hl₁ rfl ⟨f, (hin f₀ hf₀).2 f hf⟩)
    obtain ⟨-, e⟩ := hc₁ hl₁ f₁ hf₁
    exact ⟨f₁, by simp [hopen, hf₁], by rw [e], by rw [e]⟩

theorem consoleInitFds_spec (h : Held s 0) (hp : pid < NUM_IDS) (hfree : ∀ fd, s.openfiles (pid, fd) = none)
    (hc : curid < NUM_IDS) (hne : curid ≠ pid) : Spawns s (s.consoleInitFds pid) curid pid (-1) (-1) := by
  obtain ⟨t, ht, hk⟩ := spawnFds_spec h hc hp hne hfree (-1) (-1)
  obtain rfl : s.consoleInitFds pid = t := Except.ok.inj ht
  exact hk

theorem spawnFds_console (h : Held s 0) (hc : curid < NUM_IDS) (hp : pid < NUM_IDS)
    (hfree : ∀ fd, s.openfiles (pid, fd) = none) (he : s.spawnFds curid pid stdinFd stdoutFd = .ok t)
    (hroom : ∃ f, (t.file f).ref = 0) :
    (stdinFd = -1 → ∃ f, t.openfiles (pid, 0) = some f ∧ (t.file f).type = .consoleIn) ∧
      (stdoutFd = -1 → ∃ f, t.openfiles (pid, 1) = some f ∧ (t.file f).type = .consoleOut) := by
  obtain ⟨g, hg⟩ := hroom
  obtain ⟨s₁, v₀, he₀, h₀, -, hc₀, hv₀⟩ :=
    inheritFd_spec h hc hp (hfree 0) stdinFd .consoleIn (by decide) (by decide) true false
  have hfree₁ : s₁.openfiles (pid, 1) = none := by
    rw [h₀.openfiles, update_of_ne (by simp)]
    exact hfree 1
  obtain ⟨s₂, v₁, he₁, h₁, -, hc₁, hv₁⟩ :=
    inheritFd_spec h₀.held hc hp hfree₁ stdoutFd .consoleOut (by decide) (by decide) false true
  simp only [spawnFds_eq, he₀, he₁, bind, Except.bind, Except.ok.injEq] at he
  -- the third descriptor leaves the other two and their structures alone
  obtain ⟨hopen, hfile⟩ : (∀ fd, fd ≠ 2 → t.openfiles (pid, fd) = s₂.openfiles (pid, fd)) ∧
      ∀ f, 0 < (s₂.file f).ref → 0 < (t.file f).ref ∧ t.file f = { s₂.file f with ref := (t.file f).ref } := by
    rw [← he]
    split_ifs
    · have hfree₂ : s₂.openfiles (pid, 2) = none := by
        rw [h₁.openfiles, update_of_ne (by simp), h₀.openfiles, update_of_ne (by simp)]
        exact hfree 2
      obtain ⟨v₂, h₂, -, -⟩ := consoleFd_spec h₁.held hp hfree₂ .consoleOut (by decide) (by decide) false true
      exact ⟨fun fd hfd => by rw [h₂.openfiles, update_of_ne (by simp [hfd])], h₂.file⟩
    · exact ⟨fun _ _ => rfl, fun f hf => ⟨hf, rfl⟩⟩
  have hg₁ : (s₁.file g).ref = 0 := h₁.free (Nat.eq_zero_of_not_pos fun hpos => (hfile g hpos).1.ne' hg)
  constructor
  · rintro rfl
    have hl := lookup_neg_one s curid
    obtain ⟨f, hf⟩ := ne_none_iff_exists'.mp (hv₀ hl rfl ⟨g, h₀.free hg₁⟩)
    have hslot : s₂.openfiles (pid, 0) = some f := by simp [h₁.openfiles, h₀.openfiles, hf]
    refine ⟨f, (hopen 0 (by decide)).trans hslot, ?_⟩
    rw [(hfile f (h₁.held.ref_pos hp hslot)).2]
    exact ((hc₀ hl).type_eq hf h₁).2
  · rintro rfl
    have hl := lookup_neg_one s₁ curid
    obtain ⟨f, hf⟩ := ne_none_iff_exists'.mp (hv₁ hl rfl ⟨g, hg₁⟩)
    have hslot : s₂.openfiles (pid, 1) = some f := by simp [h₁.openfiles, hf]
    refine ⟨f, (hopen 1 (by decide)).trans hslot, ?_⟩
    rw [(hfile f (h₁.held.ref_pos hp hslot)).2]
    exact congrArg File.type (hc₁ hl f hf).2

theorem setPipe_held (h : Held s 0) {k : Fin NPIPE} {p : Pipe} (hp : p.Ok) (he : (s.pipe k).SameEnds p) :
    Held (s.setPipe k p) 0 := by
  have hpipe : ∀ k', (s.setPipe k p).pipe k' = if k' = k then p else s.pipe k' := fun k' => by
    simp [setPipe, update_apply]
  have hopen : ∀ k' w, ((s.setPipe k p).pipe k').isOpen w = (s.pipe k').isOpen w := by
    intro k' w
    rw [hpipe]
    split_ifs with hk
    · rw [hk]
      cases w
      · exact he.readopen
      · exact he.writeopen
    · rfl
  refine ⟨⟨h.inv.file_ok, h.inv.uniq, fun k' w => ?_, fun k' => ?_, fun k' => ?_⟩, h.count⟩
  · rw [hopen]
    exact h.inv.open_iff k' w
  · simp only [hopen]
    rw [← h.inv.ref_iff, hpipe]
    split_ifs with hk
    · rw [hk, he.ref]
    · rfl
  · rw [hpipe]
    split_ifs
    · exact hp
    · exact h.inv.ok k'

theorem readPipe_held (h : Held s 0) (fd n : ℕ) : Keeps s (s.readPipe pid fd n) pid := by
  unfold readPipe
  split
  · exact ⟨h, fun _ _ _ => rfl⟩
  split
  swap
  · exact ⟨h, fun _ _ _ => rfl⟩
  split
  · exact ⟨h, fun _ _ _ => rfl⟩
  · rename_i k _ _ _ _ p _ hr
    unfold pipeRead at hr
    split_ifs at hr
    have hs := pipeReadRun_spec n (h.inv.ok k)
    rw [Option.some.injEq] at hr
    rw [hr] at hs
    exact ⟨setPipe_held h hs.1 hs.2.1, fun _ _ _ => rfl⟩

theorem writePipe_held (h : Held s 0) (fd : ℕ) (bs : List UInt8) : Keeps s (s.writePipe pid fd bs) pid := by
  unfold writePipe
  split
  · exact ⟨h, fun _ _ _ => rfl⟩
  split
  swap
  · exact ⟨h, fun _ _ _ => rfl⟩
  · rename_i k _ _ _
    have hs := pipeWriteRun_spec bs (h.inv.ok k)
    exact ⟨setPipe_held h hs.ok hs.ends, fun _ _ _ => rfl⟩

end Files

/-! ### Runs -/

namespace FileProcs

/-- The invariant between system calls. -/
structure Inv (s : FileProcs ι) : Prop where
  held : Held s.files 0
  /-- The processes are those `container_split` handed out. -/
  family : Family s.container s.spawned
  bound : ∀ p ∈ s.spawned, p < NUM_IDS
  unused : ∀ p fd, p ∉ s.spawned → s.files.openfiles (p, fd) = none

variable {s t : FileProcs ι}

variable {pid : ℕ} {quota : UInt32}

theorem Inv.keeps (h : s.Inv) {files : Files ι} (hp : pid ∈ s.spawned) (hk : Keeps s.files files pid) :
    Inv { s with files := files } where
  held := hk.held
  family := h.family
  bound := h.bound
  unused p fd hps := by
    rw [hk.other p fd (fun e => hps (e ▸ hp))]
    exact h.unused p fd hps

theorem Inv.spawn (h : s.Inv) {elfId : ℕ} (hp : pid ∈ s.spawned)
    (hs : spawnError s.container pid elfId quota = none) (stdinFd stdoutFd : ℤ) :
    ∃ files, s.files.spawnFds pid (containerSplit s.container pid quota).1 stdinFd stdoutFd = .ok files ∧
      Inv ⟨files, (containerSplit s.container pid quota).2, (containerSplit s.container pid quota).1 :: s.spawned⟩ := by
  obtain ⟨hn, hlt⟩ := child_lt_of_spawnError (h.family.le_max _) hs
  have hchild := h.family.child_notMem hn
  obtain ⟨files, he, hk⟩ := Files.spawnFds_spec h.held (h.bound pid hp) hlt (fun e => hchild (e ▸ hp))
    (fun fd => h.unused _ fd hchild) stdinFd stdoutFd
  refine ⟨files, he, hk.held, h.family.split hn quota (.inl hp), fun p hps => ?_, fun p fd hps => ?_⟩
  · rcases List.mem_cons.mp hps with rfl | hps
    · exact hlt
    · exact h.bound p hps
  · rw [List.mem_cons, not_or] at hps
    rw [hk.other p fd hps.1]
    exact h.unused p fd hps.2

theorem Inv.call (h : s.Inv) (hp : pid ∈ s.spawned) (op : FileOp ι) :
    ∃ t, s.call pid op = .ok t ∧ t.Inv := by
  have hlt := h.bound pid hp
  cases op with
  | «open» omode ip =>
    cases ip with
    | error => exact ⟨s, rfl, h⟩
    | ok ip =>
      obtain ⟨t, c, r, he, ht, -, hr⟩ := Files.sysOpen_spec h.held hlt omode ip
      exact ⟨_, by rw [FileProcs.call, he]; rfl, h.keeps hp (hr.keeps ht)⟩
  | pipe addr =>
    obtain ⟨t, c, r, he, ht, -, hr⟩ := Files.sysPipe_spec h.held hlt addr
    exact ⟨_, by rw [FileProcs.call, he]; rfl, h.keeps hp (hr.keeps ht)⟩
  | close fd =>
    obtain ⟨t, c, r, he, ht, -, ho⟩ := Files.sysClose_spec h.held hlt fd
    exact ⟨_, by rw [FileProcs.call, he]; rfl, h.keeps hp (Files.keeps_close ht ho)⟩
  | spawn elfId quota stdinFd stdoutFd =>
    cases hs : spawnError s.container pid elfId quota with
    | some e => exact ⟨s, by simp only [FileProcs.call, hs], h⟩
    | none =>
      obtain ⟨files, he, hi⟩ := h.spawn hp hs stdinFd stdoutFd
      exact ⟨_, by simp only [FileProcs.call, hs, he]; rfl, hi⟩
  | exit =>
    obtain ⟨files, c, he, hk⟩ := Files.closeFds_spec h.held hlt (List.finRange NOFILE)
    have hi := h.keeps hp hk
    exact ⟨⟨files, containerRefundUsage s.container (s.container pid).parent (s.container pid).quota, s.spawned⟩,
      by rw [FileProcs.call, he]; rfl, hi.held, h.family.congr fun i => by simp, hi.bound, hi.unused⟩
  | read fd n => exact ⟨_, rfl, h.keeps hp (Files.readPipe_held h.held fd n)⟩
  | write fd bs => exact ⟨_, rfl, h.keeps hp (Files.writePipe_held h.held fd bs)⟩

def Next (s t : FileProcs ι) : Prop := ∃ pid ∈ s.spawned, ∃ op, s.call pid op = .ok t

theorem held_init : Held (Files.init : Files ι) 0 where
  inv :=
    { file_ok := fun _ => ⟨fun _ => rfl, nofun, nofun⟩
      uniq := fun _ _ _ _ hf => by cases hf.1
      open_iff := fun _ w => by
        cases w <;> exact iff_of_false (by simp [Files.init, zeroPipe, Pipe.isOpen]) fun ⟨_, hf⟩ => by cases hf.1
      ref_iff := fun _ => by simp [Files.init, zeroPipe, Pipe.isOpen]
      ok := fun _ => by simp [Files.init, zeroPipe, Pipe.Ok] }
  count _ := by
    rw [Pi.zero_apply, holders_eq_zero_iff.mpr fun x _ => by simp [Files.init]]
    rfl

theorem inv_boot (quota : UInt32) : (boot quota : FileProcs ι).Inv := by
  have hlt : (2 : ℕ) < NUM_IDS := by decide
  have hk := (Files.consoleInitFds_spec (held_init : Held (Files.init : Files ι) 0) hlt (fun _ => rfl)
    (show 0 < NUM_IDS by decide) (by decide)).keeps
  have h1 := (family_init quota).split (show (containerInit quota 0).nchildren < MAX_CHILDREN from Nat.zero_lt_succ _)
    1000 (.inr rfl)
  have h2 := h1.split (show ((containerSplit (containerInit quota) 0 1000).2 0).nchildren < MAX_CHILDREN from
    Nat.one_lt_succ_succ _) 200000 (.inr rfl)
  refine ⟨hk.held, h2, fun p hp => ?_, fun p fd hp => hk.other p fd ?_⟩
  · have hp' : p = 2 ∨ p = 1 := by simpa [boot] using hp
    rcases hp' with rfl | rfl
    · exact hlt
    · decide
  · rintro rfl
    exact hp (by simp [boot])

theorem inv_of_reach (h : ReflTransGen Next (boot quota) s) : s.Inv := by
  induction h with
  | refl => exact inv_boot quota
  | tail _ hstep ih =>
    obtain ⟨pid, hp, op, he⟩ := hstep
    obtain ⟨t, he', ht⟩ := ih.call hp op
    rw [he'] at he
    cases he
    exact ht

end FileProcs

namespace FileInv

variable {s : Files ι}

theorem isOpen_iff (h : FileInv s) (k : Fin NPIPE) (w : Bool) : (s.pipe k).isOpen w = true ↔
    ∃ f, 0 < (s.file f).ref ∧ (s.file f).type = .pipe ∧
      (if w then (s.file f).writable else (s.file f).readable) = true ∧ (s.file f).pipe = some k := by
  rw [h.open_iff]
  refine exists_congr fun f => ⟨fun ⟨ht, hk, hw⟩ => ⟨h.ref_pos (by simp [ht]), ht, ?_, hk⟩, fun ⟨_, ht, hw, hk⟩ => ⟨ht, hk, ?_⟩⟩
  · have := ((h.file_ok f).pipe ht).2
    cases w <;> simp_all
  · have := ((h.file_ok f).pipe ht).2
    cases w <;> simp_all

theorem writeopen_eq_false_iff (h : FileInv s) {n : ℕ} (hcount : ∀ f, (s.file f).ref = holders (slots n) s.openfiles f)
    (k : Fin NPIPE) : (s.pipe k).writeopen = false ↔ ∀ pid < n, ∀ fd f, s.openfiles (pid, fd) = some f →
      ¬ ((s.file f).type = .pipe ∧ (s.file f).writable = true ∧ (s.file f).pipe = some k) := by
  have hopen : (s.pipe k).writeopen = true ↔ _ := h.isOpen_iff k true
  rw [← Bool.not_eq_true, hopen]
  constructor
  · intro hno pid hp fd f hfd ⟨ht, hw, hk⟩
    exact hno ⟨f, h.ref_pos (by simp [ht]), ht, hw, hk⟩
  · rintro hno ⟨f, hf, ht, hw, hk⟩
    -- a structure in use is held by a descriptor
    rw [hcount, holders_pos_iff] at hf
    obtain ⟨⟨pid, fd⟩, hx, hfd⟩ := hf
    exact hno pid (mem_slots.mp hx) fd f hfd ⟨ht, hw, hk⟩

end FileInv

theorem pipeRead_nil_iff {p : Pipe} (h : p.Ok) (hn : 0 < n) :
    (∃ q, pipeRead n p = some (q, [])) ↔ p.contents = [] ∧ p.writeopen = false := by
  refine ⟨fun ⟨q, hq⟩ => pipeRead_eq_nil h hn hq, fun ⟨hc, hw⟩ => ⟨(pipeReadRun n p).1, ?_⟩⟩
  have hnil : (pipeReadRun n p).2 = [] := by rw [(pipeReadRun_spec n h).2.2.1, hc, List.take_nil]
  rw [pipeRead, if_neg (by simp [hw]), ← hnil]

/-- **References are exact.** In every state between system calls of any processes: a structure's count is the number
of descriptors that point to it, and a free one stands for nothing; an end of a pipe is open exactly while a structure
in use stands for it, and a pipe is free exactly when both ends are closed; every system call returns without a panic;
and a read sees end of file exactly when the pipe is empty and no descriptor holds its write end. -/
theorem file_refs_exact (quota : UInt32) (s : FileProcs ι) (h : ReflTransGen FileProcs.Next (FileProcs.boot quota) s) :
    (∀ f, (s.files.file f).ref = holders (slots NUM_IDS) s.files.openfiles f) ∧
    (∀ f, (s.files.file f).ref = 0 → (s.files.file f).type = .none) ∧
    (∀ k, (s.files.pipe k).readopen = true ↔ ∃ f, 0 < (s.files.file f).ref ∧ (s.files.file f).type = .pipe ∧
      (s.files.file f).readable = true ∧ (s.files.file f).pipe = some k) ∧
    (∀ k, (s.files.pipe k).writeopen = true ↔ ∃ f, 0 < (s.files.file f).ref ∧ (s.files.file f).type = .pipe ∧
      (s.files.file f).writable = true ∧ (s.files.file f).pipe = some k) ∧
    (∀ k, (s.files.pipe k).ref = 0 ↔ (s.files.pipe k).readopen = false ∧ (s.files.pipe k).writeopen = false) ∧
    (∀ pid ∈ s.spawned, ∀ op, ∃ t, s.call pid op = .ok t) ∧
    (∀ k n, 0 < n → ((∃ q, pipeRead n (s.files.pipe k) = some (q, [])) ↔
      (s.files.pipe k).contents = [] ∧ ∀ pid < NUM_IDS, ∀ fd f, s.files.openfiles (pid, fd) = some f →
        ¬ ((s.files.file f).type = .pipe ∧ (s.files.file f).writable = true ∧ (s.files.file f).pipe = some k))) := by
  have hi := FileProcs.inv_of_reach h
  have hcount : ∀ f, (s.files.file f).ref = holders (slots NUM_IDS) s.files.openfiles f := fun f => by
    rw [hi.held.count, Pi.zero_apply, Nat.add_zero]
  refine ⟨hcount, fun f => (hi.held.inv.file_ok f).free, fun k => ?_, fun k => ?_, fun k => ?_, fun pid hp op => ?_,
    fun k n hn => ?_⟩
  · exact hi.held.inv.isOpen_iff k false
  · exact hi.held.inv.isOpen_iff k true
  · rw [hi.held.inv.ref_iff, Bool.forall_bool]
    rfl
  · obtain ⟨t, ht, -⟩ := hi.call hp op
    exact ⟨t, ht⟩
  · rw [pipeRead_nil_iff (hi.held.inv.ok k) hn]
    exact and_congr_right fun _ => hi.held.inv.writeopen_eq_false_iff hcount k

theorem file_refs_exact_pipe : ∃ t : FileProcs Unit, (FileProcs.boot 300000).call 2 (.pipe 0x40000000) = .ok t ∧
    ∀ f, (t.files.file f).ref = holders (slots NUM_IDS) t.files.openfiles f := by
  have hp : 2 ∈ (FileProcs.boot 300000 : FileProcs Unit).spawned := by simp [FileProcs.boot]
  obtain ⟨t, ht⟩ := (file_refs_exact 300000 _ ReflTransGen.refl).2.2.2.2.2.1 2 hp (.pipe 0x40000000)
  exact ⟨t, ht, (file_refs_exact 300000 t (ReflTransGen.single ⟨2, hp, _, ht⟩)).1⟩

end MCertiKOS.FileSystem
