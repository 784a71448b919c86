import MCertiKOS.FileSystem.PipeWait

/-!
# What the calls do to the data

Most calls move no bytes: they leave the histories, the buffers of the pipes in
use, and the descriptors of the other processes as they are (`Kernel.Calm`). A
segment of a read or of a write moves bytes between one process and one pipe, and
what was in the pipe with what is stored is what is read with what is left
(`Kernel.Moves`). The rest of the module says when `sys_read` and `sys_write` are
such segments, and what they do with files and with the console.
-/

namespace MCertiKOS.FileSystem

open Library Memory Thread Files
open Function (update update_of_ne update_self)

variable {ι : Type*}

def UserCall.MovesBytes : UserCall ι → Prop
  | .read .. => True
  | .write .. => True
  | _ => False

namespace Kernel

variable {s t : Kernel ι} {a : ℕ}

/-! ### Calls that move no bytes -/

/-- Process `a` does something that moves no bytes. -/
structure Calm (s t : Kernel ι) (a : ℕ) : Prop where
  place : ∀ q, q ≠ a → ∃ c : List (FileCall ι), t.place q = (s.place q).wake c
  got : t.got = s.got
  put : t.put = s.put
  shown : t.shown = s.shown
  view : ∀ x : ℕ × Fin NOFILE, x.1 ∈ s.procs.spawned → x.1 ≠ a → t.files.view x = s.files.view x
  contents : ∀ x k w, s.files.Holds x k w → (t.files.pipe k).contents = (s.files.pipe k).contents

theorem Calm.refl (s : Kernel ι) (a : ℕ) : Calm s s a :=
  ⟨fun _ _ => ⟨[], (Place.wake_nil _).symm⟩, rfl, rfl, rfl, fun _ _ _ => rfl, fun _ _ _ _ => rfl⟩

variable {u : Files ι} {r : Option Ret} {n output : ℕ} {k : Fin NPIPE} {f : Fin NFILE} {buf : UInt32} {x : ℕ × Fin NOFILE} {v : File ι}
  {bytes : List UInt8}

theorem Inv.calm_after (h : s.Inv) {c : List (FileCall ι)} (hq : Quiet s.files u c) (hu : Held u 0)
    (ho : ∀ p fd, p ≠ a → u.openfiles (p, fd) = s.files.openfiles (p, fd)) : Calm s (s.after u c) a where
  place _ _ := ⟨c, rfl⟩
  got := rfl
  put := rfl
  shown := rfl
  view x _ hne := h.view_eq hq hu (ho x.1 x.2 hne)
  contents _ _ _ hx := h.contents_eq hq hx

theorem Calm.setPlace (h : Calm s t a) (pl : Place) : Calm s (t.setPlace a pl) a where
  place q hne := by
    obtain ⟨c, hc⟩ := h.place q hne
    refine ⟨c, Eq.trans ?_ hc⟩
    exact update_of_ne hne ..
  got := h.got
  put := h.put
  shown := h.shown
  view := h.view
  contents := h.contents

theorem Inv.calm (h : s.Inv) {u : UserCall ι} (hd : Does s a u t r)
    (hu : ¬ u.MovesBytes) : Calm s t a := by
  cases hd with
  | openFail | spawnFail | other => exact .refl s a
  | «open» held quiet ret => exact h.calm_after quiet held (ret.keeps held).other
  | pipe held quiet ret => exact h.calm_after quiet held (ret.keeps held).other
  | close held quiet openfiles =>
    refine h.calm_after quiet held fun p fd hne => ?_
    rw [openfiles]
    split_ifs
    · exact update_of_ne (by simp [hne]) _ _
    · rfl
  | @spawn _ _ _ _ procs child inv spawned fresh spawns =>
    refine ⟨fun _ _ => ⟨[], (Place.wake_nil _).symm⟩, rfl, rfl, rfl, fun x hx _ => ?_, fun _ _ _ hx => ?_⟩
    · exact h.view_eq spawns.quiet spawns.held (spawns.other x.1 x.2 fun e => fresh (e ▸ hx))
    · exact h.contents_eq spawns.quiet hx
  | readFail | read | writeFail | write => exact absurd trivial hu
  | exit => exact (Calm.refl s a).setPlace _

/-! ### Segments of reads and writes -/

/-- Process `a` takes `read` from pipe `k` and stores `stored` in it, and is then at `pl`. -/
structure Moves (s t : Kernel ι) (a : ℕ) (k : Fin NPIPE) (pl : Place) (read stored : List UInt8) : Prop where
  self : t.place a = pl
  place : ∀ q, q ≠ a → ∃ c : List (FileCall ι), t.place q = (s.place q).wake c
  got : t.got = update s.got a (s.got a ++ read)
  put : t.put = update s.put a (s.put a ++ stored)
  shown : t.shown = s.shown
  openfiles : t.files.openfiles = s.files.openfiles
  view : t.files.view = s.files.view
  contents : (s.files.pipe k).contents ++ stored = read ++ (t.files.pipe k).contents
  other : ∀ k', k' ≠ k → (t.files.pipe k').contents = (s.files.pipe k').contents

theorem readDone_pipe (s : Kernel ι) (a : ℕ) (hok : (s.files.pipe k).Ok) (hn : 0 < n) :
    Moves s (s.readDone a n (s.files.pipeReadSeg k n)).1 a k (.reading k n true) [] [] ∧
        (s.readDone a n (s.files.pipeReadSeg k n)).2 = none ∨
      ∃ bytes, Moves s (s.readDone a n (s.files.pipeReadSeg k n)).1 a k .user bytes [] ∧
        (s.readDone a n (s.files.pipeReadSeg k n)).2 = some (.read bytes.length bytes) ∧ bytes.length ≤ n ∧
        (bytes = [] → (s.files.pipe k).contents = [] ∧ (s.files.pipe k).writeopen = false) := by
  unfold pipeReadSeg
  cases hr : pipeRead n (s.files.pipe k) with
  | none =>
    refine .inl ⟨⟨update_self .., fun q hne => ⟨[], update_of_ne hne ..⟩, ?_, ?_, rfl, rfl, rfl, ?_,
      fun _ _ => rfl⟩, rfl⟩
    · simp [readDone, after, setPlace]
    · simp [readDone, after, setPlace]
    · exact List.append_nil _
  | some r =>
    obtain ⟨q, bytes⟩ := r
    have hrun : pipeReadRun n (s.files.pipe k) = (q, bytes) := by
      unfold pipeRead at hr
      split_ifs at hr
      exact Option.some.inj hr
    obtain ⟨-, -, htake, hdrop⟩ := pipeReadRun_spec n hok
    rw [hrun] at htake hdrop
    change bytes = _ at htake
    change q.contents = _ at hdrop
    refine .inr ⟨bytes, ⟨update_self .., fun q hne => ⟨_, update_of_ne hne ..⟩, rfl, ?_, rfl, rfl, rfl,
      ?_, fun k' hne => ?_⟩, rfl, ?_, ?_⟩
    · simp [readDone, after, setPlace]
    · show (s.files.pipe k).contents ++ [] = bytes ++ (update s.files.pipe k q k).contents
      rw [update_self, hdrop, htake, List.append_nil, List.take_append_drop]
    · show (update s.files.pipe k q k').contents = _
      rw [update_of_ne hne]
    · rw [htake]
      exact List.length_take_le n _
    · rintro rfl
      exact pipeRead_eq_nil hok hn hr

theorem writeDone_pipe (s : Kernel ι) (a n : ℕ) (bytes : List UInt8) (hok : (s.files.pipe k).Ok)
    (hopen : (s.files.pipe k).readopen = true) :
    Moves s (s.writeDone a n (s.files.pipeWriteSeg k n bytes)).1 a k .user [] bytes ∧
        (s.writeDone a n (s.files.pipeWriteSeg k n bytes)).2 = some (.wrote n) ∨
      ∃ stored rest, bytes = stored ++ rest ∧
        Moves s (s.writeDone a n (s.files.pipeWriteSeg k n bytes)).1 a k (.writing k n rest true) [] stored ∧
        (s.writeDone a n (s.files.pipeWriteSeg k n bytes)).2 = none := by
  have hspec := pipeWriteRun_spec bytes hok
  obtain ⟨pre, hpre, hcont⟩ := hspec.stored
  have hstored : bytes.take (bytes.length - (pipeWriteRun bytes (s.files.pipe k)).2.rest.length) = pre := by
    have hlen := congrArg List.length hpre
    rw [List.length_append] at hlen
    rw [hlen, Nat.add_sub_cancel]
    nth_rewrite 1 [hpre]
    exact List.take_left
  have hpipe : ∀ k', k' ≠ k → (update s.files.pipe k (pipeWriteRun bytes (s.files.pipe k)).1 k').contents =
      (s.files.pipe k').contents := fun k' hne => by rw [update_of_ne hne]
  have hself : (s.files.pipe k).contents ++ pre =
      [] ++ (update s.files.pipe k (pipeWriteRun bytes (s.files.pipe k)).1 k).contents := by
    rw [update_self, hcont, List.nil_append]
  unfold pipeWriteSeg
  dsimp only
  rw [hstored]
  cases hend : (pipeWriteRun bytes (s.files.pipe k)).2 with
  | done =>
    have hall : pre = bytes := by rw [hpre, hend, WriteEnd.rest, List.append_nil]
    rw [hall] at hself ⊢
    refine .inl ⟨⟨update_self .., fun q hne => ⟨_, update_of_ne hne ..⟩, ?_, rfl, ?_, rfl, rfl, hself,
      hpipe⟩, rfl⟩
    · simp [writeDone, after, setPlace]
    · simp [writeDone, after, setPlace]
  | broken rest =>
    have := (hspec.broken rest hend).2
    rw [hspec.ends.readopen, hopen] at this
    cases this
  | sleep rest =>
    refine .inr ⟨pre, rest, by rw [hpre, hend]; rfl, ⟨update_self .., fun q hne => ⟨_, update_of_ne hne ..⟩,
      ?_, rfl, rfl, rfl, rfl, hself, hpipe⟩, rfl⟩
    simp [writeDone, after, setPlace]

/-! ### `sys_read` and `sys_write` -/

/-- A buffer that the checks of `sys_read` and `sys_write` accept. -/
def UserBuf (buf : UInt32) (n : ℕ) : Prop := VM_USERLO ≤ buf ∧ buf.toNat + n ≤ VM_USERHI.toNat ∧ n ≤ 4096

theorem ioFile_eq_some {fd : ℕ} (hbuf : UserBuf buf n) (hfd : fd < NOFILE)
    (ho : u.openfiles (a, Fin.ofNat NOFILE fd) = some f) (hino : (u.file f).type = .inode → (u.file f).ip ≠ none) :
    u.ioFile a fd buf n = some f := by
  obtain ⟨hlo, hhi, hn⟩ := hbuf
  have hlt : VM_USERHI.toNat < 2 ^ 32 := VM_USERHI.toNat_lt
  have hsum : (buf + UInt32.ofNat n).toNat = buf.toNat + n := by
    rw [UInt32.toNat_add, UInt32.toNat_ofNat', Nat.mod_eq_of_lt (by omega : n < 2 ^ 32), Nat.mod_eq_of_lt (by omega)]
  unfold ioFile
  rw [if_neg, lookup_natCast, if_pos hfd, ho, Option.filter_some, if_pos]
  · rw [decide_eq_true_eq]
    rintro ⟨ht, hnone⟩
    exact hino ht (Option.isNone_iff_eq_none.mp hnone)
  · rintro (h | h | h)
    · exact absurd hlo (UInt32.not_le.mpr h)
    · rw [UInt32.lt_iff_toNat_lt, hsum] at h
      omega
    · omega

theorem exists_file_of_view (h : u.view x = some v) :
    ∃ f, u.openfiles x = some f ∧ v = { u.file f with ref := 0 } := by
  obtain ⟨f, hf, e⟩ := Option.map_eq_some_iff.mp h
  exact ⟨f, hf, e.symm⟩

theorem view_eq_some (h : u.openfiles x = some f) :
    u.view x = some { u.file f with ref := 0 } := by
  rw [view, h, Option.map_some]

theorem Inv.call_read_pipe (h : s.Inv) {input : Option (List UInt8)}
    (hbuf : UserBuf buf n) (hx : s.files.Holds (a, 0) k false) (he : s.call a (.read 0 buf n input) = .ok (t, r)) :
    (t, r) = s.readDone a n (s.files.pipeReadSeg k n) := by
  obtain ⟨f, hf, htype, hpipe, hwrite⟩ := hx
  have hio : s.files.ioFile a 0 buf n = some f :=
    ioFile_eq_some hbuf (by decide) hf fun e => by
      rw [htype] at e
      cases e
  have hread : (s.files.file f).readable = true := by rw [((h.procs.held.inv.file_ok f).pipe htype).2, hwrite]; rfl
  have hfile : s.files.fileRead f n input = .ok (s.files.pipeReadSeg k n) := by
    simp [Files.fileRead, hread, htype, hpipe]
  rw [Kernel.call] at he
  unfold Kernel.sysRead at he
  simp only [hio, hfile, bind, Except.bind, Except.ok.injEq] at he
  exact he.symm

theorem Inv.call_write_pipe
    (hbuf : UserBuf buf bytes.length) (hx : s.files.Holds (a, 1) k true)
    (he : s.call a (.write 1 buf bytes output) = .ok (t, r)) :
    (t, r) = s.writeDone a bytes.length (s.files.pipeWriteSeg k bytes.length bytes) := by
  obtain ⟨f, hf, htype, hpipe, hwrite⟩ := hx
  have hio : s.files.ioFile a 1 buf bytes.length = some f :=
    ioFile_eq_some hbuf (by decide) hf fun e => by
      rw [htype] at e
      cases e
  have hfile : s.files.fileWrite f bytes output = .ok (s.files.pipeWriteSeg k bytes.length bytes) := by
    simp [Files.fileWrite, hwrite, htype, hpipe]
  rw [Kernel.call] at he
  unfold Kernel.sysWrite at he
  simp only [hio, hfile, bind, Except.bind, Except.ok.injEq] at he
  exact he.symm

/-- Process `a` reads `bytes` from the file that its standard input `v` is. -/
structure ReadsFile (s t : Kernel ι) (a : ℕ) (v : File ι) (bytes : List UInt8) : Prop where
  self : t.place a = .user
  place : ∀ q, q ≠ a → t.place q = s.place q
  got : t.got = update s.got a (s.got a ++ bytes)
  put : t.put = s.put
  shown : t.shown = s.shown
  openfiles : t.files.openfiles = s.files.openfiles
  off : t.files.view (a, 0) = some { v with off := v.off + UInt32.ofNat bytes.length }
  view : ∀ x v', s.files.view x = some v' → v'.type ≠ .inode → t.files.view x = some v'
  holds : ∀ x k w, t.files.Holds x k w ↔ s.files.Holds x k w
  pipe : t.files.pipe = s.files.pipe

theorem Inv.call_read_file {ip : ι}
    (hbuf : UserBuf buf n) (hv : s.files.view (a, 0) = some v) (htype : v.type = .inode) (hread : v.readable = true)
    (hip : v.ip = some ip) (he : s.call a (.read 0 buf n (some bytes)) = .ok (t, r)) :
    ReadsFile s t a v bytes ∧ r = some (.read bytes.length bytes) := by
  obtain ⟨f, hf, rfl⟩ := exists_file_of_view hv
  dsimp only at htype hread hip
  have hio : s.files.ioFile a 0 buf n = some f := ioFile_eq_some hbuf (by decide) hf fun _ => by simp [hip]
  have hfile : s.files.fileRead f n (some bytes) = .ok (s.files.setFile f
      { s.files.file f with off := (s.files.file f).off + UInt32.ofNat bytes.length }, [], .ret bytes.length bytes) := by
    simp [Files.fileRead, hread, htype]
  rw [Kernel.call] at he
  unfold Kernel.sysRead at he
  simp only [hio, hfile, bind, Except.bind, Except.ok.injEq] at he
  obtain ⟨rfl, rfl⟩ := he
  refine ⟨⟨update_self .., fun q hne => ?_, rfl, rfl, rfl, rfl, ?_, fun x v' hx hne => ?_,
    fun _ _ _ => Files.holds_setOff s.files f _, rfl⟩, rfl⟩
  · exact (update_of_ne hne ..).trans (Place.wake_nil _)
  · refine (view_eq_some (u := s.files.setFile f _) hf).trans ?_
    rw [Files.setFile_file, if_pos rfl]
  · obtain ⟨g, hg, rfl⟩ := exists_file_of_view hx
    have hgf : g ≠ f := by
      rintro rfl
      exact hne htype
    refine (view_eq_some (u := s.files.setFile f _) hg).trans ?_
    rw [Files.setFile_file, if_neg hgf]

/-- Process `a` shows `bytes` on the console. -/
structure Shows (s t : Kernel ι) (a : ℕ) (bytes : List UInt8) : Prop where
  self : t.place a = .user
  place : ∀ q, q ≠ a → t.place q = s.place q
  got : t.got = s.got
  put : t.put = s.put
  shown : t.shown = update s.shown a (s.shown a ++ bytes)
  files : t.files = s.files

theorem Inv.call_write_console
    (hbuf : UserBuf buf bytes.length) (hv : s.files.view (a, 1) = some v) (htype : v.type = .consoleOut)
    (hwrite : v.writable = true) (he : s.call a (.write 1 buf bytes output) = .ok (t, r)) :
    Shows s t a bytes ∧ r = some (.wrote bytes.length) := by
  obtain ⟨f, hf, rfl⟩ := exists_file_of_view hv
  dsimp only at htype hwrite
  have hio : s.files.ioFile a 1 buf bytes.length = some f :=
    ioFile_eq_some hbuf (by decide) hf fun e => by
      rw [htype] at e
      cases e
  have hfile : s.files.fileWrite f bytes output = .ok (s.files, [], .ret bytes.length [] bytes) := by
    simp [Files.fileWrite, hwrite, htype]
  rw [Kernel.call] at he
  unfold Kernel.sysWrite at he
  simp only [hio, hfile, bind, Except.bind, Except.ok.injEq] at he
  obtain ⟨rfl, rfl⟩ := he
  refine ⟨⟨update_self .., fun q hne => ?_, rfl, ?_, rfl, rfl⟩, rfl⟩
  · exact (update_of_ne hne ..).trans (Place.wake_nil _)
  · simp

/-! ### `sys_spawn` -/

theorem Inv.view_spawn (h : s.Inv) (hp : a ∈ s.procs.spawned) {child : ℕ} {stdinFd stdoutFd : ℤ}
    (hsp : Files.Spawns s.files u a child stdinFd stdoutFd) {fd : Fin NOFILE}
    (hv : s.files.view (a, fd) = some v) :
    ((fd.val : ℤ) = stdinFd → s.files.lookup a stdinFd ≠ none ∧ u.view (child, 0) = some v) ∧
      ((fd.val : ℤ) = stdoutFd → u.view (child, 1) = some v) := by
  obtain ⟨f, hf, rfl⟩ := exists_file_of_view hv
  have hlook : s.files.lookup a (fd.val : ℤ) = some f := by
    rw [lookup_natCast, if_pos fd.isLt, Fin.ofNat_val_eq_self, hf]
  have hfile := (hsp.file f (h.procs.held.ref_pos (h.procs.bound a hp) hf)).2
  refine ⟨fun e => ?_, fun e => ?_⟩
  · subst e
    refine ⟨by rw [hlook]; exact Option.some_ne_none f, ?_⟩
    rw [view_eq_some (hsp.stdin f hlook), hfile]
  · subst e
    rw [view_eq_some (hsp.stdout f hlook), hfile]

end Kernel

end MCertiKOS.FileSystem
