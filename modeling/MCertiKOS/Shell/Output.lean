import MCertiKOS.FileSystem.PipeData
import MCertiKOS.Shell.Filter

/-!
# What a pipeline shows

When every stage of `CAT f | S1 | … | Sn` has run to its `sys_exit`, the last one has shown the contents of the file,
changed by each `Si` in turn, however the stages were scheduled.

The invariant `Flow` follows the bytes. What stage `j` has stored is what stage `j + 1` has read with what is in the
pipe between them (`World.Chan`); what a stage has read is, changed, what it has written with what it still has to
write (`StageOk.flow`). A stage leaves its loop when it finds its pipe empty and the write end closed, so only when
the stage before it has written all it will. A launch that fails ends the pipeline with stages missing (`At.Failed`).
-/

namespace MCertiKOS.Shell

open FileSystem Memory Thread Relation Finset List Files
open Function (iterate_succ update update_eq_self update_of_ne update_self)

variable {ι : Type*}

/-! ### The bytes that reach a stage -/

namespace Job

variable (e : Job ι)

theorem input_zero : e.input 0 = e.content e.ip := rfl

theorem input_succ {i : ℕ} {f : Filter} (h : e.programs[i]? = some f) : e.input (i + 1) = (e.input i).map f.byte := by
  rw [input, take_add_one, h, Option.toList_some, foldl_append]
  rfl

theorem length_stages : e.stages.length = e.programs.length := by simp [stages, programs]

theorem stage_of_drop {i : ℕ} {st : Stage} {rest : List Stage} (h : e.stages.drop i = st :: rest) :
    i < e.stages.length ∧ (i = 0 ∧ st = ⟨.cat, 2⟩ ∨ 0 < i ∧ ∃ f : Filter, st = ⟨f.cmd, 1⟩) := by
  have hi : e.stages[i]? = some st := by
    rw [← List.head?_drop, h]
    rfl
  refine ⟨(List.getElem?_eq_some_iff.mp hi).1, ?_⟩
  cases i with
  | zero => exact .inl ⟨rfl, (Option.some.inj hi).symm⟩
  | succ i =>
    rw [stages, List.getElem?_cons_succ, List.getElem?_map] at hi
    obtain ⟨f, -, e⟩ := Option.map_eq_some_iff.mp hi
    exact .inr ⟨Nat.succ_pos i, f, e.symm⟩

end Job

/-! ### Launching -/

def At.Failed : At → Prop
  | .chdirBack _ none => True
  | .closeFile _ _ none => True
  | .closeIn _ none => True
  | .failRead .. => True
  | .failWrite .. => True
  | .failPipe .. => True
  | .done => True
  | _ => False

/-- The iteration is the one for stage `st` of `stages`. -/
structure Iter.Plan (stages : List Stage) (st : Stage) (it : Iter) : Prop where
  drop : stages.drop it.i = st :: it.rest
  inFd : 1 ≤ it.i → 0 ≤ it.inFd

/-- Launching goes on, or `n` is the number of stages. -/
def At.Plan (stages : List Stage) (n : ℕ) : At → Prop
  | .pipe i st rest inFd => stages.drop i = st :: rest ∧ (1 ≤ i → 0 ≤ inFd)
  | .open st it => it.Plan stages st ∧ it.i = 0
  | .spawn st it file => it.Plan stages st ∧ (it.i = 0 ↔ file ≠ none)
  | .closeFile it _ (some _) => ∃ st, it.Plan stages st
  | .closeIn it (some _) => ∃ st, it.Plan stages st
  | .closeOut it _ => ∃ st, it.Plan stages st
  | .closeLast _ => n = stages.length
  | .done => n = stages.length
  | _ => False

namespace At

variable {stages : List Stage} {n : ℕ} {st : Stage} {it : Iter}

theorem failed_afterIn (it : Iter) : (afterIn it none).Failed := by
  unfold afterIn
  cases it.pipefd <;> trivial

theorem failed_returned (it : Iter) : (returned it none).Failed := by
  unfold returned
  split_ifs
  · trivial
  · exact failed_afterIn it

theorem failed_spawned (st : Stage) (it : Iter) (file : Option (Fin NOFILE)) : (spawned st it file none).Failed := by
  unfold spawned
  split_ifs
  · trivial
  · cases file with
    | none => exact failed_returned it
    | some fd => trivial

theorem Failed.next {a : At} (h : a.Failed) {u : UserCall ι} (hu : a.Calls u) {s t : Kernel ι} {r : Ret}
    (hd : Kernel.Does s SHELL u t (some r)) : (a.next r).Failed ∧ launched r = [] := by
  cases a with
  | chdirBack it pid =>
    cases pid with
    | none =>
      cases u <;> try exact hu.elim
      cases hd
      exact ⟨failed_returned it, rfl⟩
    | some pid => exact h.elim
  | closeFile it file pid =>
    cases pid with
    | none =>
      obtain rfl : u = _ := hu
      obtain ⟨e, rfl⟩ := hd.closed
      exact ⟨failed_returned it, rfl⟩
    | some pid => exact h.elim
  | closeIn it pid =>
    cases pid with
    | none =>
      obtain rfl : u = _ := hu
      obtain ⟨e, rfl⟩ := hd.closed
      exact ⟨failed_afterIn it, rfl⟩
    | some pid => exact h.elim
  | failRead | failWrite | failPipe =>
    obtain rfl : u = _ := hu
    obtain ⟨e, rfl⟩ := hd.closed
    exact ⟨trivial, rfl⟩
  | done => cases u <;> exact hu.elim
  | pipe | chdir | «open» | spawn | closeOut | closeLast => exact h.elim

theorem plan_launch {e : Job ι} (h : it.Plan e.stages st) : (launch st it).Plan e.stages n := by
  obtain ⟨-, ⟨h0, rfl⟩ | ⟨hpos, f, rfl⟩⟩ := e.stage_of_drop h.drop
  · rw [launch, if_neg (by decide), if_pos rfl, if_neg (by decide)]
    exact ⟨h, h0⟩
  · rw [launch, if_neg (show ¬ 2 < 1 by decide), if_neg (show (1 : ℕ) ≠ 2 by decide)]
    exact ⟨h, by simp [hpos.ne']⟩

theorem plan_top {e : Job ι} {i : ℕ} {inFd : ℤ} {rest : List Stage} (hdrop : e.stages.drop i = rest) (hne : rest ≠ [])
    (h0 : 1 ≤ i → 0 ≤ inFd) : (top i inFd rest).Plan e.stages n := by
  rcases rest with _ | ⟨st, _ | ⟨st', rest⟩⟩
  · exact absurd rfl hne
  · exact plan_launch ⟨hdrop, h0⟩
  · exact ⟨hdrop, h0⟩

theorem length_of_plan (h : it.Plan stages st) (hok : it.Ok) (hp : it.pipefd = none) : stages.length = it.i + 1 := by
  have := congrArg List.length h.drop
  rw [hok.pipefd.mp hp, length_drop, length_singleton] at this
  omega

theorem plan_afterIn (h : it.Plan stages st) (hok : it.Ok) (pid : ℕ) (hn : n = it.i + 1) :
    (afterIn it (some pid)).Plan stages n := by
  cases hp : it.pipefd with
  | some p =>
    simp only [afterIn, hp]
    exact ⟨st, h⟩
  | none =>
    simp only [afterIn, hp]
    split_ifs <;> exact hn.trans (length_of_plan h hok hp).symm

theorem plan_returned (h : it.Plan stages st) (hok : it.Ok) (pid : ℕ) (hn : n = it.i + 1) :
    (returned it (some pid)).Plan stages n := by
  unfold returned
  split_ifs
  · exact ⟨st, h⟩
  · exact plan_afterIn h hok pid hn

/-- The file that was opened for the stage that is spawned next. -/
def file : At → Option (Fin NOFILE)
  | .spawn _ _ file => file
  | _ => none

theorem afterIn_file (it : Iter) (pid : Option ℕ) : (afterIn it pid).file = none := by
  rcases pid with _ | pid <;> cases hp : it.pipefd <;> simp only [afterIn, hp, file]
  split_ifs <;> rfl

theorem returned_file (it : Iter) (pid : Option ℕ) : (returned it pid).file = none := by
  unfold returned
  split_ifs
  · rfl
  · exact afterIn_file it pid

theorem launch_file (st : Stage) (it : Iter) : (launch st it).file = none := by
  unfold launch
  split_ifs
  · exact returned_file it none
  all_goals rfl

theorem top_file (i : ℕ) (inFd : ℤ) (rest : List Stage) : (top i inFd rest).file = none := by
  rcases rest with _ | ⟨st, _ | ⟨st', rest⟩⟩
  · rw [top]
    split_ifs <;> rfl
  · exact launch_file st _
  · rfl

theorem spawned_file (st : Stage) (it : Iter) (f : Option (Fin NOFILE)) (pid : Option ℕ) :
    (spawned st it f pid).file = none := by
  unfold spawned
  split_ifs
  · rfl
  · cases f with
    | none => exact returned_file it pid
    | some fd => rfl

theorem not_spawn {a : At} (h : a.file = none) {fd : Fin NOFILE} (ha : a = .spawn st it (some fd)) : False := by
  rw [ha] at h
  cases h

theorem Plan.reader {a : At} (h : a.Plan stages n) (hok : a.Ok n) (hn : n < stages.length) (h1 : 1 ≤ n) :
    ∃ fd, (fd, n - 1, false) ∈ a.ends := by
  have hit : ∀ {st : Stage} {it : Iter}, n = it.i → it.Plan stages st → (it.inFd, n - 1, false) ∈ it.ends := by
    rintro st it rfl hp
    exact mem_append_left _ (mem_inEnds.mpr ⟨hp.inFd h1, rfl, rfl, rfl⟩)
  have hpipe : ∀ {i : ℕ} {p : Fin NOFILE × Fin NOFILE}, n = i + 1 → ((p.1.val : ℤ), n - 1, false) ∈ pipeEnds i p := by
    rintro i p rfl
    exact mem_pipeEnds.mpr ⟨rfl, rfl⟩
  cases a with
  | pipe i st rest inFd =>
    obtain ⟨rfl, -, -⟩ := hok
    exact ⟨inFd, mem_inEnds.mpr ⟨h.2 h1, rfl, rfl, rfl⟩⟩
  | «open» st it => exact ⟨_, hit hok.1 h.1⟩
  | spawn st it file => exact ⟨_, hit hok.1 h.1⟩
  | closeFile | closeIn =>
    rename_i pid
    cases pid with
    | none => exact h.elim
    | some pid =>
      obtain ⟨st, hp⟩ := h
      obtain ⟨p, hpf⟩ := Option.ne_none_iff_exists'.mp fun hnone => hn.ne (hok.1.trans (length_of_plan hp hok.2.1 hnone).symm)
      rw [ends, Iter.ends, hpf]
      exact ⟨_, mem_append_right _ (hpipe hok.1)⟩
  | closeOut it p => exact ⟨p.1.val, hpipe hok.1⟩
  | closeLast inFd => exact absurd h hn.ne
  | done => exact absurd h hn.ne
  | chdir | chdirBack | failRead | failWrite | failPipe => exact h.elim

theorem Plan.le {a : At} (h : a.Plan stages n) (hok : a.Ok n) : n ≤ stages.length := by
  have hlt : ∀ {i : ℕ} {st : Stage} {rest : List Stage}, stages.drop i = st :: rest → i < stages.length := by
    intro i st rest e
    have := congrArg List.length e
    rw [length_drop, length_cons] at this
    omega
  cases a with
  | pipe i st rest inFd => exact hok.1.le.trans (hlt h.1).le
  | «open» st it => exact hok.1.le.trans (hlt h.1.drop).le
  | spawn st it file => exact hok.1.le.trans (hlt h.1.drop).le
  | closeFile | closeIn =>
    rename_i pid
    cases pid with
    | none => exact h.elim
    | some pid =>
      obtain ⟨st, hp⟩ := h
      exact hok.1.le.trans (hlt hp.drop)
  | closeOut it p =>
    obtain ⟨st, hp⟩ := h
    exact hok.1.le.trans (hlt hp.drop)
  | closeLast inFd => exact Nat.le_of_eq h
  | done => exact Nat.le_of_eq h
  | chdir | chdirBack | failRead | failWrite | failPipe => exact h.elim

end At

/-! ### The invariant -/

namespace World

/-- The bytes stage `i` has read. -/
def gotAt (w : World ι) (i : ℕ) : List UInt8 := (w.pids[i]?).elim [] w.kernel.got

/-- The bytes stage `i` has stored in its pipe. -/
def putAt (w : World ι) (i : ℕ) : List UInt8 := (w.pids[i]?).elim [] w.kernel.put

/-- If descriptor `x` is a read end, it is that of the pipe after stage `j`. -/
def ReaderOf (w : World ι) (x : ℕ × Fin NOFILE) (j : ℕ) : Prop :=
  x.1 = SHELL ∧ ((x.2.val : ℤ), j, false) ∈ w.shell.ends ∨ w.pids[j + 1]? = some x.1

/-- A pipe that can still be read has what was stored and not yet read. -/
def Chan (w : World ι) : Prop :=
  ∀ x k j, w.kernel.files.Holds x k false → w.ReaderOf x j →
    w.putAt j = w.gotAt (j + 1) ++ (w.kernel.files.pipe k).contents

theorem gotAt_eq {w : World ι} {i p : ℕ} (h : w.pids[i]? = some p) : w.gotAt i = w.kernel.got p := by rw [gotAt, h]; rfl

theorem putAt_eq {w : World ι} {i p : ℕ} (h : w.pids[i]? = some p) : w.putAt i = w.kernel.put p := by rw [putAt, h]; rfl

theorem Inv.label_of_reader {w : World ι} (h : w.Inv) {label : Fin NPIPE → Option ℕ}
    (hl : Topology w.kernel.files w.shell.ends w.pids label) {x : ℕ × Fin NOFILE} {k : Fin NPIPE} {j : ℕ}
    (hk : w.kernel.files.Holds x k false) (hr : w.ReaderOf x j) : label k = some j := by
  obtain ⟨q, fd⟩ := x
  rcases hr with ⟨rfl, he⟩ | hr
  · obtain ⟨fd', hfd, k', hk', hj⟩ := (hl.shell _ j false).mp he
    obtain rfl : fd' = fd := Fin.ext (by exact_mod_cast hfd)
    rw [(hk.unique hk').1, hj]
  · obtain ⟨j', hj', e⟩ := h.label_of_holds hl hr hk
    obtain rfl : j = j' := by simpa using e
    exact hj'

theorem Inv.getElem_inj {w : World ι} (h : w.Inv) {i j p : ℕ} (hi : w.pids[i]? = some p) (hj : w.pids[j]? = some p) : i = j := by
  obtain ⟨hi', e⟩ := List.getElem?_eq_some_iff.mp hi
  obtain ⟨hj', e'⟩ := List.getElem?_eq_some_iff.mp hj
  exact (h.nodup.getElem_inj_iff).mp (e.trans e'.symm)

theorem Inv.elim_update {w : World ι} (h : w.Inv) {i j p : ℕ} (hi : w.pids[i]? = some p) (hj : j ≠ i)
    (g : ℕ → List UInt8) (v : List UInt8) : (w.pids[j]?).elim [] (update g p v) = (w.pids[j]?).elim [] g := by
  cases hq : w.pids[j]? with
  | none => rfl
  | some q =>
    refine update_of_ne ?_ _ _
    rintro rfl
    exact hj (h.getElem_inj hq hi)

end World

def pending : Place → Prog → List UInt8
  | .writing _ _ rest _, _ => rest
  | .user, .write bytes => bytes
  | _, _ => []

theorem pending_wake (c : List (FileCall ι)) (pl : Place) (g : Prog) : pending (pl.wake c) g = pending pl g := by
  rcases pl with _ | ⟨k, n, _ | _⟩ | ⟨k, n, rest, _ | _⟩ | _ | _ <;> rfl

def WaitsIn (e : Job ι) (i : ℕ) : Place → Prog → Prop
  | .user, _ => True
  | .reading _ n _, .read => n = BUFSIZE
  | .writing .., .write _ => i + 1 < e.programs.length
  | .exiting _, .exit => True
  | .dead, .exit => True
  | _, _ => False

theorem waitsIn_wake {e : Job ι} {i : ℕ} (c : List (FileCall ι)) (pl : Place) (g : Prog) :
    WaitsIn e i (pl.wake c) g ↔ WaitsIn e i pl g := by
  rcases pl with _ | ⟨k, n, _ | _⟩ | ⟨k, n, rest, _ | _⟩ | _ | _ <;> cases g <;> rfl

theorem WaitsIn.exit {e : Job ι} {i : ℕ} {pl : Place} {g : Prog} (h : WaitsIn e i pl g) (hpl : pl.Exited) : g = .exit := by
  cases pl <;> first | exact hpl.elim | cases g <;> first | rfl | exact h.elim

/-- What descriptor 0 of stage `i` is: the file, or the pipe before it. -/
def Stdin (e : Job ι) (i : ℕ) (got : List UInt8) (v : Option (File ι)) : Prop :=
  if i = 0 then ∃ w, v = some w ∧ w.type = .inode ∧ w.readable = true ∧ w.ip = some e.ip ∧ w.off = UInt32.ofNat got.length
  else ∃ w k, v = some w ∧ w.IsEnd k false

/-- What descriptor 1 of stage `i` is: the pipe after it, or the console. -/
def Stdout (e : Job ι) (i : ℕ) (v : Option (File ι)) : Prop :=
  if i + 1 < e.programs.length then ∃ w k, v = some w ∧ w.IsEnd k true
  else ∃ w, v = some w ∧ w.type = .consoleOut ∧ w.writable = true

/-- What stage `i` has written. -/
def written (e : Job ι) (s : Kernel ι) (i p : ℕ) : List UInt8 := if i + 1 < e.programs.length then s.put p else s.shown p

/-- Process `p`, stage `i`, runs the program `f` and is at `g`. -/
structure StageOk (e : Job ι) (s : Kernel ι) (g : Prog) (i p : ℕ) (f : Filter) : Prop where
  flow : (s.got p).map f.byte = written e s i p ++ pending (s.place p) g
  waits : WaitsIn e i (s.place p) g
  stdin : ¬ g.Past → Stdin e i (s.got p) (s.files.view (p, 0))
  stdout : ¬ g.Past → Stdout e i (s.files.view (p, 1))
  first : i = 0 → s.got p <+: e.content e.ip
  past : g.Past → s.got p = e.input i
  le : ∀ bytes, g = .write bytes → bytes.length ≤ BUFSIZE

section

variable {e : Job ι} {s t : Kernel ι} {g : Prog} {i p : ℕ} {f : Filter} (h : StageOk e s g i p f)
include h

theorem StageOk.frame (hplace : ∃ c : List (FileCall ι), t.place p = (s.place p).wake c) (hgot : t.got p = s.got p)
    (hput : t.put p = s.put p) (hshown : t.shown p = s.shown p)
    (hview : ¬ g.Past → t.files.view (p, 0) = s.files.view (p, 0) ∧ t.files.view (p, 1) = s.files.view (p, 1)) :
    StageOk e t g i p f := by
  obtain ⟨c, hc⟩ := hplace
  refine ⟨?_, ?_, fun hg => ?_, fun hg => ?_, ?_, ?_, h.le⟩
  · rw [hgot, written, hput, hshown, hc, pending_wake]
    exact h.flow
  · rw [hc, waitsIn_wake]
    exact h.waits
  · rw [hgot, (hview hg).1]
    exact h.stdin hg
  · rw [(hview hg).2]
    exact h.stdout hg
  · rw [hgot]
    exact h.first
  · rw [hgot]
    exact h.past

theorem StageOk.calm {a : ℕ} (hcalm : Kernel.Calm s t a) (hmem : p ∈ s.procs.spawned) (hne : p ≠ a) : StageOk e t g i p f :=
  h.frame (hcalm.place p hne) (congrFun hcalm.got p) (congrFun hcalm.put p) (congrFun hcalm.shown p)
    fun _ => ⟨hcalm.view (p, 0) hmem hne, hcalm.view (p, 1) hmem hne⟩

theorem StageOk.loop {g' : Prog} (hg : ¬ g.Past) (hg' : ¬ g'.Past) (hgot : t.got p = s.got p)
    (hview : t.files.view = s.files.view) (hflow : (s.got p).map f.byte = written e t i p ++ pending (t.place p) g')
    (hwaits : WaitsIn e i (t.place p) g') (hle : ∀ bytes, g' = .write bytes → bytes.length ≤ BUFSIZE) :
    StageOk e t g' i p f where
  flow := by rw [hgot, hflow]
  waits := hwaits
  stdin _ := by
    rw [hgot, hview]
    exact h.stdin hg
  stdout _ := by
    rw [hview]
    exact h.stdout hg
  first := by
    rw [hgot]
    exact h.first
  past hp := absurd hp hg'
  le := hle

end

/-- The invariant. -/
structure Flow (e : Job ι) (σ : Session ι) : Prop where
  inv : σ.world.Inv
  fresh : ∀ p, p ∉ σ.world.pids → σ.world.kernel.got p = [] ∧ σ.world.kernel.put p = [] ∧ σ.world.kernel.shown p = []
  plan : σ.world.shell.Plan e.stages σ.world.pids.length
  file : ∀ st it fd, σ.world.shell = .spawn st it (some fd) → Stdin e 0 [] (σ.world.kernel.files.view (SHELL, fd))
  others : ∀ p fd f, p ≠ SHELL → p ∉ σ.world.pids → σ.world.kernel.files.openfiles (p, fd) = some f → f ∈ e.busy
  low : ∀ p fd, p ∈ σ.world.pids → σ.world.kernel.files.openfiles (p, fd) ≠ none → fd.val < 3
  stage : ∀ i p f, σ.world.pids[i]? = some p → e.programs[i]? = some f → StageOk e σ.world.kernel (σ.prog i) i p f
  chan : σ.world.Chan
  unlaunched : ∀ i, σ.world.pids.length ≤ i → σ.prog i = .read
  upstream : ∀ i, (σ.prog (i + 1)).Past → (σ.prog i).Past

def Missing (e : Job ι) (σ : Session ι) : Prop := σ.world.shell.Failed ∧ σ.world.pids.length < e.stages.length

/-! ### Steps of the stages -/

namespace Flow

variable {e : Job ι} {σ : Session ι} {i p : ℕ} {f : Filter} {t : Kernel ι} {g : Prog} {k : Fin NPIPE}

theorem pending_of_past {pl : Place} (hw : WaitsIn e i pl g) (hg : g.Past) : pending pl g = [] := by
  cases pl <;> cases g <;> first | rfl | exact hg.elim | exact hw.elim

theorem pending_read {pl : Place} (hw : WaitsIn e i pl .read) : pending pl .read = [] := by
  cases pl <;> first | rfl | exact hw.elim

theorem returns_none (σ : Session ι) (i : ℕ) (t : Kernel ι) :
    σ.returns e i t none = ⟨{ σ.world with kernel := t }, update σ.prog i (σ.prog i)⟩ := by
  rw [update_eq_self]
  rfl

theorem returns_some (σ : Session ι) (hf : e.programs[i]? = some f) (t : Kernel ι) (r : Ret) :
    σ.returns e i t (some r) = ⟨{ σ.world with kernel := t }, update σ.prog i ((σ.prog i).next f r)⟩ := by
  simp only [Session.returns, hf]

theorem userBuf (e : Job ι) (i : ℕ) {n : ℕ} (hn : n ≤ BUFSIZE) : Kernel.UserBuf (e.buf i) n :=
  ⟨e.lo_le_buf i, (Nat.add_le_add_left hn _).trans (e.buf_le_hi i), hn.trans (by decide)⟩

theorem inodeRead_prefix {content got : List UInt8} (hle : content.length ≤ 140 * 512) (hgot : got <+: content) :
    inodeRead content (UInt32.ofNat got.length) BUFSIZE = some ((content.drop got.length).take BUFSIZE) := by
  have hlen := hgot.length_le
  have hoff : (UInt32.ofNat got.length).toNat = got.length := by
    rw [UInt32.toNat_ofNat', Nat.mod_eq_of_lt (by omega)]
  rw [inodeRead, hoff, if_neg]
  rintro (hlt | hlt)
  · omega
  · have hsum : got.length + 512 < 2 ^ 32 := by omega
    rw [UInt32.lt_iff_toNat_lt, UInt32.toNat_add, hoff, UInt32.toNat_ofNat', Nat.mod_eq_of_lt (show BUFSIZE < 2 ^ 32 by decide),
      Nat.mod_eq_of_lt hsum] at hlt
    omega

theorem update_none (g : ℕ × Fin NOFILE → Option (Fin NFILE)) (y x : ℕ × Fin NOFILE) :
    update g y none x = g x ∨ update g y none x = none := by
  by_cases hx : x = y
  · rw [hx, update_self]
    exact .inr rfl
  · rw [update_of_ne hx]
    exact .inl rfl

section

variable (h : Flow e σ)
include h

section

variable (hp : σ.world.pids[i]? = some p)
include hp

theorem exists_filter : ∃ f, e.programs[i]? = some f := by
  have hlt := (List.getElem?_eq_some_iff.mp hp).1
  have hle := h.plan.le h.inv.ok
  rw [e.length_stages] at hle
  exact ⟨_, List.getElem?_eq_getElem (hlt.trans_le hle)⟩

section

variable (hinv : World.Inv { σ.world with kernel := t })
include hinv

theorem of_stage
    (hf : e.programs[i]? = some f)
    (hplace : ∀ q, q ≠ p → ∃ c : List (FileCall ι), t.place q = (σ.world.kernel.place q).wake c)
    (hgot : ∀ q, q ≠ p → t.got q = σ.world.kernel.got q) (hput : ∀ q, q ≠ p → t.put q = σ.world.kernel.put q)
    (hshown : ∀ q, q ≠ p → t.shown q = σ.world.kernel.shown q)
    (hopen : ∀ x, t.files.openfiles x = σ.world.kernel.files.openfiles x ∨ t.files.openfiles x = none)
    (hview : ∀ j q, σ.world.pids[j]? = some q → q ≠ p → ¬ (σ.prog j).Past →
      t.files.view (q, 0) = σ.world.kernel.files.view (q, 0) ∧ t.files.view (q, 1) = σ.world.kernel.files.view (q, 1))
    (hchan : World.Chan { σ.world with kernel := t }) (hself : StageOk e t g i p f)
    (hup : g.Past → ∀ j, i = j + 1 → (σ.prog j).Past) (hdown : (σ.prog i).Past → g.Past) :
    Flow e ⟨{ σ.world with kernel := t }, update σ.prog i g⟩ := by
  have hmem := mem_of_getElem? hp
  have hlt := (List.getElem?_eq_some_iff.mp hp).1
  refine ⟨hinv, fun q hq => ?_, h.plan, fun st it fd hs => ?_, fun q fd f' hq hq' ho => ?_, fun q fd hq ho => ?_,
    fun j q f' hj hf' => ?_, hchan, fun j hj => ?_, fun j => ?_⟩
  · have hne : q ≠ p := by
      rintro rfl
      exact hq hmem
    rw [hgot q hne, hput q hne, hshown q hne]
    exact h.fresh q hq
  · -- the first stage is not launched yet
    have hplan := h.plan
    have hok := h.inv.ok
    rw [hs] at hplan hok
    have h0 : it.i = 0 := hplan.2.mpr (by simp)
    have := hok.1
    omega
  · rcases hopen (q, fd) with ho' | ho'
    · exact h.others q fd f' hq hq' (ho'.symm.trans ho)
    · rw [ho'] at ho
      cases ho
  · rcases hopen (q, fd) with ho' | ho'
    · exact h.low q fd hq (ho' ▸ ho)
    · exact absurd ho' ho
  · change StageOk e t (update σ.prog i g j) j q f'
    by_cases hji : j = i
    · subst hji
      obtain rfl : p = q := Option.some.inj (hp.symm.trans hj)
      obtain rfl : f = f' := Option.some.inj (hf.symm.trans hf')
      rw [update_self]
      exact hself
    · have hne : q ≠ p := by
        rintro rfl
        exact hji (h.inv.getElem_inj hj hp)
      rw [update_of_ne hji]
      exact (h.stage j q f' hj hf').frame (hplace q hne) (hgot q hne) (hput q hne) (hshown q hne) (hview j q hj hne)
  · change σ.world.pids.length ≤ j at hj
    change update σ.prog i g j = _
    rw [update_of_ne (by omega)]
    exact h.unlaunched j hj
  · change (update σ.prog i g (j + 1)).Past → (update σ.prog i g j).Past
    by_cases hj : j + 1 = i
    · subst hj
      rw [update_self, update_of_ne (by omega)]
      exact fun hg => hup hg j rfl
    · rw [update_of_ne hj]
      by_cases hj' : j = i
      · subst hj'
        rw [update_self]
        exact fun hg => hdown (h.upstream j hg)
      · rw [update_of_ne hj']
        exact h.upstream j

omit hinv in
omit hp in
theorem chan_of_calm {w : World ι} (hgot : w.kernel.got = σ.world.kernel.got)
    (hput : w.kernel.put = σ.world.kernel.put) (hpids : w.pids = σ.world.pids)
    (hends : ∀ fd j, (fd, j, false) ∈ w.shell.ends → (fd, j, false) ∈ σ.world.shell.ends)
    (hsub : ∀ x k, w.kernel.files.Holds x k false → σ.world.kernel.files.Holds x k false)
    (hcont : ∀ x k b, σ.world.kernel.files.Holds x k b →
      (w.kernel.files.pipe k).contents = (σ.world.kernel.files.pipe k).contents) : w.Chan := by
  intro x k j hx hr
  have hr' : σ.world.ReaderOf x j := by
    rcases hr with ⟨e, he⟩ | hr
    · exact .inl ⟨e, hends _ j he⟩
    · exact .inr (hpids ▸ hr)
  rw [World.putAt, World.gotAt, hgot, hput, hpids, hcont x k false (hsub x k hx)]
  exact h.chan x k j (hsub x k hx) hr'

theorem of_calm
    (hcalm : Kernel.Calm σ.world.kernel t p)
    (hopen : ∀ x, t.files.openfiles x = σ.world.kernel.files.openfiles x ∨ t.files.openfiles x = none)
    (hsub : ∀ x k, t.files.Holds x k false → σ.world.kernel.files.Holds x k false) (hpast : (σ.prog i).Past) (hg : g.Past)
    (hwaits : WaitsIn e i (t.place p) g) : Flow e ⟨{ σ.world with kernel := t }, update σ.prog i g⟩ := by
  obtain ⟨f, hf⟩ := h.exists_filter hp
  have hs := h.stage i p f hp hf
  refine h.of_stage hp hinv hf hcalm.place (fun _ _ => congrFun hcalm.got _) (fun _ _ => congrFun hcalm.put _)
    (fun _ _ => congrFun hcalm.shown _) hopen (fun j q hj hne _ => ?_) ?_ ?_ (fun _ j hj => ?_) fun _ => hg
  · have hmem := h.inv.mem q (mem_of_getElem? hj)
    exact ⟨hcalm.view (q, 0) hmem hne, hcalm.view (q, 1) hmem hne⟩
  · exact h.chan_of_calm hcalm.got hcalm.put rfl (fun _ _ => id) hsub hcalm.contents
  · refine ⟨?_, hwaits, fun hno => absurd hg hno, fun hno => absurd hg hno, ?_, fun _ => ?_, ?_⟩
    · rw [hcalm.got, written, hcalm.put, hcalm.shown, pending_of_past hwaits hg, ← pending_of_past hs.waits hpast]
      exact hs.flow
    · rw [hcalm.got]
      exact hs.first
    · rw [hcalm.got]
      exact hs.past hpast
    · rintro bytes rfl
      exact hg.elim
  · exact h.upstream j (hj ▸ hpast)

omit hinv in
omit hp in
theorem chan_of_read {pl : Place} {bytes : List UInt8} {fd : Fin NOFILE}
    (hp : σ.world.pids[i + 1]? = some p) (hk : σ.world.kernel.files.Holds (p, fd) k false)
    (hm : Kernel.Moves σ.world.kernel t p k pl bytes []) : World.Chan { σ.world with kernel := t } := by
  obtain ⟨label, hl⟩ := h.inv.topology
  have hlab := h.inv.label_of_reader hl hk (.inr hp)
  have hput : t.put = σ.world.kernel.put := by rw [hm.put, append_nil, update_eq_self]
  intro x k' j hx hr
  rw [holds_iff_view, hm.view, ← holds_iff_view] at hx
  have hlab' := h.inv.label_of_reader hl hx hr
  have hold := h.chan x k' j hx hr
  show (σ.world.pids[j]?).elim [] t.put = (σ.world.pids[j + 1]?).elim [] t.got ++ (t.files.pipe k').contents
  rw [hput, hm.got]
  by_cases hj : j = i
  · subst hj
    obtain rfl := hl.inj _ _ k k' _ _ j hk hx hlab hlab'
    rw [World.putAt, World.gotAt_eq hp] at hold
    rw [hold, hp, Option.elim_some, update_self, append_assoc, ← hm.contents, append_nil]
  · rw [hm.other k' fun e => hj (Option.some.inj (hlab'.symm.trans (e ▸ hlab))), h.inv.elim_update hp (by omega)]
    exact hold

omit hinv in
theorem chan_of_write {pl : Place} {stored : List UInt8} {fd : Fin NOFILE}
    (hk : σ.world.kernel.files.Holds (p, fd) k true)
    (hm : Kernel.Moves σ.world.kernel t p k pl [] stored) : World.Chan { σ.world with kernel := t } := by
  obtain ⟨label, hl⟩ := h.inv.topology
  obtain ⟨i', hlab, hi'⟩ := h.inv.label_of_holds hl hp hk
  obtain rfl : i = i' := hi'
  have hgot : t.got = σ.world.kernel.got := by rw [hm.got, append_nil, update_eq_self]
  intro x k' j hx hr
  rw [holds_iff_view, hm.view, ← holds_iff_view] at hx
  have hlab' := h.inv.label_of_reader hl hx hr
  have hold := h.chan x k' j hx hr
  show (σ.world.pids[j]?).elim [] t.put = (σ.world.pids[j + 1]?).elim [] t.got ++ (t.files.pipe k').contents
  rw [hgot, hm.put]
  by_cases hj : j = i
  · subst hj
    obtain rfl := hl.inj _ _ k k' _ _ j hk hx hlab hlab'
    rw [World.putAt_eq hp, World.gotAt] at hold
    have hcont := hm.contents
    rw [nil_append] at hcont
    rw [hp, Option.elim_some, update_self, hold, ← hcont, append_assoc]
  · rw [hm.other k' fun e => hj (Option.some.inj (hlab'.symm.trans (e ▸ hlab))), h.inv.elim_update hp hj]
    exact hold

omit hinv in
theorem readopen (hlt : i + 1 < e.programs.length)
    (hloop : ¬ (σ.prog i).Past) {fd : Fin NOFILE} (hk : σ.world.kernel.files.Holds (p, fd) k true) :
    (σ.world.kernel.files.pipe k).readopen = true := by
  obtain ⟨label, hl⟩ := h.inv.topology
  obtain ⟨i', hlab, hi'⟩ := h.inv.label_of_holds hl hp hk
  obtain rfl : i = i' := hi'
  -- whoever reads the pipe `i` reads `k`
  have hopen : ∀ x k', σ.world.kernel.files.Holds x k' false → label k' = some i →
      (σ.world.kernel.files.pipe k).isOpen false = true := by
    intro x k' hx hlab'
    obtain rfl := hl.inj _ _ k k' _ _ i hk hx hlab hlab'
    exact hx.isOpen h.inv.kernel.procs.held.inv
  cases hq : σ.world.pids[i + 1]? with
  | some q =>
    obtain ⟨f, hf⟩ := h.exists_filter hq
    have hin := (h.stage (i + 1) q f hq hf).stdin fun hpast => hloop (h.upstream i hpast)
    obtain ⟨v, k', hv, hend⟩ := hin
    have hx := holds_iff_view.mpr ⟨v, hv, hend⟩
    exact hopen _ k' hx (h.inv.label_of_reader hl hx (.inr hq))
  | none =>
    have hlen : σ.world.pids.length = i + 1 := by
      have h1 := (List.getElem?_eq_some_iff.mp hp).1
      have h2 := List.getElem?_eq_none_iff.mp hq
      omega
    obtain ⟨fd', he⟩ := h.plan.reader h.inv.ok (by rw [hlen, e.length_stages]; exact hlt) (by omega)
    rw [hlen, Nat.add_sub_cancel] at he
    obtain ⟨fd'', -, k', hx, hlab'⟩ := (hl.shell _ i false).mp he
    exact hopen _ k' hx hlab'

omit hinv in
omit hp in
theorem eof (hp : σ.world.pids[i + 1]? = some p) {fd : Fin NOFILE}
    (hk : σ.world.kernel.files.Holds (p, fd) k false) (hempty : (σ.world.kernel.files.pipe k).contents = [])
    (hclosed : (σ.world.kernel.files.pipe k).writeopen = false) :
    (σ.prog i).Past ∧ σ.world.kernel.got p = e.input (i + 1) := by
  obtain ⟨label, hl⟩ := h.inv.topology
  have hlab := h.inv.label_of_reader hl hk (.inr hp)
  have hlt := (List.getElem?_eq_some_iff.mp hp).1
  have hq : σ.world.pids[i]? = some σ.world.pids[i] := List.getElem?_eq_getElem (Nat.lt_of_succ_lt hlt)
  obtain ⟨f, hf⟩ := h.exists_filter hq
  have hs := h.stage i _ f hq hf
  have hout : i + 1 < e.programs.length := by
    rw [← e.length_stages]
    exact hlt.trans_le (h.plan.le h.inv.ok)
  have hpast : (σ.prog i).Past := by
    by_contra hloop
    have := hs.stdout hloop
    rw [Stdout, if_pos hout] at this
    obtain ⟨v, k', hv, hend⟩ := this
    have hx := holds_iff_view.mpr ⟨v, hv, hend⟩
    obtain ⟨i', hlab', hi'⟩ := h.inv.label_of_holds hl hq hx
    obtain rfl : i = i' := hi'
    obtain rfl := hl.inj _ _ k k' _ _ i hk hx hlab hlab'
    have hopen : (σ.world.kernel.files.pipe k).writeopen = true := hx.isOpen h.inv.kernel.procs.held.inv
    rw [hclosed] at hopen
    cases hopen
  have hchan := h.chan _ k i hk (.inr hp)
  rw [World.putAt_eq hq, World.gotAt_eq hp, hempty, append_nil] at hchan
  have hflow := hs.flow
  rw [written, if_pos hout, pending_of_past hs.waits hpast, append_nil, hs.past hpast] at hflow
  exact ⟨hpast, by rw [e.input_succ hf, hflow, hchan]⟩

theorem of_moves
    (hf : e.programs[i]? = some f) {pl : Place} {read stored : List UInt8}
    (hm : Kernel.Moves σ.world.kernel t p k pl read stored) (hchan : World.Chan { σ.world with kernel := t })
    (hself : StageOk e t g i p f) (hup : g.Past → ∀ j, i = j + 1 → (σ.prog j).Past) (hdown : (σ.prog i).Past → g.Past) :
    Flow e ⟨{ σ.world with kernel := t }, update σ.prog i g⟩ := by
  refine h.of_stage hp hinv hf hm.place (fun q hne => ?_) (fun q hne => ?_) (fun q _ => congrFun hm.shown q)
    (fun x => .inl (congrFun hm.openfiles x)) (fun _ q _ _ _ => ?_) hchan hself hup hdown
  · rw [hm.got, update_of_ne hne]
  · rw [hm.put, update_of_ne hne]
  · rw [hm.view]
    exact ⟨rfl, rfl⟩

omit hinv in
omit hp in
theorem of_read_pipe (hp : σ.world.pids[i + 1]? = some p) (hinv : World.Inv { σ.world with kernel := t })
    (hprog : σ.prog (i + 1) = .read) {fd : Fin NOFILE} (hk : σ.world.kernel.files.Holds (p, fd) k false) {r : Option Ret}
    (hr : (t, r) = σ.world.kernel.readDone p BUFSIZE (σ.world.kernel.files.pipeReadSeg k BUFSIZE)) :
    Flow e (σ.returns e (i + 1) t r) := by
  obtain ⟨f, hf⟩ := h.exists_filter hp
  have hs := h.stage (i + 1) p f hp hf
  rw [hprog] at hs
  have hflow := hs.flow
  rw [pending_read hs.waits, append_nil] at hflow
  have hwritten : ∀ {pl bytes}, Kernel.Moves σ.world.kernel t p k pl bytes [] →
      written e t (i + 1) p = written e σ.world.kernel (i + 1) p := fun hm => by
    rw [written, written, hm.put, hm.shown, update_self, append_nil]
  have hdone := σ.world.kernel.readDone_pipe p (h.inv.kernel.procs.held.inv.ok k) (n := BUFSIZE) (by decide)
  rw [← hr] at hdone
  rcases hdone with ⟨hm, rfl⟩ | ⟨bytes, hm, rfl, hle, hnil⟩
  · rw [returns_none, hprog]
    refine h.of_moves hp hinv hf hm (h.chan_of_read hp hk hm) (hs.loop id id ?_ hm.view ?_ ?_ nofun) False.elim
      (by rw [hprog]; exact id)
    · rw [hm.got, update_self, append_nil]
    · rw [hwritten hm, hm.self, hflow]
      exact (append_nil _).symm
    · rw [hm.self]
      rfl
  · rw [returns_some σ hf, hprog]
    by_cases hpos : 0 < (bytes.length : ℤ)
    · rw [Prog.next, if_pos hpos]
      refine h.of_moves hp hinv hf hm (h.chan_of_read hp hk hm) ?_ False.elim (by rw [hprog]; exact id)
      refine ⟨?_, ?_, fun _ => ?_, fun _ => ?_, nofun, False.elim, ?_⟩
      · rw [hwritten hm, hm.self, hm.got, update_self, map_append, hflow]
        rfl
      · rw [hm.self]
        trivial
      · have hin := hs.stdin id
        rw [hm.view]
        exact hin
      · rw [hm.view]
        exact hs.stdout id
      · rintro _ ⟨⟩
        rw [length_map]
        exact hle
    · -- the end of the data
      obtain rfl : bytes = [] := eq_nil_of_length_eq_zero (by omega)
      obtain ⟨hpast, hgot⟩ := h.eof hp hk (hnil rfl).1 (hnil rfl).2
      refine h.of_moves hp hinv hf hm (h.chan_of_read hp hk hm) ?_ (fun _ j hj => ?_) fun _ => trivial
      · refine ⟨?_, ?_, fun hno => absurd trivial hno, fun hno => absurd trivial hno, nofun, fun _ => ?_, nofun⟩
        · rw [hwritten hm, hm.self, hm.got, update_self, append_nil, hflow]
          exact (append_nil _).symm
        · rw [hm.self]
          trivial
        · rw [hm.got, update_self, append_nil, hgot]
      · obtain rfl : i = j := Nat.succ.inj hj
        exact hpast

theorem of_write_pipe
    {bs bytes : List UInt8} (hprog : σ.prog i = .write bs) (hlt : i + 1 < e.programs.length) {fd : Fin NOFILE}
    (hk : σ.world.kernel.files.Holds (p, fd) k true) (hpend : pending (σ.world.kernel.place p) (.write bs) = bytes) {n : ℕ}
    {r : Option Ret} (hr : (t, r) = σ.world.kernel.writeDone p n (σ.world.kernel.files.pipeWriteSeg k n bytes)) :
    Flow e (σ.returns e i t r) := by
  obtain ⟨f, hf⟩ := h.exists_filter hp
  have hs := h.stage i p f hp hf
  have hopen := h.readopen hp hlt (by rw [hprog]; exact id) hk
  rw [hprog] at hs
  have hflow := hs.flow
  rw [hpend, written, if_pos hlt] at hflow
  have hgot : ∀ {pl stored}, Kernel.Moves σ.world.kernel t p k pl [] stored → t.got p = σ.world.kernel.got p := fun hm => by
    rw [hm.got, update_self, append_nil]
  have hdone := σ.world.kernel.writeDone_pipe p n bytes (h.inv.kernel.procs.held.inv.ok k) hopen
  rw [← hr] at hdone
  rcases hdone with ⟨hm, rfl⟩ | ⟨stored, rest, rfl, hm, rfl⟩
  · rw [returns_some σ hf, hprog]
    refine h.of_moves hp hinv hf hm (h.chan_of_write hp hk hm) (hs.loop id id (hgot hm) hm.view ?_ ?_ nofun) False.elim
      (by rw [hprog]; exact id)
    · rw [hflow, written, if_pos hlt, hm.put, update_self, hm.self]
      exact (append_nil _).symm
    · rw [hm.self]
      trivial
  · rw [returns_none, hprog]
    refine h.of_moves hp hinv hf hm (h.chan_of_write hp hk hm) (hs.loop id id (hgot hm) hm.view ?_ ?_ hs.le) False.elim
      (by rw [hprog]; exact id)
    · rw [hflow, written, if_pos hlt, hm.put, update_self, hm.self, append_assoc]
      rfl
    · rw [hm.self]
      exact hlt

omit hinv in
omit hp in
theorem of_read_file (hp : σ.world.pids[0]? = some p) (hinv : World.Inv { σ.world with kernel := t })
    (hprog : σ.prog 0 = .read) {input : Option (List UInt8)}
    (hin : ∀ v ip, σ.world.kernel.files.view (p, 0) = some v → v.type = .inode → v.ip = some ip →
      input = inodeRead (e.content ip) v.off BUFSIZE) {buf : UInt32} (hbuf : Kernel.UserBuf buf BUFSIZE) {r : Option Ret}
    (he : σ.world.kernel.call p (.read 0 buf BUFSIZE input) = .ok (t, r)) : Flow e (σ.returns e 0 t r) := by
  obtain ⟨f, hf⟩ := h.exists_filter hp
  have hs := h.stage 0 p f hp hf
  rw [hprog] at hs
  have hfile := hs.stdin id
  obtain ⟨v, hv, htype, hread, hip, hoff⟩ := hfile
  obtain ⟨tail, htail⟩ := hs.first rfl
  have hinput := hin v e.ip hv htype hip
  rw [hoff, inodeRead_prefix (e.content_le e.ip) (hs.first rfl), ← htail, drop_left] at hinput
  subst hinput
  obtain ⟨hr, rfl⟩ := Kernel.Inv.call_read_file hbuf hv htype hread hip he
  have hflow := hs.flow
  rw [pending_read hs.waits, append_nil] at hflow
  have hgot : t.got p = σ.world.kernel.got p ++ tail.take BUFSIZE := by rw [hr.got, update_self]
  have hwritten : written e t 0 p = written e σ.world.kernel 0 p := by rw [written, written, hr.put, hr.shown]
  have hpre : t.got p <+: e.content e.ip := by
    rw [hgot, ← htail]
    exact (prefix_append_right_inj _).mpr (List.take_prefix _ _)
  -- pipes and the console are left alone
  have hpipe : ∀ {x : ℕ × Fin NOFILE}, (∃ v k b, σ.world.kernel.files.view x = some v ∧ v.IsEnd k b) →
      t.files.view x = σ.world.kernel.files.view x := by
    rintro x ⟨v, k, b, hv, hend⟩
    rw [hv, hr.view _ _ hv (by rw [hend.1]; nofun)]
  have hout : ∀ {j q : ℕ}, Stdout e j (σ.world.kernel.files.view (q, 1)) →
      t.files.view (q, 1) = σ.world.kernel.files.view (q, 1) := by
    intro j q ho
    unfold Stdout at ho
    split_ifs at ho
    · obtain ⟨v1, k1, hv1, hend1⟩ := ho
      exact hpipe ⟨v1, k1, true, hv1, hend1⟩
    · obtain ⟨v1, hv1, hcons, -⟩ := ho
      rw [hv1, hr.view _ _ hv1 (by rw [hcons]; decide)]
  rw [returns_some σ hf, hprog]
  refine h.of_stage hp hinv hf (fun q hne => ⟨[], by rw [hr.place q hne, Place.wake_nil]⟩) (fun q hne => ?_)
    (fun q _ => congrFun hr.put q) (fun q _ => congrFun hr.shown q) (fun x => .inl (congrFun hr.openfiles x))
    (fun j q hj hne hloop => ?_) (fun x k j hx hrd => ?_) ?_ (fun _ _ => nofun) (by rw [hprog]; exact False.elim)
  · rw [hr.got, update_of_ne hne]
  · have hj0 : j ≠ 0 := by
      rintro rfl
      exact hne (Option.some.inj (hj.symm.trans hp))
    obtain ⟨f', hf'⟩ := h.exists_filter hj
    have hs' := h.stage j q f' hj hf'
    have hin' := hs'.stdin hloop
    rw [Stdin, if_neg hj0] at hin'
    obtain ⟨v0, k0, hv0⟩ := hin'
    exact ⟨hpipe ⟨v0, k0, false, hv0⟩, hout (hs'.stdout hloop)⟩
  · show (σ.world.pids[j]?).elim [] t.put = (σ.world.pids[j + 1]?).elim [] t.got ++ (t.files.pipe k).contents
    rw [hr.put, hr.got, hr.pipe, h.inv.elim_update hp (Nat.succ_ne_zero j)]
    exact h.chan x k j ((hr.holds x k false).mp hx) hrd
  · by_cases hpos : 0 < ((tail.take BUFSIZE).length : ℤ)
    · rw [Prog.next, if_pos hpos]
      refine ⟨?_, ?_, fun _ => ?_, fun _ => ?_, fun _ => hpre, False.elim, ?_⟩
      · rw [hwritten, hr.self, hgot, map_append, hflow]
        rfl
      · rw [hr.self]
        trivial
      · rw [Stdin, if_pos rfl]
        refine ⟨_, hr.off, htype, hread, hip, ?_⟩
        rw [hoff, hgot, length_append, UInt32.ofNat_add]
      · rw [hout (hs.stdout id)]
        exact hs.stdout id
      · rintro _ ⟨⟩
        rw [length_map]
        exact length_take_le _ _
    · -- the end of the file
      have hnil : tail.take BUFSIZE = [] := eq_nil_of_length_eq_zero (by omega)
      have htail' : tail = [] := (take_eq_nil_iff.mp hnil).resolve_left (by decide)
      rw [Prog.next, if_neg hpos]
      refine ⟨?_, ?_, fun hno => absurd trivial hno, fun hno => absurd trivial hno, fun _ => hpre, fun _ => ?_, nofun⟩
      · rw [hwritten, hr.self, hgot, hnil, append_nil, hflow]
        exact (append_nil _).symm
      · rw [hr.self]
        trivial
      · rw [hgot, hnil, e.input_zero, ← htail, htail']

theorem of_show
    {bytes : List UInt8} (hprog : σ.prog i = .write bytes) (hplace : σ.world.kernel.place p = .user)
    (hlast : ¬ i + 1 < e.programs.length) (hs : Kernel.Shows σ.world.kernel t p bytes) (n : ℤ) :
    Flow e (σ.returns e i t (some (.wrote n))) := by
  obtain ⟨f, hf⟩ := h.exists_filter hp
  have ho := h.stage i p f hp hf
  rw [hprog] at ho
  have hflow := ho.flow
  rw [hplace, written, if_neg hlast] at hflow
  rw [returns_some σ hf, hprog]
  refine h.of_stage hp hinv hf (fun q hne => ⟨[], by rw [hs.place q hne, Place.wake_nil]⟩) (fun q _ => congrFun hs.got q)
    (fun q _ => congrFun hs.put q) (fun q hne => ?_) (fun x => .inl (by rw [hs.files])) (fun j q _ _ _ => ?_) ?_
    (ho.loop id id (congrFun hs.got p) (congrArg view hs.files) ?_ ?_ nofun) False.elim (by rw [hprog]; exact False.elim)
  · rw [hs.shown, update_of_ne hne]
  · rw [hs.files]
    exact ⟨rfl, rfl⟩
  · refine h.chan_of_calm hs.got hs.put rfl (fun _ _ => id) (fun x k hx => ?_) fun x k b _ => ?_
    · exact hs.files ▸ hx
    · show (t.files.pipe k).contents = _
      rw [hs.files]
  · rw [hflow, written, if_neg hlast, hs.shown, update_self, hs.self]
    exact (append_nil _).symm
  · rw [hs.self]
    trivial

theorem of_close
    (hplace : σ.world.kernel.place p = .user) (hpast : (σ.prog i).Past) (hg : g.Past) {fd : ℕ} {r : Option Ret}
    (hd : Kernel.Does σ.world.kernel p (.close fd) t r) :
    Flow e ⟨{ σ.world with kernel := t }, update σ.prog i g⟩ := by
  have hcalm := h.inv.kernel.calm hd id
  cases hd with
  | @close _ u c _ held quiet openfiles =>
    refine h.of_calm hp hinv hcalm (fun x => ?_) (fun x k hx => ?_) hpast hg ?_
    · show u.openfiles x = _ ∨ u.openfiles x = none
      rw [openfiles]
      split_ifs
      · exact update_none ..
      · exact .inl rfl
    · split_ifs at openfiles
      · exact ((h.inv.kernel.holds_close quiet held openfiles).mp hx).2
      · exact (h.inv.kernel.holds_iff quiet held (congrFun openfiles x)).mp hx
    · show WaitsIn e i ((σ.world.kernel.place p).wake c) g
      rw [hplace]
      trivial

end

theorem call (hplace : σ.world.kernel.place p = .user)
    {input : Option (List UInt8)} {output : ℕ} {r : Option Ret}
    (hin : ∀ v ip, σ.world.kernel.files.view (p, 0) = some v → v.type = .inode → v.ip = some ip →
      input = inodeRead (e.content ip) v.off BUFSIZE)
    (he : σ.world.kernel.call p ((σ.prog i).call (e.buf i) input output) = .ok (t, r)) : Flow e (σ.returns e i t r) := by
  have hmem := mem_of_getElem? hp
  have hinv : World.Inv { σ.world with kernel := t } := h.inv.step (.stage hmem hplace (Prog.stageCall _ _ _ _) he)
  have hd := h.inv.kernel.does (h.inv.mem p hmem) he
  obtain ⟨f, hf⟩ := h.exists_filter hp
  have hs := h.stage i p f hp hf
  cases hg : σ.prog i with
  | read =>
    rw [hg] at he hs
    have hstdin := hs.stdin id
    cases i with
    | zero => exact h.of_read_file hp hinv hg hin (userBuf e 0 le_rfl) he
    | succ i =>
      obtain ⟨v, k, hv, hend⟩ := hstdin
      have hk := holds_iff_view.mpr ⟨v, hv, hend⟩
      exact h.of_read_pipe hp hinv hg hk (h.inv.kernel.call_read_pipe (userBuf e _ le_rfl) hk he)
  | write bytes =>
    rw [hg] at he hs
    have hbuf := userBuf e i (hs.le bytes rfl)
    have hstdout := hs.stdout id
    by_cases hlt : i + 1 < e.programs.length
    · rw [Stdout, if_pos hlt] at hstdout
      obtain ⟨v, k, hv, hend⟩ := hstdout
      have hk := holds_iff_view.mpr ⟨v, hv, hend⟩
      exact h.of_write_pipe hp hinv hg hlt hk (by rw [hplace]; rfl) (Kernel.Inv.call_write_pipe hbuf hk he)
    · rw [Stdout, if_neg hlt] at hstdout
      obtain ⟨v, hv, htype, hwrite⟩ := hstdout
      obtain ⟨hshow, rfl⟩ := Kernel.Inv.call_write_console hbuf hv htype hwrite he
      exact h.of_show hp hinv hg hplace hlt hshow _
  | closeOut =>
    have hpast : (σ.prog i).Past := by rw [hg]; trivial
    rw [hg] at hd
    have hflow := fun {g} (hg : Prog.Past g) => h.of_close (g := g) hp hinv hplace hpast hg hd
    cases hd with
    | close =>
      rw [returns_some σ hf, hg]
      cases f
      · exact hflow trivial
      · exact hflow trivial
  | closeIn =>
    have hpast : (σ.prog i).Past := by rw [hg]; trivial
    rw [hg] at hd
    have hflow := h.of_close (g := .exit) hp hinv hplace hpast trivial hd
    cases hd with
    | close =>
      rw [returns_some σ hf, hg]
      exact hflow
  | exit =>
    have hpast : (σ.prog i).Past := by rw [hg]; trivial
    rw [hg] at hd
    have hcalm := h.inv.kernel.calm hd id
    cases hd with
    | exit =>
      rw [returns_none]
      refine h.of_calm hp hinv hcalm (fun x => .inl rfl) (fun x k hx => hx) hpast hpast ?_
      show WaitsIn e i (update σ.world.kernel.place p _ p) _
      rw [update_self, hg]
      trivial

theorem resume {r : Option Ret} (he : σ.world.kernel.resume p = .ok (t, r)) :
    Flow e (σ.returns e i t r) := by
  have hmem := mem_of_getElem? hp
  have hsp := h.inv.mem p hmem
  have hinv : World.Inv { σ.world with kernel := t } := h.inv.step (.resume hsp (fun e => h.inv.ne (e ▸ hmem)) he)
  obtain ⟨f, hf⟩ := h.exists_filter hp
  have hwaits := (h.stage i p f hp hf).waits
  have hok := h.inv.kernel.place p
  unfold Kernel.resume at he
  split at he
  · rename_i k n hpl
    rw [hpl] at hwaits hok
    obtain ⟨⟨fd, hk⟩, -⟩ := hok
    rw [Except.ok.injEq] at he
    cases hg : σ.prog i with
    | read =>
      rw [hg] at hwaits
      obtain rfl : n = BUFSIZE := hwaits
      obtain ⟨label, hl⟩ := h.inv.topology
      obtain ⟨j, -, hi⟩ := h.inv.label_of_holds hl hp hk
      obtain rfl : i = j + 1 := hi
      exact h.of_read_pipe hp hinv hg hk he.symm
    | write | closeOut | closeIn | exit =>
      rw [hg] at hwaits
      exact hwaits.elim
  · rename_i k n rest hpl
    rw [hpl] at hwaits hok
    obtain ⟨⟨fd, hk⟩, -⟩ := hok
    rw [Except.ok.injEq] at he
    cases hg : σ.prog i with
    | write bs =>
      rw [hg] at hwaits
      exact h.of_write_pipe hp hinv hg hwaits hk (by rw [hpl]; rfl) he.symm
    | read | closeOut | closeIn | exit =>
      rw [hg] at hwaits
      exact hwaits.elim
  · rename_i fd fds hpl
    rw [hpl] at hwaits
    obtain ⟨u, c, hc, hheld, ho, hq⟩ := closeFd_spec h.inv.kernel.procs.held (h.inv.kernel.procs.bound p hsp) fd
    simp only [Kernel.files, hc, bind, Except.bind, Except.ok.injEq, Prod.mk.injEq] at he
    obtain ⟨rfl, rfl⟩ := he
    have hcalm := (h.inv.kernel.calm_after (a := p) hq hheld fun q fd' hne => by
      rw [ho, update_of_ne (by simp [hne])]).setPlace (.exiting fds)
    have hg := hwaits.exit trivial
    rw [returns_none, hg]
    refine h.of_calm hp hinv hcalm (fun x => ?_) (fun x k hx => ?_) (by rw [hg]; trivial) trivial ?_
    · show u.openfiles x = _ ∨ u.openfiles x = none
      rw [ho]
      exact update_none ..
    · exact ((h.inv.kernel.holds_close hq hheld ho).mp hx).2
    · show WaitsIn e i (update (σ.world.kernel.after u c).place p (.exiting fds) p) _
      rw [update_self]
      trivial
  · rename_i hpl
    rw [hpl] at hwaits
    obtain ⟨rfl, rfl⟩ := he
    have hg := hwaits.exit trivial
    rw [returns_none, hg]
    refine h.of_calm hp hinv ⟨fun q hne => ⟨[], ?_⟩, rfl, rfl, rfl, fun _ _ _ => rfl, fun _ _ _ _ => rfl⟩ (fun x => .inl rfl)
      (fun x k hx => hx) (by rw [hg]; trivial) trivial ?_
    · rw [Place.wake_nil]
      exact update_of_ne hne ..
    · show WaitsIn e i (update σ.world.kernel.place p .dead p) _
      rw [update_self]
      trivial
  · rw [Except.ok.injEq, Prod.mk.injEq] at he
    obtain ⟨rfl, rfl⟩ := he
    exact h

end

/-! ### Steps of the shell -/

theorem exists_free (hlt : σ.world.pids.length < e.programs.length) :
    ∃ f, (σ.world.kernel.files.file f).ref = 0 := by
  by_contra hcon
  push Not at hcon
  let s := σ.world.kernel.files
  let T : Finset (ℕ × Fin NOFILE) :=
    {SHELL} ×ˢ Finset.univ ∪ σ.world.pids.toFinset ×ˢ Finset.univ.filter fun fd : Fin NOFILE => fd.val < 3
  have hsub : (Finset.univ \ e.busy).image some ⊆ T.image s.openfiles := by
    intro o ho
    obtain ⟨f, hf, rfl⟩ := mem_image.mp ho
    have hbusy : f ∉ e.busy := (mem_sdiff.mp hf).2
    obtain ⟨⟨p, fd⟩, hx⟩ := h.inv.kernel.procs.held.exists_slot (Nat.pos_of_ne_zero (hcon f))
    refine mem_image.mpr ⟨(p, fd), ?_, hx⟩
    by_cases hp : p = SHELL
    · exact mem_union_left _ (by simp [hp])
    · by_cases hp' : p ∈ σ.world.pids
      · have := h.low p fd hp' (by rw [hx]; exact Option.some_ne_none f)
        exact mem_union_right _ (by simp [hp', this])
      · exact absurd (h.others p fd f hp hp' hx) hbusy
  have hcard : (Finset.univ \ e.busy).card ≤ T.card := by
    rw [← card_image_of_injective _ (Option.some_injective _)]
    exact (card_le_card hsub).trans card_image_le
  have hT : T.card ≤ NOFILE + 3 * σ.world.pids.length := by
    refine (card_union_le _ _).trans ?_
    rw [card_product, card_product, card_singleton, card_univ, Fintype.card_fin, one_mul,
      show (Finset.univ.filter fun fd : Fin NOFILE => fd.val < 3).card = 3 from rfl, mul_comm 3]
    exact Nat.add_le_add_left (Nat.mul_le_mul_right 3 (toFinset_card_le _)) _
  rw [card_sdiff_of_subset (subset_univ _), card_univ, Fintype.card_fin] at hcard
  have hroom := e.room
  rw [Job.programs, length_cons] at hlt
  omega

theorem of_shell {a : At} (hinv : World.Inv ⟨t, a, σ.world.pids ++ []⟩) (hcalm : Kernel.Calm σ.world.kernel t SHELL)
    (hopen : ∀ p fd, p ≠ SHELL → t.files.openfiles (p, fd) = σ.world.kernel.files.openfiles (p, fd))
    (hplan : a.Plan e.stages σ.world.pids.length)
    (hfile : ∀ st it fd, a = .spawn st it (some fd) → Stdin e 0 [] (t.files.view (SHELL, fd)))
    (hchan : World.Chan ⟨t, a, σ.world.pids⟩) : Flow e ⟨⟨t, a, σ.world.pids ++ []⟩, σ.prog⟩ := by
  rw [append_nil] at hinv ⊢
  have hne : ∀ q ∈ σ.world.pids, q ≠ SHELL := fun q hq e => h.inv.ne (e ▸ hq)
  refine ⟨hinv, fun p hp => ?_, hplan, hfile, fun p fd f hp hp' ho => ?_, fun p fd hp ho => ?_, fun i p f hi hf => ?_, hchan,
    h.unlaunched, h.upstream⟩
  · show t.got p = [] ∧ t.put p = [] ∧ t.shown p = []
    rw [hcalm.got, hcalm.put, hcalm.shown]
    exact h.fresh p hp
  · exact h.others p fd f hp hp' ((hopen p fd hp).symm.trans ho)
  · exact h.low p fd hp (hopen p fd (hne p hp) ▸ ho)
  · have hmem := mem_of_getElem? hi
    exact (h.stage i p f hi hf).calm hcalm (h.inv.mem p hmem) (hne p hmem)

theorem of_shell_close {a : At} (hinv : World.Inv ⟨t, a, σ.world.pids ++ []⟩) {c : ℕ} {r : Option Ret}
    (hd : Kernel.Does σ.world.kernel SHELL (.close c) t r) (hplan : a.Plan e.stages σ.world.pids.length)
    (hfile : a.file = none) (hends : ∀ fd j, (fd, j, false) ∈ a.ends → (fd, j, false) ∈ σ.world.shell.ends) :
    Flow e ⟨⟨t, a, σ.world.pids ++ []⟩, σ.prog⟩ := by
  have hcalm := h.inv.kernel.calm hd id
  cases hd with
  | @close _ u c' _ held quiet openfiles =>
    refine h.of_shell hinv hcalm (fun p fd hne => ?_) hplan (fun st it fd ha => (At.not_spawn hfile ha).elim) ?_
    · show u.openfiles (p, fd) = _
      rw [openfiles]
      split_ifs
      · exact update_of_ne (by simp [hne]) _ _
      · rfl
    · refine h.chan_of_calm hcalm.got hcalm.put rfl hends (fun x k hx => ?_) hcalm.contents
      split_ifs at openfiles
      · exact ((h.inv.kernel.holds_close quiet held openfiles).mp hx).2
      · exact (h.inv.kernel.holds_iff quiet held (congrFun openfiles x)).mp hx

theorem of_shell_open {st : Stage} {it : Iter} (ha : σ.world.shell = .open st it) {u : Files ι}
    {c : List (FileCall ι)} {fd : Fin NOFILE}
    (hinv : World.Inv ⟨σ.world.kernel.after u c, .spawn st it (some fd), σ.world.pids ++ []⟩) (held : Held u 0)
    (quiet : Quiet σ.world.kernel.files u c) (ret : Files.OpenRet σ.world.kernel.files u SHELL 0 e.ip (.ok fd)) :
    Flow e ⟨⟨σ.world.kernel.after u c, .spawn st it (some fd), σ.world.pids ++ []⟩, σ.prog⟩ := by
  have hcalm := h.inv.kernel.calm_after quiet held (ret.keeps held).other
  have hplan := h.plan
  rw [ha] at hplan
  refine h.of_shell hinv hcalm (ret.keeps held).other ⟨hplan.1, by simp [hplan.2]⟩ ?_ ?_
  · rintro _ _ _ ⟨⟩
    obtain ⟨-, f, -, ho, hf⟩ := ret
    refine ⟨_, Kernel.view_eq_some (f := f) (by rw [Kernel.after, ho, update_self]), ?_⟩
    show (u.file f).type = _ ∧ (u.file f).readable = _ ∧ (u.file f).ip = _ ∧ (u.file f).off = _
    rw [hf]
    exact ⟨rfl, rfl, rfl, rfl⟩
  · refine h.chan_of_calm hcalm.got hcalm.put rfl (fun fd j hj => ?_)
      (fun x k hx => (h.inv.kernel.holds_open quiet held ret).mp hx) hcalm.contents
    rw [ha]
    exact hj

theorem of_shell_pipe {st : Stage} {rest : List Stage} {inFd : ℤ}
    (ha : σ.world.shell = .pipe i st rest inFd) {u : Files ι} {c : List (FileCall ι)} {p : Fin NOFILE × Fin NOFILE}
    (hinv : World.Inv ⟨σ.world.kernel.after u c, .launch st ⟨i, rest, inFd, some p⟩, σ.world.pids ++ []⟩) (held : Held u 0)
    (quiet : Quiet σ.world.kernel.files u c) (ret : Files.PipeRet σ.world.kernel.files u SHELL (.ok p)) :
    Flow e ⟨⟨σ.world.kernel.after u c, .launch st ⟨i, rest, inFd, some p⟩, σ.world.pids ++ []⟩, σ.prog⟩ := by
  have hcalm := h.inv.kernel.calm_after quiet held (ret.keeps held).other
  have hplan := h.plan
  have hok := h.inv.ok
  rw [ha] at hplan hok
  obtain ⟨hlen, -, -⟩ := hok
  refine h.of_shell hinv hcalm (ret.keeps held).other (At.plan_launch ⟨hplan.1, hplan.2⟩)
    (fun st' it' fd hs => (At.not_spawn (At.launch_file ..) hs).elim) ?_
  obtain ⟨k0, href, hopened, hiff⟩ := h.inv.kernel.holds_pipe quiet held ret
  intro x k j hx hr
  show (σ.world.pids[j]?).elim [] σ.world.kernel.put = (σ.world.pids[j + 1]?).elim [] σ.world.kernel.got ++ (u.pipe k).contents
  rcases (hiff x k false).mp hx with ⟨hk, hx'⟩ | ⟨rfl, rfl⟩
  · -- an end that was there before
    rw [h.inv.kernel.contents_eq quiet hx']
    refine h.chan x k j hx' ?_
    rcases hr with ⟨e1, he⟩ | hr
    · rw [At.launch_ends, Iter.ends, mem_append] at he
      rcases he with he | he
      · exact .inl ⟨e1, by rw [ha]; exact he⟩
      · obtain ⟨he, -⟩ := mem_pipeEnds.mp he
        obtain ⟨q, fd⟩ := x
        obtain rfl : q = SHELL := e1
        obtain rfl : fd = p.1 := Fin.ext (by exact_mod_cast he)
        have hnew := (hiff (SHELL, p.1) k0 false).mpr (.inr ⟨rfl, rfl⟩)
        exact absurd (hx.unique hnew).1 hk
    · exact .inr hr
  · -- the new pipe is empty, and no stage has used it
    have hj : σ.world.pids.length ≤ j := by
      rcases hr with ⟨-, he⟩ | hr
      · rw [At.launch_ends, Iter.ends, mem_append] at he
        rcases he with he | he
        · obtain ⟨hpos, hfd, -⟩ := mem_inEnds.mp he
          obtain ⟨label, hl⟩ := h.inv.topology
          have hin : (inFd, i - 1, false) ∈ σ.world.shell.ends := by
            rw [ha]
            exact mem_inEnds.mpr ⟨hpos, rfl, rfl, rfl⟩
          obtain ⟨fd', hfd', k', hk', -⟩ := (hl.shell _ _ _).mp hin
          obtain rfl : fd' = p.1 := Fin.ext (by exact_mod_cast hfd'.trans hfd.symm)
          obtain ⟨f, hf, -⟩ := hk'
          rw [ret.2.1] at hf
          cases hf
        · rw [(mem_pipeEnds.mp he).2, hlen]
      · exact absurd (mem_of_getElem? hr) h.inv.ne
    rw [List.getElem?_eq_none hj, List.getElem?_eq_none (hj.trans (Nat.le_succ j)), hopened, Pipe.contents_opened]
    rfl

section

variable {st : Stage} {it : Iter} {file : Option (Fin NOFILE)} (ha : σ.world.shell = .spawn st it file)
  {procs : FileProcs ι} {child : ℕ} (fresh : child ∉ σ.world.kernel.procs.spawned)
  (spawns : Files.Spawns σ.world.kernel.files procs.files SHELL child (it.inputFd file) it.outFd)
include ha fresh spawns

theorem stageOk_spawn : StageOk e { σ.world.kernel with procs := procs } .read it.i child f := by
  obtain ⟨label, hl⟩ := h.inv.topology
  have hplan := h.plan
  have hok := h.inv.ok
  rw [ha] at hl hplan hok
  obtain ⟨hlen, hit, -⟩ := hok
  obtain ⟨hplan, hfile⟩ := hplan
  have hnew := h.fresh child fun hc => fresh (h.inv.mem _ hc)
  have hN : e.programs.length = it.i + 1 + it.rest.length := by
    have h1 := congrArg List.length hplan.drop
    rw [length_drop, length_cons] at h1
    rw [← e.length_stages]
    omega
  -- standard input, and that there is one
  have hin : σ.world.kernel.files.lookup SHELL (it.inputFd file) ≠ none ∧ Stdin e it.i [] (procs.files.view (child, 0)) := by
    by_cases h0 : it.i = 0
    · obtain ⟨fd, rfl⟩ := Option.ne_none_iff_exists'.mp (hfile.mp h0)
      have hs := h.file st it fd ha
      rw [h0]
      obtain ⟨v, hv, hs⟩ := hs
      obtain ⟨hlook, hv'⟩ := (h.inv.kernel.view_spawn h.inv.shell_mem spawns hv).1 rfl
      exact ⟨hlook, v, hv', hs⟩
    · obtain rfl : file = none := by
        by_contra hne
        exact h0 (hfile.mpr hne)
      have hmem : (it.inFd, it.i - 1, false) ∈ (At.spawn st it none).ends :=
        mem_append_left _ (mem_inEnds.mpr ⟨hplan.inFd (Nat.pos_of_ne_zero h0), rfl, rfl, rfl⟩)
      obtain ⟨fd, hfd, k, hk, -⟩ := (hl.shell _ _ _).mp hmem
      obtain ⟨v, hv, hend⟩ := holds_iff_view.mp hk
      obtain ⟨hlook, hv'⟩ := (h.inv.kernel.view_spawn h.inv.shell_mem spawns hv).1 hfd
      rw [Stdin, if_neg h0]
      exact ⟨hlook, v, k, hv', hend⟩
  refine ⟨?_, ?_, fun _ => ?_, fun _ => ?_, fun _ => ?_, False.elim, nofun⟩
  · show (σ.world.kernel.got child).map f.byte = written e σ.world.kernel it.i child ++ pending (σ.world.kernel.place child) .read
    rw [written, hnew.1, hnew.2.1, hnew.2.2, ite_self, h.inv.kernel.fresh child fresh]
    rfl
  · show WaitsIn e it.i (σ.world.kernel.place child) .read
    rw [h.inv.kernel.fresh child fresh]
    trivial
  · show Stdin e it.i (σ.world.kernel.got child) (procs.files.view (child, 0))
    rw [hnew.1]
    exact hin.2
  · show Stdout e it.i (procs.files.view (child, 1))
    unfold Stdout
    split_ifs with hlt
    · -- there is a pipe after the stage
      obtain ⟨p, hp⟩ := Option.ne_none_iff_exists'.mp fun hnone => by
        rw [hit.pipefd.mp hnone, length_nil] at hN
        omega
      have hout : it.outFd = p.2.val := by rw [Iter.outFd, hp]
      have hmem : ((p.2.val : ℤ), it.i, true) ∈ (At.spawn st it file).ends := by
        rw [At.ends, Iter.ends, hp]
        exact mem_append_right _ (mem_pipeEnds.mpr ⟨rfl, rfl⟩)
      obtain ⟨fd, hfd, k, hk, -⟩ := (hl.shell _ _ _).mp hmem
      obtain ⟨v, hv, hend⟩ := holds_iff_view.mp hk
      exact ⟨v, k, (h.inv.kernel.view_spawn h.inv.shell_mem spawns hv).2 (hfd.trans hout.symm), hend⟩
    · -- the last stage gets the console
      have hnone : it.pipefd = none := hit.pipefd.mpr (eq_nil_of_length_eq_zero (by omega))
      have hout : it.outFd = -1 := by rw [Iter.outFd, hnone]
      obtain ⟨g, hg, htype, hwrite⟩ := spawns.console hout hin.1 (h.exists_free (by omega))
      exact ⟨_, Kernel.view_eq_some hg, htype, hwrite⟩
  · show σ.world.kernel.got child <+: _
    rw [hnew.1]
    exact nil_prefix

theorem chan_spawn {b : At} (hb : b.ends = it.ends) :
    World.Chan ⟨{ σ.world.kernel with procs := procs }, b, σ.world.pids ++ [child]⟩ := by
  obtain ⟨label, hl⟩ := h.inv.topology
  have hplan := h.plan
  have hok := h.inv.ok
  have hends : σ.world.shell.ends = it.ends := by rw [ha]; rfl
  rw [ha] at hplan hok
  obtain ⟨hlen, hit, -⟩ := hok
  obtain ⟨hplan, hfile⟩ := hplan
  have hcp : child ∉ σ.world.pids := fun hc => fresh (h.inv.mem _ hc)
  have hnew := h.fresh child hcp
  -- the new stage has not read or stored anything
  have hat : ∀ (g : ℕ → List UInt8) (m : ℕ), g child = [] →
      ((σ.world.pids ++ [child])[m]?).elim [] g = (σ.world.pids[m]?).elim [] g := by
    intro g m hg
    rcases Nat.lt_trichotomy m σ.world.pids.length with hm | rfl | hm
    · rw [List.getElem?_append_left hm]
    · rw [List.getElem?_concat_length, List.getElem?_eq_none le_rfl]
      exact hg
    · rw [List.getElem?_eq_none (by rw [length_append]; exact hm), List.getElem?_eq_none hm.le]
  intro x k j hx hr
  show ((σ.world.pids ++ [child])[j]?).elim [] σ.world.kernel.put =
    ((σ.world.pids ++ [child])[j + 1]?).elim [] σ.world.kernel.got ++ (procs.files.pipe k).contents
  rw [hat _ j hnew.2.1, hat _ (j + 1) hnew.1, spawns.pipe]
  have hiff := (h.inv.kernel.holds_spawn h.inv.shell_mem fresh spawns).mp hx
  have hold : σ.world.kernel.files.Holds x k false → σ.world.ReaderOf x j →
      (σ.world.pids[j]?).elim [] σ.world.kernel.put =
        (σ.world.pids[j + 1]?).elim [] σ.world.kernel.got ++ (σ.world.kernel.files.pipe k).contents := h.chan x k j
  by_cases hxc : x.1 = child
  · -- the new stage has its read end from the shell
    have hj : j + 1 = it.i := by
      rcases hr with ⟨e1, -⟩ | hr
      · exact absurd (hxc.symm.trans e1) fun e => fresh (e ▸ h.inv.shell_mem)
      · change (σ.world.pids ++ [child])[j + 1]? = some x.1 at hr
        rw [hxc] at hr
        by_contra hne
        rcases Nat.lt_or_gt_of_ne (hlen ▸ hne) with hm | hm
        · rw [List.getElem?_append_left hm] at hr
          exact hcp (mem_of_getElem? hr)
        · rw [List.getElem?_eq_none (by rw [length_append]; exact hm)] at hr
          cases hr
    obtain rfl : file = none := by
      by_contra hne
      have := hfile.mpr hne
      omega
    rcases hiff with hx' | ⟨-, hat'⟩ | ⟨-, hat'⟩
    · exact absurd (hxc ▸ h.inv.kernel.mem_of_holds hx') fresh
    · obtain ⟨fd', hfd', hk'⟩ := holdsAt_iff.mp hat'
      refine h.chan (SHELL, fd') k j hk' (.inl ⟨rfl, ?_⟩)
      rw [hends, Iter.ends, mem_append, mem_inEnds]
      exact .inl ⟨hplan.inFd (by omega), hfd', by omega, rfl⟩
    · -- what it writes to is no read end
      obtain ⟨fd', hfd', hk'⟩ := holdsAt_iff.mp hat'
      cases hp : it.pipefd with
      | none =>
        rw [Iter.outFd, hp] at hfd'
        dsimp only at hfd'
        omega
      | some p =>
        rw [Iter.outFd, hp] at hfd'
        have hmem : ((p.2.val : ℤ), it.i, true) ∈ σ.world.shell.ends := by
          rw [hends, Iter.ends, hp]
          exact mem_append_right _ (mem_pipeEnds.mpr ⟨rfl, rfl⟩)
        obtain ⟨fd'', hfd'', k'', hk'', -⟩ := (hl.shell _ _ _).mp hmem
        obtain rfl : fd' = fd'' := Fin.ext (by exact_mod_cast hfd'.trans hfd''.symm)
        cases (hk'.unique hk'').2
  · have hx' : σ.world.kernel.files.Holds x k false := by
      rcases hiff with hx' | ⟨rfl, -⟩ | ⟨rfl, -⟩
      · exact hx'
      · exact absurd rfl hxc
      · exact absurd rfl hxc
    refine hold hx' ?_
    rcases hr with ⟨e1, he⟩ | hr
    · exact .inl ⟨e1, by rw [hends, ← hb]; exact he⟩
    · change (σ.world.pids ++ [child])[j + 1]? = some x.1 at hr
      rcases mem_append.mp (mem_of_getElem? hr) with hm | hm
      · obtain ⟨m, hm'⟩ := List.getElem?_of_mem hm
        have hlt := (List.getElem?_eq_some_iff.mp hm').1
        have hnd : (σ.world.pids ++ [child]).Nodup := nodup_append.mpr ⟨h.inv.nodup, nodup_singleton _, fun a ha b hb => by
          rw [List.mem_singleton.mp hb]
          rintro rfl
          exact hcp ha⟩
        have hm'' : (σ.world.pids ++ [child])[m]? = some x.1 := by rw [List.getElem?_append_left hlt, hm']
        obtain ⟨h1, e1⟩ := List.getElem?_eq_some_iff.mp hr
        obtain ⟨h2, e2⟩ := List.getElem?_eq_some_iff.mp hm''
        obtain rfl : j + 1 = m := (hnd.getElem_inj_iff).mp (e1.trans e2.symm)
        exact .inr hm'
      · exact absurd (List.mem_singleton.mp hm) hxc

theorem of_shell_spawn
    (hd : Kernel.Does σ.world.kernel SHELL (.spawn (elfIdForProcess st.cmd) 200 (it.inputFd file) it.outFd)
      { σ.world.kernel with procs := procs } (some (.spawned (.ok child))))
    (hinv : World.Inv ⟨{ σ.world.kernel with procs := procs }, .spawned st it file (some child), σ.world.pids ++ [child]⟩) :
    Flow e ⟨⟨{ σ.world.kernel with procs := procs }, .spawned st it file (some child), σ.world.pids ++ [child]⟩, σ.prog⟩ := by
  have hcalm := h.inv.kernel.calm hd id
  have hplan := h.plan
  have hok := h.inv.ok
  rw [ha] at hplan hok
  obtain ⟨hlen, hit, -⟩ := hok
  obtain ⟨hplan, -⟩ := hplan
  refine ⟨hinv, fun p hp => ?_, ?_, fun st' it' fd hs => ?_, fun p fd f hp hp' ho => ?_, fun p fd hp ho => ?_,
    fun i p f hi hf => ?_, h.chan_spawn ha fresh spawns (At.spawned_ends _ _ _ _), fun i hi => ?_, h.upstream⟩
  · exact h.fresh p fun hc => hp (mem_append_left _ hc)
  · have hcmd : ¬ (st.cmd = .ls ∧ st.argc = 2) := by
      obtain ⟨-, ⟨-, rfl⟩ | ⟨-, f, rfl⟩⟩ := e.stage_of_drop hplan.drop
      · decide
      · simp
    have hn : (σ.world.pids ++ [child]).length = it.i + 1 := by rw [length_append, hlen, length_singleton]
    unfold At.spawned
    rw [if_neg hcmd]
    cases file with
    | none => exact At.plan_returned hplan hit child hn
    | some fd => exact ⟨st, hplan⟩
  · exact (At.not_spawn (At.spawned_file ..) hs).elim
  · have hne : p ≠ child := fun e => hp' (e ▸ mem_append_right _ (List.mem_singleton_self _))
    exact h.others p fd f hp (fun hc => hp' (mem_append_left _ hc)) ((spawns.other p fd hne).symm.trans ho)
  · by_cases hpc : p = child
    · subst hpc
      exact spawns.low fd ho
    · have hmem : p ∈ σ.world.pids := (mem_append.mp hp).resolve_right fun hc => hpc (List.mem_singleton.mp hc)
      exact h.low p fd hmem (spawns.other p fd hpc ▸ ho)
  · change (σ.world.pids ++ [child])[i]? = some p at hi
    rcases Nat.lt_or_ge i σ.world.pids.length with hlt | hge
    · rw [List.getElem?_append_left hlt] at hi
      have hmem := mem_of_getElem? hi
      exact (h.stage i p f hi hf).calm hcalm (h.inv.mem p hmem) fun e => h.inv.ne (e ▸ hmem)
    · have hi' : i = σ.world.pids.length := by
        have := (List.getElem?_eq_some_iff.mp hi).1
        rw [length_append, length_singleton] at this
        omega
      rw [hi', List.getElem?_concat_length] at hi
      obtain rfl : child = p := Option.some.inj hi
      rw [h.unlaunched i hge, hi', hlen]
      exact h.stageOk_spawn ha fresh spawns
  · change (σ.world.pids ++ [child]).length ≤ i at hi
    rw [length_append] at hi
    exact h.unlaunched i (by omega)

end

omit h in
theorem missing {a : At} (ha : a.Failed) (hlen : σ.world.pids.length = i) (hi : i < e.stages.length) :
    Missing e ⟨⟨t, a, σ.world.pids ++ []⟩, σ.prog⟩ := by
  refine ⟨ha, ?_⟩
  rwa [append_nil, hlen]

theorem shell (hplace : σ.world.kernel.place SHELL = .user) {u : UserCall ι} (hu : σ.world.shell.Calls u)
    (hopen : ∀ omode ip, u = .open omode ip → ip = .ok e.ip) {r : Ret}
    (he : σ.world.kernel.call SHELL u = .ok (t, some r)) :
    Missing e ⟨⟨t, σ.world.shell.next r, σ.world.pids ++ launched r⟩, σ.prog⟩ ∨
      Flow e ⟨⟨t, σ.world.shell.next r, σ.world.pids ++ launched r⟩, σ.prog⟩ := by
  have hinv := h.inv.step (.shell hplace hu he)
  have hd := h.inv.kernel.does h.inv.shell_mem he
  have hplan := h.plan
  have hok := h.inv.ok
  cases ha : σ.world.shell with
  | pipe i st rest inFd =>
    rw [ha] at hu hplan hok hinv
    have hlt := (e.stage_of_drop hplan.1).1
    cases u <;> try exact hu.elim
    cases hd with
    | @pipe _ u c r held quiet ret =>
      rcases r with _ | p
      · refine .inl (missing ?_ hok.1 hlt)
        show (if 0 ≤ inFd then At.failPipe i inFd else .done).Failed
        split_ifs <;> trivial
      · exact .inr (h.of_shell_pipe ha hinv held quiet ret)
  | «open» st it =>
    rw [ha] at hu hplan hok hinv
    have hlt := (e.stage_of_drop hplan.1.drop).1
    cases u <;> try exact hu.elim
    rename_i omode ip
    obtain rfl : omode = 0 := hu
    obtain rfl := hopen 0 ip rfl
    cases hd with
    | @«open» _ _ u c r held quiet ret =>
      rcases r with _ | fd
      · exact .inl (missing (At.failed_returned it) hok.1 hlt)
      · exact .inr (h.of_shell_open ha hinv held quiet ret)
  | spawn st it file =>
    rw [ha] at hu hplan hok hinv
    have hlt := (e.stage_of_drop hplan.1.drop).1
    obtain rfl : u = _ := hu
    have hd' := hd
    cases hd with
    | spawnFail => exact .inl (missing (At.failed_spawned st it file) hok.1 hlt)
    | @spawn _ _ _ _ procs child inv spawned fresh spawns => exact .inr (h.of_shell_spawn ha fresh spawns hd' hinv)
  | closeFile it fd pid =>
    rw [ha] at hu hplan hok hinv
    cases pid with
    | none => exact hplan.elim
    | some pid =>
      obtain ⟨st, hplan⟩ := hplan
      obtain rfl : u = _ := hu
      obtain ⟨_, rfl⟩ := hd.closed
      refine .inr (h.of_shell_close (a := .returned it (some pid)) hinv hd (At.plan_returned hplan hok.2.1 pid hok.1)
        (At.returned_file _ _) fun fd' j hj => ?_)
      rw [At.returned_ends] at hj
      rw [ha]
      exact hj
  | closeIn it pid =>
    rw [ha] at hu hplan hok hinv
    cases pid with
    | none => exact hplan.elim
    | some pid =>
      obtain ⟨st, hplan⟩ := hplan
      obtain rfl : u = _ := hu
      obtain ⟨_, rfl⟩ := hd.closed
      refine .inr (h.of_shell_close (a := .afterIn it (some pid)) hinv hd (At.plan_afterIn hplan hok.2.1 pid hok.1)
        (At.afterIn_file _ _) fun fd' j hj => ?_)
      rw [At.afterIn_ends] at hj
      rw [ha]
      exact mem_append_right _ hj
  | closeOut it p =>
    rw [ha] at hu hplan hok hinv
    obtain ⟨st, hplan⟩ := hplan
    obtain rfl : u = _ := hu
    obtain ⟨_, rfl⟩ := hd.closed
    have hrest : it.rest ≠ [] := fun e => by
      have := hok.2.2
      rw [hok.2.1.pipefd.mpr e] at this
      cases this
    have hdrop : e.stages.drop (it.i + 1) = it.rest := by rw [← drop_drop, hplan.drop]; rfl
    refine .inr (h.of_shell_close (a := .top (it.i + 1) p.1.val it.rest) hinv hd
      (At.plan_top hdrop hrest fun _ => Int.natCast_nonneg _) (At.top_file _ _ _) fun fd' j hj => ?_)
    rw [At.top_ends hrest] at hj
    obtain ⟨-, rfl, rfl, -⟩ := mem_inEnds.mp hj
    rw [ha]
    exact mem_pipeEnds.mpr ⟨rfl, rfl⟩
  | closeLast inFd =>
    rw [ha] at hu hplan hinv
    obtain rfl : u = _ := hu
    obtain ⟨_, rfl⟩ := hd.closed
    exact .inr (h.of_shell_close (a := .done) hinv hd hplan rfl fun _ _ hj => absurd hj not_mem_nil)
  | done =>
    rw [ha] at hu
    cases u <;> exact hu.elim
  | chdir | chdirBack | failRead | failWrite | failPipe =>
    rw [ha] at hplan
    exact hplan.elim

end

end Flow

/-! ### Runs -/

theorem Session.Step.flow {e : Job ι} {σ τ : Session ι} (hs : Session.Step e σ τ) (hi : σ.world.Inv)
    (h : Missing e σ ∨ Flow e σ) : Missing e τ ∨ Flow e τ := by
  rcases h with hm | h
  · cases hs with
    | shell hplace hu hopen he =>
      obtain ⟨hfail, hnone⟩ := hm.1.next hu (hi.kernel.does hi.shell_mem he)
      refine .inl ⟨hfail, ?_⟩
      rw [hnone, append_nil]
      exact hm.2
    | call hp hplace hin he => exact .inl hm
    | resume hp he => exact .inl hm
  · cases hs with
    | shell hplace hu hopen he => exact h.shell hplace hu hopen he
    | call hp hplace hin he => exact .inr (h.call hp hplace hin he)
    | resume hp he => exact .inr (h.resume hp he)

section

variable {e : Job ι} {w : World ι} (hw : w.Inv) (hdone : w.shell = .done)
    (hbusy : ∀ p fd f, p ≠ SHELL → w.kernel.files.openfiles (p, fd) = some f → f ∈ e.busy)
include hw hdone hbusy

theorem flow_start : Flow e (Session.start e w) where
  inv := by
    have hk : Kernel.Inv { w.kernel with got := fun _ => [], put := fun _ => [], shown := fun _ => [] } :=
      ⟨hw.kernel.procs, hw.kernel.place, hw.kernel.fresh⟩
    have hw' := hw.of_kernel hk (fun _ => id) fun label hl => ⟨label, hl⟩
    exact hw'.step (.run e.stages hdone)
  fresh _ _ := ⟨rfl, rfl, rfl⟩
  plan := At.plan_top rfl (cons_ne_nil _ _) nofun
  file st it fd hs := (At.not_spawn (At.top_file ..) hs).elim
  others p fd f hp _ ho := hbusy p fd f hp ho
  low p fd hp := absurd hp not_mem_nil
  stage i p f hi := by cases hi
  chan x k j hx hr := by
    rcases hr with ⟨e1, -⟩ | hr
    · obtain ⟨q, fd⟩ := x
      obtain rfl : q = SHELL := e1
      exact absurd hx (hw.not_holds hdone fd k false)
    · cases hr
  unlaunched _ _ := rfl
  upstream _ := False.elim

theorem Session.flow_of_reach {σ : Session ι}
    (h : ReflTransGen (Session.Step e) (Session.start e w) σ) : σ.world.Inv ∧ (Missing e σ ∨ Flow e σ) := by
  induction h with
  | refl =>
    have hf := flow_start hw hdone hbusy
    exact ⟨hf.inv, .inr hf⟩
  | tail _ hs ih => exact ⟨ih.1.step (hs.world ih.1), hs.flow ih.1 ih.2⟩

end

theorem Job.input_length (e : Job ι) :
    e.input e.programs.length = (e.content e.ip).map rot13Char^[e.filters.count .rot13] := by
  have hfold : ∀ (fs : List Filter) (bs : List UInt8),
      fs.foldl (fun bs f => bs.map f.byte) bs = bs.map rot13Char^[fs.count .rot13] := by
    intro fs
    induction fs with
    | nil => exact fun bs => bs.map_id.symm
    | cons f fs ih =>
      intro bs
      rw [foldl_cons, ih, List.map_map]
      cases f with
      | cat => rw [count_cons_of_ne (by decide)]; rfl
      | rot13 => rw [count_cons_self, iterate_succ]; rfl
  rw [Job.input, take_length, hfold, Job.programs, count_cons_of_ne (by decide)]

/-- The output of `CAT f | S1 | … | Sn`. However the stages are scheduled, when the last one has called `sys_exit` it has
shown the contents of the file, each byte rotated once for every `ROT13`. -/
theorem pipeline_output (e : Job ι) (quota : UInt32) (w : World ι) (hw : ReflTransGen World.Step (World.boot quota) w)
    (hdone : w.shell = .done)
    (hbusy : ∀ p fd f, p ≠ SHELL → w.kernel.files.openfiles (p, fd) = some f → f ∈ e.busy) (σ : Session ι)
    (hσ : ReflTransGen (Session.Step e) (Session.start e w) σ) (p : ℕ) (hp : σ.world.pids[e.filters.length]? = some p)
    (hexit : (σ.world.kernel.place p).Exited) :
    σ.world.kernel.shown p = (e.content e.ip).map rot13Char^[e.filters.count .rot13] ∧
      (Even (e.filters.count .rot13) → σ.world.kernel.shown p = e.content e.ip) := by
  obtain ⟨-, hm | h⟩ := Session.flow_of_reach (World.inv_of_reach hw) hdone hbusy hσ
  · -- a stage is missing, but the last one was launched
    have hlt := (List.getElem?_eq_some_iff.mp hp).1
    have := hm.2
    rw [e.length_stages, Job.programs, length_cons] at this
    omega
  · obtain ⟨f, hf⟩ := h.exists_filter hp
    have hs := h.stage _ p f hp hf
    have hpast : (σ.prog e.filters.length).Past := by
      rw [hs.waits.exit hexit]
      trivial
    have hlast : ¬ e.filters.length + 1 < e.programs.length := by simp [Job.programs]
    have hshown : σ.world.kernel.shown p = (e.content e.ip).map rot13Char^[e.filters.count .rot13] := by
      have hflow := hs.flow
      rw [written, if_neg hlast, Flow.pending_of_past hs.waits hpast, append_nil, hs.past hpast, ← e.input_succ hf]
        at hflow
      rw [← hflow, ← e.input_length]
      rfl
    refine ⟨hshown, fun heven => ?_⟩
    rw [hshown, rot13Char_involutive.iterate_even heven, map_id]

/-- `CAT f | ROT13` for a file that says `Hi`. -/
def rotateHi : Job Unit where
  filters := [.rot13]
  ip := ()
  content _ := [72, 105]
  content_le _ := by decide
  buf _ := 0x40000000
  lo_le_buf _ := by decide
  buf_le_hi _ := by decide
  busy := ∅
  room := by decide

/-- The shell launches both stages; the second reads first, and sees the end of the data at its third read. -/
def rotateHiRun : List (Session.Move Unit) :=
  [.shell (.pipe 0x40000000), .shell (.open 0 (.ok ())), .shell (.spawn 6 200 5 4), .shell (.close 5), .call 0,
    .shell (.close 4), .call 0, .shell (.spawn 7 200 3 (-1)), .shell (.close 3), .shell (.close 3), .call 1, .call 1,
    .call 0, .call 0, .call 1, .call 1, .call 1, .call 1]

theorem pipeline_output_hi : ∃ σ : Session Unit,
    rotateHiRun.foldlM (Session.move rotateHi) (Session.start rotateHi (World.boot 300000)) = some σ ∧
      σ.world.pids = [511, 512] ∧ σ.world.kernel.shown 512 = [85, 118] := by
  have hrun : (rotateHiRun.foldlM (Session.move rotateHi) (Session.start rotateHi (World.boot 300000))).map
      (fun σ => (σ.world.pids, σ.world.kernel.place 512)) = some ([511, 512], .exiting (List.finRange NOFILE)) := by
    decide
  obtain ⟨σ, hσ, hrun⟩ := Option.map_eq_some_iff.mp hrun
  simp only [Prod.mk.injEq] at hrun
  obtain ⟨hpids, hplace⟩ := hrun
  refine ⟨σ, hσ, hpids, ?_⟩
  have hbusy : ∀ p fd f, p ≠ SHELL → (World.boot 300000 : World Unit).kernel.files.openfiles (p, fd) = some f →
      f ∈ rotateHi.busy := by
    intro p fd f hp ho
    have := (consoleInitFds_spec (FileProcs.held_init : Held (Files.init : Files Unit) 0)
      (show SHELL < NUM_IDS by decide) (fun _ => rfl) (show 0 < NUM_IDS by decide) (by decide)).other p fd hp
    cases this.symm.trans ho
  have := (pipeline_output rotateHi 300000 (World.boot 300000) .refl rfl hbusy σ (Session.reach_of_moves hσ) 512
    (by rw [hpids]; rfl) (by rw [hplace]; trivial)).1
  rw [this]
  decide

end MCertiKOS.Shell
