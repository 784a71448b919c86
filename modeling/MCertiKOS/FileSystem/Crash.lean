import MCertiKOS.FileSystem.Log
import Mathlib.Logic.Relation

/-!
# Crash atomicity of the log

A crash leaves one of the disks that the machine has had, between two sector
writes. Recovery then starts on that disk with an empty cache, and may crash
itself, any number of times.

The argument has two halves. Recovery leaves what the header on disk makes of
the disk, and so does every disk it passes through: `replay` is the same for all
of them (`recover_spec`). A transaction passes only through disks whose `replay`
is the disk before the transaction or that disk with all the logged sectors
replaced (`transaction_spec`): the header is empty until `write_head` commits.
-/

namespace MCertiKOS.FileSystem

open Library Relation Store
open Function (update update_eq_self_iff update_of_ne update_self)

/-- All disks a crash can leave satisfy `P`. -/
def Safe (P : Disk → Prop) (s : Store) : Prop := ∀ d ∈ s.disk :: s.history, P d

/-- What the functions of the log keep: a well-formed cache, crash disks that satisfy `P`, what was logged and, if
`calm`, no buffer in use. -/
structure Kept (P : Disk → Prop) (calm : Prop) (L : List (ℕ × Block)) (s : Store) : Prop where
  inv : CacheInv s
  safe : Safe P s
  logged : s.logged = L
  calm : calm → Calm s ∅

/-- What holds where one of them stops, which it does not if `calm`. -/
structure Stopped (P : Disk → Prop) (calm : Prop) (L : List (ℕ × Block)) (s : Store) : Prop where
  not_calm : ¬ calm
  safe : Safe P s
  logged : s.logged = L

section

variable {P : Disk → Prop} {calm : Prop} {L : List (ℕ × Block)} {s t : Store}

theorem Safe.congr (h : Safe P s) (hd : t.disk = s.disk) (hh : t.history = s.history) : Safe P t := by
  unfold Safe
  rw [hd, hh]
  exact h

theorem Safe.write (h : Safe P s) {d : Disk} (hP : P d) (hd : t.disk = d) (hh : t.history = s.disk :: s.history) :
    Safe P t := by
  unfold Safe
  rw [hd, hh]
  rintro e (_ | ⟨_, he⟩)
  · exact hP
  · exact h e he

section

variable (h : Kept P calm L s)
include h

theorem Kept.read (x : ℕ) :
    wp (bufcacheRead x) (fun b t => Reads s t x b ∧ Safe P t ∧ (calm → (s.buf b).dirty = false ∧ Calm t {b}))
      (fun _ => Stopped P calm L) s := by
  refine wp_mono (bufcacheRead_spec h.inv x fun hc => ⟨h.calm hc, by simp, by simp⟩) ?_ ?_
  · rintro b t ⟨hr, hc⟩
    exact ⟨hr, h.safe.congr hr.disk hr.history, fun c => ⟨((h.calm c).free b (by simp)).2, by simpa using (hc c).2⟩⟩
  · rintro _ t ⟨hc, rfl⟩
    exact ⟨hc, h.safe, h.logged⟩

omit h in
theorem Kept.release (calm : Prop) {b : Fin NBUF} (hinv : CacheInv s) (hsafe : Safe P s) (hlog : s.logged = L)
    (hb : (s.buf b).busy = true) (hc : calm → Calm s {b} ∧ (s.buf b).dirty = false) :
    wp (bufcacheRelease b) (fun _ t => Kept P calm L t ∧ t.disk = s.disk ∧ t.log = s.log) (fun _ _ => False) s := by
  refine wp_mono (bufcacheRelease_spec hinv hb) (fun _ t hr => ⟨⟨hr.inv, hsafe.congr hr.disk hr.history,
    hr.logged.trans hlog, fun c => ?_⟩, hr.disk, hr.log⟩) (fun _ _ he => he)
  simpa using (hc c).1.release hr (hc c).2

theorem writeHead_spec (hpos : 0 < s.log.size)
    (hP : P (update s.disk s.log.start (putHead s.log.n s.log.sector (s.disk s.log.start) s.log.n))) :
    wp writeHead (fun _ t => Kept P calm L t ∧ t.log = s.log ∧
      t.disk = update s.disk s.log.start (putHead s.log.n s.log.sector (s.disk s.log.start) s.log.n))
      (fun _ => Stopped P calm L) s := by
  have hreg : s.log.Region s.log.start := by
    unfold Log.Region
    omega
  unfold writeHead
  rw [wp_bind, wp_get, wp_bind]
  refine wp_mono (h.read s.log.start) ?_ (fun _ _ he => he)
  rintro b t ⟨hr, hsafe, hcalm⟩
  rw [wp_bind, wp_get, wp_bind]
  have hdata : (t.buf b).data = s.disk s.log.start := by
    rw [hr.inv.coherent b s.log.start (by rw [hr.log]; exact hreg) hr.sector hr.valid, hr.disk]
  refine wp_mono (setData_write_spec hr.inv hr.busy hr.sector _) ?_ (fun _ _ => False.elim)
  intro _ u hw
  have hdisk : u.disk = update s.disk s.log.start (putHead s.log.n s.log.sector (s.disk s.log.start) s.log.n) := by
    rw [hw.disk, hdata, hr.disk, hr.log]
  have hsafe' : Safe P u := hsafe.write hP hdisk hw.history
  refine wp_mono (Kept.release calm hw.inv hsafe' (hw.logged.trans (hr.logged.trans h.logged))
    (by rw [hw.buf]; exact hr.busy) fun c => ⟨?_, by rw [hw.buf]⟩) ?_ (fun _ _ => False.elim)
  · have := (hcalm c).2
    refine ⟨fun b' hb' => ?_, fun b' hb' => ?_⟩
    · rw [Finset.mem_singleton] at hb'
      rw [hb', hw.buf]
      exact hr.busy
    · rw [hw.other b' (by simpa using hb')]
      exact this.free b' hb'
  · rintro _ v ⟨hk, hd, hl⟩
    exact ⟨hk, by rw [hl, hw.log, hr.log], hd.trans hdisk⟩

theorem readHead_spec (hpos : 0 < s.log.size) :
    wp readHead (fun _ t => Kept P calm L t ∧ t.disk = s.disk ∧ t.log = { s.log with
        n := headN (s.disk s.log.start)
        sector := fun i => if i < headN (s.disk s.log.start) then headSector (s.disk s.log.start) i else s.log.sector i })
      (fun _ => Stopped P calm L) s := by
  have hreg : s.log.Region s.log.start := by
    unfold Log.Region
    omega
  unfold readHead
  rw [wp_bind, wp_get, wp_bind]
  refine wp_mono (h.read s.log.start) ?_ (fun _ _ he => he)
  rintro b t ⟨hr, hsafe, hcalm⟩
  have hdata : (t.buf b).data = s.disk s.log.start := by
    rw [hr.inv.coherent b s.log.start (by rw [hr.log]; exact hreg) hr.sector hr.valid, hr.disk]
  rw [wp_bind, wp_modify]
  refine wp_mono (Kept.release calm ⟨hr.inv.all, hr.inv.uniq, hr.inv.dirty_valid, hr.inv.coherent⟩ hsafe
    (hr.logged.trans h.logged) hr.busy
    fun c => ⟨⟨(hcalm c).2.busy, (hcalm c).2.free⟩, hr.dirty (hcalm c).1⟩) ?_ (fun _ _ => False.elim)
  rintro _ u ⟨hk, hd, hl⟩
  refine ⟨hk, hd.trans hr.disk, ?_⟩
  rw [hl, hdata, hr.log]

theorem installOne_spec (hlog : LogOk s.log) {k : ℕ} (hk : k < s.log.n)
    (hP : P (update s.disk (s.log.sector k) (s.disk (s.log.start + k + 1)))) :
    wp (installOne k) (fun _ t => Kept P calm L t ∧ t.log = s.log ∧
      t.disk = update s.disk (s.log.sector k) (s.disk (s.log.start + k + 1)))
      (fun _ => Stopped P calm L) s := by
  have hreg := hlog.region_entry hk
  unfold installOne
  rw [wp_bind, wp_get, wp_bind]
  refine wp_mono (h.read (s.log.start + k + 1)) ?_ (fun _ _ he => he)
  rintro lbuf t ⟨hr, hsafe, hcalm⟩
  have hdata : (t.buf lbuf).data = s.disk (s.log.start + k + 1) := by
    rw [hr.inv.coherent lbuf _ (by rw [hr.log]; exact hreg) hr.sector hr.valid, hr.disk]
  rw [wp_bind]
  refine wp_mono (bufcacheRead_spec hr.inv (s.log.sector k) (B := {lbuf}) fun c : calm => ⟨(hcalm c).2, ?_, ?_⟩) ?_ ?_
  · simp
  · -- the home is not in the log
    intro b hb e
    rw [Finset.mem_singleton] at hb
    rw [hb, hr.sector, Option.some.injEq] at e
    exact hlog.home k hk (e ▸ hreg)
  · rintro dbuf u ⟨hr', hcalm'⟩
    have hne : dbuf ≠ lbuf := by
      rintro rfl
      have := hr'.free
      rw [hr.busy] at this
      cases this
    rw [wp_bind, wp_get, wp_bind]
    refine wp_mono (setData_write_spec hr'.inv hr'.busy hr'.sector _) ?_ (fun _ _ => False.elim)
    intro _ v hw
    have hdisk : v.disk = update s.disk (s.log.sector k) (s.disk (s.log.start + k + 1)) := by
      rw [hw.disk, hr'.other lbuf hne.symm, hdata, hr'.disk, hr.disk]
    have hsafe' : Safe P v := (hsafe.congr hr'.disk hr'.history).write hP hdisk hw.history
    have hlbuf : v.buf lbuf = t.buf lbuf := by rw [hw.other lbuf hne.symm, hr'.other lbuf hne.symm]
    rw [wp_bind]
    refine wp_mono (bufcacheRelease_spec hw.inv (by rw [hlbuf]; exact hr.busy)) ?_ (fun _ _ => False.elim)
    intro _ w hrel
    have hdbuf : w.buf dbuf = v.buf dbuf := hrel.other dbuf hne
    refine wp_mono (Kept.release calm hrel.inv (hsafe'.congr hrel.disk hrel.history)
      (hrel.logged.trans (hw.logged.trans (hr'.logged.trans (hr.logged.trans h.logged))))
      (by rw [hdbuf, hw.buf]; exact hr'.busy) fun c => ⟨?_, by rw [hdbuf, hw.buf]⟩) ?_ (fun _ _ => False.elim)
    · -- the buffers in use were the two
      have hcv : Calm v {dbuf, lbuf} := by
        have := (hcalm' c).2
        refine ⟨fun b hb => ?_, fun b hb => ?_⟩
        · by_cases e : b = dbuf
          · rw [e, hw.buf]
            exact hr'.busy
          · rw [hw.other b e]
            exact this.busy b hb
        · have e : b ≠ dbuf := fun e => hb (by simp [e])
          rw [hw.other b e]
          exact this.free b hb
      have hd : (v.buf lbuf).dirty = false := by
        rw [hlbuf]
        exact hr.dirty (hcalm c).1
      have := hcv.release hrel hd
      rwa [show ({dbuf, lbuf} : Finset (Fin NBUF)).erase lbuf = {dbuf} by ext b; simp; grind] at this
    · rintro _ z ⟨hk', hd, hl⟩
      exact ⟨hk', by rw [hl, hrel.log, hw.log, hr'.log, hr.log], hd.trans (hrel.disk.trans hdisk)⟩
  · rintro _ u ⟨hc, rfl⟩
    exact ⟨hc, hsafe, hr.logged.trans h.logged⟩

theorem installTrans_spec (hlog : LogOk s.log)
    (hP : ∀ k ≤ s.log.n, P (install s.log.sector s.log.start s.disk k)) :
    wp installTrans (fun _ t => Kept P calm L t ∧ t.log = s.log ∧ t.disk = install s.log.sector s.log.start s.disk s.log.n)
      (fun _ => Stopped P calm L) s := by
  unfold installTrans
  rw [wp_bind, wp_get]
  refine wp_loop (fun k t => Kept P calm L t ∧ t.log = s.log ∧ t.disk = install s.log.sector s.log.start s.disk k)
    ⟨h, rfl, rfl⟩ ?_
  rintro k hk t ⟨hkept, hl, hd⟩
  -- the logged sector has not changed
  have hstep : update t.disk (t.log.sector k) (t.disk (t.log.start + k + 1)) =
      install s.log.sector s.log.start s.disk (k + 1) := by
    rw [install, hl, hd, hlog.install_region (Nat.le_of_lt hk) (hlog.region_entry hk)]
  refine wp_mono (installOne_spec hkept (hl ▸ hlog) (by rw [hl]; exact hk) (hstep ▸ hP (k + 1) hk)) ?_ (fun _ _ he => he)
  rintro _ u ⟨hk', hl', hd'⟩
  exact ⟨hk', hl'.trans hl, hd'.trans hstep⟩

end

end

/-! ### Recovery -/

def headLog (start size : ℕ) (d : Disk) : Log := ⟨start, size, false, headN (d start), headSector (d start)⟩

def DiskOk (start size : ℕ) (d : Disk) : Prop := LogOk (headLog start size d)

def EqOut (start size : ℕ) (d d' : Disk) : Prop := ∀ x, ¬ (start ≤ x ∧ x < start + size) → d x = d' x

section

variable {start size : ℕ} {d d' d'' : Disk}

theorem EqOut.refl (d : Disk) : EqOut start size d d := fun _ _ => rfl

theorem EqOut.trans (h : EqOut start size d d') (h' : EqOut start size d' d'') : EqOut start size d d'' :=
  fun x hx => (h x hx).trans (h' x hx)

theorem eqOut_update {x : ℕ} (hx : start ≤ x ∧ x < start + size) (v : Block) :
    EqOut start size (update d x v) d := fun y hy => by
  have : y ≠ x := by
    rintro rfl
    exact hy hx
  rw [update_of_ne this]

theorem diskOk_of_headN_eq_zero (hpos : 0 < size) (h : headN (d start) = 0) : DiskOk start size d where
  pos := hpos
  le := by simp [headLog, h]
  lt := by simpa [headLog, h] using hpos
  home := by simp [headLog, h]
  small := by simp [headLog, h]

theorem replay_of_headN_eq_zero (h : headN (d start) = 0) : replay start d = d := by
  rw [replay, h]
  rfl

variable {k : ℕ} {P : Disk → Prop} {s : Store}

theorem DiskOk.install (h : DiskOk start size d) (hk : k ≤ headN (d start)) :
    DiskOk start size (install (headSector (d start)) start d k) ∧
      replay start (FileSystem.install (headSector (d start)) start d k) = replay start d := by
  set e := FileSystem.install (headSector (d start)) start d k with he
  have hregion : ∀ x, start ≤ x ∧ x < start + size → e x = d x := fun x hx =>
    LogOk.install_region h hk hx
  have hstart : e start = d start := hregion start (LogOk.region_start h)
  refine ⟨?_, ?_⟩
  · unfold DiskOk headLog
    rw [hstart]
    exact h
  · funext x
    rw [replay, hstart, replay]
    refine install_congr (fun _ _ => rfl) (fun i hi _ => hregion _ (LogOk.region_entry h hi)) ?_
    by_cases hx : ∃ i < headN (d start), headSector (d start) i = x
    · exact .inl hx
    · refine .inr (install_of_ne fun i hi e => hx ⟨i, lt_of_lt_of_le hi hk, e⟩)

/-- Recovery from `e` leads where recovery from `d` leads. -/
def Replays (start size : ℕ) (d e : Disk) : Prop := DiskOk start size e ∧ EqOut start size (replay start e) (replay start d)

theorem kept_boot (h : P d) : Kept P True [] (boot d start size) where
  inv :=
    { all := fun b => by simp [boot]
      uniq := by simp [boot]
      dirty_valid := by simp [boot]
      coherent := by simp [boot] }
  safe := by simpa [Safe, boot] using h
  logged := rfl
  calm _ := ⟨by simp, by simp [boot]⟩

/-- The log in memory is the one that the header on disk describes. -/
structure Mirrors (start size : ℕ) (s : Store) : Prop where
  start_eq : s.log.start = start
  size_eq : s.log.size = size
  n_eq : s.log.n = headN (s.disk start)
  sector_eq : ∀ i < headN (s.disk start), s.log.sector i = headSector (s.disk start) i

theorem Mirrors.install (h : Mirrors start size s) (hk : k ≤ headN (s.disk start)) :
    install s.log.sector s.log.start s.disk k = FileSystem.install (headSector (s.disk start)) start s.disk k := by
  funext x
  rw [h.start_eq]
  exact install_congr (fun i hi => h.sector_eq i (lt_of_lt_of_le hi hk)) (fun _ _ _ => rfl) (.inr rfl)

theorem Mirrors.logOk (h : Mirrors start size s) (hd : DiskOk start size s.disk) : LogOk s.log := by
  refine ⟨h.size_eq ▸ hd.pos, h.n_eq ▸ hd.le, ?_, fun i hi => ?_, fun i hi => ?_⟩
  · rw [h.n_eq, h.size_eq]
    exact hd.lt
  · rw [h.n_eq] at hi
    rw [h.sector_eq i hi, Log.Region, h.start_eq, h.size_eq]
    exact hd.home i hi
  · rw [h.n_eq] at hi
    rw [h.sector_eq i hi]
    exact hd.small i hi

/-- The common end of `recover_from_log` and `commit_trans` installs the log and clears the header. Recovery from any
disk on the way leads where it leads. -/
theorem install_clear_spec {calm : Prop} {L : List (ℕ × Block)} (h : Kept P calm L s)
    (hd : DiskOk start size s.disk) (hm : Mirrors start size s) (hP : ∀ e, Replays start size s.disk e → P e) :
    wp (do installTrans; clearN; writeHead) (fun _ t => Kept P calm L t ∧
        EqOut start size t.disk (replay start s.disk) ∧ headN (t.disk start) = 0 ∧ t.log = { s.log with n := 0 })
      (fun _ => Stopped P calm L) s := by
  have hpos : 0 < size := hd.pos
  rw [wp_bind]
  refine wp_mono (installTrans_spec h (hm.logOk hd) fun k hk => ?_) ?_ (fun _ _ he => he)
  · rw [hm.n_eq] at hk
    rw [hm.install hk]
    exact hP _ ⟨(hd.install hk).1, (hd.install hk).2 ▸ EqOut.refl _⟩
  rintro _ u ⟨hk, hlog, hdisk⟩
  have hdisk : u.disk = replay start s.disk := by rw [hdisk, hm.n_eq, hm.install le_rfl, replay]
  have hstart : u.log.start = start := by rw [hlog, hm.start_eq]
  rw [wp_bind, clearN, wp_modify]
  set u' : Store := { u with log := { u.log with n := 0 } } with hu'
  have hk' : Kept P calm L u' :=
    ⟨⟨hk.inv.all, hk.inv.uniq, hk.inv.dirty_valid, hk.inv.coherent⟩, hk.safe, hk.logged,
      fun c => ⟨(hk.calm c).busy, (hk.calm c).free⟩⟩
  have hzero : ∀ v : Block, headN (update u.disk start (putHead 0 u.log.sector v 0) start) = 0 := fun v => by
    rw [update_self, headN_putHead, Nat.zero_mod]
  have hout : ∀ v : Block,
      EqOut start size (update u.disk start (putHead 0 u.log.sector v 0)) (replay start s.disk) :=
    fun v => (eqOut_update (by omega) _).trans (hdisk ▸ EqOut.refl _)
  refine wp_mono (writeHead_spec hk' ?_ ?_) ?_ (fun _ _ he => he)
  · simpa only [hu', hlog, hm.size_eq] using hpos
  · simp only [hu', hstart]
    exact hP _ ⟨diskOk_of_headN_eq_zero hpos (hzero _), by rw [replay_of_headN_eq_zero (hzero _)]; exact hout _⟩
  · rintro _ v ⟨hkv, hlv, hdv⟩
    simp only [hu', hstart] at hdv
    exact ⟨hkv, hdv ▸ hout _, hdv ▸ hzero _, by rw [hlv, hu', hlog]⟩

/-- Recovery completes. It leaves what the header makes of the disk, with an empty header; and so would a recovery from
any disk it passes through. -/
theorem recover_spec (h : DiskOk start size d) :
    wp recoverFromLog (fun _ t => Kept (Replays start size d) True [] t ∧ EqOut start size t.disk (replay start d) ∧
        headN (t.disk start) = 0 ∧ t.log.start = start ∧ t.log.size = size ∧ t.log.n = 0 ∧ t.log.busy = false)
      (fun _ _ => False) (boot d start size) := by
  have hstop : ∀ {P : Disk → Prop} (_ : Stop) (t : Store), Stopped P True [] t → False :=
    fun _ _ hs => hs.not_calm trivial
  unfold recoverFromLog
  rw [wp_bind]
  refine wp_mono (readHead_spec (kept_boot (P := Replays start size d) ⟨h, EqOut.refl _⟩) h.pos) ?_ hstop
  rintro _ t ⟨hkept, hdisk, hlog⟩
  obtain rfl : t.disk = d := hdisk
  have hm : Mirrors start size t :=
    ⟨by rw [hlog]; rfl, by rw [hlog]; rfl, by rw [hlog]; rfl, fun i hi => by rw [hlog]; exact if_pos hi⟩
  refine wp_mono (install_clear_spec hkept h hm fun _ he => he) ?_ hstop
  rintro _ u ⟨hk, hout, hhead, hlog'⟩
  refine ⟨hk, hout, hhead, ?_⟩
  rw [hlog', hlog]
  exact ⟨rfl, rfl, rfl, rfl⟩

end

/-! ### Transactions -/

/-- What a process does with the cache. A buffer is used from the `bufcache_read` that returned it to its release. -/
inductive BufOp where
  /-- `bufcache_read`. -/
  | read (x : UInt32)
  /-- Overwrite `b->data`. -/
  | modify (b : Fin NBUF) (data : Block)
  | logWrite (b : Fin NBUF)
  /-- `bufcache_release`. -/
  | release (b : Fin NBUF)

/-- One operation of a process that has the buffers `held`; a buffer it has not got it does not touch. -/
def runOp (held : List (Fin NBUF)) : BufOp → StoreM (List (Fin NBUF))
  | .read x => do
    let b ← bufcacheRead x.toNat
    return b :: held
  | .modify b data => if b ∈ held then do
      setData b data
      return held
    else return held
  | .logWrite b => if b ∈ held then do
      FileSystem.logWrite b
      return held
    else return held
  | .release b => if b ∈ held then do
      bufcacheRelease b
      return held.filter fun b' => b' ≠ b
    else return held

def runOps (held : List (Fin NBUF)) : List BufOp → StoreM (List (Fin NBUF))
  | [] => return held
  | op :: ops => do
    let held ← runOp held op
    runOps held ops

/-- `begin_trans(); …; commit_trans()`. -/
def transaction (ops : List BufOp) : StoreM PUnit := do
  beginTrans
  let _ ← runOps [] ops
  commitTrans

def applyWrites (d : Disk) (ws : List (ℕ × Block)) : Disk := ws.foldl (fun d w => update d w.1 w.2) d

/-- Recovery from `d` leads back to the disk `d₀`. -/
def Undone (start size : ℕ) (d₀ d : Disk) : Prop := DiskOk start size d ∧ EqOut start size (replay start d) d₀

def Holds (s : Store) (held : List (Fin NBUF)) : Prop := ∀ b ∈ held, (s.buf b).busy = true ∧ (s.buf b).valid = true ∧
  ∃ x, (s.buf b).sector = some x ∧ ¬ s.log.Region x ∧ x < 2 ^ 32

/-- The invariant while a transaction started on the disk `d₀` logs (`c` is true), and between transactions. -/
structure Logging (P : Disk → Prop) (start size : ℕ) (d₀ : Disk) (c : Bool) (s : Store) : Prop where
  inv : CacheInv s
  safe : Safe P s
  start_eq : s.log.start = start
  size_eq : s.log.size = size
  log : LogOk s.log
  head : headN (s.disk start) = 0
  out : EqOut start size s.disk d₀
  inj : ∀ i < s.log.n, ∀ j < s.log.n, s.log.sector i = s.log.sector j → i = j
  new : c = true → EqOut start size (install s.log.sector start s.disk s.log.n) (applyWrites d₀ s.logged)
  idle : c = false → s.log.n = 0
  busy : s.log.busy = c

section

variable {P : Disk → Prop} {start size : ℕ} {d₀ : Disk} {s t : Store} {held : List (Fin NBUF)} {b : Fin NBUF}
  {c : Bool}

theorem applyWrites_append (d : Disk) (ws : List (ℕ × Block)) (x : ℕ) (v : Block) :
    applyWrites d (ws ++ [(x, v)]) = update (applyWrites d ws) x v := by
  simp [applyWrites, List.foldl_append]

variable {d : Disk} {l : Log} {x : ℕ} {v : Block} {ops : List BufOp}

theorem undone_of_head (hpos : 0 < size) (hh : headN (d start) = 0) (ho : EqOut start size d d₀) :
    Undone start size d₀ d :=
  ⟨diskOk_of_headN_eq_zero hpos hh, by rw [replay_of_headN_eq_zero hh]; exact ho⟩

theorem install_logWrite
    (hinj : ∀ i < l.n, ∀ j < l.n, l.sector i = l.sector j → i = j) (hroom : l.n < l.size - 1) {y : ℕ}
    (hy : ¬ l.Region y) :
    install (update l.sector (logIndex l x) x) l.start (update d (l.start + logIndex l x + 1) v)
        (if logIndex l x = l.n then l.n + 1 else l.n) y =
      update (install l.sector l.start d l.n) x v y := by
  have hle := logIndex_le l x
  set i := logIndex l x with hi
  have hyi : y ≠ l.start + i + 1 := by
    rintro rfl
    exact hy ⟨by omega, by omega⟩
  by_cases hin : i = l.n
  · -- a new entry at the end
    rw [if_pos hin, install, hin, update_self, update_self]
    by_cases hyx : y = x
    · rw [hyx, update_self, update_self]
    · rw [update_of_ne hyx, update_of_ne hyx]
      refine install_congr (fun j hj => update_of_ne (by omega) _ _) (fun j hj _ => ?_) (.inr ?_)
      · exact update_of_ne (by omega) _ _
      · exact update_of_ne (hin ▸ hyi) _ _
  · -- absorption
    have hlt : i < l.n := lt_of_le_of_ne hle hin
    have hsec : l.sector i = x := sector_logIndex hlt
    rw [if_neg hin, update_eq_self_iff.mpr hsec.symm]
    by_cases hyx : y = x
    · rw [hyx, update_self, ← hsec, install_of_eq hlt fun j hj e => hinj j hj i hlt e, update_self]
    · rw [update_of_ne hyx]
      refine install_congr (fun _ _ => rfl) (fun j hj hjy => ?_) (.inr ?_)
      · have : j ≠ i := by
          rintro rfl
          exact hyx (hjy.symm.trans hsec)
        exact update_of_ne (by omega) _ _
      · exact update_of_ne hyi _ _

theorem LogOk.logWrite (h : LogOk l) (hx : ¬ l.Region x) (hx' : x < 2 ^ 32) (hsize : l.n < LOGSIZE)
    (hroom : l.n < l.size - 1) :
    LogOk { l with
      sector := update l.sector (logIndex l x) x
      n := if logIndex l x = l.n then l.n + 1 else l.n } := by
  have hle := logIndex_le l x
  have hsec : ∀ i, i < (if logIndex l x = l.n then l.n + 1 else l.n) →
      update l.sector (logIndex l x) x i = x ∨ i < l.n ∧
        update l.sector (logIndex l x) x i = l.sector i := by
    intro i hi
    by_cases e : i = logIndex l x
    · exact .inl (by rw [e, update_self])
    · refine .inr ⟨?_, update_of_ne e _ _⟩
      split_ifs at hi <;> omega
  refine ⟨h.pos, ?_, ?_, fun i hi => ?_, fun i hi => ?_⟩
  · simp only
    split_ifs <;> omega
  · simp only
    split_ifs <;> omega
  · rcases hsec i hi with e | ⟨hin, e⟩
    · simpa [e, Log.Region] using hx
    · simpa [e, Log.Region] using h.home i hin
  · rcases hsec i hi with e | ⟨hin, e⟩
    · simpa [e] using hx'
    · simpa [e] using h.small i hin

theorem inj_logWrite (hinj : ∀ i < l.n, ∀ j < l.n, l.sector i = l.sector j → i = j) (x : ℕ) :
    ∀ i < (if logIndex l x = l.n then l.n + 1 else l.n), ∀ j < (if logIndex l x = l.n then l.n + 1 else l.n),
      update l.sector (logIndex l x) x i = update l.sector (logIndex l x) x j → i = j := by
  by_cases hin : logIndex l x = l.n
  · have hne : ∀ j < l.n, l.sector j ≠ x := fun j hj => sector_ne_of_logIndex hj hin
    rw [if_pos hin, hin]
    intro i hi j hj e
    by_cases hi' : i = l.n <;> by_cases hj' : j = l.n
    · rw [hi', hj']
    · rw [hi', update_self, update_of_ne hj'] at e
      exact absurd e.symm (hne j (by omega))
    · rw [hj', update_self, update_of_ne hi'] at e
      exact absurd e (hne i (by omega))
    · rw [update_of_ne hi', update_of_ne hj'] at e
      exact hinj i (by omega) j (by omega) e
  · have hsec : l.sector (logIndex l x) = x := sector_logIndex (lt_of_le_of_ne (logIndex_le l x) hin)
    rw [if_neg hin, update_eq_self_iff.mpr hsec.symm]
    exact hinj

section

variable (h : Logging P start size d₀ c s)
include h

theorem Logging.append (hP : ∀ d, Undone start size d₀ d → P d)
    (hx : ¬ s.log.Region x) (hx' : x < 2 ^ 32) (hsize : s.log.n < LOGSIZE) (hroom : s.log.n < s.log.size - 1)
    (hinv : CacheInv t)
    (hlog : t.log = { s.log with
      sector := update s.log.sector (logIndex s.log x) x
      n := if logIndex s.log x = s.log.n then s.log.n + 1 else s.log.n })
    (hc : c = true) (hdisk : t.disk = update s.disk (s.log.start + logIndex s.log x + 1) v)
    (hhist : t.history = s.disk :: s.history) (hlogged : t.logged = s.logged ++ [(x, v)]) :
    Logging P start size d₀ c t := by
  have hle := logIndex_le s.log x
  obtain rfl := h.start_eq
  obtain rfl := h.size_eq
  have hreg : s.log.start ≤ s.log.start + logIndex s.log x + 1 ∧
      s.log.start + logIndex s.log x + 1 < s.log.start + s.log.size := by omega
  have hhead : headN (t.disk s.log.start) = 0 := by
    rw [hdisk, update_of_ne (by omega)]
    exact h.head
  have hout : EqOut s.log.start s.log.size t.disk d₀ := hdisk ▸ (eqOut_update hreg v).trans h.out
  refine ⟨hinv, h.safe.write (hP _ (undone_of_head h.log.pos hhead hout)) rfl hhist, by rw [hlog], by rw [hlog],
    hlog ▸ h.log.logWrite hx hx' hsize hroom, hhead, hout, hlog ▸ inj_logWrite h.inj x, fun _ y hy => ?_, ?_, ?_⟩
  · rw [hlogged, applyWrites_append, hlog, hdisk]
    refine (install_logWrite h.inj hroom hy).trans ?_
    by_cases hyx : y = x
    · rw [hyx, update_self, update_self]
    · rw [update_of_ne hyx, update_of_ne hyx]
      exact h.new hc y hy
  · rw [hc]
    exact nofun
  · rw [hlog]
    exact h.busy

omit h in
theorem Holds.congr (h : Holds s held) (hbuf : ∀ b ∈ held, (t.buf b).busy = (s.buf b).busy ∧
    (t.buf b).valid = (s.buf b).valid ∧ (t.buf b).sector = (s.buf b).sector) (hstart : t.log.start = s.log.start)
    (hsize : t.log.size = s.log.size) : Holds t held := by
  intro b hb
  obtain ⟨hbusy, hvalid, hsec⟩ := hbuf b hb
  rw [hbusy, hvalid, hsec]
  unfold Log.Region
  rw [hstart, hsize]
  exact h b hb

omit h in
theorem Logging.logWrite (h : Logging P start size d₀ c s) (hP : ∀ d, Undone start size d₀ d → P d) (hh : Holds s held)
    (hb : b ∈ held) :
    wp (logWrite b) (fun _ t => Logging P start size d₀ c t ∧ Holds t held) (fun _ t => Safe P t) s := by
  obtain ⟨hbusy, hvalid, x, hx, hreg, hlt⟩ := hh b hb
  unfold FileSystem.logWrite
  rw [wp_bind, wp_get]
  split_ifs with hbig hout
  · exact h.safe
  · exact h.safe
  rw [not_or, Nat.not_le, Nat.not_le] at hbig
  simp only [hx]
  rw [wp_bind, wp_set, wp_bind]
  have hinv : CacheInv { s with log := { s.log with sector := update s.log.sector (logIndex s.log x) x } } :=
    ⟨h.inv.all, h.inv.uniq, h.inv.dirty_valid, h.inv.coherent⟩
  refine wp_mono (bufcacheRead_spec (B := ∅) hinv _ fun c : False => c.elim) ?_ ?_
  · rintro lbuf t ⟨hr, -⟩
    have hne : ∀ b' ∈ held, b' ≠ lbuf := by
      rintro b' hb' rfl
      exact Bool.false_ne_true (hr.free.symm.trans (hh b' hb').1)
    rw [wp_bind, wp_get, wp_bind]
    refine wp_mono (setData_write_spec hr.inv hr.busy hr.sector _) ?_ (fun _ _ => False.elim)
    intro _ u hw
    rw [wp_bind]
    refine wp_mono (bufcacheRelease_spec hw.inv (by rw [hw.buf]; exact hr.busy)) ?_ (fun _ _ => False.elim)
    intro _ v hv
    have hbuf : ∀ b' ∈ held, v.buf b' = s.buf b' := fun b' hb' => by
      rw [hv.other b' (hne b' hb'), hw.other b' (hne b' hb'), hr.other b' (hne b' hb')]
    have hbt : t.buf b = s.buf b := hr.other b (hne b hb)
    have hlog : v.log = { s.log with sector := update s.log.sector (logIndex s.log x) x } := by
      rw [hv.log, hw.log, hr.log]
    rw [wp_bind, wp_modify, wp_modify]
    have hinv' : CacheInv (v.setBuf b { v.buf b with dirty := true }) := by
      refine hv.inv.setBuf (fun b' y hne hy hb' => hne (hv.inv.uniq b' b y hb' hy)) (fun _ => ?_) (hv.inv.coherent b)
      rw [hbuf b hb]
      exact hvalid
    refine ⟨h.append (v := (s.buf b).data) hP hreg hlt hbig.1 hbig.2 ⟨hinv'.all, hinv'.uniq, hinv'.dirty_valid, hinv'.coherent⟩ ?_
      (h.busy.symm.trans (by simpa using hout)) ?_ ?_ ?_, hh.congr (fun b' hb' => ?_) ?_ ?_⟩
    · simp [setBuf, hlog]
    · exact hv.disk.trans (hw.disk.trans (by rw [hr.disk, hbt]))
    · exact hv.history.trans (hw.history.trans (by rw [hr.disk, hr.history]))
    · simp only [hv.logged, hw.logged, hr.logged, hbuf b hb]
    · by_cases e : b' = b
      · simp [setBuf, e, hbuf b hb]
      · simp [setBuf, e, hbuf b' hb']
    · simp [setBuf, hlog]
    · simp [setBuf, hlog]
  · rintro _ t ⟨-, rfl⟩
    exact h.safe

theorem Logging.congr (hinv : CacheInv t) (hdisk : t.disk = s.disk)
    (hhist : t.history = s.history) (hlog : t.log = s.log) (hlogged : t.logged = s.logged) :
    Logging P start size d₀ c t := by
  refine ⟨hinv, h.safe.congr hdisk hhist, hlog ▸ h.start_eq, hlog ▸ h.size_eq, hlog ▸ h.log, hdisk ▸ h.head,
    hdisk ▸ h.out, hlog ▸ h.inj, ?_, hlog ▸ h.idle, hlog ▸ h.busy⟩
  rw [hlog, hdisk, hlogged]
  exact h.new

theorem runOp_spec (hP : ∀ d, Undone start size d₀ d → P d) (hh : Holds s held)
    {op : BufOp} (hop : ∀ x, op = .read x → ¬ (start ≤ x.toNat ∧ x.toNat < start + size)) :
    wp (runOp held op) (fun held t => Logging P start size d₀ c t ∧ Holds t held) (fun _ t => Safe P t) s := by
  cases op with
  | read x =>
    rw [runOp, wp_bind]
    refine wp_mono (bufcacheRead_spec (B := ∅) h.inv _ fun c : False => c.elim) ?_ ?_
    · rintro b t ⟨hr, -⟩
      refine ⟨h.congr hr.inv hr.disk hr.history hr.log hr.logged, fun b' hb' => ?_⟩
      rcases List.mem_cons.mp hb' with rfl | hmem
      · refine ⟨hr.busy, hr.valid, x.toNat, hr.sector, ?_, x.toNat_lt⟩
        rw [Log.Region, hr.log, h.start_eq, h.size_eq]
        exact hop x rfl
      · have hne : b' ≠ b := by
          rintro rfl
          exact Bool.false_ne_true (hr.free.symm.trans (hh b' hmem).1)
        rw [hr.other b' hne, hr.log]
        exact hh b' hmem
    · rintro _ t ⟨-, rfl⟩
      exact h.safe
  | modify b data =>
    rw [runOp]
    split_ifs with hb
    · obtain ⟨hbusy, hvalid, x, hx, hreg, -⟩ := hh b hb
      rw [wp_bind, setData, wp_modify, wp_pure]
      refine ⟨h.congr (h.inv.setBuf ?_ (h.inv.dirty_valid b) ?_) rfl rfl rfl rfl, hh.congr (fun b' hb' => ?_) rfl rfl⟩
      · exact fun b' y hne hy hb' => hne (h.inv.uniq b' b y hb' hy)
      · intro y hy hxy _
        obtain rfl : x = y := by simpa [hx] using hxy
        exact absurd hy hreg
      · by_cases e : b' = b <;> simp [e]
    · exact ⟨h, hh⟩
  | logWrite b =>
    rw [runOp]
    split_ifs with hb
    · rw [wp_bind]
      exact wp_mono (h.logWrite hP hh hb) (fun _ _ ht => ht) (fun _ _ he => he)
    · exact ⟨h, hh⟩
  | release b =>
    rw [runOp]
    split_ifs with hb
    · rw [wp_bind]
      refine wp_mono (bufcacheRelease_spec h.inv (hh b hb).1) (fun _ t hr => ?_) (fun _ _ => False.elim)
      refine ⟨h.congr hr.inv hr.disk hr.history hr.log hr.logged, fun b' hb' => ?_⟩
      obtain ⟨hmem, hne⟩ : b' ∈ held ∧ b' ≠ b := by simpa using hb'
      rw [hr.other b' hne, hr.log]
      exact hh b' hmem
    · exact ⟨h, hh⟩

theorem runOps_spec (hP : ∀ d, Undone start size d₀ d → P d) (hh : Holds s held)
    (hops : ∀ x, .read x ∈ ops → ¬ (start ≤ x.toNat ∧ x.toNat < start + size)) :
    wp (runOps held ops) (fun held t => Logging P start size d₀ c t ∧ Holds t held) (fun _ t => Safe P t) s := by
  induction ops generalizing held s with
  | nil => exact ⟨h, hh⟩
  | cons op ops ih =>
    rw [runOps, wp_bind]
    refine wp_mono (runOp_spec h hP hh fun x hx => hops x (by simp [hx])) ?_ (fun _ _ he => he)
    rintro held' t ⟨ht, hht⟩
    exact ih ht hht fun x hx => hops x (List.mem_cons_of_mem _ hx)

end

/-- The state between transactions. -/
structure Idle (start size : ℕ) (s : Store) : Prop where
  inv : CacheInv s
  start_eq : s.log.start = start
  size_eq : s.log.size = size
  pos : 0 < size
  busy : s.log.busy = false
  n : s.log.n = 0
  head : headN (s.disk start) = 0

theorem LogOk.of_empty (hpos : 0 < l.size) (hn : l.n = 0) : LogOk l where
  pos := hpos
  le := by simp [hn]
  lt := by rwa [hn]
  home := by simp [hn]
  small := by simp [hn]

theorem Idle.logging (h : Idle start size s) (hs : Safe P s) : Logging P start size s.disk false s := by
  refine ⟨h.inv, hs, h.start_eq, h.size_eq, .of_empty (h.size_eq ▸ h.pos) h.n, h.head, EqOut.refl _, ?_, nofun,
    fun _ => h.n, h.busy⟩
  simp [h.n]

theorem Idle.logging_begin (h : Idle start size s) :
    Logging (Undone start size s.disk) start size s.disk true
      { s with log := { s.log with busy := true }, history := [], logged := [] } := by
  refine ⟨⟨h.inv.all, h.inv.uniq, h.inv.dirty_valid, h.inv.coherent⟩, ?_, h.start_eq, h.size_eq,
    .of_empty (h.size_eq ▸ h.pos) h.n, h.head, EqOut.refl _, ?_, fun _ => ?_, nofun, rfl⟩
  · simpa [Safe] using undone_of_head h.pos h.head (EqOut.refl _)
  · simp [h.n]
  · simpa [h.n, install, applyWrites] using EqOut.refl _

theorem Logging.committed (h : Logging P start size d₀ true s)
    (hd : d = update s.disk start (putHead s.log.n s.log.sector (s.disk start) s.log.n)) :
    headN (d start) = s.log.n ∧ (∀ i < s.log.n, headSector (d start) i = s.log.sector i) ∧
      Undone start size (applyWrites d₀ s.logged) d := by
  obtain rfl := h.start_eq
  obtain rfl := h.size_eq
  have hle := h.log.le
  have hn : headN (d s.log.start) = s.log.n := by
    rw [hd, update_self, headN_putHead, Nat.mod_eq_of_lt]
    unfold LOGSIZE at hle
    omega
  have hsec : ∀ i < s.log.n, headSector (d s.log.start) i = s.log.sector i := fun i hi => by
    rw [hd, update_self, headSector_putHead _ _ _ hle hi, Nat.mod_eq_of_lt (h.log.small i hi)]
  have hlog : ∀ i < s.log.n, d (s.log.start + i + 1) = s.disk (s.log.start + i + 1) := fun i hi => by
    rw [hd, update_of_ne (by omega)]
  refine ⟨hn, hsec, ⟨h.log.pos, hn.trans_le hle, hn.trans_lt h.log.lt, fun i hi => ?_, fun i hi => ?_⟩, fun y hy => ?_⟩
  · have hi : i < s.log.n := hi.trans_eq hn
    simpa only [headLog, Log.Region, hsec i hi] using h.log.home i hi
  · have hi : i < s.log.n := hi.trans_eq hn
    simpa only [headLog, hsec i hi] using h.log.small i hi
  · rw [replay, hn, ← h.new rfl y hy]
    refine install_congr hsec (fun i hi _ => hlog i hi) (.inr ?_)
    rw [hd]
    exact eqOut_update (by have := h.log.pos; omega) _ y hy

theorem Logging.commitTrans (h : Logging P start size d₀ true s)
    (hP : ∀ d, Undone start size (applyWrites d₀ s.logged) d → P d) :
    wp commitTrans (fun _ t => Idle start size t ∧ Safe P t ∧ t.logged = s.logged ∧
        EqOut start size t.disk (applyWrites d₀ s.logged))
      (fun _ t => Safe P t ∧ t.logged = s.logged) s := by
  have hpos : 0 < size := h.size_eq ▸ h.log.pos
  unfold FileSystem.commitTrans
  rw [wp_bind, wp_get, wp_bind]
  split_ifs with hn
  · have hk : Kept P False s.logged s := ⟨h.inv, h.safe, rfl, False.elim⟩
    obtain ⟨hhead, hsec, hundone⟩ := h.committed rfl
    rw [wp_bind]
    refine wp_mono (writeHead_spec hk h.log.pos ?_) ?_ fun _ t ht => ⟨ht.safe, ht.logged⟩
    · rw [h.start_eq]
      exact hP _ hundone
    rintro _ t ⟨hkt, hlog, hdisk⟩
    rw [h.start_eq] at hdisk
    rw [← hdisk] at hhead hsec hundone
    have hm : Mirrors start size t := by
      refine ⟨?_, ?_, ?_, ?_⟩
      · rw [hlog, h.start_eq]
      · rw [hlog, h.size_eq]
      · rw [hlog, hhead]
      · intro i hi
        rw [hhead] at hi
        rw [hlog, hsec i hi]
    refine wp_mono (install_clear_spec hkt hundone.1 hm fun e he => hP e ⟨he.1, he.2.trans hundone.2⟩) ?_
      fun _ t ht => ⟨ht.safe, ht.logged⟩
    rintro _ u ⟨hku, hout, hhu, hlu⟩
    rw [wp_modify]
    refine ⟨⟨⟨hku.inv.all, hku.inv.uniq, hku.inv.dirty_valid, hku.inv.coherent⟩, ?_, ?_, hpos, rfl, ?_, hhu⟩, hku.safe,
      hku.logged, hout.trans hundone.2⟩
    · simp [hlu, hlog, h.start_eq]
    · simp [hlu, hlog, h.size_eq]
    · simp [hlu]
  · have hn : s.log.n = 0 := by omega
    rw [wp_pure, wp_modify]
    refine ⟨⟨⟨h.inv.all, h.inv.uniq, h.inv.dirty_valid, h.inv.coherent⟩, h.start_eq, h.size_eq, hpos, rfl, hn, h.head⟩,
      h.safe, rfl, ?_⟩
    have := h.new rfl
    rwa [hn] at this

theorem Logging.mono {P' : Disk → Prop} (h : Logging P start size d₀ c s) (hP : ∀ d, P d → P' d) :
    Logging P' start size d₀ c s :=
  { h with safe := fun d hd => hP d (h.safe d hd) }

/-- Recovery leads to the disk before a transaction or to that disk with all that was logged. -/
def Atomic (start size : ℕ) (d₀ : Disk) (ws : List (ℕ × Block)) (d : Disk) : Prop :=
  Undone start size d₀ d ∨ Undone start size (applyWrites d₀ ws) d

/-- A transaction passes only through disks from which recovery leads to the disk before it or to the one with all that
was logged. -/
theorem transaction_spec (h : Idle start size s)
    (hops : ∀ x, .read x ∈ ops → ¬ (start ≤ x.toNat ∧ x.toNat < start + size)) :
    wp (transaction ops)
      (fun _ t => Idle start size t ∧ EqOut start size t.disk (applyWrites s.disk t.logged) ∧
        Safe (Atomic start size s.disk t.logged) t)
      (fun _ t => Safe (Atomic start size s.disk t.logged) t) s := by
  unfold transaction
  rw [wp_bind]
  unfold beginTrans
  rw [wp_bind, wp_get, if_neg (by simp [h.busy]), wp_set, wp_bind]
  refine wp_mono (runOps_spec h.logging_begin (fun _ hd => hd) (by simp [Holds]) hops) ?_ ?_
  · rintro held t ⟨ht, -⟩
    have ht' : Logging (Atomic start size s.disk t.logged) start size s.disk true t := ht.mono fun _ => .inl
    refine wp_mono (ht'.commitTrans fun _ => .inr) ?_ ?_
    · rintro _ u ⟨hidle, hsafe, hlogged, hout⟩
      rw [hlogged]
      exact ⟨hidle, hout, hsafe⟩
    · rintro _ u ⟨hsafe, hlogged⟩
      rw [hlogged]
      exact hsafe
  · exact fun _ t ht d hd => .inl (ht d hd)

end

/-! ### Crashes -/

/-- The machine starts on the disk `d` and stops in `recover_from_log` with the disk `e`. -/
def CrashInRecovery (start size : ℕ) (d e : Disk) : Prop :=
  e ∈ (recoverFromLog.run (boot d start size)).2.disk :: (recoverFromLog.run (boot d start size)).2.history

/-- The states in which `begin_trans` finds the store: after recovery, after complete transactions and after the cache
has been used outside transactions. -/
inductive Started (start size : ℕ) : Store → Prop
  /-- The machine has started. -/
  | recovered {d : Disk} {t : Store} (hd : DiskOk start size d)
      (hrun : recoverFromLog.run (boot d start size) = (.ok ⟨⟩, t)) : Started start size t
  /-- A transaction is complete. -/
  | transaction {s t : Store} {ops : List BufOp} (hs : Started start size s)
      (hops : ∀ x, .read x ∈ ops → ¬ (start ≤ x.toNat ∧ x.toNat < start + size))
      (hrun : (transaction ops).run s = (.ok ⟨⟩, t)) : Started start size t
  /-- The cache has been used. -/
  | ops {s t : Store} {ops : List BufOp} {held : List (Fin NBUF)} (hs : Started start size s)
      (hops : ∀ x, .read x ∈ ops → ¬ (start ≤ x.toNat ∧ x.toNat < start + size))
      (hrun : (runOps [] ops).run s = (.ok held, t)) : Started start size t

section

variable {start size : ℕ} {s t : Store} {d e d₀ : Disk}

theorem Started.idle (h : Started start size s) : Idle start size s := by
  induction h with
  | recovered hd hrun =>
    obtain ⟨hk, -, hhead, hstart, hsize, hn, hbusy⟩ := (wp_iff_run.mp (recover_spec hd)).1 _ _ hrun
    exact ⟨hk.inv, hstart, hsize, hd.pos, hbusy, hn, hhead⟩
  | transaction _ hops hrun ih => exact ((wp_iff_run.mp (transaction_spec ih hops)).1 _ _ hrun).1
  | @ops s t ops held _ hops hrun ih =>
    have hl : Logging (fun _ => True) start size s.disk false s := ih.logging fun _ _ => trivial
    obtain ⟨ht, -⟩ := (wp_iff_run.mp (runOps_spec hl (fun _ _ => trivial) (by simp [Holds]) hops)).1 _ _ hrun
    exact ⟨ht.inv, ht.start_eq, ht.size_eq, ih.pos, ht.busy, ht.idle rfl, ht.head⟩

theorem recover_total (h : DiskOk start size d) :
    ∃ t, recoverFromLog.run (boot d start size) = (.ok ⟨⟩, t) ∧ Safe (Replays start size d) t ∧
      EqOut start size t.disk (replay start d) := by
  have hspec := wp_iff_run.mp (recover_spec h)
  rcases hrun : recoverFromLog.run (boot d start size) with ⟨_ | _, t⟩
  · exact (hspec.2 _ _ hrun).elim
  · obtain ⟨hk, hout, -⟩ := hspec.1 _ _ hrun
    exact ⟨t, rfl, hk.safe, hout⟩

theorem Undone.crash (h : Undone start size d₀ d) (hc : ReflTransGen (CrashInRecovery start size) d e) :
    Undone start size d₀ e := by
  induction hc with
  | refl => exact h
  | tail _ hstep ih =>
    obtain ⟨t, hrun, hsafe, -⟩ := recover_total ih.1
    unfold CrashInRecovery at hstep
    rw [hrun] at hstep
    obtain ⟨hok, hout⟩ := hsafe _ hstep
    exact ⟨hok, hout.trans ih.2⟩

theorem Undone.recovers (h : Undone start size d₀ d) :
    ∃ t, recoverFromLog.run (boot d start size) = (.ok ⟨⟩, t) ∧ EqOut start size t.disk d₀ := by
  obtain ⟨t, hrun, -, hout⟩ := recover_total h.1
  exact ⟨t, hrun, hout.trans h.2⟩

/-- Transactions are atomic under crashes. Whatever a transaction does with the cache, and wherever the machine stops
in it and then in recovery, again and again, a recovery that is left to complete leaves, outside the log, the disk
before the transaction or that disk with every logged sector replaced by what was logged last. -/
theorem transaction_crash_atomic (h : Started start size s) {ops : List BufOp}
    (hops : ∀ x, .read x ∈ ops → ¬ (start ≤ x.toNat ∧ x.toNat < start + size)) {r : Except Stop PUnit}
    (hrun : (transaction ops).run s = (r, t)) (hd : d ∈ t.disk :: t.history)
    (hc : ReflTransGen (CrashInRecovery start size) d e) :
    ∃ u, recoverFromLog.run (boot e start size) = (.ok ⟨⟩, u) ∧
      (EqOut start size u.disk s.disk ∨ EqOut start size u.disk (applyWrites s.disk t.logged)) := by
  have hspec := wp_iff_run.mp (transaction_spec h.idle hops)
  have hsafe : Atomic start size s.disk t.logged d := by
    rcases r with err | ok
    · exact hspec.2 _ _ hrun d hd
    · exact (hspec.1 _ _ hrun).2.2 d hd
  rcases hsafe with hu | hu
  · obtain ⟨u, hrun', hout⟩ := (hu.crash hc).recovers
    exact ⟨u, hrun', .inl hout⟩
  · obtain ⟨u, hrun', hout⟩ := (hu.crash hc).recovers
    exact ⟨u, hrun', .inr hout⟩

theorem transaction_durable (h : Started start size s) {ops : List BufOp}
    (hops : ∀ x, .read x ∈ ops → ¬ (start ≤ x.toNat ∧ x.toNat < start + size))
    (hrun : (transaction ops).run s = (.ok ⟨⟩, t)) (hc : ReflTransGen (CrashInRecovery start size) t.disk e) :
    ∃ u, recoverFromLog.run (boot e start size) = (.ok ⟨⟩, u) ∧
      EqOut start size u.disk (applyWrites s.disk t.logged) := by
  obtain ⟨hidle, hout, -⟩ := (wp_iff_run.mp (transaction_spec h.idle hops)).1 _ _ hrun
  exact ((undone_of_head hidle.pos hidle.head hout).crash hc).recovers

def emptyStore : Store := (recoverFromLog.run (boot (fun _ _ => 0) 100 10)).2

def fillSector : List BufOp := [.read 5, .modify 1 fun _ => 1, .logWrite 1, .release 1]

def filledStore : Store := ((transaction fillSector).run emptyStore).2

theorem transaction_crash_atomic_fill :
    filledStore.logged.map Prod.fst = [5] ∧ filledStore.history.length = 4 ∧
      ∀ d ∈ filledStore.disk :: filledStore.history, ∃ u, recoverFromLog.run (boot d 100 10) = (.ok ⟨⟩, u) ∧
        (EqOut 100 10 u.disk emptyStore.disk ∨
          EqOut 100 10 u.disk (applyWrites emptyStore.disk filledStore.logged)) := by
  have hstart : Started 100 10 emptyStore := by
    have hd : DiskOk 100 10 fun _ _ => 0 := diskOk_of_headN_eq_zero (by decide) (by decide)
    obtain ⟨t, hrun, -⟩ := recover_total hd
    have ht : emptyStore = t := by rw [emptyStore, hrun]
    exact ht ▸ .recovered hd hrun
  have hops : ∀ x, .read x ∈ fillSector → ¬ (100 ≤ x.toNat ∧ x.toNat < 100 + 10) := by simp [fillSector]
  have hrun : (transaction fillSector).run emptyStore = (((transaction fillSector).run emptyStore).1, filledStore) :=
    Prod.mk.eta.symm
  refine ⟨by decide +kernel, by decide +kernel, fun d hd => ?_⟩
  exact transaction_crash_atomic hstart hops hrun hd .refl

theorem transaction_durable_fill : ∃ u, recoverFromLog.run (boot filledStore.disk 100 10) = (.ok ⟨⟩, u) ∧
    EqOut 100 10 u.disk (applyWrites emptyStore.disk filledStore.logged) := by
  have hd : DiskOk 100 10 fun _ _ => 0 := diskOk_of_headN_eq_zero (by decide) (by decide)
  obtain ⟨t, hrun, -⟩ := recover_total hd
  have hfill : (transaction fillSector).run emptyStore = (.ok ⟨⟩, filledStore) :=
    Prod.ext (by decide +kernel) (by rw [filledStore])
  exact transaction_durable (.recovered hd (by rw [emptyStore, hrun])) (by simp [fillSector]) hfill .refl

end

end MCertiKOS.FileSystem
