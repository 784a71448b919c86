import MCertiKOS.FileSystem.Bufcache
import MCertiKOS.Library.Code
import MCertiKOS.Library.LinkedQueue
import Mathlib.Data.List.FinRange
import Mathlib.Data.List.ReduceOption

/-!
# The buffer cache, shared

`kern/fs/bufcache.c` and `log_write` of `kern/fs/log.c`, run by any number of processes at once. The list of buffers
is the circular list of the source, with the links in the buffers and `bcache.head` as `none`.

A process may be interrupted wherever it sleeps, in `bufcache_get` and in `ide_rw`; here it may be interrupted
between any two operations. Two fields are not in the source: `held` has the buffers that `bufcache_get` has returned
to a process and that it has not released, and `changed` marks those whose data its holder has changed since they
were last written or logged.

A buffer that has never been used still has `dev = -1` and sector `0`. Should somebody ask for that sector, several
buffers are for it; the first of the list is taken, and it then stays before the unused ones (`CacheOk.order`).
-/

namespace MCertiKOS.FileSystem.SharedCache

open Library Relation List
open Function (update update_eq_self update_of_ne update_self)

/-- `struct buf`, except for its links. -/
structure Buf where
  /-- `B_BUSY`. -/
  busy : Bool
  /-- `B_VALID`. -/
  valid : Bool
  /-- `B_DIRTY`. -/
  dirty : Bool
  dev : UInt32
  sector : UInt32
  data : Block

/-- `struct log`. -/
structure Log where
  start : ℕ
  size : ℕ
  busy : Bool
  /-- `lh.n`. -/
  n : ℕ
  /-- `lh.sector`. -/
  sector : ℕ → UInt32

/-- The disks, the cache and the log. -/
structure Cache (ι : Type) where
  disk : UInt32 → UInt32 → Block
  havedisk1 : Bool
  /-- `bcache.buf`. -/
  buf : Fin NBUF → Buf
  /-- `bcache.head` and the links of the buffers. -/
  list : Links (Option (Fin NBUF))
  log : Log
  held : ι → List (Fin NBUF)
  /-- The buffers that have been changed and neither written nor logged. -/
  changed : Fin NBUF → Bool

/-- Why a process stops. -/
inductive Stop where
  /-- `thread_sleep` in `bufcache_get`. -/
  | sleep
  /-- `KERN_PANIC("bufcache_get: no buffers")`. -/
  | noBuffers
  /-- `KERN_PANIC("bwrite")`. -/
  | bwrite
  /-- `KERN_PANIC("brelse")`. -/
  | brelse
  /-- `KERN_PANIC("ide_rw: …")`. -/
  | ideRw
  /-- A panic of `log_write`. -/
  | logWrite

variable {ι : Type} [DecidableEq ι]

namespace Cache

def setBuf (s : Cache ι) (b : Fin NBUF) (v : Buf) : Cache ι := { s with buf := update s.buf b v }

/-- The buffers from `bcache.head.next` on, along `next`. -/
def forward (s : Cache ι) : List (Fin NBUF) := (s.list.walk none NBUF s.list.head).reduceOption

/-- The buffers from `bcache.head.prev` on, along `prev`. -/
def backward (s : Cache ι) : List (Fin NBUF) := (s.list.flip.walk none NBUF s.list.tail).reduceOption

def IsFor (s : Cache ι) (b : Fin NBUF) (dev sector : UInt32) : Prop :=
  (s.buf b).dev = dev ∧ (s.buf b).sector = sector

instance (s : Cache ι) (b : Fin NBUF) (dev sector : UInt32) : Decidable (s.IsFor b dev sector) :=
  inferInstanceAs (Decidable (_ ∧ _))

/-- Process `i` has got `b` from `bufcache_get`. -/
def take (s : Cache ι) (i : ι) (b : Fin NBUF) (v : Buf) : Cache ι :=
  { s.setBuf b v with held := update s.held i (b :: s.held i) }

/-- Process `i` has released `b`: the buffer goes to the head of the list. -/
def released (s : Cache ι) (i : ι) (b : Fin NBUF) : Cache ι :=
  { s.setBuf b { s.buf b with busy := false } with
    list := (Links.link none s.list (s.list.prev b) (s.list.next b)).push none b
    held := update s.held i ((s.held i).erase b) }

end Cache

/-- `bufcache_get`, from the label `loop`. -/
def bufcacheGet (i : ι) (dev sector : UInt32) : Prog (Cache ι) Stop (Fin NBUF) := do
  let s ← get
  match s.forward.find? fun b => s.IsFor b dev sector with
  | some b =>
    if (s.buf b).busy then throw .sleep
    else
      set (s.take i b { s.buf b with busy := true })
      return b
  | none =>
    match s.backward.find? fun b => (s.buf b).busy = false ∧ (s.buf b).dirty = false with
    | some b =>
      set (s.take i b ⟨true, false, false, dev, sector, (s.buf b).data⟩)
      return b
    | none => throw .noBuffers

/-- `ide_rw`: the transfer. -/
def ideRw (b : Fin NBUF) : Prog (Cache ι) Stop PUnit := do
  let s ← get
  let v := s.buf b
  if v.busy = false ∨ (v.valid = true ∧ v.dirty = false) ∨ (v.dev ≠ 0 ∧ s.havedisk1 = false) then throw .ideRw
  else if v.dirty then
    set { s.setBuf b { v with valid := true, dirty := false } with
      disk := update s.disk v.dev (update (s.disk v.dev) v.sector v.data)
      changed := update s.changed b false }
  else set (s.setBuf b { v with valid := true, data := s.disk v.dev v.sector })

/-- `b->flags |= B_DIRTY` in `bufcache_write`. -/
def markDirty (b : Fin NBUF) : Prog (Cache ι) Stop PUnit := do
  let s ← get
  if (s.buf b).busy = false then throw .bwrite else set (s.setBuf b { s.buf b with dirty := true })

def bufcacheRelease (i : ι) (b : Fin NBUF) : Prog (Cache ι) Stop PUnit := do
  let s ← get
  if (s.buf b).busy = false then throw .brelse else set (s.released i b)

/-- A process stores in `b->data`. -/
def setData (b : Fin NBUF) (v : Block) : Prog (Cache ι) Stop PUnit :=
  modify fun s => { s.setBuf b { s.buf b with data := v } with changed := update s.changed b true }

/-- The search of `log_write`: the first entry for the sector, or `n`. -/
def logIndex (l : Log) (x : UInt32) : ℕ := (List.range l.n).findIdx fun i => l.sector i = x

/-- `log_write`, up to `bufcache_read`: the index, and the device and the sector to read. -/
def logStart (b : Fin NBUF) : Prog (Cache ι) Stop (ℕ × UInt32 × UInt32) := do
  let s ← get
  if LOGSIZE ≤ s.log.n ∨ s.log.size - 1 ≤ s.log.n ∨ s.log.busy = false then throw .logWrite
  else
    let k := logIndex s.log (s.buf b).sector
    set { s with log := { s.log with sector := update s.log.sector k (s.buf b).sector } }
    return (k, (s.buf b).dev, UInt32.ofNat (s.log.start + k + 1))

/-- `log_write`, from `bufcache_release` on. -/
def logEnd (b : Fin NBUF) (k : ℕ) : Prog (Cache ι) Stop PUnit :=
  modify fun s => { s.setBuf b { s.buf b with dirty := true } with
    log := { s.log with n := if k = s.log.n then s.log.n + 1 else s.log.n }
    changed := update s.changed b false }

/-- What a process does without being interrupted. -/
inductive CacheOp : Type → Type where
  /-- `bufcache_get`. -/
  | get (dev sector : UInt32) : CacheOp (Fin NBUF)
  /-- `b->flags & B_VALID`. -/
  | valid (b : Fin NBUF) : CacheOp Bool
  | ideRw (b : Fin NBUF) : CacheOp PUnit
  /-- `b->flags |= B_DIRTY`. -/
  | markDirty (b : Fin NBUF) : CacheOp PUnit
  /-- `bufcache_release`. -/
  | release (b : Fin NBUF) : CacheOp PUnit
  /-- The process stores in `b->data`. -/
  | setData (b : Fin NBUF) (v : Block) : CacheOp PUnit
  /-- `memmove(c->data, b->data, BSIZE)`. -/
  | copy (c b : Fin NBUF) : CacheOp PUnit
  /-- The first part of `log_write`. -/
  | logStart (b : Fin NBUF) : CacheOp (ℕ × UInt32 × UInt32)
  /-- The last part of `log_write`. -/
  | logEnd (b : Fin NBUF) (k : ℕ) : CacheOp PUnit
  /-- What other functions do to `log`. -/
  | setLog (l : Log) : CacheOp PUnit

/-- What the operations of process `i` do. -/
def CacheOp.sem (i : ι) : Sem CacheOp (Cache ι) Stop
  | _, .get dev sector => bufcacheGet i dev sector
  | _, .valid b => do return ((← MonadState.get).buf b).valid
  | _, .ideRw b => SharedCache.ideRw b
  | _, .markDirty b => SharedCache.markDirty b
  | _, .release b => bufcacheRelease i b
  | _, .setData b v => SharedCache.setData b v
  | _, .copy c b => do SharedCache.setData c ((← MonadState.get).buf b).data
  | _, .logStart b => SharedCache.logStart b
  | _, .logEnd b k => SharedCache.logEnd b k
  | _, .setLog l => modify fun s => { s with log := l }

def bufcacheRead (dev sector : UInt32) : Code CacheOp (Fin NBUF) := do
  let b ← Code.op (.get dev sector)
  let v ← Code.op (.valid b)
  if v then return b
  else do
    Code.op (.ideRw b)
    return b

def bufcacheWrite (b : Fin NBUF) : Code CacheOp PUnit := do
  Code.op (.markDirty b)
  Code.op (.ideRw b)

def logWrite (b : Fin NBUF) : Code CacheOp PUnit := do
  let (k, dev, sector) ← Code.op (.logStart b)
  let lbuf ← bufcacheRead dev sector
  Code.op (.copy lbuf b)
  bufcacheWrite lbuf
  Code.op (.release lbuf)
  Code.op (.logEnd b k)

/-- What a process may call. -/
inductive Call where
  /-- `bufcache_read`. -/
  | read (dev sector : UInt32)
  /-- `bufcache_write`. -/
  | write (b : Fin NBUF)
  /-- `bufcache_release`. -/
  | release (b : Fin NBUF)
  | logWrite (b : Fin NBUF)
  /-- Change the data of a buffer. -/
  | setData (b : Fin NBUF) (v : Block)
  /-- Change the log, as `begin_trans` and `commit_trans` do. -/
  | setLog (l : Log)

def Call.code : Call → Code CacheOp PUnit
  | .read dev sector => do
    let _ ← bufcacheRead dev sector
    return ⟨⟩
  | .write b => bufcacheWrite b
  | .release b => Code.op (.release b)
  | .logWrite b => SharedCache.logWrite b
  | .setData b v => Code.op (.setData b v)
  | .setLog l => Code.op (.setLog l)

/-- A process uses the buffers that it holds, and it releases none that it has changed and neither written nor
logged. -/
def Call.Ok (s : Cache ι) (i : ι) : Call → Prop
  | .read _ _ => True
  | .write b => b ∈ s.held i
  | .release b => b ∈ s.held i ∧ s.changed b = false
  | .logWrite b => b ∈ s.held i
  | .setData b _ => b ∈ s.held i
  | .setLog _ => True

/-- Process `i` may call `c`. -/
def Starts (s : Cache ι) (i : ι) (c : Code CacheOp PUnit) : Prop := ∃ call : Call, call.Ok s i ∧ c = call.code

abbrev Step : Threads ι (Cache ι) CacheOp → Threads ι (Cache ι) CacheOp → Prop := Threads.Step CacheOp.sem Starts

/-- The loop of `bufcache_init`. -/
def initLinks : List (Fin NBUF) → Links (Option (Fin NBUF)) → Links (Option (Fin NBUF))
  | [], q => q
  | b :: bs, q => initLinks bs (q.push none (some b))

/-- `bufcache_init`, with nothing in the log's place yet. -/
def bufcacheInit (disk : UInt32 → UInt32 → Block) (havedisk1 : Bool) (log : Log) : Cache ι where
  disk := disk
  havedisk1 := havedisk1
  buf _ := ⟨false, false, false, 0xFFFFFFFF, 0, fun _ => 0⟩
  list := initLinks (List.finRange NBUF) ⟨none, none, fun _ => none, fun _ => none⟩
  log := log
  held _ := []
  changed _ := false

/-! ### The list -/

theorem rep_initLinks {q : Links (Option (Fin NBUF))} {l : List (Fin NBUF)} (bs : List (Fin NBUF))
    (h : Links.Rep none q (l.map some)) (hbs : bs.Nodup) (hd : ∀ b ∈ bs, b ∉ l) :
    Links.Rep none (initLinks bs q) ((bs.reverse ++ l).map some) := by
  induction bs generalizing q l with
  | nil => exact h
  | cons b bs ih =>
    rw [nodup_cons] at hbs
    have hb : some b ∉ l.map some := by simpa using hd b (by simp)
    have h' : Links.Rep none (q.push none (some b)) ((b :: l).map some) := h.push hb (by simp)
    have := ih h' hbs.2 fun c hc => by
      rw [mem_cons, not_or]
      exact ⟨fun e => hbs.1 (e ▸ hc), hd c (by simp [hc])⟩
    rw [reverse_cons, append_assoc]
    exact this

omit [DecidableEq ι] in
theorem forward_eq {s : Cache ι} {l : List (Fin NBUF)} (h : Links.Rep none s.list (l.map some)) (hl : l.length ≤ NBUF) :
    s.forward = l ∧ s.backward = l.reverse := by
  have hf := h.walk_eq (by simpa using hl)
  have hb := h.flip.walk_eq (by simpa using hl)
  refine ⟨?_, ?_⟩
  · rw [Cache.forward, hf]
    simp [List.reduceOption]
  · have : s.list.flip.walk none NBUF s.list.tail = (l.map some).reverse := hb
    rw [Cache.backward, this, ← map_reverse]
    simp [List.reduceOption]

/-! ### The invariant -/

def Buf.Used (v : Buf) : Prop := v.busy = true ∨ v.valid = true

/-- `a` may stand before `b` in the list: if `b` has been used for the sector of the unused buffers, then `a` is not one
of those. -/
def Cache.Before (s : Cache ι) (a b : Fin NBUF) : Prop := (s.buf b).Used → s.IsFor b 0xFFFFFFFF 0 → (s.buf a).Used

/-- The cache is well formed and agrees with the disk. -/
structure CacheOk (s : Cache ι) : Prop where
  list : ∃ l : List (Fin NBUF), Links.Rep none s.list (l.map some) ∧ l.Perm (List.finRange NBUF) ∧ l.Pairwise s.Before
  /-- An unused buffer is as `bufcache_init` left it. -/
  unused : ∀ b, ¬ (s.buf b).Used → s.IsFor b 0xFFFFFFFF 0
  uniq : ∀ b b', (s.buf b).Used → (s.buf b').Used → s.IsFor b' (s.buf b).dev (s.buf b).sector → b = b'
  dirty_valid : ∀ b, (s.buf b).dirty = true → (s.buf b).valid = true
  /-- A buffer is as on disk, unless it is to be written or its holder has changed it. -/
  coherent : ∀ b, (s.buf b).valid = true → (s.buf b).dirty = false → s.changed b = false →
    (s.buf b).data = s.disk (s.buf b).dev (s.buf b).sector
  changed_busy : ∀ b, s.changed b = true → (s.buf b).busy = true
  busy_iff : ∀ b, (s.buf b).busy = true ↔ ∃ i, b ∈ s.held i
  holder : ∀ b i j, b ∈ s.held i → b ∈ s.held j → i = j
  nodup : ∀ i, (s.held i).Nodup

section Invariant

variable {s t : Cache ι} {b : Fin NBUF} {i : ι}

/-- Only `b` and its sector on the disk may have changed, and `b` is for the sector it was for. -/
structure Edits (s t : Cache ι) (b : Fin NBUF) : Prop where
  list : t.list = s.list
  held : t.held = s.held
  buf : ∀ b', b' ≠ b → t.buf b' = s.buf b'
  changed : ∀ b', b' ≠ b → t.changed b' = s.changed b'
  key : s.IsFor b (t.buf b).dev (t.buf b).sector
  busy : (t.buf b).busy = true
  dirty_valid : (t.buf b).dirty = true → (t.buf b).valid = true
  coherent : (t.buf b).valid = true → (t.buf b).dirty = false → t.changed b = false →
    (t.buf b).data = t.disk (t.buf b).dev (t.buf b).sector
  disk : ∀ d x, ¬ s.IsFor b d x → t.disk d x = s.disk d x

omit [DecidableEq ι] in
theorem CacheOk.update (h : CacheOk s) (hb : (s.buf b).busy = true) (ht : Edits s t b) : CacheOk t := by
  obtain ⟨hlist, hheld, hbuf, hch, hkey, hbusy, hdv, hcoh, hdisk⟩ := ht
  have hused : ∀ b', (t.buf b').Used ↔ (s.buf b').Used := by
    intro b'
    by_cases e : b' = b
    · subst e
      exact ⟨fun _ => .inl hb, fun _ => .inl hbusy⟩
    · rw [hbuf b' e]
  have hfor : ∀ b' d x, t.IsFor b' d x ↔ s.IsFor b' d x := by
    intro b' d x
    by_cases e : b' = b
    · subst e
      unfold Cache.IsFor at hkey ⊢
      rw [hkey.1, hkey.2]
    · unfold Cache.IsFor
      rw [hbuf b' e]
  have hdev : ∀ b', (t.buf b').dev = (s.buf b').dev ∧ (t.buf b').sector = (s.buf b').sector := fun b' =>
    (hfor b' _ _).mpr ⟨rfl, rfl⟩
  obtain ⟨l, hrep, hperm, hord⟩ := h.list
  refine ⟨⟨l, by rwa [hlist], hperm, hord.imp fun hab hu hf => ?_⟩, fun b' hu => ?_, fun b1 b2 h1 h2 hf => ?_,
    fun b' hd => ?_, fun b' hv hd hc => ?_, fun b' hc => ?_, fun b' => ?_, fun b' i j => ?_, fun i => ?_⟩
  · exact (hused _).mpr (hab ((hused _).mp hu) ((hfor _ _ _).mp hf))
  · exact (hfor _ _ _).mpr (h.unused b' (mt (hused b').mpr hu))
  · rw [hfor, (hdev b1).1, (hdev b1).2] at hf
    exact h.uniq b1 b2 ((hused _).mp h1) ((hused _).mp h2) hf
  · by_cases e : b' = b
    · subst e
      exact hdv hd
    · rw [hbuf b' e] at hd ⊢
      exact h.dirty_valid b' hd
  · by_cases e : b' = b
    · subst e
      exact hcoh hv hd hc
    · rw [hbuf b' e] at hv hd ⊢
      rw [hch b' e] at hc
      -- the sector written is that of another buffer
      rw [hdisk _ _ fun hf => e (h.uniq b' b (.inr hv) (.inl hb) hf)]
      exact h.coherent b' hv hd hc
  · by_cases e : b' = b
    · subst e
      exact hbusy
    · rw [hbuf b' e]
      exact h.changed_busy b' (by rwa [hch b' e] at hc)
  · rw [hheld, ← h.busy_iff]
    by_cases e : b' = b
    · subst e
      rw [hb, hbusy]
    · rw [hbuf b' e]
  · rw [hheld]
    exact h.holder b' i j
  · rw [hheld]
    exact h.nodup i

theorem CacheOk.take (h : CacheOk s) (i : ι) {l as bs : List (Fin NBUF)} {v : Buf}
    (hrep : Links.Rep none s.list (l.map some)) (hperm : l.Perm (List.finRange NBUF)) (hord : l.Pairwise s.Before)
    (hl : l = as ++ b :: bs) (has : v.dev = 0xFFFFFFFF → v.sector = 0 → ∀ a ∈ as, (s.buf a).Used)
    (hfree : (s.buf b).busy = false) (hv : v.busy = true)
    (hno : ∀ b', b' ≠ b → (s.buf b').Used → ¬ s.IsFor b' v.dev v.sector) (hdv : v.dirty = true → v.valid = true)
    (hcoh : v.valid = true → v.dirty = false → v.data = s.disk v.dev v.sector) : CacheOk (s.take i b v) := by
  have hself : (s.take i b v).buf b = v := update_self ..
  have hbuf : ∀ b', b' ≠ b → (s.take i b v).buf b' = s.buf b' := fun b' e => update_of_ne e ..
  have hheld : ∀ j, (s.take i b v).held j = if j = i then b :: s.held i else s.held j := by
    intro j
    by_cases e : j = i
    · subst e
      simp [Cache.take]
    · simp [Cache.take, e]
  have hfresh : ∀ j, b ∉ s.held j := fun j hj => by
    rw [(h.busy_iff b).mpr ⟨j, hj⟩] at hfree
    cases hfree
  have hmem : ∀ b' j, b' ≠ b → (b' ∈ (s.take i b v).held j ↔ b' ∈ s.held j) := by
    intro b' j e
    rw [hheld]
    split_ifs with hj
    · simp [e, hj]
    · rfl
  have hmemb : ∀ j, b ∈ (s.take i b v).held j ↔ j = i := by
    intro j
    rw [hheld]
    split_ifs with hj
    · simp [hj]
    · simp [hfresh, hj]
  have hnd : l.Nodup := hperm.nodup_iff.mpr (nodup_finRange NBUF)
  refine ⟨⟨l, hrep, hperm, ?_⟩, fun b' hu => ?_, fun b1 b2 h1 h2 hf => ?_, fun b' hd => ?_, fun b' hv' hd hc => ?_,
    fun b' hc => ?_, fun b' => ?_, fun b' j k hj hk => ?_, fun j => ?_⟩
  · -- only the pairs with `b` have changed
    subst hl
    rw [nodup_middle, nodup_cons, mem_append, not_or] at hnd
    rw [pairwise_append, pairwise_cons] at hord ⊢
    have hstay : ∀ x ∈ as ++ bs, ∀ y ∈ as ++ bs, s.Before x y → (s.take i b v).Before x y := by
      intro x hx y hy hxy
      have hxb : x ≠ b := fun e => by simp [e, hnd.1] at hx
      have hyb : y ≠ b := fun e => by simp [e, hnd.1] at hy
      unfold Cache.Before Cache.IsFor
      rw [hbuf x hxb, hbuf y hyb]
      exact hxy
    refine ⟨hord.1.imp_of_mem fun hx hy => hstay _ (by simp [hx]) _ (by simp [hy]),
      ⟨fun y _ _ _ => .inl (by rw [hself, hv]), hord.2.1.2.imp_of_mem fun hx hy => hstay _ (by simp [hx]) _ (by simp [hy])⟩,
      fun x hx y hy => ?_⟩
    rcases mem_cons.mp hy with rfl | hy
    · intro _ hf
      have hxb : x ≠ y := fun e => hnd.1.1 (e ▸ hx)
      unfold Cache.IsFor at hf
      rw [hself] at hf
      rw [hbuf x hxb]
      exact has hf.1 hf.2 x hx
    · exact hstay x (by simp [hx]) y (by simp [hy]) (hord.2.2 x hx y (by simp [hy]))
  · by_cases e : b' = b
    · subst e
      rw [hself] at hu
      exact absurd (.inl hv) hu
    · unfold Cache.IsFor
      rw [hbuf b' e] at hu ⊢
      exact h.unused b' hu
  · unfold Cache.IsFor at hf
    by_cases e1 : b1 = b <;> by_cases e2 : b2 = b
    · rw [e1, e2]
    · rw [e1, hself, hbuf b2 e2] at hf
      rw [hbuf b2 e2] at h2
      exact absurd hf (hno b2 e2 h2)
    · rw [e2, hself, hbuf b1 e1] at hf
      rw [hbuf b1 e1] at h1
      exact absurd ⟨hf.1.symm, hf.2.symm⟩ (hno b1 e1 h1)
    · rw [hbuf b1 e1, hbuf b2 e2] at hf
      rw [hbuf b1 e1] at h1
      rw [hbuf b2 e2] at h2
      exact h.uniq b1 b2 h1 h2 hf
  · by_cases e : b' = b
    · subst e
      rw [hself] at hd ⊢
      exact hdv hd
    · rw [hbuf b' e] at hd ⊢
      exact h.dirty_valid b' hd
  · by_cases e : b' = b
    · subst e
      rw [hself] at hv' hd ⊢
      exact hcoh hv' hd
    · rw [hbuf b' e] at hv' hd ⊢
      exact h.coherent b' hv' hd hc
  · by_cases e : b' = b
    · subst e
      rw [hself, hv]
    · rw [hbuf b' e]
      exact h.changed_busy b' hc
  · by_cases e : b' = b
    · subst e
      rw [hself, hv]
      exact ⟨fun _ => ⟨i, (hmemb i).mpr rfl⟩, fun _ => rfl⟩
    · rw [hbuf b' e, h.busy_iff]
      exact exists_congr fun j => (hmem b' j e).symm
  · by_cases e : b' = b
    · subst e
      rw [(hmemb j).mp hj, (hmemb k).mp hk]
    · exact h.holder b' j k ((hmem b' j e).mp hj) ((hmem b' k e).mp hk)
  · rw [hheld]
    split_ifs
    · exact nodup_cons.mpr ⟨hfresh i, h.nodup i⟩
    · exact h.nodup j

theorem CacheOk.release (h : CacheOk s) (hb : b ∈ s.held i) (hvalid : (s.buf b).valid = true)
    (hch : s.changed b = false) : CacheOk (s.released i b) := by
  have hself : (s.released i b).buf b = { s.buf b with busy := false } := update_self ..
  have hbuf : ∀ b', b' ≠ b → (s.released i b).buf b' = s.buf b' := fun b' e => update_of_ne e ..
  have hkey : ∀ b', ((s.released i b).buf b').dev = (s.buf b').dev ∧ ((s.released i b).buf b').sector = (s.buf b').sector ∧
      ((s.released i b).buf b').valid = (s.buf b').valid ∧ ((s.released i b).buf b').dirty = (s.buf b').dirty ∧
      ((s.released i b).buf b').data = (s.buf b').data := by
    intro b'
    by_cases e : b' = b
    · subst e
      rw [hself]
      exact ⟨rfl, rfl, rfl, rfl, rfl⟩
    · rw [hbuf b' e]
      exact ⟨rfl, rfl, rfl, rfl, rfl⟩
  have hused : ∀ b', ((s.released i b).buf b').Used ↔ (s.buf b').Used := by
    intro b'
    by_cases e : b' = b
    · subst e
      rw [hself]
      exact ⟨fun _ => .inr hvalid, fun _ => .inr hvalid⟩
    · rw [hbuf b' e]
  have hfor : ∀ b' d x, (s.released i b).IsFor b' d x ↔ s.IsFor b' d x := by
    intro b' d x
    unfold Cache.IsFor
    rw [(hkey b').1, (hkey b').2.1]
  have hmem : ∀ b' j, b' ≠ b → (b' ∈ (s.released i b).held j ↔ b' ∈ s.held j) := by
    intro b' j e
    by_cases hj : j = i
    · subst hj
      simp [Cache.released, mem_erase_of_ne e]
    · simp [Cache.released, hj]
  have hmemb : ∀ j, b ∉ (s.released i b).held j := by
    intro j
    by_cases hj : j = i
    · subst hj
      simp [Cache.released, (h.nodup j).mem_erase_iff]
    · simp only [Cache.released, update_of_ne hj]
      exact fun hjb => hj (h.holder b j i hjb hb)
  obtain ⟨l, hrep, hperm, hord⟩ := h.list
  have hbl : b ∈ l := hperm.mem_iff.mpr (mem_finRange b)
  obtain ⟨as, bs, rfl⟩ := append_of_mem hbl
  have hnd : (as ++ b :: bs).Nodup := hperm.nodup_iff.mpr (nodup_finRange NBUF)
  refine ⟨⟨b :: (as ++ bs), ?_, ?_, ?_⟩, fun b' hu => ?_, fun b₁ b₂ h₁ h₂ hf => ?_, fun b' hd => ?_,
    fun b' hv hd hc => ?_, fun b' hc => ?_, fun b' => ?_, fun b' j k hj hk => ?_, fun j => ?_⟩
  · rw [map_append, map_cons] at hrep
    have hrep' : Links.Rep none (Links.link none s.list (s.list.prev b) (s.list.next b)) ((as ++ bs).map some) := by
      rw [map_append]
      exact hrep.unlink
    refine hrep'.push ?_ (by simp)
    rw [nodup_middle, nodup_cons] at hnd
    simpa using hnd.1
  · exact perm_middle.symm.trans hperm
  · have hsub : (as ++ bs).Pairwise s.Before := hord.sublist (List.Sublist.append_left (sublist_cons_self b bs) as)
    refine pairwise_cons.mpr ⟨fun y _ _ _ => (hused b).mpr (.inr hvalid), hsub.imp fun hxy hu hf => ?_⟩
    exact (hused _).mpr (hxy ((hused _).mp hu) ((hfor _ _ _).mp hf))
  · exact (hfor _ _ _).mpr (h.unused b' (mt (hused b').mpr hu))
  · rw [hfor, (hkey b₁).1, (hkey b₁).2.1] at hf
    exact h.uniq b₁ b₂ ((hused _).mp h₁) ((hused _).mp h₂) hf
  · rw [(hkey b').2.2.2.1] at hd
    rw [(hkey b').2.2.1]
    exact h.dirty_valid b' hd
  · obtain ⟨h1, h2, h3, h4, h5⟩ := hkey b'
    rw [h3] at hv
    rw [h4] at hd
    rw [h1, h2, h5]
    exact h.coherent b' hv hd hc
  · by_cases e : b' = b
    · subst e
      exact absurd (hch.symm.trans hc) (by simp)
    · rw [hbuf b' e]
      exact h.changed_busy b' hc
  · by_cases e : b' = b
    · subst e
      rw [hself]
      exact ⟨fun hx => absurd hx (by simp), fun ⟨j, hj⟩ => absurd hj (hmemb j)⟩
    · rw [hbuf b' e, h.busy_iff]
      exact exists_congr fun j => (hmem b' j e).symm
  · by_cases e : b' = b
    · subst e
      exact absurd hj (hmemb j)
    · exact h.holder b' j k ((hmem b' j e).mp hj) ((hmem b' k e).mp hk)
  · by_cases hj : j = i
    · subst hj
      simpa [Cache.released] using (h.nodup j).erase b
    · simpa [Cache.released, hj] using h.nodup j

end Invariant

/-! ### What a process knows of itself -/

/-- What a process knows of the buffers it holds. -/
structure Local where
  held : List (Fin NBUF)
  loading : Option (Fin NBUF)
  changed : Fin NBUF → Bool

/-- What process `i` knows of itself is so. -/
structure Knows (s : Cache ι) (i : ι) (r : Local) : Prop where
  held : s.held i = r.held
  valid : ∀ b ∈ r.held, r.loading ≠ some b → (s.buf b).valid = true
  changed : ∀ b ∈ r.held, s.changed b = r.changed b

def Inv (rs : ι → Local) (s : Cache ι) : Prop := CacheOk s ∧ ∀ i, Knows s i (rs i)

section Ops

variable {s t : Cache ι} {b : Fin NBUF} {i : ι} {rs : ι → Local} {r r' : Local}

theorem Inv.step (h : Inv rs s) (ht : CacheOk t) (hheld : ∀ j, j ≠ i → t.held j = s.held j)
    (hbuf : ∀ b' j, j ≠ i → b' ∈ s.held j → t.buf b' = s.buf b' ∧ t.changed b' = s.changed b') (hi : Knows t i r') :
    Inv (update rs i r') t := by
  refine ⟨ht, fun j => ?_⟩
  by_cases hj : j = i
  · subst hj
    rwa [update_self]
  · rw [update_of_ne hj]
    have hk := h.2 j
    refine ⟨(hheld j hj).trans hk.held, fun b' hb' hl => ?_, fun b' hb' => ?_⟩
    · rw [(hbuf b' j hj (hk.held ▸ hb')).1]
      exact hk.valid b' hb' hl
    · rw [(hbuf b' j hj (hk.held ▸ hb')).2]
      exact hk.changed b' hb'

theorem Inv.update (h : Inv rs s) (hb : b ∈ s.held i) (ht : Edits s t b) (hr : r'.held = (rs i).held)
    (hl : ∀ b', b' ≠ b → (rs i).loading = some b' → r'.loading = some b')
    (hv : r'.loading ≠ some b → (t.buf b).valid = true) (hc : r'.changed b = t.changed b)
    (hc' : ∀ b', b' ≠ b → r'.changed b' = (rs i).changed b') : Inv (update rs i r') t := by
  have hok := h.1
  have hbb := (hok.busy_iff b).mpr ⟨i, hb⟩
  have hk := h.2 i
  obtain ⟨-, hheld, hbuf, hch, -⟩ := id ht
  refine h.step (hok.update hbb ht) (fun j _ => by rw [hheld]) ?_ ?_
  · intro b' j hj hb'
    have e : b' ≠ b := by
      rintro rfl
      exact hj (hok.holder b' j i hb' hb)
    exact ⟨hbuf b' e, hch b' e⟩
  · refine ⟨by rw [hheld, hk.held, hr], fun b' hb' hl' => ?_, fun b' hb' => ?_⟩
    · by_cases e : b' = b
      · subst e
        exact hv hl'
      · rw [hbuf b' e]
        exact hk.valid b' (hr ▸ hb') fun e' => hl' (hl b' e e')
    · by_cases e : b' = b
      · subst e
        exact hc.symm
      · rw [hch b' e, hc' b' e]
        exact hk.changed b' (hr ▸ hb')

omit [DecidableEq ι] in
theorem Inv.busy (h : Inv rs s) (hb : b ∈ (rs i).held) : b ∈ s.held i ∧ (s.buf b).busy = true := by
  have hb' : b ∈ s.held i := by rwa [(h.2 i).held]
  exact ⟨hb', (h.1.busy_iff b).mpr ⟨i, hb'⟩⟩

/-- What the process knows after `bufcache_get` has returned `b`. -/
def Local.got (r : Local) (b : Fin NBUF) : Local := ⟨b :: r.held, some b, update r.changed b false⟩

/-- What the process knows when `b` has been read. -/
def Local.read (r : Local) : Local := { r with loading := none }

theorem Inv.take (h : Inv rs s) (hr : rs i = r) (hl : r.loading = none) {v : Buf} (hfree : (s.buf b).busy = false)
    (hok : CacheOk (s.take i b v)) : Inv (Function.update rs i (r.got b)) (s.take i b v) := by
  have hbuf : ∀ b', b' ≠ b → (s.take i b v).buf b' = s.buf b' := fun b' e => Function.update_of_ne e ..
  have hnot : ∀ j, b ∉ s.held j := fun j hj => by
    rw [(h.1.busy_iff b).mpr ⟨j, hj⟩] at hfree
    cases hfree
  have hk := h.2 i
  rw [hr] at hk
  refine h.step hok (fun j hj => Function.update_of_ne hj ..) (fun b' j _ hb' => ⟨hbuf b' ?_, rfl⟩) ⟨?_, ?_, ?_⟩
  · rintro rfl
    exact hnot j hb'
  · show Function.update s.held i (b :: s.held i) i = _
    rw [Function.update_self, hk.held]
    rfl
  · intro b' hb' hne
    have e : b' ≠ b := fun e => hne (by rw [e]; rfl)
    rw [hbuf b' e]
    refine hk.valid b' ((mem_cons.mp hb').resolve_left e) ?_
    rw [hl]
    simp
  · intro b' hb'
    show s.changed b' = Function.update r.changed b false b'
    by_cases e : b' = b
    · subst e
      rw [Function.update_self]
      by_contra hne
      have := h.1.changed_busy b' (by simpa using hne)
      rw [hfree] at this
      cases this
    · rw [Function.update_of_ne e]
      exact hk.changed b' ((mem_cons.mp hb').resolve_left e)

/-- What the process knows when it has marked `b` as changed or not. -/
def Local.mark (r : Local) (b : Fin NBUF) (c : Bool) : Local := { r with changed := update r.changed b c }

/-- What the process knows when it has released `b`. -/
def Local.drop (r : Local) (b : Fin NBUF) : Local := { r with held := r.held.erase b }

theorem safe_get (hl : r.loading = none) (dev sector : UInt32) :
    Code.Safe CacheOp.sem Inv i (Code.op (.get dev sector)) (fun b r' => b ∉ r.held ∧ r' = r.got b) r := by
  refine safe_op fun rs s hr h => ?_
  obtain ⟨l, hrep, hperm, hord⟩ := h.1.list
  have hlen : l.length ≤ NBUF := by
    rw [hperm.length_eq, length_finRange]
  obtain ⟨hfw, hbw⟩ := forward_eq hrep hlen
  have hall : ∀ b, b ∈ l := fun b => hperm.mem_iff.mpr (mem_finRange b)
  have hdone : ∀ b v, (s.buf b).busy = false → CacheOk (s.take i b v) →
      ∃ r', Inv (Function.update rs i r') (s.take i b v) ∧ b ∉ r.held ∧ r' = r.got b := by
    intro b v hfree hok
    refine ⟨r.got b, h.take hr hl hfree hok, fun hb => ?_, rfl⟩
    have := (h.busy (hr ▸ hb)).2
    rw [hfree] at this
    cases this
  show wp (bufcacheGet i dev sector) _ _ s
  unfold bufcacheGet
  rw [wp_bind, wp_get, hfw, hbw]
  split
  · rename_i b hfind
    obtain ⟨hb, as, bs, hl', has⟩ := List.find?_eq_some_iff_append.mp hfind
    have hb : s.IsFor b dev sector := by simpa using hb
    split_ifs with hbusy
    · exact h
    · have hfree : (s.buf b).busy = false := by simpa using hbusy
      refine hdone b _ hfree (h.1.take i hrep hperm hord hl' ?_ hfree rfl ?_ (h.1.dirty_valid b) ?_)
      · -- the buffers before `b` are for other sectors, so they have been used
        intro h1 h2 a ha
        by_contra hu
        have hkey : s.IsFor b 0xFFFFFFFF 0 := ⟨h1, h2⟩
        have := h.1.unused a hu
        have hne := has a ha
        simp only [Bool.not_eq_true', decide_eq_false_iff_not] at hne
        rw [← hb.1, ← hb.2, hkey.1, hkey.2] at hne
        exact hne this
      · intro b' hne hu hf
        have hub : (s.buf b).Used := by
          by_contra hub
          -- an unused buffer stands behind the used ones for its sector
          obtain ⟨h1, h2⟩ := h.1.unused b hub
          have hf' : s.IsFor b' 0xFFFFFFFF 0 := by
            rw [← h1, ← h2]
            exact hf
          have hmem := hall b'
          rw [hl', mem_append, mem_cons] at hmem
          rcases hmem with hm | rfl | hm
          · have hna := has b' hm
            simp only [Bool.not_eq_true', decide_eq_false_iff_not] at hna
            exact hna (by rw [← hb.1, ← hb.2]; exact hf)
          · exact hne rfl
          · rw [hl', pairwise_append, pairwise_cons] at hord
            exact hub (hord.2.1.1 b' hm hu hf')
        exact hne (h.1.uniq b b' hub hu hf).symm
      · intro hv hd
        refine h.1.coherent b hv hd ?_
        by_contra hc
        have := h.1.changed_busy b (by simpa using hc)
        rw [hfree] at this
        cases this
  · rename_i hnone
    have hno : ∀ b, ¬ s.IsFor b dev sector := fun b hb => by
      have := List.find?_eq_none.mp hnone b (hall b)
      simp [hb] at this
    split
    · rename_i b hfind
      have hb : (s.buf b).busy = false ∧ (s.buf b).dirty = false := by simpa using List.find?_some hfind
      obtain ⟨as, bs, hl'⟩ := append_of_mem (hall b)
      refine hdone b _ hb.1 (h.1.take i hrep hperm hord hl' ?_ hb.1 rfl (fun b' _ _ => hno b') (fun hx => hx)
        (fun hx => by cases hx))
      intro h1 h2 a _
      by_contra hu
      refine hno a ?_
      rw [show dev = 0xFFFFFFFF from h1, show sector = 0 from h2]
      exact h.1.unused a hu
    · exact h

theorem safe_valid (hl : r.loading = some b) :
    Code.Safe CacheOp.sem Inv i (Code.op (.valid b)) (fun v r' => r' = if v then r.read else r) r := by
  refine safe_op fun rs s hr h => ?_
  show wp (do return ((← MonadState.get).buf b).valid : Prog (Cache ι) Stop Bool) _ _ s
  rw [wp_bind, wp_get, wp_pure]
  refine ⟨_, ?_, rfl⟩
  have hk := h.2 i
  rw [hr] at hk
  cases hv : (s.buf b).valid with
  | false =>
    rw [if_neg (by simp), ← hr, update_eq_self]
    exact h
  | true =>
    rw [if_pos rfl]
    refine h.step h.1 (fun _ _ => rfl) (fun _ _ _ _ => ⟨rfl, rfl⟩) ⟨hk.held, fun b' hb' _ => ?_, hk.changed⟩
    by_cases e : b' = b
    · rwa [e]
    · refine hk.valid b' hb' ?_
      rw [hl]
      simpa using Ne.symm e

theorem Inv.storeBuf (h : Inv rs s) (hr : rs i = r) (hb : b ∈ r.held) (hl : ∀ b', r.loading = some b' → b' = b) {v : Buf}
    {c : Bool} {l : Log} {disk : UInt32 → UInt32 → Block} (hdisk : ∀ d x, ¬ s.IsFor b d x → disk d x = s.disk d x)
    (hkey : s.IsFor b v.dev v.sector) (hbusy : v.busy = true) (hv : v.valid = true)
    (hcoh : v.dirty = false → c = false → v.data = disk v.dev v.sector) : Inv (Function.update rs i (r.read.mark b c))
      { s.setBuf b v with disk := disk, changed := Function.update s.changed b c, log := l } := by
  obtain ⟨hb', -⟩ := h.busy (hr ▸ hb)
  have hself : (s.setBuf b v).buf b = v := Function.update_self ..
  refine h.update hb' ⟨rfl, rfl, fun b' e => Function.update_of_ne e .., fun b' e => Function.update_of_ne e .., ?_, ?_, ?_,
    ?_, hdisk⟩ ?_ ?_ ?_ ?_ ?_
  · show s.IsFor b ((s.setBuf b v).buf b).dev ((s.setBuf b v).buf b).sector
    rwa [hself]
  · show ((s.setBuf b v).buf b).busy = true
    rwa [hself]
  · show _ → ((s.setBuf b v).buf b).valid = true
    rw [hself]
    exact fun _ => hv
  · show _ → ((s.setBuf b v).buf b).dirty = false → Function.update s.changed b c b = false →
      ((s.setBuf b v).buf b).data = disk ((s.setBuf b v).buf b).dev ((s.setBuf b v).buf b).sector
    rw [hself, Function.update_self]
    exact fun _ => hcoh
  · rw [hr]
    rfl
  · intro b' e hb''
    rw [hr] at hb''
    exact absurd (hl b' hb'') e
  · intro _
    show ((s.setBuf b v).buf b).valid = true
    rwa [hself]
  · show Function.update r.changed b c b = Function.update s.changed b c b
    rw [Function.update_self, Function.update_self]
  · intro b' e
    rw [hr]
    exact Function.update_of_ne e ..

theorem Inv.setBuf (h : Inv rs s) (hr : rs i = r) (hb : b ∈ r.held) (hl : r.loading = none) {v : Buf} {c : Bool} {l : Log}
    (hkey : s.IsFor b v.dev v.sector) (hbusy : v.busy = true) (hv : v.valid = true)
    (hcoh : v.dirty = false → c = false → v.data = s.disk v.dev v.sector) :
    Inv (Function.update rs i (r.mark b c)) { s.setBuf b v with changed := Function.update s.changed b c, log := l } := by
  have hread : r.read = r := by rw [Local.read, ← hl]
  have := h.storeBuf (c := c) (l := l) hr hb (fun b' e => by rw [hl] at e; cases e) (fun _ _ _ => rfl) hkey hbusy hv hcoh
  rwa [hread] at this

omit [DecidableEq ι] in
theorem Inv.held (h : Inv rs s) (hr : rs i = r) (hb : b ∈ r.held) (hl : r.loading = none) :
    (s.buf b).busy = true ∧ (s.buf b).valid = true ∧ s.changed b = r.changed b := by
  have hk := h.2 i
  rw [hr] at hk
  exact ⟨(h.busy (hr ▸ hb)).2, hk.valid b hb (by simp [hl]), hk.changed b hb⟩

theorem safe_markDirty (hb : b ∈ r.held) (hl : r.loading = none) :
    Code.Safe CacheOp.sem Inv i (Code.op (.markDirty b)) (fun _ r' => r' = r) r := by
  refine safe_op fun rs s hr h => ?_
  obtain ⟨hbusy, hv, hc⟩ := h.held hr hb hl
  show wp (markDirty b) _ _ s
  unfold markDirty
  rw [wp_bind, wp_get, if_neg (by simp [hbusy]), wp_set]
  have := h.setBuf hr hb hl (v := { s.buf b with dirty := true }) (c := r.changed b) (l := s.log) ⟨rfl, rfl⟩ hbusy hv
    (fun hx => by cases hx)
  rw [← hc, Function.update_eq_self] at this
  have hm : r.mark b (s.changed b) = r := by
    rw [hc]
    simp [Local.mark]
  rw [hm] at this
  exact ⟨r, this, rfl⟩

theorem safe_setData (hb : b ∈ r.held) (hl : r.loading = none) (v : Block) :
    Code.Safe CacheOp.sem Inv i (Code.op (.setData b v)) (fun _ r' => r' = r.mark b true) r := by
  refine safe_op fun rs s hr h => ?_
  obtain ⟨hbusy, hv, -⟩ := h.held hr hb hl
  exact ⟨_, h.setBuf hr hb hl ⟨rfl, rfl⟩ hbusy hv (fun _ hx => by cases hx), rfl⟩

theorem safe_copy {c : Fin NBUF} (hc : c ∈ r.held) (hl : r.loading = none) (b : Fin NBUF) :
    Code.Safe CacheOp.sem Inv i (Code.op (.copy c b)) (fun _ r' => r' = r.mark c true) r := by
  refine safe_op fun rs s hr h => ?_
  obtain ⟨hbusy, hv, -⟩ := h.held hr hc hl
  exact ⟨_, h.setBuf hr hc hl ⟨rfl, rfl⟩ hbusy hv (fun _ hx => by cases hx), rfl⟩

theorem safe_logEnd (hb : b ∈ r.held) (hl : r.loading = none) (k : ℕ) :
    Code.Safe CacheOp.sem Inv i (Code.op (.logEnd b k)) (fun _ r' => r' = r.mark b false) r := by
  refine safe_op fun rs s hr h => ?_
  obtain ⟨hbusy, hv, -⟩ := h.held hr hb hl
  exact ⟨_, h.setBuf hr hb hl ⟨rfl, rfl⟩ hbusy hv (fun hx => by cases hx), rfl⟩

omit [DecidableEq ι] in
theorem Inv.setLog (h : Inv rs s) (l : Log) : Inv rs { s with log := l } :=
  ⟨⟨h.1.list, h.1.unused, h.1.uniq, h.1.dirty_valid, h.1.coherent, h.1.changed_busy, h.1.busy_iff, h.1.holder, h.1.nodup⟩,
    fun j => ⟨(h.2 j).held, (h.2 j).valid, (h.2 j).changed⟩⟩

theorem safe_setLog (l : Log) : Code.Safe CacheOp.sem Inv i (Code.op (.setLog l)) (fun _ r' => r' = r) r := by
  refine safe_op fun rs s hr h => ⟨r, ?_, rfl⟩
  rw [← hr, update_eq_self]
  exact h.setLog l

theorem safe_logStart (b : Fin NBUF) : Code.Safe CacheOp.sem Inv i (Code.op (.logStart b)) (fun _ r' => r' = r) r := by
  refine safe_op fun rs s hr h => ?_
  show wp (logStart b) _ _ s
  unfold logStart
  rw [wp_bind, wp_get]
  split_ifs
  · exact h
  · rw [wp_bind, wp_set, wp_pure]
    refine ⟨r, ?_, rfl⟩
    rw [← hr, update_eq_self]
    exact h.setLog _

theorem safe_ideRw (hb : b ∈ r.held) (hl : ∀ b', r.loading = some b' → b' = b) (hc : r.loading = some b → r.changed b = false) :
    Code.Safe CacheOp.sem Inv i (Code.op (.ideRw b)) (fun _ r' => r' = r.read.mark b false) r := by
  refine safe_op fun rs s hr h => ?_
  have hk := h.2 i
  rw [hr] at hk
  obtain ⟨hb', hbusy⟩ := h.busy (hr ▸ hb)
  show wp (ideRw b) _ _ s
  unfold ideRw
  rw [wp_bind, wp_get]
  dsimp only
  split_ifs with h1 h2
  · exact h
  · refine ⟨_, h.storeBuf hr hb hl (fun d x hf => ?_) ⟨rfl, rfl⟩ hbusy rfl fun _ _ => ?_, rfl⟩
    · by_cases e : d = (s.buf b).dev
      · subst e
        rw [update_self, update_of_ne fun e => hf ⟨rfl, e.symm⟩]
      · rw [update_of_ne e]
    · dsimp only
      rw [update_self, update_self]
  · -- a buffer that is neither valid nor dirty has just been got
    have hv : (s.buf b).valid = false := by
      have hd : (s.buf b).dirty = false := by simpa using h2
      simp only [hbusy, hd, Bool.true_eq_false, and_true, false_or, not_or] at h1
      simpa using h1.1
    have hload : r.loading = some b := by
      by_contra hne
      rw [hk.valid b hb hne] at hv
      cases hv
    have hch : update s.changed b false = s.changed := by
      rw [← hc hload, ← hk.changed b hb, update_eq_self]
    have := h.storeBuf (c := false) (l := s.log) (v := { s.buf b with valid := true, data := s.disk (s.buf b).dev (s.buf b).sector })
      hr hb hl (fun _ _ _ => rfl) ⟨rfl, rfl⟩ hbusy rfl fun _ _ => rfl
    rw [hch] at this
    exact ⟨_, this, rfl⟩

theorem safe_release (hb : b ∈ r.held) (hl : r.loading = none) (hc : r.changed b = false) :
    Code.Safe CacheOp.sem Inv i (Code.op (.release b)) (fun _ r' => r' = r.drop b) r := by
  refine safe_op fun rs s hr h => ?_
  obtain ⟨hbusy, hv, hc'⟩ := h.held hr hb hl
  have hk := h.2 i
  rw [hr] at hk
  have hb' : b ∈ s.held i := by rwa [hk.held]
  show wp (bufcacheRelease i b) _ _ s
  unfold bufcacheRelease
  rw [wp_bind, wp_get, if_neg (by simp [hbusy]), wp_set]
  refine ⟨_, h.step (h.1.release hb' hv (hc'.trans hc)) (fun j hj => update_of_ne hj ..) ?_ ⟨?_, ?_, ?_⟩, rfl⟩
  · intro b' j hj hbj
    refine ⟨update_of_ne ?_ .., rfl⟩
    rintro rfl
    exact hj (h.1.holder b' j i hbj hb')
  · show update s.held i ((s.held i).erase b) i = r.held.erase b
    rw [update_self, hk.held]
  · intro b'' hb'' _
    have e : b'' ≠ b := by
      rintro rfl
      have hnd := h.1.nodup i
      rw [hk.held] at hnd
      exact hnd.not_mem_erase hb''
    show (update s.buf b _ b'').valid = true
    rw [update_of_ne e]
    exact hk.valid b'' (mem_of_mem_erase hb'') (by simp [hl])
  · exact fun b'' hb'' => hk.changed b'' (mem_of_mem_erase hb'')

end Ops

/-! ### The functions -/

section Functions

variable {b : Fin NBUF} {i : ι} {r : Local}

theorem safe_bufcacheRead (hl : r.loading = none) (dev sector : UInt32) :
    Code.Safe CacheOp.sem Inv i (bufcacheRead dev sector) (fun b r' => b ∉ r.held ∧ r' = (r.got b).read) r := by
  refine safe_bind (safe_get hl dev sector) ?_
  rintro b _ ⟨hb, rfl⟩
  refine safe_bind (safe_valid rfl) ?_
  rintro v _ rfl
  cases v with
  | true => exact ⟨hb, rfl⟩
  | false =>
    have hmem : b ∈ (r.got b).held := mem_cons_self ..
    have hload : ∀ b', (r.got b).loading = some b' → b' = b := fun b' e => (Option.some.inj e).symm
    have hch : (r.got b).changed b = false := update_self ..
    refine safe_bind (safe_ideRw hmem hload fun _ => hch) ?_
    rintro _ _ rfl
    refine safe_pure ⟨hb, ?_⟩
    simp [Local.got, Local.read, Local.mark]

theorem safe_bufcacheWrite (hb : b ∈ r.held) (hl : r.loading = none) :
    Code.Safe CacheOp.sem Inv i (bufcacheWrite b) (fun _ r' => r' = r.mark b false) r := by
  refine safe_bind (safe_markDirty hb hl) fun _ r' hr' => ?_
  rw [hr']
  have hr : r.read = r := by
    rw [Local.read, ← hl]
  have := safe_ideRw (i := i) hb (fun b' e => absurd (hl.symm.trans e) (by simp)) (fun e => absurd (hl.symm.trans e) (by simp))
  rwa [hr] at this

theorem safe_logWrite (hb : b ∈ r.held) (hl : r.loading = none) :
    Code.Safe CacheOp.sem Inv i (logWrite b) (fun _ r' => r'.loading = none) r := by
  refine safe_bind (safe_logStart b) fun ⟨k, dev, sector⟩ r' hr' => ?_
  rw [hr']
  refine safe_bind (safe_bufcacheRead hl dev sector) ?_
  rintro lbuf _ ⟨hlb, rfl⟩
  have hm : ∀ c, lbuf ∈ ((r.got lbuf).read.mark lbuf c).held := fun _ => mem_cons_self ..
  refine safe_bind (safe_copy (mem_cons_self ..) rfl b) ?_
  rintro _ _ rfl
  refine safe_bind (safe_bufcacheWrite (hm _) rfl) ?_
  rintro _ _ rfl
  refine safe_bind (safe_release (mem_cons_self ..) rfl (update_self ..)) ?_
  rintro _ _ rfl
  have hb' : b ∈ ((((r.got lbuf).read.mark lbuf true).mark lbuf false).drop lbuf).held := by
    show b ∈ (lbuf :: r.held).erase lbuf
    rwa [erase_cons_head]
  refine safe_mono (safe_logEnd hb' rfl k) ?_
  rintro _ _ rfl
  rfl

theorem safe_call {rs : ι → Local} {s : Cache ι} (h : Inv rs s) (hl : (rs i).loading = none) {c : Code CacheOp PUnit}
    (hc : Starts s i c) : Code.Safe CacheOp.sem Inv i c (fun _ r => r.loading = none) (rs i) := by
  obtain ⟨call, hok, rfl⟩ := hc
  have hk := h.2 i
  cases call with
  | read dev sector =>
    refine safe_bind (safe_bufcacheRead hl dev sector) ?_
    rintro b _ ⟨-, rfl⟩
    exact safe_pure rfl
  | write b =>
    have hb : b ∈ (rs i).held := hk.held ▸ hok
    refine safe_mono (safe_bufcacheWrite hb hl) ?_
    rintro _ _ rfl
    exact hl
  | release b =>
    have hb : b ∈ (rs i).held := hk.held ▸ hok.1
    refine safe_mono (safe_release hb hl ((hk.changed b hb).symm.trans hok.2)) ?_
    rintro _ _ rfl
    exact hl
  | logWrite b => exact safe_logWrite (hk.held ▸ hok) hl
  | setData b v =>
    have hb : b ∈ (rs i).held := hk.held ▸ hok
    refine safe_mono (safe_setData hb hl v) ?_
    rintro _ _ rfl
    exact hl
  | setLog l =>
    refine safe_mono (safe_setLog l) ?_
    rintro _ _ rfl
    exact hl

end Functions

/-- The machine after `bufcache_init`. -/
def boot (disk : UInt32 → UInt32 → Block) (havedisk1 : Bool) (log : Log) : Threads ι (Cache ι) CacheOp :=
  ⟨bufcacheInit disk havedisk1 log, fun _ => .ret ⟨⟩⟩

omit [DecidableEq ι] in
theorem cacheOk_init (disk : UInt32 → UInt32 → Block) (havedisk1 : Bool) (log : Log) :
    CacheOk (bufcacheInit disk havedisk1 log : Cache ι) := by
  have hrep : Links.Rep none (⟨none, none, fun _ => none, fun _ => none⟩ : Links (Option (Fin NBUF)))
      (([] : List (Fin NBUF)).map some) := ⟨nodup_nil, by simp, by simp [Links.Adj, Links.succ, Links.pred]⟩
  have hused : ∀ b, ¬ ((bufcacheInit disk havedisk1 log : Cache ι).buf b).Used := by
    rintro b (hb | hb) <;> cases hb
  refine ⟨⟨(List.finRange NBUF).reverse, ?_, reverse_perm _, ?_⟩, fun b _ => ⟨rfl, rfl⟩,
    fun b _ hb => absurd hb (hused b), fun _ h => (by cases h), fun _ h => (by cases h), fun _ h => (by cases h),
    fun b => ⟨fun h => (by cases h), ?_⟩, fun _ _ _ h => absurd h not_mem_nil, fun _ => nodup_nil⟩
  · have := rep_initLinks (List.finRange NBUF) hrep (nodup_finRange NBUF) (by simp)
    rwa [append_nil] at this
  · exact pairwise_of_forall fun _ b hb => absurd hb (hused b)
  · rintro ⟨i, hi⟩
    cases hi

theorem dirty_stays (i : ι) {s : Cache ι} {β : Type} (op : CacheOp β) {b : Fin NBUF} (hb : (s.buf b).dirty = true) :
    wp (CacheOp.sem i β op) (fun _ t => t.IsFor b (s.buf b).dev (s.buf b).sector)
      (fun _ t => t.IsFor b (s.buf b).dev (s.buf b).sector) s := by
  have hset : ∀ (b' : Fin NBUF) (w : Buf), s.IsFor b' w.dev w.sector →
      (update s.buf b' w b).dev = (s.buf b).dev ∧ (update s.buf b' w b).sector = (s.buf b).sector := by
    intro b' w hw
    by_cases e : b = b'
    · subst e
      rw [update_self]
      exact ⟨hw.1.symm, hw.2.symm⟩
    · rw [update_of_ne e]
      exact ⟨rfl, rfl⟩
  cases op with
  | get dev sector =>
    show wp (bufcacheGet i dev sector) _ _ s
    unfold bufcacheGet
    rw [wp_bind, wp_get]
    split
    · split_ifs
      · exact ⟨rfl, rfl⟩
      · exact hset _ _ ⟨rfl, rfl⟩
    · split
      · rename_i b' hfind
        -- the buffer that is recycled is clean
        have hb' : (s.buf b').busy = false ∧ (s.buf b').dirty = false := by simpa using List.find?_some hfind
        have e : b ≠ b' := by
          rintro rfl
          rw [hb] at hb'
          cases hb'.2
        show (update s.buf b' _ b).dev = _ ∧ (update s.buf b' _ b).sector = _
        rw [update_of_ne e]
        exact ⟨rfl, rfl⟩
      · exact ⟨rfl, rfl⟩
  | valid b' => exact ⟨rfl, rfl⟩
  | ideRw b' =>
    show wp (ideRw b') _ _ s
    unfold ideRw
    rw [wp_bind, wp_get]
    dsimp only
    split_ifs
    · exact ⟨rfl, rfl⟩
    · exact hset _ _ ⟨rfl, rfl⟩
    · exact hset _ _ ⟨rfl, rfl⟩
  | markDirty b' =>
    show wp (markDirty b') _ _ s
    unfold markDirty
    rw [wp_bind, wp_get]
    split_ifs
    · exact ⟨rfl, rfl⟩
    · exact hset _ _ ⟨rfl, rfl⟩
  | release b' =>
    show wp (bufcacheRelease i b') _ _ s
    unfold bufcacheRelease
    rw [wp_bind, wp_get]
    split_ifs
    · exact ⟨rfl, rfl⟩
    · exact hset _ _ ⟨rfl, rfl⟩
  | setData b' w => exact hset _ _ ⟨rfl, rfl⟩
  | copy c b' => exact hset _ _ ⟨rfl, rfl⟩
  | logStart b' =>
    show wp (logStart b') _ _ s
    unfold logStart
    rw [wp_bind, wp_get]
    split_ifs
    · exact ⟨rfl, rfl⟩
    · exact ⟨rfl, rfl⟩
  | logEnd b' k => exact hset _ _ ⟨rfl, rfl⟩
  | setLog l => exact ⟨rfl, rfl⟩

/-- However the processes take turns, the list has every buffer once, a sector has at most one buffer, a busy buffer has
exactly one holder, a buffer that has been read and is neither busy nor dirty is as on disk, and a dirty buffer stays a
buffer for its sector. -/
theorem cache_coherent {disk : UInt32 → UInt32 → Block} {havedisk1 : Bool} {log : Log} {T : Threads ι (Cache ι) CacheOp}
    (h : ReflTransGen Step (boot disk havedisk1 log) T) :
    (∃ l : List (Fin NBUF), Links.Rep none T.shared.list (l.map some) ∧ l.Perm (List.finRange NBUF)) ∧
      (∀ b b', (T.shared.buf b).dev ≠ 0xFFFFFFFF →
        T.shared.IsFor b' (T.shared.buf b).dev (T.shared.buf b).sector → b = b') ∧
      (∀ b, (T.shared.buf b).busy = true → ∃! i, b ∈ T.shared.held i) ∧
      (∀ b, (T.shared.buf b).valid = true → (T.shared.buf b).busy = false → (T.shared.buf b).dirty = false →
        (T.shared.buf b).data = T.shared.disk (T.shared.buf b).dev (T.shared.buf b).sector) ∧
      ∀ T' b, Step T T' → (T.shared.buf b).dirty = true →
        T'.shared.IsFor b (T.shared.buf b).dev (T.shared.buf b).sector := by
  have hboot : Inv (fun _ : ι => ⟨[], none, fun _ => false⟩) (bufcacheInit disk havedisk1 log) :=
    ⟨cacheOk_init disk havedisk1 log, fun _ => ⟨rfl, by simp, by simp⟩⟩
  have hl : (⟨[], none, fun _ => false⟩ : Local).loading = none := rfl
  obtain ⟨rs, hInv, -⟩ := Code.Safe.reach (I := Inv) (P := fun _ (r : Local) => r.loading = none)
    (T := boot disk havedisk1 log) (fun rs s i c hI hl hs => safe_call hI hl hs) ⟨_, hboot, fun _ => hl⟩ h
  have hok := hInv.1
  obtain ⟨l, hrep, hperm, -⟩ := hok.list
  refine ⟨⟨l, hrep, hperm⟩, fun b b' hdev hf => ?_, fun b hb => ?_, fun b hv hb hd => ?_, fun T' b hstep hd => ?_⟩
  · have hu : ∀ c, (T.shared.buf c).dev = (T.shared.buf b).dev → (T.shared.buf c).Used := by
      intro c hc
      by_contra hu
      exact hdev (hc.symm.trans (hok.unused c hu).1)
    exact hok.uniq b b' (hu b rfl) (hu b' hf.1) hf
  · obtain ⟨i, hi⟩ := (hok.busy_iff b).mp hb
    exact ⟨i, hi, fun j hj => hok.holder b j i hj hi⟩
  · refine hok.coherent b hv hd ?_
    by_contra hc
    have := hok.changed_busy b (by simpa using hc)
    rw [hb] at this
    cases this
  · cases hstep with
    | act hc hr => exact (wp_iff_run.mp (dirty_stays _ _ hd)).1 _ _ hr
    | stop hc hr => exact (wp_iff_run.mp (dirty_stays _ _ hd)).2 _ _ hr
    | start hc hs => exact ⟨rfl, rfl⟩

def idleLog : Log := ⟨1014, 10, false, 0, fun _ => 0⟩

/-- Two processes want the same sector; the first of them reads it. -/
def twoReaders : Threads (Fin 2) (Cache (Fin 2)) CacheOp :=
  [0, 1, 0, 0, 1].foldl (Threads.turn CacheOp.sem)
    (((boot (fun _ _ _ => 7) true idleLog).give 0 (Call.read 1 5).code).give 1 (Call.read 1 5).code)

theorem cache_coherent_read : (twoReaders.shared.buf 0).busy = true ∧ (twoReaders.shared.buf 0).valid = true ∧
    ∃! i, (0 : Fin NBUF) ∈ twoReaders.shared.held i := by
  have h : ReflTransGen Step (boot (fun _ _ _ => 7) true idleLog) twoReaders :=
    .trans (.tail (.single (.start (i := 0) rfl ⟨.read 1 5, trivial, rfl⟩))
      (.start (i := 1) rfl ⟨.read 1 5, trivial, rfl⟩)) (Threads.reach_turns _ _)
  have hb : (twoReaders.shared.buf 0).busy = true := by decide +kernel
  exact ⟨hb, by decide +kernel, (cache_coherent h).2.2.1 0 hb⟩

end MCertiKOS.FileSystem.SharedCache
