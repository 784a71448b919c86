import MCertiKOS.Library.Hoare
import MCertiKOS.Library.Bytes
import Mathlib.Data.Finset.Card
import Mathlib.Data.Fintype.Basic

/-!
# The buffer cache

`kern/fs/bufcache.c`, and `ide_rw` of `kern/dev/disk/ide.c` as far as the cache
sees it: a sector is read or written at once, as a whole. All buffers are for
the device `ROOTDEV`; a buffer whose `dev` is still `-1` has no sector. Sectors
are numbers, blocks are `BSIZE` bytes.

A process that would sleep on a busy buffer stops here, and so does one that
panics. Two fields of `Store` are not in the source: `history` keeps the disks
the machine has had since the start or the last `begin_trans`, which together
with the present one are what a crash can leave, and `logged` what the
transaction has logged.
-/

namespace MCertiKOS.FileSystem

open Library

abbrev BSIZE : ℕ := 512

abbrev NBUF : ℕ := 10

abbrev LOGSIZE : ℕ := 10

abbrev Block := Fin BSIZE → UInt8

abbrev Disk := ℕ → Block

/-- `struct buf`. -/
structure Buf where
  /-- `B_BUSY`. -/
  busy : Bool
  /-- `B_VALID`. -/
  valid : Bool
  /-- `B_DIRTY`. -/
  dirty : Bool
  /-- `sector`, unless `dev` is `-1`. -/
  sector : Option ℕ
  data : Block

/-- `struct log`, with its `struct logheader`. -/
structure Log where
  start : ℕ
  size : ℕ
  busy : Bool
  /-- `lh.n`. -/
  n : ℕ
  /-- `lh.sector`. -/
  sector : ℕ → ℕ

/-- The disk, the buffer cache and the log. -/
structure Store where
  disk : Disk
  history : List Disk
  /-- `bcache.buf`. -/
  buf : Fin NBUF → Buf
  /-- The list from `bcache.head`, most recently used first. -/
  mru : List (Fin NBUF)
  log : Log
  /-- The sectors logged in the transaction, with their contents, in order. -/
  logged : List (ℕ × Block)

/-- Why a process stops. -/
inductive Stop where
  /-- `thread_sleep`. -/
  | sleep
  /-- `KERN_PANIC("bufcache_get: no buffers")`. -/
  | noBuffers
  /-- `KERN_PANIC("bwrite")`. -/
  | bwrite
  /-- `KERN_PANIC("brelse")`. -/
  | brelse
  /-- `KERN_PANIC("ide_rw: buf not busy")`. -/
  | notBusy
  /-- `KERN_PANIC("ide_rw: nothing to do")`. -/
  | nothingToDo
  /-- `KERN_PANIC("too big a transaction. …")`. -/
  | tooBig
  /-- `KERN_PANIC("write outside of trans")`. -/
  | outsideTrans
  deriving DecidableEq

abbrev StoreM := Prog Store Stop

def Store.setBuf (s : Store) (b : Fin NBUF) (v : Buf) : Store := { s with buf := Function.update s.buf b v }

def Store.writeSector (s : Store) (x : ℕ) (v : Block) : Store :=
  { s with disk := Function.update s.disk x v, history := s.disk :: s.history }

def ideRw (b : Fin NBUF) : StoreM PUnit := do
  let s ← get
  let v := s.buf b
  if v.busy = false then throw .notBusy
  else if v.valid = true ∧ v.dirty = false then throw .nothingToDo
  else
    match v.sector with
    | none => throw .notBusy -- a busy buffer has a sector
    | some x =>
      if v.dirty then set ((s.writeSector x v.data).setBuf b { v with valid := true, dirty := false })
      else set (s.setBuf b { v with data := s.disk x, valid := true })

def bufcacheGet (x : ℕ) : StoreM (Fin NBUF) := do
  let s ← get
  match s.mru.find? fun b => (s.buf b).sector = some x with
  | some b =>
    if (s.buf b).busy then throw .sleep
    else
      set (s.setBuf b { s.buf b with busy := true })
      return b
  | none =>
    -- not cached: recycle some non-busy and clean buffer, the least recently used first
    match s.mru.reverse.find? fun b => (s.buf b).busy = false ∧ (s.buf b).dirty = false with
    | some b =>
      set (s.setBuf b { s.buf b with sector := some x, busy := true, valid := false, dirty := false })
      return b
    | none => throw .noBuffers

def bufcacheRead (x : ℕ) : StoreM (Fin NBUF) := do
  let b ← bufcacheGet x
  let s ← get
  (if (s.buf b).valid = false then ideRw b else pure ⟨⟩ : StoreM PUnit)
  return b

def bufcacheWrite (b : Fin NBUF) : StoreM PUnit := do
  let s ← get
  if (s.buf b).busy = false then throw .bwrite
  else
    set (s.setBuf b { s.buf b with dirty := true })
    ideRw b

def bufcacheRelease (b : Fin NBUF) : StoreM PUnit := do
  let s ← get
  if (s.buf b).busy = false then throw .brelse
  else set { s.setBuf b { s.buf b with busy := false } with mru := b :: s.mru.erase b }

/-- The caller overwrites `b->data`. -/
def setData (b : Fin NBUF) (data : Block) : StoreM PUnit :=
  modify fun s => s.setBuf b { s.buf b with data := data }

/-! ### What the functions do -/

def Log.Region (l : Log) (x : ℕ) : Prop := l.start ≤ x ∧ x < l.start + l.size

/-- The cache is well formed, and it agrees with the disk on the log. Elsewhere a process may have changed a buffer
without writing it. -/
structure CacheInv (s : Store) : Prop where
  all : ∀ b, b ∈ s.mru
  uniq : ∀ b b' x, (s.buf b).sector = some x → (s.buf b').sector = some x → b = b'
  dirty_valid : ∀ b, (s.buf b).dirty = true → (s.buf b).valid = true
  coherent : ∀ b x, s.log.Region x → (s.buf b).sector = some x → (s.buf b).valid = true → (s.buf b).data = s.disk x

/-- The buffers of `B` are busy, and no other buffer is busy or dirty. -/
structure Calm (s : Store) (B : Finset (Fin NBUF)) : Prop where
  busy : ∀ b ∈ B, (s.buf b).busy = true
  free : ∀ b, b ∉ B → (s.buf b).busy = false ∧ (s.buf b).dirty = false

/-- `bufcache_read` has returned `b` for sector `x`. -/
structure Reads (s t : Store) (x : ℕ) (b : Fin NBUF) : Prop where
  inv : CacheInv t
  disk : t.disk = s.disk
  history : t.history = s.history
  log : t.log = s.log
  logged : t.logged = s.logged
  other : ∀ b', b' ≠ b → t.buf b' = s.buf b'
  free : (s.buf b).busy = false
  sector : (t.buf b).sector = some x
  busy : (t.buf b).busy = true
  valid : (t.buf b).valid = true
  dirty : (s.buf b).dirty = false → (t.buf b).dirty = false

@[simp] theorem Store.setBuf_buf (s : Store) (b b' : Fin NBUF) (v : Buf) :
    (s.setBuf b v).buf b' = if b' = b then v else s.buf b' := by
  simp [Store.setBuf, Function.update_apply]

@[simp] theorem Store.setBuf_setBuf (s : Store) (b : Fin NBUF) (v w : Buf) : (s.setBuf b v).setBuf b w = s.setBuf b w := by
  simp [Store.setBuf]

@[simp] theorem Store.setBuf_disk (s : Store) (b : Fin NBUF) (v : Buf) : (s.setBuf b v).disk = s.disk := rfl

variable {s t : Store} {b : Fin NBUF} {calm : Prop} {B : Finset (Fin NBUF)} {x : ℕ}

theorem CacheInv.setBuf (h : CacheInv s) {v : Buf}
    (huniq : ∀ b' x, b' ≠ b → v.sector = some x → (s.buf b').sector ≠ some x) (hdirty : v.dirty = true → v.valid = true)
    (hcoh : ∀ x, s.log.Region x → v.sector = some x → v.valid = true → v.data = s.disk x) : CacheInv (s.setBuf b v) where
  all := h.all
  uniq b1 b2 x h1 h2 := by
    rw [Store.setBuf_buf] at h1 h2
    split_ifs at h1 h2 with e1 e2 e2
    · rw [e1, e2]
    · exact absurd h2 (huniq b2 x e2 h1)
    · exact absurd h1 (huniq b1 x e1 h2)
    · exact h.uniq b1 b2 x h1 h2
  dirty_valid b' hb' := by
    rw [Store.setBuf_buf] at hb' ⊢
    split_ifs at hb' ⊢ with e
    · exact hdirty hb'
    · exact h.dirty_valid b' hb'
  coherent b' x hx hs hv := by
    rw [Store.setBuf_buf] at hs hv ⊢
    split_ifs at hs hv ⊢ with e
    · exact hcoh x hx hs hv
    · exact h.coherent b' x hx hs hv

theorem bufcacheGet_spec (hall : ∀ b, b ∈ s.mru) (x : ℕ)
    (hcalm : calm → (∀ b, (s.buf b).sector = some x → (s.buf b).busy = false) ∧
      ∃ b, (s.buf b).busy = false ∧ (s.buf b).dirty = false) :
    wp (bufcacheGet x) (fun b t => (s.buf b).busy = false ∧
      ((((s.buf b).sector = some x) ∧ t = s.setBuf b { s.buf b with busy := true }) ∨
        ((∀ b', (s.buf b').sector ≠ some x) ∧ (s.buf b).dirty = false ∧
          t = s.setBuf b { s.buf b with sector := some x, busy := true, valid := false, dirty := false })))
      (fun _ t => ¬ calm ∧ t = s) s := by
  unfold bufcacheGet
  rw [wp_bind, wp_get]
  split
  · rename_i b hfind
    have hsec : (s.buf b).sector = some x := by simpa using List.find?_some hfind
    split_ifs with hbusy
    · refine ⟨fun hc => ?_, rfl⟩
      have := (hcalm hc).1 b hsec
      rw [hbusy] at this
      cases this
    · exact ⟨by simpa using hbusy, .inl ⟨hsec, rfl⟩⟩
  · rename_i hnone
    have hno : ∀ b', (s.buf b').sector ≠ some x := fun b' hb' => by
      have := List.find?_eq_none.mp hnone b' (hall b')
      simp [hb'] at this
    split
    · rename_i b hfind
      have hb : (s.buf b).busy = false ∧ (s.buf b).dirty = false := by simpa using List.find?_some hfind
      exact ⟨hb.1, .inr ⟨hno, hb.2, rfl⟩⟩
    · rename_i hnone'
      refine ⟨fun hc => ?_, rfl⟩
      obtain ⟨b, hb⟩ := (hcalm hc).2
      have := List.find?_eq_none.mp hnone' b (by simpa using hall b)
      simp [hb] at this

theorem Calm.spare (h : Calm s B) (hcard : B.card < NBUF)
    (hx : ∀ b ∈ B, (s.buf b).sector ≠ some x) : (∀ b, (s.buf b).sector = some x → (s.buf b).busy = false) ∧
      ∃ b, (s.buf b).busy = false ∧ (s.buf b).dirty = false := by
  refine ⟨fun b hb => (h.free b fun hB => hx b hB hb).1, ?_⟩
  obtain ⟨b, -, hb⟩ : ∃ b ∈ Finset.univ, b ∉ B := Finset.exists_mem_notMem_of_card_lt_card (by simpa using hcard)
  exact ⟨b, h.free b hb⟩

theorem Calm.insert (h : Calm s B) (hb : (t.buf b).busy = true)
    (hother : ∀ b', b' ≠ b → t.buf b' = s.buf b') : Calm t (insert b B) where
  busy b' hb' := by
    by_cases e : b' = b
    · rw [e, hb]
    · rw [hother b' e]
      exact h.busy b' (Finset.mem_of_mem_insert_of_ne hb' e)
  free b' hb' := by
    rw [Finset.mem_insert, not_or] at hb'
    rw [hother b' hb'.1]
    exact h.free b' hb'.2

theorem ideRw_read (hbusy : (s.buf b).busy = true) (hv : (s.buf b).valid = false)
    (hd : (s.buf b).dirty = false) (hx : (s.buf b).sector = some x) :
    wp (ideRw b) (fun _ t => t = s.setBuf b { s.buf b with data := s.disk x, valid := true }) (fun _ _ => False) s := by
  unfold ideRw
  rw [wp_bind, wp_get]
  simp [hbusy, hv, hd, hx]

theorem bufcacheRead_spec (h : CacheInv s) (x : ℕ)
    (hcalm : calm → Calm s B ∧ B.card < NBUF ∧ ∀ b ∈ B, (s.buf b).sector ≠ some x) :
    wp (bufcacheRead x) (fun b t => Reads s t x b ∧ (calm → b ∉ B ∧ Calm t (insert b B)))
      (fun _ t => ¬ calm ∧ t = s) s := by
  have hfin : ∀ b t, Reads s t x b → (calm → b ∉ B) → Reads s t x b ∧ (calm → b ∉ B ∧ Calm t (insert b B)) :=
    fun b t hr hB => ⟨hr, fun hc => ⟨hB hc, (hcalm hc).1.insert hr.busy hr.other⟩⟩
  unfold bufcacheRead
  rw [wp_bind]
  refine wp_mono (bufcacheGet_spec h.all x fun hc => (hcalm hc).1.spare (hcalm hc).2.1 (hcalm hc).2.2) (fun b t hget => ?_)
    (fun _ _ he => he)
  rw [wp_bind, wp_get, wp_bind]
  -- a buffer that is not valid is read
  have hread : ∀ v : Buf, v.busy = true → v.valid = false → v.dirty = false → v.sector = some x →
      (∀ b', b' ≠ b → (s.buf b').sector ≠ some x) → (s.buf b).busy = false → (calm → b ∉ B) →
      wp (ideRw b) (fun _ t => Reads s t x b ∧ (calm → b ∉ B ∧ Calm t (insert b B))) (fun _ t => ¬ calm ∧ t = s)
        (s.setBuf b v) := by
    intro v hvb hvv hvd hvs hno hfree hB
    refine wp_mono (ideRw_read (by simpa using hvb) (by simpa using hvv) (by simpa using hvd) (by simpa using hvs)) ?_
      (fun _ _ => False.elim)
    rintro _ t rfl
    rw [Store.setBuf_setBuf]
    refine hfin b _ ⟨h.setBuf ?_ (by simp) ?_, rfl, rfl, rfl, rfl, fun b' hne => by simp [hne], hfree, by simpa using hvs,
      by simpa using hvb, by simp, fun _ => by simpa using hvd⟩ hB
    · intro b' y hne hy
      obtain rfl : y = x := by simpa [hvs] using hy.symm
      exact hno b' hne
    · intro y _ hy _
      obtain rfl : y = x := by simpa [hvs] using hy.symm
      rfl
  obtain ⟨hfree, hcase⟩ := hget
  have hB : calm → b ∉ B := fun hc hb => by
    have := (hcalm hc).1.busy b hb
    rw [hfree] at this
    cases this
  obtain ⟨hsec, rfl⟩ | ⟨hno, hdirty, rfl⟩ := hcase
  · have hno : ∀ b', b' ≠ b → (s.buf b').sector ≠ some x := fun b' hne hb' => hne (h.uniq b' b x hb' hsec)
    by_cases hv : (s.buf b).valid = true
    · rw [if_neg (by simp [hv])]
      refine hfin b _ ⟨h.setBuf ?_ (fun _ => hv) (h.coherent b), rfl, rfl, rfl, rfl, fun b' hne => by simp [hne], hfree,
        by simpa using hsec, by simp, by simpa using hv, fun hd => by simpa using hd⟩ hB
      exact fun b' y hne hy hb' => hne (h.uniq b' b y hb' hy)
    · have hd : (s.buf b).dirty = false := by simpa using mt (h.dirty_valid b) hv
      rw [if_pos (by simpa using hv)]
      exact hread _ rfl (by simpa using hv) hd hsec hno hfree hB
  · rw [if_pos (by simp)]
    exact hread _ rfl rfl rfl rfl (fun b' _ => hno b') hfree hB

/-- The data of `b`, which is for sector `x`, has been replaced by `v` and written. -/
structure Writes (s t : Store) (b : Fin NBUF) (x : ℕ) (v : Block) : Prop where
  inv : CacheInv t
  disk : t.disk = Function.update s.disk x v
  history : t.history = s.disk :: s.history
  log : t.log = s.log
  logged : t.logged = s.logged
  other : ∀ b', b' ≠ b → t.buf b' = s.buf b'
  buf : t.buf b = { s.buf b with data := v, valid := true, dirty := false }

theorem setData_write_spec (h : CacheInv s) (hbusy : (s.buf b).busy = true)
    (hx : (s.buf b).sector = some x) (v : Block) :
    wp (do setData b v; bufcacheWrite b) (fun _ t => Writes s t b x v) (fun _ _ => False) s := by
  unfold setData bufcacheWrite ideRw
  simp only [wp_bind, wp_modify, wp_get, Store.setBuf_buf, if_true, hbusy, Bool.true_eq_false, if_false, wp_set, hx,
    and_false, Store.setBuf_setBuf, Store.setBuf_disk]
  refine ⟨?_, rfl, rfl, rfl, rfl, fun b' hne => by simp [hne, Store.writeSector, Store.setBuf], by simp [hbusy, hx]⟩
  refine ⟨h.all, fun b1 b2 y h1 h2 => h.uniq b1 b2 y ?_ ?_, fun b' hb' => ?_, fun b' y hy hs hv => ?_⟩
  · by_cases e : b1 = b
    · simpa [e, hx] using h1
    · simpa [e, Store.writeSector, Store.setBuf] using h1
  · by_cases e : b2 = b
    · simpa [e, hx] using h2
    · simpa [e, Store.writeSector, Store.setBuf] using h2
  · by_cases e : b' = b
    · simp [e] at hb'
    · have hd : (s.buf b').dirty = true := by simpa [e, Store.writeSector, Store.setBuf] using hb'
      simpa [e, Store.writeSector, Store.setBuf] using h.dirty_valid b' hd
  · by_cases e : b' = b
    · obtain rfl : x = y := by simpa [e, hx] using hs
      simp [e, Store.writeSector]
    · have hs' : (s.buf b').sector = some y := by simpa [e, Store.writeSector, Store.setBuf] using hs
      have hv' : (s.buf b').valid = true := by simpa [e, Store.writeSector, Store.setBuf] using hv
      have hne : y ≠ x := by
        rintro rfl
        exact e (h.uniq b' b y hs' hx)
      simpa [e, hne, Store.writeSector, Store.setBuf] using h.coherent b' y hy hs' hv'

/-- `b` has been released. -/
structure Releases (s t : Store) (b : Fin NBUF) : Prop where
  inv : CacheInv t
  disk : t.disk = s.disk
  history : t.history = s.history
  log : t.log = s.log
  logged : t.logged = s.logged
  other : ∀ b', b' ≠ b → t.buf b' = s.buf b'
  buf : t.buf b = { s.buf b with busy := false }

theorem bufcacheRelease_spec (h : CacheInv s) (hbusy : (s.buf b).busy = true) :
    wp (bufcacheRelease b) (fun _ t => Releases s t b) (fun _ _ => False) s := by
  unfold bufcacheRelease
  rw [wp_bind, wp_get, if_neg (by simp [hbusy]), wp_set]
  have hs := h.setBuf (b := b) (v := { s.buf b with busy := false })
    (fun b' y hne hy hb' => hne (h.uniq b' b y hb' hy)) (h.dirty_valid b) (h.coherent b)
  refine ⟨⟨fun b' => ?_, hs.uniq, hs.dirty_valid, hs.coherent⟩, rfl, rfl, rfl, rfl, fun b' hne => by simp [hne, Store.setBuf], by simp⟩
  by_cases e : b' = b
  · simp [e]
  · simpa [e] using List.mem_erase_of_ne e |>.mpr (h.all b')

theorem Calm.release (h : Calm s B) (hr : Releases s t b)
    (hd : (s.buf b).dirty = false) : Calm t (B.erase b) where
  busy b' hb' := by
    rw [hr.other b' (Finset.ne_of_mem_erase hb')]
    exact h.busy b' (Finset.mem_of_mem_erase hb')
  free b' hb' := by
    by_cases e : b' = b
    · simp [e, hr.buf, hd]
    · rw [hr.other b' e]
      exact h.free b' fun hm => hb' (Finset.mem_erase.mpr ⟨e, hm⟩)

end MCertiKOS.FileSystem
