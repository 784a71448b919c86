import MCertiKOS.FileSystem.Bufcache

/-!
# The log

`kern/fs/log.c`: a redo log of whole sectors with one transaction at a time. The
header sector at `log.start` holds the number of logged sectors and their home
sectors; the sectors behind it hold their contents.

`install sector start d n` is what the first `n` entries of a log make of the
disk `d`. The loop of `install_trans` computes it on the disk one sector at a
time, and recovery leaves what the header on disk makes of it (`replay`).
-/

namespace MCertiKOS.FileSystem

open Library
open Function (update update_of_ne update_self)

/-- `lh->n` of a header block. -/
def headN (v : Block) : ℕ := getLE v 0 4

/-- `lh->sector[i]` of a header block. -/
def headSector (v : Block) (i : ℕ) : ℕ := getLE v (4 + 4 * i) 4

/-- A header block after `hb->n = n` and the first `k` rounds of the loop of `write_head`. -/
def putHead (n : ℕ) (sector : ℕ → ℕ) (v : Block) : ℕ → Block
  | 0 => setLE v 0 4 n
  | k + 1 => setLE (putHead n sector v k) (4 + 4 * k) 4 (sector k)

def readHead : StoreM PUnit := do
  let s ← get
  let b ← bufcacheRead s.log.start
  modify fun s =>
    let v := (s.buf b).data
    { s with log := { s.log with
      n := headN v
      sector := fun i => if i < headN v then headSector v i else s.log.sector i } }
  bufcacheRelease b

def writeHead : StoreM PUnit := do
  let s ← get
  let b ← bufcacheRead s.log.start
  let s ← get
  (do setData b (putHead s.log.n s.log.sector (s.buf b).data s.log.n); bufcacheWrite b)
  bufcacheRelease b

/-- One round of `install_trans`. -/
def installOne (tail : ℕ) : StoreM PUnit := do
  let s ← get
  let lbuf ← bufcacheRead (s.log.start + tail + 1)
  let dbuf ← bufcacheRead (s.log.sector tail)
  let s ← get
  (do setData dbuf (s.buf lbuf).data; bufcacheWrite dbuf)
  bufcacheRelease lbuf
  bufcacheRelease dbuf

def installTrans : StoreM PUnit := do
  let s ← get
  loop s.log.n installOne

/-- `log.lh.n = 0`. -/
def clearN : StoreM PUnit := modify fun s => { s with log := { s.log with n := 0 } }

def recoverFromLog : StoreM PUnit := do
  readHead
  installTrans
  clearN
  writeHead

def beginTrans : StoreM PUnit := do
  let s ← get
  if s.log.busy then throw .sleep
  else set { s with log := { s.log with busy := true }, history := [], logged := [] }

def commitTrans : StoreM PUnit := do
  let s ← get
  (if 0 < s.log.n then do
    writeHead
    installTrans
    clearN
    writeHead
  else pure ⟨⟩ : StoreM PUnit)
  modify fun s => { s with log := { s.log with busy := false } }

/-- The search of `log_write`: the first entry for sector `x`, or `n`. -/
def logIndex (l : Log) (x : ℕ) : ℕ := (List.range l.n).findIdx fun i => l.sector i = x

def logWrite (b : Fin NBUF) : StoreM PUnit := do
  let s ← get
  if LOGSIZE ≤ s.log.n ∨ s.log.size - 1 ≤ s.log.n then throw .tooBig
  else if s.log.busy = false then throw .outsideTrans
  else
    match (s.buf b).sector with
    | none => throw .notBusy -- a busy buffer has a sector
    | some x =>
      let i := logIndex s.log x
      set { s with log := { s.log with sector := update s.log.sector i x } }
      let lbuf ← bufcacheRead (s.log.start + i + 1)
      let s ← get
      (do setData lbuf (s.buf b).data; bufcacheWrite lbuf)
      bufcacheRelease lbuf
      modify fun s => { s with log := { s.log with n := if i = s.log.n then s.log.n + 1 else s.log.n } }
      modify fun s => { s.setBuf b { s.buf b with dirty := true } with logged := s.logged ++ [(x, (s.buf b).data)] }

theorem logIndex_le (l : Log) (x : ℕ) : logIndex l x ≤ l.n := by
  have h : logIndex l x ≤ (List.range l.n).length := List.findIdx_le_length
  rwa [List.length_range] at h

variable {l : Log} {x i k start : ℕ} {sector : ℕ → ℕ} {d : Disk}

theorem sector_logIndex (h : logIndex l x < l.n) : l.sector (logIndex l x) = x := by
  have hlt : (List.range l.n).findIdx (fun i => decide (l.sector i = x)) < (List.range l.n).length := by
    rwa [List.length_range]
  have := List.findIdx_getElem (w := hlt)
  rw [List.getElem_range] at this
  exact of_decide_eq_true this

theorem sector_ne_of_logIndex (hi : i < l.n) (h : logIndex l x = l.n) : l.sector i ≠ x := by
  have hlt : i < (List.range l.n).findIdx fun i => decide (l.sector i = x) := by
    rw [← logIndex, h]
    exact hi
  simpa using List.not_of_lt_findIdx hlt

/-- The machine after `bufcache_init` on the disk `d`, with the log's place from the superblock. -/
def Store.boot (d : Disk) (start size : ℕ) : Store where
  disk := d
  history := []
  buf := fun _ => ⟨false, false, false, none, fun _ => 0⟩
  mru := (List.finRange NBUF).reverse
  log := ⟨start, size, false, 0, fun _ => 0⟩
  logged := []

/-! ### Header blocks -/

theorem headN_putHead (n : ℕ) (sector : ℕ → ℕ) (v : Block) (k : ℕ) : headN (putHead n sector v k) = n % 2 ^ 32 := by
  induction k with
  | zero => exact getLE_setLE (by decide) n
  | succ k ih =>
    rw [headN, putHead, getLE_setLE_of_disjoint (by omega)]
    exact ih

theorem headSector_putHead (n : ℕ) (sector : ℕ → ℕ) (v : Block) (hk : k ≤ LOGSIZE) (hi : i < k) :
    headSector (putHead n sector v k) i = sector i % 2 ^ 32 := by
  induction k with
  | zero => omega
  | succ k ih =>
    rw [headSector, putHead]
    by_cases hik : i = k
    · subst hik
      exact getLE_setLE (by unfold LOGSIZE BSIZE at *; omega) _
    · rw [getLE_setLE_of_disjoint (by omega)]
      exact ih (by omega) (by omega)

/-! ### Installing -/

/-- What the first `n` entries of a log make of the disk `d`. -/
def install (sector : ℕ → ℕ) (start : ℕ) (d : Disk) : ℕ → Disk
  | 0 => d
  | k + 1 => update (install sector start d k) (sector k) (d (start + k + 1))

theorem install_of_ne (h : ∀ i < k, sector i ≠ x) :
    install sector start d k x = d x := by
  induction k with
  | zero => rfl
  | succ k ih =>
    rw [install, update_of_ne (h k (Nat.lt_succ_self k)).symm]
    exact ih fun i hi => h i (Nat.lt_succ_of_lt hi)

theorem install_congr {sector' : ℕ → ℕ} {d' : Disk} (hs : ∀ i < k, sector i = sector' i)
    (hl : ∀ i < k, sector i = x → d (start + i + 1) = d' (start + i + 1)) (hx : (∃ i < k, sector i = x) ∨ d x = d' x) :
    install sector start d k x = install sector' start d' k x := by
  induction k with
  | zero =>
    rcases hx with ⟨i, hi, -⟩ | hx
    · omega
    · exact hx
  | succ k ih =>
    rw [install, install, ← hs k (Nat.lt_succ_self k)]
    by_cases hk : x = sector k
    · rw [hk, update_self, update_self, hl k (Nat.lt_succ_self k) hk.symm]
    · rw [update_of_ne hk, update_of_ne hk]
      refine ih (fun i hi => hs i (Nat.lt_succ_of_lt hi)) (fun i hi => hl i (Nat.lt_succ_of_lt hi)) ?_
      refine hx.imp_left fun ⟨i, hi, hix⟩ => ⟨i, ?_, hix⟩
      have : i ≠ k := by
        rintro rfl
        exact hk hix.symm
      omega

theorem install_of_eq (hi : i < k)
    (hinj : ∀ j < k, sector j = sector i → j = i) : install sector start d k (sector i) = d (start + i + 1) := by
  induction k with
  | zero => omega
  | succ k ih =>
    rw [install]
    by_cases hk : sector i = sector k
    · obtain rfl := hinj k (Nat.lt_succ_self k) hk.symm
      rw [update_self]
    · rw [update_of_ne hk]
      refine ih ?_ fun j hj => hinj j (Nat.lt_succ_of_lt hj)
      have : i ≠ k := by
        rintro rfl
        exact hk rfl
      omega

def replay (start : ℕ) (d : Disk) : Disk := install (headSector (d start)) start d (headN (d start))

/-- The log in memory fits, and its homes are outside the log. -/
structure LogOk (l : Log) : Prop where
  pos : 0 < l.size
  le : l.n ≤ LOGSIZE
  lt : l.n < l.size
  home : ∀ i < l.n, ¬ l.Region (l.sector i)
  small : ∀ i < l.n, l.sector i < 2 ^ 32

theorem LogOk.region_start (h : LogOk l) : l.Region l.start := by
  have := h.pos
  unfold Log.Region
  omega

theorem LogOk.region_entry (h : LogOk l) (hi : i < l.n) : l.Region (l.start + i + 1) := by
  have := h.lt
  unfold Log.Region
  omega

theorem LogOk.install_region (h : LogOk l) (hk : k ≤ l.n) (hx : l.Region x) :
    install l.sector l.start d k x = d x := by
  refine install_of_ne fun i hi e => h.home i (lt_of_lt_of_le hi hk) ?_
  rw [e]
  exact hx

end MCertiKOS.FileSystem
