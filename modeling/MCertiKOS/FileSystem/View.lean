import MCertiKOS.FileSystem.Syscall
import MCertiKOS.Library.Alone
import Mathlib.Data.Finset.Image

/-!
# The disk behind the buffer cache and the log

To a process that runs alone the buffer cache and the log are a disk: what it logs in sector `x` is what it reads
there afterwards, before and after `commit_trans` (`Store.home`). `Steady` is the invariant behind it. A buffer that
is not dirty is as on disk; a dirty one is logged, and the log has a copy of it. A buffer that a process has changed
and not logged yet is an exception (`w`).

`Shows` puts together what a function of the file system sees of the store, with one rule for each way in which it
uses it: `bufcache_read`, a change of a buffer with `log_write`, `bufcache_release`, `begin_trans` and
`commit_trans`.
-/

namespace MCertiKOS.FileSystem

open Library List
open Function (update update_apply update_eq_self update_of_ne update_self)

/-- What a process reads in sector `x`. -/
def Store.view (s : Store) (x : ℕ) : Block :=
  match (List.finRange NBUF).find? fun b => (s.buf b).sector = some x ∧ (s.buf b).valid = true with
  | some b => (s.buf b).data
  | none => s.disk x

/-- What it reads in the sectors below `lim`. -/
def Store.home (lim : ℕ) (s : Store) : Disk := fun x => if x < lim then s.view x else fun _ => 0

/-- The data of buffer `b`, which is for sector `x`, is replaced by `v` and written. -/
def Store.flush (s : Store) (b : Fin NBUF) (x : ℕ) (v : Block) : Store :=
  (s.writeSector x v).setBuf b { s.buf b with data := v, valid := true, dirty := false }

/-- Buffer `b` is released. -/
def Store.release (s : Store) (b : Fin NBUF) : Store :=
  { s.setBuf b { s.buf b with busy := false } with mru := b :: s.mru.erase b }

/-- `log_write` has entry `i` for sector `x`, and its buffer `b` is dirty. -/
def Store.logEnd (s : Store) (b : Fin NBUF) (i x : ℕ) : Store :=
  { s.setBuf b { s.buf b with dirty := true } with
    log := { s.log with n := if i = s.log.n then s.log.n + 1 else s.log.n }
    logged := s.logged ++ [(x, (s.buf b).data)] }

def Log.homes (l : Log) : Finset ℕ := (Finset.range l.n).image l.sector

/-- The store of a process that has the buffers `H`, with their sectors, and is changing buffer `w`. -/
structure Steady (lim : ℕ) (w : Option (Fin NBUF)) (H : List (Fin NBUF × ℕ)) (s : Store) : Prop where
  all : ∀ b, b ∈ s.mru
  uniq : ∀ b b' x, (s.buf b).sector = some x → (s.buf b').sector = some x → b = b'
  nodup : (H.map Prod.fst).Nodup
  busy : ∀ b, (s.buf b).busy = true ↔ b ∈ H.map Prod.fst
  held : ∀ p ∈ H, (s.buf p.1).sector = some p.2 ∧ (s.buf p.1).valid = true
  writing : ∀ b, w = some b → b ∈ H.map Prod.fst
  clean : ∀ b x, w ≠ some b → (s.buf b).sector = some x → (s.buf b).valid = true → (s.buf b).dirty = false →
    (s.buf b).data = s.disk x
  dirty : ∀ b, (s.buf b).dirty = true → (s.buf b).valid = true ∧ ∃ i < s.log.n, (s.buf b).sector = some (s.log.sector i)
  place : s.log.size = 0 ∨ s.log.start = lim
  room : s.log.n = 0 ∨ s.log.n < s.log.size
  idle : s.log.busy = false → s.log.n = 0
  home : ∀ i < s.log.n, s.log.sector i < lim
  inj : ∀ i < s.log.n, ∀ j < s.log.n, s.log.sector i = s.log.sector j → i = j
  mirror : ∀ i < s.log.n, (∀ b, w = some b → (s.buf b).sector ≠ some (s.log.sector i)) →
    s.disk (lim + i + 1) = s.view (s.log.sector i)

section

variable {lim : ℕ} {w : Option (Fin NBUF)} {H : List (Fin NBUF × ℕ)} {s t : Store} {b : Fin NBUF} {x : ℕ}

variable {b' : Fin NBUF}

theorem Store.apply_buf {γ : Type} {v : Buf} (hbuf : ∀ b', t.buf b' = if b' = b then v else s.buf b') (φ : Buf → γ)
    (hv : φ v = φ (s.buf b)) (b' : Fin NBUF) : φ (t.buf b') = φ (s.buf b') := by
  rw [hbuf]
  split_ifs with e
  · rw [e, hv]
  · rfl

theorem Store.flush_buf_of_ne {v : Block} (h : b' ≠ b) : (s.flush b x v).buf b' = s.buf b' := by
  rw [Store.flush, Store.setBuf_buf, if_neg h]
  rfl

theorem Store.release_buf_of_ne (h : b' ≠ b) : (s.release b).buf b' = s.buf b' :=
  (s.setBuf_buf b b' _).trans (if_neg h)

theorem Store.view_of_buf (huniq : ∀ b b' x, (s.buf b).sector = some x → (s.buf b').sector = some x → b = b')
    (hx : (s.buf b).sector = some x) (hv : (s.buf b).valid = true) : s.view x = (s.buf b).data := by
  unfold Store.view
  cases hf : (List.finRange NBUF).find? fun b => (s.buf b).sector = some x ∧ (s.buf b).valid = true with
  | none =>
    have := List.find?_eq_none.mp hf b (mem_finRange b)
    simp [hx, hv] at this
  | some b' =>
    have hb' : (s.buf b').sector = some x ∧ (s.buf b').valid = true := by simpa using List.find?_some hf
    rw [huniq b' b x hb'.1 hx]

theorem Store.view_of_none (h : ∀ b, (s.buf b).sector = some x → (s.buf b).valid = false) : s.view x = s.disk x := by
  unfold Store.view
  cases hf : (List.finRange NBUF).find? fun b => (s.buf b).sector = some x ∧ (s.buf b).valid = true with
  | none => rfl
  | some b =>
    have hb : (s.buf b).sector = some x ∧ (s.buf b).valid = true := by simpa using List.find?_some hf
    rw [h b hb.1] at hb
    cases hb.2

theorem Store.view_congr (hd : t.disk x = s.disk x)
    (hb : ∀ b, ((t.buf b).sector = some x ∧ (t.buf b).valid = true) = ((s.buf b).sector = some x ∧ (s.buf b).valid = true))
    (hdata : ∀ b, (s.buf b).sector = some x → (t.buf b).data = (s.buf b).data) : t.view x = s.view x := by
  unfold Store.view
  simp only [hb]
  cases hf : (List.finRange NBUF).find? fun b => (s.buf b).sector = some x ∧ (s.buf b).valid = true with
  | none => exact hd
  | some b =>
    have hb : (s.buf b).sector = some x ∧ (s.buf b).valid = true := by simpa using List.find?_some hf
    exact hdata b hb.1

namespace Steady

section

variable (h : Steady lim w H s)
include h

theorem view_of_mem (hb : (b, x) ∈ H) : s.view x = (s.buf b).data :=
  Store.view_of_buf h.uniq (h.held _ hb).1 (h.held _ hb).2

theorem view_of_clean (hx : ∀ b, (s.buf b).sector = some x → w ≠ some b ∧ (s.buf b).dirty = false) :
    s.view x = s.disk x := by
  by_cases hv : ∃ b, (s.buf b).sector = some x ∧ (s.buf b).valid = true
  · obtain ⟨b, hb, hvalid⟩ := hv
    rw [Store.view_of_buf h.uniq hb hvalid]
    exact h.clean b x (hx b hb).1 hb hvalid (hx b hb).2
  · push Not at hv
    exact Store.view_of_none fun b hb => by simpa using hv b hb

theorem busy_of_mem (hb : (b, x) ∈ H) : (s.buf b).busy = true :=
  (h.busy b).mpr (mem_map.mpr ⟨_, hb, rfl⟩)

theorem clean_of_le (hb : (s.buf b).sector = some x) (hx : lim ≤ x) : (s.buf b).dirty = false := by
  by_contra hd
  obtain ⟨-, i, hi, hs⟩ := h.dirty b (by simpa using hd)
  have := h.home i hi
  rw [hb] at hs
  cases hs
  omega

theorem take (hfree : (s.buf b).busy = false) {v : Buf} (hvb : v.busy = true) (hvv : v.valid = true)
    (hvs : v.sector = some x) (hvdata : v.data = s.view x) (hother : ∀ b', b' ≠ b → (s.buf b').sector ≠ some x)
    (hold : ((s.buf b).sector = some x ∧ v.dirty = (s.buf b).dirty) ∨ ((s.buf b).dirty = false ∧ v.dirty = false)) :
    Steady lim w ((b, x) :: H) (s.setBuf b v) ∧ (s.setBuf b v).view = s.view := by
  have hbH : b ∉ H.map Prod.fst := fun hm => by
    have := (h.busy b).mpr hm
    rw [hfree] at this
    cases this
  have hbw : w ≠ some b := fun e => hbH (h.writing b e)
  have hbuf : ∀ b', (s.setBuf b v).buf b' = if b' = b then v else s.buf b' := fun b' => s.setBuf_buf b b' v
  have huniq : ∀ b1 b2 y, ((s.setBuf b v).buf b1).sector = some y → ((s.setBuf b v).buf b2).sector = some y → b1 = b2 := by
    intro b1 b2 y h1 h2
    rw [hbuf] at h1 h2
    split_ifs at h1 h2 with e1 e2 e2
    · rw [e1, e2]
    · obtain rfl : x = y := by simpa [hvs] using h1
      exact absurd h2 (hother b2 e2)
    · obtain rfl : x = y := by simpa [hvs] using h2
      exact absurd h1 (hother b1 e1)
    · exact h.uniq b1 b2 y h1 h2
  -- the sector that the buffer had before is as on disk, or the same
  have hview : (s.setBuf b v).view = s.view := by
    funext y
    by_cases hy : y = x
    · subst hy
      rw [Store.view_of_buf huniq (by rw [hbuf, if_pos rfl]; exact hvs) (by rw [hbuf, if_pos rfl]; exact hvv), hbuf, if_pos rfl]
      exact hvdata
    · by_cases hby : (s.buf b).sector = some y
      · have hne : (s.buf b).sector ≠ some x := by
          rw [hby]
          simpa using hy
        have hclean : (s.buf b).dirty = false := hold.elim (fun hh => absurd hh.1 hne) And.left
        rw [h.view_of_clean fun b' hb' => by rw [h.uniq b' b y hb' hby]; exact ⟨hbw, hclean⟩]
        refine Store.view_of_none fun b' hb' => ?_
        rw [hbuf] at hb' ⊢
        split_ifs at hb' ⊢ with e
        · rw [hvs] at hb'
          exact absurd (Option.some.inj hb').symm hy
        · exact absurd (h.uniq b' b y hb' hby) e
      · refine Store.view_congr rfl (fun b' => ?_) fun b' hb' => ?_
        · rw [hbuf]
          split_ifs with e
          · rw [e]
            simp [hby, hvs, Ne.symm hy]
          · rfl
        · rw [hbuf, if_neg]
          rintro rfl
          exact hby hb'
  refine ⟨⟨h.all, huniq, ?_, fun b' => ?_, fun p hp => ?_, fun b' hb' => ?_, fun b' y hw hs hv hd => ?_, fun b' hd => ?_,
    h.place, h.room, h.idle, h.home, h.inj, fun i hi hw => ?_⟩, hview⟩
  · rw [map_cons, nodup_cons]
    exact ⟨hbH, h.nodup⟩
  · rw [hbuf, map_cons, mem_cons]
    split_ifs with e
    · simp [e, hvb]
    · simpa [e] using h.busy b'
  · rw [hbuf]
    rcases mem_cons.mp hp with rfl | hp
    · rw [if_pos rfl]
      exact ⟨hvs, hvv⟩
    · rw [if_neg fun e : p.1 = b => hbH (e ▸ mem_map_of_mem hp)]
      exact h.held p hp
  · rw [map_cons]
    exact mem_cons_of_mem _ (h.writing b' hb')
  · rw [hbuf] at hs hv hd ⊢
    split_ifs at hs hv hd ⊢ with e
    · obtain rfl : x = y := by simpa [hvs] using hs
      rw [hvdata]
      refine h.view_of_clean fun b'' hb'' => ?_
      by_cases e' : b'' = b
      · rw [e']
        exact ⟨hbw, hold.elim (fun hh => hh.2.symm.trans hd) And.left⟩
      · exact absurd hb'' (hother b'' e')
    · exact h.clean b' y hw hs hv hd
  · rw [hbuf] at hd ⊢
    split_ifs at hd ⊢ with e
    · rcases hold with ⟨hb, hh⟩ | ⟨-, hh⟩
      · rw [hvs, ← hb]
        exact ⟨hvv, (h.dirty b (hh.symm.trans hd)).2⟩
      · rw [hh] at hd
        cases hd
    · exact h.dirty b' hd
  · rw [hview]
    refine h.mirror i hi fun b' hb' => ?_
    have := hw b' hb'
    rwa [hbuf, if_neg (fun e : b' = b => hbw (e ▸ hb'))] at this

omit h in
theorem release (h : Steady lim w ((b, x) :: H) s) (hw : w ≠ some b) :
    Steady lim w H (s.release b) ∧ (s.release b).view = s.view := by
  set t := s.release b with ht
  have hbuf : ∀ b', t.buf b' = if b' = b then { s.buf b with busy := false } else s.buf b' := fun b' => s.setBuf_buf b b' _
  have hsect := Store.apply_buf hbuf (·.sector) rfl
  have hval := Store.apply_buf hbuf (·.valid) rfl
  have hdirty := Store.apply_buf hbuf (·.dirty) rfl
  have hdata := Store.apply_buf hbuf (·.data) rfl
  have hview : t.view = s.view := funext fun y => Store.view_congr rfl (fun b' => by rw [hsect b', hval b'])
    fun b' _ => hdata b'
  have hnodup := h.nodup
  rw [map_cons, nodup_cons] at hnodup
  refine ⟨⟨fun b' => ?_, fun b1 b2 y => ?_, hnodup.2, fun b' => ?_, fun p hp => ?_, fun b' hb' => ?_, fun b' y hw' => ?_,
    fun b' => ?_, h.place, h.room, h.idle, h.home, h.inj, fun i hi hw' => ?_⟩, hview⟩
  · by_cases e : b' = b
    · simp [ht, e, Store.release]
    · simpa [ht, e, Store.release] using mem_erase_of_ne e |>.mpr (h.all b')
  · rw [hsect b1, hsect b2]
    exact h.uniq b1 b2 y
  · have hb := h.busy b'
    rw [hbuf]
    split_ifs with e
    · subst e
      simpa using hnodup.1
    · simpa [e] using hb
  · rw [hsect p.1, hval p.1]
    exact h.held p (mem_cons_of_mem _ hp)
  · have := h.writing b' hb'
    rw [map_cons, mem_cons] at this
    exact this.resolve_left fun e : b' = b => hw (e ▸ hb')
  · rw [hsect b', hval b', hdirty b', hdata b']
    exact h.clean b' y hw'
  · rw [hsect b', hval b', hdirty b']
    exact h.dirty b'
  · rw [hview]
    refine h.mirror i hi fun b' hb' => ?_
    rw [← hsect b']
    exact hw' b' hb'

theorem view_setData (hb : (b, x) ∈ H) {t : Store} {v : Block}
    (hdisk : ∀ y, y ≠ x → t.disk y = s.disk y)
    (hself : (t.buf b).sector = (s.buf b).sector ∧ (t.buf b).valid = (s.buf b).valid ∧ (t.buf b).data = v)
    (hother : ∀ b', b' ≠ b → t.buf b' = s.buf b') : t.view = update s.view x v := by
  have hsame : ∀ b', (t.buf b').sector = (s.buf b').sector ∧ (t.buf b').valid = (s.buf b').valid := by
    intro b'
    by_cases e : b' = b
    · rw [e]
      exact ⟨hself.1, hself.2.1⟩
    · rw [hother b' e]
      exact ⟨rfl, rfl⟩
  obtain ⟨hs, hv⟩ := h.held _ hb
  funext y
  by_cases hy : y = x
  · subst hy
    have huniq : ∀ b b' x, (t.buf b).sector = some x → (t.buf b').sector = some x → b = b' := fun b1 b2 z => by
      rw [(hsame b1).1, (hsame b2).1]
      exact h.uniq b1 b2 z
    rw [update_self, Store.view_of_buf huniq (hself.1.trans hs) (hself.2.1.trans hv), hself.2.2]
  · rw [update_of_ne hy]
    refine Store.view_congr (hdisk y hy) (fun b' => by rw [(hsame b').1, (hsame b').2]) fun b' hb' => ?_
    rw [hother b']
    rintro rfl
    rw [hs] at hb'
    exact hy (Option.some.inj hb').symm

omit h in
theorem setData (h : Steady lim none H s) (hb : (b, x) ∈ H) (v : Block) :
    Steady lim (some b) H (s.setBuf b { s.buf b with data := v }) ∧
      (s.setBuf b { s.buf b with data := v }).view = update s.view x v := by
  set t := s.setBuf b { s.buf b with data := v }
  have hbuf : ∀ b', t.buf b' = if b' = b then { s.buf b with data := v } else s.buf b' := fun b' => s.setBuf_buf b b' _
  have hsect := Store.apply_buf hbuf (·.sector) rfl
  have hval := Store.apply_buf hbuf (·.valid) rfl
  have hdirty := Store.apply_buf hbuf (·.dirty) rfl
  have hbusy' := Store.apply_buf hbuf (·.busy) rfl
  have hview : t.view = update s.view x v :=
    h.view_setData hb (fun _ _ => rfl) ⟨hsect b, hval b, by rw [hbuf, if_pos rfl]⟩ fun b' e => by rw [hbuf, if_neg e]
  refine ⟨⟨h.all, fun b1 b2 y => ?_, h.nodup, fun b' => ?_, fun p hp => ?_, fun b' hb' => ?_, fun b' y hw => ?_,
    fun b' => ?_, h.place, h.room, h.idle, h.home, h.inj, fun i hi hw => ?_⟩, hview⟩
  · rw [hsect b1, hsect b2]
    exact h.uniq b1 b2 y
  · rw [hbusy' b']
    exact h.busy b'
  · rw [hsect p.1, hval p.1]
    exact h.held p hp
  · rw [← Option.some.inj hb']
    exact mem_map.mpr ⟨_, hb, rfl⟩
  · have e : b' ≠ b := fun e => hw (congrArg some e.symm)
    rw [hbuf, if_neg e]
    exact h.clean b' y nofun
  · rw [hsect b', hval b', hdirty b']
    exact h.dirty b'
  · have hx : s.log.sector i ≠ x := fun e => hw b rfl (by rw [hsect b, (h.held _ hb).1]; exact congrArg some e.symm)
    show t.disk (lim + i + 1) = t.view (s.log.sector i)
    rw [hview, update_of_ne hx]
    exact h.mirror i hi nofun

theorem write (hb : (b, x) ∈ H) (hw : w ≠ some b) (v : Block)
    (hv : lim ≤ x ∧ (∀ i < s.log.n, lim + i + 1 = x → (∀ b', w = some b' → (s.buf b').sector ≠ some (s.log.sector i)) →
      s.view (s.log.sector i) = v) ∨ x < lim ∧ v = s.view x) :
    Steady lim w H (s.flush b x v) ∧ (s.flush b x v).view = update s.view x v := by
  set t := s.flush b x v
  have hbuf : ∀ b', t.buf b' = if b' = b then { s.buf b with data := v, valid := true, dirty := false } else s.buf b' :=
    fun b' => (s.writeSector x v).setBuf_buf b b' _
  have hdisk : ∀ y, t.disk y = if y = x then v else s.disk y := fun y => by
    show update s.disk x v y = _
    rw [update_apply]
  obtain ⟨hs, hvalid⟩ := h.held _ hb
  have hsame : ∀ b', (t.buf b').sector = (s.buf b').sector ∧ (t.buf b').valid = (s.buf b').valid ∧
      (t.buf b').busy = (s.buf b').busy := by
    intro b'
    rw [hbuf]
    split_ifs with e
    · rw [e]
      exact ⟨rfl, hvalid.symm, rfl⟩
    · exact ⟨rfl, rfl, rfl⟩
  have hview : t.view = update s.view x v :=
    h.view_setData hb (fun y hy => by rw [hdisk, if_neg hy]) ⟨(hsame b).1, (hsame b).2.1, by rw [hbuf, if_pos rfl]⟩
      fun b' e => by rw [hbuf, if_neg e]
  refine ⟨⟨h.all, fun b1 b2 y => ?_, h.nodup, fun b' => ?_, fun p hp => ?_, h.writing, fun b' y hw' hs' hv' hd => ?_,
    fun b' hd => ?_, h.place, h.room, h.idle, h.home, h.inj, fun i hi hw' => ?_⟩, hview⟩
  · rw [(hsame b1).1, (hsame b2).1]
    exact h.uniq b1 b2 y
  · rw [(hsame b').2.2]
    exact h.busy b'
  · rw [(hsame p.1).1, (hsame p.1).2.1]
    exact h.held p hp
  · rw [(hsame b').1] at hs'
    rw [hdisk]
    by_cases e : b' = b
    · subst e
      rw [hs] at hs'
      rw [hbuf, if_pos rfl, if_pos (Option.some.inj hs').symm]
    · rw [if_neg fun hy : y = x => e (h.uniq b' b x (hy ▸ hs') hs)]
      rw [hbuf, if_neg e] at hv' hd ⊢
      exact h.clean b' y hw' hs' hv' hd
  · rw [hbuf] at hd ⊢
    split_ifs at hd ⊢ with e
    exact h.dirty b' hd
  · have hw'' : ∀ b', w = some b' → (s.buf b').sector ≠ some (s.log.sector i) := fun b' hb' => by
      rw [← (hsame b').1]
      exact hw' b' hb'
    show t.disk (lim + i + 1) = t.view (s.log.sector i)
    have hhome := h.home i hi
    rw [hview, hdisk]
    rcases hv with ⟨hle, hv⟩ | ⟨hlt, hv⟩
    · rw [update_of_ne (by omega)]
      split_ifs with e
      · exact (hv i hi e hw'').symm
      · exact h.mirror i hi hw''
    · rw [if_neg (by omega), hv, update_eq_self]
      exact h.mirror i hi hw''

theorem perm {H' : List (Fin NBUF × ℕ)} (hp : H.Perm H') : Steady lim w H' s :=
  ⟨h.all, h.uniq, (hp.map _).nodup_iff.mp h.nodup, fun b => (h.busy b).trans (hp.map _).mem_iff,
    fun p hp' => h.held p (hp.mem_iff.mpr hp'), fun b hb => (hp.map _).mem_iff.mp (h.writing b hb), h.clean, h.dirty, h.place,
    h.room, h.idle, h.home, h.inj, h.mirror⟩

theorem setLog {l : Log} (hn : l.n = s.log.n ∨ l.n = 0 ∧ ∀ b, (s.buf b).dirty = false)
    (hsec : ∀ i < l.n, l.sector i = s.log.sector i) (hplace : l.size = 0 ∨ l.start = lim) (hroom : l.n = 0 ∨ l.n < l.size)
    (hidle : l.busy = false → l.n = 0) (ds : List Disk) (lg : List (ℕ × Block)) :
    Steady lim w H { s with log := l, history := ds, logged := lg } := by
  have hle : ∀ i < l.n, i < s.log.n := fun i hi => by
    rcases hn with hn | ⟨hn, -⟩ <;> omega
  refine ⟨h.all, h.uniq, h.nodup, h.busy, h.held, h.writing, h.clean, fun b hd => ⟨(h.dirty b hd).1, ?_⟩, hplace, hroom,
    hidle, fun i hi => ?_, fun i hi j hj e => ?_, fun i hi hw => ?_⟩
  · rcases hn with hn | ⟨-, hn⟩
    · obtain ⟨i, hi, hs⟩ := (h.dirty b hd).2
      refine ⟨i, hn ▸ hi, ?_⟩
      rw [hsec i (hn ▸ hi)]
      exact hs
    · exact absurd hd (by rw [hn b]; decide)
  · rw [hsec i hi]
    exact h.home i (hle i hi)
  · rw [hsec i hi, hsec j hj] at e
    exact h.inj i (hle i hi) j (hle j hj) e
  · rw [hsec i hi] at hw ⊢
    exact h.mirror i (hle i hi) hw

theorem logStart (x : ℕ) : Steady lim w H
    { s with log := { s.log with sector := update s.log.sector (logIndex s.log x) x } } := by
  refine h.setLog (l := { s.log with sector := update s.log.sector (logIndex s.log x) x }) (.inl rfl) (fun i hi => ?_)
    h.place h.room h.idle s.history s.logged
  by_cases e : i = logIndex s.log x
  · subst e
    rw [sector_logIndex hi]
    exact update_self ..
  · exact update_of_ne e ..

end

theorem logEnd (h : Steady lim (some b) H s) (hb : (b, x) ∈ H) (hx : x < lim) {i : ℕ} (hi : i ≤ s.log.n)
    (hsec : s.log.sector i = x) (hnew : i = s.log.n → ∀ j < s.log.n, s.log.sector j ≠ x) (hroom : s.log.n + 1 < s.log.size)
    (hbusy : s.log.busy = true) (hdisk : s.disk (lim + i + 1) = (s.buf b).data) :
    Steady lim none H (s.logEnd b i x) ∧ (s.logEnd b i x).view = s.view := by
  set t := s.logEnd b i x
  have hbuf : ∀ b', t.buf b' = if b' = b then { s.buf b with dirty := true } else s.buf b' := fun b' => s.setBuf_buf b b' _
  have hsect := Store.apply_buf hbuf (·.sector) rfl
  have hval := Store.apply_buf hbuf (·.valid) rfl
  have hbusy' := Store.apply_buf hbuf (·.busy) rfl
  have hdata := Store.apply_buf hbuf (·.data) rfl
  have hview : t.view = s.view := funext fun y => Store.view_congr rfl (fun b' => by rw [hsect b', hval b'])
    fun b' _ => hdata b'
  obtain ⟨hs, hv⟩ := h.held _ hb
  have hn : t.log.n = if i = s.log.n then s.log.n + 1 else s.log.n := rfl
  have hin : i < t.log.n := by
    rw [hn]
    split_ifs with e <;> omega
  -- an entry is an old one or that of `x`
  have hcase : ∀ j < t.log.n, j < s.log.n ∨ j = i := fun j hj => by
    rw [hn] at hj
    split_ifs at hj with e <;> omega
  refine ⟨⟨h.all, fun b1 b2 y => ?_, h.nodup, fun b' => ?_, fun p hp => ?_, nofun, fun b' y _ => ?_, fun b' hd => ?_,
    h.place, .inr ?_, fun hf => ?_, fun j hj => ?_, fun j hj k hk e => ?_, fun j hj _ => ?_⟩, hview⟩
  · rw [hsect b1, hsect b2]
    exact h.uniq b1 b2 y
  · rw [hbusy' b']
    exact h.busy b'
  · rw [hsect p.1, hval p.1]
    exact h.held p hp
  · rw [hbuf]
    split_ifs with e
    · exact fun _ _ hd => nomatch hd
    · exact h.clean b' y fun e' => e (Option.some.inj e').symm
  · rw [hsect b', hval b']
    by_cases e : b' = b
    · rw [e]
      exact ⟨hv, i, hin, hs.trans (congrArg some hsec.symm)⟩
    · rw [hbuf, if_neg e] at hd
      obtain ⟨hv', j, hj, hj'⟩ := h.dirty b' hd
      refine ⟨hv', j, ?_, hj'⟩
      rw [hn]
      split_ifs <;> omega
  · rw [hn]
    show _ < s.log.size
    split_ifs <;> omega
  · exact absurd hf (by rw [show t.log.busy = s.log.busy from rfl, hbusy]; decide)
  · rcases hcase j hj with hj | rfl
    · exact h.home j hj
    · exact hsec ▸ hx
  · have hne : ∀ j < s.log.n, s.log.sector j = s.log.sector i → j = i := fun j hj e => by
      by_cases hi' : i = s.log.n
      · exact absurd (e.trans hsec) (hnew hi' j hj)
      · exact h.inj j hj i (by omega) e
    rcases hcase j hj with hj | hj <;> rcases hcase k hk with hk | hk
    · exact h.inj j hj k hk e
    · exact (hne j hj (hk ▸ e)).trans hk.symm
    · exact hj.trans (hne k hk (hj ▸ e.symm)).symm
    · exact hj.trans hk.symm
  · show s.disk (lim + j + 1) = t.view (s.log.sector j)
    rw [hview]
    by_cases hjx : s.log.sector j = x
    · have hji : j = i := by
        rcases hcase j hj with hj | rfl
        · by_cases hi' : i = s.log.n
          · exact absurd hjx (hnew hi' j hj)
          · exact h.inj j hj i (by omega) (hjx.trans hsec.symm)
        · rfl
      rw [hji, hdisk, hsec, h.view_of_mem hb]
    · have hjn : j < s.log.n := (hcase j hj).resolve_right fun e => hjx (e ▸ hsec)
      refine h.mirror j hjn fun b' hb' => ?_
      rw [← Option.some.inj hb', hs]
      exact fun e => hjx (Option.some.inj e).symm

end Steady

end

namespace Fs

/-! ### What a function of the file system sees -/

/-- What is assumed of a run and shown of it. -/
structure Mode where
  lim : ℕ
  tracked : Prop
  /-- `block_alloc` is not called. -/
  quiet : Prop
  total : Prop
  tracked_of_total : total → tracked

/-- `block_alloc` finds blocks below the log, which is shown where nothing is to stop and assumed elsewhere, if it is called at all.
A transaction fits the log when it is counted. -/
def Mode.guard (M : Mode) (pid : ℕ) : Guard FS FsStop FsOp where
  sem := sem pid
  cond _ _ o := match o with
    | .took x => M.total ∨ M.quiet ∨ x < M.lim
    | _ => True
  ok s _ o := match o with
    | .logStart _ => M.tracked → s.store.log.busy = true → s.store.log.n < LOGSIZE ∧ s.store.log.n < s.store.log.size - 1
    | .allocating => ¬ M.quiet
    | _ => True
  stop _ _ := ¬ M.total

/-- The store of a process that has the buffers `H` and sees the disk `D`; a transaction is active if `u`, and it may log the
sectors of `K`. -/
structure Shows (M : Mode) (u : Bool) (K : Finset ℕ) (H : List (Fin NBUF × ℕ)) (D : Disk) (s : Store) : Prop where
  steady : Steady M.lim none H s
  home : s.home M.lim = D
  busy : s.log.busy = u
  head : headN (s.disk M.lim) = 0
  large : M.tracked → u = true → LOGSIZE ≤ s.log.size
  logged : M.tracked → s.log.homes ⊆ K
  small : M.tracked → K.card ≤ LOGSIZE - 2

/-- The store of `t` has changed since `s`, and nothing else. -/
structure Rest (s t : FS) : Prop where
  inode : t.inode = s.inode
  procs : t.procs = s.procs
  cwd : t.cwd = s.cwd
  first : t.first = s.first
  dead : t.dead = s.dead

/-- `Shows`, in a state that differs from `s` in the store only. -/
structure Sees (M : Mode) (u : Bool) (K : Finset ℕ) (H : List (Fin NBUF × ℕ)) (D : Disk) (s t : FS) : Prop where
  rest : Rest s t
  size : t.store.log.size = s.store.log.size
  shows : Shows M u K H D t.store

section

variable {M : Mode} {pid : ℕ} {u : Bool} {K : Finset ℕ} {H : List (Fin NBUF × ℕ)} {D : Disk} {s t : FS} {α β : Type}
  {b : Fin NBUF} {x : ℕ} {w : Option (Fin NBUF)} {K' : Finset ℕ} {H' : List (Fin NBUF × ℕ)} {D' : Disk}

theorem Rest.refl (s : FS) : Rest s s := ⟨rfl, rfl, rfl, rfl, rfl⟩

variable {k : Code FsOp α} {Q : α → FS → Prop} {σ τ : Store} {lim : ℕ}

theorem runs_store {o : FsOp β} {m : StoreM β} {k : β → Code FsOp α} (hsem : sem pid β o = onStore m)
    (hok : (M.guard pid).ok t β o)
    (h : wp m (fun b σ => (M.guard pid).Runs (k b) Q { t with store := σ }) (fun _ _ => ¬ M.total) t.store) :
    (M.guard pid).Runs (Code.op o >>= k) Q t := by
  refine fun _ => ⟨hok, ?_⟩
  show wp (sem pid β o) _ _ t
  rw [hsem, wp_onStore]
  exact h

theorem runs_bufcacheFill (h : Steady M.lim w H s.store) (hfree : (s.store.buf b).busy = false) {v : Buf}
    (hvb : v.busy = true) (hvs : v.sector = some x) (hother : ∀ b', b' ≠ b → (s.store.buf b').sector ≠ some x)
    (hold : (s.store.buf b).sector = some x ∧ v = { s.store.buf b with busy := true } ∨
      (s.store.buf b).sector ≠ some x ∧ (s.store.buf b).dirty = false ∧ v.dirty = false ∧ v.valid = false) :
    (M.guard pid).Runs (bufcacheFill b) (fun _ t => ∃ v, t = { s with store := s.store.setBuf b v } ∧
      Steady M.lim w ((b, x) :: H) (s.store.setBuf b v) ∧ (s.store.setBuf b v).view = s.store.view ∧
      (v.dirty = true → (s.store.buf b).dirty = true ∧ (s.store.buf b).sector = some x))
      { s with store := s.store.setBuf b v } := by
  have hdirty : v.dirty = true → (s.store.buf b).dirty = true ∧ (s.store.buf b).sector = some x := fun hd => by
    rcases hold with ⟨hb, rfl⟩ | ⟨-, -, hb, -⟩
    · exact ⟨hd, hb⟩
    · rw [hb] at hd
      cases hd
  have hold' : (s.store.buf b).sector = some x ∧ v.dirty = (s.store.buf b).dirty ∨
      (s.store.buf b).dirty = false ∧ v.dirty = false := by
    rcases hold with ⟨hb, rfl⟩ | ⟨-, hb, hb', -⟩
    · exact .inl ⟨hb, rfl⟩
    · exact .inr ⟨hb, hb'⟩
  refine runs_store (m := do return ((← get).buf b).valid) rfl trivial ?_
  show (M.guard pid).Runs (if ((s.store.setBuf b v).buf b).valid = true then pure ⟨⟩ else Code.op (.ideRw b)) _ _
  rw [Store.setBuf_buf, if_pos rfl]
  by_cases hv : v.valid = true
  · rw [if_pos hv]
    have hdata : v.data = s.store.view x := by
      rcases hold with ⟨hb, rfl⟩ | ⟨-, -, -, hb⟩
      · exact (Store.view_of_buf h.uniq hb hv).symm
      · rw [hb] at hv
        cases hv
    obtain ⟨ht, hview⟩ := h.take hfree hvb hv hvs hdata hother hold'
    exact ⟨v, rfl, ht, hview, hdirty⟩
  · rw [if_neg hv]
    have hv' : v.valid = false := by simpa using hv
    -- a buffer of the sector, if there is one, has not been read
    have hnone : s.store.view x = s.store.disk x := by
      refine Store.view_of_none fun b' hb' => ?_
      by_cases e : b' = b
      · rw [e] at hb' ⊢
        rcases hold with ⟨-, rfl⟩ | ⟨hb, -⟩
        · exact hv'
        · exact absurd hb' hb
      · exact absurd hb' (hother b' e)
    have hd : v.dirty = false := by
      by_contra hd
      obtain ⟨hd', hs'⟩ := hdirty (by simpa using hd)
      rcases hold with ⟨-, rfl⟩ | ⟨hb, -⟩
      · have := (h.dirty b hd').1
        rw [show (s.store.buf b).valid = false from hv'] at this
        cases this
      · exact hb hs'
    refine fun _ => ⟨trivial, ?_⟩
    show wp (onStore (FileSystem.ideRw b)) _ _ _
    rw [wp_onStore]
    refine wp_mono (ideRw_read (x := x) (by simpa using hvb) (by simpa using hv') (by simpa using hd) (by simpa using hvs)) ?_
      fun _ _ => False.elim
    rintro _ _ rfl
    rw [Store.setBuf_setBuf, Store.setBuf_buf, if_pos rfl]
    obtain ⟨ht, hview⟩ := h.take (v := { v with data := s.store.disk x, valid := true }) hfree hvb rfl hvs hnone.symm hother hold'
    exact ⟨_, rfl, ht, hview, hdirty⟩

theorem exists_spare (h : Steady lim w H σ)
    (hcard : (σ.log.homes ∪ (H.map Prod.snd).toFinset).card < NBUF) : ∃ b, (σ.buf b).busy = false ∧ (σ.buf b).dirty = false := by
  by_contra hno
  have hbuf : ∀ b, ∃ x ∈ σ.log.homes ∪ (H.map Prod.snd).toFinset, (σ.buf b).sector = some x := by
    intro b
    by_cases hd : (σ.buf b).dirty = true
    · obtain ⟨-, i, hi, hs⟩ := h.dirty b hd
      exact ⟨_, Finset.mem_union_left _ (Finset.mem_image_of_mem _ (Finset.mem_range.mpr hi)), hs⟩
    · have hb : (σ.buf b).busy = true := by
        by_contra hb
        exact hno ⟨b, by simpa using hb, by simpa using hd⟩
      obtain ⟨p, hp, rfl⟩ := mem_map.mp ((h.busy b).mp hb)
      exact ⟨p.2, Finset.mem_union_right _ (mem_toFinset.mpr (mem_map_of_mem hp)), (h.held p hp).1⟩
  choose f hf hsec using hbuf
  have hle := Finset.card_le_card_of_injOn f (s := Finset.univ) (fun b _ => hf b) fun b _ b' _ e =>
    h.uniq b b' (f b) (hsec b) (e ▸ hsec b')
  rw [Finset.card_univ, Fintype.card_fin] at hle
  omega

theorem runs_getFill {o : FsOp (Fin NBUF)} (hsem : sem pid _ o = onStore (bufcacheGet x)) (hok : (M.guard pid).ok s _ o)
    (h : Steady M.lim w H s.store)
    (htotal : M.total → x ∉ H.map Prod.snd ∧ (s.store.log.homes ∪ (H.map Prod.snd).toFinset).card < NBUF) :
    (M.guard pid).Runs (do let b ← Code.op o; bufcacheFill b; return b) (fun b t => ∃ v,
      t = { s with store := s.store.setBuf b v } ∧ Steady M.lim w ((b, x) :: H) (s.store.setBuf b v) ∧
      (s.store.setBuf b v).view = s.store.view ∧
      (v.dirty = true → (s.store.buf b).dirty = true ∧ (s.store.buf b).sector = some x)) s := by
  have hget : M.total → (∀ b, (s.store.buf b).sector = some x → (s.store.buf b).busy = false) ∧
      ∃ b, (s.store.buf b).busy = false ∧ (s.store.buf b).dirty = false := by
    refine fun hm => ⟨fun b hb => ?_, exists_spare h (htotal hm).2⟩
    by_contra hbusy
    obtain ⟨p, hp, rfl⟩ := mem_map.mp ((h.busy b).mp (by simpa using hbusy))
    rw [(h.held p hp).1] at hb
    exact (htotal hm).1 (mem_map.mpr ⟨p, hp, Option.some.inj hb⟩)
  refine runs_store hsem hok (wp_mono (bufcacheGet_spec h.all x hget) (fun b σ hb => ?_) fun _ _ he => he.1)
  obtain ⟨hfree, ⟨hsec, rfl⟩ | ⟨hno, hdirty, rfl⟩⟩ := hb
  · refine (runs_bufcacheFill (v := { s.store.buf b with busy := true }) h hfree rfl hsec (fun b' e hb' => e (h.uniq b' b x hb' hsec)) (.inl ⟨hsec, rfl⟩)).bind ?_
    exact fun _ t ht => ht
  · refine (runs_bufcacheFill (x := x) h hfree rfl rfl (fun b' _ => hno b') (.inr ⟨hno b, hdirty, rfl, rfl⟩)).bind ?_
    exact fun _ t ht => ht

theorem runs_logRead (h : Steady M.lim w H s.store)
    (htotal : M.total → x ∉ H.map Prod.snd ∧ (s.store.log.homes ∪ (H.map Prod.snd).toFinset).card < NBUF) :
    (M.guard pid).Runs (logRead x) (fun b t => ∃ v,
      t = { s with store := s.store.setBuf b v } ∧ Steady M.lim w ((b, x) :: H) (s.store.setBuf b v) ∧
      (s.store.setBuf b v).view = s.store.view ∧
      (v.dirty = true → (s.store.buf b).dirty = true ∧ (s.store.buf b).sector = some x)) s :=
  runs_getFill (o := .lget x) rfl trivial h htotal

theorem runs_flush {o : FsOp PUnit} {v : Block}
    (ho : (sem pid _ o).run s = (.ok ⟨⟩, { s with store := s.store.setBuf b { s.store.buf b with data := v } }))
    (hok : (M.guard pid).ok s _ o) (hbusy : (s.store.buf b).busy = true) (hx : (s.store.buf b).sector = some x)
    (hk : (M.guard pid).Runs k Q { s with store := s.store.flush b x v }) :
    (M.guard pid).Runs (do Code.op o; bufcacheWrite b; k) Q s := by
  refine fun _ => ⟨hok, wp_iff_run.mpr ⟨fun _ t ht => ?_, fun e t ht => ?_⟩⟩
  · rw [show (M.guard pid).sem _ o = sem pid _ o from rfl, ho] at ht
    cases ht
    refine runs_store (m := Fs.markDirty b) rfl trivial ?_
    unfold Fs.markDirty
    rw [wp_bind, wp_get, if_neg (by simp [hbusy]), wp_set]
    refine fun _ => ⟨trivial, ?_⟩
    show wp (onStore (FileSystem.ideRw b)) _ _ _
    rw [wp_onStore]
    unfold FileSystem.ideRw
    rw [wp_bind, wp_get]
    simp only [Store.setBuf_setBuf, Store.setBuf_buf, if_true, hbusy, hx, Bool.true_eq_false, if_false, and_false, wp_set]
    refine cast ?_ hk
    congr 2
    simp [Store.flush, Store.setBuf, Store.writeSector, hbusy, hx]
  · rw [show (M.guard pid).sem _ o = sem pid _ o from rfl, ho] at ht
    cases ht

theorem runs_brelse (hbusy : (s.store.buf b).busy = true) : (M.guard pid).Runs (bufcacheRelease b) (fun _ t => t = { s with store := s.store.release b }) s := by
  refine fun _ => ⟨trivial, ?_⟩
  show wp (onStore (FileSystem.bufcacheRelease b)) _ _ _
  rw [wp_onStore]
  unfold FileSystem.bufcacheRelease
  rw [wp_bind, wp_get, if_neg (by simp [hbusy]), wp_set]
  rfl

/-! ### The rules -/

theorem Shows.home_eq (h : Shows M u K H D s.store) (hx : x < M.lim) : s.store.view x = D x := by
  rw [← h.home, Store.home, if_pos hx]

theorem Sees.move {u' : Bool} (h : Sees M u K H D s t) (hσ : Shows M u' K' H' D' σ)
    (hsize : σ.log.size = t.store.log.size) : Sees M u' K' H' D' s { t with store := σ } :=
  ⟨⟨h.rest.inode, h.rest.procs, h.rest.cwd, h.rest.first, h.rest.dead⟩, hsize.trans h.size, hσ⟩

/-- Of the buffers that are held, all but one are for sectors that may be logged. -/
def Spare (K : Finset ℕ) (H : List (Fin NBUF × ℕ)) : Prop := ((H.map Prod.snd).toFinset \ K).card ≤ 1

theorem spare_nil : Spare K [] := by simp [Spare]

theorem Spare.of_mem (h : Spare K H) (hx : x ∈ K) : Spare K ((b, x) :: H) := by
  unfold Spare
  rw [map_cons, toFinset_cons, Finset.insert_sdiff_of_mem _ hx]
  exact h

theorem spare_cons (h : ∀ p ∈ H, p.2 ∈ K) : Spare K ((b, x) :: H) := by
  have hsub : ((((b, x) :: H).map Prod.snd).toFinset \ K) ⊆ {x} := by
    intro y hy
    obtain ⟨hy, hK⟩ := Finset.mem_sdiff.mp hy
    rw [map_cons, toFinset_cons, Finset.mem_insert] at hy
    rcases hy with rfl | hy
    · exact Finset.mem_singleton_self _
    · obtain ⟨p, hp, rfl⟩ := mem_map.mp (mem_toFinset.mp hy)
      exact absurd (h p hp) hK
  exact (Finset.card_le_card hsub).trans (Finset.card_singleton x).le

theorem Spare.mono (h : Spare K H) (hK : K ⊆ K') : Spare K' H :=
  (Finset.card_le_card (Finset.sdiff_subset_sdiff le_rfl hK)).trans h

theorem Shows.card_lt (h : Shows M u K H D σ) (hm : M.total) (hH : Spare K H) :
    (σ.log.homes ∪ (H.map Prod.snd).toFinset).card < NBUF := by
  have hsub : σ.log.homes ∪ (H.map Prod.snd).toFinset ⊆ K ∪ ((H.map Prod.snd).toFinset \ K) := by
    intro y hy
    have hy' : y ∈ σ.log.homes → y ∈ K := fun hy => h.logged (M.tracked_of_total hm) hy
    simp only [Finset.mem_union, Finset.mem_sdiff] at hy ⊢
    tauto
  have hsmall := h.small (M.tracked_of_total hm)
  have hle := (Finset.card_le_card hsub).trans (Finset.card_union_le _ _)
  unfold Spare at hH
  unfold LOGSIZE at hsmall
  unfold NBUF
  omega

theorem runs_bufcacheRead (h : Sees M u K H D s t) (htotal : M.total → x ∉ H.map Prod.snd ∧ Spare K H) :
    (M.guard pid).Runs (bufcacheRead x) (fun b t => Sees M u K ((b, x) :: H) D s t) t := by
  refine (runs_getFill (o := .bget x) rfl trivial h.shows.steady fun hm => ?_).mono ?_
  · exact ⟨(htotal hm).1, h.shows.card_lt hm (htotal hm).2⟩
  · rintro b _ ⟨v, rfl, hst, hview, -⟩
    refine h.move ⟨hst, ?_, h.shows.busy, h.shows.head, h.shows.large, h.shows.logged, h.shows.small⟩ rfl
    rw [← h.shows.home]
    unfold Store.home
    rw [hview]

theorem runs_data (h : Sees M u K H D s t) (hb : (b, x) ∈ H) (hx : x < M.lim) :
    (M.guard pid).Runs (Code.op (.data b)) (fun v t => v = D x ∧ Sees M u K H D s t) t := by
  refine fun _ => ⟨trivial, ?_⟩
  refine ⟨?_, h⟩
  rw [← h.shows.home_eq hx, h.shows.steady.view_of_mem hb]

theorem runs_bufcacheRelease (h : Sees M u K ((b, x) :: H) D s t) :
    (M.guard pid).Runs (bufcacheRelease b) (fun _ t => Sees M u K H D s t) t := by
  refine (runs_brelse (h.shows.steady.busy_of_mem (mem_cons_self ..))).mono ?_
  rintro _ _ rfl
  obtain ⟨hst, hview⟩ := h.shows.steady.release nofun
  refine h.move ⟨hst, ?_, h.shows.busy, h.shows.head, h.shows.large, h.shows.logged, h.shows.small⟩ rfl
  rw [← h.shows.home]
  unfold Store.home
  rw [hview]

theorem logStart_spec (σ : Store) (total : Prop) (hx : (σ.buf b).sector = some x)
    (htotal : total → σ.log.n < LOGSIZE ∧ σ.log.n < σ.log.size - 1 ∧ σ.log.busy = true) : wp (Fs.logStart b) (fun r τ =>
      r = (logIndex σ.log x, σ.log.start + logIndex σ.log x + 1, x) ∧
      τ = { σ with log := { σ.log with sector := update σ.log.sector (logIndex σ.log x) x } } ∧
      σ.log.n + 1 < σ.log.size ∧ σ.log.busy = true) (fun _ _ => ¬ total) σ := by
  unfold Fs.logStart
  rw [wp_bind, wp_get]
  split_ifs with hbig hbusy
  · intro hm
    have := htotal hm
    omega
  · intro hm
    rw [(htotal hm).2.2] at hbusy
    cases hbusy
  · rw [hx]
    exact ⟨rfl, rfl, by omega, by simpa using hbusy⟩

theorem Shows.lt_of_tracked (h : Shows M u K H D σ) (hm : M.tracked) (hu : u = true) :
    σ.log.n < LOGSIZE ∧ σ.log.n < σ.log.size - 1 := by
  have hcard : σ.log.homes.card = σ.log.n := by
    unfold Log.homes
    rw [Finset.card_image_of_injOn, Finset.card_range]
    intro i hi j hj e
    exact h.steady.inj i (by simpa using hi) j (by simpa using hj) e
  have hle := Finset.card_le_card (h.logged hm)
  have hsmall := h.small hm
  have hlarge := h.large hm hu
  unfold LOGSIZE at *
  omega

theorem runs_logWrite (h : Sees M u K H D s t) (hb : (b, x) ∈ H) (hx : x < M.lim)
    (htotal : M.total → u = true ∧ (∀ p ∈ H, p.2 < M.lim) ∧ Spare K H) (hK : M.tracked → x ∈ K) (v : Block)
    (hk : ∀ t, Sees M u K H (update D x v) s t → (M.guard pid).Runs k Q t) :
    (M.guard pid).Runs (do Code.op (.setData b v); logWrite b; k) Q t := by
  obtain ⟨h1, hview1⟩ := h.shows.steady.setData hb v
  set σ1 := t.store.setBuf b { t.store.buf b with data := v } with hσ1
  refine runs_store (m := FileSystem.setData b v) rfl trivial ?_
  show (M.guard pid).Runs (logWrite b >>= fun _ => k) Q { t with store := σ1 }
  rw [Guard.runs_bind]
  refine runs_store (m := Fs.logStart b) rfl (fun hm hu => h.shows.lt_of_tracked hm (h.shows.busy.symm.trans hu)) ?_
  obtain ⟨hs, -⟩ := h1.held _ hb
  refine wp_mono (logStart_spec σ1 M.total hs fun hm => ?_) (fun r σ2 hr => ?_) fun _ _ he => he
  · have hlt := h.shows.lt_of_tracked (M.tracked_of_total hm) (htotal hm).1
    exact ⟨hlt.1, hlt.2, h.shows.busy.trans (htotal hm).1⟩
  obtain ⟨rfl, rfl, hn, hbusy⟩ := hr
  have hplace : σ1.log.start = M.lim := h1.place.resolve_left (by omega)
  set i := logIndex σ1.log x with hi
  have hile : i ≤ σ1.log.n := logIndex_le _ _
  have h2 := h1.logStart x
  set σ2 : Store := { σ1 with log := { σ1.log with sector := update σ1.log.sector i x } } with hσ2
  have hsecs : ∀ j < σ1.log.n, σ2.log.sector j = σ1.log.sector j := fun j hj => by
    by_cases e : j = i
    · subst e
      rw [sector_logIndex hj]
      exact update_self ..
    · exact update_of_ne e ..
  -- the sector of the log is read
  have hhomes2 : σ2.log.homes = t.store.log.homes := Finset.image_congr fun j hj => hsecs j (Finset.mem_range.mp hj)
  refine (runs_logRead (s := { t with store := σ2 }) h2 fun hm => ⟨fun hy => ?_, ?_⟩).bind ?_
  · obtain ⟨p, hp, hp'⟩ := mem_map.mp hy
    have := (htotal hm).2.1 p hp
    omega
  · show (σ2.log.homes ∪ _).card < NBUF
    rw [hhomes2]
    exact h.shows.card_lt hm (htotal hm).2.2
  rintro lb _ ⟨v', rfl, h3, hview3, -⟩
  rw [hplace] at h3
  set σ3 := σ2.setBuf lb v' with hσ3
  have hne : lb ≠ b := fun e => by
    have := h3.nodup
    rw [map_cons, nodup_cons] at this
    exact this.1 (mem_map.mpr ⟨_, hb, e.symm⟩)
  have hb3 : σ3.buf b = σ1.buf b := by
    rw [hσ3, Store.setBuf_buf, if_neg hne.symm]
  have hdata : (σ3.buf b).data = v := by
    rw [hb3, hσ1, Store.setBuf_buf, if_pos rfl]
  -- and overwritten
  have hlb : (lb, M.lim + i + 1) ∈ (lb, M.lim + i + 1) :: H := mem_cons_self ..
  refine runs_flush (b := lb) (v := (σ3.buf b).data) (x := M.lim + i + 1) rfl trivial (h3.busy_of_mem hlb) (h3.held _ hlb).1 ?_
  rw [hdata]
  obtain ⟨h4, hview4⟩ := h3.write hlb (fun e => hne (Option.some.inj e).symm) v (.inl ⟨by omega, fun j hj hj' hw => by
    obtain rfl : j = i := by omega
    refine absurd ?_ (hw b rfl)
    rw [hb3, hs]
    show some x = some (update σ1.log.sector i x i)
    rw [update_self]⟩)
  refine (runs_brelse (h4.busy_of_mem hlb)).bind ?_
  rintro _ _ rfl
  obtain ⟨h5, hview5⟩ := h4.release fun e => hne (Option.some.inj e).symm
  set σ5 := (σ3.flush lb (M.lim + i + 1) v).release lb with hσ5
  have hb5 : σ5.buf b = σ1.buf b := by
    rw [hσ5, Store.release_buf_of_ne hne.symm, Store.flush_buf_of_ne hne.symm, hb3]
  have hsec5 : σ5.log.sector i = x := update_self ..
  have hcase : ∀ j < σ5.log.n, σ5.log.sector j = t.store.log.sector j := hsecs
  -- the entry is there, and the buffer is dirty
  refine fun _ => ⟨trivial, ?_⟩
  obtain ⟨h6, hview6⟩ := h5.logEnd hb hx hile hsec5 (fun e j hj => by
      rw [hcase j hj]
      exact sector_ne_of_logIndex hj e) hn hbusy
    (by rw [hb5, hσ1, Store.setBuf_buf, if_pos rfl]; exact update_self ..)
  refine hk _ (h.move ⟨h6, ?_, h.shows.busy, ?_, h.shows.large, fun hm => ?_, h.shows.small⟩ rfl)
  · funext y
    show (if y < M.lim then (σ5.logEnd b i x).view y else _) = _
    rw [hview6, hview5, hview4, hview3]
    by_cases hy : y < M.lim
    · rw [if_pos hy, update_of_ne (by omega)]
      show σ1.view y = _
      rw [hview1, update_apply, update_apply, h.shows.home_eq hy]
    · rw [if_neg hy, update_of_ne (by omega), ← h.shows.home, Store.home, if_neg hy]
  · show headN (update t.store.disk (M.lim + i + 1) v M.lim) = 0
    rw [update_of_ne (by omega)]
    exact h.shows.head
  · intro y hy
    obtain ⟨j, hj, rfl⟩ := Finset.mem_image.mp hy
    by_cases hji : j = i
    · subst hji
      exact hsec5.symm ▸ hK hm
    · have hj' : j < σ5.log.n := by
        have hj2 : j < if i = σ5.log.n then σ5.log.n + 1 else σ5.log.n := Finset.mem_range.mp hj
        split_ifs at hj2 <;> omega
      exact h.shows.logged hm (Finset.mem_image.mpr ⟨j, Finset.mem_range.mpr hj', (hcase j hj').symm⟩)

theorem runs_log {k : Log → Code FsOp α} (h : (M.guard pid).Runs (k s.store.log) Q s) :
    (M.guard pid).Runs (Code.op .log >>= k) Q s :=
  runs_store (m := do return (← get).log) rfl trivial h

theorem runs_loop {n : ℕ} {body : ℕ → Code FsOp PUnit} (I : ℕ → FS → Prop) (h0 : I 0 s)
    (hstep : ∀ i < n, ∀ t, I i t → (M.guard pid).Runs (body i) (fun _ => I (i + 1)) t) :
    (M.guard pid).Runs (loop n body) (fun _ => I n) s := by
  induction n with
  | zero => exact h0
  | succ n ih =>
    exact (ih fun i hi => hstep i (Nat.lt_succ_of_lt hi)).bind fun _ t ht => hstep n (Nat.lt_succ_self n) t ht

/-- A step of `commit_trans`: what is seen does not change, and no buffer becomes dirty. -/
structure Flushed (lim : ℕ) (s t : Store) : Prop where
  steady : Steady lim none [] t
  home : t.home lim = s.home lim
  log : t.log = s.log
  dirty : ∀ b, (t.buf b).dirty = true → (s.buf b).dirty = true ∧ (t.buf b).sector = (s.buf b).sector

theorem Flushed.trans {ρ : Store} (h : Flushed lim σ τ) (h' : Flushed lim τ ρ) : Flushed lim σ ρ :=
  ⟨h'.steady, h'.home.trans h.home, h'.log.trans h.log, fun b hb =>
    have := h.dirty b (h'.dirty b hb).1
    ⟨this.1, (h'.dirty b hb).2.trans this.2⟩⟩

theorem home_of_view_eq (h : ∀ x < lim, τ.view x = σ.view x) : τ.home lim = σ.home lim := by
  funext x
  unfold Store.home
  split_ifs with hx
  · exact h x hx
  · rfl

section

variable (h : Steady M.lim none [] s.store) (hplace : s.store.log.start = M.lim)
    (htotal : M.total → s.store.log.homes.card < NBUF - 1)
include h hplace htotal

theorem runs_writeHead :
    (M.guard pid).Runs writeHead (fun _ t => ∃ σ, t = { s with store := σ } ∧ Flushed M.lim s.store σ ∧
      headN (σ.disk M.lim) = s.store.log.n % 2 ^ 32) s := by
  refine runs_log ?_
  rw [hplace]
  refine (runs_logRead h fun hm => ⟨not_mem_nil, by simpa using (htotal hm).trans (by decide)⟩).bind ?_
  rintro b _ ⟨v, rfl, h1, hview1, hdirty⟩
  set σ1 := s.store.setBuf b v with hσ1
  have hb : (b, M.lim) ∈ [(b, M.lim)] := mem_singleton_self _
  refine runs_flush (b := b) (x := M.lim) rfl trivial (h1.busy_of_mem hb) (h1.held _ hb).1 ?_
  set w := FileSystem.putHead σ1.log.n σ1.log.sector (σ1.buf b).data σ1.log.n
  obtain ⟨h2, hview2⟩ := h1.write hb nofun w (.inl ⟨le_rfl, fun i _ hi => by omega⟩)
  refine (runs_brelse (h2.busy_of_mem hb)).mono ?_
  rintro _ _ rfl
  obtain ⟨h3, hview3⟩ := h2.release nofun
  refine ⟨_, rfl, ⟨h3, home_of_view_eq fun x hx => ?_, rfl, fun b' hb' => ?_⟩, ?_⟩
  · rw [hview3, hview2, update_of_ne (by omega), hview1]
  · by_cases e : b' = b
    · subst e
      simp [Store.release, Store.flush] at hb'
    · rw [Store.release_buf_of_ne e, Store.flush_buf_of_ne e, hσ1, Store.setBuf_buf, if_neg e] at hb' ⊢
      exact ⟨hb', rfl⟩
  · show headN (update s.store.disk M.lim w M.lim) = _
    rw [update_self]
    exact headN_putHead ..

theorem runs_installOne {i : ℕ} (hi : i < s.store.log.n) :
    (M.guard pid).Runs (installOne i) (fun _ t => ∃ σ, t = { s with store := σ } ∧ Flushed M.lim s.store σ ∧
      σ.disk M.lim = s.store.disk M.lim ∧
      ∀ b, (σ.buf b).dirty = true → (σ.buf b).sector ≠ some (s.store.log.sector i)) s := by
  refine runs_log ?_
  rw [hplace]
  have hx := h.home i hi
  set x := s.store.log.sector i with hxdef
  refine (runs_logRead h fun hm => ⟨not_mem_nil, by simpa using (htotal hm).trans (by decide)⟩).bind ?_
  rintro lb _ ⟨v, rfl, h₁, hview₁, hdirty₁⟩
  set σ₁ := s.store.setBuf lb v with hσ₁
  refine (runs_getFill (o := .bget x) rfl trivial h₁ fun hm => ⟨?_, ?_⟩).bind ?_
  · rw [map_singleton, mem_singleton]
    omega
  · have hle := Finset.card_union_le s.store.log.homes {M.lim + i + 1}
    rw [Finset.card_singleton] at hle
    refine lt_of_le_of_lt hle ?_
    have := htotal hm
    omega
  rintro db _ ⟨v', rfl, h₂, hview₂, hdirty₂⟩
  set σ₂ := σ₁.setBuf db v' with hσ₂
  have hdb : (db, x) ∈ [(db, x), (lb, M.lim + i + 1)] := mem_cons_self ..
  have hlb : (lb, M.lim + i + 1) ∈ [(db, x), (lb, M.lim + i + 1)] := by simp
  have hne : lb ≠ db := fun e => by
    have := h₂.nodup
    rw [map_cons, nodup_cons] at this
    exact this.1 (by simp [e])
  -- the log has a copy of what is seen
  have hdata : (σ₂.buf lb).data = σ₂.view x := by
    rw [← h₂.view_of_mem hlb, h₂.view_of_clean fun b hb => ⟨nofun, h₂.clean_of_le hb (by omega)⟩]
    exact h₂.mirror i hi nofun
  refine runs_flush (b := db) (x := x) rfl trivial (h₂.busy_of_mem hdb) (h₂.held _ hdb).1 ?_
  obtain ⟨h₃, hview₃⟩ := h₂.write hdb nofun (σ₂.buf lb).data (.inr ⟨hx, hdata⟩)
  have h₃' := h₃.perm (.swap ..)
  refine (runs_brelse (h₃'.busy_of_mem (mem_cons_self ..))).bind ?_
  rintro _ _ rfl
  obtain ⟨h₄, hview₄⟩ := h₃'.release nofun
  refine (runs_brelse (h₄.busy_of_mem (mem_cons_self ..))).mono ?_
  rintro _ _ rfl
  obtain ⟨h₅, hview₅⟩ := h₄.release nofun
  set σ₅ := ((σ₂.flush db x (σ₂.buf lb).data).release lb).release db
  have hother : ∀ b, b ≠ lb → b ≠ db → σ₅.buf b = s.store.buf b := fun b e e' => by
    rw [Store.release_buf_of_ne e', Store.release_buf_of_ne e, Store.flush_buf_of_ne e', hσ₂, Store.setBuf_buf, if_neg e', hσ₁,
      Store.setBuf_buf, if_neg e]
  have hdb₅ : (σ₅.buf db).sector = some x ∧ (σ₅.buf db).dirty = false := by
    have hdb₄ : ((σ₂.flush db x (σ₂.buf lb).data).release lb).buf db =
        { σ₂.buf db with data := (σ₂.buf lb).data, valid := true, dirty := false } := by
      rw [Store.release_buf_of_ne hne.symm]
      exact ((σ₂.writeSector x _).setBuf_buf db db _).trans (if_pos rfl)
    have hdb₅ : σ₅.buf db = { ((σ₂.flush db x (σ₂.buf lb).data).release lb).buf db with busy := false } :=
      (Store.setBuf_buf _ db db _).trans (if_pos rfl)
    rw [hdb₅, hdb₄]
    exact ⟨(h₂.held _ hdb).1, rfl⟩
  have hlb₅ : (σ₅.buf lb).dirty = false := by
    have hs : (σ₅.buf lb).sector = some (M.lim + i + 1) := by
      rw [Store.release_buf_of_ne hne]
      exact (congrArg Buf.sector ((Store.setBuf_buf _ lb lb _).trans (if_pos rfl))).trans
        ((congrArg Buf.sector (Store.flush_buf_of_ne hne)).trans (h₂.held _ hlb).1)
    exact h₅.clean_of_le hs (by omega)
  have hcase : ∀ b, (σ₅.buf b).dirty = true → b ≠ lb ∧ b ≠ db := fun b hb => by
    constructor
    · rintro rfl
      rw [hlb₅] at hb
      cases hb
    · rintro rfl
      rw [hdb₅.2] at hb
      cases hb
  refine ⟨_, rfl, ⟨h₅, home_of_view_eq fun y hy => ?_, rfl, fun b hb => ?_⟩, ?_, fun b hb e => ?_⟩
  · rw [hview₅, hview₄, hview₃, hdata, update_eq_self, hview₂, hview₁]
  · obtain ⟨e, e'⟩ := hcase b hb
    rw [hother b e e'] at hb ⊢
    exact ⟨hb, rfl⟩
  · exact update_of_ne (by omega) ..
  · exact (hcase b hb).2 (h₅.uniq b db x e hdb₅.1)

end

theorem runs_installTrans (h : Steady M.lim none [] s.store) (hplace : s.store.log.n = 0 ∨ s.store.log.start = M.lim)
    (htotal : M.total → s.store.log.homes.card < NBUF - 1) :
    (M.guard pid).Runs installTrans (fun _ t => ∃ σ, t = { s with store := σ } ∧ Flushed M.lim s.store σ ∧
      σ.disk M.lim = s.store.disk M.lim ∧ ∀ b, (σ.buf b).dirty = false) s := by
  refine runs_log ((runs_loop (fun k t => ∃ σ, t = { s with store := σ } ∧ Flushed M.lim s.store σ ∧
      σ.disk M.lim = s.store.disk M.lim ∧
      ∀ i < k, ∀ b, (σ.buf b).dirty = true → (σ.buf b).sector ≠ some (s.store.log.sector i))
    ⟨s.store, rfl, ⟨h, rfl, rfl, fun b hb => ⟨hb, rfl⟩⟩, rfl, fun i hi => by omega⟩ ?_).mono ?_)
  · rintro k hk _ ⟨σ, rfl, hσ, hdisk, hinst⟩
    refine (runs_installOne (s := { s with store := σ }) hσ.steady ?_ (fun hm => ?_) ?_).mono ?_
    · exact (congrArg Log.start hσ.log).trans (hplace.resolve_left (by omega))
    · exact (congrArg (fun l => l.homes.card) hσ.log).trans_lt (htotal hm)
    · exact (congrArg Log.n hσ.log).symm ▸ hk
    · rintro _ _ ⟨τ, rfl, hτ, hdisk', hinst'⟩
      refine ⟨τ, rfl, hσ.trans hτ, hdisk'.trans hdisk, fun i hi b hb => ?_⟩
      rcases Nat.lt_succ_iff_lt_or_eq.mp hi with hi | rfl
      · rw [(hτ.dirty b hb).2]
        exact hinst i hi b (hτ.dirty b hb).1
      · rw [← hσ.log]
        exact hinst' b hb
  · rintro _ _ ⟨σ, rfl, hσ, hdisk, hinst⟩
    refine ⟨σ, rfl, hσ, hdisk, fun b => ?_⟩
    by_contra hd
    obtain ⟨-, i, hi, hs⟩ := hσ.steady.dirty b (by simpa using hd)
    rw [hσ.log] at hi hs
    exact hinst i hi b (by simpa using hd) hs

theorem homes_eq_empty {l : Log} (h : l.n = 0) : l.homes = ∅ := by
  rw [Log.homes, h]
  rfl

theorem runs_beginTrans (h : Sees M u K H D s t) (htotal : M.total → u = false)
    (hlarge : M.tracked → LOGSIZE ≤ s.store.log.size) :
    (M.guard pid).Runs beginTrans (fun _ t => u = false ∧ Sees M true K H D s t) t := by
  refine fun _ => ⟨trivial, ?_⟩
  show wp (onStore FileSystem.beginTrans) _ _ _
  rw [wp_onStore]
  unfold FileSystem.beginTrans
  rw [wp_bind, wp_get]
  split_ifs with hbusy
  · intro hm
    rw [h.shows.busy, htotal hm] at hbusy
    cases hbusy
  · have hst := h.shows.steady.setLog (l := { t.store.log with busy := true }) (.inl rfl) (fun _ _ => rfl) h.shows.steady.place
      h.shows.steady.room nofun [] []
    exact ⟨by rw [← h.shows.busy]; simpa using hbusy,
      h.move ⟨hst, h.shows.home, rfl, h.shows.head, fun hm _ => h.size.symm ▸ hlarge hm, h.shows.logged, h.shows.small⟩ rfl⟩

theorem runs_endTrans (h : Steady M.lim none H t.store) (hn : t.store.log.n = 0) (hhome : t.store.home M.lim = D)
    (hhead : headN (t.store.disk M.lim) = 0) (hsize : t.store.log.size = s.store.log.size) (hrest : Rest s t) :
    (M.guard pid).Runs (Code.op .endTrans) (fun _ t => Sees M false ∅ H D s t) t := by
  refine fun _ => ⟨trivial, ?_⟩
  have hst := h.setLog (l := { t.store.log with busy := false }) (.inl rfl) (fun _ _ => rfl) h.place h.room (fun _ => hn)
    t.store.history t.store.logged
  refine ⟨⟨hrest.inode, hrest.procs, hrest.cwd, hrest.first, hrest.dead⟩, hsize, hst, hhome, rfl, hhead, nofun, fun _ => ?_,
    fun _ => by decide⟩
  rw [homes_eq_empty (l := { t.store.log with busy := false }) hn]

theorem runs_commitTrans (h : Sees M u K [] D s t) :
    (M.guard pid).Runs commitTrans (fun _ t => Sees M false ∅ [] D s t) t := by
  refine runs_log ?_
  have hst := h.shows.steady
  have htotal : M.total → t.store.log.homes.card < NBUF - 1 := by
    intro hm
    have hle := Finset.card_le_card (h.shows.logged (M.tracked_of_total hm))
    have hsmall := h.shows.small (M.tracked_of_total hm)
    unfold LOGSIZE at hsmall
    unfold NBUF
    omega
  by_cases hn : 0 < t.store.log.n
  · have hplace : t.store.log.start = M.lim := hst.place.resolve_left (by have := hst.room; omega)
    rw [if_pos hn]
    refine (runs_writeHead hst hplace htotal).bind ?_
    rintro _ _ ⟨σ, rfl, hσ, -⟩
    refine (runs_installTrans (s := { t with store := σ }) hσ.steady (.inr ?_) fun hm => ?_).bind ?_
    · exact (congrArg Log.start hσ.log).trans hplace
    · exact (congrArg (fun l => l.homes.card) hσ.log).trans_lt (htotal hm)
    rintro _ _ ⟨τ, rfl, hτ, -, hclean⟩
    have hlog : τ.log = t.store.log := hτ.log.trans hσ.log
    refine runs_store (m := FileSystem.clearN) rfl trivial ?_
    have hτ' : Steady M.lim none [] { τ with log := { τ.log with n := 0 } } :=
      hτ.steady.setLog (l := { τ.log with n := 0 }) (.inr ⟨rfl, hclean⟩) (fun i hi => absurd hi (Nat.not_lt_zero i))
        hτ.steady.place (.inl rfl) (fun _ => rfl) τ.history τ.logged
    refine (runs_writeHead (s := { t with store := { τ with log := { τ.log with n := 0 } } }) hτ' ?_ fun _ => ?_).bind ?_
    · exact (congrArg Log.start hlog).trans hplace
    · rw [homes_eq_empty rfl]
      decide
    rintro _ _ ⟨ρ, rfl, hρ, hhead⟩
    refine runs_endTrans hρ.steady (congrArg Log.n hρ.log) ?_ (hhead.trans rfl) ?_
      ⟨h.rest.inode, h.rest.procs, h.rest.cwd, h.rest.first, h.rest.dead⟩
    · exact hρ.home.trans (hτ.home.trans (hσ.home.trans h.shows.home))
    · exact (congrArg Log.size hρ.log).trans ((congrArg Log.size hlog).trans h.size)
  · rw [if_neg hn]
    exact runs_endTrans hst (by omega) h.shows.home h.shows.head h.size h.rest

theorem runs_readSuperblock (h : Sees M u K H D s t) (hlim : 1 < M.lim)
    (htotal : M.total → 1 ∉ H.map Prod.snd ∧ Spare K H) :
    (M.guard pid).Runs readSuperblock (fun sb t => sb = getSuperblock (D 1) ∧ Sees M u K H D s t) t := by
  refine (runs_bufcacheRead h htotal).bind fun b t ht => (runs_data ht (mem_cons_self ..) hlim).bind fun v t hv => ?_
  refine (runs_bufcacheRelease hv.2).bind fun _ t ht => ?_
  exact ⟨by rw [hv.1], ht⟩

theorem runs_recoverFromLog (h : Steady M.lim none [] s.store) (hplace : s.store.log.start = M.lim)
    (hhead : headN (s.store.disk M.lim) = 0) (hn : s.store.log.n = 0) :
    (M.guard pid).Runs recoverFromLog (fun _ t => ∃ σ, t = { s with store := σ } ∧ Steady M.lim none [] σ ∧
      σ.home M.lim = s.store.home M.lim ∧ σ.log.busy = s.store.log.busy ∧ σ.log.size = s.store.log.size ∧
      headN (σ.disk M.lim) = 0 ∧ σ.log.n = 0) s := by
  unfold recoverFromLog readHead
  rw [Guard.runs_bind]
  refine runs_log ?_
  rw [hplace]
  refine (runs_logRead h fun hm => ⟨not_mem_nil, ?_⟩).bind ?_
  · rw [homes_eq_empty hn]
    decide
  rintro b _ ⟨v, rfl, h1, hview1, -⟩
  set σ1 := s.store.setBuf b v with hσ1
  have hb : (b, M.lim) ∈ [(b, M.lim)] := mem_singleton_self _
  have hdata : headN (σ1.buf b).data = 0 := by
    rw [← h1.view_of_mem hb, h1.view_of_clean fun b hb => ⟨nofun, h1.clean_of_le hb le_rfl⟩]
    exact hhead
  set l : Log := { σ1.log with
    n := headN (σ1.buf b).data
    sector := fun i => if i < headN (σ1.buf b).data then headSector (σ1.buf b).data i else σ1.log.sector i } with hl
  have hln : l.n = 0 := hdata
  refine runs_store (m := modify fun s => { s with log := { s.log with
    n := headN (s.buf b).data
    sector := fun i => if i < headN (s.buf b).data then headSector (s.buf b).data i else s.log.sector i } }) rfl trivial ?_
  have h2 : Steady M.lim none [(b, M.lim)] { σ1 with log := l } :=
    h1.setLog (l := l) (.inl (hln.trans hn.symm)) (fun i hi => absurd (hln ▸ hi) (Nat.not_lt_zero i)) h1.place (.inl hln)
      (fun _ => hln) σ1.history σ1.logged
  refine (runs_brelse (s := { s with store := { σ1 with log := l } }) (h2.busy_of_mem hb)).mono ?_
  rintro _ _ rfl
  obtain ⟨h3, hview3⟩ := h2.release nofun
  set σ3 : Store := Store.release { σ1 with log := l } b with hσ3
  have hn3 : σ3.log.n = 0 := hln
  refine (runs_installTrans (s := { s with store := σ3 }) h3 (.inl hn3) fun _ => ?_).bind ?_
  · rw [homes_eq_empty hn3]
    decide
  rintro _ _ ⟨τ, rfl, hτ, -, hclean⟩
  have hlog : τ.log = l := hτ.log
  refine runs_store (m := FileSystem.clearN) rfl trivial ?_
  have hτ' : Steady M.lim none [] { τ with log := { τ.log with n := 0 } } :=
    hτ.steady.setLog (l := { τ.log with n := 0 }) (.inr ⟨rfl, hclean⟩) (fun i hi => absurd hi (Nat.not_lt_zero i))
      hτ.steady.place (.inl rfl) (fun _ => rfl) τ.history τ.logged
  refine (runs_writeHead (s := { s with store := { τ with log := { τ.log with n := 0 } } }) hτ' ?_ fun _ => ?_).mono ?_
  · exact (congrArg Log.start hlog).trans hplace
  · rw [homes_eq_empty rfl]
    decide
  rintro _ _ ⟨ρ, rfl, hρ, hρhead⟩
  have hbusy : τ.log.busy = s.store.log.busy := by
    rw [hlog]
    rfl
  have hsize : τ.log.size = s.store.log.size := by
    rw [hlog]
    rfl
  refine ⟨ρ, rfl, hρ.steady, hρ.home.trans (hτ.home.trans (home_of_view_eq fun x _ => ?_)),
    (congrArg Log.busy hρ.log).trans hbusy, (congrArg Log.size hρ.log).trans hsize, hρhead.trans rfl, congrArg Log.n hρ.log⟩
  rw [hview3]
  exact congrFun hview1 x

theorem runs_logInit (h : Sees M false K [] D s t) (hlim : 1 < M.lim)
    (hsb : (getSuperblock (D 1)).size - (getSuperblock (D 1)).nlog = M.lim) :
    (M.guard pid).Runs logInit (fun _ t => Rest s t ∧ t.store.log.size = (getSuperblock (D 1)).nlog ∧
      Shows M false ∅ [] D t.store) t := by
  refine (runs_readSuperblock h hlim fun _ => ⟨not_mem_nil, spare_nil⟩).bind ?_
  rintro _ t ⟨rfl, ht⟩
  set sb := getSuperblock (D 1)
  refine runs_store (m := modify fun s => { s with log := { s.log with start := sb.size - sb.nlog, size := sb.nlog } })
    rfl trivial ?_
  rw [wp_modify, hsb]
  have hn : t.store.log.n = 0 := ht.shows.steady.idle ht.shows.busy
  have hst : Steady M.lim none [] { t.store with log := { t.store.log with start := M.lim, size := sb.nlog } } :=
    ht.shows.steady.setLog (l := { t.store.log with start := M.lim, size := sb.nlog }) (.inl rfl) (fun _ _ => rfl) (.inr rfl)
      (.inl hn) (fun _ => hn) t.store.history t.store.logged
  refine (runs_recoverFromLog (s := { t with store := { t.store with log := { t.store.log with start := M.lim, size := sb.nlog } } })
    hst rfl ht.shows.head hn).mono ?_
  rintro _ _ ⟨σ, rfl, hσ, hhome, hbusy, hsize, hhead, hσn⟩
  refine ⟨⟨ht.rest.inode, ht.rest.procs, ht.rest.cwd, ht.rest.first, ht.rest.dead⟩, hsize, hσ, hhome.trans ht.shows.home,
    hbusy.trans ht.shows.busy, hhead, nofun, fun _ => ?_, fun _ => by decide⟩
  rw [homes_eq_empty hσn]

theorem Sees.widen (h : Sees M u K H D s t) (hK : K ⊆ K') (hsmall : M.tracked → K'.card ≤ LOGSIZE - 2) :
    Sees M u K' H D s t :=
  ⟨h.rest, h.size, h.shows.steady, h.shows.home, h.shows.busy, h.shows.head, h.shows.large, fun hm => (h.shows.logged hm).trans hK,
    hsmall⟩

end

end Fs

end MCertiKOS.FileSystem
