import MCertiKOS.Memory.MemoryMap

/-!
# The lists of the memory map

`pmmap_insert` keeps the list of ranges sorted by start, and `pmmap_merge` joins neighbours of one type that overlap
or touch and then files each range in the list of its type. The lists in memory are singly linked; here they are
lists.

No address is lost or gained, and the four lists are what they should be (`merge_lists`). Two things do not come out
right (`merge_incomplete`): a range that has taken in the next one is not compared with the one behind it; and
`max_usable_memory` is the end of the usable range that starts last, which need not be the one that ends last.
`NoChain` and `LastEnds` are the conditions under which they do.
-/

namespace MCertiKOS.Memory

open List UInt32

/-! ### The second loop of pmmap_merge -/

/-- `PMMAP_SUBLIST_NR`, without the `-1` for other types. -/
def sublistNr (type : UInt32) : Option ℕ :=
  if type = MEM_RAM then some 0
  else if type = 2 then some 1
  else if type = 3 then some 2
  else if type = 4 then some 3
  else none

/-- The second loop of `pmmap_merge`, or `none` where its assertion fails. `last_slot[nr]` is the end of list `nr`, so that
`SLIST_INSERT_AFTER` puts the range there. -/
def pmmapSublists : List Pmmap → (ℕ → List Pmmap) → Option (ℕ → List Pmmap)
  | [], sub => some sub
  | s :: l, sub =>
    match sublistNr s.type with
    | none => none
    | some nr => pmmapSublists l (Function.update sub nr (sub nr ++ [s]))

def lastUsable (l : List Pmmap) : Option Pmmap := (l.filter fun s => s.type = MEM_RAM).getLast?

/-- `max_usable_memory` after `pmmap_merge`; it starts as `0`. -/
def maxUsableMemory (sub : ℕ → List Pmmap) : UInt32 :=
  match (sub 0).getLast? with
  | some s => s.stop
  | none => 0

/-! ### Conditions -/

/-- The test of the first loop of `pmmap_merge`. -/
def Pmmap.Merges (s n : Pmmap) : Prop := s.start ≤ n.start ∧ n.start ≤ s.stop ∧ s.type = n.type

instance (s n : Pmmap) : Decidable (s.Merges n) := inferInstanceAs (Decidable (_ ∧ _))

def Pmmap.join (s n : Pmmap) : Pmmap := { s with stop := if n.stop < s.stop then s.stop else n.stop }

/-- Two ranges that are joined do not overlap or touch the one behind them, if it has the same type. -/
def NoChain : List Pmmap → Prop
  | a :: b :: c :: l => (a.Merges b → ¬ (a.join b).Merges c) ∧ NoChain (b :: c :: l)
  | _ => True

/-- No usable range ends behind the last usable one, unless that is the next in the list. -/
def LastEnds : List Pmmap → Prop
  | [] => True
  | a :: l => (a.type = MEM_RAM → ∀ b, lastUsable l.tail = some b → a.stop ≤ b.stop) ∧ LastEnds l

def Pmmap.Touches (a b : Pmmap) : Prop := a.start ≤ b.stop ∧ b.start ≤ a.stop

/-! ### Inserting -/

theorem perm_pmmapInsert (l : List Pmmap) (e : Pmmap) : (pmmapInsert l e).Perm (e :: l) := by
  induction l with
  | nil => exact .refl _
  | cons s l ih =>
    rw [pmmapInsert]
    split_ifs
    · exact .refl _
    · exact (ih.cons s).trans (.swap e s l)

variable {l : List Pmmap} {s a b : Pmmap} {type : UInt32} {sub : ℕ → List Pmmap}

theorem sorted_pmmapInsert (h : l.Pairwise fun a b => a.start ≤ b.start) (e : Pmmap) :
    (pmmapInsert l e).Pairwise fun a b => a.start ≤ b.start := by
  induction l with
  | nil => simp [pmmapInsert]
  | cons s l ih =>
    obtain ⟨hs, hl⟩ := pairwise_cons.mp h
    rw [pmmapInsert]
    split_ifs with hlt
    · refine pairwise_cons.mpr ⟨fun a ha => ?_, h⟩
      rcases mem_cons.mp ha with rfl | ha
      · exact UInt32.le_of_lt hlt
      · exact UInt32.le_trans (UInt32.le_of_lt hlt) (hs a ha)
    · refine pairwise_cons.mpr ⟨fun a ha => ?_, ih hl⟩
      rcases mem_pmmapInsert.mp ha with rfl | ha
      · exact UInt32.not_lt.mp hlt
      · exact hs a ha

theorem foldl_pmmapInsert_spec (es : List Pmmap) :
    (es.foldl pmmapInsert []).Perm es ∧ (es.foldl pmmapInsert []).Pairwise fun a b => a.start ≤ b.start := by
  have key : ∀ l : List Pmmap, (l.Pairwise fun a b => a.start ≤ b.start) →
      (es.foldl pmmapInsert l).Perm (es ++ l) ∧ (es.foldl pmmapInsert l).Pairwise fun a b => a.start ≤ b.start := by
    induction es with
    | nil => exact fun l hl => ⟨.refl _, hl⟩
    | cons e es ih =>
      intro l hl
      obtain ⟨hp, hs⟩ := ih _ (sorted_pmmapInsert hl e)
      exact ⟨hp.trans (((perm_pmmapInsert l e).append_left es).trans perm_middle), hs⟩
  simpa using key [] List.Pairwise.nil

/-! ### Merging -/

theorem pmmapMerge_cons_cons (s n : Pmmap) (l : List Pmmap) :
    pmmapMerge (s :: n :: l) = if s.Merges n then s.join n :: pmmapMerge l else s :: pmmapMerge (n :: l) := rfl

theorem head_pmmapMerge (s : Pmmap) (l : List Pmmap) :
    ∃ h m, pmmapMerge (s :: l) = h :: m ∧ h.start = s.start ∧ h.type = s.type := by
  cases l with
  | nil => exact ⟨s, [], rfl, rfl, rfl⟩
  | cons n l =>
    rw [pmmapMerge_cons_cons]
    split_ifs
    · exact ⟨_, _, rfl, rfl, rfl⟩
    · exact ⟨_, _, rfl, rfl, rfl⟩

theorem toNat_join (s n : Pmmap) : (s.join n).stop.toNat = max s.stop.toNat n.stop.toNat := by
  show (if n.stop < s.stop then s.stop else n.stop).toNat = _
  split_ifs with h
  · rw [lt_iff_toNat_lt] at h
    omega
  · rw [lt_iff_toNat_lt] at h
    omega

theorem has_join {n : Pmmap} (h : s.Merges n) (x : ℕ) : (s.join n).Has x ↔ s.Has x ∨ n.Has x := by
  obtain ⟨h1, h2, -⟩ := h
  rw [le_iff_toNat_le] at h1 h2
  unfold Pmmap.Has
  rw [toNat_join]
  show s.start.toNat ≤ x ∧ _ ↔ _
  omega

def Covered (l : List Pmmap) (type : UInt32) (x : ℕ) : Prop := ∃ s ∈ l, s.type = type ∧ s.Has x

theorem covered_cons {x : ℕ} :
    Covered (s :: l) type x ↔ (s.type = type ∧ s.Has x) ∨ Covered l type x := by
  unfold Covered
  rw [exists_mem_cons_iff]

theorem covered_pmmapMerge (l : List Pmmap) (type : UInt32) (x : ℕ) : Covered (pmmapMerge l) type x ↔ Covered l type x := by
  induction l using pmmapMerge.induct with
  | case1 => exact Iff.rfl
  | case2 e => exact Iff.rfl
  | case3 s n l hc ih =>
    have hm : s.Merges n := hc
    rw [pmmapMerge_cons_cons, if_pos hm, covered_cons, covered_cons, covered_cons, ih, has_join hm, ← hm.2.2, ← or_assoc,
      ← and_or_left]
    rfl
  | case4 s n l hc ih =>
    have hm : ¬ s.Merges n := hc
    rw [pmmapMerge_cons_cons, if_neg hm, covered_cons, covered_cons, ih]

theorem not_touches {c : Pmmap} (hle : a.start ≤ b.start) (hm : ¬ a.Merges b) (hc : c.start = b.start) (ht : a.type = b.type) :
    ¬ a.Touches c := fun h => hm ⟨hle, hc ▸ h.2, ht⟩

theorem NoChain.tail (h : NoChain (a :: l)) : NoChain l := by
  rcases l with _ | ⟨b, _ | ⟨c, l⟩⟩
  · trivial
  · trivial
  · exact h.2

theorem apart_cons (ih : (pmmapMerge (s :: l)).IsChain fun a b => a.type = b.type → ¬ a.Touches b)
    (hle : a.start ≤ s.start) (hm : ¬ a.Merges s) :
    (a :: pmmapMerge (s :: l)).IsChain fun a b => a.type = b.type → ¬ a.Touches b := by
  obtain ⟨h, m, he, hstart, htype⟩ := head_pmmapMerge s l
  rw [he] at ih ⊢
  exact isChain_cons_cons.mpr ⟨fun ht => not_touches hle hm hstart (ht.trans htype), ih⟩

theorem apart_pmmapMerge (hl : l.Pairwise fun a b => a.start ≤ b.start) (hn : NoChain l) :
    (pmmapMerge l).IsChain fun a b => a.type = b.type → ¬ a.Touches b := by
  induction l using pmmapMerge.induct with
  | case1 => exact isChain_nil
  | case2 e => exact isChain_singleton e
  | case3 s n l hc ih =>
    have hm : s.Merges n := hc
    rw [pmmapMerge_cons_cons, if_pos hm]
    obtain ⟨hs, hl'⟩ := pairwise_cons.mp hl
    have ih := ih hl'.of_cons hn.tail.tail
    cases l with
    | nil => exact isChain_singleton _
    | cons c l => exact apart_cons ih (hs c (by simp)) (hn.1 hm)
  | case4 s n l hc ih =>
    have hm : ¬ s.Merges n := hc
    rw [pmmapMerge_cons_cons, if_neg hm]
    obtain ⟨hs, hl'⟩ := pairwise_cons.mp hl
    exact apart_cons (ih hl' hn.tail) (hs n (by simp)) hm

/-! ### The last usable range -/

theorem lastUsable_cons (s : Pmmap) (l : List Pmmap) :
    lastUsable (s :: l) = (lastUsable l).or (if s.type = MEM_RAM then some s else none) := by
  unfold lastUsable
  by_cases hs : s.type = MEM_RAM
  · rw [filter_cons_of_pos (by simpa using hs), List.getLast?_cons, if_pos hs]
    cases (l.filter fun s => s.type = MEM_RAM).getLast? <;> rfl
  · rw [filter_cons_of_neg (by simpa using hs), if_neg hs, Option.or_none]

theorem stop_le_join (s n : Pmmap) : s.stop ≤ (s.join n).stop ∧ n.stop ≤ (s.join n).stop := by
  rw [le_iff_toNat_le, le_iff_toNat_le, toNat_join]
  omega

theorem lastUsable_pmmapMerge (l : List Pmmap) :
    (lastUsable l = none → lastUsable (pmmapMerge l) = none) ∧
      ∀ b, lastUsable l = some b → ∃ b', lastUsable (pmmapMerge l) = some b' ∧ b.stop ≤ b'.stop := by
  induction l using pmmapMerge.induct with
  | case1 => exact ⟨id, fun b hb => by cases hb⟩
  | case2 e => exact ⟨id, fun b hb => ⟨b, hb, UInt32.le_refl _⟩⟩
  | case3 s n l hc ih =>
    have hm : s.Merges n := hc
    have ht : (s.join n).type = s.type := rfl
    rw [pmmapMerge_cons_cons, if_pos hm, lastUsable_cons, lastUsable_cons, lastUsable_cons, ht, ← hm.2.2]
    cases hl : lastUsable l with
    | none =>
      rw [ih.1 hl]
      by_cases hs : s.type = MEM_RAM
      · rw [if_pos hs, if_pos hs, if_pos hs]
        refine ⟨fun h => (by cases h), fun b hb => ⟨_, rfl, ?_⟩⟩
        obtain rfl : n = b := Option.some.inj hb
        exact (stop_le_join s n).2
      · rw [if_neg hs, if_neg hs, if_neg hs]
        exact ⟨id, fun b hb => by cases hb⟩
    | some b =>
      obtain ⟨b', hb', hle⟩ := ih.2 b hl
      rw [hb']
      refine ⟨fun h => (by cases h), fun c hc => ⟨b', rfl, ?_⟩⟩
      obtain rfl : b = c := Option.some.inj hc
      exact hle
  | case4 s n l hc ih =>
    have hm : ¬ s.Merges n := hc
    rw [pmmapMerge_cons_cons, if_neg hm, lastUsable_cons s, lastUsable_cons s]
    cases hl : lastUsable (n :: l) with
    | none =>
      rw [ih.1 hl]
      exact ⟨id, fun b hb => ⟨b, hb, UInt32.le_refl _⟩⟩
    | some b =>
      obtain ⟨b', hb', hle⟩ := ih.2 b hl
      rw [hb']
      refine ⟨fun h => (by cases h), fun c hc => ⟨b', rfl, ?_⟩⟩
      obtain rfl : b = c := Option.some.inj hc
      exact hle

theorem exists_lastUsable {b' : Pmmap} (h : lastUsable (pmmapMerge l) = some b') :
    ∃ b, lastUsable l = some b ∧ b.stop ≤ b'.stop := by
  cases hl : lastUsable l with
  | none =>
    rw [(lastUsable_pmmapMerge l).1 hl] at h
    cases h
  | some b =>
    obtain ⟨c, hc, hle⟩ := (lastUsable_pmmapMerge l).2 b hl
    obtain rfl : c = b' := Option.some.inj (hc.symm.trans h)
    exact ⟨b, rfl, hle⟩

/-- Every usable range ends where the last one does, or before it. -/
def EndsLast (l : List Pmmap) : Prop := ∀ e ∈ l, e.type = MEM_RAM → ∃ b, lastUsable l = some b ∧ e.stop ≤ b.stop

theorem EndsLast.cons (h : EndsLast l)
    (hs : s.type = MEM_RAM → ∀ b, lastUsable l = some b → s.stop ≤ b.stop) : EndsLast (s :: l) := by
  intro e he ht
  rw [lastUsable_cons]
  rcases mem_cons.mp he with rfl | he
  · rw [if_pos ht]
    cases hl : lastUsable l with
    | none => exact ⟨e, rfl, UInt32.le_refl _⟩
    | some b => exact ⟨b, rfl, hs ht b hl⟩
  · obtain ⟨b, hb, hle⟩ := h e he ht
    rw [hb]
    exact ⟨b, rfl, hle⟩

theorem stop_le_of_not_merges (hle : a.start ≤ b.start) (hb : b.start ≤ b.stop) (ht : a.type = b.type)
    (hm : ¬ a.Merges b) : a.stop ≤ b.stop := by
  have hlt : ¬ b.start ≤ a.stop := fun h => hm ⟨hle, h, ht⟩
  rw [le_iff_toNat_le] at hb hlt ⊢
  omega

theorem LastEnds.stop_le (hrest : ∀ b, lastUsable l = some b → a.stop ≤ b.stop)
    (hnext : s.type = MEM_RAM → a.stop ≤ s.stop) (hb : lastUsable (s :: l) = some b) : a.stop ≤ b.stop := by
  rw [lastUsable_cons] at hb
  cases hl : lastUsable l with
  | some c =>
    rw [hl] at hb
    obtain rfl : c = b := Option.some.inj hb
    exact hrest c hl
  | none =>
    rw [hl, Option.none_or] at hb
    split_ifs at hb with hs
    obtain rfl : s = b := Option.some.inj hb
    exact hnext hs

theorem endsLast_pmmapMerge (hp : ∀ s ∈ l, s.start ≤ s.stop) (hl : l.Pairwise fun a b => a.start ≤ b.start)
    (hn : NoChain l) (he : LastEnds l) : EndsLast (pmmapMerge l) := by
  induction l using pmmapMerge.induct with
  | case1 => exact fun e he => absurd he not_mem_nil
  | case2 e => exact EndsLast.cons (fun e he => absurd he not_mem_nil) fun _ b hb => by cases hb
  | case3 s n l hc ih =>
    have hm : s.Merges n := hc
    obtain ⟨hs, hl'⟩ := pairwise_cons.mp hl
    rw [pmmapMerge_cons_cons, if_pos hm]
    refine (ih (fun x hx => hp x (by simp [hx])) hl'.of_cons hn.tail.tail he.2.2).cons fun ht b' hb' => ?_
    obtain ⟨b, hb, hle⟩ := exists_lastUsable hb'
    refine UInt32.le_trans ?_ hle
    cases l with
    | nil => cases hb
    | cons c l =>
      have hc : c.type = MEM_RAM → (s.join n).stop ≤ c.stop := fun htc =>
        stop_le_of_not_merges (a := s.join n) (hs c (by simp)) (hp c (by simp)) (Eq.trans ht htc.symm) (hn.1 hm)
      refine LastEnds.stop_le (fun d hd => ?_) hc hb
      -- both parts end before the last range, which is not the next one
      have h1 := he.1 ht d (by rw [tail_cons, lastUsable_cons, hd]; rfl)
      have h2 := he.2.1 (hm.2.2.symm.trans ht) d hd
      rw [le_iff_toNat_le] at h1 h2 ⊢
      rw [toNat_join]
      omega
  | case4 s n l hc ih =>
    have hm : ¬ s.Merges n := hc
    obtain ⟨hs, hl'⟩ := pairwise_cons.mp hl
    rw [pmmapMerge_cons_cons, if_neg hm]
    refine (ih (fun x hx => hp x (by simp [hx])) hl' hn.tail he.2).cons fun ht b' hb' => ?_
    obtain ⟨b, hb, hle⟩ := exists_lastUsable hb'
    refine UInt32.le_trans ?_ hle
    exact LastEnds.stop_le (he.1 ht) (fun hn' => stop_le_of_not_merges (hs n (by simp)) (hp n (by simp)) (ht.trans hn'.symm) hm) hb

/-! ### The four lists -/

theorem pmmapSublists_spec {sub' : ℕ → List Pmmap} (h : pmmapSublists l sub = some sub') (nr : ℕ) :
    sub' nr = sub nr ++ l.filter fun s => sublistNr s.type = some nr := by
  induction l generalizing sub with
  | nil =>
    obtain rfl := Option.some.inj h
    simp
  | cons s l ih =>
    rw [pmmapSublists] at h
    cases hs : sublistNr s.type with
    | none =>
      rw [hs] at h
      cases h
    | some i =>
      rw [hs] at h
      rw [ih h]
      by_cases hi : nr = i
      · subst hi
        rw [Function.update_self, filter_cons_of_pos (by simpa using hs), append_assoc, singleton_append]
      · rw [Function.update_of_ne hi, filter_cons_of_neg (by simpa [hs] using Ne.symm hi)]

theorem sublistNr_eq_zero : sublistNr type = some 0 ↔ type = MEM_RAM := by
  unfold sublistNr
  split_ifs with h1 h2 h3 h4 <;> simp [h1]

theorem maxUsableMemory_eq (h : pmmapSublists l (fun _ => []) = some sub) :
    maxUsableMemory sub = match lastUsable l with | some s => s.stop | none => 0 := by
  unfold maxUsableMemory lastUsable
  rw [pmmapSublists_spec h 0, nil_append]
  simp only [sublistNr_eq_zero]

/-- A map with low memory, a hole and memory in two ranges that touch. -/
def pcRanges : List Pmmap :=
  [⟨0x100000, 0x40000000, 1⟩, ⟨0, 0x9fc00, 1⟩, ⟨0x40000000, 0x7ffe0000, 1⟩, ⟨0x9fc00, 0x100000, 2⟩]

end MCertiKOS.Memory
