import Mathlib.Data.List.Chain
import Mathlib.Data.List.Nodup
import Mathlib.Logic.Function.Basic

/-!
# Intrusive doubly linked queues

A queue of indices whose links live in two arrays `prev` and `next` outside the queue, with a distinguished index
`nil` for "no element". The head is read as the successor of `nil` and the tail as its predecessor, so every
operation is made of two: `link p n` makes `n` the successor of `p` and `p` the predecessor of `n`, and `detach i`
forgets the links of `i`.

`Rep nil q l` says that the links of `q` spell out the list `l` in both directions. `enqueue` appends to `l`,
`remove` takes an element out of it and `dequeue` its first one; none of them touches the links of an index that is
neither in the queue nor its argument. A queue read backwards is a queue (`flip`), and `push` is `enqueue` there.
-/

namespace MCertiKOS.Library

open List

/-- The links of a queue of indices. -/
@[ext]
structure Links (ι : Type*) where
  head : ι
  tail : ι
  prev : ι → ι
  next : ι → ι

namespace Links

variable {ι : Type*} [DecidableEq ι] (nil : ι)

/-- The element after `i`, the head for `nil`. -/
def succ (q : Links ι) (i : ι) : ι := if i = nil then q.head else q.next i

/-- The element before `i`, the tail for `nil`. -/
def pred (q : Links ι) (i : ι) : ι := if i = nil then q.tail else q.prev i

/-- Make `n` the successor of `p` and `p` the predecessor of `n`. -/
def link (q : Links ι) (p n : ι) : Links ι where
  head := if p = nil then n else q.head
  tail := if n = nil then p else q.tail
  prev := if n = nil then q.prev else Function.update q.prev n p
  next := if p = nil then q.next else Function.update q.next p n

/-- Forget the links of `i`. -/
def detach (q : Links ι) (i : ι) : Links ι :=
  { q with prev := Function.update q.prev i nil, next := Function.update q.next i nil }

/-- Insert `i` at the tail. -/
def enqueue (q : Links ι) (i : ι) : Links ι := link nil (link nil q q.tail i) i nil

/-- Take `i` out from between its neighbours. -/
def remove (q : Links ι) (i : ι) : Links ι := detach nil (link nil q (q.prev i) (q.next i)) i

/-- The elements, following `next` from `i`; at most `fuel` of them. -/
def walk (q : Links ι) : ℕ → ι → List ι
  | 0, _ => []
  | fuel + 1, i => if i = nil then [] else i :: q.walk fuel (q.next i)

/-- `a` and `b` are neighbours, in both directions. -/
def Adj (q : Links ι) (a b : ι) : Prop := q.succ nil a = b ∧ q.pred nil b = a

/-- The links of `q` spell out the list `l`. -/
structure Rep (q : Links ι) (l : List ι) : Prop where
  nodup : l.Nodup
  nil_notMem : nil ∉ l
  /-- From `nil` through the elements back to `nil`. -/
  chain : List.IsChain (Adj nil q) (nil :: (l ++ [nil]))

variable {nil} {q : Links ι} {l : List ι}

variable {i j : ι} {l₁ l₂ : List ι}

theorem succ_of_ne (h : i ≠ nil) : q.succ nil i = q.next i := if_neg h

theorem pred_of_ne (h : i ≠ nil) : q.pred nil i = q.prev i := if_neg h

theorem succ_nil (nil : ι) : q.succ nil nil = q.head := if_pos rfl

theorem pred_nil (nil : ι) : q.pred nil nil = q.tail := if_pos rfl

theorem succ_link (p n a : ι) : (link nil q p n).succ nil a = if a = p then n else q.succ nil a := by
  by_cases hp : p = nil <;> by_cases ha : a = nil <;> by_cases hap : a = p <;>
    simp_all [succ, link]

theorem pred_link (p n b : ι) : (link nil q p n).pred nil b = if b = n then p else q.pred nil b := by
  by_cases hn : n = nil <;> by_cases hb : b = nil <;> by_cases hbn : b = n <;>
    simp_all [pred, link]

theorem succ_detach {a : ι} (ha : a ≠ i) : (detach nil q i).succ nil a = q.succ nil a := by
  simp [succ, detach, ha]

theorem pred_detach {b : ι} (hb : b ≠ i) : (detach nil q i).pred nil b = q.pred nil b := by
  simp [pred, detach, hb]

/-! ### The represented list -/

theorem Rep.congr (h : Rep nil q l) {q' : Links ι} (hh : q'.head = q.head) (ht : q'.tail = q.tail)
    (hl : ∀ i ∈ l, q'.prev i = q.prev i ∧ q'.next i = q.next i) : Rep nil q' l where
  nodup := h.nodup
  nil_notMem := h.nil_notMem
  chain := by
    refine h.chain.imp_of_mem_imp fun a b ha hb hab => ?_
    have key : ∀ i ∈ nil :: (l ++ [nil]), q'.succ nil i = q.succ nil i ∧ q'.pred nil i = q.pred nil i := by
      intro i hi
      by_cases hin : i = nil
      · subst hin
        simp [succ_nil, pred_nil, hh, ht]
      · have : i ∈ l := by simpa [hin] using hi
        rw [succ_of_ne hin, succ_of_ne hin, pred_of_ne hin, pred_of_ne hin]
        exact ⟨(hl i this).2, (hl i this).1⟩
    exact ⟨(key a ha).1.trans hab.1, (key b hb).2.trans hab.2⟩

theorem Rep.adj (h : Rep nil q (l₁ ++ i :: l₂)) :
    Adj nil q (q.prev i) i ∧ Adj nil q i (q.next i) ∧ q.prev i ∈ nil :: l₁ ∧ q.next i ∈ l₂ ++ [nil] := by
  have hin : i ≠ nil := fun e => h.nil_notMem (by simp [e])
  have hc : List.IsChain (Adj nil q) ((nil :: l₁) ++ i :: (l₂ ++ [nil])) := by simpa using h.chain
  rw [isChain_split, isChain_append] at hc
  obtain ⟨⟨-, -, hp⟩, hn⟩ := hc
  have hp' := hp _ (List.getLast?_eq_some_getLast (cons_ne_nil nil l₁)) i (by simp)
  obtain ⟨b, m, hbm⟩ : ∃ b m, l₂ ++ [nil] = b :: m := by cases l₂ <;> simp
  rw [hbm, isChain_cons_cons] at hn
  have e1 : q.prev i = (nil :: l₁).getLast (cons_ne_nil nil l₁) := by
    rw [← pred_of_ne hin]
    exact hp'.2
  have e2 : q.next i = b := by
    rw [← succ_of_ne hin]
    exact hn.1.1
  rw [e1, e2]
  refine ⟨hp', hn.1, getLast_mem _, ?_⟩
  rw [hbm]
  simp

theorem Rep.head_cons (h : Rep nil q (i :: l)) : q.head = i ∧ q.prev i = nil := by
  have hin : i ≠ nil := fun e => h.nil_notMem (by simp [e])
  have hc := h.chain
  rw [cons_append, isChain_cons_cons] at hc
  rw [← succ_nil nil, ← pred_of_ne hin]
  exact hc.1

theorem Rep.head_nil (h : Rep nil q []) : q.head = nil := by
  have hc := h.chain
  rw [nil_append, isChain_pair] at hc
  rw [← succ_nil nil]
  exact hc.1

theorem Rep.walk_eq (h : Rep nil q l) {fuel : ℕ} (hf : l.length ≤ fuel) : q.walk nil fuel q.head = l := by
  have key : ∀ (l : List ι) (a : ι) (fuel : ℕ), nil ∉ l → l.length ≤ fuel →
      List.IsChain (Adj nil q) (a :: (l ++ [nil])) → q.walk nil fuel (q.succ nil a) = l := by
    intro l
    induction l with
    | nil =>
      intro a fuel _ _ hc
      rw [nil_append, isChain_pair] at hc
      rw [hc.1]
      cases fuel <;> simp [walk]
    | cons b l ih =>
      intro a fuel hn hlen hc
      rw [cons_append, isChain_cons_cons] at hc
      obtain ⟨hbn, hn⟩ := not_or.mp (mt mem_cons.mpr hn)
      cases fuel with
      | zero => simp at hlen
      | succ fuel =>
        rw [hc.1.1, walk, if_neg (Ne.symm hbn), ← succ_of_ne (Ne.symm hbn)]
        rw [ih b fuel hn (by simpa using hlen) hc.2]
  rw [← succ_nil nil]
  exact key l nil fuel h.nil_notMem hf h.chain

/-! ### Insertion -/

theorem Rep.tail_adj (h : Rep nil q l) : Adj nil q q.tail nil ∧ q.tail ∈ nil :: l := by
  have hc : List.IsChain (Adj nil q) ((nil :: l) ++ [nil]) := h.chain
  rw [isChain_append] at hc
  have ha := hc.2.2 _ (List.getLast?_eq_some_getLast (cons_ne_nil nil l)) nil (by simp)
  have e : q.tail = (nil :: l).getLast (cons_ne_nil nil l) := by
    rw [← pred_nil nil]
    exact ha.2
  rw [e]
  exact ⟨ha, getLast_mem _⟩

theorem Rep.enqueue (h : Rep nil q l) (hi : i ∉ l) (hn : i ≠ nil) :
    Rep nil (q.enqueue nil i) (l ++ [i]) := by
  obtain ⟨ht, htm⟩ := h.tail_adj
  have hti : q.tail ≠ i := by
    rintro rfl
    simp only [mem_cons] at htm
    tauto
  have hsucc : ∀ a, (q.enqueue nil i).succ nil a = if a = i then nil else if a = q.tail then i else q.succ nil a := by
    intro a
    rw [Links.enqueue, succ_link, succ_link]
  have hpred : ∀ b, (q.enqueue nil i).pred nil b = if b = nil then i else if b = i then q.tail else q.pred nil b := by
    intro b
    rw [Links.enqueue, pred_link, pred_link]
  refine ⟨?_, by simp [h.nil_notMem, hn.symm], ?_⟩
  · rw [nodup_append]
    exact ⟨h.nodup, nodup_singleton i, fun a ha b hb e => hi (by simp at hb; rwa [← hb, ← e])⟩
  · have hc : List.IsChain (Adj nil q) (nil :: l) := by
      have := h.chain
      rw [← cons_append] at this
      exact this.left_of_append
    have hc' : List.IsChain (Adj nil (q.enqueue nil i)) (nil :: l) := by
      refine hc.imp_of_mem_tail_imp fun a b ha hb hab => ?_
      have hbn : b ≠ nil := fun e => h.nil_notMem (e ▸ hb)
      have hbi : b ≠ i := fun e => hi (e ▸ hb)
      have hai : a ≠ i := by
        rintro rfl
        simp only [mem_cons] at ha
        tauto
      -- the old tail had `nil` after it
      have hat : a ≠ q.tail := fun e => hbn (by rw [← hab.1, e]; exact ht.1)
      refine ⟨?_, ?_⟩
      · rw [hsucc, if_neg hai, if_neg hat]
        exact hab.1
      · rw [hpred, if_neg hbn, if_neg hbi]
        exact hab.2
    rw [show nil :: (l ++ [i] ++ [nil]) = (nil :: l) ++ [i, nil] by simp]
    refine hc'.append ?_ ?_
    · rw [isChain_pair]
      exact ⟨by rw [hsucc, if_pos rfl], by rw [hpred, if_pos rfl]⟩
    · intro a ha b hb
      have hb' : b = i := by simpa [eq_comm] using hb
      have ha' : a = q.tail := by
        have hc : List.IsChain (Adj nil q) ((nil :: l) ++ [nil]) := h.chain
        rw [isChain_append] at hc
        rw [← pred_nil nil]
        exact (hc.2.2 a ha nil (by simp)).2.symm
      subst hb' ha'
      exact ⟨by rw [hsucc, if_neg hti, if_pos rfl], by rw [hpred, if_neg hn, if_pos rfl]⟩

theorem Rep.enqueue_frame (h : Rep nil q l) (hj : j ∉ l) (hjn : j ≠ nil) (hji : j ≠ i) :
    (q.enqueue nil i).prev j = q.prev j ∧ (q.enqueue nil i).next j = q.next j := by
  have hjt : j ≠ q.tail := by
    rintro rfl
    have := h.tail_adj.2
    simp only [mem_cons] at this
    tauto
  rw [← pred_of_ne hjn, ← pred_of_ne hjn, ← succ_of_ne hjn, ← succ_of_ne hjn, Links.enqueue, pred_link, pred_link,
    succ_link, succ_link]
  simp [hjn, hji, hjt]

/-! ### Removal -/

theorem Rep.remove (h : Rep nil q (l₁ ++ i :: l₂)) :
    Rep nil (q.remove nil i) (l₁ ++ l₂) := by
  obtain ⟨hp, hn, -, -⟩ := h.adj
  have hin : i ≠ nil := fun e => h.nil_notMem (by simp [e])
  have hnd := h.nodup
  rw [nodup_middle, nodup_cons] at hnd
  have hi₁ : i ∉ nil :: l₁ := by
    have := hnd.1
    simp only [mem_append, mem_cons] at this ⊢
    tauto
  have hi₂ : i ∉ l₂ ++ [nil] := by
    have := hnd.1
    simp only [mem_append, mem_singleton] at this ⊢
    tauto
  -- two neighbours other than `i` stay neighbours: the first is not the one before `i`,
  -- nor the second the one after it
  have hstay : ∀ a b, a ≠ i → b ≠ i → Adj nil q a b → Adj nil (q.remove nil i) a b := by
    intro a b ha hb hab
    have hap : a ≠ q.prev i := fun e => hb (by rw [← hab.1, e]; exact hp.1)
    have hbn : b ≠ q.next i := fun e => ha (by rw [← hab.2, e]; exact hn.2)
    refine ⟨?_, ?_⟩
    · rw [Links.remove, succ_detach ha, succ_link, if_neg hap]
      exact hab.1
    · rw [Links.remove, pred_detach hb, pred_link, if_neg hbn]
      exact hab.2
  have hc : List.IsChain (Adj nil q) ((nil :: l₁) ++ i :: (l₂ ++ [nil])) := by simpa using h.chain
  rw [isChain_append] at hc
  obtain ⟨hc₁, hc₂, hlast⟩ := hc
  obtain ⟨hfirst, hc₂⟩ := isChain_cons.mp hc₂
  refine ⟨hnd.2, fun hm => h.nil_notMem ?_, ?_⟩
  · simp only [mem_append, mem_cons] at hm ⊢
    tauto
  · rw [show nil :: (l₁ ++ l₂ ++ [nil]) = (nil :: l₁) ++ (l₂ ++ [nil]) by simp]
    refine List.IsChain.append ?_ ?_ ?_
    · exact hc₁.imp_of_mem_imp fun a b ha hb =>
        hstay a b (fun e => hi₁ (e ▸ ha)) (fun e => hi₁ (e ▸ hb))
    · exact hc₂.imp_of_mem_imp fun a b ha hb =>
        hstay a b (fun e => hi₂ (e ▸ ha)) (fun e => hi₂ (e ▸ hb))
    · intro a ha b hb
      have ha' : q.prev i = a := by
        rw [← pred_of_ne hin]
        exact (hlast a ha i (by simp)).2
      have hb' : q.next i = b := by
        rw [← succ_of_ne hin]
        exact (hfirst b hb).1
      have hai : a ≠ i := fun e => hi₁ (e ▸ mem_of_mem_getLast? ha)
      have hbi : b ≠ i := fun e => hi₂ (e ▸ mem_of_mem_head? hb)
      refine ⟨?_, ?_⟩
      · rw [Links.remove, succ_detach hai, succ_link, if_pos ha'.symm, hb']
      · rw [Links.remove, pred_detach hbi, pred_link, if_pos hb'.symm, ha']

/-- `remove` of an element leaves the links of an index outside the queue alone, and
forgets those of the element. -/
theorem Rep.remove_frame (h : Rep nil q (l₁ ++ i :: l₂)) (hj : j ∉ l₁ ++ i :: l₂)
    (hjn : j ≠ nil) : (q.remove nil i).prev j = q.prev j ∧ (q.remove nil i).next j = q.next j := by
  obtain ⟨-, -, hp, hn⟩ := h.adj
  have hji : j ≠ i := fun e => hj (by simp [e])
  have hjp : j ≠ q.prev i := by
    rintro rfl
    simp only [mem_cons, mem_append] at hp hj
    tauto
  have hjx : j ≠ q.next i := by
    rintro rfl
    simp only [mem_append, mem_cons, not_mem_nil, or_false] at hn hj
    tauto
  rw [← pred_of_ne hjn, ← pred_of_ne hjn, ← succ_of_ne hjn, ← succ_of_ne hjn, Links.remove, pred_detach hji,
    succ_detach hji, pred_link, succ_link, if_neg hjp, if_neg hjx]
  exact ⟨rfl, rfl⟩

theorem remove_self (q : Links ι) (i : ι) : (q.remove nil i).prev i = nil ∧ (q.remove nil i).next i = nil := by
  simp [Links.remove, detach]

/-! ### Backwards -/

def flip (q : Links ι) : Links ι := ⟨q.tail, q.head, q.next, q.prev⟩

theorem Rep.flip (h : Rep nil q l) : Rep nil q.flip l.reverse where
  nodup := nodup_reverse.mpr h.nodup
  nil_notMem := by simpa using h.nil_notMem
  chain := by
    have hc : List.IsChain (fun a b => Adj nil q b a) (nil :: (l ++ [nil])).reverse := isChain_reverse.mpr h.chain
    have he : (nil :: (l ++ [nil])).reverse = nil :: (l.reverse ++ [nil]) := by simp
    rw [he] at hc
    exact hc.imp fun a b hab => ⟨hab.2, hab.1⟩

/-- Insert `i` at the head. -/
def push (nil : ι) (q : Links ι) (i : ι) : Links ι := link nil (link nil q i q.head) nil i

theorem Rep.push (h : Rep nil q l) (hi : i ∉ l) (hn : i ≠ nil) : Rep nil (q.push nil i) (i :: l) := by
  have := (h.flip.enqueue (by simpa using hi) hn).flip
  rwa [reverse_append, reverse_reverse] at this

theorem Rep.unlink (h : Rep nil q (l₁ ++ i :: l₂)) :
    Rep nil (link nil q (q.prev i) (q.next i)) (l₁ ++ l₂) := by
  refine h.remove.congr rfl rfl fun j hj => ?_
  have hnd := h.nodup
  rw [nodup_middle, nodup_cons] at hnd
  have hji : j ≠ i := fun e => hnd.1 (e ▸ hj)
  simp [Links.remove, detach, hji]

end Links

end MCertiKOS.Library
