import MCertiKOS.Thread.Scheduler

/-!
# The thread queues as lists

`TQueuePool` holds a head and a tail for every queue of every processor, and `TCBPool` one pair of links for every
thread, shared by all queues. A queue together with the links is a `Links`, so each operation is the one on the ready
queue at that queue's head and tail.

`Queues P L` says that queue `q` is the list `L q`, that no thread is in two queues and that the links of a thread in
no queue are `NUM_IDS`. An operation on one queue writes links of that queue's threads and of its argument only, so
`Queues.put` carries the other lists through.
-/

namespace MCertiKOS.Thread

open Library Memory List
open Function (update update_eq_self update_of_ne update_self)

/-- A queue: the processor and the `chid`. -/
abbrev Chid := ℕ × ℕ

/-- The links of `TCBPool` and the heads and tails of `TQueuePool`. -/
structure Pool where
  prev : ℕ → ℕ
  next : ℕ → ℕ
  head : Chid → ℕ
  tail : Chid → ℕ

namespace Pool

/-- Queue `q` with the links. -/
def links (P : Pool) (q : Chid) : Links ℕ := ⟨P.head q, P.tail q, P.prev, P.next⟩

/-- The pool after an operation on queue `q`. -/
def put (P : Pool) (q : Chid) (k : Links ℕ) : Pool :=
  ⟨k.prev, k.next, update P.head q k.head, update P.tail q k.tail⟩

def tqueueEnqueue (P : Pool) (q : Chid) (pid : ℕ) : Pool := P.put q (Thread.tqueueEnqueue (P.links q) pid)

def tqueueDequeue (P : Pool) (q : Chid) : ℕ × Pool :=
  ((Thread.tqueueDequeue (P.links q)).1, P.put q (Thread.tqueueDequeue (P.links q)).2)

def tqueueRemove (P : Pool) (q : Chid) (pid : ℕ) : Pool := P.put q (Thread.tqueueRemove (P.links q) pid)

end Pool

/-- The queues of `P` are the lists `L`. -/
structure Queues (P : Pool) (L : Chid → List ℕ) : Prop where
  rep : ∀ q, (P.links q).Rep NUM_IDS (L q)
  lt : ∀ q, ∀ p ∈ L q, p < NUM_IDS
  once : ∀ q q', ∀ p ∈ L q, p ∈ L q' → q = q'
  detached : ∀ p < NUM_IDS, (∀ q, p ∉ L q) → P.prev p = NUM_IDS ∧ P.next p = NUM_IDS

variable {P : Pool} {L : Chid → List ℕ} {q : Chid} {k : Links ℕ}

@[simp] theorem Pool.put_links (P : Pool) (q : Chid) : P.put q (P.links q) = P := by simp [put, links]

theorem Pool.links_put_same (P : Pool) (q : Chid) (k : Links ℕ) : (P.put q k).links q = k := by simp [put, links]

theorem Queues.put (h : Queues P L) {l : List ℕ} (hrep : k.Rep NUM_IDS l)
    (hkeep : ∀ j < NUM_IDS, j ∉ L q → j ∉ l → k.prev j = P.prev j ∧ k.next j = P.next j)
    (hin : ∀ j ∈ l, j < NUM_IDS ∧ ∀ q' ≠ q, j ∉ L q')
    (hout : ∀ j ∈ L q, j ∉ l → k.prev j = NUM_IDS ∧ k.next j = NUM_IDS) :
    Queues (P.put q k) (update L q l) := by
  have hother : ∀ q' ≠ q, ∀ j ∈ L q', j ∉ L q ∧ j ∉ l := fun q' hne j hj =>
    ⟨fun hj' => hne (h.once q' q j hj hj'), fun hj' => (hin j hj').2 q' hne hj⟩
  refine ⟨fun q' => ?_, fun q' j hj => ?_, fun q1 q2 j h1 h2 => ?_, fun j hlt hj => ?_⟩
  · by_cases hq : q' = q
    · subst hq
      rw [Pool.links_put_same, update_self]
      exact hrep
    · rw [update_of_ne hq]
      refine (h.rep q').congr ?_ ?_ fun j hj => ?_
      · exact update_of_ne hq _ _
      · exact update_of_ne hq _ _
      · exact hkeep j (h.lt q' j hj) (hother q' hq j hj).1 (hother q' hq j hj).2
  · by_cases hq : q' = q
    · subst hq
      rw [update_self] at hj
      exact (hin j hj).1
    · rw [update_of_ne hq] at hj
      exact h.lt q' j hj
  · by_cases hq1 : q1 = q <;> by_cases hq2 : q2 = q
    · rw [hq1, hq2]
    · rw [hq1, update_self] at h1
      rw [update_of_ne hq2] at h2
      exact absurd h1 (hother q2 hq2 j h2).2
    · rw [hq2, update_self] at h2
      rw [update_of_ne hq1] at h1
      exact absurd h2 (hother q1 hq1 j h1).2
    · rw [update_of_ne hq1] at h1
      rw [update_of_ne hq2] at h2
      exact h.once q1 q2 j h1 h2
  · have hl : j ∉ l := by simpa using hj q
    by_cases hL : j ∈ L q
    · exact hout j hL hl
    · have hkept := hkeep j hlt hL hl
      have hd := h.detached j hlt fun q' => by
        by_cases hq : q' = q
        · rwa [hq]
        · simpa [hq] using hj q'
      exact ⟨hkept.1.trans hd.1, hkept.2.trans hd.2⟩

theorem Queues.erase (h : Queues P L) {pid : ℕ} {l1 l2 : List ℕ} (hL : L q = l1 ++ pid :: l2) :
    Queues (P.put q ((P.links q).remove NUM_IDS pid)) (update L q (l1 ++ l2)) := by
  have hrep : (P.links q).Rep NUM_IDS (l1 ++ pid :: l2) := hL ▸ h.rep q
  have hsub : ∀ j ∈ l1 ++ l2, j ∈ L q := by
    intro j hj
    rw [hL]
    simp only [mem_append, mem_cons] at hj ⊢
    tauto
  refine h.put hrep.remove (fun j hlt hj _ => hrep.remove_frame (hL ▸ hj) hlt.ne)
    (fun j hj => ⟨h.lt q j (hsub j hj), fun q' hne hj' => hne (h.once q' q j hj' (hsub j hj))⟩) fun j hj hj' => ?_
  have he : j = pid := by
    rw [hL] at hj
    simp only [mem_append, mem_cons] at hj hj'
    tauto
  rw [he]
  exact Links.remove_self _ _

/-- The queue operations on a family of queues: `tqueue_enqueue` of a thread in no queue
appends it, `tqueue_dequeue` takes the first thread and answers `NUM_IDS` on an empty
queue, `tqueue_remove` erases a thread of the queue and does nothing for a thread in no
queue; the other queues and the invariant are kept. -/
theorem tqueue_refines (P : Pool) (L : Chid → List ℕ) (h : Queues P L) (q : Chid) :
    (∀ p < NUM_IDS, (∀ q', p ∉ L q') → Queues (P.tqueueEnqueue q p) (update L q (L q ++ [p]))) ∧
    ((P.tqueueDequeue q).1 = (L q).head?.getD NUM_IDS ∧
      Queues (P.tqueueDequeue q).2 (update L q (L q).tail)) ∧
    (∀ p ∈ L q, Queues (P.tqueueRemove q p) (update L q ((L q).erase p))) ∧
    ∀ p < NUM_IDS, (∀ q', p ∉ L q') → P.tqueueRemove q p = P := by
  have hrep := h.rep q
  refine ⟨fun p hlt hp => ?_, ?_, fun p hp => ?_, fun p hlt hp => ?_⟩
  · unfold Pool.tqueueEnqueue
    rw [tqueueEnqueue_eq _ hlt.ne]
    refine h.put (hrep.enqueue (hp q) hlt.ne) (fun j hj hjL hjl => ?_) (fun j hj => ?_) fun j hj hj' => ?_
    · exact hrep.enqueue_frame hjL hj.ne fun e => hjl (by simp [e])
    · rcases mem_append.mp hj with hj | hj
      · exact ⟨h.lt q j hj, fun q' hne hj' => hne (h.once q' q j hj' hj)⟩
      · rw [mem_singleton] at hj
        subst hj
        exact ⟨hlt, fun q' _ => hp q'⟩
    · exact absurd (mem_append_left _ hj) hj'
  · unfold Pool.tqueueDequeue
    cases hl : L q with
    | nil =>
      rw [hl] at hrep
      rw [tqueueDequeue_nil hrep, Pool.put_links, tail_nil, ← hl, update_eq_self, hl]
      exact ⟨rfl, h⟩
    | cons p l =>
      rw [hl] at hrep
      rw [tqueueDequeue_cons hrep]
      exact ⟨rfl, h.erase (show L q = [] ++ p :: l from hl)⟩
  · obtain ⟨l₁, l₂, hnot, hl, her⟩ := exists_erase_eq hp
    rw [hl] at hrep
    unfold Pool.tqueueRemove
    rw [tqueueRemove_of_mem hrep, her]
    exact h.erase hl
  · obtain ⟨hprev, hnext⟩ := h.detached p hlt hp
    have hhead : (P.links q).head ≠ p := by
      cases hl : L q with
      | nil =>
        rw [hl] at hrep
        rw [hrep.head_nil]
        exact hlt.ne'
      | cons a l =>
        rw [hl] at hrep
        rw [hrep.head_cons.1]
        rintro rfl
        exact hp q (by simp [hl])
    unfold Pool.tqueueRemove
    rw [tqueueRemove_of_detached hprev hnext hhead, Pool.put_links]

theorem queues_empty : Queues ⟨fun _ => NUM_IDS, fun _ => NUM_IDS, fun _ => NUM_IDS, fun _ => NUM_IDS⟩ fun _ => [] where
  rep q := ⟨nodup_nil, not_mem_nil, by simp [Links.Adj, Links.succ, Links.pred, Pool.links]⟩
  lt := by simp
  once := by simp
  detached := by simp

theorem tqueue_refines_empty :
    Queues ((⟨fun _ => NUM_IDS, fun _ => NUM_IDS, fun _ => NUM_IDS, fun _ => NUM_IDS⟩ : Pool).tqueueEnqueue (0, 3) 5)
      (update (fun _ => []) (0, 3) [5]) :=
  (tqueue_refines _ _ queues_empty (0, 3)).1 5 (by decide) (by simp)

end MCertiKOS.Thread
