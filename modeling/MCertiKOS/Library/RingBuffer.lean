import Mathlib.Data.List.Range
import Mathlib.Data.Nat.ModEq
import Mathlib.Logic.Function.Basic

/-!
# Ring buffers with free-running counters

A ring of `c` slots with a read counter and a write counter that are never reduced modulo `c`: they wrap around at
some modulus `M`, as a machine word does. The slot of a counter is its value modulo `c`, and the number of items is
the difference of the counters modulo `M`. When `c` divides `M` a wrapped counter still names the same slot, and when
`c < M` a full ring is told from an empty one. Then the ring is a queue: `push` appends to `contents` and `pop`
removes its first item.
-/

namespace MCertiKOS.Library

open List

/-- A ring of `c` slots with a read and a write counter. -/
structure Ring (α : Type*) (c : ℕ) where
  slot : Fin c → α
  rd : ℕ
  wr : ℕ

namespace Ring

variable {α : Type*} {c : ℕ}

/-! ### Counting -/

section

variable (M : ℕ)

/-- The number of items: the difference of the counters modulo `M`. -/
def count (q : Ring α c) : ℕ := (M - q.rd + q.wr) % M

/-- The counters are reduced modulo `M` and at most `c` items are in the ring. -/
structure Ok (q : Ring α c) : Prop where
  rd_lt : q.rd < M
  wr_lt : q.wr < M
  count_le : q.count M ≤ c

def pop (q : Ring α c) : Ring α c := { q with rd := (q.rd + 1) % M }

end

variable {M : ℕ}

variable {q : Ring α c}

theorem Ok.add_count (h : q.Ok M) : (q.rd + q.count M) % M = q.wr := by
  rw [count, Nat.add_mod_mod, ← Nat.add_assoc, Nat.add_sub_cancel' h.rd_lt.le, Nat.add_mod_left,
    Nat.mod_eq_of_lt h.wr_lt]

theorem Ok.count_eq_zero_iff (h : q.Ok M) : q.count M = 0 ↔ q.rd = q.wr := by
  have h1 := h.add_count
  constructor
  · intro h0
    rw [h0, Nat.add_zero, Nat.mod_eq_of_lt h.rd_lt] at h1
    exact h1
  · intro he
    rw [count, he, Nat.sub_add_cancel h.wr_lt.le, Nat.mod_self]

theorem Ok.count_eq_iff (h : q.Ok M) (hM : c < M) :
    q.count M = c ↔ q.wr = (q.rd + c) % M := by
  have h1 := h.add_count
  constructor
  · intro hc
    rw [hc] at h1
    exact h1.symm
  · intro hw
    rw [← h1] at hw
    have hmod : q.count M ≡ c [MOD M] := Nat.ModEq.add_left_cancel' q.rd hw
    exact hmod.eq_of_lt_of_lt (h.count_le.trans_lt hM) hM

theorem Ok.count_pop (h : q.Ok M) (hM : c < M) (hpos : 0 < q.count M) :
    (q.pop M).count M + 1 = q.count M := by
  have h0 := h.rd_lt
  have hle := h.count_le
  have hlt : (q.rd + 1) % M < M := Nat.mod_lt _ (by omega)
  -- one item fewer leads from the new read counter to the write counter
  have h1 : (q.rd + 1) % M + (q.count M - 1) ≡ q.wr [MOD M] := by
    refine ((Nat.mod_modEq _ _).add_right _).trans ?_
    rw [show q.rd + 1 + (q.count M - 1) = q.rd + q.count M by omega, ← h.add_count]
    exact (Nat.mod_modEq _ _).symm
  have h2 : (q.rd + 1) % M + (q.pop M).count M ≡ q.wr [MOD M] := by
    show ((q.rd + 1) % M + (M - (q.rd + 1) % M + q.wr) % M) % M = q.wr % M
    rw [Nat.add_mod_mod, ← Nat.add_assoc, Nat.add_sub_cancel' hlt.le, Nat.add_mod_left]
  have h3 := (Nat.ModEq.add_left_cancel' _ (h2.trans h1.symm)).eq_of_lt_of_lt
    (Nat.mod_lt _ (by omega)) (by omega)
  omega

theorem Ok.pop (h : q.Ok M) (hM : c < M) (hpos : 0 < q.count M) : (q.pop M).Ok M where
  rd_lt := Nat.mod_lt _ (by omega)
  wr_lt := h.wr_lt
  count_le := by have := h.count_pop hM hpos; have := h.count_le; omega

/-! ### The queue -/

variable [NeZero c]

def contents (M : ℕ) (q : Ring α c) : List α :=
  (List.range (q.count M)).map fun i => q.slot (Fin.ofNat c (q.rd + i))

def push (M : ℕ) (q : Ring α c) (a : α) : Ring α c :=
  { q with slot := Function.update q.slot (Fin.ofNat c q.wr) a, wr := (q.wr + 1) % M }

@[simp] theorem length_contents (q : Ring α c) : (q.contents M).length = q.count M := by simp [contents]

theorem contents_eq_nil_iff (q : Ring α c) : q.contents M = [] ↔ q.count M = 0 := by
  rw [← length_eq_zero_iff, length_contents]

theorem count_push (hM : c < M) (hlt : q.count M < c) (a : α) :
    (q.push M a).count M = q.count M + 1 := by
  have hlt' : (M - q.rd + q.wr) % M < c := hlt
  show (M - q.rd + (q.wr + 1) % M) % M = (M - q.rd + q.wr) % M + 1
  rw [Nat.add_mod_mod, ← Nat.add_assoc, Nat.add_mod, Nat.mod_eq_of_lt (show 1 < M by omega),
    Nat.mod_eq_of_lt (by omega)]

theorem Ok.push (h : q.Ok M) (hM : c < M) (hlt : q.count M < c) (a : α) :
    (q.push M a).Ok M where
  rd_lt := h.rd_lt
  wr_lt := Nat.mod_lt _ (by omega)
  count_le := by rw [count_push hM hlt]; omega

theorem Ok.ofNat_wr (h : q.Ok M) (hc : c ∣ M) :
    Fin.ofNat c q.wr = Fin.ofNat c (q.rd + q.count M) := by
  apply Fin.ext
  rw [Fin.val_ofNat, Fin.val_ofNat, ← h.add_count, Nat.mod_mod_of_dvd _ hc]

theorem Ok.contents_push (h : q.Ok M) (hc : c ∣ M) (hM : c < M) (hlt : q.count M < c)
    (a : α) : (q.push M a).contents M = q.contents M ++ [a] := by
  unfold contents
  rw [count_push hM hlt, range_succ, map_append, map_cons, map_nil]
  have hslot : ∀ i, (q.push M a).slot (Fin.ofNat c ((q.push M a).rd + i)) =
      Function.update q.slot (Fin.ofNat c (q.rd + q.count M)) a (Fin.ofNat c (q.rd + i)) := by
    intro i
    rw [← h.ofNat_wr hc]
    rfl
  congr 1
  · refine map_congr_left fun i hi => ?_
    have hi' : i < q.count M := mem_range.mp hi
    rw [hslot, Function.update_of_ne]
    -- two counters less than `c` apart have different slots
    intro he
    have hmod : q.rd + i ≡ q.rd + q.count M [MOD c] := by
      have := congrArg Fin.val he
      rwa [Fin.val_ofNat, Fin.val_ofNat] at this
    have := (Nat.ModEq.add_left_cancel' q.rd hmod).eq_of_lt_of_lt (hi'.trans hlt) hlt
    omega
  · rw [hslot, Function.update_self]

theorem Ok.contents_eq_cons (h : q.Ok M) (hc : c ∣ M) (hM : c < M)
    (hpos : 0 < q.count M) :
    q.contents M = q.slot (Fin.ofNat c q.rd) :: (q.pop M).contents M := by
  unfold contents
  rw [← h.count_pop hM hpos, range_succ_eq_map, map_cons, map_map]
  refine congrArg _ (map_congr_left fun i _ => ?_)
  refine congrArg q.slot (Fin.ext ?_)
  show (q.rd + (i + 1)) % c = ((q.rd + 1) % M + i) % c
  rw [Nat.add_mod ((q.rd + 1) % M), Nat.mod_mod_of_dvd _ hc, ← Nat.add_mod]
  congr 1
  omega

end Ring

end MCertiKOS.Library
