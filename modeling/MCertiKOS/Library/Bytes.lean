import Mathlib.Data.List.TakeWhile
import Mathlib.Data.UInt
import Mathlib.Tactic.Ring

/-!
# Little-endian fields of a byte array

A block of `c` bytes with unsigned fields of `w` bytes at byte offsets, least
significant byte first: `getLE` reads a field and `setLE` overwrites it. A field
reads back what was stored in it, and storing in one field leaves the fields
beside it alone.

`cString` is the string at the beginning of a buffer, up to the first zero.
`storeBytes` stores bytes in a memory that has no end, so that what is stored
outside of a buffer can be seen.
-/

namespace MCertiKOS.Library

open List

variable {c : ℕ}

/-- The byte at offset `x`, `0` past the end. -/
def byteAt (b : Fin c → UInt8) (x : ℕ) : UInt8 := if h : x < c then b ⟨x, h⟩ else 0

/-- The field of `w` bytes at offset `off`. -/
def getLE (b : Fin c → UInt8) : ℕ → ℕ → ℕ
  | _, 0 => 0
  | off, w + 1 => (byteAt b off).toNat + 256 * getLE b (off + 1) w

/-- Store `v` in the field of `w` bytes at offset `off`. -/
def setLE (b : Fin c → UInt8) (off w v : ℕ) : Fin c → UInt8 :=
  fun x => if off ≤ x.val ∧ x.val < off + w then UInt8.ofNat (v / 256 ^ (x.val - off)) else b x

theorem byteAt_setLE (b : Fin c → UInt8) (off w v x : ℕ) :
    byteAt (setLE b off w v) x =
      if x < c ∧ off ≤ x ∧ x < off + w then UInt8.ofNat (v / 256 ^ (x - off)) else byteAt b x := by
  unfold byteAt setLE
  by_cases hx : x < c
  · simp [hx]
  · simp [hx]

theorem getLE_congr {b b' : Fin c → UInt8} {off w : ℕ} (h : ∀ x, off ≤ x → x < off + w → byteAt b x = byteAt b' x) :
    getLE b off w = getLE b' off w := by
  induction w generalizing off with
  | zero => rfl
  | succ w ih =>
    rw [getLE, getLE, h off (by omega) (by omega), ih fun x hx hx' => h x (by omega) (by omega)]

theorem getLE_zero (off w : ℕ) : getLE (fun _ => 0 : Fin c → UInt8) off w = 0 := by
  induction w generalizing off with
  | zero => rfl
  | succ w ih =>
    rw [getLE, ih, byteAt]
    split_ifs <;> rfl

theorem getLE_setLE {b : Fin c → UInt8} {off w : ℕ} (hc : off + w ≤ c) (v : ℕ) :
    getLE (setLE b off w v) off w = v % 256 ^ w := by
  -- the last `k` bytes hold the high part of `v`
  have key : ∀ k ≤ w, getLE (setLE b off w v) (off + (w - k)) k = v / 256 ^ (w - k) % 256 ^ k := by
    intro k
    induction k with
    | zero => intro _; simp [getLE, Nat.mod_one]
    | succ k ih =>
      intro hk
      have hoff : off + (w - (k + 1)) + 1 = off + (w - k) := by omega
      have hpow : 256 ^ (w - k) = 256 ^ (w - (k + 1)) * 256 := by
        rw [← pow_succ]
        congr 1
        omega
      rw [getLE, hoff, ih (by omega), byteAt_setLE, if_pos (by omega), Nat.add_sub_cancel_left, hpow,
        ← Nat.div_div_eq_div_mul, pow_succ, Nat.mul_comm (256 ^ k) 256, Nat.mod_mul]
      simp
  simpa using key w le_rfl

theorem getLE_setLE_of_disjoint {b : Fin c → UInt8} {off w off' w' : ℕ} (h : off + w ≤ off' ∨ off' + w' ≤ off) (v : ℕ) :
    getLE (setLE b off' w' v) off w = getLE b off w := by
  refine getLE_congr fun x hx hx' => ?_
  rw [byteAt_setLE, if_neg (by omega)]

/-! ### Records -/

abbrev Field := ℕ × ℕ × ℕ

def setFields (b : Fin c → UInt8) (fs : List Field) : Fin c → UInt8 := fs.foldl (fun b f => setLE b f.1 f.2.1 f.2.2) b

def Field.Apart (f g : Field) : Prop := f.1 + f.2.1 ≤ g.1 ∨ g.1 + g.2.1 ≤ f.1

instance (f g : Field) : Decidable (Field.Apart f g) := inferInstanceAs (Decidable (_ ∨ _))

theorem getLE_setFields_of_apart {b : Fin c → UInt8} {off w : ℕ} {fs : List Field}
    (h : ∀ f ∈ fs, off + w ≤ f.1 ∨ f.1 + f.2.1 ≤ off) : getLE (setFields b fs) off w = getLE b off w := by
  induction fs generalizing b with
  | nil => rfl
  | cons f fs ih =>
    rw [setFields, foldl_cons, ← setFields, ih fun g hg => h g (mem_cons_of_mem f hg)]
    exact getLE_setLE_of_disjoint (h f (mem_cons_self ..)) _

theorem getLE_setFields {b : Fin c → UInt8} {fs : List Field} (hfs : fs.Pairwise Field.Apart) {f : Field} (hf : f ∈ fs)
    (hc : f.1 + f.2.1 ≤ c) : getLE (setFields b fs) f.1 f.2.1 = f.2.2 % 256 ^ f.2.1 := by
  induction fs generalizing b with
  | nil => cases hf
  | cons g fs ih =>
    rw [pairwise_cons] at hfs
    rw [setFields, foldl_cons, ← setFields]
    rcases mem_cons.mp hf with rfl | hmem
    · rw [getLE_setFields_of_apart hfs.1, getLE_setLE hc]
    · exact ih hfs.2 hmem

theorem getLE_lt (b : Fin c → UInt8) (off w : ℕ) : getLE b off w < 256 ^ w := by
  induction w generalizing off with
  | zero => simp [getLE]
  | succ w ih =>
    have h1 := (byteAt b off).toNat_lt
    have h2 := ih (off + 1)
    rw [getLE, pow_succ]
    omega

/-! ### Strings -/

def cString (buf : List UInt8) : List UInt8 := buf.takeWhile (· ≠ 0)

theorem cString_append_zero (r t : List UInt8) : cString (r ++ 0 :: t) = cString r := by
  induction r with
  | nil => rfl
  | cons b r ih =>
    unfold cString at ih ⊢
    rw [cons_append, takeWhile_cons, takeWhile_cons, ih]

theorem cString_eq_self {r : List UInt8} (hr : (0 : UInt8) ∉ r) : cString r = r := by
  refine takeWhile_eq_self_iff.mpr fun b hb => ?_
  simpa using fun e : b = 0 => hr (e ▸ hb)

theorem set_zero_append_drop {r buf : List UInt8} (h : r.length < buf.length) :
    (r ++ buf.drop r.length).set r.length 0 = r ++ 0 :: buf.drop (r.length + 1) := by
  rw [set_append_right _ _ le_rfl, Nat.sub_self, drop_eq_getElem_cons h]
  rfl

theorem cString_append {buf : List UInt8} (h : (cString buf).length < buf.length) (t : List UInt8) : cString (buf ++ t) = cString buf := by
  unfold cString at h ⊢
  rw [takeWhile_append, if_neg h.ne]

/-! ### A memory without end -/

variable {m : ℤ → UInt8} {p : ℤ}

/-- The bytes are stored from `p` on. -/
def storeBytes (m : ℤ → UInt8) (p : ℤ) : List UInt8 → ℤ → UInt8
  | [] => m
  | b :: bs => storeBytes (Function.update m p b) (p + 1) bs

theorem storeBytes_append (bs bs' : List UInt8) : storeBytes m p (bs ++ bs') = storeBytes (storeBytes m p bs) (p + bs.length) bs' := by
  induction bs generalizing m p with
  | nil => rw [length_nil, Nat.cast_zero, add_zero]; rfl
  | cons b bs ih =>
    rw [cons_append, storeBytes, storeBytes, ih, length_cons, Nat.cast_succ]
    congr 1
    ring

theorem storeBytes_apply (bs : List UInt8) (a : ℤ) :
    storeBytes m p bs a = if p ≤ a ∧ a < p + bs.length then bs.getD (a - p).toNat 0 else m a := by
  induction bs generalizing m p with
  | nil => rw [if_neg (by simp)]; rfl
  | cons b bs ih =>
    rw [storeBytes, ih, length_cons, Nat.cast_succ]
    by_cases h0 : a = p
    · subst h0
      rw [if_neg (by omega), if_pos (by omega), Function.update_self, sub_self]
      rfl
    · rw [Function.update_of_ne h0]
      by_cases hin : p + 1 ≤ a ∧ a < p + 1 + bs.length
      · rw [if_pos hin, if_pos (by omega), show (a - p).toNat = (a - (p + 1)).toNat + 1 by omega]
        rfl
      · rw [if_neg hin, if_neg (by omega)]

end MCertiKOS.Library
