import Mathlib.Data.List.TakeWhile
import Mathlib.Data.Nat.Digits.Lemmas
import MCertiKOS.Device.Format

/-!
# Printed numbers

`strtol` (`user/lib/string.c`) reads blanks, a sign, the prefix of the base, and digits up to the first character that is none, with the
arithmetic of a `long` of 32 bits. It reads back what `vprintfmt` prints for `%d`, and for `%x` with every width, padded with blanks or zeros.
-/

namespace MCertiKOS.Device

open List UInt8

/-- The digit a character stands for. -/
def strtolDig (c : UInt8) : Option ℕ :=
  if 48 ≤ c ∧ c ≤ 57 then some (c.toNat - 48)
  else if 97 ≤ c ∧ c ≤ 122 then some (c.toNat - 97 + 10)
  else if 65 ≤ c ∧ c ≤ 90 then some (c.toNat - 65 + 10)
  else none

/-- Whether there is a minus, and the string behind the sign. -/
def strtolSign (s : List UInt8) : Bool × List UInt8 :=
  if s[0]? = some 43 then (false, s.tail) else if s[0]? = some 45 then (true, s.tail) else (false, s)

/-- The base, and the string behind its prefix. -/
def strtolBase (base : ℤ) (s : List UInt8) : ℤ × List UInt8 :=
  if (base = 0 ∨ base = 16) ∧ s[0]? = some 48 ∧ s[1]? = some 120 then (16, s.drop 2)
  else if base = 0 ∧ s[0]? = some 48 then (8, s.tail)
  else (if base = 0 then 10 else base, s)

/-- The loop over the digits; reading behind the end of the string has no result. -/
def strtolDigits (base val : ℤ) : List UInt8 → Option (ℤ × List UInt8)
  | [] => none
  | c :: s =>
    match strtolDig c with
    | some dig => if base ≤ dig then some (val, c :: s) else strtolDigits base (int (val * base + dig)) s
    | none => some (val, c :: s)

/-- `strtol`: the number, and the string at `*endptr`. -/
def strtol (s : List UInt8) (base : ℤ) : Option (ℤ × List UInt8) :=
  let (neg, s) := strtolSign (s.dropWhile fun c => c = 32 ∨ c = 9)
  let (base, s) := strtolBase base s
  (strtolDigits base 0 s).map fun (val, s) => (if neg then int (-val) else val, s)

/-- The characters of the digits of a number, without leading zeros. -/
def numeral (base n : ℕ) : List UInt8 := (if n = 0 then [0] else Nat.digits base n).reverse.map digit

/-! ### Printing -/

section

variable {base n : ℕ}

theorem int_eq_self {x : ℤ} (h : -2 ^ 31 ≤ x) (h' : x < 2 ^ 31) : int x = x :=
  Int.bmod_eq_of_le (by omega) (by omega)

theorem numeral_of_lt (h : n < base) : numeral base n = [digit n] := by
  by_cases h0 : n = 0
  · subst h0
    rfl
  · rw [numeral, if_neg h0, Nat.digits_of_lt _ _ h0 h]
    rfl

theorem numeral_of_le (hb : 1 < base) (h : base ≤ n) : numeral base n = numeral base (n / base) ++ [digit (n % base)] := by
  have hq : n / base ≠ 0 := (Nat.div_pos h (by omega)).ne'
  rw [numeral, numeral, if_neg (by omega), if_neg hq, Nat.digits_def' hb (by omega), reverse_cons, map_append]
  rfl

theorem printnum_eq {padc : UInt8} {k : ℕ} {width : ℤ} (hb : 1 < base) (hk : k ≠ 0) (hn : n < base ^ k) (hw : k - 2 ^ 31 ≤ width)
    (hw' : width < 2 ^ 31) :
    printnum base padc k n width = replicate (width - (numeral base n).length).toNat padc ++ numeral base n := by
  induction k generalizing n width with
  | zero => exact absurd rfl hk
  | succ k ih =>
    push_cast at hw
    rw [printnum, int_eq_self (by omega) (by omega)]
    by_cases h : base ≤ n
    · have hq : n / base < base ^ k := Nat.div_lt_of_lt_mul (by rwa [pow_succ'] at hn)
      have hk : k ≠ 0 := by
        rintro rfl
        rw [zero_add, pow_one] at hn
        omega
      rw [if_pos h, ih hk hq (by omega) (by omega), numeral_of_le hb h, length_append, length_singleton, append_assoc, Nat.cast_add,
        Nat.cast_one, sub_sub, add_comm 1]
    · rw [if_neg h, numeral_of_lt (by omega), Nat.mod_eq_of_lt (by omega)]
      rfl

theorem digit_spec {d : ℕ} (h : d < 16) : strtolDig (digit d) = some d ∧ digit d ∉ [32, 9, 43, 45, 120] := by
  have hall : ∀ d : Fin 16, strtolDig (digit d) = some d.val ∧ digit d ∉ [32, 9, 43, 45, 120] := by decide
  exact hall ⟨d, h⟩

theorem digit_decimal {d : ℕ} (h : d < 10) : (digit d).toNat = 48 + d ∧ ¬ (digit d < 48 ∨ 57 < digit d) ∧
    (d ≠ 0 → ¬ (digit d = 45 ∨ digit d = 48) ∧ 49 ≤ digit d ∧ digit d ≤ 57) := by
  have hall : ∀ d : Fin 10, (digit d).toNat = 48 + d ∧ ¬ (digit d < 48 ∨ 57 < digit d) ∧
      (d.val ≠ 0 → ¬ (digit d = 45 ∨ digit d = 48) ∧ 49 ≤ digit d ∧ digit d ≤ 57) := by decide
  exact hall ⟨d, h⟩

/-- The value the loops of both functions compute. -/
theorem foldl_int (L : List ℕ) : L.reverse.foldl (fun v (d : ℕ) => int (v * base + d)) 0 = int (Nat.ofDigits base L : ℕ) := by
  induction L with
  | nil =>
    rw [reverse_nil, foldl_nil, Nat.ofDigits_nil]
    exact (int_eq_self (by decide) (by decide)).symm
  | cons d L ih =>
    rw [reverse_cons, foldl_append, ih, foldl_cons, foldl_nil, Nat.ofDigits_cons]
    unfold int
    rw [← Int.bmod_add_bmod, Int.bmod_mul_bmod, Int.bmod_add_bmod]
    push_cast
    rw [mul_comm, add_comm]

/-! ### Reading -/

variable {L : List ℕ} (hb : 0 < base ∧ base ≤ 16) (hL : ∀ d ∈ L, d < base)

include hb hL

theorem notMem_digits : ∀ c ∈ [32, 9, 43, 45, 120], c ∉ L.map digit ++ [0] := by
  intro c hc hmem
  rcases mem_append.mp hmem with hmem | hmem
  · obtain ⟨d, hd, rfl⟩ := mem_map.mp hmem
    exact (digit_spec ((hL d hd).trans_le hb.2)).2 hc
  · rw [mem_singleton.mp hmem] at hc
    exact absurd hc (by decide)

theorem strtolDigits_map (val : ℤ) : strtolDigits base val (L.map digit ++ [0]) =
    some (L.foldl (fun v (d : ℕ) => int (v * base + d)) val, [0]) := by
  induction L generalizing val with
  | nil => rfl
  | cons d L ih =>
    rw [forall_mem_cons] at hL
    rw [map_cons, cons_append, strtolDigits, (digit_spec (hL.1.trans_le hb.2)).1]
    dsimp only
    rw [if_neg (by omega), ih hL.2]
    rfl

theorem strtol_of_sign {s : List UInt8} {neg : Bool} (hs : strtolSign (s.dropWhile fun c => c = 32 ∨ c = 9) = (neg, L.reverse.map digit ++ [0])) :
    strtol s base = some (if neg then int (-(Nat.ofDigits base L : ℕ)) else int (Nat.ofDigits base L : ℕ), [0]) := by
  have hL' : ∀ d ∈ L.reverse, d < base := fun d hd => hL d (mem_reverse.mp hd)
  have hx := notMem_digits hb hL' 120 (by decide)
  have hbase : strtolBase base (L.reverse.map digit ++ [0]) = ((base : ℤ), L.reverse.map digit ++ [0]) := by
    rw [strtolBase, if_neg fun h => hx (mem_of_getElem? h.2.2), if_neg (by omega), if_neg (by omega)]
  rw [strtol, hs]
  dsimp only
  rw [hbase]
  dsimp only
  rw [strtolDigits_map hb hL', foldl_int, Option.map_some]
  unfold int
  rw [Int.bmod_neg_bmod]

theorem strtol_blanks (k : ℕ) : strtol (replicate k 32 ++ (L.reverse.map digit ++ [0])) base = some (int (Nat.ofDigits base L : ℕ), [0]) := by
  have hno := notMem_digits hb fun d hd => hL d (mem_reverse.mp hd)
  refine (@strtol_of_sign base L hb hL _ false ?_).trans (by rw [if_neg Bool.false_ne_true])
  rw [dropWhile_append_of_pos (by simp), dropWhile_eq_self_iff.mpr, strtolSign, if_neg fun h => hno 43 (by decide) (mem_of_getElem? h),
    if_neg fun h => hno 45 (by decide) (mem_of_getElem? h)]
  intro hl h
  rcases of_decide_eq_true h with h | h
  · exact hno 32 (by decide) (h ▸ getElem_mem hl)
  · exact hno 9 (by decide) (h ▸ getElem_mem hl)

theorem strtol_minus : strtol (45 :: (L.reverse.map digit ++ [0])) base = some (int (-(Nat.ofDigits base L : ℕ)), [0]) :=
  (@strtol_of_sign base L hb hL _ true rfl).trans (by rw [if_pos rfl])

end

/-! ### The format -/

section

variable {E : Output} {fuel ap : ℕ} {seen : List UInt8}

theorem lt_of_mem_digits {base n d : ℕ} (hb : 1 < base) (h : d ∈ if n = 0 then [0] else Nat.digits base n) : d < base := by
  split at h
  · rw [mem_singleton.mp h]
    omega
  · exact Nat.digits_lt_base hb h

theorem ofDigits_numeral (base n : ℕ) : Nat.ofDigits base (if n = 0 then [0] else Nat.digits base n) = n := by
  split
  · next h => simp [h]
  · exact Nat.ofDigits_digits base n

theorem int_digit {d : ℕ} (p : ℤ) (hd : d < 10) : int (p * 10 + (digit d).toNat - 48) = int (p * (10 : ℕ) + d) := by
  rw [(digit_decimal hd).1]
  congr 1
  push_cast
  ring

theorem scanWidth_digits {d : ℕ} {L : List ℕ} (p : ℤ) (hd : d < 10) (hL : ∀ d ∈ L, d < 10) :
    ∃ seen', scanWidth p (digit d) seen (L.map digit ++ [120, 0]) =
      some ((d :: L).foldl (fun v (d : ℕ) => int (v * (10 : ℕ) + d)) p, seen', [120, 0]) := by
  induction L generalizing p d seen with
  | nil =>
    refine ⟨seen, ?_⟩
    rw [map_nil, nil_append, scanWidth, if_pos (by decide), int_digit p hd, foldl_cons, foldl_nil]
  | cons e L ih =>
    rw [forall_mem_cons] at hL
    obtain ⟨seen', hrun⟩ := @ih (digit e :: seen) e (int (p * (10 : ℕ) + d)) hL.1 hL.2
    refine ⟨seen', ?_⟩
    rw [map_cons, cons_append, scanWidth, if_neg (digit_decimal hL.1).2.1, int_digit p hd]
    exact hrun

theorem reswitch_x {v : Conv} (hl : v.lflag = 0) : reswitch E (fuel + 1) seen [120, 0] v ap =
    some (printnum 16 v.padc 64 (E.args ap) v.width, 120 :: seen, [0], ap + 1) := by
  obtain ⟨padc, width, precision, lflag, altflag⟩ := v
  subst hl
  rfl

theorem printnum_word {base n : ℕ} {width : ℤ} (padc : UInt8) (hb : 10 ≤ base) (hn : n ≤ 2 ^ 32) (hw : -1 ≤ width)
    (hw' : width < 2 ^ 31) :
    printnum base padc 64 n width = replicate (width - (numeral base n).length).toNat padc ++ numeral base n := by
  have hpow : 2 ^ 32 < base ^ 64 := (by decide : 2 ^ 32 < 10 ^ 64).trans_le (Nat.pow_le_pow_left hb 64)
  have hlo : ((64 : ℕ) : ℤ) - 2 ^ 31 ≤ width := by omega
  exact printnum_eq (by omega) (by decide) (hn.trans_lt hpow) hlo hw'

theorem reswitch_numeral {v : Conv} {w : ℕ} (hv : v.width = -1) (hl : v.lflag = 0) (hx : E.args ap < 2 ^ 32) (hw : w < 2 ^ 31) :
    ∃ seen', reswitch E (fuel + 2) seen (numeral 10 w ++ [120, 0]) v ap =
      some (replicate (w - (numeral 16 (E.args ap)).length) v.padc ++ numeral 16 (E.args ap), seen', [0], ap + 1) := by
  by_cases h0 : w = 0
  · subst h0
    refine ⟨120 :: 48 :: seen, ?_⟩
    have hflag : numeral 10 0 = [48] := by decide
    rw [hflag, singleton_append, reswitch, if_pos (.inr rfl), @reswitch_x E fuel ap (48 :: seen) { v with padc := 48 } hl]
    dsimp only
    rw [printnum_word _ (by decide) hx.le hv.ge (by rw [hv]; decide), hv, Int.toNat_of_nonpos (by omega), Nat.zero_sub, replicate_zero,
      replicate_zero]
  · -- the first digit is not a `0`, which would be the flag
    obtain ⟨d, L, hd⟩ := exists_cons_of_ne_nil (mt reverse_eq_nil_iff.mp (Nat.digits_ne_nil_iff_ne_zero.mpr h0))
    have hmem : ∀ e ∈ d :: L, e < 10 := fun e he => Nat.digits_lt_base (by decide) (mem_reverse.mp (hd ▸ he))
    have hne : d ≠ 0 := by
      have hlast := Nat.getLast_digit_ne_zero 10 h0
      simp only [reverse_eq_iff.mp hd, reverse_cons, getLast_append_singleton] at hlast
      exact hlast
    have hnum : numeral 10 w = digit d :: L.map digit := by rw [numeral, if_neg h0, hd, map_cons]
    rw [forall_mem_cons] at hmem
    obtain ⟨hflag, hdigit⟩ := (digit_decimal hmem.1).2.2 hne
    obtain ⟨seen', hscan⟩ := @scanWidth_digits (digit d :: seen) d L 0 hmem.1 hmem.2
    rw [← hd, foldl_int, Nat.ofDigits_digits, int_eq_self (by omega) (by omega)] at hscan
    refine ⟨120 :: seen', ?_⟩
    rw [hnum, cons_append, reswitch, if_neg hflag, if_pos hdigit, hscan, Option.bind_eq_bind, Option.bind_some]
    dsimp only
    rw [reswitch_x (by rw [Conv.processPrecision, if_pos (by omega)]; exact hl), Conv.processPrecision, if_pos (by omega)]
    dsimp only
    rw [printnum_word _ (by decide) hx.le (by omega) (by omega), Int.toNat_sub]

theorem vprintfmt_conv {s out : List UInt8} (h : reswitch E (fuel + 1) [37] s .init 0 = some (out, seen, [0], ap)) :
    vprintfmt E (fuel + 2) [] (37 :: s) 0 = some out := by
  rw [vprintfmt, if_pos rfl, h, Option.bind_eq_bind, Option.bind_some]
  exact congrArg some (append_nil out)

theorem strtol_numeral {base n : ℕ} (hb : 1 < base ∧ base ≤ 16) (zero : Bool) (k : ℕ) :
    strtol (replicate k (if zero then 48 else 32) ++ numeral base n ++ [0]) base = some (int n, [0]) := by
  have hlt := fun d => @lt_of_mem_digits base n d hb.1
  rw [append_assoc]
  cases zero with
  | false =>
    have := strtol_blanks ⟨by omega, hb.2⟩ hlt k
    rwa [ofDigits_numeral] at this
  | true =>
    have hzero : ∀ d ∈ (if n = 0 then [0] else Nat.digits base n) ++ replicate k 0, d < base := by
      intro d hd
      rcases mem_append.mp hd with hd | hd
      · exact hlt d hd
      · rw [eq_of_mem_replicate hd]
        omega
    have := strtol_blanks ⟨by omega, hb.2⟩ hzero 0
    rwa [Nat.ofDigits_append_replicate_zero, ofDigits_numeral, reverse_append, map_append, reverse_replicate, map_replicate,
      append_assoc] at this

theorem strtol_decimal (x : ℤ) : strtol ((if x < 0 then [45] else []) ++ numeral 10 x.natAbs ++ [0]) 10 = some (int x, [0]) := by
  by_cases h : x < 0
  · have := strtol_minus ⟨by decide, by decide⟩ fun d => @lt_of_mem_digits 10 x.natAbs d (by decide)
    rw [ofDigits_numeral, Int.ofNat_natAbs_of_nonpos h.le, neg_neg] at this
    rw [if_pos h]
    exact this
  · have := strtol_numeral (n := x.natAbs) ⟨(by decide : 1 < 10), by decide⟩ false 0
    rw [Int.natAbs_of_nonneg (by omega)] at this
    rw [if_neg h]
    exact this

end

/-- `strtol` reads back what `%d` prints for an `int`, and what `%x` prints for an `unsigned` with any width, padded with blanks or zeros. -/
theorem strtol_printed (E : Output) (fuel : ℕ) :
    (∀ x : Int32, E.args 0 = x.toUInt32.toNat → ∃ out, vprintfmt E (fuel + 5) [] [37, 100, 0] 0 = some out ∧
      strtol (out ++ [0]) 10 = some (x.toInt, [0])) ∧
    ∀ x : UInt32, E.args 0 = x.toNat → ∀ w < 2 ^ 31, ∀ zero : Bool, ∃ out,
      vprintfmt E (fuel + 5) [] (37 :: ((if zero then [48] else []) ++ (numeral 10 w ++ [120, 0]))) 0 = some out ∧
      out.length = max w (numeral 16 x.toNat).length ∧
      out = replicate (w - (numeral 16 x.toNat).length) (if zero then 48 else 32) ++ numeral 16 x.toNat ∧
      strtol (out ++ [0]) 16 = some (int x.toNat, [0]) := by
  constructor
  · intro x hx
    have hint : int (E.args 0) = x.toInt := by
      rw [hx]
      exact (BitVec.toInt_eq_toNat_bmod x.toBitVec).symm
    have hlo := x.le_toInt
    have hhi := x.toInt_lt
    refine ⟨(if x.toInt < 0 then [45] else []) ++ numeral 10 x.toInt.natAbs, ?_, ?_⟩
    · refine @vprintfmt_conv E (fuel + 3) 1 [100, 37] _ _ ?_
      have hd : reswitch E (fuel + 4) [37] [100, 0] .init 0 = some ((if int (E.args 0) < 0 then [45] else []) ++
          printnum 10 32 64 (int (E.args 0)).natAbs (-1), [100, 37], [0], 1) := by
        simp [reswitch, convert, getint, Conv.init]
      rw [hd, hint, printnum_word _ (by decide) (by omega) (by decide) (by decide), Int.toNat_of_nonpos (by omega)]
      rfl
    · rw [strtol_decimal, int_eq_self hlo hhi]
  · intro x hx w hw zero
    refine ⟨_, ?_, ?_, rfl, strtol_numeral ⟨by decide, by decide⟩ zero _⟩
    · have hlt : E.args 0 < 2 ^ 32 := hx ▸ x.toNat_lt
      rw [← hx]
      cases zero with
      | false =>
        obtain ⟨seen, hrun⟩ := @reswitch_numeral E (fuel + 2) 0 [37] .init w rfl rfl hlt hw
        exact vprintfmt_conv hrun
      | true =>
        obtain ⟨seen, hrun⟩ := @reswitch_numeral E (fuel + 1) 0 [48, 37] { Conv.init with padc := 48 } w rfl rfl hlt hw
        exact vprintfmt_conv hrun
    · rw [length_append, length_replicate, Nat.sub_add_eq_max]

theorem strtol_printed_minusOne : (∃ out, vprintfmt ⟨fun _ => 4294967295, fun _ => [], true⟩ 5 [] [37, 100, 0] 0 = some out ∧
      strtol (out ++ [0]) 10 = some (-1, [0])) ∧
    ∃ out, vprintfmt ⟨fun _ => 4294967295, fun _ => [], true⟩ 5 [] [37, 48, 57, 120, 0] 0 = some out ∧ out.length = 9 := by
  obtain ⟨hd, hx⟩ := strtol_printed ⟨fun _ => 4294967295, fun _ => [], true⟩ 0
  refine ⟨hd (-1) rfl, ?_⟩
  obtain ⟨out, hout, hlen, -⟩ := hx 4294967295 rfl 9 (by decide) true
  exact ⟨out, hout, hlen⟩

end MCertiKOS.Device
