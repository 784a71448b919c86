import Mathlib.Data.Int.Order.Basic
import Mathlib.Data.UInt

/-!
# Formatted output

`vprintfmt` (`kern/lib/printfmt.c`, and its copy `user/lib/printfmt.c`) scans a format with one pointer that goes forward over flags, width
and precision and back to the last `%` when the character behind them is no conversion. Here the format, with its terminator, is split at
the pointer: what is in front of it, last character first, and the rest. Reading outside of the format has no result, and neither has a
scan that runs out of rounds.
-/

namespace MCertiKOS.Device

open List

/-- What a format is printed with. -/
structure Output where
  args : ℕ → ℕ
  str : ℕ → List UInt8
  /-- Whether `%o` is there: the user's copy has it only if `SOL` is set, and prints `XXX` otherwise. -/
  octal : Bool

/-- The flags, the width and the precision of a conversion. -/
structure Conv where
  padc : UInt8
  width : ℤ
  precision : ℤ
  lflag : ℕ
  altflag : Bool

/-- At the `%`. -/
def Conv.init : Conv := ⟨32, -1, -1, 0, false⟩

/-- The arithmetic of `int`. -/
def int (x : ℤ) : ℤ := Int.bmod x (2 ^ 32)

def Conv.processPrecision (v : Conv) (precision : ℤ) : Conv :=
  if v.width < 0 then { v with width := precision, precision := -1 } else { v with precision := precision }

/-- `getuint`: the number, and the index of the next argument. -/
def getuint (E : Output) (ap lflag : ℕ) : ℕ × ℕ :=
  if 2 ≤ lflag then (E.args ap + 2 ^ 32 * E.args (ap + 1), ap + 2) else (E.args ap, ap + 1)

def getint (E : Output) (ap lflag : ℕ) : ℤ × ℕ :=
  if 2 ≤ lflag then (Int.bmod (getuint E ap lflag).1 (2 ^ 64), ap + 2) else (int (E.args ap), ap + 1)

/-- A digit of `"0123456789abcdef"`. -/
def digit (n : ℕ) : UInt8 := UInt8.ofNat (if n < 10 then 48 + n else 87 + n)

/-- `printnum`; a number of `64` bits has no more than `64` digits. -/
def printnum (base : ℕ) (padc : UInt8) : ℕ → ℕ → ℤ → List UInt8
  | 0, _, _ => []
  | k + 1, num, width =>
    (if base ≤ num then printnum base padc k (num / base) (int (width - 1))
      else List.replicate (int (width - 1)).toNat padc) ++ [digit (num % base)]

/-- The conversion `s`. -/
def printstr (v : Conv) (s : List UInt8) : List UInt8 :=
  let len := if v.precision < 0 then s.length else min s.length v.precision.toNat
  let left := decide (0 < v.width ∧ v.padc ≠ 45)
  (if left then List.replicate (int (v.width - len)).toNat v.padc else []) ++
    (s.take len).map (fun ch => if v.altflag ∧ (ch < 32 ∨ 126 < ch) then 63 else ch) ++
    if left then [] else List.replicate (int (v.width - len)).toNat 32

/-- The cases of the switch that end a conversion: what is printed, and the next argument. -/
def convert (E : Output) (v : Conv) (ch : UInt8) (ap : ℕ) : Option (List UInt8 × ℕ) :=
  let number (base : ℕ) (n : ℕ × ℕ) := some (printnum base v.padc 64 n.1 v.width, n.2)
  if ch = 99 then some ([UInt8.ofNat (E.args ap)], ap + 1)
  else if ch = 115 then
    some (printstr v (if E.args ap = 0 then [40, 110, 117, 108, 108, 41] else E.str (E.args ap)), ap + 1)
  else if ch = 100 then
    let n := getint E ap v.lflag
    some ((if n.1 < 0 then [45] else []) ++ printnum 10 v.padc 64 n.1.natAbs v.width, n.2)
  else if ch = 117 then number 10 (getuint E ap v.lflag)
  else if ch = 111 then if E.octal then number 8 (getuint E ap v.lflag) else some ([88, 88, 88], ap)
  else if ch = 112 then some ([48, 120] ++ printnum 16 v.padc 64 (E.args ap) v.width, ap + 1)
  else if ch = 120 then number 16 (getuint E ap v.lflag)
  else if ch = 37 then some ([37], ap)
  else none

/-! ### The scan -/

/-- The loop over the digits of a width: the number, and the format around the pointer. -/
def scanWidth (precision : ℤ) (ch : UInt8) (seen : List UInt8) : List UInt8 → Option (ℤ × List UInt8 × List UInt8)
  | [] => none
  | c :: rest =>
    let precision := int (precision * 10 + ch.toNat - 48)
    if c < 48 ∨ 57 < c then some (precision, seen, c :: rest) else scanWidth precision c (c :: seen) rest

/-- The way back to the last `%`; `fmt[-1]` is read. -/
def rewind (rest : List UInt8) : List UInt8 → Option (List UInt8 × List UInt8)
  | [] => none
  | c :: seen => if c = 37 then some (c :: seen, rest) else rewind (c :: rest) seen

/-- From `reswitch` on: what is printed, the format around the pointer and the next argument. -/
def reswitch (E : Output) : ℕ → List UInt8 → List UInt8 → Conv → ℕ → Option (List UInt8 × List UInt8 × List UInt8 × ℕ)
  | fuel + 1, seen, ch :: rest, v, ap =>
    if ch = 45 ∨ ch = 48 then reswitch E fuel (ch :: seen) rest { v with padc := ch } ap
    else if 49 ≤ ch ∧ ch ≤ 57 then do
      let (precision, seen, rest) ← scanWidth 0 ch (ch :: seen) rest
      reswitch E fuel seen rest (v.processPrecision precision) ap
    else if ch = 42 then reswitch E fuel (ch :: seen) rest (v.processPrecision (int (E.args ap))) (ap + 1)
    else if ch = 46 then reswitch E fuel (ch :: seen) rest { v with width := max v.width 0 } ap
    else if ch = 35 then reswitch E fuel (ch :: seen) rest { v with altflag := true } ap
    else if ch = 108 then reswitch E fuel (ch :: seen) rest { v with lflag := v.lflag + 1 } ap
    else
      match convert E v ch ap with
      | some (out, ap) => some (out, ch :: seen, rest, ap)
      | none => (rewind (ch :: rest) seen).map fun (seen, rest) => ([37], seen, rest, ap)
  | _, _, _, _, _ => none

/-- `vprintfmt`, in the middle of the format. -/
def vprintfmt (E : Output) : ℕ → List UInt8 → List UInt8 → ℕ → Option (List UInt8)
  | fuel + 1, seen, ch :: rest, ap =>
    if ch = 37 then do
      let (out, seen, rest, ap) ← reswitch E fuel (ch :: seen) rest .init ap
      (vprintfmt E fuel seen rest ap).map (out ++ ·)
    else if ch = 0 then some []
    else (vprintfmt E fuel (ch :: seen) rest ap).map (ch :: ·)
  | _, _, _, _ => none

end MCertiKOS.Device
