import Mathlib.Data.UInt
import Mathlib.Logic.Function.Iterate

/-!
# Walking the firmware tables

`pcpu_mp_init` walks the entries of the ACPI MADT and `mp_init_fallback` those of
the MP configuration table (`kern/dev/pcpu_mp.c`). Both loops compare a cursor with
the end of the table and let the entry under the cursor say how far it is to the
next one: the MADT entry by its length byte, the MP entry by its type. `entries`
is that loop, with the two bodies as parameters; a cursor is a 32-bit address.

Neither loop moves on from every entry. A MADT entry of length `0` and an MP entry
of unknown type leave the cursor where it is, and the walk never ends.
-/

namespace MCertiKOS.Device

abbrev Bytes := ℕ → UInt8

def word (mem : Bytes) (p : ℕ) : ℕ :=
  (mem p).toNat + 2 ^ 8 * (mem (p + 1)).toNat + 2 ^ 16 * (mem (p + 2)).toNat + 2 ^ 24 * (mem (p + 3)).toNat

/-- What a walk has found: the variables of the loops and the calls they made. -/
structure Found where
  ncpu : ℕ
  apIdx : ℕ
  foundBsp : Bool
  /-- The calls of `pcpu_mp_init_cpu`: index, local APIC, whether it is the boot processor. -/
  cpus : List (ℕ × UInt8 × Bool)
  /-- The calls of `ioapic_register`: address, id, first interrupt. -/
  ioapics : List (ℕ × UInt8 × ℕ)

def Found.ap (f : Found) (apicid : UInt8) : Found :=
  { f with ncpu := f.ncpu + 1, apIdx := f.apIdx + 1, cpus := f.cpus ++ [(f.apIdx, apicid, false)] }

def Found.bsp (f : Found) (apicid : UInt8) : Found :=
  { f with ncpu := f.ncpu + 1, foundBsp := true, cpus := f.cpus ++ [(0, apicid, true)] }

/-- `p += n` on a pointer. -/
def advance (p n : ℕ) : ℕ := (p + n) % 2 ^ 32

def madtEntry (mem : Bytes) (p : ℕ) (f : Found) : ℕ × Found :=
  let next := advance p (mem (p + 1)).toNat
  if mem p = 0 then
    if word mem (p + 4) % 2 = 0 then (next, f)
    else if f.foundBsp then (next, f.ap (mem (p + 3)))
    else (next, f.bsp (mem (p + 3)))
  else if mem p = 1 then
    (next, { f with ioapics := f.ioapics ++ [(word mem (p + 4), mem (p + 2), word mem (p + 8))] })
  else (next, f)

def mpEntry (mem : Bytes) (p : ℕ) (f : Found) : ℕ × Found :=
  if mem p = 0 then
    if (mem (p + 3)).toNat % 2 = 0 then (advance p 20, f)
    else if (mem (p + 3)).toNat / 2 % 2 = 1 then (advance p 20, f.bsp (mem (p + 1)))
    else (advance p 20, f.ap (mem (p + 1)))
  else if mem p = 2 then
    (advance p 8, { f with ioapics := f.ioapics ++ [(word mem (p + 4), mem (p + 1), 0)] })
  else if mem p = 1 ∨ mem p = 3 ∨ mem p = 4 then (advance p 8, f)
  -- an unknown type is reported, and the cursor stays
  else (p, f)

/-- The loop over the entries up to `e`; `none` if it has not ended after `fuel` entries. -/
def entries (entry : ℕ → Found → ℕ × Found) (e : ℕ) : ℕ → ℕ → Found → Option Found
  | 0, _, _ => none
  | fuel + 1, p, f => if p < e then entries entry e fuel (entry p f).1 (entry p f).2 else some f

def madtNext (mem : Bytes) (p : ℕ) : ℕ := advance p (mem (p + 1)).toNat

def mpNext (mem : Bytes) (p : ℕ) : ℕ :=
  if mem p = 0 then advance p 20 else if (mem p).toNat ≤ 4 then advance p 8 else p

theorem madtEntry_fst (mem : Bytes) (p : ℕ) (f : Found) : (madtEntry mem p f).1 = madtNext mem p := by
  unfold madtEntry madtNext
  dsimp only
  split_ifs <;> rfl

theorem mpEntry_fst (mem : Bytes) (p : ℕ) (f : Found) : (mpEntry mem p f).1 = mpNext mem p := by
  have hle : (mem p).toNat ≤ 4 ↔ mem p = 0 ∨ mem p = 1 ∨ mem p = 2 ∨ mem p = 3 ∨ mem p = 4 := by
    simp only [← UInt8.toNat_inj]
    simp only [UInt8.toNat_ofNat]
    omega
  unfold mpEntry mpNext
  simp only [hle]
  split_ifs <;> first | rfl | tauto

/-! ### Walks that end and walks that do not -/

section

variable {entry : ℕ → Found → ℕ × Found} {next : ℕ → ℕ} (hnext : ∀ p f, (entry p f).1 = next p) {e : ℕ}
include hnext

variable {p : ℕ}

theorem entries_ends (h : ∀ k, next^[k] p < e → next^[k] p < next^[k + 1] p) (f : Found) :
    ∃ g, ∀ fuel > e - p, entries entry e fuel p f = some g := by
  induction hd : e - p using Nat.strong_induction_on generalizing p f with
  | _ d ih =>
    by_cases hp : p < e
    · have hadv : p < next p := h 0 hp
      have hlt : e - next p < d := by omega
      obtain ⟨g, hg⟩ := ih _ hlt (fun k hk => by simpa using h (k + 1) (by simpa using hk)) (entry p f).2 rfl
      refine ⟨g, fun fuel hfuel => ?_⟩
      obtain ⟨fuel, rfl⟩ : ∃ n, fuel = n + 1 := ⟨fuel - 1, by omega⟩
      rw [entries, if_pos hp, hnext]
      exact hg fuel (by omega)
    · refine ⟨f, fun fuel hfuel => ?_⟩
      obtain ⟨fuel, rfl⟩ : ∃ n, fuel = n + 1 := ⟨fuel - 1, by omega⟩
      rw [entries, if_neg hp]

theorem entries_stuck (hp : p < e) (hstay : next p = p) (fuel : ℕ) (f : Found) :
    entries entry e fuel p f = none := by
  induction fuel generalizing f with
  | zero => rfl
  | succ fuel ih =>
    rw [entries, if_pos hp, hnext, hstay]
    exact ih _

end

variable {p e : ℕ} {mem : Bytes}

theorem lt_advance {n : ℕ} (hn : 0 < n) (h : p + n < 2 ^ 32) : p < advance p n := by
  rw [advance, Nat.mod_eq_of_lt h]
  omega

theorem lt_madtNext (he : e + 255 < 2 ^ 32) (hp : p < e) (h : mem (p + 1) ≠ 0) :
    p < madtNext mem p := by
  have hb := (mem (p + 1)).toNat_lt
  have hpos : (mem (p + 1)).toNat ≠ 0 := fun h0 => h (UInt8.toNat_inj.mp h0)
  exact lt_advance (by omega) (by omega)

theorem lt_mpNext (he : e + 255 < 2 ^ 32) (hp : p < e) (h : (mem p).toNat ≤ 4) :
    p < mpNext mem p := by
  unfold mpNext
  split_ifs
  · exact lt_advance (by omega) (by omega)
  · exact lt_advance (by omega) (by omega)

/-- A table at `0x1000` with one entry of type `0` and length `8`. -/
def oneEntry : Bytes := fun a => if a = 0x1001 then 8 else 0

end MCertiKOS.Device
