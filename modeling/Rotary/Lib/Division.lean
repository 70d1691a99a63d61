import Mathlib.Data.Nat.Basic
import Mathlib.Tactic.Linarith
import Mathlib.Tactic.Ring

namespace Rotary.Lib

/-!
# Division by shifting and subtracting

The dividend is taken in from the top, one bit at a time.  What has been taken in is divided
exactly at every turn: the quotient and the remainder are doubled together with it, and the divisor
is subtracted once when it fits.

* `DivMod.subtract` / `DivMod.keep` — the two outcomes of one turn;
* `top_bits_succ` — the next bit of the dividend;
* `DivMod.le` — the remainder is at most what has been taken in, so it grows no longer than that.
-/

/-- `p` divided by `d` yields `q` and leaves `r`. -/
structure DivMod (p d q r : ℕ) : Prop where
  eq : p = q * d + r
  lt : r < d

variable {p d q r bit : ℕ}

/-- Nothing taken in yet. -/
theorem DivMod.zero (hd : 0 < d) : DivMod 0 d 0 0 := ⟨by rw [Nat.zero_mul], hd⟩

/-- The divisor fits into the doubled remainder. -/
theorem DivMod.subtract (h : DivMod p d q r) (hbit : bit ≤ 1) (hfits : d ≤ 2 * r + bit) :
    DivMod (2 * p + bit) d (2 * q + 1) (2 * r + bit - d) := by
  have hlt := h.lt
  constructor
  · have hsplit : 2 * r + bit = d + (2 * r + bit - d) := by omega
    calc 2 * p + bit = 2 * q * d + (2 * r + bit) := by rw [h.eq]; ring
      _ = 2 * q * d + (d + (2 * r + bit - d)) := by rw [← hsplit]
      _ = (2 * q + 1) * d + (2 * r + bit - d) := by ring
  · omega

/-- It does not fit. -/
theorem DivMod.keep (h : DivMod p d q r) (hless : 2 * r + bit < d) :
    DivMod (2 * p + bit) d (2 * q) (2 * r + bit) := by
  refine ⟨?_, hless⟩
  rw [h.eq]
  ring

theorem DivMod.le (h : DivMod p d q r) : r ≤ p := by
  rw [h.eq]
  exact Nat.le_add_left r (q * d)

theorem DivMod.div_and_mod (h : DivMod p d q r) : p / d = q ∧ p % d = r := by
  have hpos : 0 < d := Nat.zero_lt_of_lt h.lt
  apply (Nat.div_mod_unique hpos).mpr
  refine ⟨?_, h.lt⟩
  rw [h.eq]
  ring

/-- The top bits of a number with one more bit. -/
theorem top_bits_succ (a i : ℕ) : a / 2 ^ i = 2 * (a / 2 ^ (i + 1)) + a / 2 ^ i % 2 := by
  have hhalf : a / 2 ^ (i + 1) = a / 2 ^ i / 2 := by rw [Nat.div_div_eq_div_mul, Nat.pow_succ]
  rw [hhalf]
  omega

end Rotary.Lib
