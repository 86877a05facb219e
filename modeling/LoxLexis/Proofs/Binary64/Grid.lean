import LoxLexis.Binary64.Basic
import Mathlib.Algebra.Ring.Nat
import Mathlib.Order.Monotone.Basic

/-!
# The grid of doubles

Counted in units, the doubles stand one apart up to `2 ^ 53`, then two apart up to
`2 ^ 54`, then four, and so on: `units_grid` gives the count of every double from its
place in such a stretch. Half way between two neighbours lies half their sum, so
`midpoint`, which is the sum, is still a whole number.
-/

namespace LoxLexis.Binary64

/-- Every magnitude is a significand in its stretch of the grid. -/
theorem eq_scale_add_significand (m : Nat) :
    m = scale m * 0x10000000000000 + significand m := by
  unfold scale significand
  split <;> omega

theorem significand_lt (m : Nat) : significand m < 0x20000000000000 := by
  unfold significand
  split <;> omega

/-- Only the first stretch begins below `2 ^ 52`. -/
theorem scale_eq_zero_or_le_significand (m : Nat) :
    scale m = 0 ∨ 0x10000000000000 ≤ significand m := by
  unfold scale significand
  split <;> omega

/-- The units of a double by its place in a stretch, the first double of the next stretch
included. -/
theorem units_grid {e r : Nat} (he : e = 0 ∨ 0x10000000000000 ≤ r)
    (hr : r ≤ 0x20000000000000) : units (e * 0x10000000000000 + r) = r * 2 ^ e := by
  unfold units significand scale
  by_cases hsmall : e * 0x10000000000000 + r < 0x10000000000000
  · obtain rfl : e = 0 := by omega
    rw [if_pos hsmall, show (0 * 0x10000000000000 + r) / 0x10000000000000 - 1 = 0 by omega]
    simp
  · rw [if_neg hsmall]
    rcases Nat.lt_or_eq_of_le hr with hlt | rfl
    · rw [show (e * 0x10000000000000 + r) % 0x10000000000000 = r - 0x10000000000000 by omega,
        show (e * 0x10000000000000 + r) / 0x10000000000000 - 1 = e by omega,
        show 0x10000000000000 + (r - 0x10000000000000) = r by omega]
      rfl
    · rw [show (e * 0x10000000000000 + 0x20000000000000) % 0x10000000000000 = 0 by omega,
        show (e * 0x10000000000000 + 0x20000000000000) / 0x10000000000000 - 1 = e + 1 by omega]
      show _ * 2 ^ (e + 1) = _
      rw [Nat.pow_succ]
      omega

theorem strictMono_units : StrictMono units := by
  apply strictMono_nat_of_lt_succ
  intro m
  have hr := significand_lt m
  have he := scale_eq_zero_or_le_significand m
  rw [eq_scale_add_significand m, Nat.add_assoc, units_grid he (by omega),
    units_grid (by omega) (by omega), Nat.add_mul]
  have := Nat.two_pow_pos (scale m)
  omega

/-! ## Half way -/

/-- Twice the point half way between a magnitude and the next. -/
def midpoint (m : Nat) : Nat :=
  units m + units (m + 1)

theorem two_mul_units_lt_midpoint (m : Nat) : 2 * units m < midpoint m := by
  have := strictMono_units (Nat.lt_add_one m)
  unfold midpoint
  omega

theorem midpoint_lt_two_mul_units (m : Nat) : midpoint m < 2 * units (m + 1) := by
  have := strictMono_units (Nat.lt_add_one m)
  unfold midpoint
  omega

theorem midpoint_grid {e r : Nat} (he : e = 0 ∨ 0x10000000000000 ≤ r)
    (hr : r < 0x20000000000000) :
    midpoint (e * 0x10000000000000 + r) = (2 * r + 1) * 2 ^ e := by
  unfold midpoint
  rw [Nat.add_assoc, units_grid he (by omega), units_grid (by omega) hr, ← Nat.add_mul]
  congr 1
  omega

end LoxLexis.Binary64
