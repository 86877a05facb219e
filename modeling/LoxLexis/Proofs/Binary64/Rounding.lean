import LoxLexis.Proofs.Binary64.Grid
import Mathlib.Tactic.Ring

/-!
# Where rounding goes up

`lt_nearestMagnitude_iff` describes the rounding of a quotient by one comparison for each
magnitude: the result lies above a magnitude if the quotient lies past the point half way
to the next one, or on it and the next one is even.

The comparison is first made on the whole numbers (`lt_roundHalfEven_iff`). The grid of
doubles has the quotient in the stretch where it is as fine as the whole numbers are
after division by the unit of that stretch; below the stretch the quotient is past every
midpoint, and above it before every one.
-/

namespace LoxLexis.Binary64

/-- Whole numbers: the quotient is past `r + 1/2`, or on it and the next is even. -/
theorem lt_roundHalfEven_iff {num den : Nat} (hden : 0 < den) (r : Nat) :
    r < roundHalfEven num den ↔
      (2 * r + 1) * den < 2 * num ∨ (2 * r + 1) * den = 2 * num ∧ r % 2 = 1 := by
  have hnum : num = num / den * den + num % den := (Nat.div_add_mod' num den).symm
  have hrem : num % den < den := Nat.mod_lt num hden
  have hscale : (2 * r + 1) * den = 2 * (r * den) + den := by
    rw [Nat.add_mul, Nat.one_mul, Nat.mul_assoc]
  rw [hscale]
  unfold roundHalfEven
  -- the integral part of the quotient against `r`
  rcases Nat.lt_trichotomy r (num / den) with hlt | heq | hgt
  · have hle : r * den + den ≤ num / den * den := by
      rw [← Nat.succ_mul]
      exact Nat.mul_le_mul_right den hlt
    constructor
    · intro _
      exact Or.inl (by omega)
    · intro _
      dsimp only
      split
      · exact hlt
      · split <;> omega
  · rw [heq]
    dsimp only
    split
    · omega
    · split <;> omega
  · have hle : num / den * den + den ≤ r * den := by
      rw [← Nat.succ_mul]
      exact Nat.mul_le_mul_right den hgt
    constructor
    · dsimp only
      split
      · omega
      · split <;> omega
    · omega

theorem roundHalfEven_le_of_lt {num den k : Nat} (h : num < k * den) :
    roundHalfEven num den ≤ k := by
  have hden : 0 < den := Nat.pos_of_ne_zero fun hzero => by simp [hzero] at h
  rw [← Nat.not_lt, lt_roundHalfEven_iff hden, Nat.add_mul, Nat.mul_assoc]
  omega

theorem le_roundHalfEven_of_le {num den k : Nat} (hden : 0 < den) (h : k * den ≤ num) :
    k ≤ roundHalfEven num den := by
  cases k with
  | zero => exact Nat.zero_le _
  | succ k =>
      rw [Nat.succ_mul] at h
      rw [Nat.succ_le_iff, lt_roundHalfEven_iff hden, Nat.add_mul, Nat.mul_assoc]
      omega

/-! ## The stretch that a quotient lies in -/

section Stretch

variable {num den : Nat} (hden : 0 < den)

include hden

theorem lt_excess : num * one < 0x20000000000000 * (den * 2 ^ excess num den) := by
  have hlog : num * one / den < 2 ^ (Nat.log2 (num * one / den) + 1) := Nat.lt_log2_self
  have hle : Nat.log2 (num * one / den) + 1 ≤ 53 + excess num den := by
    unfold excess
    omega
  have hlt := Nat.lt_of_lt_of_le hlog (Nat.pow_le_pow_right (by decide) hle)
  rw [Nat.div_lt_iff_lt_mul hden, Nat.pow_add] at hlt
  calc num * one < 2 ^ 53 * 2 ^ excess num den * den := hlt
    _ = 0x20000000000000 * (den * 2 ^ excess num den) := by
      rw [Nat.mul_assoc, Nat.mul_comm den]

theorem excess_le : excess num den = 0 ∨
    0x10000000000000 * (den * 2 ^ excess num den) ≤ num * one := by
  rcases Nat.eq_zero_or_pos (excess num den) with hzero | hpos
  · exact Or.inl hzero
  · have hlog : Nat.log2 (num * one / den) = 52 + excess num den := by
      unfold excess at hpos ⊢
      omega
    have hne : num * one / den ≠ 0 := by
      intro h
      rw [h] at hlog
      simp at hlog
      omega
    have hle := Nat.log2_self_le hne
    rw [hlog, Nat.le_div_iff_mul_le hden, Nat.pow_add] at hle
    refine Or.inr (Nat.le_trans (Nat.le_of_eq ?_) hle)
    rw [Nat.mul_assoc, Nat.mul_comm den]

end Stretch

/-! ## Rounding a quotient -/

/-- The quotient is past the point half way between the magnitude and the next, or on it
and the next is even. -/
def IsPast (num den m : Nat) : Prop :=
  midpoint m * den < 2 * (num * one) ∨ midpoint m * den = 2 * (num * one) ∧ m % 2 = 1

section Quotient

variable {num den : Nat} (hden : 0 < den)

include hden

theorem isPast_of_below {m : Nat} (hpos : excess num den ≠ 0)
    (hm : m < excess num den * 0x10000000000000 + 0x10000000000000) : IsPast num den m := by
  have hle : 0x10000000000000 * (den * 2 ^ excess num den) ≤ num * one :=
    (excess_le hden).resolve_left hpos
  have hunits : units (m + 1) ≤ 0x10000000000000 * 2 ^ excess num den := by
    rw [← units_grid (Or.inr (Nat.le_refl _)) (by decide)]
    exact strictMono_units.monotone hm
  refine Or.inl ?_
  calc midpoint m * den < 2 * units (m + 1) * den :=
        Nat.mul_lt_mul_of_pos_right (midpoint_lt_two_mul_units m) hden
    _ ≤ 2 * (0x10000000000000 * 2 ^ excess num den) * den :=
        Nat.mul_le_mul_right den (Nat.mul_le_mul_left 2 hunits)
    _ = 2 * (0x10000000000000 * (den * 2 ^ excess num den)) := by ring
    _ ≤ 2 * (num * one) := Nat.mul_le_mul_left 2 hle

theorem not_isPast_of_above {m : Nat}
    (hm : excess num den * 0x10000000000000 + 0x20000000000000 ≤ m) : ¬ IsPast num den m := by
  have hlt : num * one < 0x20000000000000 * (den * 2 ^ excess num den) := lt_excess hden
  have hunits : 0x20000000000000 * 2 ^ excess num den ≤ units m := by
    rw [← units_grid (Or.inr (by decide)) (Nat.le_refl _)]
    exact strictMono_units.monotone hm
  have hpast : 2 * (num * one) < midpoint m * den :=
    calc 2 * (num * one) < 2 * (0x20000000000000 * (den * 2 ^ excess num den)) :=
          Nat.mul_lt_mul_of_pos_left hlt (by decide)
      _ = 2 * (0x20000000000000 * 2 ^ excess num den) * den := by ring
      _ ≤ 2 * units m * den := Nat.mul_le_mul_right den (Nat.mul_le_mul_left 2 hunits)
      _ ≤ midpoint m * den := Nat.mul_le_mul_right den (two_mul_units_lt_midpoint m).le
  rintro (h | ⟨h, -⟩) <;> omega

theorem isPast_grid_iff {r : Nat} (he : excess num den = 0 ∨ 0x10000000000000 ≤ r)
    (hr : r < 0x20000000000000) :
    IsPast num den (excess num den * 0x10000000000000 + r) ↔
      r < roundHalfEven (num * one) (den * 2 ^ excess num den) := by
  have hd : 0 < den * 2 ^ excess num den := Nat.mul_pos hden (Nat.two_pow_pos _)
  have hscale : (2 * r + 1) * 2 ^ excess num den * den
      = (2 * r + 1) * (den * 2 ^ excess num den) := by ring
  have hparity : (excess num den * 0x10000000000000 + r) % 2 = r % 2 := by omega
  rw [IsPast, midpoint_grid he hr, hscale, hparity, lt_roundHalfEven_iff hd]

/-- The result lies above just the magnitudes whose upper midpoint the quotient is
past. -/
theorem lt_nearestMagnitude_iff {m : Nat} (hm : m < infinite) :
    m < nearestMagnitude num den ↔ IsPast num den m := by
  have hd : 0 < den * 2 ^ excess num den := Nat.mul_pos hden (Nat.two_pow_pos _)
  have hle : roundHalfEven (num * one) (den * 2 ^ excess num den) ≤ 0x20000000000000 :=
    roundHalfEven_le_of_lt (lt_excess hden)
  have hge : excess num den = 0 ∨
      0x10000000000000 ≤ roundHalfEven (num * one) (den * 2 ^ excess num den) :=
    (excess_le hden).imp_right (le_roundHalfEven_of_le hd)
  have hround : m < nearestMagnitude num den ↔
      m < excess num den * 0x10000000000000
        + roundHalfEven (num * one) (den * 2 ^ excess num den) := by
    show m < min _ _ ↔ _
    rw [Nat.lt_min]
    exact and_iff_left hm
  rw [hround]
  by_cases hbelow : m < excess num den * 0x10000000000000 + 0x10000000000000 ∧ excess num den ≠ 0
  · exact iff_of_true (by omega) (isPast_of_below hden hbelow.2 hbelow.1)
  · by_cases habove : excess num den * 0x10000000000000 + 0x20000000000000 ≤ m
    · exact iff_of_false (by omega) (not_isPast_of_above hden habove)
    · -- the quotient and the magnitude lie in one stretch
      obtain ⟨r, rfl⟩ := Nat.exists_eq_add_of_le
        (show excess num den * 0x10000000000000 ≤ m by omega)
      rw [isPast_grid_iff hden (by omega) (by omega), Nat.add_lt_add_iff_left]

end Quotient

end LoxLexis.Binary64
