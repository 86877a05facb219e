import LoxLexis.Proofs.Binary64.Rounding
import Mathlib.Algebra.Order.Field.Basic
import Mathlib.Data.Rat.Cast.Order
import Mathlib.Tactic.FieldSimp
import Mathlib.Tactic.Linarith

/-!
# The numbers that doubles stand for

`toRat` reads the exact number off the sign, exponent and fraction fields of the 64 bits.
`toRat_eq` says that it is the number of units that the magnitude counts, with the sign.
-/

namespace LoxLexis.Binary64

/-! ## Fields -/

def signField (x : Binary64) : Nat :=
  x.toBits.toNat / 2 ^ 63

def exponentField (x : Binary64) : Nat :=
  x.toBits.toNat / 2 ^ 52 % 2 ^ 11

def fractionField (x : Binary64) : Nat :=
  x.toBits.toNat % 2 ^ 52

/-- The number that a finite double stands for. The exponent has a bias of 1023; with
exponent field zero the significand has no leading one. -/
def toRat (x : Binary64) : ℚ :=
  (-1) ^ x.signField *
    if x.exponentField = 0 then (x.fractionField / 2 ^ 52 : ℚ) * 2 ^ (-1022 : ℤ)
    else (1 + x.fractionField / 2 ^ 52 : ℚ) * 2 ^ ((x.exponentField : ℤ) - 1023)

theorem signField_eq (x : Binary64) : x.signField = if x.negative then 1 else 0 := by
  have := x.magnitude_lt
  rw [signField, toNat_toBits, code]
  split <;> omega

theorem exponentField_eq (x : Binary64) :
    x.exponentField = x.magnitude / 0x10000000000000 := by
  have := x.magnitude_lt
  rw [exponentField, toNat_toBits, code]
  split <;> omega

theorem fractionField_eq (x : Binary64) :
    x.fractionField = x.magnitude % 0x10000000000000 := by
  rw [fractionField, toNat_toBits, code]
  split <;> omega

theorem toBits_eq_iff {x : Binary64} (hx : x.negative = false) {bits : UInt64} :
    x.toBits = bits ↔ x.magnitude = bits.toNat := by
  rw [← UInt64.toNat_inj, toNat_toBits, code, hx, if_neg Bool.false_ne_true]

/-! ## Units -/

/-- The number that a magnitude stands for. -/
def value (m : Nat) : ℚ :=
  (units m : ℚ) / one

theorem cast_two_pow (n : Nat) : ((Nat.pow 2 n : ℕ) : ℚ) = 2 ^ n := by
  rw [Nat.pow_eq, Nat.cast_pow, Nat.cast_ofNat]

theorem one_eq : ((one : ℕ) : ℚ) = 2 ^ 1022 * 2 ^ 52 := by
  unfold one
  generalize h : 1074 = n
  rw [cast_two_pow, ← h, ← pow_add]

theorem one_pos : (0 : ℚ) < (one : ℕ) := by
  rw [one_eq]
  positivity

theorem strictMono_value : StrictMono value := fun _ _ h =>
  div_lt_div_of_pos_right (Nat.cast_lt.mpr (strictMono_units h)) one_pos

theorem value_nonneg (m : Nat) : 0 ≤ value m :=
  div_nonneg (Nat.cast_nonneg _) one_pos.le

theorem value_add_value_succ (m : Nat) :
    value m + value (m + 1) = (midpoint m : ℚ) / one := by
  rw [value, value, midpoint, Nat.cast_add, add_div]

theorem value_eq (m : Nat) : value m =
    if m / 0x10000000000000 = 0 then
      ((m % 0x10000000000000 : ℕ) / 2 ^ 52 : ℚ) * 2 ^ (-1022 : ℤ)
    else (1 + (m % 0x10000000000000 : ℕ) / 2 ^ 52 : ℚ)
      * 2 ^ (((m / 0x10000000000000 : ℕ) : ℤ) - 1023) := by
  rw [value, one_eq, units, significand, scale, Nat.cast_mul, cast_two_pow]
  by_cases hm : m < 0x10000000000000
  · have hexponent : m / 0x10000000000000 = 0 := Nat.div_eq_of_lt hm
    rw [if_pos hm, if_pos hexponent, hexponent, Nat.mod_eq_of_lt hm, zpow_neg, zpow_ofNat,
      Nat.zero_sub, pow_zero]
    field_simp
  · obtain ⟨e, hexponent⟩ : ∃ e, m / 0x10000000000000 = e + 1 :=
      Nat.exists_eq_add_one_of_ne_zero (by omega)
    rw [if_neg hm, hexponent, if_neg (Nat.succ_ne_zero e), Nat.add_sub_cancel,
      show ((e + 1 : ℕ) : ℤ) - 1023 = (e : ℤ) - 1022 by omega, zpow_sub₀ two_ne_zero,
      zpow_natCast, zpow_ofNat]
    push_cast
    field_simp
    ring

theorem toRat_eq (x : Binary64) :
    x.toRat = if x.negative then -value x.magnitude else value x.magnitude := by
  rw [toRat, signField_eq, exponentField_eq, fractionField_eq, ← value_eq]
  cases x.negative <;> simp

theorem abs_toRat (x : Binary64) : |x.toRat| = value x.magnitude := by
  rw [toRat_eq]
  split
  · rw [abs_neg, abs_of_nonneg (value_nonneg _)]
  · exact abs_of_nonneg (value_nonneg _)

theorem value_eq_zero_iff {m : Nat} : value m = 0 ↔ m = 0 := by
  have hzero : value 0 = 0 := by
    show ((0 : ℕ) : ℚ) / _ = 0
    rw [Nat.cast_zero, zero_div]
  rw [← hzero, strictMono_value.injective.eq_iff]

theorem toRat_eq_zero_iff {x : Binary64} : x.toRat = 0 ↔ x.magnitude = 0 := by
  rw [← abs_eq_zero, abs_toRat, value_eq_zero_iff]

/-- A double below zero is no closer than its negation. -/
theorem abs_value_sub_le {q : ℚ} (hq : 0 ≤ q) (y : Binary64) :
    |value y.magnitude - q| ≤ |y.toRat - q| := by
  have hpos := value_nonneg y.magnitude
  rw [toRat_eq]
  split
  · rw [abs_le]
    constructor <;> linarith [neg_abs_le (-value y.magnitude - q)]
  · exact le_rfl

/-! ## Midpoints -/

theorem value_add_grid {e r : Nat} (he : e = 0 ∨ 0x10000000000000 ≤ r)
    (hr : r < 0x20000000000000) :
    value (e * 0x10000000000000 + r) + value (e * 0x10000000000000 + r + 1)
      = (2 * r + 1) * 2 ^ e / (2 ^ 1022 * 2 ^ 52) := by
  rw [value_add_value_succ, midpoint_grid he hr, one_eq]
  push_cast
  rfl

/-- Beyond the largest double the grid goes on to `2 ^ 1024`. -/
theorem value_add_largest :
    value (infinite - 1) + value (infinite - 1 + 1) = 2 * (2 ^ 1024 - 2 ^ 970) := by
  have hlargest : infinite - 1 = 2045 * 0x10000000000000 + 0x1FFFFFFFFFFFFF := by decide
  rw [hlargest, value_add_grid (Or.inr (by decide)) (by decide),
    show 2045 = 970 + 1 + (1022 + 52) from rfl, show 1024 = 970 + 54 from rfl]
  simp only [pow_add]
  rw [← mul_assoc, mul_div_cancel_right₀ _ (by positivity)]
  generalize (2 : ℚ) ^ 970 = step
  push_cast
  ring

/-- The least double above zero is one unit. -/
theorem value_add_least : value 0 + value (0 + 1) = 2 * (2 ^ (-1075 : ℤ)) := by
  have hgrid := @value_add_grid 0 0 (Or.inl rfl) (by decide)
  rw [Nat.zero_mul, Nat.zero_add] at hgrid
  rw [hgrid, zpow_neg, zpow_ofNat, show 1075 = 1 + (1022 + 52) from rfl, pow_add 2 1,
    pow_add 2 1022]
  field_simp
  norm_num

theorem isPast_iff {num den : Nat} (hden : 0 < den) (m : Nat) :
    IsPast num den m ↔
      value m + value (m + 1) < 2 * (num / den : ℚ) ∨
        value m + value (m + 1) = 2 * (num / den : ℚ) ∧ m % 2 = 1 := by
  have hd : (0 : ℚ) < den := Nat.cast_pos.mpr hden
  rw [value_add_value_succ, IsPast, ← mul_div_assoc, div_lt_div_iff₀ one_pos hd,
    div_eq_div_iff one_pos.ne' hd.ne', mul_assoc]
  norm_cast

end LoxLexis.Binary64
