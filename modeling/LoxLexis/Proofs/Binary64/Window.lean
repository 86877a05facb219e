import LoxLexis.Binary64.Text
import LoxLexis.Proofs.Binary64.Interval
import Mathlib.Algebra.Order.Field.Power

/-!
# Windows and decimal grids

A window holds the ends of a rounding interval as whole numbers. `toRat` says which
number each stands for: membership in the window is membership in the interval
(`contains_iff`), and what `onGrid?` looks at are the two multiples of a power of ten
around the double, `below` and the next. A number that is not strictly between the two is
no closer to the double than the one that is found, and if none is found then it is not in
the interval.
-/

namespace LoxLexis.Window

open Binary64

theorem cast_ten_pow (n : Nat) : ((Nat.pow 10 n : ℕ) : ℚ) = 10 ^ n := by
  rw [Nat.pow_eq, Nat.cast_pow, Nat.cast_ofNat]

/-! ## Counts as numbers -/

/-- How many parts of a window make up one. -/
def parts : ℚ :=
  10 ^ places * (2 * (one : ℕ))

theorem parts_pos : 0 < parts := by
  have hone := one_pos
  unfold parts
  positivity

/-- The number that a count of parts stands for. -/
def toRat (x : Nat) : ℚ :=
  x / parts

theorem toRat_lt_iff {x y : Nat} : toRat x < toRat y ↔ x < y := by
  rw [toRat, toRat, div_lt_div_iff_of_pos_right parts_pos, Nat.cast_lt]

theorem toRat_inj {x y : Nat} : toRat x = toRat y ↔ x = y := by
  rw [toRat, toRat, div_left_inj' parts_pos.ne', Nat.cast_inj]

theorem value_add_value (m n : Nat) :
    value m + value n = 2 * toRat ((units m + units n) * Nat.pow 10 places) := by
  have hpow : (10 : ℚ) ^ places ≠ 0 := pow_ne_zero places (by norm_num)
  have hone := one_pos.ne'
  rw [value, value, toRat, parts, Nat.cast_mul, Nat.cast_add, cast_ten_pow]
  generalize (10 : ℚ) ^ places = p at hpow
  field_simp

theorem toRat_centre (m : Nat) : toRat (ofMagnitude m).centre = value m := by
  have hcentre : (ofMagnitude m).centre = (units m + units m) * Nat.pow 10 places := by
    show 2 * units m * Nat.pow 10 places = _
    rw [Nat.two_mul]
  have hvalue := value_add_value m m
  rw [← hcentre] at hvalue
  linarith

theorem inInterval_toRat_iff {m x : Nat} :
    InInterval m (toRat x) ↔
      ((ofMagnitude m).lower < x ∨ (ofMagnitude m).lower = x ∧ m % 2 = 0) ∧
        (x < (ofMagnitude m).upper ∨ x = (ofMagnitude m).upper ∧ m % 2 = 0) := by
  have hlower : value (m - 1) + value m = 2 * toRat (ofMagnitude m).lower := value_add_value _ _
  have hupper : value m + value (m + 1) = 2 * toRat (ofMagnitude m).upper := value_add_value _ _
  rw [inInterval_iff, hlower, hupper]
  simp only [mul_lt_mul_iff_right₀ (two_pos : (0 : ℚ) < 2), mul_right_inj' (two_ne_zero : (2 : ℚ) ≠ 0),
    toRat_lt_iff, toRat_inj]

/-- A window contains the numbers that round to its double. -/
theorem contains_iff {m x : Nat} :
    (ofMagnitude m).contains x = true ↔ InInterval m (toRat x) := by
  have hclosed : (ofMagnitude m).closed = (m % 2 == 0) := rfl
  rw [inInterval_toRat_iff, contains, hclosed]
  by_cases heven : m % 2 = 0
  · simp only [heven, beq_self_eq_true, if_true, Bool.and_eq_true, decide_eq_true_eq, and_true]
    omega
  · simp [heven]

/-! ## Grids -/

/-- The distance of two multiples on a grid. -/
def step (j : Nat) : ℚ :=
  10 ^ ((j : ℤ) - (places : ℕ))

theorem step_pos (j : Nat) : 0 < step j :=
  zpow_pos (by norm_num) _

theorem toRat_mul_spacing (i j : Nat) : toRat (i * spacing j) = i * step j := by
  have hparts := one_pos.ne'
  have hten : (10 : ℚ) ^ places ≠ 0 := pow_ne_zero places (by norm_num)
  rw [toRat, parts, spacing, step, zpow_sub₀ (by norm_num), zpow_natCast, zpow_natCast,
    Nat.cast_mul, Nat.cast_mul, Nat.cast_mul, Nat.cast_ofNat, cast_ten_pow]
  generalize (10 : ℚ) ^ places = p at hten
  field_simp

/-- The last multiple that is not past the double. -/
def below (m j : Nat) : Nat :=
  (ofMagnitude m).centre / spacing j

theorem below_mul_step_le (m j : Nat) : below m j * step j ≤ value m := by
  rw [← toRat_mul_spacing, ← toRat_centre, ← not_lt, toRat_lt_iff, not_lt]
  exact Nat.div_mul_le_self _ _

theorem spacing_pos (j : Nat) : 0 < spacing j :=
  Nat.mul_pos (Nat.pow_pos (by decide)) (Nat.mul_pos two_pos (Nat.cast_pos.mp one_pos))

theorem value_lt_succ_below_mul_step (m j : Nat) : value m < (below m j + 1 : ℕ) * step j := by
  rw [← toRat_mul_spacing, ← toRat_centre, toRat_lt_iff]
  exact Nat.lt_mul_of_div_lt (Nat.lt_succ_self _) (spacing_pos j)

/-- Not strictly between the two multiples around the double. -/
def Beside (m j : Nat) (q : ℚ) : Prop :=
  q ≤ below m j * step j ∨ (below m j + 1 : ℕ) * step j ≤ q

theorem beside_mul_step (m j i : Nat) : Beside m j (i * step j) := by
  rcases Nat.lt_or_ge (below m j) i with hlt | hle
  · exact Or.inr (mul_le_mul_of_nonneg_right (Nat.cast_le.mpr hlt) (step_pos j).le)
  · exact Or.inl (mul_le_mul_of_nonneg_right (Nat.cast_le.mpr hle) (step_pos j).le)

/-- A decimal with no more digits than the multiples around the double is one of the
multiples, or smaller than all that have as many digits. -/
theorem beside_of_lt_pow {m j n k : Nat} (hn : 10 ^ n ≤ below m j) (hk : k < 10 ^ (n + 1))
    (e : ℤ) : Beside m j (k * 10 ^ e) := by
  have hten : (10 : ℚ) ≠ 0 := by norm_num
  by_cases he : (j : ℤ) - (places : ℕ) ≤ e
  · obtain ⟨t, ht⟩ := Int.le.dest he
    have hmultiple : (k : ℚ) * 10 ^ e = (k * 10 ^ t : ℕ) * step j := by
      rw [step, ← ht, zpow_add₀ hten, zpow_natCast, Nat.cast_mul, Nat.cast_pow, Nat.cast_ofNat]
      ring
    rw [hmultiple]
    exact beside_mul_step m j _
  · left
    have hexponent : ((n + 1 : ℕ) : ℤ) + e ≤ n + ((j : ℤ) - (places : ℕ)) := by omega
    calc (k : ℚ) * 10 ^ e ≤ (10 ^ (n + 1) : ℕ) * 10 ^ e :=
          mul_le_mul_of_nonneg_right (Nat.cast_le.mpr hk.le) (zpow_pos (by norm_num) e).le
      _ = 10 ^ (((n + 1 : ℕ) : ℤ) + e) := by
          rw [zpow_add₀ hten, zpow_natCast, Nat.cast_pow, Nat.cast_ofNat]
      _ ≤ 10 ^ (n + ((j : ℤ) - (places : ℕ))) := zpow_le_zpow_right₀ (by norm_num) hexponent
      _ = (10 ^ n : ℕ) * step j := by
          rw [zpow_add₀ hten, zpow_natCast, step, Nat.cast_pow, Nat.cast_ofNat]
      _ ≤ below m j * step j :=
          mul_le_mul_of_nonneg_right (Nat.cast_le.mpr hn) (step_pos j).le

/-! ## What is found on a grid -/

section Distance

variable {v a b q : ℚ} (hb : b ≤ v) (ha : v < a)

theorem abs_sub_le_of_le_below (hq : q ≤ b) (hb : b ≤ v) : |b - v| ≤ |q - v| := by
  rw [abs_of_nonpos (by linarith), abs_of_nonpos (by linarith)]
  linarith

theorem abs_sub_le_of_above_le (ha : v ≤ a) (hq : a ≤ q) : |a - v| ≤ |q - v| := by
  rw [abs_of_nonneg (by linarith), abs_of_nonneg (by linarith)]
  linarith

include hb ha

theorem abs_below_le (hnear : v - b ≤ a - v) (hq : q ≤ b ∨ a ≤ q) : |b - v| ≤ |q - v| := by
  rcases hq with hq | hq
  · exact abs_sub_le_of_le_below hq hb
  · calc |b - v| = v - b := by rw [abs_of_nonpos (by linarith), neg_sub]
      _ ≤ a - v := hnear
      _ = |a - v| := (abs_of_nonneg (by linarith)).symm
      _ ≤ |q - v| := abs_sub_le_of_above_le ha.le hq

theorem abs_above_le (hnear : a - v ≤ v - b) (hq : q ≤ b ∨ a ≤ q) : |a - v| ≤ |q - v| := by
  rcases hq with hq | hq
  · calc |a - v| = a - v := abs_of_nonneg (by linarith)
      _ ≤ v - b := hnear
      _ = |b - v| := by rw [abs_of_nonpos (by linarith), neg_sub]
      _ ≤ |q - v| := abs_sub_le_of_le_below hq hb
  · exact abs_sub_le_of_above_le ha.le hq

end Distance

/-- The multiple is one of the two around the double; it rounds to the double, and nothing
beside the two that also does is closer. -/
structure Found (m j i : Nat) : Prop where
  inInterval : InInterval m (i * step j)
  eq_or_eq : i = below m j ∨ i = below m j + 1
  closest : ∀ q, Beside m j q → InInterval m q → |i * step j - value m| ≤ |q - value m|

section OnGrid

variable {m j : Nat} (hm : 0 < m)

theorem contains_mul_spacing_iff {i : Nat} :
    (ofMagnitude m).contains (i * spacing j) = true ↔ InInterval m (i * step j) := by
  rw [contains_iff, toRat_mul_spacing]

theorem onGrid?_eq :
    (ofMagnitude m).onGrid? (spacing j)
      = match (ofMagnitude m).contains (below m j * spacing j),
          (ofMagnitude m).contains ((below m j + 1) * spacing j) with
        | true, true =>
            if 2 * (ofMagnitude m).centre < (below m j + (below m j + 1)) * spacing j then
              some (below m j)
            else some (below m j + 1)
        | true, false => some (below m j)
        | false, true => some (below m j + 1)
        | false, false => none := rfl

theorem two_mul_centre_lt_iff :
    2 * (ofMagnitude m).centre < (below m j + (below m j + 1)) * spacing j ↔
      value m - below m j * step j < (below m j + 1 : ℕ) * step j - value m := by
  have hleft : toRat (2 * (ofMagnitude m).centre) = 2 * value m := by
    rw [← toRat_centre, toRat, toRat, Nat.cast_mul, mul_div_assoc, Nat.cast_ofNat]
  rw [← toRat_lt_iff, hleft, toRat_mul_spacing, Nat.cast_add, add_mul, lt_sub_iff_add_lt,
    sub_add_eq_add_sub, sub_lt_iff_lt_add, ← two_mul, add_comm]

include hm

/-- The interval goes from the double to any number in it without a gap. -/
theorem inInterval_of_beside {q : ℚ} (hq : Beside m j q) (hin : InInterval m q) :
    q ≤ below m j * step j ∧ InInterval m (below m j * step j) ∨
      (below m j + 1 : ℕ) * step j ≤ q ∧ InInterval m ((below m j + 1 : ℕ) * step j) := by
  have hself := InInterval.value_self hm
  rcases hq with hle | hle
  · exact Or.inl ⟨hle, hin.of_between hself hle (below_mul_step_le m j)⟩
  · exact Or.inr ⟨hle, hself.of_between hin (value_lt_succ_below_mul_step m j).le hle⟩

theorem not_inInterval_of_onGrid?_eq_none (h : (ofMagnitude m).onGrid? (spacing j) = none)
    {q : ℚ} (hq : Beside m j q) : ¬ InInterval m q := by
  intro hin
  rw [onGrid?_eq] at h
  split at h
  · split at h <;> cases h
  · cases h
  · cases h
  · rename_i hbelow habove
    rcases inInterval_of_beside hm hq hin with ⟨-, hin⟩ | ⟨-, hin⟩
    · rw [← contains_mul_spacing_iff, hbelow] at hin
      cases hin
    · rw [← contains_mul_spacing_iff, habove] at hin
      cases hin

theorem found_of_onGrid?_eq_some {i : Nat}
    (h : (ofMagnitude m).onGrid? (spacing j) = some i) : Found m j i := by
  have hb := below_mul_step_le m j
  have ha := value_lt_succ_below_mul_step m j
  rw [onGrid?_eq] at h
  split at h
  · -- both multiples round to the double, and the closer is taken
    rename_i hbelow habove
    rw [contains_mul_spacing_iff] at hbelow habove
    split at h
    · rename_i hnear
      rw [two_mul_centre_lt_iff] at hnear
      obtain rfl := Option.some.inj h
      exact ⟨hbelow, Or.inl rfl, fun q hq _ => abs_below_le hb ha hnear.le hq⟩
    · rename_i hnear
      rw [two_mul_centre_lt_iff, not_lt] at hnear
      obtain rfl := Option.some.inj h
      exact ⟨habove, Or.inr rfl, fun q hq _ => abs_above_le hb ha hnear hq⟩
  · rename_i hbelow habove
    obtain rfl := Option.some.inj h
    refine ⟨contains_mul_spacing_iff.mp hbelow, Or.inl rfl, fun q hq hin => ?_⟩
    rcases inInterval_of_beside hm hq hin with ⟨hle, -⟩ | ⟨-, hin⟩
    · exact abs_sub_le_of_le_below hle hb
    · rw [← contains_mul_spacing_iff, habove] at hin
      cases hin
  · rename_i hbelow habove
    obtain rfl := Option.some.inj h
    refine ⟨contains_mul_spacing_iff.mp habove, Or.inr rfl, fun q hq hin => ?_⟩
    rcases inInterval_of_beside hm hq hin with ⟨-, hin⟩ | ⟨hle, -⟩
    · rw [← contains_mul_spacing_iff, hbelow] at hin
      cases hin
    · exact abs_sub_le_of_above_le ha.le hle
  · cases h

end OnGrid

end LoxLexis.Window
