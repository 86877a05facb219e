import LoxLexis.Proofs.Binary64.Value

/-!
# Correct rounding

`RoundsTo` says which double a number from zero up rounds to, by distances and parities
and with no word about how it is found. There is only one such double (`RoundsTo.unique`),
and `nearest` finds it (`roundsTo_nearest`).
-/

namespace LoxLexis.Binary64

/-- To nearest, ties to the even significand, and to infinity from half way past the
largest double. -/
structure RoundsTo (q : ℚ) (x : Binary64) : Prop where
  negative : x.negative = false
  isNaN : x.isNaN = false
  overflow : x.isInfinite = true ↔ 2 ^ 1024 - 2 ^ 970 ≤ q
  nearest : x.isFinite = true → ∀ y : Binary64, y.isFinite = true →
    |x.toRat - q| ≤ |y.toRat - q|
  even : x.isFinite = true → ∀ y : Binary64, y.isFinite = true → y.toRat ≠ x.toRat →
    |y.toRat - q| = |x.toRat - q| → x.fractionField % 2 = 0

theorem fractionField_mod_two (x : Binary64) : x.fractionField % 2 = x.magnitude % 2 := by
  rw [fractionField_eq]
  omega

/-! ## Distances -/

section Distance

variable {a b q : ℚ}

theorem abs_sub_le_abs_sub_of_two_mul_le (hlt : a < b) (h : 2 * q ≤ a + b) :
    |a - q| ≤ |b - q| :=
  abs_le.mpr ⟨by linarith [le_abs_self (b - q)], by linarith [le_abs_self (b - q)]⟩

theorem abs_sub_le_abs_sub_of_add_le (hlt : a < b) (h : a + b ≤ 2 * q) :
    |b - q| ≤ |a - q| :=
  abs_le.mpr ⟨by linarith [neg_abs_le (a - q)], by linarith [neg_abs_le (a - q)]⟩

theorem add_eq_two_mul (hne : a ≠ b) (h : |a - q| = |b - q|) : a + b = 2 * q := by
  rcases abs_eq_abs.mp h with heq | heq
  · exact absurd (sub_left_injective heq) hne
  · linarith

theorem abs_sub_lt_of_between {c : ℚ} (hac : a < c) (hcb : c < b) (h : |b - q| = |a - q|) :
    |c - q| < |a - q| := by
  have hsum : b + a = 2 * q := add_eq_two_mul (hac.trans hcb).ne' h
  have hdist : b - q ≤ |a - q| := h ▸ le_abs_self (b - q)
  apply abs_lt.mpr
  constructor <;> linarith

end Distance

/-! ## The magnitude that is found -/

section Quotient

variable {num den : Nat} (hden : 0 < den) {m n : Nat}

include hden

theorem two_mul_le_of_not_isPast (hm : ¬ IsPast num den m) (hlt : m < n) :
    2 * (num / den : ℚ) ≤ value m + value n ∧
      (value m + value n = 2 * (num / den : ℚ) → m % 2 = 0) := by
  have hn : value (m + 1) ≤ value n := strictMono_value.monotone hlt
  rw [isPast_iff hden, not_or, not_lt, not_and] at hm
  constructor
  · linarith [hm.1]
  · intro htie
    have := hm.2 (le_antisymm (by linarith) hm.1)
    omega

theorem add_le_two_mul_of_isPast (hm : IsPast num den m) (hle : n ≤ m) :
    value n + value (m + 1) ≤ 2 * (num / den : ℚ) ∧
      (value n + value (m + 1) = 2 * (num / den : ℚ) → (m + 1) % 2 = 0) := by
  have hn : value n ≤ value m := strictMono_value.monotone hle
  rw [isPast_iff hden] at hm
  rcases hm with hlt | ⟨heq, hodd⟩
  · exact ⟨by linarith, fun htie => by linarith⟩
  · exact ⟨by linarith, fun _ => by omega⟩

/-- No magnitude is closer than the one found, and if another is as close then the one
found is even. -/
theorem nearestMagnitude_spec (hfinite : nearestMagnitude num den < infinite)
    (hne : n ≠ nearestMagnitude num den) :
    |value (nearestMagnitude num den) - num / den| ≤ |value n - num / den| ∧
      (|value n - num / den| = |value (nearestMagnitude num den) - num / den| →
        nearestMagnitude num den % 2 = 0) := by
  have hiff : ∀ {k}, k < infinite → (k < nearestMagnitude num den ↔ IsPast num den k) :=
    fun hk => lt_nearestMagnitude_iff hden hk
  generalize nearestMagnitude num den = m at hfinite hne hiff ⊢
  rcases Nat.lt_or_gt_of_ne hne with hbelow | habove
  · obtain ⟨k, rfl⟩ := Nat.exists_eq_add_one_of_ne_zero (Nat.ne_zero_of_lt hbelow)
    have hpast : IsPast num den k :=
      (hiff (Nat.lt_of_succ_lt hfinite)).mp (Nat.lt_add_one k)
    obtain ⟨hle, htie⟩ := add_le_two_mul_of_isPast hden hpast (Nat.le_of_lt_succ hbelow)
    have hlt := strictMono_value hbelow
    exact ⟨abs_sub_le_abs_sub_of_add_le hlt hle, fun h => htie (add_eq_two_mul hlt.ne h)⟩
  · have hpast : ¬ IsPast num den m := mt (hiff hfinite).mpr (Nat.lt_irrefl m)
    obtain ⟨hle, htie⟩ := two_mul_le_of_not_isPast hden hpast habove
    have hlt := strictMono_value habove
    exact ⟨abs_sub_le_abs_sub_of_two_mul_le hlt hle,
      fun h => htie (add_eq_two_mul hlt.ne h.symm)⟩

/-! ## The ends of the range -/

theorem isInfinite_nearest_iff :
    (nearest num den).isInfinite = true ↔ 2 ^ 1024 - 2 ^ 970 ≤ (num / den : ℚ) := by
  have hmagnitude : nearestMagnitude num den = infinite ↔
      infinite - 1 < nearestMagnitude num den := by
    have := nearestMagnitude_le num den
    unfold infinite at this ⊢
    omega
  show (nearestMagnitude num den == infinite) = true ↔ _
  rw [beq_iff_eq, hmagnitude, lt_nearestMagnitude_iff hden (by decide), isPast_iff hden,
    value_add_largest]
  generalize (2 : ℚ) ^ 1024 - 2 ^ 970 = bound
  constructor
  · rintro (h | ⟨h, -⟩) <;> linarith
  · intro h
    rcases lt_or_eq_of_le h with hlt | heq
    · exact Or.inl (by linarith)
    · exact Or.inr ⟨by linarith, by decide⟩

theorem nearestMagnitude_eq_zero_iff :
    nearestMagnitude num den = 0 ↔ (num / den : ℚ) ≤ 2 ^ (-1075 : ℤ) := by
  rw [← Nat.le_zero, ← Nat.not_lt, lt_nearestMagnitude_iff hden (by decide), isPast_iff hden,
    value_add_least]
  constructor
  · intro h
    by_contra hlt
    exact h (Or.inl (by linarith))
  · rintro h (hlt | ⟨-, hodd⟩)
    · linarith
    · exact absurd hodd (by decide)

/-! ## The double that is found -/

theorem roundsTo_nearest : RoundsTo (num / den) (nearest num den) := by
  have hq : (0 : ℚ) ≤ num / den := by positivity
  have hrat : (nearest num den).toRat = value (nearestMagnitude num den) := by
    rw [toRat_eq, negative_nearest, if_neg Bool.false_ne_true, magnitude_nearest]
  have hfinite : (nearest num den).isFinite = true → nearestMagnitude num den < infinite := by
    rw [isFinite, magnitude_nearest, decide_eq_true_iff]
    exact id
  constructor
  case negative => rfl
  case isNaN => exact isNaN_nearest num den
  case overflow => exact isInfinite_nearest_iff hden
  case nearest =>
    intro hx y hy
    rw [hrat]
    refine le_trans ?_ (abs_value_sub_le hq y)
    by_cases hne : y.magnitude = nearestMagnitude num den
    · rw [hne]
    · exact (nearestMagnitude_spec hden (hfinite hx) hne).1
  case even =>
    intro hx y hy hdiff htie
    rw [hrat] at hdiff htie
    rw [fractionField_mod_two, magnitude_nearest]
    by_cases hne : y.magnitude = nearestMagnitude num den
    · -- only the negation of the double itself is left, and zero half way between them
      have hneg : y.toRat = -value (nearestMagnitude num den) := by
        rw [toRat_eq, hne] at hdiff ⊢
        split at hdiff
        · rw [if_pos ‹_›]
        · exact absurd rfl hdiff
      have hsum := add_eq_two_mul hdiff htie
      have hunit : (0 : ℚ) < 2 ^ (-1075 : ℤ) := zpow_pos two_pos _
      rw [(nearestMagnitude_eq_zero_iff hden).mpr (by linarith)]
    · have hspec := nearestMagnitude_spec hden (hfinite hx) hne
      exact hspec.2 (le_antisymm ((abs_value_sub_le hq y).trans htie.le) hspec.1)

end Quotient

/-! ## There is no other -/

namespace RoundsTo

variable {q : ℚ} {x y : Binary64}

theorem toRat_eq_value (hx : RoundsTo q x) : x.toRat = value x.magnitude := by
  rw [toRat_eq, hx.negative]
  rfl

theorem isFinite_iff (hx : RoundsTo q x) :
    x.isFinite = true ↔ ¬ 2 ^ 1024 - 2 ^ 970 ≤ q := by
  have hnumber := of_decide_eq_false hx.isNaN
  rw [← hx.overflow, isInfinite, isFinite, beq_iff_eq, decide_eq_true_iff]
  omega

theorem exists_between (hx : RoundsTo q x) (hy : RoundsTo q y) (hyf : y.isFinite = true)
    (h : x.magnitude + 1 < y.magnitude) :
    ∃ z : Binary64, z.isFinite = true ∧ x.toRat < z.toRat ∧ z.toRat < y.toRat := by
  let z : Binary64 := ⟨false, x.magnitude + 1, Nat.lt_trans h y.magnitude_lt⟩
  have hz : z.toRat = value (x.magnitude + 1) := toRat_eq z
  refine ⟨z, decide_eq_true (Nat.lt_trans h (of_decide_eq_true hyf)), ?_, ?_⟩
  · rw [hx.toRat_eq_value, hz]
    exact strictMono_value (Nat.lt_add_one _)
  · rw [hy.toRat_eq_value, hz]
    exact strictMono_value h

/-- Of two that are equally close either a closer one lies between, or they are neighbours
and one is odd. -/
theorem magnitude_le (hx : RoundsTo q x) (hy : RoundsTo q y) (hxf : x.isFinite = true)
    (hyf : y.isFinite = true) : y.magnitude ≤ x.magnitude := by
  by_contra hgt
  have hlt : x.magnitude < y.magnitude := Nat.lt_of_not_le hgt
  have hvalue : x.toRat < y.toRat := by
    rw [hx.toRat_eq_value, hy.toRat_eq_value]
    exact strictMono_value hlt
  have htie : |y.toRat - q| = |x.toRat - q| :=
    le_antisymm (hy.nearest hyf x hxf) (hx.nearest hxf y hyf)
  rcases Nat.lt_or_eq_of_le (Nat.succ_le_of_lt hlt) with hgap | hnext
  · obtain ⟨z, hzf, hxz, hzy⟩ := exists_between hx hy hyf hgap
    exact absurd (hx.nearest hxf z hzf) (not_le.mpr (abs_sub_lt_of_between hxz hzy htie))
  · have hxeven := hx.even hxf y hyf hvalue.ne' htie
    have hyeven := hy.even hyf x hxf hvalue.ne htie.symm
    rw [fractionField_mod_two] at hxeven hyeven
    omega

theorem unique (hx : RoundsTo q x) (hy : RoundsTo q y) : x = y := by
  have hmagnitude : x.magnitude = y.magnitude := by
    by_cases hq : 2 ^ 1024 - 2 ^ 970 ≤ q
    · exact (beq_iff_eq.mp (hx.overflow.mpr hq)).trans (beq_iff_eq.mp (hy.overflow.mpr hq)).symm
    · have hxf := hx.isFinite_iff.mpr hq
      have hyf := hy.isFinite_iff.mpr hq
      exact Nat.le_antisymm (magnitude_le hy hx hyf hxf) (magnitude_le hx hy hxf hyf)
  have hnegative : x.negative = y.negative := hx.negative.trans hy.negative.symm
  obtain ⟨s, m, hm⟩ := x
  obtain ⟨s', m', hm'⟩ := y
  obtain rfl : s = s' := hnegative
  obtain rfl : m = m' := hmagnitude
  rfl

end RoundsTo

end LoxLexis.Binary64
