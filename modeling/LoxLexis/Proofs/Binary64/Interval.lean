import LoxLexis.Proofs.Binary64.CorrectRounding

/-!
# Rounding intervals

The numbers that round to a finite double above zero are those between two points, half
way to the doubles beside it, and the points themselves if the double is even
(`roundsTo_iff`).
-/

namespace LoxLexis.Binary64

/-- From half way below a magnitude to half way above it, the ends included if it is
even. -/
@[mk_iff]
structure InInterval (m : Nat) (q : ℚ) : Prop where
  lower : value (m - 1) + value m < 2 * q ∨ value (m - 1) + value m = 2 * q ∧ m % 2 = 0
  upper : 2 * q < value m + value (m + 1) ∨ 2 * q = value m + value (m + 1) ∧ m % 2 = 0

namespace InInterval

variable {m : Nat} {a b c : ℚ}

theorem of_between (ha : InInterval m a) (hb : InInterval m b) (hac : a ≤ c) (hcb : c ≤ b) :
    InInterval m c := by
  constructor
  case lower =>
    rcases ha.lower with hlt | ⟨heq, heven⟩
    · exact Or.inl (by linarith)
    · rcases hac.lt_or_eq with hlt | rfl
      · exact Or.inl (by linarith)
      · exact Or.inr ⟨heq, heven⟩
  case upper =>
    rcases hb.upper with hlt | ⟨heq, heven⟩
    · exact Or.inl (by linarith)
    · rcases hcb.lt_or_eq with hlt | rfl
      · exact Or.inl (by linarith)
      · exact Or.inr ⟨heq, heven⟩

variable (hm : 0 < m)

include hm

theorem value_self : InInterval m (value m) := by
  have hbelow : value (m - 1) < value m := strictMono_value (Nat.sub_lt hm Nat.one_pos)
  have habove : value m < value (m + 1) := strictMono_value (Nat.lt_add_one m)
  exact ⟨Or.inl (by linarith), Or.inl (by linarith)⟩

theorem pos (ha : InInterval m a) : 0 < a := by
  have hbelow : 0 ≤ value (m - 1) := value_nonneg (m - 1)
  have hself : 0 < value m := (value_nonneg 0).trans_lt (strictMono_value hm)
  rcases ha.lower with hlt | ⟨heq, -⟩ <;> linarith

end InInterval

/-! ## Rounding -/

theorem exists_quotient {q : ℚ} (hq : 0 ≤ q) : ∃ num den : Nat, 0 < den ∧ (num / den : ℚ) = q := by
  obtain ⟨num, hnum⟩ := Int.eq_ofNat_of_zero_le (Rat.num_nonneg.mpr hq)
  refine ⟨num, q.den, q.den_pos, ?_⟩
  conv => rhs; rw [← Rat.num_div_den q, hnum]
  rfl

/-- Only the quotient matters for what it rounds to. -/
theorem roundsTo_quotient_iff {num den : Nat} (hden : 0 < den) {x : Binary64}
    (hx : x.negative = false) :
    RoundsTo (num / den) x ↔ x.magnitude = nearestMagnitude num den := by
  constructor
  · intro h
    rw [h.unique (roundsTo_nearest hden), magnitude_nearest]
  · intro h
    have heq : x = nearest num den := by
      obtain ⟨negative, magnitude, hlt⟩ := x
      obtain rfl : negative = false := hx
      obtain rfl : magnitude = nearestMagnitude num den := h
      rfl
    exact heq ▸ roundsTo_nearest hden

theorem roundsTo_iff {q : ℚ} (hq : 0 ≤ q) {x : Binary64} (hx : x.negative = false)
    (hfinite : x.isFinite = true) (hpos : 0 < x.magnitude) :
    RoundsTo q x ↔ InInterval x.magnitude q := by
  obtain ⟨num, den, hden, rfl⟩ := exists_quotient hq
  rw [roundsTo_quotient_iff hden hx]
  have hm : x.magnitude < infinite := of_decide_eq_true hfinite
  generalize x.magnitude = m at hpos hm
  have hbelow : m - 1 + 1 = m := Nat.sub_add_cancel hpos
  have hparity : (m - 1) % 2 = 1 ↔ m % 2 = 0 := by omega
  -- past the point half way below it, and not past the one half way above
  have hcut : m = nearestMagnitude num den ↔ IsPast num den (m - 1) ∧ ¬ IsPast num den m := by
    rw [← lt_nearestMagnitude_iff hden (by omega), ← lt_nearestMagnitude_iff hden hm]
    omega
  rw [hcut, isPast_iff hden, isPast_iff hden, hbelow, hparity, not_or, not_lt, not_and]
  constructor
  · rintro ⟨hlower, hle, hodd⟩
    refine ⟨hlower, ?_⟩
    rcases hle.lt_or_eq with hlt | heq
    · exact Or.inl hlt
    · have := hodd heq.symm
      exact Or.inr ⟨heq, by omega⟩
  · rintro ⟨hlower, hlt | ⟨heq, heven⟩⟩
    · exact ⟨hlower, hlt.le, fun h => absurd h hlt.ne'⟩
    · exact ⟨hlower, heq.le, fun _ => by omega⟩

end LoxLexis.Binary64
