import LoxLexis.Proofs.Binary64.Window
import LoxLexis.Proofs.Decimal.Value
import Mathlib.Data.Rat.Floor

/-!
# The shortest digits

`shortest` finds the fewest digits that round to a double, and of those the closest to it
(`isShortest_shortest`). The search goes from coarse grids to fine ones and stops at the
first hit. On the coarsest grid the double has one digit, and it gets one more with each
step, so a decimal of fewer digits would have been hit before. Seventeen digits are enough:
there the multiples of the grid stand closer than the interval is wide.
-/

namespace LoxLexis

namespace Window

open Binary64

/-! ## The search -/

/-- A multiple on the grid `j`, and nothing on the coarser grids up to `n`. -/
structure Hit (w : Window) (n i j : Nat) : Prop where
  le : j ≤ n
  onGrid? : w.onGrid? (spacing j) = some i
  none_above : ∀ k, j < k → k ≤ n → w.onGrid? (spacing k) = none

theorem hit_search {w : Window} {k n : Nat} (hk : k ≤ n)
    (hsome : w.onGrid? (spacing k) ≠ none) : w.Hit n (w.search n).1 (w.search n).2 := by
  induction n with
  | zero =>
      obtain rfl : k = 0 := Nat.le_zero.mp hk
      obtain ⟨i, hi⟩ := Option.ne_none_iff_exists'.mp hsome
      refine ⟨Nat.le_refl 0, ?_, fun k hpos hle => by omega⟩
      show w.onGrid? (spacing 0) = some ((w.onGrid? (spacing 0)).getD _)
      rw [hi, Option.getD_some]
  | succ n ih =>
      unfold search
      split
      · rename_i i hi
        exact ⟨Nat.le_refl _, hi, fun k hlt hle => by omega⟩
      · rename_i hnone
        have hne : k ≠ n + 1 := fun h => hsome (h ▸ hnone)
        have hit := ih (by omega)
        refine ⟨Nat.le_succ_of_le hit.le, hit.onGrid?, fun l hlt hle => ?_⟩
        rcases Nat.lt_or_eq_of_le hle with hle | rfl
        · exact hit.none_above l hlt (Nat.le_of_lt_succ hle)
        · exact hnone

theorem Hit.le_of_ne_none {w : Window} {n i j k : Nat} (h : w.Hit n i j) (hk : k ≤ n)
    (hsome : w.onGrid? (spacing k) ≠ none) : k ≤ j := by
  by_contra hlt
  exact hsome (h.none_above k (Nat.lt_of_not_le hlt) hk)

/-! ## Digits on a grid -/

theorem spacing_eq (j : Nat) : spacing j = 2 * one * 10 ^ j := by
  rw [spacing, Nat.pow_eq, Nat.mul_comm]

theorem below_eq (m j : Nat) : below m j = below m 0 / 10 ^ j := by
  rw [below, below, spacing_eq, spacing_eq 0, Nat.pow_zero, Nat.mul_one, Nat.div_div_eq_div_mul]

/-- The multiple is the first past the lower number. -/
theorem exists_multiple_between {a b s : ℚ} (ha : 0 ≤ a) (hs : 0 < s) (hab : a + s < b) :
    ∃ i : Nat, a < i * s ∧ i * s < b := by
  have hpast : a < (⌊a / s⌋₊ + 1 : ℕ) * s := by
    rw [← div_lt_iff₀ hs, Nat.cast_add_one]
    exact Nat.lt_floor_add_one _
  have hclose : (⌊a / s⌋₊ + 1 : ℕ) * s ≤ a + s := by
    rw [Nat.cast_add_one, add_mul, one_mul, add_le_add_iff_right, ← le_div_iff₀ hs]
    exact Nat.floor_le (div_nonneg ha hs.le)
  exact ⟨_, hpast, hclose.trans_lt hab⟩

section Digits

variable {m : Nat} (hm : 0 < m)

include hm

/-- The finest grid is fine enough for seventeen digits of the least double. -/
theorem pow_sixteen_le_below_zero : 10 ^ 16 ≤ below m 0 := by
  have hunits : 1 ≤ units m := strictMono_units hm
  have hplaces : 10 ^ 16 * one ≤ Nat.pow 10 places := by decide +kernel
  have hcentre : (ofMagnitude m).centre = 2 * units m * Nat.pow 10 places := rfl
  rw [below, Nat.le_div_iff_mul_le (spacing_pos 0), spacing_eq, hcentre]
  generalize Nat.pow 10 places = p at hplaces
  generalize one = u at hplaces
  calc 10 ^ 16 * (2 * u * 10 ^ 0) = 2 * (10 ^ 16 * u) := by ring
    _ ≤ 2 * p := Nat.mul_le_mul_left 2 hplaces
    _ ≤ 2 * units m * p := Nat.mul_le_mul_right p (Nat.mul_le_mul_left 2 hunits)

theorem pow_coarsest_le_below : 10 ^ (ofMagnitude m).coarsest ≤ below m 0 ∧
    below m 0 < 10 ^ ((ofMagnitude m).coarsest + 1) := by
  have hlarge := pow_sixteen_le_below_zero hm
  have hlength : 0 < (Nat.toDigits 10 (below m 0)).length :=
    List.length_pos_iff.mpr Nat.toDigits_ne_nil
  have hcoarsest : (ofMagnitude m).coarsest = (Nat.toDigits 10 (below m 0)).length - 1 := rfl
  constructor
  · rcases Nat.eq_zero_or_pos (ofMagnitude m).coarsest with hzero | hpos
    · rw [hzero]
      exact Nat.le_trans (by decide) hlarge
    · rw [← Nat.not_lt, ← Nat.length_toDigits_le_iff (by decide) hpos]
      omega
  · rw [← Nat.length_toDigits_le_iff (by decide) (Nat.succ_pos _)]
    omega

theorem sixteen_le_coarsest : 16 ≤ (ofMagnitude m).coarsest := by
  have hlarge := (pow_sixteen_le_below_zero hm).trans_lt (pow_coarsest_le_below hm).2
  exact Nat.le_of_lt_succ ((Nat.pow_lt_pow_iff_right (by decide)).mp hlarge)

/-- The double has one digit on the coarsest grid, and one more on each finer grid. -/
theorem pow_le_below {j : Nat} (hj : j ≤ (ofMagnitude m).coarsest) :
    10 ^ ((ofMagnitude m).coarsest - j) ≤ below m j ∧
      below m j < 10 ^ ((ofMagnitude m).coarsest - j + 1) := by
  obtain ⟨hle, hlt⟩ := pow_coarsest_le_below hm
  have hpos : 0 < 10 ^ j := Nat.pow_pos (by decide)
  rw [below_eq m j, Nat.le_div_iff_mul_le hpos, Nat.div_lt_iff_lt_mul hpos, ← Nat.pow_add,
    ← Nat.pow_add, Nat.sub_add_cancel hj, Nat.add_right_comm, Nat.sub_add_cancel hj]
  exact ⟨hle, hlt⟩

/-! ## Seventeen digits -/

/-- The doubles on both sides stand apart by more than the double divided by ten to the
sixteenth, twice. At the start of a stretch the double above does so by itself. -/
theorem two_mul_units_lt :
    2 * units m + 10 ^ 16 * units (m - 1)
      < 10 ^ 16 * units (m + 1) := by
  have hr := significand_lt m
  have he := scale_eq_zero_or_le_significand m
  have hsplit := eq_scale_add_significand m
  generalize scale m = e at he hsplit
  generalize significand m = r at hr he hsplit
  subst hsplit
  have hpow : 0 < 2 ^ e := Nat.two_pow_pos e
  have hself : units (e * 0x10000000000000 + r) = r * 2 ^ e :=
    units_grid he hr.le
  have hnext : units (e * 0x10000000000000 + r + 1) = r * 2 ^ e + 2 ^ e := by
    rw [Nat.add_assoc, units_grid (by omega) hr, Nat.succ_mul]
  rw [hself, hnext]
  by_cases hstart : r = 0x10000000000000
  · subst hstart
    have hprev := (strictMono_units (Nat.sub_lt hm Nat.one_pos)).le
    rw [hself] at hprev
    omega
  · obtain ⟨s, rfl⟩ : ∃ s, r = s + 1 := Nat.exists_eq_add_one_of_ne_zero (by omega)
    have hprev : units (e * 0x10000000000000 + (s + 1) - 1) = s * 2 ^ e := by
      rw [← Nat.add_assoc, Nat.add_sub_cancel, units_grid (by omega) (by omega)]
    have hbound : s * 2 ^ e < 0x20000000000000 * 2 ^ e :=
      Nat.mul_lt_mul_of_pos_right (by omega) hpow
    rw [hprev, Nat.add_mul, Nat.one_mul]
    omega

theorem two_mul_value_lt :
    2 * value m
      < 10 ^ 16 * (value (m + 1) - value (m - 1)) := by
  have hunits : (2 * units m + 10 ^ 16 * units (m - 1) : ℚ)
      < 10 ^ 16 * units (m + 1) := by
    exact_mod_cast two_mul_units_lt hm
  rw [value, value, value, ← sub_div, ← mul_div_assoc,
    ← mul_div_assoc]
  exact div_lt_div_of_pos_right (by linarith) Binary64.one_pos

theorem onGrid?_sixteen_ne_none :
    (ofMagnitude m).onGrid? (spacing ((ofMagnitude m).coarsest - 16)) ≠ none := by
  have hsixteen := sixteen_le_coarsest hm
  have hle := (pow_le_below hm (Nat.sub_le (ofMagnitude m).coarsest 16)).1
  rw [Nat.sub_sub_self hsixteen] at hle
  generalize (ofMagnitude m).coarsest - 16 = j at hle
  have hstep : 10 ^ 16 * step j ≤ value m :=
    calc 10 ^ 16 * step j = (10 ^ 16 : ℕ) * step j := by norm_num
      _ ≤ below m j * step j :=
          mul_le_mul_of_nonneg_right (Nat.cast_le.mpr hle) (step_pos j).le
      _ ≤ value m := below_mul_step_le m j
  have hwidth := two_mul_value_lt hm
  obtain ⟨lower, htwice⟩ : ∃ lower, 2 * lower = value (m - 1) + value m :=
    ⟨_, mul_div_cancel₀ _ two_ne_zero⟩
  have hnonneg : 0 ≤ lower := by linarith [value_nonneg (m - 1), value_nonneg m]
  obtain ⟨i, hpast, hbefore⟩ :=
    exists_multiple_between (b := (value m + value (m + 1)) / 2) hnonneg (step_pos j)
      (by linarith)
  have hin : InInterval m (i * step j) := ⟨Or.inl (by linarith), Or.inl (by linarith)⟩
  exact fun hnone => not_inInterval_of_onGrid?_eq_none hm hnone (beside_mul_step m j i) hin

/-! ## What is hit -/

theorem exists_hit : ∃ i j, (ofMagnitude m).search (ofMagnitude m).coarsest = (i, j) ∧
    (ofMagnitude m).Hit (ofMagnitude m).coarsest i j ∧ (ofMagnitude m).coarsest ≤ j + 16 := by
  have henough := onGrid?_sixteen_ne_none hm
  have hhit := hit_search (Nat.sub_le _ 16) henough
  have hle := hhit.le_of_ne_none (Nat.sub_le _ 16) henough
  exact ⟨_, _, Prod.mk.eta.symm, hhit, Nat.le_add_of_sub_le hle⟩

section Hit

variable {i j k : Nat} (h : (ofMagnitude m).Hit (ofMagnitude m).coarsest i j)

include h

theorem Hit.found : Found m j i :=
  found_of_onGrid?_eq_some hm h.onGrid?

theorem Hit.pos : 0 < i := by
  have hpos := (h.found hm).inInterval.pos hm
  rw [mul_pos_iff_of_pos_right (step_pos j)] at hpos
  exact Nat.cast_pos.mp hpos

theorem Hit.le_pow : i ≤ 10 ^ ((ofMagnitude m).coarsest - j + 1) := by
  have hlt := (pow_le_below hm h.le).2
  rcases (h.found hm).eq_or_eq with rfl | rfl
  · exact hlt.le
  · exact hlt

/-- Fewer digits: the next coarser grid has as many, and nothing on it. -/
theorem Hit.minimal (hk : k < 10 ^ ((ofMagnitude m).coarsest - j)) (e : ℤ) :
    ¬ InInterval m (k * 10 ^ e) := by
  rcases Nat.lt_or_eq_of_le h.le with hcoarser | rfl
  · have hgrid := (pow_le_below hm (Nat.succ_le_of_lt hcoarser)).1
    have hdigits : (ofMagnitude m).coarsest - j = (ofMagnitude m).coarsest - (j + 1) + 1 := by
      omega
    rw [hdigits] at hk
    have hnone := h.none_above (j + 1) (Nat.lt_succ_self j) (Nat.succ_le_of_lt hcoarser)
    exact not_inInterval_of_onGrid?_eq_none hm hnone (beside_of_lt_pow hgrid hk e)
  · -- only zero has no digits
    intro hin
    rw [Nat.sub_self, Nat.pow_zero, Nat.lt_one_iff] at hk
    have hpos := hin.pos hm
    rw [hk, Nat.cast_zero, zero_mul] at hpos
    exact hpos.false

theorem Hit.closest (hk : k < 10 ^ ((ofMagnitude m).coarsest - j + 1)) {e : ℤ}
    (hin : InInterval m (k * 10 ^ e)) :
    |i * step j - value m| ≤ |k * 10 ^ e - value m| :=
  (h.found hm).closest _ (beside_of_lt_pow (pow_le_below hm h.le).1 hk e) hin

end Hit

end Digits

end Window

namespace Binary64

open Window

/-- The digits round to the double, none fewer do, and of as many digits none that do are
closer. -/
structure IsShortest (m : Nat) (d : Decimal) : Prop where
  tight : d.Tight
  inInterval : InInterval m d.toRat
  length_le : d.digits.length ≤ 17
  minimal : ∀ (k : Nat) (e : ℤ), k < 10 ^ (d.digits.length - 1) → ¬ InInterval m (k * 10 ^ e)
  closest : ∀ (k : Nat) (e : ℤ), k < 10 ^ d.digits.length → InInterval m (k * 10 ^ e) →
    |d.toRat - value m| ≤ |k * 10 ^ e - value m|

theorem shortest_zero : shortest 0 = .zero := if_pos rfl

theorem shortest_eq {m i j : Nat} (hm : 0 < m)
    (h : (ofMagnitude m).search (ofMagnitude m).coarsest = (i, j)) :
    shortest m = (Decimal.ofMultiple i ((j : ℤ) - (places : ℕ))).dropZeros := by
  refine (if_neg hm.ne').trans ?_
  -- the pair becomes a variable before the two sides are compared, or the search is run
  conv => lhs; zeta
  generalize (ofMagnitude m).search (ofMagnitude m).coarsest = found at h ⊢
  subst h
  rfl

theorem isShortest_shortest {m : Nat} (hm : 0 < m) : IsShortest m (shortest m) := by
  obtain ⟨i, j, hsearch, hhit, hsixteen⟩ := exists_hit hm
  have hrat : (shortest m).toRat = i * step j := by
    rw [shortest_eq hm hsearch, Decimal.toRat_dropZeros, Decimal.toRat_ofMultiple, step]
  have hlength : (shortest m).digits.length ≤ (ofMagnitude m).coarsest - j + 1 := by
    rw [shortest_eq hm hsearch]
    exact Decimal.length_dropZeros_ofMultiple_le (hhit.pos hm) _ (Nat.succ_pos _)
      (hhit.le_pow hm)
  constructor
  case tight =>
    rw [shortest_eq hm hsearch]
    exact Decimal.tight_dropZeros_ofMultiple (hhit.pos hm) _
  case inInterval => exact hrat ▸ (hhit.found hm).inInterval
  case length_le => omega
  case minimal =>
    intro k e hk
    refine hhit.minimal hm (hk.trans_le ?_) e
    exact Nat.pow_le_pow_right (by decide) (Nat.sub_le_of_le_add hlength)
  case closest =>
    intro k e hk hin
    rw [hrat]
    refine hhit.closest hm (hk.trans_le ?_) hin
    exact Nat.pow_le_pow_right (by decide) hlength

end Binary64

end LoxLexis
