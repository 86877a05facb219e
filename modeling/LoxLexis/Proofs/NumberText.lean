import LoxLexis.Proofs.Binary64.Shortest
import LoxLexis.Proofs.Decimal.Written

/-!
# The text of a number

The text of a finite double is a written number that reads back as that double and no
other (`number_text_reads_back`), with as few digits as any that do, and as close to it
(`number_text_shortest`). `ReadsAs` says what a written number reads as: the sign is kept,
also that of zero, and the number without it goes to the nearest double.
-/

namespace LoxLexis

open Binary64

/-! ## Reading -/

def Binary64.withoutSign (x : Binary64) : Binary64 :=
  ⟨false, x.magnitude, x.magnitude_lt⟩

namespace Written

structure ReadsAs (w : Written) (x : Binary64) : Prop where
  negative : x.negative = w.negative
  roundsTo : RoundsTo w.magnitude x.withoutSign

variable {w : Written} {x y : Binary64}

theorem ReadsAs.unique (hx : w.ReadsAs x) (hy : w.ReadsAs y) : x = y := by
  have hmagnitude : x.withoutSign.magnitude = y.withoutSign.magnitude := by
    rw [hx.roundsTo.unique hy.roundsTo]
  obtain ⟨a, m, hm⟩ := x
  obtain ⟨b, n, hn⟩ := y
  obtain rfl : a = b := hx.negative.trans hy.negative.symm
  obtain rfl : m = n := hmagnitude
  rfl

theorem roundsTo_iff_inInterval (hfinite : x.isFinite = true) (hpos : 0 < x.magnitude) :
    RoundsTo w.magnitude x.withoutSign ↔ InInterval x.magnitude w.magnitude :=
  roundsTo_iff w.magnitude_nonneg rfl hfinite hpos

theorem roundsTo_zero (hzero : x.magnitude = 0) : RoundsTo 0 x.withoutSign := by
  have hnearest : nearestMagnitude 0 1 = 0 := by
    rw [nearestMagnitude_eq_zero_iff Nat.one_pos, Nat.cast_zero, zero_div]
    positivity
  have hiff := @roundsTo_quotient_iff 0 1 Nat.one_pos x.withoutSign rfl
  rw [Nat.cast_zero, zero_div] at hiff
  exact hiff.mpr (hzero.trans hnearest.symm)

end Written

/-! ## Full or with a power of ten -/

theorem thousandth_le_iff {m : Nat} :
    nearestMagnitude 1 1000 ≤ m ↔ 1 / 1000 ≤ value m := by
  have hbelow : units (nearestMagnitude 1 1000 - 1) * 1000 < one := by decide +kernel
  have habove : one ≤ units (nearestMagnitude 1 1000) * 1000 := by decide +kernel
  generalize nearestMagnitude 1 1000 = first at hbelow habove
  have hlt : value (first - 1) < 1 / 1000 := by
    rw [value, div_lt_div_iff₀ Binary64.one_pos (by norm_num), one_mul]
    exact_mod_cast hbelow
  have hle : 1 / 1000 ≤ value first := by
    rw [value, div_le_div_iff₀ (by norm_num) Binary64.one_pos, one_mul]
    exact_mod_cast habove
  constructor
  · exact fun h => hle.trans (strictMono_value.monotone h)
  · intro h
    by_contra hm
    have hm : value m ≤ value (first - 1) := strictMono_value.monotone (by omega)
    linarith

theorem lt_ten_million_iff {m : Nat} :
    m < nearestMagnitude 10000000 1 ↔ value m < 10 ^ 7 := by
  have hunits : units (nearestMagnitude 10000000 1) = 10000000 * one := by decide +kernel
  have hvalue : value (nearestMagnitude 10000000 1) = 10 ^ 7 := by
    rw [value, hunits, Nat.cast_mul, mul_div_cancel_right₀ _ Binary64.one_pos.ne']
    norm_num
  rw [← hvalue, strictMono_value.lt_iff_lt]

theorem isPositional_eq_false_iff {m : Nat} :
    NumberStyle.literal.isPositional m = false ↔
      m ≠ 0 ∧ (value m < 1 / 1000 ∨ 10 ^ 7 ≤ value m) := by
  have hsmall : value m < 1 / 1000 ↔ ¬ nearestMagnitude 1 1000 ≤ m := by
    rw [thousandth_le_iff, not_le]
  have hlarge : 10 ^ 7 ≤ value m ↔ ¬ m < nearestMagnitude 10000000 1 := by
    rw [lt_ten_million_iff, not_lt]
  rw [hsmall, hlarge, ← Bool.not_eq_true]
  show ¬ (m == 0 || decide (nearestMagnitude 1 1000 ≤ m)
    && decide (m < nearestMagnitude 10000000 1)) = true ↔ _
  rw [Bool.or_eq_true, Bool.and_eq_true, beq_iff_eq, decide_eq_true_iff, decide_eq_true_iff,
    not_or, not_and_or]

/-! ## The parts of the text -/

namespace Binary64

def written (x : Binary64) : Written :=
  (shortest x.magnitude).written x.negative (NumberStyle.literal.isPositional x.magnitude)

theorem isDigit_shortest (m : Nat) : ∀ c ∈ (shortest m).digits, c.isDigit = true := by
  rcases Nat.eq_zero_or_pos m with rfl | hm
  · rw [shortest_zero]
    exact fun c hc => absurd hc List.not_mem_nil
  · exact (isShortest_shortest hm).tight.isDigit

theorem sound_written (x : Binary64) : x.written.Sound :=
  Decimal.sound_written _ _ (isDigit_shortest x.magnitude)

theorem magnitude_written (x : Binary64) : x.written.magnitude = (shortest x.magnitude).toRat :=
  Decimal.magnitude_written _ _ _

theorem negative_written (x : Binary64) : x.written.negative = x.negative := by
  show (Decimal.written _ _ _).negative = _
  unfold Decimal.written
  split <;> rfl

variable {x : Binary64} (hx : x.isFinite = true)

include hx

theorem spelling_written : x.written.spelling = (Literal.number x).text.toList := by
  have hlt : x.magnitude < infinite := of_decide_eq_true hx
  have hnan : x.isNaN = false := decide_eq_false (Nat.not_lt.mpr hlt.le)
  have hinfinite : x.isInfinite = false := beq_eq_false_iff_ne.mpr hlt.ne
  have htext : (Literal.number x).text.toList = NumberStyle.literal.write x :=
    String.toList_ofList
  rw [htext, written, Decimal.spelling_written, NumberStyle.write, hnan, NumberStyle.unsigned,
    hinfinite]
  rfl

theorem readsAs_written : x.written.ReadsAs x := by
  refine ⟨(negative_written x).symm, ?_⟩
  rcases Nat.eq_zero_or_pos x.magnitude with hzero | hpos
  · rw [magnitude_written, hzero, shortest_zero]
    have hrat : Decimal.zero.toRat = 0 := zero_mul _
    rw [hrat]
    exact Written.roundsTo_zero hzero
  · rw [Written.roundsTo_iff_inInterval hx hpos, magnitude_written]
    exact (isShortest_shortest hpos).inInterval

end Binary64

/-! ## Reading back -/

/-- The parts of the text of a double, and what they say of it. -/
structure Written.Shows (w : Written) (x : Binary64) : Prop where
  sound : w.Sound
  spelling : w.spelling = (Literal.number x).text.toList
  unique : ∀ v : Written, v.Sound → v.spelling = (Literal.number x).text.toList → v = w
  negative_iff : w.negative = true ↔ x.signField = 1
  exponent_iff : w.exponent.isSome = true ↔
    x.toRat ≠ 0 ∧ (|x.toRat| < 1 / 1000 ∨ 10 ^ 7 ≤ |x.toRat|)
  whole : w.exponent.isSome = true → ∃ d, d ≠ '0' ∧ w.whole = [d]
  readsAs_iff : ∀ y, w.ReadsAs y ↔ y = x

theorem Binary64.shows_written {x : Binary64} (hx : x.isFinite = true) : x.written.Shows x := by
  have hpositional : x.written.exponent.isSome = true ↔
      NumberStyle.literal.isPositional x.magnitude = false := by
    rw [written]
    cases NumberStyle.literal.isPositional x.magnitude
    · exact iff_of_true rfl rfl
    · exact iff_of_false Bool.false_ne_true (Bool.false_ne_true ∘ Eq.symm)
  constructor
  case sound => exact sound_written x
  case spelling => exact spelling_written hx
  case unique =>
    intro v hv hspelling
    exact Written.eq_of_spelling_eq hv (sound_written x)
      (hspelling.trans (spelling_written hx).symm)
  case negative_iff =>
    rw [negative_written, signField_eq]
    cases x.negative <;> simp
  case exponent_iff =>
    rw [hpositional, isPositional_eq_false_iff, abs_toRat, Ne, Ne, toRat_eq_zero_iff]
  case whole =>
    intro hsome
    rw [hpositional] at hsome
    have hpos : 0 < x.magnitude := Nat.pos_of_ne_zero (isPositional_eq_false_iff.mp hsome).1
    rw [written, hsome]
    exact Decimal.exists_whole_written _ (isShortest_shortest hpos).tight
  case readsAs_iff =>
    intro y
    constructor
    · exact fun hy => hy.unique (readsAs_written hx)
    · rintro rfl
      exact readsAs_written hx

/-- The text of a double reads back as that double, so no two have the same. -/
theorem number_text_reads_back {x : Binary64} (hx : x.isFinite = true) :
    (∃ w : Written, w.Shows x) ∧
      ∀ y : Binary64, y.isFinite = true → (Literal.number y).text = (Literal.number x).text →
        y.toBits = x.toBits := by
  refine ⟨⟨x.written, shows_written hx⟩, fun y hy htext => ?_⟩
  have hwritten : y.written = x.written :=
    (shows_written hx).unique y.written (sound_written y) (by rw [spelling_written hy, htext])
  have hreads : x.written.ReadsAs y := hwritten ▸ readsAs_written hy
  rw [(shows_written hx).readsAs_iff y |>.mp hreads]

/-- The least double above zero, with a minus. -/
theorem number_text_reads_back_least :
    let x := Binary64.ofBits 0x8000000000000001
    x.isFinite = true ∧
      Written.Shows ⟨⟨['5'], ['0']⟩, true, some (true, ['3', '2', '4'])⟩ x ∧
      ∀ y : Binary64, y.isFinite = true → (Literal.number y).text = "-5.0E-324" →
        y.toBits = 0x8000000000000001 := by
  intro x
  have hx : x.isFinite = true := by decide
  have htext : (Literal.number x).text = "-5.0E-324" := by decide +kernel
  have hparts : (Decimal.mk ['5'] (-323)).written true false
      = ⟨⟨['5'], ['0']⟩, true, some (true, ['3', '2', '4'])⟩ := by decide +kernel
  have hsound := hparts ▸ Decimal.sound_written true false (List.all_eq_true.mp rfl)
  obtain ⟨⟨w, hw⟩, hinjective⟩ := number_text_reads_back hx
  have hwritten := hw.unique _ hsound (by rw [htext]; decide)
  refine ⟨hx, hwritten ▸ hw, fun y hy h => ?_⟩
  rw [hinjective y hy (h.trans htext.symm), toBits_ofBits]

/-! ## Fewest digits -/

theorem Written.abs_value_sub {w : Written} {x : Binary64} (h : x.negative = w.negative) :
    |w.value - x.toRat| = |w.magnitude - Binary64.value x.magnitude| := by
  rw [value, toRat_eq, h]
  cases w.negative
  · rfl
  · rw [if_pos rfl, if_pos rfl, neg_sub_neg, abs_sub_comm]

/-- What reads as the double is in its interval, a whole number of its digits times a power
of ten. -/
theorem Written.ReadsAs.exists_inInterval {v : Written} {x : Binary64} (h : v.ReadsAs x)
    (hv : v.Sound) (hx : x.isFinite = true) (hpos : 0 < x.magnitude) :
    ∃ (k : Nat) (e : ℤ), k < 10 ^ v.significant.length ∧ v.magnitude = k * 10 ^ e ∧
      InInterval x.magnitude (k * 10 ^ e) := by
  obtain ⟨k, e, hk, hmagnitude⟩ := exists_magnitude_eq hv
  have hin := (roundsTo_iff_inInterval hx hpos).mp h.roundsTo
  exact ⟨k, e, hk, hmagnitude, hmagnitude ▸ hin⟩

/-- No written number with fewer digits reads as the double, and none with as many that
does is closer to it. -/
theorem number_text_shortest {x : Binary64} (hx : x.isFinite = true) (hne : x.toRat ≠ 0) :
    ∃ w : Written, w.Sound ∧ w.spelling = (Literal.number x).text.toList ∧ w.ReadsAs x ∧
      w.significant.length ≤ 17 ∧
      (∀ v : Written, v.Sound → v.significant.length < w.significant.length → ¬ v.ReadsAs x) ∧
      ∀ v : Written, v.Sound → v.significant.length = w.significant.length → v.ReadsAs x →
        |w.value - x.toRat| ≤ |v.value - x.toRat| := by
  have hpos : 0 < x.magnitude := Nat.pos_of_ne_zero (mt toRat_eq_zero_iff.mpr hne)
  have hshortest := isShortest_shortest hpos
  have hdigits : x.written.significant = (shortest x.magnitude).digits :=
    Decimal.significant_written _ _ hshortest.tight
  refine ⟨x.written, sound_written x, spelling_written hx, readsAs_written hx,
    hdigits ▸ hshortest.length_le, ?_, ?_⟩
  · intro v hv hfewer hreads
    obtain ⟨k, e, hk, -, hin⟩ := hreads.exists_inInterval hv hx hpos
    rw [hdigits] at hfewer
    refine hshortest.minimal k e (hk.trans_le ?_) hin
    exact Nat.pow_le_pow_right (by decide) (Nat.le_sub_one_of_lt hfewer)
  · intro v hv hsame hreads
    obtain ⟨k, e, hk, hmagnitude, hin⟩ := hreads.exists_inInterval hv hx hpos
    rw [hsame, hdigits] at hk
    rw [Written.abs_value_sub (negative_written x).symm, Written.abs_value_sub hreads.negative,
      magnitude_written, hmagnitude]
    exact hshortest.closest k e hk hin

/-- `3` to `7` all read as the least double above zero; `5` is the closest to it. -/
theorem number_text_shortest_least :
    let x := Binary64.ofBits 1
    let w : Written := ⟨⟨['5'], ['0']⟩, false, some (true, ['3', '2', '4'])⟩
    (x.isFinite = true ∧ x.toRat ≠ 0) ∧ w.spelling = (Literal.number x).text.toList ∧
      w.ReadsAs x ∧ w.significant.length = 1 ∧
      ∀ v : Written, v.Sound → v.significant.length = 1 → v.ReadsAs x →
        |w.value - x.toRat| ≤ |v.value - x.toRat| := by
  intro x w
  have hx : x.isFinite = true := by decide
  have hne : x.toRat ≠ 0 := mt toRat_eq_zero_iff.mp (by decide)
  have hspelling : w.spelling = (Literal.number x).text.toList := by decide +kernel
  have hparts : (Decimal.mk ['5'] (-323)).written false false = w := by decide +kernel
  have hsound : w.Sound := hparts ▸ Decimal.sound_written false false (List.all_eq_true.mp rfl)
  have hlength : w.significant.length = 1 := by decide
  obtain ⟨v, hv, hvspelling, hreads, -, -, hclosest⟩ := number_text_shortest hx hne
  obtain rfl : v = w := Written.eq_of_spelling_eq hv hsound (hvspelling.trans hspelling.symm)
  rw [hlength] at hclosest
  exact ⟨⟨hx, hne⟩, hspelling, hreads, hlength, hclosest⟩

end LoxLexis
