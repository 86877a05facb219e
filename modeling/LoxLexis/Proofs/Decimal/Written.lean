import LoxLexis.Proofs.Decimal.Value

/-!
# Written numbers

A number is written with a sign, digits on both sides of a point, and perhaps a power of
ten. `Written` keeps these parts apart, and `value` is the number that they stand for. A
text has its parts in one way only (`eq_of_spelling_eq`). The digits that count are those from
the first that is not zero to the last; with `n` of them the number is a whole number below
`10 ^ n` times a power of ten (`exists_magnitude_eq`).
-/

namespace LoxLexis

/-- The power of ten has a sign of its own. -/
structure Written extends Numeral where
  negative : Bool
  exponent : Option (Bool × List Char)
deriving DecidableEq

namespace Written

/-! ## Spelling -/

def signed (negative : Bool) (text : List Char) : List Char :=
  if negative then '-' :: text else text

def power? : Option (Bool × List Char) → List Char
  | none => []
  | some (negative, ds) => 'E' :: signed negative ds

def spelling (w : Written) : List Char :=
  signed w.negative (w.whole ++ '.' :: w.fraction ++ power? w.exponent)

/-- At least one digit on each side of the point and in the power of ten, and nothing but
digits. -/
structure Sound (w : Written) : Prop where
  toNumeral : w.toNumeral.Sound
  fraction_ne_nil : w.fraction ≠ []
  exponent : ∀ negative ds, w.exponent = some (negative, ds) →
    ds ≠ [] ∧ ∀ d ∈ ds, d.isDigit = true

section Signed

variable {a b : Bool} {ds es : List Char}

/-- What starts with a digit has no sign yet. -/
theorem signed_inj (hd : ∀ c ∈ ds.head?, c.isDigit = true) (he : ∀ c ∈ es.head?, c.isDigit = true)
    (h : signed a ds = signed b es) : a = b ∧ ds = es := by
  have hminus : ('-').isDigit = false := by decide
  cases a <;> cases b
  case false.false => exact ⟨rfl, h⟩
  case false.true =>
    obtain rfl : ds = '-' :: es := h
    exact absurd (hd '-' rfl) (by simp [hminus])
  case true.false =>
    obtain rfl : '-' :: ds = es := h
    exact absurd (he '-' rfl) (by simp [hminus])
  case true.true => exact ⟨rfl, (List.cons.inj h).2⟩

end Signed

section Unique

variable {v w : Written} (hv : v.Sound) (hw : w.Sound)

include hw in
theorem stopsAt_power? : w.toNumeral.StopsAt (power? w.exponent) := by
  refine ⟨fun c hc => ?_, fun d after hnil _ => absurd hnil hw.fraction_ne_nil⟩
  cases hexponent : w.exponent with
  | none =>
      rw [hexponent] at hc
      cases hc
  | some exponent =>
      rw [hexponent] at hc
      obtain rfl : 'E' = c := Option.some_inj.mp hc
      decide

include hw in
theorem spelling_eq : w.spelling = signed w.negative (w.toNumeral.text ++ power? w.exponent) := by
  rw [spelling, Numeral.text, if_neg hw.fraction_ne_nil]

include hv hw

theorem exponent_eq (h : power? v.exponent = power? w.exponent) : v.exponent = w.exponent := by
  have hdigits {u : Written} (hu : u.Sound) {negative : Bool} {ds : List Char}
      (hexponent : u.exponent = some (negative, ds)) : ∀ c ∈ ds.head?, c.isDigit = true :=
    fun c hc => (hu.exponent negative ds hexponent).2 c (List.mem_of_mem_head? hc)
  cases hve : v.exponent with
  | none =>
      cases hwe : w.exponent with
      | none => rfl
      | some e =>
          rw [hve, hwe] at h
          cases h
  | some d =>
      cases hwe : w.exponent with
      | none =>
          rw [hve, hwe] at h
          cases h
      | some e =>
          obtain ⟨a, ds⟩ := d
          obtain ⟨b, es⟩ := e
          rw [hve, hwe] at h
          obtain ⟨rfl, rfl⟩ :=
            signed_inj (hdigits hv hve) (hdigits hw hwe) (List.cons.inj h).2
          rfl

theorem eq_of_spelling_eq (h : v.spelling = w.spelling) : v = w := by
  have hhead {u : Written} (hu : u.Sound) :
      ∀ c ∈ (u.toNumeral.text ++ power? u.exponent).head?, c.isDigit = true := by
    obtain ⟨d, rest, htext, hd⟩ := Numeral.text_eq_cons hu.toNumeral
    intro c hc
    rw [htext] at hc
    obtain rfl : d = c := Option.some_inj.mp hc
    exact hd
  rw [spelling_eq hv, spelling_eq hw] at h
  obtain ⟨hnegative, hbody⟩ := signed_inj (hhead hv) (hhead hw) h
  have hcut := Numeral.cut_text_append hv.toNumeral (stopsAt_power? hv)
  rw [hbody, Numeral.cut_text_append hw.toNumeral (stopsAt_power? hw)] at hcut
  obtain ⟨hnumeral, hpower⟩ := Prod.mk.inj hcut
  have hexponent := exponent_eq hv hw hpower.symm
  obtain ⟨n, a, d⟩ := v
  obtain ⟨m, b, e⟩ := w
  obtain rfl : m = n := hnumeral
  obtain rfl : a = b := hnegative
  obtain rfl : d = e := hexponent
  rfl

end Unique

/-! ## The number -/

def power (w : Written) : ℤ :=
  match w.exponent with
  | none => 0
  | some (true, ds) => -Nat.ofDigitChars 10 ds 0
  | some (false, ds) => Nat.ofDigitChars 10 ds 0

/-- The number without its sign. -/
def magnitude (w : Written) : ℚ :=
  (wholeValue w.whole + fractionValue w.fraction) * 10 ^ w.power

def value (w : Written) : ℚ :=
  if w.negative then -w.magnitude else w.magnitude

theorem magnitude_nonneg (w : Written) : 0 ≤ w.magnitude := by
  rw [magnitude, ← Numeral.quotient_eq]
  positivity

/-! ## The digits that count -/

/-- Without the zeros at both ends. -/
def strip (ds : List Char) : List Char :=
  ((ds.dropWhile (· == '0')).reverse.dropWhile (· == '0')).reverse

def significant (w : Written) : List Char :=
  strip (w.whole ++ w.fraction)

theorem exists_eq_strip (ds : List Char) :
    ∃ a b, ds = List.replicate a '0' ++ strip ds ++ List.replicate b '0' := by
  obtain ⟨a, ha⟩ := exists_zeros_append ds
  obtain ⟨b, hb⟩ := exists_append_zeros (ds.dropWhile (· == '0'))
  refine ⟨a, b, ?_⟩
  conv => lhs; rw [ha, hb]
  rw [List.append_assoc, strip]

theorem strip_zeros {d : Decimal} (hd : d.Tight) (a b : Nat) :
    strip (List.replicate a '0' ++ d.digits ++ List.replicate b '0') = d.digits := by
  have hzeros (n : Nat) : ∀ c ∈ List.replicate n '0', (c == '0') = true := fun c hc => by
    rw [List.eq_of_mem_replicate hc]
    rfl
  have hfront : ∀ c ∈ (d.digits ++ List.replicate b '0').head?, (c == '0') = false := by
    rw [List.head?_append_of_ne_nil _ hd.ne_nil]
    intro c hc
    exact beq_eq_false_iff_ne.mpr fun h => hd.head? (h ▸ hc)
  have hback : ∀ c ∈ d.digits.reverse.head?, (c == '0') = false := by
    rw [List.head?_reverse]
    intro c hc
    exact beq_eq_false_iff_ne.mpr fun h => hd.getLast? (h ▸ hc)
  rw [strip, List.append_assoc, dropWhile_append_of_stop (hzeros a) hfront, List.reverse_append,
    List.reverse_replicate, dropWhile_append_of_stop (hzeros b) hback, List.reverse_reverse]

theorem digitValue_le {d : Char} (hd : d.isDigit = true) : digitValue d ≤ 9 := by
  rw [Char.isDigit_iff_toNat, show '9'.toNat = '0'.toNat + 9 from rfl] at hd
  have hle : d.toNat - '0'.toNat ≤ 9 := by omega
  rw [digitValue]
  exact_mod_cast hle

theorem wholeValue_lt {ds : List Char} (h : ∀ d ∈ ds, d.isDigit = true) :
    wholeValue ds < 10 ^ ds.length := by
  induction ds with
  | nil => exact zero_lt_one
  | cons d ds ih =>
      have hrest := ih fun c hc => h c (List.mem_cons_of_mem d hc)
      have hdigit := digitValue_le (h d List.mem_cons_self)
      have hpow : (0 : ℚ) < 10 ^ ds.length := by positivity
      rw [wholeValue, List.length_cons, pow_succ]
      nlinarith

theorem exists_magnitude_eq {w : Written} (hw : w.Sound) :
    ∃ (k : Nat) (e : ℤ), k < 10 ^ w.significant.length ∧ w.magnitude = k * 10 ^ e := by
  obtain ⟨a, b, hdigits⟩ := exists_eq_strip (w.whole ++ w.fraction)
  have hisDigit : ∀ d ∈ w.significant, d.isDigit = true := by
    intro d hd
    have hmem : d ∈ w.whole ++ w.fraction := by
      rw [hdigits]
      exact List.mem_append_left _ (List.mem_append_right _ hd)
    rcases List.mem_append.mp hmem with hd | hd
    · exact hw.toNumeral.whole_isDigit d hd
    · exact hw.toNumeral.fraction_isDigit d hd
  refine ⟨Nat.ofDigitChars 10 w.significant 0, (b : ℤ) - w.fraction.length + w.power, ?_, ?_⟩
  · have hlt := wholeValue_lt hisDigit
    rw [← cast_ofDigitChars] at hlt
    exact_mod_cast hlt
  · have hten : (10 : ℚ) ≠ 0 := by norm_num
    rw [magnitude, wholeValue_add_fractionValue, hdigits, wholeValue_append_zeros,
      wholeValue_zeros_append, cast_ofDigitChars, zpow_add₀ hten, zpow_sub₀ hten, zpow_natCast,
      zpow_natCast, significant]
    ring

end Written

/-! ## Decimals -/

namespace Decimal

open Written (signed)

theorem integer_eq (e : ℤ) : integer e = signed (decide (e < 0)) (Nat.toDigits 10 e.natAbs) := by
  cases e with
  | ofNat n => rfl
  | negSucc n =>
      rw [decide_eq_true (Int.negSucc_lt_zero n)]
      rfl

/-- The parts of a decimal that is written out in full, or with a power of ten. -/
def written (d : Decimal) (negative positional : Bool) : Written :=
  if positional then ⟨d.numeral, negative, none⟩
  else
    ⟨numeral ⟨d.digits, 1⟩, negative,
      some (decide (d.point - 1 < 0), Nat.toDigits 10 (d.point - 1).natAbs)⟩

variable {d : Decimal} (negative positional : Bool)

theorem spelling_written (d : Decimal) : (d.written negative positional).spelling
    = signed negative (if positional then d.positional else d.withExponent 'E') := by
  cases positional
  case false =>
    show signed negative ((numeral ⟨d.digits, 1⟩).whole ++ '.' :: (numeral ⟨d.digits, 1⟩).fraction
        ++ 'E' :: signed _ _)
      = signed negative (positional ⟨d.digits, 1⟩ ++ 'E' :: integer (d.point - 1))
    rw [positional_eq, integer_eq]
  case true =>
    show signed negative (d.numeral.whole ++ '.' :: d.numeral.fraction ++ [])
      = signed negative d.positional
    rw [positional_eq, List.append_nil]

theorem sound_written (hd : ∀ c ∈ d.digits, c.isDigit = true) :
    (d.written negative positional).Sound := by
  cases positional
  case false =>
    refine ⟨sound_numeral hd, side_ne_nil _, ?_⟩
    rintro _ _ ⟨⟩
    exact ⟨Nat.toDigits_ne_nil, fun c hc =>
      Nat.isDigit_of_mem_toDigits (by decide) (by decide) hc⟩
  case true =>
    refine ⟨sound_numeral hd, side_ne_nil _, ?_⟩
    rintro _ _ ⟨⟩

theorem power_written (d : Decimal) : (d.written negative false).power = d.point - 1 := by
  show (match some (decide (d.point - 1 < 0), Nat.toDigits 10 (d.point - 1).natAbs) with
    | none => (0 : ℤ)
    | some (true, ds) => -Nat.ofDigitChars 10 ds 0
    | some (false, ds) => Nat.ofDigitChars 10 ds 0) = _
  by_cases hneg : d.point - 1 < 0
  · rw [decide_eq_true hneg]
    show -((Nat.ofDigitChars 10 (Nat.toDigits 10 _) 0 : ℕ) : ℤ) = _
    rw [Nat.ofDigitChars_ten_toDigits]
    omega
  · rw [decide_eq_false hneg]
    show ((Nat.ofDigitChars 10 (Nat.toDigits 10 _) 0 : ℕ) : ℤ) = _
    rw [Nat.ofDigitChars_ten_toDigits]
    omega

theorem magnitude_written (d : Decimal) : (d.written negative positional).magnitude = d.toRat := by
  cases positional
  case false =>
    rw [Written.magnitude, power_written]
    show (wholeValue (numeral ⟨d.digits, 1⟩).whole + fractionValue (numeral ⟨d.digits, 1⟩).fraction)
      * 10 ^ (d.point - 1) = _
    rw [value_numeral, toRat, toRat, mul_assoc, ← zpow_add₀ (by norm_num)]
    congr 2
    show 1 - (d.digits.length : ℤ) + (d.point - 1) = d.point - d.digits.length
    omega
  case true =>
    show (wholeValue d.numeral.whole + fractionValue d.numeral.fraction) * 10 ^ (0 : ℤ) = _
    rw [value_numeral, zpow_zero, mul_one]

section Tight

variable (hd : d.Tight)

include hd

theorem significant_written : (d.written negative positional).significant = d.digits := by
  cases positional
  case false =>
    obtain ⟨a, b, h⟩ := exists_numeral_eq ⟨d.digits, 1⟩
    show Written.strip ((numeral ⟨d.digits, 1⟩).whole ++ (numeral ⟨d.digits, 1⟩).fraction) = _
    rw [h, Written.strip_zeros hd]
  case true =>
    obtain ⟨a, b, h⟩ := exists_numeral_eq d
    show Written.strip (d.numeral.whole ++ d.numeral.fraction) = _
    rw [h, Written.strip_zeros hd]

theorem exists_whole_written : ∃ c, c ≠ '0' ∧ (d.written negative false).whole = [c] := by
  obtain ⟨c, cs, hcs⟩ := List.exists_cons_of_ne_nil hd.ne_nil
  refine ⟨c, fun hzero => hd.head? (by rw [hcs, hzero]; rfl), ?_⟩
  show side (d.digits.take 1 ++ List.replicate (1 - d.digits.length) '0') = [c]
  rw [hcs, List.length_cons, Nat.sub_eq_zero_of_le (Nat.le_add_left 1 _)]
  rfl

end Tight

end Decimal

end LoxLexis
