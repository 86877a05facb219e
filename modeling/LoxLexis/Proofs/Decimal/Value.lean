import LoxLexis.Decimal.Basic
import LoxLexis.Proofs.NumberValue
import Mathlib.Algebra.Order.Field.Power

/-!
# The numbers that decimals stand for

`toRat` is the number that a row of digits with a place for the point stands for. Zeros at
the end do not count (`toRat_dropZeros`), and neither does the way the row is split at the
point and filled up (`value_numeral`). Without its zeros a decimal above zero is `Tight`:
it has as many digits as it needs.
-/

namespace LoxLexis

/-! ## Zeros -/

@[simp] theorem digitValue_zero : digitValue '0' = 0 := by
  rw [digitValue, Nat.sub_self, Nat.cast_zero]

@[simp] theorem wholeValue_replicate_zero (n : Nat) : wholeValue (List.replicate n '0') = 0 := by
  induction n with
  | zero => rfl
  | succ n ih => rw [List.replicate_succ, wholeValue, digitValue_zero, ih, zero_mul, add_zero]

theorem wholeValue_zeros_append (n : Nat) (ds : List Char) :
    wholeValue (List.replicate n '0' ++ ds) = wholeValue ds := by
  rw [wholeValue_append, wholeValue_replicate_zero, zero_mul, zero_add]

theorem wholeValue_append_zeros (ds : List Char) (n : Nat) :
    wholeValue (ds ++ List.replicate n '0') = wholeValue ds * 10 ^ n := by
  rw [wholeValue_append, wholeValue_replicate_zero, List.length_replicate, add_zero]

theorem wholeValue_toDigits (n : Nat) : wholeValue (Nat.toDigits 10 n) = n := by
  rw [← cast_ofDigitChars, Nat.ofDigitChars_ten_toDigits]

/-- The point splits the value as it splits the digits. -/
theorem wholeValue_add_fractionValue (ds fs : List Char) :
    wholeValue ds + fractionValue fs = wholeValue (ds ++ fs) / 10 ^ fs.length := by
  rw [fractionValue_eq, wholeValue_append, add_div, mul_div_cancel_right₀]
  exact pow_ne_zero _ (by norm_num)

/-- A number above zero is printed without a zero in front. -/
theorem head?_toDigits_ne_zero {n : Nat} (hn : 0 < n) : (Nat.toDigits 10 n).head? ≠ some '0' := by
  induction n using Nat.strongRecOn with
  | ind n ih =>
      rw [Nat.toDigits_eq_if (by decide)]
      split
      · rename_i hlt
        intro hzero
        have hvalue := wholeValue_toDigits n
        rw [Nat.toDigits_of_lt_base hlt, Option.some_inj.mp hzero,
          show wholeValue ['0'] = 0 from wholeValue_replicate_zero 1] at hvalue
        exact hn.ne (Nat.cast_injective (Nat.cast_zero.trans hvalue))
      · rename_i hge
        have hpos : 0 < n / 10 := Nat.div_pos (Nat.le_of_not_lt hge) (by decide)
        rw [List.head?_append_of_ne_nil _ Nat.toDigits_ne_nil]
        exact ih (n / 10) (Nat.div_lt_self hn (by decide)) hpos

/-- A row is the zeros in front of it and what stands after them. -/
theorem exists_zeros_append (ds : List Char) :
    ∃ n, ds = List.replicate n '0' ++ ds.dropWhile (· == '0') := by
  have hzeros : ∀ c ∈ ds.takeWhile (· == '0'), c = '0' := fun c hc => by
    simpa using List.mem_takeWhile_imp hc
  refine ⟨(ds.takeWhile (· == '0')).length, ?_⟩
  rw [← List.eq_replicate_of_mem hzeros, List.takeWhile_append_dropWhile]

theorem exists_append_zeros (ds : List Char) :
    ∃ n, ds = (ds.reverse.dropWhile (· == '0')).reverse ++ List.replicate n '0' := by
  obtain ⟨n, hn⟩ := exists_zeros_append ds.reverse
  refine ⟨n, ?_⟩
  have hreverse := congrArg List.reverse hn
  rwa [List.reverse_reverse, List.reverse_append, List.reverse_replicate] at hreverse

namespace Decimal

/-! ## Values -/

/-- The value of the digits as a whole number, with the point put in its place. -/
def toRat (d : Decimal) : ℚ :=
  wholeValue d.digits * 10 ^ (d.point - d.digits.length)

theorem toRat_ofMultiple (multiple : Nat) (exponent : ℤ) :
    (ofMultiple multiple exponent).toRat = multiple * 10 ^ exponent := by
  rw [toRat, ofMultiple, wholeValue_toDigits, add_sub_cancel_left]

theorem toRat_dropZeros (d : Decimal) : d.dropZeros.toRat = d.toRat := by
  obtain ⟨n, hn⟩ := exists_append_zeros d.digits
  have hdigits : d.digits = d.dropZeros.digits ++ List.replicate n '0' := hn
  have hlength : d.digits.length = d.dropZeros.digits.length + n := by
    rw [hdigits, List.length_append, List.length_replicate]
  have hvalue : wholeValue d.digits = wholeValue d.dropZeros.digits * 10 ^ n :=
    (congrArg wholeValue hdigits).trans (wholeValue_append_zeros _ n)
  have hexponent : d.point - (d.dropZeros.digits.length : ℤ) = n + (d.point - d.digits.length) := by
    omega
  show wholeValue d.dropZeros.digits * 10 ^ (d.point - (d.dropZeros.digits.length : ℤ)) = _
  rw [toRat, hexponent, hvalue, zpow_add₀ (by norm_num), zpow_natCast, mul_assoc]

/-! ## Tight decimals -/

/-- At least one digit, and no zero at either end. -/
structure Tight (d : Decimal) : Prop where
  isDigit : ∀ c ∈ d.digits, c.isDigit = true
  ne_nil : d.digits ≠ []
  head? : d.digits.head? ≠ some '0'
  getLast? : d.digits.getLast? ≠ some '0'

section OfMultiple

variable {i : Nat} (hi : 0 < i) (e : ℤ)

include hi

theorem tight_dropZeros_ofMultiple : (ofMultiple i e).dropZeros.Tight := by
  obtain ⟨n, hn⟩ := exists_append_zeros (ofMultiple i e).digits
  have hdigits : Nat.toDigits 10 i
      = (ofMultiple i e).dropZeros.digits ++ List.replicate n '0' := hn
  have hhead := head?_toDigits_ne_zero hi
  have hne : (ofMultiple i e).dropZeros.digits ≠ [] := by
    intro hnil
    rw [hnil, List.nil_append] at hdigits
    rw [hdigits] at hhead
    cases n with
    | zero => exact Nat.toDigits_ne_nil hdigits
    | succ n => exact hhead rfl
  constructor
  case isDigit =>
    intro c hc
    refine Nat.isDigit_of_mem_toDigits (b := 10) (n := i) (by decide) (by decide) ?_
    rw [hdigits]
    exact List.mem_append_left _ hc
  case ne_nil => exact hne
  case head? => rwa [hdigits, List.head?_append_of_ne_nil _ hne] at hhead
  case getLast? =>
    have hlast := List.head?_dropWhile_not (· == '0') (Nat.toDigits 10 i).reverse
    intro h
    have hrev : ((Nat.toDigits 10 i).reverse.dropWhile (· == '0')).head? = some '0' := by
      rw [← List.getLast?_reverse]
      exact h
    rw [hrev] at hlast
    exact absurd hlast (by decide)

/-- Ten to the power `n` has one digit more, but a zero at the end. -/
theorem length_dropZeros_ofMultiple_le {n : Nat} (hn : 0 < n) (h : i ≤ 10 ^ n) :
    (ofMultiple i e).dropZeros.digits.length ≤ n := by
  have hsub (ds : List Char) :
      (ds.reverse.dropWhile (· == '0')).reverse.length ≤ ds.length := by
    rw [List.length_reverse]
    exact (List.dropWhile_suffix _).length_le.trans_eq List.length_reverse
  rcases h.lt_or_eq with hlt | rfl
  · exact (hsub _).trans ((Nat.length_toDigits_le_iff (by decide) hn).mpr hlt)
  · obtain ⟨n, rfl⟩ := Nat.exists_eq_add_one_of_ne_zero hn.ne'
    have hpos : 0 < 10 ^ n := Nat.pow_pos (by decide)
    have hdigits : Nat.toDigits 10 (10 ^ (n + 1)) = Nat.toDigits 10 (10 ^ n) ++ ['0'] := by
      have happend := Nat.toDigits_append_toDigits (b := 10) (n := 10 ^ n) (d := 0) (by decide) hpos
        (by decide)
      rw [Nat.toDigits_zero, Nat.add_zero, ← Nat.pow_succ'] at happend
      exact happend.symm
    show ((Nat.toDigits 10 (10 ^ (n + 1))).reverse.dropWhile (· == '0')).reverse.length ≤ _
    rw [hdigits, List.reverse_append, List.reverse_singleton, List.singleton_append,
      List.dropWhile_cons_of_pos (by rfl)]
    refine (hsub _).trans ((Nat.length_toDigits_le_iff (by decide) (Nat.succ_pos n)).mpr ?_)
    exact Nat.pow_lt_pow_right (by decide) (Nat.lt_succ_self n)

end OfMultiple

/-! ## The two sides of the point -/

def wholeDigits (d : Decimal) : List Char :=
  d.digits.take d.point.toNat ++ List.replicate (d.point.toNat - d.digits.length) '0'

def fractionDigits (d : Decimal) : List Char :=
  List.replicate (-d.point).toNat '0' ++ d.digits.drop d.point.toNat

/-- What is written on both sides. -/
def numeral (d : Decimal) : Numeral :=
  ⟨side d.wholeDigits, side d.fractionDigits⟩

theorem positional_eq (d : Decimal) :
    d.positional = d.numeral.whole ++ '.' :: d.numeral.fraction := rfl

theorem side_ne_nil (ds : List Char) : side ds ≠ [] := by
  unfold side
  split
  · exact List.cons_ne_nil _ _
  · assumption

theorem exists_side_eq_zeros_append (ds : List Char) :
    ∃ n, side ds = List.replicate n '0' ++ ds := by
  unfold side
  split
  · exact ⟨1, by rw [‹ds = []›]; rfl⟩
  · exact ⟨0, rfl⟩

theorem exists_side_eq_append_zeros (ds : List Char) :
    ∃ n, side ds = ds ++ List.replicate n '0' := by
  unfold side
  split
  · exact ⟨1, by rw [‹ds = []›]; rfl⟩
  · exact ⟨0, (List.append_nil ds).symm⟩

/-- Both sides together are the digits, with zeros between them and the point. -/
theorem wholeDigits_append_fractionDigits (d : Decimal) :
    d.wholeDigits ++ d.fractionDigits =
      List.replicate (-d.point).toNat '0' ++ d.digits
        ++ List.replicate (d.point.toNat - d.digits.length) '0' := by
  unfold wholeDigits fractionDigits
  rcases Int.le_total d.point 0 with hneg | hpos
  · rw [Int.toNat_of_nonpos hneg, Nat.zero_sub]
    simp
  · rw [Int.toNat_of_nonpos (Int.neg_nonpos_of_nonneg hpos)]
    rcases Nat.le_total d.digits.length d.point.toNat with hle | hle
    · rw [List.take_of_length_le hle, List.drop_of_length_le hle]
      simp
    · rw [Nat.sub_eq_zero_of_le hle]
      simp

theorem length_fractionDigits (d : Decimal) :
    d.fractionDigits.length = (-d.point).toNat + (d.digits.length - d.point.toNat) := by
  rw [fractionDigits, List.length_append, List.length_replicate, List.length_drop]

theorem value_numeral (d : Decimal) :
    wholeValue d.numeral.whole + fractionValue d.numeral.fraction = d.toRat := by
  obtain ⟨a, ha⟩ := exists_side_eq_zeros_append d.wholeDigits
  obtain ⟨b, hb⟩ := exists_side_eq_append_zeros d.fractionDigits
  have hexponent : d.point - d.digits.length =
      ((d.point.toNat - d.digits.length : ℕ) : ℤ) - (d.fractionDigits.length : ℕ) := by
    rw [length_fractionDigits]
    omega
  have hten : (10 : ℚ) ≠ 0 := by norm_num
  have hzeros : fractionValue (d.fractionDigits ++ List.replicate b '0')
      = fractionValue d.fractionDigits := by
    rw [fractionValue_eq, fractionValue_eq, wholeValue_append_zeros, List.length_append,
      List.length_replicate, pow_add, mul_div_mul_right _ _ (pow_ne_zero b hten)]
  calc wholeValue (side d.wholeDigits) + fractionValue (side d.fractionDigits)
      = wholeValue d.wholeDigits + fractionValue d.fractionDigits := by
        rw [ha, hb, wholeValue_zeros_append, hzeros]
    _ = wholeValue d.digits * 10 ^ (d.point.toNat - d.digits.length)
          / 10 ^ d.fractionDigits.length := by
        rw [wholeValue_add_fractionValue, wholeDigits_append_fractionDigits,
          wholeValue_append_zeros, wholeValue_zeros_append]
    _ = d.toRat := by
        rw [toRat, hexponent, zpow_sub₀ hten, zpow_natCast, zpow_natCast, mul_div_assoc]

/-- What is written are the digits, up to zeros at both ends. -/
theorem exists_numeral_eq (d : Decimal) :
    ∃ a b, d.numeral.whole ++ d.numeral.fraction
      = List.replicate a '0' ++ d.digits ++ List.replicate b '0' := by
  obtain ⟨a, ha⟩ := exists_side_eq_zeros_append d.wholeDigits
  obtain ⟨b, hb⟩ := exists_side_eq_append_zeros d.fractionDigits
  refine ⟨a + (-d.point).toNat, d.point.toNat - d.digits.length + b, ?_⟩
  calc side d.wholeDigits ++ side d.fractionDigits
      = List.replicate a '0' ++ (d.wholeDigits ++ d.fractionDigits)
          ++ List.replicate b '0' := by
        rw [ha, hb]
        simp only [List.append_assoc]
    _ = _ := by
        rw [wholeDigits_append_fractionDigits, List.replicate_add, List.replicate_add]
        simp only [List.append_assoc]

theorem sound_numeral {d : Decimal} (hd : ∀ c ∈ d.digits, c.isDigit = true) :
    d.numeral.Sound := by
  obtain ⟨a, b, hdigits⟩ := exists_numeral_eq d
  have hmem : ∀ c ∈ d.numeral.whole ++ d.numeral.fraction, c.isDigit = true := by
    intro c hc
    rw [hdigits, List.mem_append, List.mem_append] at hc
    rcases hc with (hc | hc) | hc
    · rw [List.eq_of_mem_replicate hc]
      decide
    · exact hd c hc
    · rw [List.eq_of_mem_replicate hc]
      decide
  exact ⟨side_ne_nil _, fun c hc => hmem c (List.mem_append_left _ hc),
    fun c hc => hmem c (List.mem_append_right _ hc)⟩

end Decimal

end LoxLexis
