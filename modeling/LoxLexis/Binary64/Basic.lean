import LoxLexis.Decimal.Basic

/-!
# Double-precision numbers

A double is a sign and a magnitude, the 63 bits below the sign bit. Magnitudes order as the numbers
they stand for, so a magnitude serves as the position of its number on the grid of all doubles.
Every finite double is a whole number of units of `2 ^ -1074`, and `units` counts them; the count
goes on through the magnitude of infinity as if the grid did, which gives the bound from which
numbers round to infinity.

* `ofBits_toBits`, `toBits_ofBits`: sign and magnitude are the 64 bits.
-/

namespace LoxLexis

/-- A sign bit and the 63 bits below it. -/
structure Binary64 where
  negative : Bool
  magnitude : Nat
  magnitude_lt : magnitude < 0x8000000000000000
deriving DecidableEq

namespace Binary64

/-! ## Bits -/

/-- The double with the given bits. -/
def ofBits (bits : UInt64) : Binary64 :=
  ⟨decide (0x8000000000000000 ≤ bits.toNat), bits.toNat % 0x8000000000000000,
    Nat.mod_lt _ (by decide)⟩

/-- The 64 bits as one number, the sign bit on top. -/
def code (x : Binary64) : Nat :=
  if x.negative then 0x8000000000000000 + x.magnitude else x.magnitude

def toBits (x : Binary64) : UInt64 :=
  UInt64.ofNat x.code

theorem code_lt (x : Binary64) : x.code < 0x10000000000000000 := by
  have := x.magnitude_lt
  unfold code
  split <;> omega

theorem toNat_toBits (x : Binary64) : x.toBits.toNat = x.code :=
  UInt64.toNat_ofNat_of_lt' x.code_lt

theorem ofBits_toBits (x : Binary64) : ofBits x.toBits = x := by
  obtain ⟨negative, magnitude, h⟩ := x
  unfold ofBits
  simp only [toNat_toBits, code]
  cases negative
  · simp only [Bool.false_eq_true, if_false]
    congr
    · exact decide_eq_false (by omega)
    · omega
  · simp only [if_true]
    congr
    · exact decide_eq_true (by omega)
    · omega

theorem toBits_ofBits (bits : UInt64) : (ofBits bits).toBits = bits := by
  have h : bits.toNat < 0x10000000000000000 := bits.toNat_lt
  apply UInt64.toNat_inj.1
  rw [toNat_toBits]
  unfold code ofBits
  by_cases hs : 0x8000000000000000 ≤ bits.toNat
  · simp only [hs, decide_true, if_true]
    omega
  · simp only [hs, decide_false, Bool.false_eq_true, if_false]
    omega

/-! ## Classes -/

/-- The magnitude of the infinities: every exponent bit set and no other. -/
def infinite : Nat :=
  0x7FF0000000000000

/-- Above the infinities there are no numbers. -/
def isNaN (x : Binary64) : Bool :=
  infinite < x.magnitude

def isInfinite (x : Binary64) : Bool :=
  x.magnitude == infinite

/-- Below the infinities. -/
def isFinite (x : Binary64) : Bool :=
  x.magnitude < infinite

def isZero (x : Binary64) : Bool :=
  x.magnitude == 0

/-- Equality of numbers: NaN equals nothing, and the two zeros are equal. -/
def numEq (x y : Binary64) : Bool :=
  !x.isNaN && !y.isNaN && (x == y || x.isZero && y.isZero)

/-! ## Exact values -/

/-- The whole-number significand: below `2 ^ 52` for the smallest magnitudes, from there up to
`2 ^ 53` for all others. -/
def significand (magnitude : Nat) : Nat :=
  if magnitude < 0x10000000000000 then magnitude
  else 0x10000000000000 + magnitude % 0x10000000000000

/-- The power of two by which the significand counts units. -/
def scale (magnitude : Nat) : Nat :=
  magnitude / 0x10000000000000 - 1

/-- How many units of `2 ^ -1074` a magnitude stands for. -/
def units (magnitude : Nat) : Nat :=
  significand magnitude * Nat.pow 2 (scale magnitude)

def one : Nat :=
  Nat.pow 2 1074

/-! ## The nearest double

`nearest num den` is the double closest to the quotient, and of two that are equally close the one
with the even significand. The quotient is scaled to units of `2 ^ -1074`, rounded to 53
significant bits (fewer where the grid of doubles is coarser than that, near zero), and placed on
the grid by its magnitude. A carry out of the significand moves to the next exponent by itself, and
everything from half way past the largest double is infinite. -/

/-- The quotient rounded to the nearest natural number, a half to the even neighbour. -/
def roundHalfEven (num den : Nat) : Nat :=
  let quotient := num / den
  let remainder := num % den
  if 2 * remainder < den then quotient
  else if den < 2 * remainder then quotient + 1
  else quotient + quotient % 2

/-- How many bits of the quotient, counted in units, lie below its first 53. -/
def excess (num den : Nat) : Nat :=
  Nat.log2 (num * one / den) - 52

/-- The magnitude of the double nearest to the quotient. -/
def nearestMagnitude (num den : Nat) : Nat :=
  let e := excess num den
  min (e * 0x10000000000000 + roundHalfEven (num * one) (den * Nat.pow 2 e)) infinite

theorem nearestMagnitude_le (num den : Nat) : nearestMagnitude num den ≤ infinite :=
  Nat.min_le_right ..

/-- The double nearest to a quotient of natural numbers. -/
def nearest (num den : Nat) : Binary64 :=
  ⟨false, nearestMagnitude num den, Nat.lt_of_le_of_lt (nearestMagnitude_le num den) (by decide)⟩

@[simp] theorem negative_nearest (num den : Nat) : (nearest num den).negative = false := rfl

@[simp] theorem magnitude_nearest (num den : Nat) :
    (nearest num den).magnitude = nearestMagnitude num den := rfl

theorem isNaN_nearest (num den : Nat) : (nearest num den).isNaN = false := by
  exact decide_eq_false (Nat.not_lt.2 (nearestMagnitude_le num den))

end Binary64

/-- The value of a numeral: the nearest double. -/
def Numeral.value (n : Numeral) : Binary64 :=
  .nearest n.numerator n.denominator

example : (Binary64.ofBits 0x3FF0000000000000).isFinite = true := by decide
example : Binary64.numEq (.ofBits 0) (.ofBits 0x8000000000000000) = true := by decide
example : Binary64.numEq (.ofBits 0x7FF8000000000000) (.ofBits 0x7FF8000000000000) = false := by
  decide

end LoxLexis
