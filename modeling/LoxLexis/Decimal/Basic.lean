/-!
# Decimals

Numbers in decimal digits: numerals as they are read, and decimals as they are written.

* `Numeral.text_cut_append`: the numeral and what is left make up the text again.
* `Numeral.cut_length`: a text that starts with a digit gets shorter.
-/

namespace LoxLexis

/-! ## Numerals

A numeral is a run of digits, perhaps followed by a point and a second run. `cut` takes the longest
numeral off the front of a text; a point belongs to it only if a digit follows the point. The number
a numeral denotes is `numerator / denominator`, exactly. -/

/-- The digits before the point and those after it; no fraction digits means no point. -/
structure Numeral where
  whole : List Char
  fraction : List Char
deriving DecidableEq, Repr

namespace Numeral

def text (n : Numeral) : List Char :=
  if n.fraction = [] then n.whole else n.whole ++ '.' :: n.fraction

/-- The longest numeral at the front of a text, and the text after it. -/
def cut (text : List Char) : Numeral × List Char :=
  let whole := text.takeWhile Char.isDigit
  match text.dropWhile Char.isDigit with
  | '.' :: after =>
      let fraction := after.takeWhile Char.isDigit
      if fraction = [] then (⟨whole, []⟩, '.' :: after)
      else (⟨whole, fraction⟩, after.dropWhile Char.isDigit)
  | rest => (⟨whole, []⟩, rest)

theorem text_cut_append (s : List Char) : (cut s).1.text ++ (cut s).2 = s := by
  have hs : s.takeWhile Char.isDigit ++ s.dropWhile Char.isDigit = s :=
    List.takeWhile_append_dropWhile
  unfold cut
  split
  · rename_i after h
    dsimp only
    split
    · rename_i hf
      simp only [text, if_true]
      rw [← h, hs]
    · rename_i hf
      simp only [text, if_neg hf]
      rw [List.append_assoc, List.cons_append, List.takeWhile_append_dropWhile, ← h, hs]
  · simp only [text, if_true]
    exact hs

theorem cut_length {c : Char} (hc : c.isDigit = true) (cs : List Char) :
    (cut (c :: cs)).2.length ≤ cs.length := by
  have hd : ((c :: cs).dropWhile Char.isDigit).length ≤ cs.length := by
    rw [List.dropWhile_cons_of_pos hc]
    exact (List.dropWhile_suffix _).length_le
  unfold cut
  split
  · rename_i after h
    rw [h] at hd
    dsimp only
    split
    · exact hd
    · have := (List.dropWhile_suffix (l := after) Char.isDigit).length_le
      simp only [List.length_cons] at hd
      dsimp only
      omega
  · exact hd

def numerator (n : Numeral) : Nat :=
  Nat.ofDigitChars 10 (n.whole ++ n.fraction) 0

/-- A power of ten for each digit after the point. -/
def denominator (n : Numeral) : Nat :=
  Nat.pow 10 n.fraction.length

theorem denominator_pos (n : Numeral) : 0 < n.denominator :=
  Nat.pow_pos (by decide)

end Numeral

example : Numeral.cut "12.50.1".toList = (⟨"12".toList, "50".toList⟩, ".1".toList) := by decide
example : Numeral.cut "7.x".toList = (⟨"7".toList, []⟩, ".x".toList) := by decide
example : (Numeral.mk "12".toList "50".toList).numerator = 1250 := by decide

/-! ## Decimals

A decimal is a row of digits with a place for the point, which may lie left or right of all of them.
It can be written out in full, or with one digit before the point and a power of ten. -/

/-- The value is `0.d₁d₂d₃…` times ten to the power `point`. No digits at all stand for zero. -/
structure Decimal where
  digits : List Char
  point : Int
deriving DecidableEq, Repr

namespace Decimal

def zero : Decimal :=
  ⟨[], 0⟩

def ofMultiple (multiple : Nat) (exponent : Int) : Decimal :=
  let digits := Nat.toDigits 10 multiple
  ⟨digits, digits.length + exponent⟩

/-- Leaves out the zeros at the end, which do not change the value. -/
def dropZeros (d : Decimal) : Decimal :=
  ⟨(d.digits.reverse.dropWhile (· == '0')).reverse, d.point⟩

/-- A side of the point that has no digits gets a zero. -/
def side (digits : List Char) : List Char :=
  if digits = [] then ['0'] else digits

/-- Written out in full, with at least one digit on each side of the point. -/
def positional (d : Decimal) : List Char :=
  let whole := d.digits.take d.point.toNat
    ++ List.replicate (d.point.toNat - d.digits.length) '0'
  let fraction := List.replicate (-d.point).toNat '0' ++ d.digits.drop d.point.toNat
  side whole ++ '.' :: side fraction

def integer : Int → List Char
  | .ofNat n => Nat.toDigits 10 n
  | .negSucc n => '-' :: Nat.toDigits 10 (n + 1)

/-- One digit before the point, then a mark and the power of ten that puts the point in its place.
-/
def withExponent (mark : Char) (d : Decimal) : List Char :=
  positional ⟨d.digits, 1⟩ ++ mark :: integer (d.point - 1)

end Decimal

example : Decimal.zero.positional = "0.0".toList := by decide
example : (Decimal.ofMultiple 1250 (-2)).dropZeros.positional = "12.5".toList := by decide
example : (Decimal.ofMultiple 7 3).positional = "7000.0".toList := by decide
example : (Decimal.ofMultiple 7 (-3)).positional = "0.007".toList := by decide
example : (Decimal.ofMultiple 15 (-5)).withExponent 'E' = "1.5E-4".toList := by decide

end LoxLexis
