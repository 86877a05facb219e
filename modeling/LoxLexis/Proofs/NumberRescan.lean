import LoxLexis.Proofs.NumberText
import LoxLexis.Proofs.Opaque

/-!
# Shown numbers are read again

A number that is shown without an exponent is shown as a numeral, with a minus before it
if its sign is set. A scan of that text gives back the number (`number_text_scans_back`):
the numeral is one piece, and its value is the double nearest to it, which is the one that
was shown. The minus is a token of its own.
-/

namespace LoxLexis

open Binary64

/-! ## Numerals and a minus -/

section Numerals

variable {n : Numeral} (hn : n.Sound)

include hn

theorem Numeral.lineAt_text : lineAt n.text = 1 := by
  have hfeed : '\n' ∉ n.text := by
    intro hmem
    rcases mem_text hn hmem with hdigit | hpoint
    · exact absurd hdigit (by decide)
    · exact absurd hpoint (by decide)
  rw [lineAt, Text.newlines_line hfeed]

theorem analyze_numeral :
    analyze (String.ofList n.text)
      = ⟨[⟨.number, String.ofList n.text, some (.number n.value), 1⟩, .eof 1], []⟩ := by
  have h := analyze_text (p := .number n) hn
  rw [show lineAt (Piece.number n).text = 1 from n.lineAt_text hn] at h
  exact h

/-- A minus is never part of the numeral behind it. -/
theorem analyze_minus_numeral :
    analyze ("-" ++ String.ofList n.text)
      = ⟨[⟨.symbol .minus, "-", none, 1⟩,
          ⟨.number, String.ofList n.text, some (.number n.value), 1⟩, .eof 1], []⟩ := by
  have hstop : (Piece.symbol .minus).StopsAt n.text := fun c _ =>
    ⟨fun _ => by decide, fun _ => by decide⟩
  have hminus : pieces ['-'] = [.symbol .minus] := pieces_text (p := .symbol .minus) trivial
  have happend : pieces ("-" ++ String.ofList n.text).toList
      = pieces "-".toList ++ pieces (String.ofList n.text).toList := by
    rw [String.toList_append, show "-".toList = ['-'] from rfl, String.toList_ofList, hminus]
    exact pieces_text_append (p := .symbol .minus) trivial hstop
  have hsingle : analyze "-" = ⟨[⟨.symbol .minus, "-", none, 1⟩, .eof 1], []⟩ :=
    analyze_text (p := .symbol .minus) trivial
  rw [analyze_append happend, hsingle, analyze_numeral hn]
  rfl

end Numerals

/-! ## Numbers without an exponent -/

/-- Zero, and from a thousandth up to ten million. -/
theorem isPositional_iff {x : Binary64} :
    NumberStyle.literal.isPositional x.magnitude = true ↔
      x.toRat = 0 ∨ 1 / 1000 ≤ |x.toRat| ∧ |x.toRat| < 10 ^ 7 := by
  rw [← Bool.not_eq_false, isPositional_eq_false_iff, abs_toRat, toRat_eq_zero_iff, not_and_or,
    not_not, not_or, not_lt, not_le]

namespace Binary64

/-- The digits that the number is shown with, on both sides of the point. -/
def shownNumeral (x : Binary64) : Numeral :=
  (shortest x.magnitude).numeral

theorem sound_shownNumeral (x : Binary64) : x.shownNumeral.Sound :=
  Decimal.sound_numeral (isDigit_shortest x.magnitude)

variable {x : Binary64} (hx : x.isFinite = true)

include hx

/-- Read as a numeral, the digits are nearest to the number without its sign. -/
theorem value_shownNumeral : x.shownNumeral.value = x.withoutSign := by
  have hrounds := (readsAs_written hx).roundsTo
  have hquotient : x.written.magnitude
      = x.shownNumeral.numerator / x.shownNumeral.denominator := by
    rw [magnitude_written, Numeral.quotient_eq, shownNumeral, Decimal.value_numeral]
  rw [hquotient] at hrounds
  exact (roundsTo_nearest x.shownNumeral.denominator_pos).unique hrounds

theorem toList_text_of_isPositional
    (hpositional : NumberStyle.literal.isPositional x.magnitude = true) :
    (Literal.number x).text.toList = Written.signed x.negative x.shownNumeral.text := by
  have hfraction : x.shownNumeral.fraction ≠ [] := Decimal.side_ne_nil _
  rw [← spelling_written hx, written, hpositional, Numeral.text, if_neg hfraction]
  show Written.signed x.negative (x.shownNumeral.whole ++ '.' :: x.shownNumeral.fraction ++ []) = _
  rw [List.append_nil]

end Binary64

/-- The text of a number that is shown without an exponent is scanned as that number; if
its sign is set, as a minus and the number without it. -/
theorem number_text_scans_back {x : Binary64} (hx : x.isFinite = true)
    (hrange : x.toRat = 0 ∨ 1 / 1000 ≤ |x.toRat| ∧ |x.toRat| < 10 ^ 7) :
    let text := (Literal.number x).text
    (x.signField = 0 → analyze text = ⟨[⟨.number, text, some (.number x), 1⟩, .eof 1], []⟩) ∧
    (x.signField = 1 → ∃ digits, text = "-" ++ digits ∧
      analyze text = ⟨[⟨.symbol .minus, "-", none, 1⟩,
        ⟨.number, digits, some (.number x.withoutSign), 1⟩, .eof 1], []⟩) := by
  intro text
  have htext := toList_text_of_isPositional hx (isPositional_iff.mpr hrange)
  have hsound := sound_shownNumeral x
  rw [signField_eq]
  cases hnegative : x.negative with
  | false =>
      refine ⟨fun _ => ?_, fun h => absurd h (by decide)⟩
      have hdigits : text = String.ofList x.shownNumeral.text := by
        apply String.toList_inj.mp
        rw [htext, hnegative, String.toList_ofList]
        rfl
      have hself : x.withoutSign = x := by
        obtain ⟨negative, m, hm⟩ := x
        obtain rfl : negative = false := hnegative
        rfl
      rw [hdigits, analyze_numeral hsound, value_shownNumeral hx, hself]
  | true =>
      refine ⟨fun h => absurd h (by decide), fun _ => ?_⟩
      have hdigits : text = "-" ++ String.ofList x.shownNumeral.text := by
        apply String.toList_inj.mp
        rw [htext, hnegative]
        simp [Written.signed, String.toList_append]
      refine ⟨_, hdigits, ?_⟩
      rw [hdigits, analyze_minus_numeral hsound, value_shownNumeral hx]

/-- A sum of a tenth and two tenths needs all seventeen digits. -/
theorem number_text_scans_back_seventeen :
    let x := Binary64.ofBits 0xBFD3333333333334
    (x.isFinite = true ∧ 1 / 1000 ≤ |x.toRat| ∧ |x.toRat| < 10 ^ 7 ∧ x.signField = 1) ∧
      analyze "-0.30000000000000004"
        = ⟨[⟨.symbol .minus, "-", none, 1⟩,
            ⟨.number, "0.30000000000000004", some (.number (.ofBits 0x3FD3333333333334)), 1⟩,
            .eof 1], []⟩ := by
  intro x
  have hx : x.isFinite = true := by decide
  have hsign : x.signField = 1 := by decide
  have hleast : 1 / 1000 ≤ |x.toRat| := by
    rw [abs_toRat, ← thousandth_le_iff]
    decide +kernel
  have hlarge : |x.toRat| < 10 ^ 7 := by
    rw [abs_toRat, ← lt_ten_million_iff]
    decide +kernel
  have htext : (Literal.number x).text = "-0.30000000000000004" := by decide +kernel
  obtain ⟨digits, hdigits, h⟩ := (number_text_scans_back hx (Or.inr ⟨hleast, hlarge⟩)).2 hsign
  obtain rfl : digits = "0.30000000000000004" := by
    rw [htext] at hdigits
    exact (String.append_right_inj "-").mp hdigits.symm
  rw [htext] at h
  exact ⟨⟨hx, hleast, hlarge, hsign⟩, h⟩

end LoxLexis
