import LoxLexis.Proofs.Binary64.CorrectRounding
import LoxLexis.Proofs.TokenData

/-!
# The value of a number

`Denotes` gives the number that a spelling stands for in decimal: the sum of its digits,
each times the weight of its place. The literal of a number token is the double which
that number rounds to, for spellings of any length.
-/

namespace LoxLexis

/-! ## Decimal notation -/

def digitValue (d : Char) : ℚ :=
  (d.toNat - '0'.toNat : ℕ)

/-- Digits before the point. The last one counts ones. -/
def wholeValue : List Char → ℚ
  | [] => 0
  | d :: ds => digitValue d * 10 ^ ds.length + wholeValue ds

/-- Digits after the point. The first one counts tenths. -/
def fractionValue : List Char → ℚ
  | [] => 0
  | d :: ds => (digitValue d + fractionValue ds) / 10

inductive Denotes : List Char → ℚ → Prop
  | whole {ds : List Char} : ds ≠ [] → (∀ d ∈ ds, d.isDigit = true) → Denotes ds (wholeValue ds)
  | decimal {ds fs : List Char} : ds ≠ [] → (∀ d ∈ ds, d.isDigit = true) →
      fs ≠ [] → (∀ d ∈ fs, d.isDigit = true) →
      Denotes (ds ++ '.' :: fs) (wholeValue ds + fractionValue fs)

theorem wholeValue_append (ds fs : List Char) :
    wholeValue (ds ++ fs) = wholeValue ds * 10 ^ fs.length + wholeValue fs := by
  induction ds with
  | nil => simp [wholeValue]
  | cons d ds ih =>
      rw [List.cons_append, wholeValue, wholeValue, ih, List.length_append, pow_add]
      ring

theorem fractionValue_eq (fs : List Char) : fractionValue fs = wholeValue fs / 10 ^ fs.length := by
  induction fs with
  | nil => simp [fractionValue, wholeValue]
  | cons f fs ih =>
      rw [fractionValue, ih, wholeValue, List.length_cons, pow_succ]
      field_simp

/-- Reading digits one after the other adds up the weights. -/
theorem cast_ofDigitChars (ds : List Char) : (Nat.ofDigitChars 10 ds 0 : ℚ) = wholeValue ds := by
  induction ds with
  | nil => simp [wholeValue]
  | cons d ds ih =>
      rw [Nat.ofDigitChars_cons, Nat.ofDigitChars_eq_ofDigitChars_zero, Nat.cast_add, ih,
        wholeValue, digitValue]
      push_cast
      ring

/-! ## Numerals -/

namespace Numeral

/-- The value of a text that is a numeral from end to end. -/
def read? (w : List Char) : Option Binary64 :=
  match cut w with
  | (n, []) => if n.whole = [] then none else some n.value
  | (_, _ :: _) => none

variable {n : Numeral}

theorem read?_text (hn : n.Sound) : read? n.text = some n.value := by
  rw [read?, cut_text hn]
  exact if_neg hn.whole_ne_nil

theorem quotient_eq (n : Numeral) :
    (n.numerator / n.denominator : ℚ) = wholeValue n.whole + fractionValue n.fraction := by
  rw [numerator, denominator, cast_ofDigitChars, wholeValue_append, fractionValue_eq,
    Nat.pow_eq, Nat.cast_pow, Nat.cast_ofNat]
  field_simp

/-- A numeral denotes its quotient and nothing else. -/
theorem denotes_text_iff (hn : n.Sound) {q : ℚ} :
    Denotes n.text q ↔ q = n.numerator / n.denominator := by
  rw [quotient_eq]
  constructor
  · intro h
    generalize htext : n.text = w at h
    cases h with
    | whole hne hds =>
        obtain rfl : n = ⟨w, []⟩ := eq_of_text_eq hn ⟨hne, hds, by simp⟩ htext
        exact (add_zero _).symm
    | @decimal ds fs hne hds hfne hfs =>
        have hfraction : (Numeral.mk ds fs).text = ds ++ '.' :: fs := if_neg hfne
        obtain rfl : n = ⟨ds, fs⟩ :=
          eq_of_text_eq hn ⟨hne, hds, hfs⟩ (htext.trans hfraction.symm)
        rfl
  · rintro rfl
    by_cases hf : n.fraction = []
    · have hdenotes := Denotes.whole hn.whole_ne_nil hn.whole_isDigit
      simpa [text, hf, fractionValue] using hdenotes
    · have hdenotes := Denotes.decimal hn.whole_ne_nil hn.whole_isDigit hf hn.fraction_isDigit
      simpa [text, hf] using hdenotes

end Numeral

/-! ## Number tokens -/

/-- The token has the value `x`, and `x` is what the number `q` of its spelling rounds to. -/
structure Token.Rounded (t : Token) (q : ℚ) (x : Binary64) : Prop where
  denotes_iff : ∀ r, Denotes t.lexeme.toList r ↔ r = q
  nonneg : 0 ≤ q
  literal : t.literal = some (.number x)
  read : Numeral.read? t.lexeme.toList = some x
  rounds_iff : ∀ y, Binary64.RoundsTo q y ↔ y = x
  infinity_iff : x.toBits = 0x7FF0000000000000 ↔ 2 ^ 1024 - 2 ^ 970 ≤ q
  zero_iff : x.toBits = 0 ↔ q ≤ 2 ^ (-1075 : ℤ)
  isNaN : x.isNaN = false
  signField : x.signField = 0

theorem Numeral.rounded_of_sound {n : Numeral} (hn : n.Sound) {t : Token}
    (hlexeme : t.lexeme.toList = n.text) (hliteral : t.literal = some (.number n.value)) :
    t.Rounded (n.numerator / n.denominator) n.value := by
  have hrounds : Binary64.RoundsTo (n.numerator / n.denominator) n.value :=
    Binary64.roundsTo_nearest n.denominator_pos
  constructor
  case denotes_iff =>
    intro r
    rw [hlexeme, denotes_text_iff hn]
  case nonneg => positivity
  case literal => exact hliteral
  case read => rw [hlexeme, read?_text hn]
  case rounds_iff => exact fun y => ⟨fun hy => hy.unique hrounds, fun h => h ▸ hrounds⟩
  case infinity_iff =>
    rw [Binary64.toBits_eq_iff hrounds.negative, ← hrounds.overflow]
    exact beq_iff_eq.symm
  case zero_iff =>
    rw [Binary64.toBits_eq_iff hrounds.negative]
    exact Binary64.nearestMagnitude_eq_zero_iff n.denominator_pos
  case isNaN => exact hrounds.isNaN
  case signField => simp [Binary64.signField_eq, hrounds.negative]

/-- Every number token has the double that is nearest to the number which its spelling
denotes. -/
theorem number_tokens_rounded {source : String} {t : Token}
    (ht : t ∈ (analyze source).tokens) (hkind : t.kind = .number) : ∃ q x, t.Rounded q x := by
  rcases piece_or_eof_of_mem_tokens ht with ⟨p, hp, hpt⟩ | heof
  · obtain ⟨hkind', hlexeme, hliteral, -⟩ := Piece.token?_eq_some_iff.mp hpt
    rw [hkind] at hkind'
    obtain ⟨n, rfl⟩ := Piece.kind?_eq_number_iff.mp hkind'
    refine ⟨_, _, Numeral.rounded_of_sound hp ?_ hliteral⟩
    rw [hlexeme, String.toList_ofList, Piece.text]
  · rw [heof] at hkind
    cases hkind

/-- One past `2 ^ 53` is half way between two doubles. -/
theorem number_tokens_rounded_half_way :
    let x := Binary64.ofBits 0x4340000000000000
    let t : Token := ⟨.number, "9007199254740993.0", some (.number x), 1⟩
    (t ∈ (analyze "9007199254740993.0").tokens ∧ t.kind = .number) ∧
      t.Rounded 9007199254740993 x := by
  intro x t
  have ht : t ∈ (analyze "9007199254740993.0").tokens := by decide +kernel
  obtain ⟨q, y, h⟩ := number_tokens_rounded ht rfl
  let ds := ['9', '0', '0', '7', '1', '9', '9', '2', '5', '4', '7', '4', '0', '9', '9', '3']
  have hspelling : t.lexeme.toList = ds ++ '.' :: ['0'] := by decide
  have hdenotes : Denotes t.lexeme.toList (wholeValue ds + fractionValue ['0']) := by
    rw [hspelling]
    exact .decimal (by decide) (List.all_eq_true.mp rfl) (by decide) (List.all_eq_true.mp rfl)
  have hq : q = 9007199254740993 := by
    rw [← (h.denotes_iff _).mp hdenotes]
    simp [ds, wholeValue, fractionValue, digitValue]
    norm_num
  obtain ⟨rfl⟩ : some (Literal.number x) = some (.number y) := h.literal
  exact ⟨⟨ht, rfl⟩, hq ▸ h⟩

end LoxLexis
