import LoxLexis.Decimal.Basic
import LoxLexis.Token.Kind

/-!
# Pieces

A program text falls into pieces: blanks, comments, symbols, quoted strings, numerals, words, and
two kinds that are faults, characters that start nothing and quotes that are never closed. `cut`
takes the longest piece off the front of a text.

* `text_cut_append`: the piece and what is left make up the text again.
* `cut_length`: a piece has at least one character.
* `flatMap_text_pieces`: all pieces of a text, one after the other, are the text.
-/

namespace LoxLexis

/-! ## Character classes -/

/-- The characters between tokens. -/
def isBlank (c : Char) : Bool :=
  c == ' ' || c == '\r' || c == '\t' || c == '\n'

/-- ASCII letters and the underscore start words. -/
def isWordStart (c : Char) : Bool :=
  c.isAlpha || c == '_'

/-- Words go on with these and with ASCII digits. -/
def isWordChar (c : Char) : Bool :=
  isWordStart c || c.isDigit

/-! ## The type of pieces -/

inductive Piece where
  | blank (c : Char)
  /-- What follows the two slashes. -/
  | comment (body : List Char)
  | symbol (s : Symbol)
  /-- What stands between the quotes. -/
  | quoted (body : List Char)
  | number (n : Numeral)
  | word (letters : List Char)
  /-- A character that starts no other piece. -/
  | stray (c : Char)
  /-- What follows a quote that is never closed. -/
  | unclosed (body : List Char)
deriving DecidableEq, Repr

namespace Piece

def text : Piece → List Char
  | blank c => [c]
  | comment body => '/' :: '/' :: body
  | symbol s => s.spelling
  | quoted body => '"' :: body ++ ['"']
  | number n => n.text
  | word letters => letters
  | stray c => [c]
  | unclosed body => '"' :: body

/-! ## Cutting the first piece -/

/-- What a quote opens, up to the next quote. -/
def cutQuoted (rest : List Char) : Piece × List Char :=
  match rest.dropWhile (· != '"') with
  | [] => (unclosed rest, [])
  | _ :: after => (quoted (rest.takeWhile (· != '"')), after)

/-- A symbol of one character, or of two if an equals sign follows and the two make a symbol. -/
def cutSymbol (s : Symbol) (rest : List Char) : Piece × List Char :=
  match s.withEqual?, rest with
  | some longer, '=' :: after => (symbol longer, after)
  | _, _ => (symbol s, rest)

/-- The first piece of the text `c :: rest`, and the text after it. -/
def cut (c : Char) (rest : List Char) : Piece × List Char :=
  if isBlank c then (blank c, rest)
  else if c = '"' then cutQuoted rest
  else if c.isDigit then
    let (n, after) := Numeral.cut (c :: rest)
    (number n, after)
  else if isWordStart c then (word (c :: rest.takeWhile isWordChar), rest.dropWhile isWordChar)
  else
    -- the second slash decides between a comment and the symbol
    match c, rest with
    | '/', '/' :: after => (comment (after.takeWhile (· != '\n')), after.dropWhile (· != '\n'))
    | _, _ =>
        match Symbol.single? c with
        | some s => cutSymbol s rest
        | none => (stray c, rest)

/-! ## Nothing is lost -/

/-- The dropped part starts with the quote that ends the kept part. -/
theorem text_cutQuoted_append (rest : List Char) :
    (cutQuoted rest).1.text ++ (cutQuoted rest).2 = '"' :: rest := by
  have hr : rest.takeWhile (· != '"') ++ rest.dropWhile (· != '"') = rest :=
    List.takeWhile_append_dropWhile
  unfold cutQuoted
  split
  · simp [text]
  · rename_i d after h
    have hd : d = '"' := by
      have := List.head?_dropWhile_not (· != '"') rest
      rw [h] at this
      simpa using this
    subst hd
    rw [h] at hr
    simp [text, hr]

theorem text_cutSymbol_append {c : Char} {s : Symbol} (hs : s.spelling = [c])
    (rest : List Char) : (cutSymbol s rest).1.text ++ (cutSymbol s rest).2 = c :: rest := by
  unfold cutSymbol
  split
  · rename_i longer after h
    simp [text, Symbol.spelling_of_withEqual? h, hs]
  · simp [text, hs]

theorem text_cut_append (c : Char) (rest : List Char) :
    (cut c rest).1.text ++ (cut c rest).2 = c :: rest := by
  unfold cut
  split
  · rfl
  split
  · rename_i hq
    subst hq
    exact text_cutQuoted_append rest
  split
  · exact Numeral.text_cut_append (c :: rest)
  split
  · simp [text, List.takeWhile_append_dropWhile]
  split
  · simp [text, List.takeWhile_append_dropWhile]
  split
  · rename_i s h
    exact text_cutSymbol_append (Symbol.single?_eq_some_iff.1 h) rest
  · rfl

/-! ## Every piece has a character -/

theorem cutQuoted_length (rest : List Char) : (cutQuoted rest).2.length ≤ rest.length := by
  unfold cutQuoted
  split
  · exact Nat.zero_le _
  · rename_i d after h
    have hl := (List.dropWhile_suffix (l := rest) (· != '"')).length_le
    rw [h, List.length_cons] at hl
    exact Nat.le_of_succ_le hl

theorem cutSymbol_length (s : Symbol) (rest : List Char) :
    (cutSymbol s rest).2.length ≤ rest.length := by
  unfold cutSymbol
  split <;> simp

theorem cut_length (c : Char) (rest : List Char) : (cut c rest).2.length ≤ rest.length := by
  unfold cut
  split
  · exact Nat.le_refl _
  split
  · exact cutQuoted_length rest
  split
  · rename_i hd
    exact Numeral.cut_length hd rest
  split
  · exact (List.dropWhile_suffix _).length_le
  split
  · exact Nat.le_succ_of_le (List.dropWhile_suffix _).length_le
  split
  · exact cutSymbol_length ..
  · exact Nat.le_refl _

/-! ## All pieces of a text -/

/-- Appends the pieces of a text to those already found. -/
def gather (found : Array Piece) : List Char → Array Piece
  | [] => found
  | c :: rest =>
      let next := cut c rest
      gather (found.push next.1) next.2
termination_by s => s.length
decreasing_by exact Nat.lt_succ_of_le (cut_length c rest)

/-- What is found does not depend on what was found before. -/
theorem toList_gather (s : List Char) (found : Array Piece) :
    (gather found s).toList = found.toList ++ (gather #[] s).toList := by
  match s with
  | [] => simp [gather]
  | c :: rest =>
      have := cut_length c rest
      rw [gather, gather, toList_gather _ (found.push _), toList_gather _ (#[].push _)]
      simp
termination_by s.length
decreasing_by all_goals exact Nat.lt_succ_of_le (cut_length c rest)

end Piece

def pieces (s : List Char) : List Piece :=
  (Piece.gather #[] s).toList

@[simp] theorem pieces_nil : pieces [] = [] := by
  simp [pieces, Piece.gather]

theorem pieces_cons (c : Char) (rest : List Char) :
    pieces (c :: rest) = (Piece.cut c rest).1 :: pieces (Piece.cut c rest).2 := by
  unfold pieces
  rw [Piece.gather, Piece.toList_gather]
  rfl

theorem flatMap_text_pieces (s : List Char) : (pieces s).flatMap Piece.text = s := by
  match s with
  | [] => simp
  | c :: rest =>
      rw [pieces_cons, List.flatMap_cons, flatMap_text_pieces, Piece.text_cut_append]
termination_by s.length
decreasing_by exact Nat.lt_succ_of_le (Piece.cut_length c rest)

example : pieces "1.".toList = [.number ⟨['1'], []⟩, .symbol .dot] := by decide +kernel
example : pieces "!==".toList = [.symbol .bangEqual, .symbol .equal] := by decide +kernel
example : pieces "/\"x".toList = [.symbol .slash, .unclosed ['x']] := by decide +kernel

end LoxLexis
