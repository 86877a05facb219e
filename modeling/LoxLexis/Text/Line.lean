/-!
# Lines of a text

Only a line feed ends a line, so a text has one line more than it has line feeds. Lines are numbered
from one. A carriage return before the end of a line is not part of what is shown of it, nor is the
white space at either end where a line is trimmed.

* `trim_infix`: trimming gives a contiguous part of the text.
-/

namespace LoxLexis.Text

def newlines (s : List Char) : Nat :=
  s.count '\n'

@[simp] theorem newlines_nil : newlines [] = 0 := rfl

@[simp] theorem newlines_append (s t : List Char) : newlines (s ++ t) = newlines s + newlines t :=
  List.count_append ..

def firstLine (s : List Char) : List Char :=
  s.takeWhile (· != '\n')

/-- What follows the first line feed, if there is one. -/
def afterFirstLine? (s : List Char) : Option (List Char) :=
  match s.dropWhile (· != '\n') with
  | [] => none
  | _ :: rest => some rest

/-- The line with the given number of lines before it. -/
def lineAfter? : Nat → List Char → Option (List Char)
  | 0, s => some (firstLine s)
  | k + 1, s => (afterFirstLine? s).bind (lineAfter? k)

/-- Leaves out one carriage return at the end. -/
def dropReturn (s : List Char) : List Char :=
  if s.getLast? = some '\r' then s.dropLast else s

/-- The line with the given number. There is no line zero. -/
def line? (s : List Char) : Nat → Option (List Char)
  | 0 => none
  | k + 1 => (lineAfter? k s).map dropReturn

/-! ## Lines as they are read -/

/-- Puts an element in front of the first line, or on a line of its own if it ends a line. -/
def consLine {α : Type} [BEq α] (feed a : α) (lines : List (List α)) : List (List α) :=
  if a == feed then [a] :: lines
  else
    match lines with
    | [] => [[a]]
    | line :: rest => (a :: line) :: rest

/-- The lines of a sequence, each with the feed that ends it; the last may have none. -/
def splitAfter {α : Type} [BEq α] (feed : α) (s : List α) : List (List α) :=
  s.foldr (consLine feed) []

example : splitAfter 0 [1, 2, 0, 0, 3] = [[1, 2, 0], [0], [3]] := by decide

/-! ## White space -/

/-- The code points of the property White_Space, as ranges with both ends. -/
def whiteRanges : List (Nat × Nat) :=
  [(0x09, 0x0D), (0x20, 0x20), (0x85, 0x85), (0xA0, 0xA0), (0x1680, 0x1680), (0x2000, 0x200A),
    (0x2028, 0x2029), (0x202F, 0x202F), (0x205F, 0x205F), (0x3000, 0x3000)]

def isWhite (c : Char) : Bool :=
  whiteRanges.any fun (first, last) => first ≤ c.toNat && c.toNat ≤ last

/-- The text without the white space at either end. -/
def trim (s : List Char) : List Char :=
  ((s.dropWhile isWhite).reverse.dropWhile isWhite).reverse

/-- Trimming gives a contiguous part of the text. -/
theorem trim_infix (s : List Char) : trim s <:+: s := by
  have h : trim s <+: s.dropWhile isWhite := by
    simpa [trim] using
      List.reverse_prefix.2 (List.dropWhile_suffix (l := (s.dropWhile isWhite).reverse) isWhite)
  exact h.isInfix.trans (List.dropWhile_suffix isWhite).isInfix

example : whiteRanges.foldl (fun n (first, last) => n + (last - first + 1)) 0 = 25 := by decide
example : [' ', '\t', '\r', '\n', '\u0085', '\u00a0', '\u2028'].all isWhite = true := by decide
example : isWhite '\u200b' = false := by decide

end LoxLexis.Text

namespace LoxLexis

/-! ## Lines of a source -/

/-- The text of a numbered line of a source. -/
def sourceLine? (source : String) (n : Nat) : Option String :=
  (Text.line? source.toList n).map String.ofList

example : sourceLine? "one\r\n\nthree\n" 1 = some "one" := by decide
example : sourceLine? "one\r\n\nthree\n" 4 = some "" := by decide
example : sourceLine? "one\r\n\nthree\n" 5 = none := by decide
example : sourceLine? "one" 0 = none := by decide

end LoxLexis
