import LoxLexis.Text.Line

/-!
# Lexical faults

What can be wrong with a program text, and on which line. A fault never ends a scan. It is reported
together with the line of source that it is on.
-/

namespace LoxLexis.Text

/-! ## Escaped characters

Any character in printable ASCII. A few have a letter of their own after a backslash; printable
ASCII stays as it is; all other characters are written by their code point in hexadecimal. -/

/-- The characters with a short escape, each with what follows the backslash. -/
def shortEscapes : List (Char × Char) :=
  [('\t', 't'), ('\r', 'r'), ('\n', 'n'), ('\'', '\''), ('"', '"'), ('\\', '\\')]

/-- From the space to the tilde. -/
def isPrintableAscii (c : Char) : Bool :=
  0x20 ≤ c.toNat && c.toNat ≤ 0x7E

/-- A character in printable ASCII. -/
def escape (c : Char) : List Char :=
  match shortEscapes.lookup c with
  | some letter => ['\\', letter]
  | none =>
      if isPrintableAscii c then [c]
      else ['\\', 'u', '{'] ++ Nat.toDigits 16 c.toNat ++ ['}']

example : escape '#' = ['#'] := by decide
example : escape '\\' = ['\\', '\\'] := by decide
example : escape '\x00' = ['\\', 'u', '{', '0', '}'] := by decide
example : escape 'é' = ['\\', 'u', '{', 'e', '9', '}'] := by decide

end LoxLexis.Text

namespace LoxLexis

/-! ## Faults -/

inductive Cause where
  | strayCharacter (c : Char)
  | unclosedString
deriving DecidableEq, Repr

namespace Cause

def name : Cause → String
  | strayCharacter _ => "UnexpectedCharacter"
  | unclosedString => "UnterminatedString"

def message : Cause → String
  | strayCharacter _ => "Unexpected character."
  | unclosedString => "Unterminated string."

/-- Advice that goes with the name. The character is escaped, so advice is printable ASCII. -/
def tip : Cause → Option String
  | strayCharacter c =>
      some ("`" ++ String.ofList (Text.escape c) ++ "` does not start any token")
  | unclosedString => some "did you forget a closing `\"`?"

end Cause

/-- Advice as text; no advice is the empty text. -/
def tipText (tip : Option String) : String :=
  tip.getD ""

/-- A cause and the line it was met on. -/
structure Fault where
  cause : Cause
  line : Nat
deriving DecidableEq, Repr

namespace Fault

def text (f : Fault) : String :=
  "[line " ++ String.ofList (Nat.toDigits 10 f.line) ++ "] Error: " ++ f.cause.message

example : text ⟨.unclosedString, 12⟩ = "[line 12] Error: Unterminated string." := by decide

/-- Reports to a procedure that is told only the line and the message. -/
def tell {σ : Type} (call : σ → Nat → String → σ) (kept : σ) (f : Fault) : σ :=
  call kept f.line f.cause.message

/-! ## Reports

A fault shown with its place: the cause and a tip, the file, the line of source between a gutter and
its number, and the wording.

```text
Error: UnexpectedCharacter (`@` does not start any token)
-> greet.lox
   |
10 | print "hello" @ name;
[line 10] Error: Unexpected character.
```

A fault on a line that the source does not have is reported without the source line. -/

/-- The name of the cause, and the tip in parentheses if there is one. -/
def headline (f : Fault) : String :=
  match f.cause.tip with
  | none => "Error: " ++ f.cause.name
  | some tip => "Error: " ++ f.cause.name ++ " (" ++ tip ++ ")"

def lineNumber (f : Fault) : List Char :=
  Nat.toDigits 10 f.line

/-- A bar under which the bar of the excerpt stands. -/
def gutter (f : Fault) : String :=
  String.ofList (List.replicate (f.lineNumber.length + 1) ' ') ++ "|"

/-- The source line without the white space around it, after its number. -/
def excerpt (f : Fault) (line : List Char) : String :=
  String.ofList f.lineNumber ++ " | " ++ String.ofList (Text.trim line)

def reportLines (f : Fault) (source file : String) : List String :=
  [f.headline, "-> " ++ file, f.gutter]
    ++ ((Text.line? source.toList f.line).map f.excerpt).toList
    ++ [f.text]

/-- The report on a fault in a source that was read from a file. -/
def report (f : Fault) (source file : String) : String :=
  String.join ((f.reportLines source file).map (· ++ "\n"))

end Fault

end LoxLexis
