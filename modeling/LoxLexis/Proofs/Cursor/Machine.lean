import LoxLexis.Proofs.NumberValue
import LoxLexis.Proofs.Text.Slice
import LoxLexis.Scan
import Mathlib.Data.PFun

/-!
# A scan by byte offsets

The scan as it goes on in place: the text is never taken apart, and two offsets into it mark where
the token at hand starts and what has not been read. One turn of the main loop reads one token,
fault or gap. The text is looked at through `Text.slice` alone, so there is no outcome if an offset
is ever out of range or inside a character, and none if a loop goes on for ever.
-/

namespace LoxLexis

/-- A scan under way, with the offset of the token at hand and that of the next character. -/
structure Cursor (σ : Type) extends Progress σ where
  start : Nat
  current : Nat

/-- Nothing read yet. -/
def Cursor.initial {σ : Type} (kept : σ) : Cursor σ :=
  ⟨Progress.start kept, 0, 0⟩

/-- A new token starts at the next character. -/
def Cursor.begin {σ : Type} (s : Cursor σ) : Cursor σ :=
  { s with start := s.current }

/-- A part of a scan. It has no outcome if a slice cannot be taken, or a loop does not end. -/
abbrev Scanner (σ : Type) := StateT (Cursor σ) Part

namespace Scanner

variable {σ : Type} (source : String) (report : σ → Fault → σ)

/-! ## Characters -/

/-- Repeats the body as long as the test holds. -/
def loopWhile (test : Scanner σ Bool) (body : Scanner σ Unit) : Scanner σ Unit :=
  PFun.fix fun s => do
    let (more, s) ← test.run s
    if more then
      let (_, s) ← body.run s
      return .inr s
    else
      return .inl ((), s)

def atEnd : Scanner σ Bool := do
  return source.utf8ByteSize ≤ (← get).current

/-- The characters that have not been read. -/
def ahead : Scanner σ (List Char) := do
  let unread ← Text.slice source (← get).current source.utf8ByteSize
  return unread.toList

/-- The next character. The end of the text looks like a null character. -/
def peek : Scanner σ Char := do
  return (← ahead source).head?.getD '\x00'

/-- The character after the next. -/
def peekNext : Scanner σ Char := do
  return (← ahead source).tail.head?.getD '\x00'

def advance : Scanner σ Char := do
  match ← ahead source with
  | [] => return '\x00'
  | c :: _ =>
      modify fun s => { s with current := s.current + c.utf8Size }
      return c

def skip : Scanner σ Unit := do
  let _ ← advance source

/-- Reads the expected character if it is the next. -/
def takeIf (expected : Char) : Scanner σ Bool := do
  if ← atEnd source then
    return false
  if (← peek source) != expected then
    return false
  modify fun s => { s with current := s.current + expected.utf8Size }
  return true

/-- Reads on as long as the next character is of the class. -/
def takeWhile (p : Char → Bool) : Scanner σ Unit :=
  loopWhile (return p (← peek source)) (skip source)

def feed : Scanner σ Unit :=
  modify fun s => { s with line := s.line + 1 }

/-! ## Tokens and faults -/

def lexeme : Scanner σ String := do
  let s ← get
  Text.slice source s.start s.current

def pushToken (kind : Kind) (literal : Option Literal) (line : Nat) : Scanner σ Unit := do
  let text ← lexeme source
  modify fun s => { s with tokens := s.tokens.push ⟨kind, text, literal, line⟩ }

def addToken (kind : Kind) : Scanner σ Unit := do
  pushToken source kind none (← get).line

def fault (cause : Cause) : Scanner σ Unit :=
  modify fun s => { s with kept := report s.kept ⟨cause, s.line⟩ }

/-- The text of a comment. The line feed behind it is left for the next turn. -/
def comment : Scanner σ Unit :=
  loopWhile (return (← peek source) != '\n' && !(← atEnd source)) (skip source)

/-- The body of a string, up to the quote that ends it or the end of the text. -/
def stringBody : Scanner σ Unit :=
  loopWhile (return (← peek source) != '"' && !(← atEnd source)) do
    if (← peek source) == '\n' then
      feed
    skip source

/-- What a quote opens. A token stands on the line of the quote, a fault on the last one. -/
def string : Scanner σ Unit := do
  let line := (← get).line
  stringBody source
  if ← atEnd source then
    fault report .unclosedString
  else
    skip source
    let s ← get
    let value ← Text.slice source (s.start + 1) (s.current - 1)
    pushToken source .string (some (.string value)) line

/-- The rest of a numeral. A point belongs to it only if a digit follows. -/
def numeral : Scanner σ Unit := do
  takeWhile source Char.isDigit
  if (← peek source) == '.' && (← peekNext source).isDigit then
    skip source
    takeWhile source Char.isDigit

/-- The rest of a number. A text that does not read as a number would count as infinite. -/
def number : Scanner σ Unit := do
  numeral source
  let text ← lexeme source
  let value := (Numeral.read? text.toList).getD (.ofBits 0x7FF0000000000000)
  pushToken source .number (some (.number value)) (← get).line

def word : Scanner σ Unit := do
  takeWhile source isWordChar
  addToken source (Kind.ofWord (← lexeme source))

/-- A comment if a second slash follows. -/
def slash : Scanner σ Unit := do
  if ← takeIf source '/' then
    comment source
  else
    addToken source (.symbol .slash)

/-- A symbol, or the one that it becomes with an equals sign. -/
def symbol (s : Symbol) : Scanner σ Unit := do
  match s.withEqual? with
  | none => addToken source (.symbol s)
  | some longer =>
      let kind := if ← takeIf source '=' then longer else s
      addToken source (.symbol kind)

/-! ## The main loop -/

/-- Reads one token, fault or gap. -/
def scanToken : Scanner σ Unit := do
  let c ← advance source
  match Symbol.single? c with
  | some s => if s = .slash then slash source else symbol source s
  | none =>
      if c == ' ' || c == '\r' || c == '\t' then
        return
      else if c == '\n' then
        feed
      else if c == '"' then
        string source report
      else if c.isDigit then
        number source
      else if isWordStart c then
        word source
      else
        fault report (.strayCharacter c)

def turn : Scanner σ Unit := do
  modify Cursor.begin
  scanToken source report

def loop : Scanner σ Unit :=
  loopWhile (return !(← atEnd source)) (turn source report)

end Scanner

/-- The tokens, with the one that ends every scan, and what the reporter keeps. -/
def scanInPlace {σ : Type} (report : σ → Fault → σ) (kept : σ) (source : String) :
    Part (List Token × σ) := do
  let (_, s) ← (Scanner.loop source report).run (Cursor.initial kept)
  return s.toProgress.finish

/-- A state in which the main loop asks whether the text is at its end. -/
inductive Cursor.Reached {σ : Type} (report : σ → Fault → σ) (kept : σ) (source : String) :
    Cursor σ → Prop
  | initial : Reached report kept source (.initial kept)
  | turn {s t : Cursor σ} : Reached report kept source s → s.current < source.utf8ByteSize →
      (Scanner.turn source report).run s = Part.some ((), t) → Reached report kept source t

end LoxLexis
