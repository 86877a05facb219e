import LoxLexis.Binary64.Text
import LoxLexis.Token.Kind

/-!
# Tokens

A token has a kind, the text it was read from, the line it starts on, and for strings and numbers
the value. Tokens are shown as three fields: kind, text, value.
-/

namespace LoxLexis

inductive Literal where
  | string (value : String)
  | number (value : Binary64)
deriving DecidableEq

namespace Literal

/-- A string shows as it is, a number in the style of number literals. -/
def text : Literal → String
  | string value => value
  | number value => value.text

/-- Strings agree if they are the same, numbers if they are equal as numbers. -/
def agrees : Literal → Literal → Bool
  | string a, string b => a == b
  | number a, number b => a.numEq b
  | _, _ => false

end Literal

structure Token where
  kind : Kind
  lexeme : String
  literal : Option Literal
  line : Nat
deriving DecidableEq

namespace Token

/-- The token that ends every scan. -/
def eof (line : Nat) : Token :=
  ⟨.eof, "", none, line⟩

def isKeyword (t : Token) : Bool :=
  t.kind.isKeyword

def isEof (t : Token) : Bool :=
  t.kind == .eof

/-- Kind, text and value, with one space between them; no value shows as `null`. -/
def text (t : Token) : String :=
  t.kind.name ++ " " ++ t.lexeme ++ " " ++ (t.literal.map Literal.text).getD "null"

def literalsAgree : Option Literal → Option Literal → Bool
  | some a, some b => a.agrees b
  | none, none => true
  | _, _ => false

/-- Equality of tokens, with numbers compared as numbers. -/
def agrees (a b : Token) : Bool :=
  a.kind == b.kind && a.lexeme == b.lexeme && literalsAgree a.literal b.literal && a.line == b.line

end Token

def dump (tokens : List Token) : String :=
  String.join (tokens.map (·.text ++ "\n"))

end LoxLexis
