import LoxLexis.Diagnostic.Fault
import LoxLexis.Piece.Basic
import LoxLexis.Token.Basic

/-!
# Scanning

Each piece of a source comes to a token, a fault, or nothing. The only thing such a finding depends
on, apart from the piece, is the line the piece starts on. A string stands on the line of its
opening quote; a quote that is never closed is a fault on the line where the source ends.

A scan goes through the pieces and keeps the number of the line it has come to. Tokens are gathered;
faults go to a reporter as they are met.

* `scan_eq`: the tokens are those found in the pieces, whatever the reporter does, and the reporter
  gets every fault once, in order.
* `analyze_eq`: so collecting the faults collects all of them.
-/

namespace LoxLexis

/-! ## Findings -/

inductive Finding where
  | nothing
  | token (t : Token)
  | fault (f : Fault)
deriving DecidableEq

namespace Finding

def token? : Finding → Option Token
  | token t => some t
  | _ => none

def fault? : Finding → Option Fault
  | fault f => some f
  | _ => none

end Finding

namespace Piece

/-- How many lines a piece ends. -/
def newlines (p : Piece) : Nat :=
  Text.newlines p.text

/-- What a piece that starts on the given line comes to. -/
def finding (line : Nat) : Piece → Finding
  | blank _ => .nothing
  | comment _ => .nothing
  | symbol s => .token ⟨.symbol s, String.ofList s.spelling, none, line⟩
  | quoted body =>
      .token ⟨.string, String.ofList (quoted body).text, some (.string (String.ofList body)), line⟩
  | number n => .token ⟨.number, String.ofList n.text, some (.number n.value), line⟩
  | word letters =>
      let lexeme := String.ofList letters
      .token ⟨Kind.ofWord lexeme, lexeme, none, line⟩
  | stray c => .fault ⟨.strayCharacter c, line⟩
  | unclosed body => .fault ⟨.unclosedString, line + (unclosed body).newlines⟩

end Piece

/-- What consecutive pieces come to, the first of which starts on the given line. -/
def findings (line : Nat) : List Piece → List Finding
  | [] => []
  | p :: rest => p.finding line :: findings (line + p.newlines) rest

/-! ## The run over the pieces -/

/-- A scan under way: the line it has come to, the tokens so far, and what the reporter keeps. -/
structure Progress (σ : Type) where
  line : Nat
  tokens : Array Token
  kept : σ

namespace Progress

variable {σ : Type}

/-- Nothing read yet; lines count from one. -/
def start (kept : σ) : Progress σ :=
  ⟨1, #[], kept⟩

def step (report : σ → Fault → σ) (s : Progress σ) (p : Piece) : Progress σ :=
  let line := s.line + p.newlines
  match p.finding s.line with
  | .nothing => { s with line }
  | .token t => { s with line, tokens := s.tokens.push t }
  | .fault f => { s with line, kept := report s.kept f }

/-- All tokens, with the one that ends every scan. -/
def finish (s : Progress σ) : List Token × σ :=
  ((s.tokens.push (.eof s.line)).toList, s.kept)

/-- What is left after a run is what the findings say. -/
theorem finish_foldl_step (report : σ → Fault → σ) (ps : List Piece) (s : Progress σ) :
    (ps.foldl (step report) s).finish
      = (s.tokens.toList ++ (findings s.line ps).filterMap Finding.token?
          ++ [.eof (s.line + Text.newlines (ps.flatMap Piece.text))],
        ((findings s.line ps).filterMap Finding.fault?).foldl report s.kept) := by
  induction ps generalizing s with
  | nil => simp [finish, findings]
  | cons p ps ih =>
      rw [List.foldl_cons, ih]
      simp only [findings, step]
      cases h : p.finding s.line <;>
        simp [List.filterMap_cons, Finding.token?, Finding.fault?, Piece.newlines, Nat.add_assoc]

end Progress

/-- Scans a source: its tokens, and what the reporter keeps after all faults. -/
def scan {σ : Type} (report : σ → Fault → σ) (kept : σ) (source : String) : List Token × σ :=
  ((pieces source.toList).foldl (Progress.step report) (Progress.start kept)).finish

/-- Scans sources one after the other. One reporter gets the faults of all; lines count from one
again in each. -/
def scanEach {σ : Type} (report : σ → Fault → σ) (kept : σ) : List String → List (List Token) × σ
  | [] => ([], kept)
  | source :: rest =>
      let (tokens, kept) := scan report kept source
      let (others, kept) := scanEach report kept rest
      (tokens :: others, kept)

structure Analysis where
  tokens : List Token
  faults : List Fault
deriving DecidableEq

/-- Scans a source and collects its faults in order. -/
def analyze (source : String) : Analysis :=
  let (tokens, faults) := scan Array.push #[] source
  ⟨tokens, faults.toList⟩

/-! ## What a scan gives -/

/-- The reporter has no influence on the tokens, and gets every fault once, in order. -/
theorem scan_eq {σ : Type} (report : σ → Fault → σ) (kept : σ) (source : String) :
    let found := findings 1 (pieces source.toList)
    scan report kept source
      = (found.filterMap Finding.token? ++ [.eof (1 + Text.newlines source.toList)],
        (found.filterMap Finding.fault?).foldl report kept) := by
  simp only [scan, Progress.finish_foldl_step, Progress.start, List.nil_append,
    flatMap_text_pieces]

/-- The collected faults are all faults found in the pieces. -/
theorem analyze_eq (source : String) :
    let found := findings 1 (pieces source.toList)
    analyze source
      = ⟨found.filterMap Finding.token? ++ [.eof (1 + Text.newlines source.toList)],
        found.filterMap Finding.fault?⟩ := by
  simp [analyze, scan_eq]

end LoxLexis
