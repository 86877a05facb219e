import LoxLexis.Proofs.Piece.Tiling
import LoxLexis.Scan

/-!
# Pieces in their places

A scan looks at each piece with one number, the line that the piece starts on. Here
that number is read off the source: `placed` puts beside each piece the text before
it, and `analyze_eq_found` says that the tokens and the faults of a source are those
of its pieces in their places, each on the line after the line feeds before it.

`kind?`, `literal?` and `cause?` say what a piece is, wherever it stands.
-/

namespace LoxLexis

theorem Kind.ofWord_ne_eof (text : String) : Kind.ofWord text ≠ .eof := by
  unfold Kind.ofWord
  cases Keyword.ofText? text <;> exact Kind.noConfusion

namespace Piece

/-! ## What a piece is -/

/-- The kind of token a piece is, if it is one. -/
def kind? : Piece → Option Kind
  | symbol s => some (.symbol s)
  | quoted _ => some .string
  | number _ => some .number
  | word letters => some (Kind.ofWord (String.ofList letters))
  | blank _ | comment _ | stray _ | unclosed _ => none

def literal? : Piece → Option Literal
  | quoted body => some (.string (String.ofList body))
  | number n => some (.number n.value)
  | _ => none

/-- What is wrong with a piece, if anything is. -/
def cause? : Piece → Option Cause
  | stray c => some (.strayCharacter c)
  | unclosed _ => some .unclosedString
  | _ => none

/-- The token that a piece is on the given line. -/
def token? (line : Nat) (p : Piece) : Option Token :=
  p.kind?.map fun kind => ⟨kind, String.ofList p.text, p.literal?, line⟩

/-- The fault that a piece is if it starts on the given line. -/
def fault? (line : Nat) : Piece → Option Fault
  | stray c => some ⟨.strayCharacter c, line⟩
  | unclosed body => some ⟨.unclosedString, line + (unclosed body).newlines⟩
  | _ => none

theorem token?_finding (line : Nat) (p : Piece) :
    (p.finding line).token? = p.token? line := by
  cases p <;> rfl

theorem fault?_finding (line : Nat) (p : Piece) :
    (p.finding line).fault? = p.fault? line := by
  cases p <;> rfl

theorem map_cause_fault? (line : Nat) (p : Piece) :
    (p.fault? line).map Fault.cause = p.cause? := by
  cases p <;> rfl

theorem map_token? {γ : Type} (g : Token → γ) (line : Nat) (p : Piece) :
    (p.token? line).map g
      = p.kind?.map fun kind => g ⟨kind, String.ofList p.text, p.literal?, line⟩ := by
  unfold token?
  rw [Option.map_map]
  rfl

/-- The line is all that the place of a token changes. -/
theorem token?_eq_some_iff {line : Nat} {p : Piece} {t : Token} :
    p.token? line = some t ↔
      p.kind? = some t.kind ∧ t.lexeme = String.ofList p.text ∧
        t.literal = p.literal? ∧ t.line = line := by
  unfold token?
  rw [Option.map_eq_some_iff]
  constructor
  · rintro ⟨kind, hkind, rfl⟩
    exact ⟨hkind, rfl, rfl, rfl⟩
  · rintro ⟨hkind, hlexeme, hliteral, hline⟩
    refine ⟨t.kind, hkind, ?_⟩
    rw [← hlexeme, ← hliteral, ← hline]

theorem cause?_eq_unclosedString_iff {p : Piece} :
    p.cause? = some .unclosedString ↔ ∃ body, p = unclosed body := by
  cases p <;> simp [cause?]

theorem fault?_eq_none_of_kind? {p : Piece} (h : p.kind? ≠ none) (line : Nat) :
    p.fault? line = none := by
  cases p with
  | stray | unclosed => exact absurd rfl h
  | blank | comment | symbol | quoted | number | word => rfl

theorem kind?_ne_eof (p : Piece) : p.kind? ≠ some .eof := by
  cases p with
  | word letters => simp [kind?, Kind.ofWord_ne_eof]
  | blank | comment | symbol | quoted | number | stray | unclosed => simp [kind?]

/-- A blank ends every token. -/
theorem stopsAt_of_isBlank {p : Piece} (hp : p.kind? ≠ none) {rest : List Char}
    (hrest : ∀ c ∈ rest.head?, isBlank c = true) : p.StopsAt rest := by
  cases p with
  | symbol s =>
      intro c hc
      constructor <;> (rintro rfl; exact absurd (hrest _ hc) (by decide))
  | number n =>
      constructor
      · intro c hc
        rw [← Bool.not_eq_true]
        intro hd
        exact absurd (hrest c hc) (by simp [isBlank_eq_false_of_isDigit hd])
      · rintro d after - rfl
        exact absurd (hrest '.' rfl) (by decide)
  | word letters =>
      intro c hc
      have hblank := isBlank_iff.mp (hrest c hc)
      rcases hblank with rfl | rfl | rfl | rfl <;> decide
  | quoted body => trivial
  | blank | comment | stray | unclosed => exact absurd rfl hp

end Piece

/-! ## Where a piece stands -/

/-- Each piece with the text before it, where the first stands after the given
text. -/
def placed (before : List Char) : List Piece → List (List Char × Piece)
  | [] => []
  | p :: ps => (before, p) :: placed (before ++ p.text) ps

theorem map_snd_placed (before : List Char) (ps : List Piece) :
    (placed before ps).map Prod.snd = ps := by
  induction ps generalizing before with
  | nil => rfl
  | cons p ps ih => rw [placed, List.map_cons, ih]

theorem placed_append (before : List Char) (ps qs : List Piece) :
    placed before (ps ++ qs)
      = placed before ps ++ placed (before ++ ps.flatMap Piece.text) qs := by
  induction ps generalizing before with
  | nil => simp [placed]
  | cons p ps ih =>
      rw [List.cons_append, placed, placed, ih, List.flatMap_cons, List.append_assoc,
        List.cons_append]

/-- The line of a place: one more than the line feeds before it. -/
def lineAt (before : List Char) : Nat :=
  1 + Text.newlines before

theorem lineAt_append (s t : List Char) :
    lineAt (s ++ t) = lineAt s + Text.newlines t := by
  simp only [lineAt, Text.newlines_append, Nat.add_assoc]

theorem findings_eq_placed (before : List Char) (ps : List Piece) :
    findings (lineAt before) ps
      = (placed before ps).map fun (b, p) => p.finding (lineAt b) := by
  induction ps generalizing before with
  | nil => rfl
  | cons p ps ih =>
      rw [placed, List.map_cons, findings, Piece.newlines, ← lineAt_append, ih]

/-! ## What is found in the pieces -/

section Found

variable {β γ : Type} (f : Nat → Piece → Option β)

/-- What the pieces are by `f`, which is told the line of each. -/
def found (before : List Char) (ps : List Piece) : List β :=
  (placed before ps).filterMap fun (b, p) => f (lineAt b) p

@[simp] theorem found_nil (before : List Char) : found f before [] = [] := rfl

theorem found_cons (before : List Char) (p : Piece) (ps : List Piece) :
    found f before (p :: ps)
      = (f (lineAt before) p).toList ++ found f (before ++ p.text) ps := by
  simp only [found, placed, List.filterMap_cons]
  cases f (lineAt before) p <;> rfl

theorem found_append (before : List Char) (ps qs : List Piece) :
    found f before (ps ++ qs)
      = found f before ps ++ found f (before ++ ps.flatMap Piece.text) qs := by
  rw [found, placed_append, List.filterMap_append]
  rfl

theorem mem_found {before : List Char} {ps : List Piece} {x : β}
    (h : x ∈ found f before ps) : ∃ b, ∃ p ∈ ps, f (lineAt b) p = some x := by
  obtain ⟨⟨b, p⟩, hmem, hx⟩ := List.mem_filterMap.mp h
  refine ⟨b, p, ?_, hx⟩
  rw [← map_snd_placed before ps]
  exact List.mem_map_of_mem hmem

/-- What does not depend on the lines can be read off the pieces alone. -/
theorem map_found {g : β → γ} {h : Piece → Option γ}
    (hf : ∀ line p, (f line p).map g = h p) (before : List Char) (ps : List Piece) :
    (found f before ps).map g = ps.filterMap h := by
  rw [found, List.map_filterMap]
  conv => rhs; rw [← map_snd_placed before ps, List.filterMap_map]
  congr 1
  ext x : 1
  exact hf _ x.2

end Found

/-- The tokens and the faults of a source are those of its pieces, each on the line
of its place. -/
theorem analyze_eq_found (source : String) :
    analyze source
      = ⟨found Piece.token? [] (pieces source.toList) ++ [.eof (lineAt source.toList)],
        found Piece.fault? [] (pieces source.toList)⟩ := by
  have h : findings 1 (pieces source.toList) = _ := findings_eq_placed [] _
  rw [analyze_eq, h]
  simp only [List.filterMap_map, found, lineAt]
  congr 3
  · ext x : 1
    exact x.2.token?_finding _
  · ext x : 1
    exact x.2.fault?_finding _

theorem map_cause_faults (source : String) :
    (analyze source).faults.map Fault.cause
      = (pieces source.toList).filterMap Piece.cause? := by
  rw [analyze_eq_found]
  exact map_found _ Piece.map_cause_fault? [] _

theorem filter_isEof_tokens (source : String) :
    (analyze source).tokens.filter (fun t => !t.isEof)
      = found Piece.token? [] (pieces source.toList) := by
  rw [analyze_eq_found, List.filter_append]
  have hall : ∀ t ∈ found Piece.token? [] (pieces source.toList), (!t.isEof) = true := by
    intro t ht
    obtain ⟨b, p, -, hp⟩ := mem_found Piece.token? ht
    have hkind := (Piece.token?_eq_some_iff.mp hp).1
    rw [Bool.not_eq_true', Token.isEof, beq_eq_false_iff_ne]
    intro heof
    exact p.kind?_ne_eof (hkind.trans (congrArg some heof))
  rw [List.filter_eq_self.mpr hall]
  exact List.append_nil _

/-- They can be read off any tiling of the source. -/
theorem analyze_of_tiles {source : String} {ps : List Piece}
    (h : Tiles ps source.toList) :
    analyze source
      = ⟨found Piece.token? [] ps ++ [.eof (lineAt source.toList)],
        found Piece.fault? [] ps⟩ := by
  rw [analyze_eq_found, h.pieces_eq]

/-- A piece alone is the one token or the one fault of its text. -/
theorem analyze_text {p : Piece} (hp : p.Sound) :
    analyze (String.ofList p.text)
      = ⟨(p.token? 1).toList ++ [.eof (lineAt p.text)], (p.fault? 1).toList⟩ := by
  have h : Tiles [p] (String.ofList p.text).toList := by
    rw [String.toList_ofList]
    exact tiles_iff.mpr (pieces_text hp)
  rw [analyze_of_tiles h, found_cons, found_cons, found_nil, found_nil, List.append_nil,
    List.append_nil, String.toList_ofList]
  rfl

end LoxLexis
