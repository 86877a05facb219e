import LoxLexis.Proofs.LineNumber
import LoxLexis.Proofs.Text.Line

/-!
# Source lines

There are two ways to number the lines of a source: a scan counts line feeds as it goes
along, and `sourceLine?` cuts the source into lines and takes one of them. They agree.
The line that a token or a fault is said to be on exists, and what the token or the fault
is about can be read there (`StandsOn`), although a carriage return at the end of a line
is not shown.

Both come down to one fact about a place in a text: cut the text into lines, and the line
whose number is that of the place goes on with what stands there
(`exists_sourceLine?_lineAt`).
-/

namespace LoxLexis

/-- What is shown of the line holds the text. -/
def StandsOn (source : String) (n : Nat) (w : List Char) : Prop :=
  ∃ shown, sourceLine? source n = some shown ∧ w <:+: shown.toList

/-- There is a line of that number, and none after it. -/
def IsLastLine (source : String) (n : Nat) : Prop :=
  (sourceLine? source n).isSome = true ∧ sourceLine? source (n + 1) = none

/-- The line of a token holds its spelling, or as much of it as comes before the first
line feed; the end is on the last line. -/
structure Token.Located (source : String) (t : Token) : Prop where
  whole : t.isEof = false → '\n' ∉ t.lexeme.toList → StandsOn source t.line t.lexeme.toList
  first : t.isEof = false → ∀ line rest, '\n' ∉ line → t.lexeme.toList = line ++ '\n' :: rest →
    ∃ shown, Text.Shown line shown ∧ StandsOn source t.line shown
  eof : t.isEof = true → IsLastLine source t.line

/-- The line of a stray character holds it, and an open quote is on the last line. -/
structure Fault.Located (source : String) (f : Fault) : Prop where
  stray : ∀ c, f.cause = .strayCharacter c → StandsOn source f.line [c]
  unclosed : f.cause = .unclosedString → IsLastLine source f.line

/-! ## Lines by their numbers -/

theorem isSome_sourceLine?_iff {source : String} {n : Nat} :
    (sourceLine? source n).isSome = true ↔ 1 ≤ n ∧ n ≤ 1 + Text.newlines source.toList := by
  rw [sourceLine?, Option.isSome_map, Text.isSome_line?_iff]

theorem isLastLine_lineAt (source : String) : IsLastLine source (lineAt source.toList) := by
  constructor
  · rw [isSome_sourceLine?_iff, lineAt]
    omega
  · rw [← Option.isNone_iff_eq_none, ← Option.not_isSome, Bool.not_eq_true', ← Bool.not_eq_true,
      isSome_sourceLine?_iff, lineAt]
    omega

/-- What is shown is the lines between the line feeds, one by one. -/
theorem rel_shown_sourceLine? (source : String) (k : Nat) :
    Option.Rel (fun line shown => Text.Shown line shown.toList)
      (source.toList.splitOn '\n')[k]? (sourceLine? source (k + 1)) := by
  rw [sourceLine?, Text.line?, Text.lineAfter?_eq_getElem?]
  cases (source.toList.splitOn '\n')[k]? with
  | none => exact .none
  | some line =>
      refine .some ?_
      rw [String.toList_ofList]
      exact Text.shown_dropReturn line

/-! ## Places -/

section Place

variable {source : String} {before : List Char}

theorem exists_sourceLine?_lineAt {s : List Char} (h : source.toList = before ++ s) :
    ∃ front, sourceLine? source (lineAt before)
      = some (String.ofList (Text.dropReturn (front ++ Text.firstLine s))) := by
  obtain ⟨front, hfront⟩ := Text.exists_lineAfter?_newlines before s
  refine ⟨front, ?_⟩
  rw [sourceLine?, lineAt, Nat.add_comm, Text.line?, h, hfront]
  rfl

/-- A text within a line is shown unless it ends with the carriage return. -/
theorem standsOn_lineAt {w rest : List Char} (h : source.toList = before ++ (w ++ rest))
    (hw : '\n' ∉ w) (hlast : w.getLast? ≠ some '\r') : StandsOn source (lineAt before) w := by
  obtain ⟨front, hline⟩ := exists_sourceLine?_lineAt h
  refine ⟨_, hline, ?_⟩
  rw [String.toList_ofList, Text.firstLine_append hw]
  apply Text.infix_dropReturn _ hlast
  exact ⟨front, Text.firstLine rest, by rw [List.append_assoc]⟩

/-- The end of a line is shown as it is shown by itself. -/
theorem exists_standsOn_lineAt {line rest : List Char}
    (h : source.toList = before ++ (line ++ '\n' :: rest)) (hline : '\n' ∉ line) :
    ∃ shown, Text.Shown line shown ∧ StandsOn source (lineAt before) shown := by
  obtain ⟨front, hfront⟩ := exists_sourceLine?_lineAt h
  refine ⟨Text.dropReturn line, Text.shown_dropReturn line, _, hfront, ?_⟩
  rw [String.toList_ofList, Text.firstLine_line_append hline]
  exact Text.dropReturn_infix front line

end Place

/-! ## Tokens and faults in their places -/

theorem exists_of_mem_placed_pieces {source : String} {before : List Char} {p : Piece}
    (h : (before, p) ∈ placed [] (pieces source.toList)) :
    p.Sound ∧ ∃ rest, source.toList = before ++ (p.text ++ rest) := by
  have hmem : p ∈ pieces source.toList := by
    rw [← map_snd_placed [] (pieces source.toList)]
    exact List.mem_map_of_mem h
  obtain ⟨rest, hrest⟩ := prefix_of_mem_placed h
  refine ⟨sound_of_mem_pieces hmem, rest, ?_⟩
  rw [flatMap_text_pieces, List.nil_append] at hrest
  rw [← hrest, List.append_assoc]

/-- No token ends with a carriage return: a string ends with its quote, and other tokens
hold no blanks. -/
theorem Piece.getLast?_text_ne_return {p : Piece} (hp : p.Sound) (hkind : p.kind? ≠ none) :
    p.text.getLast? ≠ some '\r' := by
  intro hlast
  rcases eq_of_isBlank_mem_text hp rfl (List.mem_of_getLast? hlast) with
    rfl | ⟨body, rfl⟩ | ⟨body, rfl⟩ | ⟨body, rfl⟩
  · exact hkind rfl
  · exact hkind rfl
  · rw [text, List.getLast?_concat] at hlast
    exact absurd (Option.some.inj hlast) (by decide)
  · exact hkind rfl

theorem located_of_mem_tokens {source : String} {t : Token} (ht : t ∈ (analyze source).tokens) :
    t.Located source := by
  rw [analyze_eq_found, List.mem_append, List.mem_singleton] at ht
  rcases ht with ht | rfl
  · obtain ⟨⟨before, p⟩, hmem, hp⟩ := List.mem_filterMap.mp ht
    obtain ⟨hkind, hlexeme, -, hline⟩ := Piece.token?_eq_some_iff.mp hp
    obtain ⟨hsound, rest, hsource⟩ := exists_of_mem_placed_pieces hmem
    have htext : t.lexeme.toList = p.text := by rw [hlexeme, String.toList_ofList]
    have hne : p.kind? ≠ none := by simp [hkind]
    constructor
    case whole =>
      intro _ hfeed
      rw [hline, htext]
      rw [htext] at hfeed
      exact standsOn_lineAt hsource hfeed (Piece.getLast?_text_ne_return hsound hne)
    case first =>
      intro _ line after hfeed hsplit
      rw [hline]
      rw [htext] at hsplit
      rw [hsplit, List.append_assoc, List.cons_append] at hsource
      exact exists_standsOn_lineAt hsource hfeed
    case eof =>
      intro heof
      rw [beq_iff_eq.mp heof] at hkind
      exact absurd hkind p.kind?_ne_eof
  · constructor
    case whole => exact fun h => absurd h (by simp [Token.isEof, Token.eof])
    case first => exact fun h => absurd h (by simp [Token.isEof, Token.eof])
    case eof => exact fun _ => isLastLine_lineAt source

theorem located_of_mem_faults {source : String} {f : Fault} (hf : f ∈ (analyze source).faults) :
    f.Located source := by
  rw [analyze_eq_found, found_fault?_of_tiles (tiles_pieces source.toList), List.nil_append] at hf
  obtain ⟨⟨before, p⟩, hmem, hp⟩ := List.mem_filterMap.mp hf
  obtain ⟨cause, hcause, rfl⟩ := Option.map_eq_some_iff.mp hp
  obtain ⟨hsound, rest, hsource⟩ := exists_of_mem_placed_pieces hmem
  constructor
  case stray =>
    rintro c rfl
    obtain rfl : p = .stray c := by
      cases p <;> simp_all [Piece.cause?]
    have hblank : ∀ d, isBlank d = true → d ≠ c := by
      rintro d hd rfl
      exact absurd hd (by simp [hsound.blank])
    refine standsOn_lineAt hsource ?_ ?_
    · exact fun h => hblank '\n' rfl (List.mem_singleton.mp h)
    · exact fun h => hblank '\r' rfl (Option.some.inj h).symm
  case unclosed =>
    rintro rfl
    exact isLastLine_lineAt source

/-! ## Both ways to number lines -/

/-- The numbered lines are the lines of the source, and all tokens and faults are on the lines
that they are said to be on. -/
theorem lines_agree (source : String) :
    (∀ n, (sourceLine? source n).isSome = true ↔
      1 ≤ n ∧ n ≤ 1 + Text.newlines source.toList) ∧
    (∀ k, Option.Rel (fun line shown => Text.Shown line shown.toList)
      (source.toList.splitOn '\n')[k]? (sourceLine? source (k + 1))) ∧
    (∀ t ∈ (analyze source).tokens, t.Located source) ∧
    (∀ f ∈ (analyze source).faults, f.Located source) := by
  refine ⟨fun n => isSome_sourceLine?_iff, rel_shown_sourceLine? source, ?_, ?_⟩
  · exact fun t ht => located_of_mem_tokens ht
  · exact fun f hf => located_of_mem_faults hf

/-- A string over two lines, the first of which ends with a carriage return. -/
theorem lines_agree_return :
    let source := "x \"a\r\nb\" @\r\n"
    let t : Token := ⟨.string, "\"a\r\nb\"", some (.string "a\r\nb"), 1⟩
    (t ∈ (analyze source).tokens ∧ ⟨.strayCharacter '@', 2⟩ ∈ (analyze source).faults) ∧
    (∃ shown, Text.Shown ['"', 'a', '\r'] shown ∧ StandsOn source 1 shown) ∧
    StandsOn source 2 ['@'] := by
  intro source t
  obtain ⟨-, -, htokens, hfaults⟩ := lines_agree source
  have ht : t ∈ (analyze source).tokens := by decide +kernel
  have hf : ⟨.strayCharacter '@', 2⟩ ∈ (analyze source).faults := by decide +kernel
  refine ⟨⟨ht, hf⟩, ?_, (hfaults _ hf).stray '@' rfl⟩
  exact (htokens t ht).first rfl ['"', 'a', '\r'] ['b', '"'] (by decide) (by decide)

end LoxLexis
