import LoxLexis.Proofs.SourceLine
import LoxLexis.Proofs.Text.Escape

/-!
# The layout of reports

A report has four lines, and one more if the source has the line that the fault is on.
`Fault.Layout` says what each of them holds, whatever the fault and the source
(`report_layout`): none of them runs over into another line unless the name of the file
does, and the bars of the gutter and of the excerpt stand one above the other.

The faults of a scan are on lines of the source, so their reports have the excerpt, and a
stray character can be seen there unless it is white space.
-/

namespace LoxLexis

namespace Fault

/-- What is shown of the source line, behind the number of the line. -/
def numbered (f : Fault) (text : String) : String :=
  f.line.repr ++ " | " ++ text

/-- The lines of a report with the given headline and gutter; what is shown of the source
line stands between these and the wording. -/
def rows (f : Fault) (file headline gutter : String) (shown : Option String) : List String :=
  [headline, "-> " ++ file, gutter] ++ (shown.map f.numbered).toList ++ [f.text]

/-- The rows are the lines of the report, and each holds what it should. -/
structure Layout (f : Fault) (source file headline gutter : String) (shown : Option String) :
    Prop where
  report_eq : f.report source file
    = String.join ((f.rows file headline gutter shown).map (· ++ "\n"))
  feed_not_mem : ∀ row ∈ f.rows file headline gutter shown, '\n' ∉ row.toList
  length_eq : (f.rows file headline gutter shown).length
    = if 1 ≤ f.line ∧ f.line ≤ 1 + Text.newlines source.toList then 5 else 4
  headline_eq : ∃ tip, f.cause.tip = some tip ∧
    headline = "Error: " ++ f.cause.name ++ " (" ++ tip ++ ")"
  headline_ascii : ∀ c ∈ headline.toList, 0x20 ≤ c.toNat ∧ c.toNat ≤ 0x7E
  gutter_eq : ∃ n, gutter.toList = List.replicate n ' ' ++ ['|']
  same_column : ∀ text, shown = some text →
    (f.numbered text).toList.idxOf '|' = gutter.toList.idxOf '|'
  trimmed : ∀ text, shown = some text →
    ∃ line, sourceLine? source f.line = some line ∧ Text.Trimmed line.toList text.toList

/-! ## The headline -/

theorem exists_headline_eq (f : Fault) : ∃ tip, f.cause.tip = some tip ∧
    f.headline = "Error: " ++ f.cause.name ++ " (" ++ tip ++ ")" := by
  obtain ⟨cause, line⟩ := f
  cases cause <;> exact ⟨_, rfl, rfl⟩

theorem isPrintableAscii_headline (f : Fault) :
    ∀ c ∈ f.headline.toList, Text.isPrintableAscii c = true := by
  obtain ⟨cause, line⟩ := f
  cases cause with
  | strayCharacter c =>
      have hescape : (Text.escape c).all Text.isPrintableAscii = true :=
        List.all_eq_true.mpr fun d hd => Text.isPrintableAscii_of_mem_escape hd
      have hfront : "Error: UnexpectedCharacter (`".toList.all Text.isPrintableAscii = true := by
        decide
      have hback : "` does not start any token)".toList.all Text.isPrintableAscii = true := by
        decide
      have hheadline : (headline ⟨.strayCharacter c, line⟩).toList
          = "Error: UnexpectedCharacter (`".toList ++ Text.escape c
            ++ "` does not start any token)".toList := by
        simp [headline, Cause.tip, Cause.name, String.toList_append]
      rw [← List.all_eq_true, hheadline, List.all_append, List.all_append, hfront, hescape, hback]
      rfl
  | unclosedString =>
      show ∀ c ∈ "Error: UnterminatedString (did you forget a closing `\"`?)".toList, _
      exact List.all_eq_true.mp (by decide)

/-! ## Lines and columns -/

theorem not_mem_lineNumber {c : Char} (hc : c.isDigit = false) (f : Fault) :
    c ∉ f.lineNumber := by
  intro hmem
  have hdigit := Nat.isDigit_of_mem_toDigits (by decide) (by decide) hmem
  exact absurd hdigit (by simp [hc])

theorem toList_numbered (f : Fault) (text : String) :
    (f.numbered text).toList = f.lineNumber ++ ' ' :: '|' :: ' ' :: text.toList := by
  simp [numbered, lineNumber, Nat.repr, String.toList_append]

theorem toList_gutter (f : Fault) :
    f.gutter.toList = List.replicate (f.lineNumber.length + 1) ' ' ++ ['|'] := by
  simp [gutter, String.toList_append]

theorem toList_text (f : Fault) :
    f.text.toList = "[line ".toList ++ f.lineNumber ++ "] Error: ".toList
      ++ f.cause.message.toList := by
  simp [text, lineNumber, String.toList_append]

/-- No digit is a bar, so the bar behind the number is the first one. -/
theorem idxOf_numbered (f : Fault) (text : String) :
    (f.numbered text).toList.idxOf '|' = f.gutter.toList.idxOf '|' := by
  have hnumber : '|' ∉ f.lineNumber := f.not_mem_lineNumber (by decide)
  have hspaces : '|' ∉ List.replicate (f.lineNumber.length + 1) ' ' := by simp
  rw [toList_numbered, toList_gutter, List.idxOf_append_of_notMem hnumber,
    List.idxOf_append_of_notMem hspaces, List.length_replicate]
  rfl

theorem feed_not_mem_message (cause : Cause) : '\n' ∉ cause.message.toList := by
  cases cause with
  | strayCharacter c =>
      show '\n' ∉ "Unexpected character.".toList
      decide
  | unclosedString => decide

/-! ## The source line -/

/-- What is shown of the line that the fault is on, if the source has that line. -/
def shown? (f : Fault) (source : String) : Option String :=
  (sourceLine? source f.line).map fun line => String.ofList (Text.trim line.toList)

theorem reportLines_eq (f : Fault) (source file : String) :
    f.reportLines source file = f.rows file f.headline f.gutter (f.shown? source) := by
  have hexcerpt : f.excerpt
      = fun line => f.numbered (String.ofList (Text.trim (String.ofList line).toList)) := by
    funext line
    rw [String.toList_ofList]
    rfl
  rw [reportLines, rows, shown?, sourceLine?, Option.map_map, Option.map_map, hexcerpt]
  rfl

theorem trimmed_of_shown? {f : Fault} {source text : String} (h : f.shown? source = some text) :
    ∃ line, sourceLine? source f.line = some line ∧ Text.Trimmed line.toList text.toList := by
  obtain ⟨line, hline, rfl⟩ := Option.map_eq_some_iff.mp h
  refine ⟨line, hline, ?_⟩
  rw [String.toList_ofList]
  exact Text.trimmed_trim line.toList

theorem feed_not_mem_shown? {f : Fault} {source text : String} (h : f.shown? source = some text) :
    '\n' ∉ text.toList := by
  obtain ⟨line, hline, rfl⟩ := Option.map_eq_some_iff.mp h
  obtain ⟨chars, hchars, rfl⟩ := Option.map_eq_some_iff.mp hline
  rw [String.toList_ofList, String.toList_ofList]
  exact fun hmem => Text.feed_not_mem_of_line? hchars ((Text.trim_infix chars).mem hmem)

theorem length_rows (f : Fault) (source file : String) :
    (f.rows file f.headline f.gutter (f.shown? source)).length
      = if 1 ≤ f.line ∧ f.line ≤ 1 + Text.newlines source.toList then 5 else 4 := by
  have hsome : (f.shown? source).isSome = (sourceLine? source f.line).isSome := Option.isSome_map
  simp only [← isSome_sourceLine?_iff, ← hsome]
  cases h : f.shown? source <;> rfl

/-! ## The whole report -/

theorem feed_not_mem_row {file : String} (hfile : '\n' ∉ file.toList) (f : Fault)
    (source : String) :
    ∀ row ∈ f.rows file f.headline f.gutter (f.shown? source), '\n' ∉ row.toList := by
  have hnumber : '\n' ∉ f.lineNumber := f.not_mem_lineNumber (by decide)
  have hheadline : '\n' ∉ f.headline.toList :=
    fun hmem => absurd (f.isPrintableAscii_headline '\n' hmem) (by decide)
  have hgutter : '\n' ∉ f.gutter.toList := by simp [toList_gutter]
  have hplace : '\n' ∉ ("-> " ++ file).toList := by simp [String.toList_append, hfile]
  have hnumbered : ∀ text, f.shown? source = some text → '\n' ∉ (f.numbered text).toList := by
    intro text htext
    simp [toList_numbered, hnumber, feed_not_mem_shown? htext]
  have htext : '\n' ∉ f.text.toList := by
    simp [toList_text, hnumber, feed_not_mem_message]
  intro row hrow
  simp only [rows, List.mem_append, List.mem_cons, List.not_mem_nil, or_false, Option.mem_toList,
    Option.map_eq_some_iff] at hrow
  rcases hrow with ((rfl | rfl | rfl) | ⟨text, hshown, rfl⟩) | rfl
  · exact hheadline
  · exact hplace
  · exact hgutter
  · exact hnumbered text hshown
  · exact htext

theorem layout {file : String} (hfile : '\n' ∉ file.toList) (f : Fault) (source : String) :
    f.Layout source file f.headline f.gutter (f.shown? source) where
  report_eq := by rw [report, reportLines_eq]
  feed_not_mem := feed_not_mem_row hfile f source
  length_eq := length_rows f source file
  headline_eq := exists_headline_eq f
  headline_ascii := fun c hc => by
    simpa [Text.isPrintableAscii] using f.isPrintableAscii_headline c hc
  gutter_eq := ⟨_, toList_gutter f⟩
  same_column := fun text _ => idxOf_numbered f text
  trimmed := fun _ h => trimmed_of_shown? h

/-- The faults of a scan are on lines of the source. -/
theorem isSome_sourceLine?_of_mem_faults {source : String} {f : Fault}
    (hf : f ∈ (analyze source).faults) : (sourceLine? source f.line).isSome = true := by
  have hlocated := located_of_mem_faults hf
  cases hcause : f.cause with
  | strayCharacter c =>
      obtain ⟨line, hline, -⟩ := hlocated.stray c hcause
      exact Option.isSome_of_eq_some hline
  | unclosedString => exact (hlocated.unclosed hcause).1

theorem mem_shown?_of_stray {source text : String} {f : Fault} {c : Char}
    (hf : f ∈ (analyze source).faults) (hcause : f.cause = .strayCharacter c)
    (hwhite : Text.isWhite c = false) (htext : f.shown? source = some text) :
    c ∈ text.toList := by
  obtain ⟨line, hline, hpart⟩ := (located_of_mem_faults hf).stray c hcause
  obtain ⟨line', hline', htrimmed⟩ := trimmed_of_shown? htext
  obtain rfl : line = line' := Option.some.inj (hline.symm.trans hline')
  exact htrimmed.mem_of_isWhite_eq_false (hpart.mem (List.mem_singleton_self c)) hwhite

end Fault

/-- Every report has the layout of its fault; those on the faults of a scan have the excerpt,
with the stray character in it unless that is white space. -/
theorem report_layout {file : String} (hfile : '\n' ∉ file.toList) (source : String) :
    (∀ f : Fault, ∃ headline gutter shown, f.Layout source file headline gutter shown) ∧
    ∀ f ∈ (analyze source).faults, ∃ headline gutter text,
      f.Layout source file headline gutter (some text) ∧
      ∀ c, f.cause = .strayCharacter c → Text.isWhite c = false → c ∈ text.toList := by
  refine ⟨fun f => ⟨_, _, _, f.layout hfile source⟩, fun f hf => ?_⟩
  obtain ⟨line, hline⟩ := Option.isSome_iff_exists.mp (Fault.isSome_sourceLine?_of_mem_faults hf)
  have hshown : f.shown? source = some (String.ofList (Text.trim line.toList)) := by
    rw [Fault.shown?, hline, Option.map_some]
  refine ⟨f.headline, f.gutter, _, hshown ▸ f.layout hfile source, ?_⟩
  exact fun c hcause hwhite => Fault.mem_shown?_of_stray hf hcause hwhite hshown

/-- White space on both sides of a stray character, a stray character that is white space
itself, and a line number of twenty digits. -/
theorem report_layout_white :
    let source := "x;\r\n\t @ \u2003\r\n"
    let far : Fault := ⟨.strayCharacter '\n', 18446744073709551615⟩
    ('\n' ∉ "a.lox".toList ∧ ⟨.strayCharacter '@', 2⟩ ∈ (analyze source).faults) ∧
    (∃ headline gutter text,
      (⟨.strayCharacter '@', 2⟩ : Fault).Layout source "a.lox" headline gutter (some text) ∧
      '@' ∈ text.toList) ∧
    ∃ headline gutter shown, far.Layout source "a.lox" headline gutter shown := by
  intro source far
  have hfile : '\n' ∉ "a.lox".toList := by decide
  have hf : ⟨.strayCharacter '@', 2⟩ ∈ (analyze source).faults := by decide +kernel
  obtain ⟨hall, hscan⟩ := report_layout hfile source
  obtain ⟨headline, gutter, text, hlayout, hmem⟩ := hscan _ hf
  exact ⟨⟨hfile, hf⟩, ⟨headline, gutter, text, hlayout, hmem '@' rfl (by decide)⟩, hall far⟩

end LoxLexis
