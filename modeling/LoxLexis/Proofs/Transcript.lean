import LoxLexis.Proofs.Prompt

/-!
# The transcript of a session

What a session at the prompt shows for any bytes at all. Each line that is text is
answered by itself, as if no other had come before, and the first line that is not text
ends the session: the answers before it stand, its prompt mark is shown, and what comes
after it is not looked at (`prompt_transcript`).
-/

namespace LoxLexis

/-! ## Bytes that are text -/

theorem Text.toByteArray_toList (bytes : List UInt8) : bytes.toByteArray.toList = bytes := by
  rw [toList_eq_data, List.data_toByteArray]

namespace Command

/-- Bytes are no text if no text has them. -/
theorem decode_eq_error {bytes : List UInt8} (h : ∀ text : String, text.toUTF8.toList ≠ bytes) :
    decode bytes = .error .notUtf8 := by
  unfold decode
  split
  · rename_i source hsource
    have hbytes : source.toUTF8 = bytes.toByteArray := by
      unfold String.fromUTF8? at hsource
      split at hsource
      · obtain rfl := Option.some.inj hsource
        rfl
      · cases hsource
    exact absurd (by rw [hbytes, Text.toByteArray_toList]) (h source)
  · rfl

theorem ne_of_decode_eq_error {bytes : List UInt8} {e : ReadError} (h : decode bytes = .error e) :
    ∀ text : String, text.toUTF8.toList ≠ bytes := by
  rintro text rfl
  rw [decode_toUTF8] at h
  cases h

theorem promptLines_of_not_text {line : List UInt8} (rest : List (List UInt8))
    (h : ∀ text : String, text.toUTF8.toList ≠ line) :
    promptLines (line :: rest) = ⟨.unreadable, promptMark, complaint .notUtf8⟩ := by
  have hanswer : answerLine line = .error .notUtf8 := by
    rw [answerLine, decode_eq_error h]
    rfl
  rw [promptLines, hanswer]

end Command

/-- Either all are images, or there is a first that is not. -/
theorem exists_map_or_exists_first {α β : Type} (f : α → β) (ys : List β) :
    (∃ xs : List α, ys = xs.map f) ∨
      ∃ (xs : List α) (y : β) (rest : List β), ys = xs.map f ++ y :: rest ∧ ∀ x, f x ≠ y := by
  induction ys with
  | nil => exact Or.inl ⟨[], rfl⟩
  | cons y ys ih =>
      by_cases hy : ∃ x, f x = y
      · obtain ⟨x, rfl⟩ := hy
        rcases ih with ⟨xs, rfl⟩ | ⟨xs, z, rest, rfl, hz⟩
        · exact Or.inl ⟨x :: xs, rfl⟩
        · exact Or.inr ⟨x :: xs, z, rest, rfl, hz⟩
      · exact Or.inr ⟨[], y, ys, rfl, not_exists.mp hy⟩

/-! ## One line -/

/-- A line feed in a text is a byte in its place. -/
theorem feed_not_mem_dropLast_of_toUTF8 {text : String}
    (h : 10 ∉ text.toUTF8.toList.dropLast) : '\n' ∉ text.toList.dropLast := by
  rw [Text.toList_toUTF8] at h
  intro hmem
  have hne : text.toList ≠ [] := by
    intro hnil
    rw [hnil] at hmem
    exact List.not_mem_nil hmem
  apply h
  rw [← List.dropLast_concat_getLast hne, List.flatMap_append, List.flatMap_singleton,
    List.dropLast_append_of_ne_nil String.utf8EncodeChar_ne_nil, List.mem_append]
  exact Or.inl (List.mem_flatMap.mpr ⟨'\n', hmem, by decide⟩)

/-- No piece of a line has a line feed before it. -/
theorem lineAt_of_mem_placed_line {line before : List Char} {p : Piece}
    (hline : '\n' ∉ line.dropLast) (h : (before, p) ∈ placed [] (pieces line)) :
    lineAt before = 1 := by
  have hp : p ∈ pieces line := by
    rw [← map_snd_placed [] (pieces line)]
    exact List.mem_map_of_mem h
  obtain ⟨rest, hrest⟩ := prefix_of_mem_placed h
  rw [flatMap_text_pieces, List.nil_append, List.append_assoc] at hrest
  have hne : p.text ++ rest ≠ [] :=
    List.append_ne_nil_of_left_ne_nil (Piece.text_ne_nil (sound_of_mem_pieces hp)) rest
  have hfeed : '\n' ∉ before := by
    intro hmem
    rw [← hrest, List.dropLast_append_of_ne_nil hne] at hline
    exact hline (List.mem_append_left _ hmem)
  rw [lineAt, Text.newlines_line hfeed]

theorem line_eq_one_of_mem_tokens {text : String} (hline : '\n' ∉ text.toList.dropLast)
    {t : Token} (ht : t ∈ (analyze text).tokens) (heof : t.isEof = false) : t.line = 1 := by
  rw [analyze_eq_found, List.mem_append, List.mem_singleton] at ht
  rcases ht with ht | rfl
  · obtain ⟨⟨before, p⟩, hmem, hp⟩ := List.mem_filterMap.mp ht
    rw [(Piece.token?_eq_some_iff.mp hp).2.2.2]
    exact lineAt_of_mem_placed_line hline hmem
  · cases heof

theorem line_eq_one_of_mem_faults {text : String} (hline : '\n' ∉ text.toList.dropLast)
    {f : Fault} (hf : f ∈ (analyze text).faults) (hcause : f.cause ≠ .unclosedString) :
    f.line = 1 := by
  rw [analyze_eq_found] at hf
  obtain ⟨⟨before, p⟩, hmem, hp⟩ := List.mem_filterMap.mp hf
  cases p with
  | stray c =>
      obtain rfl := Option.some.inj hp
      exact lineAt_of_mem_placed_line hline hmem
  | unclosed body =>
      obtain rfl := Option.some.inj hp
      exact absurd rfl hcause
  | blank | comment | symbol | quoted | number | word => cases hp

/-! ## Main result -/

/-- The outcome of a session over lines of bytes: after all of them, if all are text, or
at the first that is not. -/
structure Transcript (lines : List (List UInt8)) (session : Command.Outcome) : Prop where
  /-- One of the two cases below applies. -/
  either : (∃ texts : List String, lines = texts.map (·.toUTF8.toList)) ∨
    ∃ (texts : List String) (bad : List UInt8) (after : List (List UInt8)),
      lines = texts.map (·.toUTF8.toList) ++ bad :: after ∧
        ∀ text : String, text.toUTF8.toList ≠ bad
  ended : ∀ texts : List String, lines = texts.map (·.toUTF8.toList) →
    session.stdout
      = String.join (texts.map fun line => "> " ++ dump (analyze line).tokens) ++ "> \n" ∧
    session.stderr
      = String.join (texts.flatMap fun line =>
          (analyze line).faults.map (·.report line "shell")) ∧
    session.status.code = 0
  aborted : ∀ (texts : List String) (bad : List UInt8) (after : List (List UInt8)),
    lines = texts.map (·.toUTF8.toList) ++ bad :: after →
    (∀ text : String, text.toUTF8.toList ≠ bad) →
    session.stdout
      = String.join (texts.map fun line => "> " ++ dump (analyze line).tokens) ++ "> " ∧
    session.stderr
      = String.join (texts.flatMap fun line =>
          (analyze line).faults.map (·.report line "shell"))
        ++ "Error: stream did not contain valid UTF-8\n" ∧
    session.status.code = 74
  /-- The lines of each text are counted from one again. -/
  line_one : ∀ text : String, text.toUTF8.toList ∈ lines →
    (∀ t ∈ (analyze text).tokens, t.isEof = false → t.line = 1) ∧
    ∀ f ∈ (analyze text).faults, f.cause ≠ .unclosedString → f.line = 1

/-- For all bytes on standard input: they fall into lines in just one way, and the session
over these lines is the transcript of them. -/
theorem prompt_transcript (read : String → Except ReadError (List UInt8)) (stdin : List UInt8) :
    ∃ lines, (∀ others, Text.SplitsAfter 10 stdin others ↔ others = lines) ∧
      Transcript lines (Command.run [] read stdin) := by
  have hsplits : Text.SplitsAfter 10 stdin (Text.splitAfter 10 stdin) :=
    Text.splitsAfter_iff.mpr rfl
  refine ⟨Text.splitAfter 10 stdin, fun others => Text.splitsAfter_iff.trans eq_comm, ?_⟩
  have hrun : Command.run [] read stdin = Command.promptLines (Text.splitAfter 10 stdin) := rfl
  rw [hrun]
  constructor
  case either => exact exists_map_or_exists_first _ _
  case ended =>
    intro texts hlines
    have hsession := Command.promptLines_append texts []
    rw [List.append_nil] at hsession
    rw [hlines, hsession, Command.promptLines, String.append_empty]
    exact ⟨rfl, rfl, rfl⟩
  case aborted =>
    intro texts bad after hlines hbad
    rw [hlines, Command.promptLines_append, Command.promptLines_of_not_text after hbad]
    exact ⟨rfl, rfl, rfl⟩
  case line_one =>
    intro text hmem
    have hline := feed_not_mem_dropLast_of_toUTF8 (hsplits.feed_not_mem_dropLast _ hmem)
    exact ⟨fun t ht => line_eq_one_of_mem_tokens hline ht,
      fun f hf => line_eq_one_of_mem_faults hline hf⟩

/-- An open string on the second line does not reach the third, which is not text; the
fourth is not looked at. -/
theorem prompt_transcript_not_text :
    let stdin : List UInt8 := "1\n\"\n".toUTF8.toList ++ [0xFF, 10] ++ "2".toUTF8.toList
    ∃ lines, Text.SplitsAfter 10 stdin lines ∧
      lines = ["1\n", "\"\n"].map (·.toUTF8.toList) ++ [0xFF, 10] :: ["2".toUTF8.toList] ∧
      (∀ text : String, text.toUTF8.toList ≠ [0xFF, 10]) ∧
      (Command.run [] (fun _ => .error .missing) stdin).stdout
        = "> NUMBER 1 1.0\nEOF  null\n> EOF  null\n> " ∧
      (Command.run [] (fun _ => .error .missing) stdin).status.code = 74 := by
  intro stdin
  have hbad : ∀ text : String, text.toUTF8.toList ≠ [0xFF, 10] :=
    Command.ne_of_decode_eq_error (e := .notUtf8) (by decide +kernel)
  obtain ⟨lines, hsplits, htranscript⟩ := prompt_transcript (fun _ => .error .missing) stdin
  have hlines : lines
      = ["1\n", "\"\n"].map (·.toUTF8.toList) ++ [0xFF, 10] :: ["2".toUTF8.toList] := by
    rw [← Text.splitsAfter_iff.mp ((hsplits lines).mpr rfl)]
    decide +kernel
  obtain ⟨hstdout, -, hcode⟩ := htranscript.aborted _ _ _ hlines hbad
  refine ⟨lines, (hsplits lines).mpr rfl, hlines, hbad, ?_, hcode⟩
  rw [hstdout]
  decide +kernel

end LoxLexis
