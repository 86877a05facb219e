import LoxLexis.Command.Run
import LoxLexis.Proofs.LineByLine
import LoxLexis.Proofs.Text.Utf8

/-!
# A file and the prompt

A file is scanned as a whole, and at the prompt each line by itself. If no line leaves a
string open, then both ways to give the command a text come to the same tokens and the
same faults (`file_agrees_with_prompt`). What differs is the lines of the faults, the
name of the file in reports, and the prompt marks and ends that stand between the tokens
of a session.
-/

namespace LoxLexis

/-! ## What the command shows of a text -/

/-- What is shown of the tokens of a source, without the end. -/
def shown (source : String) : List String :=
  ((analyze source).tokens.filter fun t => !t.isEof).map Token.text

/-- Texts as a dump shows them: each ends with a line feed, and the end comes last. -/
def listed (texts : List String) : String :=
  String.join ((texts ++ ["EOF  null"]).map (· ++ "\n"))

theorem dump_eq_listed (source : String) :
    dump (analyze source).tokens = listed (shown source) := by
  rw [shown, filter_isEof_tokens, analyze_eq_found, listed, dump, List.map_append,
    List.map_append, List.map_map]
  rfl

theorem shown_eq_filterMap (source : String) :
    shown source = (pieces source.toList).filterMap fun p =>
      p.kind?.map fun kind => Token.text ⟨kind, String.ofList p.text, p.literal?, 0⟩ := by
  rw [shown, filter_isEof_tokens]
  exact map_found _ (fun line p => p.map_token? Token.text line) [] _

namespace Command

theorem decode_toUTF8 (text : String) : decode text.toUTF8.toList = .ok text := by
  rw [decode, Text.toByteArray_toList_toUTF8, String.toUTF8_eq_toByteArray, String.fromUTF8?,
    dif_pos text.isValidUTF8]
  rfl

theorem answerLine_toUTF8 (line : String) :
    answerLine line.toUTF8.toList = .ok (listing line shellName) := by
  rw [answerLine, decode_toUTF8]
  rfl

theorem scanFile_toUTF8 (path text : String) :
    scanFile path (.ok text.toUTF8.toList)
      = ⟨if (analyze text).faults.isEmpty then .success else .faulty,
        dump (analyze text).tokens,
        String.join ((analyze text).faults.map (·.report text (fileName path)))⟩ := by
  have hread : (Except.ok text.toUTF8.toList >>= decode) = .ok text := decode_toUTF8 text
  rw [scanFile, hread]
  rfl

/-- Lines of text at the prompt are answered one after the other, and the session goes
on. -/
theorem promptLines_append (texts : List String) (rest : List (List UInt8)) :
    promptLines (texts.map (·.toUTF8.toList) ++ rest)
      = ⟨(promptLines rest).status,
        String.join (texts.map fun line => promptMark ++ dump (analyze line).tokens)
          ++ (promptLines rest).stdout,
        String.join (texts.flatMap fun line => (analyze line).faults.map (·.report line shellName))
          ++ (promptLines rest).stderr⟩ := by
  induction texts with
  | nil =>
      rw [List.map_nil, List.map_nil, List.flatMap_nil, List.nil_append, String.join_nil,
        String.empty_append, String.empty_append]
  | cons line texts ih =>
      rw [List.map_cons, List.cons_append, promptLines, answerLine_toUTF8, ih]
      simp only [listing, List.map_cons, List.flatMap_cons, String.join_cons, String.join_append,
        String.append_assoc]

/-- A session over a text answers each of its lines. -/
theorem prompt_toUTF8 (text : String) :
    prompt text.toUTF8.toList
      = ⟨.success,
        String.join ((Text.lines text).map fun line => promptMark ++ dump (analyze line).tokens)
          ++ (promptMark ++ "\n"),
        String.join ((Text.lines text).flatMap fun line =>
          (analyze line).faults.map (·.report line shellName))⟩ := by
  have hlines := promptLines_append (Text.lines text) []
  rw [List.append_nil, ← Text.splitAfter_toUTF8] at hlines
  rw [prompt, hlines, promptLines, String.append_empty]

end Command

/-! ## Reports -/

theorem Fault.report_ne_empty (f : Fault) (source file : String) : f.report source file ≠ "" := by
  intro h
  have hlist := congrArg String.toList h
  rw [report, String.toList_join] at hlist
  simp [reportLines] at hlist

theorem join_eq_empty_iff {ss : List String} (hne : ∀ s ∈ ss, s ≠ "") :
    String.join ss = "" ↔ ss = [] := by
  cases ss with
  | nil => simp
  | cons s ss =>
      have hs := hne s List.mem_cons_self
      simp [String.join_cons, hs]

/-- Nothing is reported if nothing is wrong. -/
theorem join_reports_eq_empty_iff (texts : List String) (file : String) :
    String.join (texts.flatMap fun line => (analyze line).faults.map (·.report line file)) = "" ↔
      ∀ line ∈ texts, (analyze line).faults = [] := by
  have hne : ∀ s ∈ texts.flatMap fun line => (analyze line).faults.map (·.report line file),
      s ≠ "" := by
    intro s hs
    obtain ⟨line, -, hs⟩ := List.mem_flatMap.mp hs
    obtain ⟨f, -, rfl⟩ := List.mem_map.mp hs
    exact f.report_ne_empty line file
  rw [join_eq_empty_iff hne, List.flatMap_eq_nil_iff]
  simp only [List.map_eq_nil_iff]

/-! ## Line by line -/

section Lines

variable {text : String} (hclosed : ∀ line ∈ Text.lines text, EndsClosed line)

include hclosed

theorem closed_of_mem_splitAfter :
    ∀ line ∈ Text.splitAfter '\n' text.toList, Closed line := by
  intro line hline
  have h := hclosed _ (List.mem_map_of_mem hline)
  rwa [endsClosed_iff, String.toList_ofList] at h

theorem shown_lines : shown text = (Text.lines text).flatMap shown := by
  rw [shown_eq_filterMap, pieces_splitAfter (closed_of_mem_splitAfter hclosed),
    List.filterMap_flatMap, Text.lines, List.flatMap_map]
  congr 1
  ext line : 1
  rw [shown_eq_filterMap, String.toList_ofList]

theorem line_eq_one_of_mem_lines {line : String} (hline : line ∈ Text.lines text) {f : Fault}
    (hf : f ∈ (analyze line).faults) : f.line = 1 := by
  obtain ⟨s, hs, rfl⟩ := List.mem_map.mp hline
  rw [analyze_eq_found, String.toList_ofList] at hf
  exact line_of_mem_found_line hs (closed_of_mem_splitAfter hclosed s hs) hf

theorem faults_lines :
    (analyze text).faults
      = ((Text.lines text).zipIdx 1).flatMap fun (line, i) =>
          (analyze line).faults.map fun f => ⟨f.cause, i⟩ := by
  have hfound : (analyze text).faults = found Piece.fault? [] (pieces text.toList) := by
    rw [analyze_eq_found]
  rw [hfound, found_fault?_splitAfter (closed_of_mem_splitAfter hclosed), Text.lines,
    List.zipIdx_map, List.flatMap_map]
  congr 1
  ext ⟨line, i⟩ : 1
  have hcauses := map_cause_faults (String.ofList line)
  rw [String.toList_ofList] at hcauses
  show ((pieces line).filterMap Piece.cause?).map (Fault.mk · i)
    = (analyze (String.ofList line)).faults.map fun f => Fault.mk f.cause i
  rw [← hcauses, List.map_map]
  rfl

/-- Nothing is wrong with a text if nothing is wrong with its lines. -/
theorem faults_eq_nil_iff_lines :
    (analyze text).faults = [] ↔ ∀ line ∈ Text.lines text, (analyze line).faults = [] := by
  rw [faults_lines hclosed, List.flatMap_eq_nil_iff]
  conv => rhs; rw [← List.zipIdx_map_fst 1 (Text.lines text)]
  rw [List.forall_mem_map]
  simp only [List.map_eq_nil_iff]

end Lines

/-! ## Main result -/

/-- The run over a file and a session at the prompt agree on a text: the tokens of the
one are those of the other with the ends of the lines left out, and the fault that a
session reports on its `i`-th line, there as one on line 1, is the fault of the file on
line `i`. -/
structure Agreement (text file : String) (run session : Command.Outcome) : Prop where
  run_stdout : run.stdout = listed (shown text)
  session_stdout : session.stdout
    = String.join ((Text.lines text).map fun line => "> " ++ listed (shown line)) ++ "> \n"
  tokens : shown text = (Text.lines text).flatMap shown
  run_stderr : run.stderr = String.join ((analyze text).faults.map (·.report text file))
  session_stderr : session.stderr
    = String.join ((Text.lines text).flatMap fun line =>
        (analyze line).faults.map (·.report line "shell"))
  line_one : ∀ line ∈ Text.lines text, ∀ f ∈ (analyze line).faults, f.line = 1
  faults : (analyze text).faults
    = ((Text.lines text).zipIdx 1).flatMap fun (line, i) =>
        (analyze line).faults.map fun f => ⟨f.cause, i⟩
  exit : run.status.code = 0 ↔ session.stderr = ""

theorem file_agrees_with_prompt (path text : String)
    (read : String → Except ReadError (List UInt8)) (stdin : List UInt8)
    (hread : read path = .ok text.toUTF8.toList)
    (hclosed : ∀ line ∈ Text.lines text, EndsClosed line) :
    Agreement text (Command.fileName path) (Command.run [path] read stdin)
      (Command.run [] read text.toUTF8.toList) := by
  have hrun : Command.run [path] read stdin = Command.scanFile path (.ok text.toUTF8.toList) :=
    congrArg (Command.scanFile path) hread
  have hsession : Command.run [] read text.toUTF8.toList = Command.prompt text.toUTF8.toList := rfl
  rw [hrun, hsession, Command.scanFile_toUTF8, Command.prompt_toUTF8]
  constructor
  case run_stdout => exact dump_eq_listed text
  case session_stdout =>
    simp only [dump_eq_listed]
    rfl
  case tokens => exact shown_lines hclosed
  case run_stderr => rfl
  case session_stderr => rfl
  case line_one => exact fun line hline f hf => line_eq_one_of_mem_lines hclosed hline hf
  case faults => exact faults_lines hclosed
  case exit =>
    rw [join_reports_eq_empty_iff, ← faults_eq_nil_iff_lines hclosed]
    cases (analyze text).faults with
    | nil => simp [Command.Status.code]
    | cons f faults => simp [Command.Status.code]

theorem file_agrees_with_prompt_three_lines :
    let text := "1.\r\n@ // \"\n!"
    let read : String → Except ReadError (List UInt8) := fun _ => .ok text.toUTF8.toList
    (∀ line ∈ Text.lines text, EndsClosed line) ∧
    Agreement text "script.lox" (Command.run ["dir/script.lox"] read [])
      (Command.run [] read text.toUTF8.toList) ∧
    (Text.lines text).map shown = [["NUMBER 1 1.0", "DOT . null"], [], ["BANG ! null"]] ∧
    (analyze text).faults = [⟨.strayCharacter '@', 2⟩] := by
  intro text read
  have hclosed : ∀ line ∈ Text.lines text, EndsClosed line := by
    unfold EndsClosed
    decide +kernel
  exact ⟨hclosed, file_agrees_with_prompt "dir/script.lox" text read [] rfl hclosed,
    by decide +kernel, by decide +kernel⟩

end LoxLexis
