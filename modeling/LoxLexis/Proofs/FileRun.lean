import LoxLexis.Proofs.Admissible
import LoxLexis.Proofs.Transcript

/-!
# Runs over files

What the command does with a file, whatever reading it gives (`command_run`). A file that
cannot be read, or is not text, is answered by one complaint. A text is dumped whole, with
all that is wrong with it reported beside, and the status says whether it is admissible.
-/

namespace LoxLexis

/-! ## Complaints -/

/-- The words for a failed read take one line. The command's own always do. -/
def ReadError.InOneLine (e : ReadError) : Prop :=
  ∀ words, e = .other words → '\n' ∉ words.toList

theorem ReadError.feed_not_mem_message {e : ReadError} (h : e.InOneLine) :
    '\n' ∉ e.message.toList := by
  cases e with
  | other words => exact h words rfl
  | missing | notADirectory | isADirectory | nameTooLong | notUtf8 => decide

/-! ## Names of files -/

/-- What stands behind the last slash of a path, or the whole path if it has none. -/
structure IsFileName (path name : String) : Prop where
  slash_not_mem : '/' ∉ name.toList
  path_eq : path = name ∨ ∃ directory, path = directory ++ "/" ++ name

theorem toList_directory_append (directory name : String) :
    (directory ++ "/" ++ name).toList = directory.toList ++ '/' :: name.toList := by
  simp [String.toList_append]

theorem IsFileName.unique {path name other : String} (h : IsFileName path name)
    (h' : IsFileName path other) : name = other := by
  -- a path that is a name has no slash
  have hne {whole directory part : String} (hslash : '/' ∉ whole.toList) :
      whole ≠ directory ++ "/" ++ part := by
    rintro rfl
    rw [toList_directory_append] at hslash
    exact hslash (by simp)
  rcases h.path_eq with rfl | ⟨directory, hpath⟩
  · rcases h'.path_eq with hpath' | ⟨directory', hpath'⟩
    · exact hpath'
    · exact absurd hpath' (hne h.slash_not_mem)
  · rcases h'.path_eq with rfl | ⟨directory', hpath'⟩
    · exact absurd hpath (hne h'.slash_not_mem)
    · have hlist := congrArg String.toList (hpath.symm.trans hpath')
      rw [toList_directory_append, toList_directory_append] at hlist
      obtain ⟨-, hname⟩ := append_cons_inj_of_not_mem_right h.slash_not_mem h'.slash_not_mem hlist
      exact String.toList_inj.mp hname

namespace Command

theorem isFileName_fileName (path : String) : IsFileName path (fileName path) := by
  have hname : (fileName path).toList = (path.toList.reverse.takeWhile (· != '/')).reverse := by
    rw [fileName, String.toList_ofList]
  have hpath : path.toList
      = (path.toList.reverse.dropWhile (· != '/')).reverse ++ (fileName path).toList := by
    rw [hname, ← List.reverse_append, List.takeWhile_append_dropWhile, List.reverse_reverse]
  constructor
  case slash_not_mem =>
    rw [hname, List.mem_reverse]
    intro hmem
    exact absurd (List.mem_takeWhile_imp hmem) (by simp)
  case path_eq =>
    have hstop := head_dropWhile_eq_false (· != '/') path.toList.reverse
    cases hdrop : path.toList.reverse.dropWhile (· != '/') with
    | nil =>
        rw [hdrop, List.reverse_nil, List.nil_append] at hpath
        exact Or.inl (String.toList_inj.mp hpath)
    | cons c front =>
        rw [hdrop] at hpath hstop
        obtain rfl : c = '/' := by simpa using hstop
        refine Or.inr ⟨String.ofList front.reverse, ?_⟩
        apply String.toList_inj.mp
        rw [hpath, toList_directory_append]
        simp

theorem isFileName_iff {path name : String} : IsFileName path name ↔ name = fileName path := by
  constructor
  · exact fun h => h.unique (isFileName_fileName path)
  · rintro rfl
    exact isFileName_fileName path

/-! ## One file -/

theorem scanFile_of_not_text (path : String) {bytes : List UInt8}
    (h : ∀ text : String, text.toUTF8.toList ≠ bytes) :
    scanFile path (.ok bytes) = ⟨.unreadable, "", complaint .notUtf8⟩ := by
  have hread : (Except.ok bytes >>= decode) = .error .notUtf8 := decode_eq_error h
  rw [scanFile, hread]

end Command

theorem join_reports_eq_empty_iff_admits (text file : String) :
    String.join ((analyze text).faults.map (·.report text file)) = "" ↔
      Region.code.Admits text.toList := by
  have hjoin := join_reports_eq_empty_iff [text] file
  rw [List.flatMap_singleton, List.forall_mem_singleton] at hjoin
  rw [hjoin, faults_eq_nil_iff_admits]

/-! ## Main result -/

/-- The outcome of a run over a text: all of its tokens, a report on each fault as they come
in the text, and a status that tells whether there are any. -/
structure TextRun (text name : String) (run : Command.Outcome) : Prop where
  stdout : run.stdout = String.join ((analyze text).tokens.map (·.text ++ "\n"))
  stderr : run.stderr = String.join ((analyze text).faults.map (·.report text name))
  faults : (analyze text).faults = Mode.faults [] .code text.toList
  code : run.status.code = 0 ∨ run.status.code = 65
  code_eq_zero_iff : run.status.code = 0 ↔ run.stderr = ""
  stderr_eq_empty_iff : run.stderr = "" ↔ Region.code.Admits text.toList

/-- The outcome of a run over one file, by what reading the file gives. -/
structure FileRun (contents : Except ReadError (List UInt8)) (name : String)
    (run : Command.Outcome) : Prop where
  /-- One of the three cases below applies. -/
  either : (∃ e, contents = .error e) ∨
    (∃ bytes, contents = .ok bytes ∧ ∀ text : String, text.toUTF8.toList ≠ bytes) ∨
      ∃ text : String, contents = .ok text.toUTF8.toList
  unread : ∀ e, contents = .error e →
    run.stdout = "" ∧ run.stderr = "Error: " ++ e.message ++ "\n" ∧
      (e.InOneLine → '\n' ∉ e.message.toList) ∧ run.status.code = 74
  not_text : ∀ bytes, contents = .ok bytes → (∀ text : String, text.toUTF8.toList ≠ bytes) →
    run.stdout = "" ∧ run.stderr = "Error: stream did not contain valid UTF-8\n" ∧
      run.status.code = 74
  text : ∀ text : String, contents = .ok text.toUTF8.toList → TextRun text name run

theorem textRun_scanFile (path text : String) :
    TextRun text (Command.fileName path) (Command.scanFile path (.ok text.toUTF8.toList)) := by
  have hempty : String.join ((analyze text).faults.map (·.report text (Command.fileName path))) = ""
      ↔ (analyze text).faults = [] := by
    rw [join_reports_eq_empty_iff_admits, faults_eq_nil_iff_admits]
  rw [Command.scanFile_toUTF8]
  constructor
  case stdout => rfl
  case stderr => rfl
  case faults => rw [analyze_eq_found, Mode.faults_of_tiles (tiles_pieces text.toList)]
  case code => cases (analyze text).faults <;> simp [Command.Status.code]
  case code_eq_zero_iff =>
    rw [hempty]
    cases (analyze text).faults <;> simp [Command.Status.code]
  case stderr_eq_empty_iff => exact join_reports_eq_empty_iff_admits text _

/-- One argument is the path of a file, and the outcome is told by what reading that path
gives; with more arguments nothing is read. -/
theorem command_run (read : String → Except ReadError (List UInt8)) (stdin : List UInt8) :
    (∀ path, ∃ name, (∀ other, IsFileName path other ↔ other = name) ∧
      FileRun (read path) name (Command.run [path] read stdin)) ∧
    ∀ first second rest,
      Command.run (first :: second :: rest) read stdin
        = ⟨.misuse, "Usage: lox_scanner [script]\n", ""⟩ ∧
      Command.Status.misuse.code = 64 := by
  refine ⟨fun path => ⟨Command.fileName path, fun _ => Command.isFileName_iff, ?_⟩,
    fun _ _ _ => ⟨rfl, rfl⟩⟩
  have hrun : Command.run [path] read stdin = Command.scanFile path (read path) := rfl
  rw [hrun]
  constructor
  case either =>
    cases read path with
    | error e => exact Or.inl ⟨e, rfl⟩
    | ok bytes =>
        by_cases htext : ∃ text : String, text.toUTF8.toList = bytes
        · obtain ⟨text, rfl⟩ := htext
          exact Or.inr (Or.inr ⟨text, rfl⟩)
        · exact Or.inr (Or.inl ⟨bytes, rfl, not_exists.mp htext⟩)
  case unread =>
    intro e he
    rw [he]
    exact ⟨rfl, rfl, ReadError.feed_not_mem_message, rfl⟩
  case not_text =>
    intro bytes hbytes htext
    rw [hbytes, Command.scanFile_of_not_text path htext]
    exact ⟨rfl, rfl, rfl⟩
  case text =>
    intro text htext
    rw [htext]
    exact textRun_scanFile path text

/-- A slash in a string opens no comment, and in a comment no character is wrong. The other
file is missing. -/
theorem command_run_script :
    let text := "\"//\" @ // #\n"
    let read : String → Except ReadError (List UInt8) := fun path =>
      if path = "dir/a.lox" then .ok text.toUTF8.toList else .error .missing
    read "dir/a.lox" = .ok text.toUTF8.toList ∧
    TextRun text "a.lox" (Command.run ["dir/a.lox"] read []) ∧
    (analyze text).faults = [⟨.strayCharacter '@', 1⟩] ∧ ¬ Region.code.Admits text.toList ∧
    (Command.run ["a.lox"] read []).stderr = "Error: No such file or directory (os error 2)\n" ∧
    (Command.run ["a.lox"] read []).status.code = 74 := by
  intro text read
  have hread : read "dir/a.lox" = .ok text.toUTF8.toList := if_pos rfl
  have hmissing : read "a.lox" = .error .missing := if_neg (by decide)
  obtain ⟨name, hname, hrun⟩ := (command_run read []).1 "dir/a.lox"
  obtain rfl : "a.lox" = name := (hname "a.lox").mp ⟨by decide, Or.inr ⟨"dir", by decide⟩⟩
  have htext : TextRun text "a.lox" (Command.run ["dir/a.lox"] read []) := hrun.text text hread
  have hfaults : (analyze text).faults = [⟨.strayCharacter '@', 1⟩] := by decide +kernel
  obtain ⟨other, -, hother⟩ := (command_run read []).1 "a.lox"
  obtain ⟨-, hstderr, -, hcode⟩ := hother.unread .missing hmissing
  refine ⟨hread, htext, hfaults, ?_, hstderr, hcode⟩
  rw [← faults_eq_nil_iff_admits, hfaults]
  exact List.cons_ne_nil _ _

end LoxLexis
