import LoxLexis.Command.Directory
import LoxLexis.Scan

/-!
# The command

With one argument the command scans that file; with none it prompts for lines and scans each by
itself; with more it only tells how it is used. Tokens go to standard output, reports on faults to
standard error.

The outcome is a function of the arguments, of what reading a path gives, and of the bytes on
standard input.
-/

namespace LoxLexis.Command

/-! ## Outcomes -/

inductive Status where
  | success
  /-- The command was not used as it is meant to be. -/
  | misuse
  /-- The file has lexical faults. -/
  | faulty
  /-- Something could not be read. -/
  | unreadable
deriving DecidableEq, Repr

def Status.code : Status → UInt8
  | success => 0
  | misuse => 64
  | faulty => 65
  | unreadable => 74

structure Outcome where
  status : Status
  stdout : String
  stderr : String
deriving DecidableEq

def usage : String :=
  "Usage: lox_scanner [script]\n"

def complaint (e : ReadError) : String :=
  "Error: " ++ e.message ++ "\n"

/-! ## Scanning one text -/

structure Listing where
  dump : String
  reports : String
  isClean : Bool

/-- Scans a text and shows its tokens and the reports on its faults. -/
def listing (source file : String) : Listing :=
  let result := analyze source
  ⟨dump result.tokens, String.join (result.faults.map (·.report source file)),
    result.faults.isEmpty⟩

/-- The text that bytes encode in UTF-8. -/
def decode (bytes : List UInt8) : Except ReadError String :=
  match String.fromUTF8? bytes.toByteArray with
  | some source => .ok source
  | none => .error .notUtf8

/-! ## A file -/

def fileName (path : String) : String :=
  String.ofList (path.toList.reverse.takeWhile (· != '/')).reverse

/-- Scans a file, given what reading it gave. Nothing is shown of a file that cannot be read. -/
def scanFile (path : String) (contents : Except ReadError (List UInt8)) : Outcome :=
  match contents >>= decode with
  | .error e => ⟨.unreadable, "", complaint e⟩
  | .ok source =>
      let shown := listing source (fileName path)
      ⟨if shown.isClean then .success else .faulty, shown.dump, shown.reports⟩

/-! ## The prompt -/

def promptMark : String := "> "

/-- The name of standard input in reports. -/
def shellName : String := "shell"

/-- Scans one line. Nothing is kept from one line to the next. -/
def answerLine (line : List UInt8) : Except ReadError Listing :=
  (decode line).map (listing · shellName)

/-- Prompts until the lines end, or one is not text. Faults do not end the session. -/
def promptLines : List (List UInt8) → Outcome
  | [] => ⟨.success, promptMark ++ "\n", ""⟩
  | line :: rest =>
      match answerLine line with
      | .error e => ⟨.unreadable, promptMark, complaint e⟩
      | .ok shown =>
          let after := promptLines rest
          ⟨after.status, promptMark ++ shown.dump ++ after.stdout, shown.reports ++ after.stderr⟩

/-- Prompts for the lines of standard input. -/
def prompt (stdin : List UInt8) : Outcome :=
  promptLines (Text.splitAfter 10 stdin)

/-! ## The command as a whole -/

def run (arguments : List String) (read : String → Except ReadError (List UInt8))
    (stdin : List UInt8) : Outcome :=
  match arguments with
  | [] => prompt stdin
  | [path] => scanFile path (read path)
  | _ => ⟨.misuse, usage, ""⟩

end LoxLexis.Command
