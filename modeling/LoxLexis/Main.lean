import LoxLexis.Command.Run

/-!
# The program

Reads the file or the lines that the command asks for, and writes what it answers.
-/

namespace LoxLexis.Program

/-- The reason for a failed read, from the number the system gives it; the number may come negated.
The system's own words serve where the command has none. -/
def readErrorOfCode (code : UInt32) (words : String) : ReadError :=
  match if code < 0x80000000 then code else -code with
  | 2 => .missing
  | 20 => .notADirectory
  | 21 => .isADirectory
  | 36 => .nameTooLong
  | number => .other (words ++ " (os error " ++ toString number ++ ")")

def readErrorOf (e : IO.Error) : ReadError :=
  match e with
  | .noFileOrDirectory _ code words | .inappropriateType _ code words
  | .resourceExhausted _ code words | .invalidArgument _ code words
  | .permissionDenied _ code words | .noSuchThing _ code words
  | .hardwareFault code words | .otherError code words => readErrorOfCode code words
  | _ => .other (toString e)

def readFile (path : String) : IO (Except ReadError (List UInt8)) := do
  try
    return .ok (← IO.FS.readBinFile path).toList
  catch e =>
    return .error (readErrorOf e)

/-- The bytes of one line, its line feed included; none at the end of the input. -/
partial def readLine (input : IO.FS.Stream) (line : Array UInt8) : IO (List UInt8) := do
  match (← input.read 1).toList with
  | [] => return line.toList
  | byte :: _ =>
      if byte == 10 then return (line.push byte).toList
      else readLine input (line.push byte)

partial def converse (input output errors : IO.FS.Stream) : IO Command.Status := do
  output.putStr Command.promptMark
  output.flush
  match ← readLine input #[] with
  | [] =>
      output.putStr "\n"
      return .success
  | line =>
      match Command.answerLine line with
      | .error e =>
          errors.putStr (Command.complaint e)
          return .unreadable
      | .ok shown =>
          output.putStr shown.dump
          errors.putStr shown.reports
          converse input output errors

end LoxLexis.Program

open LoxLexis LoxLexis.Program in
/-- The program: its exit code is the command's. -/
def main (arguments : List String) : IO UInt32 := do
  let output ← IO.getStdout
  let errors ← IO.getStderr
  let status ← match arguments with
    | [] => converse (← IO.getStdin) output errors
    | _ => do
        let found ← match arguments with
          | [path] => readFile path
          | _ => pure (.error .missing)
        let outcome := Command.run arguments (fun _ => found) []
        output.putStr outcome.stdout
        errors.putStr outcome.stderr
        pure outcome.status
  output.flush
  return status.code.toUInt32
