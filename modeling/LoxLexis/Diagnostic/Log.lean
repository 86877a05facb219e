import LoxLexis.Scan

/-!
# Fault logs

A log gathers the faults of any number of scans, and faults reported by hand, until it is cleared.
`perform` carries out one action on a log; a look at the log leaves it as it is.
-/

namespace LoxLexis

/-- The faults reported since the log was last cleared, oldest first. -/
structure Log where
  faults : Array Fault
deriving DecidableEq

namespace Log

def empty : Log := ⟨#[]⟩

def report (log : Log) (f : Fault) : Log :=
  ⟨log.faults.push f⟩

inductive Action where
  | scan (source : String)
  | report (f : Fault)
  | clear
  /-- The report on one fault of the log, as one in the given source and file. -/
  | render (index : Nat) (source file : String)
  /-- Whether two faults of the log are the same. -/
  | compare (first second : Nat)

inductive Reply where
  | tokens (ts : List Token)
  | done
  | text (s : String)
  | same (answer : Bool)
  /-- The log is shorter than the index asked for. -/
  | noSuchFault
deriving DecidableEq

def perform (log : Log) : Action → Reply × Log
  | .scan source =>
      let (tokens, after) := LoxLexis.scan Log.report log source
      (.tokens tokens, after)
  | .report f => (.done, log.report f)
  | .clear => (.done, empty)
  | .render index source file =>
      match log.faults[index]? with
      | some f => (.text (f.report source file), log)
      | none => (.noSuchFault, log)
  | .compare first second =>
      match log.faults[first]?, log.faults[second]? with
      | some f, some g => (.same (f == g), log)
      | _, _ => (.noSuchFault, log)

/-- Carries out actions one after the other, and gives each reply with the log after it. -/
def performAll (log : Log) : List Action → List (Reply × Log)
  | [] => []
  | action :: rest =>
      let next := log.perform action
      next :: next.2.performAll rest

end Log

end LoxLexis
