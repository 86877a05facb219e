import LoxLexis.Diagnostic.Log
import LoxLexis.Main
import LoxLexis.Proofs.FaultAutomaton
import LoxLexis.Proofs.LineByLine
import LoxLexis.Proofs.LineEnding
import LoxLexis.Proofs.LineNumber
import LoxLexis.Proofs.LongestMatch
import LoxLexis.Proofs.NumberValue
import LoxLexis.Proofs.Rescan
import LoxLexis.Proofs.TokenData
import LoxLexis.Proofs.Dump
import LoxLexis.Proofs.SourceLine
import LoxLexis.Proofs.FaultLog
import LoxLexis.Proofs.Text.Utf8
import LoxLexis.Proofs.Prompt
import LoxLexis.Proofs.Lookahead
import LoxLexis.Proofs.Transcript
import LoxLexis.Proofs.Binary64.Interval
import LoxLexis.Proofs.Binary64.Window
import LoxLexis.Proofs.Binary64.Shortest
import LoxLexis.Proofs.Decimal.Written
import LoxLexis.Proofs.NumberText
import LoxLexis.Proofs.Opaque
import LoxLexis.Proofs.NumberRescan
import LoxLexis.Proofs.Text.Escape
import LoxLexis.Proofs.ReportLayout
import LoxLexis.Proofs.ReportIdentity
import LoxLexis.Proofs.Admissible
import LoxLexis.Proofs.FileRun
import LoxLexis.Proofs.Cursor.Machine
import LoxLexis.Proofs.Cursor.Reading
import LoxLexis.Proofs.Cursor.Safety
import LoxLexis.Proofs.FileTree
