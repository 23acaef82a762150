import DartLowering.Diagnostic.Log
import DartLowering.Text.LowerCase

/-!
The printed form of diagnostics. A caret line below the source line marks the column: it is indented
by the column and the six characters that a line number of up to four digits takes with its
separator.
-/
namespace DartLowering

def Severity.colour : Severity → String
  | .error => "\x1b[31m"
  | .warning => "\x1b[33m"
  | .info => "\x1b[34m"
  | .unrecognised _ => ""

namespace Diagnostic

def colourReset : String := "\x1b[0m"

/-- How often a character can be repeated. -/
def longestRun : Int64 := 281474976710656

/-- `count` times the same character. A negative count cannot be printed, nor can one beyond the
longest run. -/
def repeated (c : Char) (count : Int64) : Result String :=
  if count < 0 || longestRun < count then .error .crash
  else .ok (String.ofList (List.replicate count.toInt.toNat c))

/-- How many characters the span covers on its first line. -/
def width (span : Span) : Int64 :=
  if span.stop.line = span.start.line && span.start.column < span.stop.column then
    span.stop.column - span.start.column
  else 1

def caretLine (span : Span) : Result String := do
  .ok ((← repeated ' ' (6 + span.start.column)) ++ (← repeated '^' (width span)) ++ "\n")

/-- The context from line `number` on, with the caret line after the span's first line. -/
def contextText (span : Span) (number : Int64) : List String → Result String
  | [] => .ok ""
  | line :: lines => do
      let shown := Text.padLeft 4 (Text.decimal number) ++ " | " ++ line ++ "\n"
      let caret ← if number = span.start.line then caretLine span else .ok ""
      .ok (shown ++ caret ++ (← contextText span (number + 1) lines))

def headline (coloured : Bool) (d : Diagnostic) : String :=
  let label := d.severity.name ++ if d.code = "" then "" else "[" ++ d.code ++ "]"
  (if coloured then d.severity.colour ++ label ++ colourReset else label) ++ ": " ++
    d.message ++ "\n"

def placeLine (d : Diagnostic) : String :=
  if d.file = "" then ""
  else
    "  --> " ++ d.file ++
      (if d.span.start.isValid then ":" ++ d.span.start.coordinates else "") ++ "\n"

def adviceText (d : Diagnostic) : String :=
  (if d.explanation = "" then "" else "  = note: " ++ d.explanation ++ "\n") ++
    String.join (d.fixes.map fun fix => "  = help: " ++ fix ++ "\n")

def text (coloured : Bool) (d : Diagnostic) : Result String := do
  .ok (d.headline coloured ++ d.placeLine ++ (← contextText d.span d.firstLine d.context) ++
    d.adviceText)

end Diagnostic

namespace DiagnosticLog

/-- The categories of the entries, each once and in order. -/
def categories (log : DiagnosticLog) : List String :=
  ((log.entries.map (·.category)).mergeSort fun a b => !(b < a)).eraseDups

def countOf (log : DiagnosticLog) (category : String) : Nat :=
  log.entries.countP fun d => d.category = category

def summary (log : DiagnosticLog) : String :=
  if log.entries.isEmpty then "No diagnostics."
  else
    "Found " ++ Text.decimalNat log.errors ++ " error(s) and " ++ Text.decimalNat log.warnings ++
      " warning(s).\n\nBreakdown by category:" ++
      String.join (log.categories.map fun c =>
        "\n  " ++ Text.lowerCase c ++ ": " ++ Text.decimalNat (log.countOf c))

end DiagnosticLog

end DartLowering
