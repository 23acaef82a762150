import DartLowering.Source.Failure

/-!
Diagnostics: failures as they are told to the user, with the source lines around their place and
advice for the codes that have some.
-/
namespace DartLowering

inductive Severity
  | error
  | warning
  | info
  | unrecognised (code : Int64)
  deriving DecidableEq, Repr

namespace Severity

def ofCode (code : Int64) : Severity :=
  if code = 0 then .error else if code = 1 then .warning else if code = 2 then .info
  else .unrecognised code

/-- The order of severities, the gravest first. -/
def code : Severity → Int64
  | .error => 0
  | .warning => 1
  | .info => 2
  | .unrecognised code => code

def name : Severity → String
  | .error => "error"
  | .warning => "warning"
  | .info => "info"
  | .unrecognised _ => "unknown"

end Severity

structure Diagnostic where
  severity : Severity := .error
  category : String := ""
  code : String := ""
  message : String := ""
  span : Span := {}
  file : String := ""
  /-- Source lines around the place, the first of them with number `firstLine`. -/
  context : List String := []
  firstLine : Int64 := 0
  explanation : String := ""
  fixes : List String := []
  deriving Repr

namespace Diagnostic

/-- A failure without a report is one of access, at no place. -/
def ofFailure (f : Failure) : Diagnostic :=
  match f.report? with
  | none => { category := "IO", message := f.message }
  | some (cause, position, origin) =>
      { category := cause.category
        code := cause.code
        message :=
          match origin with
          | none => cause.text
          | some inner => cause.text ++ ": " ++ inner.message
        span := .point position
        file := if position.file = "" then cause.path?.getD "" else position.file }

/-- Why a failure with this code is one. -/
def explanationFor : String → String
  | "UNSUPPORTED_CONSTRUCT" =>
      "The construct has no equivalent in the runtime library, so the unit cannot be translated."
  | "VARIABLE_LENGTH_ARRAY" =>
      "Runtime wrappers have a size fixed at allocation, and the size of a variable-length " ++
        "array is known only at run time."
  | "NON_CONSTANT_CASE" => "Case labels become Dart case constants and must fold to an integer."
  | "UNION_TOO_SMALL" =>
      "A value converted to a union is stored at offset zero and must fit inside it."
  | "INVARIANT_VIOLATION" =>
      "The front-end dump contains a node the generator never expects to see. This is a bug in " ++
        "the front end or the generator."
  | "MALFORMED_DUMP" => "The input is not a valid front-end dump."
  | _ => ""

/-- What to change in the input. -/
def fixesFor : String → List String
  | "VARIABLE_LENGTH_ARRAY" => ["use a fixed-size array or allocate the buffer with malloc"]
  | "NON_CONSTANT_CASE" => ["replace the label with an integer constant expression"]
  | _ => []

/-- Advice where the diagnostic brings none of its own. -/
def withAdvice (d : Diagnostic) : Diagnostic :=
  { d with
    explanation := if d.explanation = "" then explanationFor d.code else d.explanation
    fixes := if d.fixes.isEmpty then fixesFor d.code else d.fixes }

/-- The lines between two indices. These have to be in order and within the list. -/
def slice (lines : List String) (low high : Int64) : Result (List String) :=
  if 0 ≤ low ∧ low ≤ high ∧ high.toInt ≤ lines.length then
    .ok ((lines.take high.toInt.toNat).drop low.toInt.toNat)
  else .error .crash

/-- Up to two lines on either side of the span's lines, and the number of the first. -/
def window (lines : List String) (span : Span) : Result (List String × Int64) :=
  let stop := if span.stop.line < span.start.line then span.start.line else span.stop.line
  let first := max 1 (span.start.line - 2)
  let last := min (Int64.ofNat lines.length) (stop + 2)
  if last < first then .ok ([], 0)
  else do
    let shown ← slice lines (first - 1) last
    .ok (shown, first)

/-- The diagnostic is at a place in a file, so that source lines can be shown. -/
def isPlaced (d : Diagnostic) : Bool := d.file ≠ "" && d.span.start.isValid

/-- The source lines around the place, when the file's lines are known. -/
def withContext (lines : Option (List String)) (d : Diagnostic) : Result Diagnostic :=
  match lines with
  | some lines =>
      if d.isPlaced then do
        let (context, firstLine) ← window lines d.span
        .ok { d with context, firstLine }
      else .ok d
  | none => .ok d

/-- By file, line, column and severity. -/
def before (d e : Diagnostic) : Bool :=
  if d.file ≠ e.file then d.file < e.file
  else if d.span.start.line ≠ e.span.start.line then d.span.start.line < e.span.start.line
  else if d.span.start.column ≠ e.span.start.column then d.span.start.column < e.span.start.column
  else d.severity.code < e.severity.code

end DartLowering.Diagnostic
