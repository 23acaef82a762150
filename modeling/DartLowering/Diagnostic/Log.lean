import DartLowering.Diagnostic.Basic

/-!
The diagnostics of one run. Errors beyond the limit are dropped; everything else is kept in the
order in which it came, until it is sorted.
-/
namespace DartLowering

structure DiagnosticLog where
  entries : List Diagnostic := []
  errors : Nat := 0
  warnings : Nat := 0
  limit : Int := 100
  /-- Lines of source files, the latest first, and none for a file that cannot be read. -/
  sources : List (String × Option (List String)) := []

namespace DiagnosticLog

def setLimit (limit : Int) (log : DiagnosticLog) : DiagnosticLog := { log with limit }

/-- Makes the lines of a file known, in place of what was known of it. -/
def addSource (file text : String) (log : DiagnosticLog) : DiagnosticLog :=
  let lines := (Text.pieces '\n' (Text.unifyPairs text.toList)).map String.ofList
  { log with sources := (file, some lines) :: log.sources }

/-- Remembers that a file cannot be read, so that it is tried once. -/
def addUnreadable (file : String) (log : DiagnosticLog) : DiagnosticLog :=
  { log with sources := (file, none) :: log.sources }

/-- The file was made known, or tried. -/
def knows (log : DiagnosticLog) (file : String) : Bool := log.sources.any fun s => s.1 = file

def lines? (log : DiagnosticLog) (file : String) : Option (List String) :=
  (log.sources.find? fun s => s.1 = file).bind (·.2)

/-- The diagnostic with its context and advice. -/
def complete (log : DiagnosticLog) (d : Diagnostic) : Result Diagnostic := do
  let d ← d.withContext (log.lines? d.file)
  .ok d.withAdvice

/-- No further error is taken. -/
def isFull (log : DiagnosticLog) : Bool := log.limit ≤ (log.errors : Int)

/-- The diagnostic is an error, and no further one is taken. -/
def turnsAway (log : DiagnosticLog) (d : Diagnostic) : Bool := d.severity = .error && log.isFull

def append (d : Diagnostic) (log : DiagnosticLog) : DiagnosticLog :=
  { log with
    entries := log.entries ++ [d]
    errors := log.errors + if d.severity = .error then 1 else 0
    warnings := log.warnings + if d.severity = .warning then 1 else 0 }

/-- Takes a diagnostic that is not turned away. -/
def enter (d : Diagnostic) (log : DiagnosticLog) : Result DiagnosticLog := do
  .ok (log.append (← log.complete d))

def hasErrors (log : DiagnosticLog) : Bool := 0 < log.errors

/-- Sorted by place and severity; equal ones keep their order. -/
def sort (log : DiagnosticLog) : DiagnosticLog :=
  { log with entries := log.entries.mergeSort fun d e => !e.before d }

end DartLowering.DiagnosticLog
