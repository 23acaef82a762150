import DartLowering.Command.Config
import DartLowering.Command.Log
import DartLowering.Command.Options
import DartLowering.Command.Job
import DartLowering.Command.Version
import DartLowering.Command.Watch
import DartLowering.Diagnostic.Text
import DartLowering.Diff.Unified

/-!
A run of the command. Each input is read, lowered and written, compared or printed on its own; what
went wrong is told at the end, in the order of its places. The exit code is zero when all went well,
one when a unit failed and two when the command line or the settings are no good.
-/
namespace DartLowering.Command

/-- What a run is given besides the arguments. -/
structure Setting where
  build : Build
  /-- How many units may be in work at once by default. -/
  processors : Int64
  coloured : Bool
  cancelled : Bool
  input : String

/-- What came of one unit. -/
structure UnitOutcome where
  output : String := ""
  notices : List Notice := []
  failure : Option Failure := none

/-- How units are handled. -/
structure Plan where
  config : Config
  diff : Bool
  coloured : Bool
  cancelled : Bool

/-- What a run leaves behind apart from files. -/
structure Outcome where
  code : Nat
  output : String := ""
  notices : List Notice := []
  /-- The inputs that are lowered again when they change, and how. -/
  watching : Option (Plan × List String) := none

namespace Plan

def filter (p : Plan) : LogFilter := ⟨p.config.verbose, p.config.debug⟩

def destination (p : Plan) (input : String) : String := outputPath input p.config.outputDirectory

def emission (p : Plan) (input text : String) : Emission :=
  Job.run ⟨input, p.config.markers, p.config.package, p.cancelled⟩ text

end Plan

section

variable {m : Type → Type} [Monad m] (files : Files m)

/-- Writes the file, in a directory that is made where it is missing. -/
def storeOutput (path content : String) : m (Result Unit) := do
  let directory := Path.directory path
  match ← files.makeDirectory directory with
  | .error e => return .error (e.report "create directory" directory)
  | .ok () =>
      match ← files.write path content with
      | .error e => return .error (e.report "write" path)
      | .ok () => return .ok ()

/-- Makes `content` the content of the file, which is left alone when it is already. -/
def writeOutput (path content : String) : m (Result Unit) := do
  match ← files.read path with
  | .ok old => if old = content then return .ok () else storeOutput files path content
  | .error _ => storeOutput files path content

/-- The differences between the file and `content`; a missing file is empty. -/
def diffOutput (path content : String) : m (Result String) := do
  let shown (old : String) := Diff.unified ("a/" ++ path) ("b/" ++ path) old content
  match ← files.read path with
  | .ok old => return .ok (shown old)
  | .error e =>
      if e.fault = .notFound then return .ok (shown "") else return .error (e.report "read" path)

/-- What becomes of a unit's emitted text. -/
def Plan.deliver (p : Plan) (input content : String) : m UnitOutcome := do
  let path := p.destination input
  if input = "-" then return { output := content }
  else if p.diff then
    match ← diffOutput files path content with
    | .ok text => return { output := text }
    | .error failure => return { failure := some failure }
  else
    match ← writeOutput files path content with
    | .ok () => return { notices := p.filter.notices .info ("wrote " ++ path) }
    | .error failure => return { failure := some failure }

/-- One unit, from the text of its dump on. -/
def Plan.finish (p : Plan) (input text : String) : m UnitOutcome := do
  let emission := p.emission input text
  let told := p.filter.notices .info ("translating " ++ input) ++
    emission.progress.flatMap (p.filter.notices .debug)
  match emission.output with
  | .error failure => return { notices := told, failure := some failure }
  | .ok content =>
      let outcome ← p.deliver files input content
      return { outcome with notices := told ++ outcome.notices }

/-- One unit. The name `-` stands for the standard input. -/
def Plan.unit (p : Plan) (standardInput input : String) : m UnitOutcome := do
  if input = "-" then p.finish files input standardInput
  else
    match ← files.read input with
    | .error e => return { failure := some (e.report "read" input) }
    | .ok text => p.finish files input text

/-- The units in order. The standard input can be read once. -/
def Plan.units (p : Plan) (standardInput : String) : List String → m (List UnitOutcome)
  | [] => return []
  | input :: inputs => do
      let outcome ← p.unit files standardInput input
      let rest ← p.units (if input = "-" then "" else standardInput) inputs
      return outcome :: rest

/-- The log with one more diagnostic, unless it is turned away. The source file that it points at is
read where nothing is known of it. -/
def record (log : DiagnosticLog) (d : Diagnostic) : m (Result DiagnosticLog) := do
  if log.turnsAway d then return .ok log
  else if d.isPlaced && !log.knows d.file then
    match ← files.read d.file with
    | .ok text => return (log.addSource d.file text).enter d
    | .error _ => return (log.addUnreadable d.file).enter d
  else return log.enter d

def recordFailure (log : DiagnosticLog) (failure : Failure) : m (Result DiagnosticLog) :=
  record files log (.ofFailure failure)

def recordFailures (log : DiagnosticLog) : List Failure → m (Result DiagnosticLog)
  | [] => return .ok log
  | failure :: failures => do
      match ← recordFailure files log failure with
      | .error broken => return .error broken
      | .ok log => recordFailures log failures

/-- The diagnostics in order, and a summary of several. -/
def diagnosticText (coloured : Bool) (log : DiagnosticLog) : Result String := do
  let log := log.sort
  let texts ← log.entries.mapM (Diagnostic.text coloured)
  .ok (String.join texts ++ if 1 < log.entries.length then log.summary ++ "\n" else "")

/-- All inputs, and what went wrong with them. -/
def Plan.run (p : Plan) (standardInput : String) (inputs : List String) : m (Result Outcome) := do
  let units ← p.units files standardInput inputs
  let failures := units.filterMap (·.failure)
  let output := String.join (units.map (·.output))
  let notices := units.flatMap (·.notices)
  if failures.any Failure.isCrash then return .error .crash
  else
    match ← recordFailures files {} failures with
    | .error broken => return .error broken
    | .ok log =>
        if log.hasErrors then
          match diagnosticText p.coloured log with
          | .error failure => return .error failure
          | .ok text => return .ok { code := 1, output, notices := notices ++ [.text text] }
        else return .ok { code := 0, output, notices }

/-- The settings of the file and of the command line together. -/
def Options.applyTo (o : Options) (c : Config) : Config :=
  { c with
    outputDirectory := o.output.getD c.outputDirectory
    jobs := o.jobs.getD c.jobs
    verbose := o.verbose.getD c.verbose
    debug := o.debug.getD c.debug }

/-- A run that is over before a unit is touched. -/
def refused (text : String) : Outcome := { code := 2, notices := [.text text] }

def errorLine (f : Failure) : String := "error: " ++ f.message ++ "\n"

/-- The settings a run works with. -/
def Options.settings (o : Options) (processors : Int64) : m (Result Config) := do
  match ← Config.load files { jobs := processors } o.config with
  | .error failure => return .error failure
  | .ok config =>
      let config := o.applyTo config
      match config.validate with
      | .error failure => return .error failure
      | .ok () => return .ok config

/-- Observes the inputs after a first pass over them. -/
def Plan.watch (p : Plan) (inputs : List String) (first : Outcome) : m Outcome := do
  match ← observeAll files (watched inputs) with
  | some fault =>
      let text := "error: watching inputs: " ++ fault.text ++ "\n"
      return { first with code := 1, notices := first.notices ++ [.text text] }
  | none =>
      let told := p.filter.notices .info
        ("watching " ++ Text.decimalNat inputs.length ++ " input(s)")
      return { first with
        code := 0
        notices := first.notices ++ told
        watching := if p.cancelled then none else some (p, inputs) }

/-- A run over the inputs with settings that are in order. -/
def Options.perform (o : Options) (s : Setting) (config : Config) : m (Result Outcome) := do
  if o.inputs.isEmpty then return .ok (refused usage)
  else if o.watch && o.inputs.contains "-" then
    return .ok (refused "error: -watch cannot read from stdin\n")
  else
    let plan : Plan := ⟨config, o.diff, s.coloured, s.cancelled⟩
    match ← plan.run files s.input o.inputs with
    | .error failure => return .error failure
    | .ok first =>
        if o.watch then return .ok (← plan.watch files o.inputs first) else return .ok first

/-- The whole command. -/
def run (s : Setting) (arguments : List String) : m (Result Outcome) := do
  match request arguments with
  | .help => return .ok { code := 0, notices := [.text usage] }
  | .refused fault => return .ok (refused (fault.text ++ "\n" ++ usage))
  | .run o =>
      if o.version then
        return .ok
          { code := 0, output := if o.json then s.build.jsonText tool else s.build.text tool }
      else
        match ← o.settings files s.processors with
        | .error failure => return .ok (refused (errorLine failure))
        | .ok config => o.perform files s config

end

end DartLowering.Command
