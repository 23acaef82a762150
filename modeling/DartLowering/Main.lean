import DartLowering.Command.Run
import Std.Time.Format

/-!
The command on real files.
-/
namespace DartLowering.Command

def faultOf : IO.Error → AccessFault
  | .noFileOrDirectory _ _ _ => .notFound
  | .noSuchThing _ _ _ => .notFound
  | .inappropriateType _ _ details => .other details.decapitalize
  | e => .other e.toString

/-- The outcome of an action on a path. -/
def guarded {α : Type} (step path : String) (action : IO α) : IO (Except AccessError α) := do
  try
    return .ok (← action)
  catch e =>
    return .error ⟨step, path, faultOf e⟩

def realFiles : Files IO where
  read path := guarded "open" path (IO.FS.readFile path)
  write path content := guarded "open" path (IO.FS.writeFile path content)
  makeDirectory path := guarded "mkdir" path (IO.FS.createDirAll path)
  observe path := do
    match ← guarded "open" path (IO.FS.realPath path) with
    | .ok _ => return none
    | .error e => return some e.fault

def showOutcome (o : Outcome) : IO Unit := do
  IO.print o.output
  for notice in o.notices do
    IO.eprint (notice.shown (← Std.Time.PlainTime.now).toTime24Hour)

/-- Lowers inputs again whenever their content has changed. -/
partial def keepWatching (plan : Plan) (inputs : List String) (seen : List (Option String)) :
    IO Unit := do
  IO.sleep 100
  let now ← inputs.mapM fun i => do return (← realFiles.read i).toOption
  let changed := (inputs.zip (seen.zip now)).filterMap fun (i, old, new) =>
    if new.isSome && old ≠ new then some i else none
  unless changed.isEmpty do
    match ← plan.run realFiles "" changed with
    | .ok o => showOutcome o
    | .error f => IO.eprint (errorLine f)
  keepWatching plan inputs now

end DartLowering.Command

open DartLowering DartLowering.Command

def main (arguments : List String) : IO UInt32 := do
  let input ← if arguments.contains "-" then (← IO.getStdin).readToEnd else pure ""
  let setting : Setting :=
    { build := ⟨"unknown", "unknown", "linux", "amd64"⟩
      processors := 1
      coloured := ← (← IO.getStderr).isTty
      cancelled := false
      input }
  match ← run realFiles setting arguments with
  | .error f =>
      IO.eprint (errorLine f)
      return 2
  | .ok outcome =>
      showOutcome outcome
      match outcome.watching with
      | some (plan, inputs) =>
          keepWatching plan inputs (← inputs.mapM fun i => do return (← realFiles.read i).toOption)
          return 0
      | none => return UInt32.ofNat outcome.code
