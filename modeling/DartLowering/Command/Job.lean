import DartLowering.Dump.Resolve
import DartLowering.Lower.Unit
import DartLowering.Text.Normal

/-!
From a dump's text to the text of the emitted file, and the names that go with it.
-/
namespace DartLowering.Command

/-- Where the file of an input goes: next to it, or into `directory` when one is given. -/
def outputPath (input directory : String) : String :=
  let name := Path.withoutExtension input input ++ ".dart"
  if directory = "" then name else Path.join directory (Path.base name)

/-- What a unit is called when its dump gives no name. -/
def unitName (source : String) : String :=
  if source = "-" then "stdin" else Path.withoutExtension (Path.base source) source

/-- The outcome of one unit and what was told on the way. -/
structure Emission where
  output : Result String
  progress : List String := []

/-- A run over one dump. -/
structure Job where
  source : String
  markers : Dump.Markers
  package : String
  cancelled : Bool

def Job.finish (job : Job) : Result Dump.Loaded → Emission
  | .error failure => { output := .error failure }
  | .ok loaded =>
      let name := if loaded.unit.name = "" then unitName job.source else loaded.unit.name
      let unit := { loaded.unit with name }
      { output := do
          let text ← Lower.generate loaded.env job.package job.cancelled (some unit)
          .ok (Text.normalise false text)
        progress := Lower.progress loaded.env job.cancelled unit }

def Job.run (job : Job) (text : String) : Emission :=
  job.finish (Dump.ofText job.source job.markers text)

end DartLowering.Command
