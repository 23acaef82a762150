import DartLowering.Source.Access

/-!
Observation of inputs. The directories of the inputs are observed, so that a file which is replaced
stays in view.
-/
namespace DartLowering.Command

/-- What happened to a file, as a set of bits. -/
structure FileEvent where
  bits : UInt32
  deriving DecidableEq, Repr

namespace FileEvent

def created : UInt32 := 1

def written : UInt32 := 2

/-- The content of the file may be another one afterwards. -/
def changed (e : FileEvent) : Bool := e.bits &&& (created ||| written) ≠ 0

end FileEvent

/-- The directories of the inputs, each once. -/
def watched (inputs : List String) : List String :=
  (inputs.map fun i => Path.directory (Path.clean i)).eraseDups

/-- Why one of the directories cannot be observed. -/
def observeAll {m : Type → Type} [Monad m] (files : Files m) : List String → m (Option AccessFault)
  | [] => return none
  | directory :: rest => do
      match ← files.observe directory with
      | some fault => return some fault
      | none => observeAll files rest

end DartLowering.Command
