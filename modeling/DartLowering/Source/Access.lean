import DartLowering.Source.Failure

/-!
Access to files by name. A program that reads and writes files is given the four operations it
needs, so that it runs alike on a directory value and on real files.
-/
namespace DartLowering

/-- Why a file cannot be used. -/
inductive AccessFault
  | notFound
  | notDirectory
  | isDirectory
  | invalidName
  | nameTooLong
  | other (text : String)
  deriving DecidableEq, Repr

def AccessFault.text : AccessFault → String
  | .notFound => "no such file or directory"
  | .notDirectory => "not a directory"
  | .isDirectory => "is a directory"
  | .invalidName => "invalid argument"
  | .nameTooLong => "file name too long"
  | .other text => text

/-- The step that failed, on which path, and why. -/
structure AccessError where
  step : String
  path : String
  fault : AccessFault
  deriving DecidableEq, Repr

namespace AccessError

def text (e : AccessError) : String := e.step ++ " " ++ e.path ++ ": " ++ e.fault.text

def failure (e : AccessError) : Failure := .plain e.text

/-- The report that `operation` on `path` failed. -/
def report (operation path : String) (e : AccessError) : Failure :=
  .report (.fileAccess operation path) {} (some e.failure)

end AccessError

/-- Operations on files, by path. -/
structure Files (m : Type → Type) where
  read : String → m (Except AccessError String)
  /-- Replaces the content of a file, which need not be there before. -/
  write : String → String → m (Except AccessError Unit)
  /-- Makes a directory and those above it, where they are missing. -/
  makeDirectory : String → m (Except AccessError Unit)
  /-- Why changes at a path cannot be observed. -/
  observe : String → m (Option AccessFault)

end DartLowering
