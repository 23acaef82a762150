import DartLowering.Source.Failure
import DartLowering.Target.Release

/-!
The package that holds the runtime library, and the modules of it that emitted files import.
-/
namespace DartLowering.Package

def default : String := "this"

/-- The modules of the wrapper types, the two library modules and the object base class. -/
def modules : List String :=
  ["c/types.dart", "libc/stdlib.dart", "libc/stdarg.dart", "objc/NSObject.dart"]

/-- The imports of an emitted file; the empty name stands for the usual package. -/
def imports (package : String) : List String :=
  let package := if package = "" then default else package
  modules.map fun m => "package:" ++ package ++ "/" ++ m

/-- A lower-case letter, then lower-case letters, digits and underscores. -/
def isName (package : String) : Bool :=
  match package.toList with
  | [] => false
  | c :: cs => c.isLower && cs.all fun c => c.isLower || c.isDigit || c = '_'

def checkName (package : String) : Result Unit :=
  if isName package then .ok ()
  else
    .error (.of (.invalidConfig "runtime_package"
      (Text.quote package ++ " is not a valid Dart package name")))

/-- Emitted code runs on the release that `version` names. -/
def checkRelease (version : String) : Result Unit :=
  let refuse (text : String) : Result Unit := .error (.of (.invalidConfig "runtime_version" text))
  match Release.read version with
  | .error fault => refuse ("invalid version " ++ Text.quote version ++ ": " ++ fault.text)
  | .ok release =>
      match release.obstacle? with
      | some obstacle =>
          refuse ("runtime " ++ release.text ++ " is outside " ++ Release.supported ++ ": " ++
            obstacle)
      | none => .ok ()

end DartLowering.Package
