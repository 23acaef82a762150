import DartLowering.Dump.Resolve
import DartLowering.Json.Key
import DartLowering.Json.Writer
import DartLowering.Source.Access
import DartLowering.Target.Package

/-!
Settings of a run. They come from a file, whose members replace the defaults one by one, and are
checked before any unit is read.
-/
namespace DartLowering.Command

structure Config where
  verbose : Bool := false
  debug : Bool := false
  outputDirectory : String := ""
  package : String := Package.default
  release : String := Release.first.text
  /-- How many units may be in work at once. -/
  jobs : Int64
  passThrough : String := TypeEnv.defaultPassThrough
  listRecord : String := TypeEnv.defaultListRecord
  deriving DecidableEq, Repr

namespace Config

/-- The members of the file, in order. -/
def members (c : Config) : List (String × Json) :=
  [("verbose", .bool c.verbose), ("debug", .bool c.debug),
    ("output_dir", .ofText c.outputDirectory), ("runtime_package", .ofText c.package),
    ("runtime_version", .ofText c.release), ("jobs", .ofWord c.jobs),
    ("pass_through_type", .ofText c.passThrough),
    ("va_list_record", .ofText c.listRecord)]

def text (c : Config) : String := (Json.ofMembers c.members).indented 0

/-- A value that a member sets; null sets nothing. -/
def readFlag (set : Bool → Config) (c : Config) : Json → Option Config
  | .null => some c
  | .bool value => some (set value)
  | _ => none

def readText (set : String → Config) (c : Config) : Json → Option Config
  | .null => some c
  | .string _ value => some (set value)
  | _ => none

def readWord (set : Int64 → Config) (c : Config) : Json → Option Config
  | .null => some c
  | .number source => (Number.readDecimal? source).map set
  | _ => none

/-- One member taken over. Members with other names mean nothing. -/
def takeMember (c : Config) (key : String) (value : Json) : Option Config :=
  match Json.foldKey key with
  | "verbose" => readFlag (fun v => { c with verbose := v }) c value
  | "debug" => readFlag (fun v => { c with debug := v }) c value
  | "output_dir" => readText (fun v => { c with outputDirectory := v }) c value
  | "runtime_package" => readText (fun v => { c with package := v }) c value
  | "runtime_version" => readText (fun v => { c with release := v }) c value
  | "jobs" => readWord (fun v => { c with jobs := v }) c value
  | "pass_through_type" => readText (fun v => { c with passThrough := v }) c value
  | "va_list_record" => readText (fun v => { c with listRecord := v }) c value
  | _ => some c

def takeMembers (c : Config) : List (String × Json) → Option Config
  | [] => some c
  | (key, value) :: ms =>
      match c.takeMember key value with
      | none => none
      | some c => c.takeMembers ms

/-- The settings with a file's members taken over, `none` when the file holds something else. -/
def take (c : Config) : Json → Option Config
  | .null => some c
  | .object _ members => c.takeMembers members
  | _ => none

def ofText? (defaults : Config) (text : String) : Option Config :=
  (Json.readWhole text).bind defaults.take

/-- The settings in the file at `path`. Without a path or a file they are the defaults. -/
def load {m : Type → Type} [Monad m] (files : Files m) (defaults : Config) (path : String) :
    m (Result Config) := do
  if path = "" then return .ok defaults
  match ← files.read path with
  | .error e =>
      if e.fault = .notFound then return .ok defaults else return .error (e.report "read" path)
  | .ok text =>
      match defaults.ofText? text with
      | some c => return .ok c
      | none => return .error (.of (.invalidConfig path "failed to parse config file: JSON"))

def save {m : Type → Type} [Monad m] (files : Files m) (c : Config) (path : String) :
    m (Result Unit) := do
  match ← files.write path c.text with
  | .error e => return .error (e.report "write" path)
  | .ok () => return .ok ()

def validate (c : Config) : Result Unit := do
  Package.checkName c.package
  Package.checkRelease c.release
  let refuse (field text : String) : Result Unit := .error (.of (.invalidConfig field text))
  if c.jobs < 1 then refuse "jobs" ("must be at least 1, got " ++ Text.decimal c.jobs)
  if c.passThrough = "" then refuse "pass_through_type" "must not be empty"
  if c.listRecord = "" then refuse "va_list_record" "must not be empty"

/-- The names that mark the two special types in dumps. -/
def markers (c : Config) : Dump.Markers := ⟨c.passThrough, c.listRecord⟩

end DartLowering.Command.Config
