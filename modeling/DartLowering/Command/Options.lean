import DartLowering.Number.Integer
import DartLowering.Text.Quoted

/-!
The command line: flags, then the inputs. A flag starts with one or two dashes; its value follows an
equals sign or, for flags that are no switches, is the next argument.
-/
namespace DartLowering.Command

inductive Flag
  | config | debug | diff | jobs | json | output | verbose | version | watch
  deriving DecidableEq, Repr

namespace Flag

/-- All flags, by name. -/
def all : List Flag := [.config, .debug, .diff, .jobs, .json, .output, .verbose, .version, .watch]

def name : Flag → String
  | .config => "config"
  | .debug => "debug"
  | .diff => "diff"
  | .jobs => "j"
  | .json => "json"
  | .output => "o"
  | .verbose => "v"
  | .version => "version"
  | .watch => "watch"

/-- What stands for the value in the usage text; a switch has none. -/
def value? : Flag → Option String
  | .config => some "file"
  | .jobs => some "n"
  | .output => some "dir"
  | _ => none

def isSwitch (f : Flag) : Bool := f.value?.isNone

def help : Flag → String
  | .config => "load configuration from file"
  | .debug => "log each emitted declaration"
  | .diff => "print a unified diff against the existing output instead of writing it"
  | .jobs => "translate at most n units at once"
  | .json => "print version information as JSON"
  | .output => "write generated files to dir instead of next to the inputs"
  | .verbose => "log each unit"
  | .version => "show version information"
  | .watch => "regenerate when an input changes"

def ofName? (name : String) : Option Flag := all.find? fun f => f.name = name

/-- The flag and what it does. A flag as short as a tab stop shares its line with the text. -/
def usage (f : Flag) : String :=
  let head := "  -" ++ f.name ++ match f.value? with
    | some value => " " ++ value
    | none => ""
  head ++ (if head.length ≤ 4 then "\t" else "\n    \t") ++ f.help ++ "\n"

end Flag

def tool : String := "objc2dart"

def usage : String :=
  "usage: " ++ tool ++ " [flags] dump.json... (use - for stdin)\n\nflags:\n" ++
    String.join (Flag.all.map Flag.usage)

/-- Why a command line is refused. -/
inductive OptionFault
  | badForm (argument : String)
  | unknownFlag (name : String)
  | missingValue (name : String)
  | badSwitch (value name : String)
  | badNumber (value name : String) (fault : Number.IntegerFault)
  deriving DecidableEq, Repr

def OptionFault.text : OptionFault → String
  | .badForm argument => "bad flag syntax: " ++ argument
  | .unknownFlag name => "flag provided but not defined: -" ++ name
  | .missingValue name => "flag needs an argument: -" ++ name
  | .badSwitch value name =>
      "invalid boolean value " ++ Text.quote value ++ " for -" ++ name ++ ": parse error"
  | .badNumber value name fault =>
      "invalid value " ++ Text.quote value ++ " for flag -" ++ name ++ ": " ++
        match fault with
        | .malformed => "parse error"
        | .outOfRange => "value out of range"

/-- What the command line asks for. Settings that it does not mention are `none`. -/
structure Options where
  config : String := ""
  output : Option String := none
  jobs : Option Int64 := none
  verbose : Option Bool := none
  debug : Option Bool := none
  diff : Bool := false
  watch : Bool := false
  version : Bool := false
  json : Bool := false
  inputs : List String := []
  deriving DecidableEq, Repr

/-- What a command line comes to. -/
inductive Request
  | run (options : Options)
  | help
  | refused (fault : OptionFault)
  deriving DecidableEq, Repr

def readSwitch (value : String) : Option Bool :=
  if ["1", "t", "T", "TRUE", "true", "True"].contains value then some true
  else if ["0", "f", "F", "FALSE", "false", "False"].contains value then some false
  else none

namespace Options

def setSwitch (o : Options) (on : Bool) : Flag → Options
  | .debug => { o with debug := some on }
  | .diff => { o with diff := on }
  | .json => { o with json := on }
  | .verbose => { o with verbose := some on }
  | .version => { o with version := on }
  | .watch => { o with watch := on }
  | .config | .jobs | .output => o

def setValue (o : Options) (f : Flag) (value : String) : Except OptionFault Options :=
  match f with
  | .config => .ok { o with config := value }
  | .output => .ok { o with output := some value }
  | .jobs =>
      match Number.readSigned value.toList with
      | .ok n => .ok { o with jobs := some n }
      | .error fault => .error (.badNumber value f.name fault)
  | _ =>
      match readSwitch value with
      | some on => .ok (o.setSwitch on f)
      | none => .error (.badSwitch value f.name)

end Options

/-- An argument as a flag. -/
inductive FlagForm
  /-- No flag: the inputs begin here. -/
  | input
  /-- Two dashes alone: the inputs begin after them. -/
  | stop
  | bad
  | flag (name : String) (value : Option String)

/-- The text before the first equals sign and the text after it. -/
def splitValue (cs : List Char) : String × Option String :=
  match cs.span (· ≠ '=') with
  | (name, _ :: value) => (String.ofList name, some (String.ofList value))
  | (name, []) => (String.ofList name, none)

def flagForm (argument : String) : FlagForm :=
  let named : List Char → FlagForm
    | [] => .bad
    | c :: cs =>
        if c = '-' || c = '=' then .bad
        else
          let (name, value) := splitValue (c :: cs)
          .flag name value
  match argument.toList with
  | ['-', '-'] => .stop
  | '-' :: '-' :: cs => named cs
  | ['-'] => .input
  | '-' :: cs => named cs
  | _ => .input

/-- The request that the arguments make after those taken so far. -/
def requestFrom (o : Options) : List String → Request
  | [] => .run o
  | argument :: rest =>
      match flagForm argument with
      | .input => .run { o with inputs := argument :: rest }
      | .stop => .run { o with inputs := rest }
      | .bad => .refused (.badForm argument)
      | .flag name value =>
          match Flag.ofName? name with
          | none => if name = "help" || name = "h" then .help else .refused (.unknownFlag name)
          | some f =>
              match value with
              | some value =>
                  match o.setValue f value with
                  | .error fault => .refused fault
                  | .ok o => requestFrom o rest
              | none =>
                  if f.isSwitch then requestFrom (o.setSwitch true f) rest
                  else
                    match rest with
                    | [] => .refused (.missingValue name)
                    | value :: rest =>
                        match o.setValue f value with
                        | .error fault => .refused fault
                        | .ok o => requestFrom o rest

def request (arguments : List String) : Request := requestFrom {} arguments

end DartLowering.Command
