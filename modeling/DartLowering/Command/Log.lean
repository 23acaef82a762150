/-!
Lines that tell what a run does. Informative lines are shown on request, debugging lines only when
debugging is on, and it shows both.
-/
namespace DartLowering.Command

inductive LogLevel
  | info
  | debug
  | warn
  | error
  deriving DecidableEq, Repr

def LogLevel.name : LogLevel → String
  | .info => "INFO"
  | .debug => "DEBUG"
  | .warn => "WARN"
  | .error => "ERROR"

structure LogFilter where
  verbose : Bool
  debug : Bool

def LogFilter.shows (f : LogFilter) : LogLevel → Bool
  | .info => f.verbose || f.debug
  | .debug => f.debug
  | .warn | .error => true

/-- What appears beside the output of a run: a log line, which gets its time when it is shown, or
other text. -/
inductive Notice
  | log (level : LogLevel) (message : String)
  | text (content : String)
  deriving DecidableEq, Repr

def Notice.shown (time : String) : Notice → String
  | .log level message => "[" ++ level.name ++ "] " ++ time ++ ": " ++ message ++ "\n"
  | .text content => content

/-- The log line, where the filter shows it. -/
def LogFilter.notices (f : LogFilter) (level : LogLevel) (message : String) : List Notice :=
  if f.shows level then [.log level message] else []

end DartLowering.Command
