import DartLowering.Diff.Unified
import DartLowering.Golden.Archive
import DartLowering.Golden.Pattern

/-!
Cases with recorded answers, one archive each. A check compares an answer with its section; while
the cases are being updated it records the answer instead, and `flush` writes the archive back.
-/
namespace DartLowering.Golden

structure Case where
  name : String
  path : String
  archive : Archive
  /-- Holds answers that the file does not have yet. -/
  changed : Bool := false

/-- The case in a file. -/
def Case.load (d : Directory) (path : String) : Except String Case :=
  match d.read path with
  | .error e => .error (path ++ ": " ++ e.text)
  | .ok text =>
      .ok { name := Path.withoutExtension (Path.base path) path, path, archive := .ofText text }

/-- Every case that fits a pattern, by path. Where there is none, something is wrong. -/
def load (d : Directory) (pattern : String) : Except String (List Case) :=
  match paths d pattern with
  | none => .error ("golden pattern " ++ Text.quote pattern ++ ": syntax error in pattern")
  | some [] => .error ("no golden files match " ++ Text.quote pattern)
  | some paths => (paths.mergeSort fun a b => !(b < a)).mapM (Case.load d)

namespace Case

def section? (c : Case) (name : String) : Option String := c.archive.find? name

/-- The section, or the complaint that it is missing. -/
def require (c : Case) (name : String) : Except String String :=
  match c.section? name with
  | some content => .ok content
  | none => .error (c.path ++ ": no section " ++ Text.quote name)

/-- The complaint about an answer that differs from its section, if any, and the case afterwards. -/
def check (updating : Bool) (name answer : String) (c : Case) : Option String × Case :=
  match c.section? name with
  | some recorded =>
      if recorded = answer then (none, c)
      else if updating then (none, { c with archive := c.archive.set name answer, changed := true })
      else
        (some (c.path ++ ": " ++ name ++ " differs from golden\n" ++
          Diff.unified ("want/" ++ name) ("got/" ++ name) recorded answer), c)
  | none =>
      if updating then (none, { c with archive := c.archive.set name answer, changed := true })
      else
        (some (c.path ++ ": no section " ++ Text.quote name ++ "; run with -update to create it"),
          c)

/-- Writes the archive back where it has changed. -/
def flush (c : Case) (d : Directory) : Except String (Case × Directory) :=
  if c.changed then
    match d.write c.path c.archive.text with
    | .error e => .error ("writing " ++ c.path ++ ": " ++ e.text)
    | .ok d => .ok ({ c with changed := false }, d)
  else .ok (c, d)

end DartLowering.Golden.Case
