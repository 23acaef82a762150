import DartLowering.Text.Lines
import DartLowering.Text.Space

/-!
Text archives: a comment, then named sections. A section starts after a line `-- name --`, and every
part that is not empty ends in a line feed.
-/
namespace DartLowering.Golden

structure Section where
  name : String
  content : String
  deriving DecidableEq, Repr

structure Archive where
  comment : String
  sections : List Section
  deriving DecidableEq, Repr

/-- The name in a section's first line. -/
def markerName? (line : List Char) : Option String :=
  if ['-', '-', ' '].isPrefixOf line && [' ', '-', '-'].isSuffixOf line && 6 ≤ line.length then
    let name := Text.trim ((line.drop 3).take (line.length - 6))
    if name.isEmpty then none else some (String.ofList name)
  else none

/-- The text with a line feed at its end, unless it is empty. -/
def terminated (text : String) : String :=
  if text.isEmpty || text.toList.getLast? = some '\n' then text else text ++ "\n"

/-- The text before the first section, and the sections. The last line of the text has no line
feed. -/
def partsOf : List (List Char) → List Char × List Section
  | [] => ([], [])
  | line :: lines =>
      let (content, sections) := partsOf lines
      match markerName? line with
      | some name => ([], ⟨name, String.ofList content⟩ :: sections)
      | none =>
          (if lines.isEmpty then line else line ++ '\n' :: content, sections)

namespace Archive

def ofText (text : String) : Archive :=
  let (comment, sections) := partsOf (Text.pieces '\n' text.toList)
  ⟨terminated (String.ofList comment),
    sections.map fun s => { s with content := terminated s.content }⟩

def text (a : Archive) : String :=
  terminated a.comment ++
    String.join (a.sections.map fun s => "-- " ++ s.name ++ " --\n" ++ terminated s.content)

/-- The content of the first section of that name. -/
def find? (a : Archive) (name : String) : Option String :=
  (a.sections.find? fun s => s.name = name).map (·.content)

def setIn (name content : String) : List Section → List Section
  | [] => [⟨name, content⟩]
  | s :: ss => if s.name = name then ⟨name, content⟩ :: ss else s :: setIn name content ss

/-- Replaces the first section of that name, or puts a new one at the end. -/
def set (name content : String) (a : Archive) : Archive :=
  { a with sections := setIn name content a.sections }

end DartLowering.Golden.Archive
