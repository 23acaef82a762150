import DartLowering.Source.Path
import DartLowering.Text.Decimal

/-!
Places in source files. Lines and columns count from one; a position with a line or column that is
not positive names no place.
-/
namespace DartLowering

structure Position where
  file : String := ""
  line : Int64 := 0
  column : Int64 := 0
  deriving DecidableEq, Repr, Inhabited

namespace Position

def isValid (p : Position) : Bool := 0 < p.line && 0 < p.column

def coordinates (p : Position) : String := Text.decimal p.line ++ ":" ++ Text.decimal p.column

def text (p : Position) : String :=
  if !p.isValid then if p.file ≠ "" then Path.base p.file else "<unknown>"
  else if p.file ≠ "" then Path.base p.file ++ ":" ++ p.coordinates
  else p.coordinates

/-- By file, then line, then column. -/
def before (p q : Position) : Bool :=
  if p.file ≠ q.file then p.file < q.file
  else if p.line ≠ q.line then p.line < q.line
  else p.column < q.column

end Position

/-- The places from `start` up to `stop`. -/
structure Span where
  start : Position := {}
  stop : Position := {}
  deriving DecidableEq, Repr, Inhabited

namespace Span

/-- The empty span at a place. -/
def point (p : Position) : Span := ⟨p, p⟩

def isValid (s : Span) : Bool :=
  s.start.isValid && s.stop.isValid && s.start.file = s.stop.file && !s.stop.before s.start

def text (s : Span) : String :=
  if s.start.line = s.stop.line && s.start.column = s.stop.column then s.start.text
  else
    let file := if s.start.file ≠ "" then Path.base s.start.file ++ ":" else ""
    let stop :=
      if s.start.line = s.stop.line then Text.decimal s.stop.column else s.stop.coordinates
    file ++ s.start.coordinates ++ "-" ++ stop

end Span

/-- A source file's lines, kept for messages. -/
structure SourceFile where
  name : String
  lines : List String

namespace SourceFile

def ofText (name content : String) : SourceFile := ⟨name, Text.split '\n' content⟩

/-- Line `n`, counted from one; empty outside the file. -/
def line (f : SourceFile) (n : Int64) : String :=
  if n < 1 || (f.lines.length : Int) < n.toInt then ""
  else (f.lines[(n.toInt - 1).toNat]?).getD ""

end DartLowering.SourceFile
