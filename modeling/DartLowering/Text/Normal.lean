import DartLowering.Text.Lines

/-!
Normal form of a text: no blanks at the ends of lines, no empty lines at the end, every line closed
by the same separator.
-/
namespace DartLowering.Text

/-- Both kinds of line end become a line feed. -/
def unifyLineEnds (cs : List Char) : List Char :=
  (unifyPairs cs).map fun c => if c = '\r' then '\n' else c

def dropEmptyTail (lines : List (List Char)) : List (List Char) :=
  (lines.reverse.dropWhile List.isEmpty).reverse

/-- The lines of a text without blanks at their ends and without empty lines at the end. -/
def normalLines (cs : List Char) : List (List Char) :=
  dropEmptyTail ((pieces '\n' (unifyLineEnds cs)).map (dropTrailing isBlank))

/-- The separator of the normal form: pairs are kept only on demand and only where one occurs. -/
def separator (preservePairs : Bool) (cs : List Char) : List Char :=
  if preservePairs && hasPair cs then ['\r', '\n'] else ['\n']

def normalise (preservePairs : Bool) (text : String) : String :=
  let cs := text.toList
  let sep := separator preservePairs cs
  String.ofList (joined sep (normalLines cs) ++ sep)

end DartLowering.Text
