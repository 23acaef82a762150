import DartLowering.Diff.Hunk
import DartLowering.Text.Decimal
import DartLowering.Text.Lines

/-!
Unified diffs of two texts. Lines are compared whole, or without the blanks at their ends; lines
that are kept are shown as the old text has them.
-/
namespace DartLowering.Diff

/-- A line as it is shown, and what is compared of it. -/
structure Line where
  content : String
  key : String
  deriving DecidableEq, Repr

def Line.of (ignoreBlanks : Bool) (content : String) : Line :=
  ⟨content, if ignoreBlanks then Text.trimRight content else content⟩

def Line.same (x y : Line) : Bool := x.key = y.key

/-- The lines of a text, without what ends them. An end of line at the end of the text starts no
further line. -/
def textLines (text : String) : List String :=
  if text = "" then []
  else
    (Text.pieces '\n' (Text.withoutSuffix ['\n'] (Text.unifyPairs text.toList))).map String.ofList

structure Settings where
  /-- How many kept lines surround a change. -/
  context : Nat := 3
  ignoreBlanks : Bool := false

/-- The changes between two texts. -/
structure Changes where
  hunks : List (Hunk Line)

/-- The steps from one text to another. -/
def textScript (ignoreBlanks : Bool) (old new : String) : List (Edit Line) :=
  let side text := (textLines text).map (Line.of ignoreBlanks)
  script Line.same (side old) (side new)

/-- The step after the context of the first change has a number that is a 64-bit word. -/
def hasReach (context : Nat) (edits : List (Edit Line)) : Bool :=
  let lead := (edits.takeWhile Edit.isKeep).length
  lead = edits.length || lead + context + 1 < Nat.pow 2 63

namespace Changes

def between (settings : Settings) (old new : String) : Changes :=
  ⟨Diff.hunks settings.context (textScript settings.ignoreBlanks old new)⟩

/-- The changes, unless the context is so large that its end cannot be numbered. -/
def between? (settings : Settings) (old new : String) : Option Changes :=
  if hasReach settings.context (textScript settings.ignoreBlanks old new) then
    some (between settings old new)
  else none

def any (c : Changes) : Bool := !c.hunks.isEmpty

def edits (c : Changes) : List (Edit Line) := c.hunks.flatMap (·.edits)

def added (c : Changes) : Nat := c.edits.countP Edit.isAdd

def removed (c : Changes) : Nat := c.edits.countP Edit.isRemove

end Changes

/-- The lines after the first `before` ones, `count` of them. A single line goes without its count,
and an empty range names the line before it. -/
def rangeText (before count : Nat) : String :=
  if count = 1 then Text.decimalNat (before + 1)
  else if count = 0 then Text.decimalNat before ++ ",0"
  else Text.decimalNat (before + 1) ++ "," ++ Text.decimalNat count

def Hunk.header {α : Type} (h : Hunk α) : String :=
  "@@ -" ++ rangeText h.oldBefore h.oldCount ++ " +" ++ rangeText h.newBefore h.newCount ++ " @@"

/-- A step as a line with its mark. -/
def Edit.text : Edit Line → String
  | .keep old _ => " " ++ old.content
  | .add new => "+" ++ new.content
  | .remove old => "-" ++ old.content

def Hunk.lines (h : Hunk Line) : List String := h.header :: h.edits.map Edit.text

/-- The changes under the names of both sides, nothing when there are none. -/
def Changes.text (oldName newName : String) (c : Changes) : String :=
  if c.any then
    String.join
      ((["--- " ++ oldName, "+++ " ++ newName] ++ c.hunks.flatMap Hunk.lines).map (· ++ "\n"))
  else ""

def unified (oldName newName old new : String) : String :=
  (Changes.between {} old new).text oldName newName

end DartLowering.Diff
