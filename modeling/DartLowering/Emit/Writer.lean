import DartLowering.Text.Lines

/-!
A text that grows at its end. The blanks in front of a line are written with the first characters of
the line, so that empty lines stay empty.
-/
namespace DartLowering

structure Writer where
  text : String := ""
  /-- The number of blocks around the end of the text. -/
  level : Nat := 0
  /-- Nothing was written in the last line. -/
  atLineStart : Bool := true

namespace Writer

def print (w : Writer) (s : String) : Writer :=
  if s = "" then w
  else
    let margin := if w.atLineStart then Text.spaces (2 * w.level) else ""
    { w with text := w.text ++ margin ++ s, atLineStart := false }

def newline (w : Writer) : Writer := { w with text := w.text ++ "\n", atLineStart := true }

def deeper (w : Writer) : Writer := { w with level := w.level + 1 }

def shallower (w : Writer) : Writer := { w with level := w.level - 1 }

@[simp] theorem print_empty (w : Writer) : w.print "" = w := rfl

/-- What is written in two steps may be written in one. -/
@[simp] theorem print_print (w : Writer) (s t : String) :
    (w.print s).print t = w.print (s ++ t) := by
  by_cases hs : s = ""
  · subst hs
    rw [print_empty, String.empty_append]
  by_cases ht : t = ""
  · subst ht
    rw [print_empty, String.append_empty]
  have happend : s ++ t ≠ "" := fun h => hs (String.append_eq_empty_iff.mp h).1
  simp [print, hs, ht, happend, String.append_assoc]

theorem print_congr (w : Writer) {s t : String} (h : s.toList = t.toList) : w.print s = w.print t :=
  congrArg w.print (String.toList_inj.mp h)

end DartLowering.Writer
