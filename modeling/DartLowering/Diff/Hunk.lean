import DartLowering.Diff.Script

/-!
Hunks: the changes of an edit script in groups, each with the kept items around it. Two changes
share a hunk when at most twice the context lies between them, so neighbouring hunks never touch.
-/
namespace DartLowering.Diff

/-- A run of steps, and how many items of both lists come before it. -/
structure Hunk (α : Type) where
  oldBefore : Nat
  newBefore : Nat
  edits : List (Edit α)
  deriving Repr

namespace Hunk

variable {α : Type}

def oldCount (h : Hunk α) : Nat := (h.edits.filterMap Edit.old?).length

def newCount (h : Hunk α) : Nat := (h.edits.filterMap Edit.new?).length

end Hunk

section

variable {α : Type}

/-- How many steps there are up to the last change that belongs to the group, when `gap` items have
been kept since the change before. -/
def reach (limit gap : Nat) : List (Edit α) → Nat
  | [] => 0
  | e :: es =>
      if e.isKeep then
        match reach limit (gap + 1) es with
        | 0 => 0
        | n + 1 => n + 2
      else if limit < gap then 0
      else reach limit 0 es + 1

/-- The hunks of what is left of a script. `skipped` are the kept steps since the last hunk, the
latest first; `old` and `new` items are used up. -/
def hunksFrom (context old new : Nat) (skipped : List (Edit α)) : List (Edit α) → List (Hunk α)
  | [] => []
  | e :: es =>
      if e.isKeep then hunksFrom context (old + 1) (new + 1) (e :: skipped) es
      else
        let lead := (skipped.take context).reverse
        let rest := reach (2 * context) 0 es + context
        let hunk : Hunk α :=
          ⟨old - lead.length, new - lead.length, lead ++ e :: es.take rest⟩
        hunk :: hunksFrom context (hunk.oldBefore + hunk.oldCount)
          (hunk.newBefore + hunk.newCount) [] (es.drop rest)
termination_by edits => edits.length

def hunks (context : Nat) (edits : List (Edit α)) : List (Hunk α) := hunksFrom context 0 0 [] edits

end

end DartLowering.Diff
