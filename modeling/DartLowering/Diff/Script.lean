/-!
Shortest edit scripts between two lists. A table holds, for every suffix of the old list and every
suffix of the new one, the length of their longest common subsequence. The script walks both lists
from the front: equal items are kept, otherwise it adds where that leaves a longer common
subsequence and removes where it does not.
-/
namespace DartLowering.Diff

/-- One step of a script. -/
inductive Edit (α : Type)
  | keep (old new : α)
  | add (new : α)
  | remove (old : α)
  deriving DecidableEq, Repr

namespace Edit

variable {α : Type}

/-- The item of the old list that a step uses up. -/
def old? : Edit α → Option α
  | .keep old _ => some old
  | .add _ => none
  | .remove old => some old

/-- The item of the new list that a step uses up. -/
def new? : Edit α → Option α
  | .keep _ new => some new
  | .add new => some new
  | .remove _ => none

def isKeep : Edit α → Bool
  | .keep _ _ => true
  | _ => false

def isAdd : Edit α → Bool
  | .add _ => true
  | _ => false

def isRemove : Edit α → Bool
  | .remove _ => true
  | _ => false

end Edit

section

variable {α : Type} (same : α → α → Bool)

/-- The lengths for the old suffix that starts with `x`, against each suffix of the new list, from
the lengths `below` for the old suffix after `x`. -/
def rowAbove (x : α) : List α → List Nat → List Nat
  | [], _ => [0]
  | y :: ys, below =>
      let rest := rowAbove x ys below.tail
      let here :=
        if same x y then below.tail.headD 0 + 1 else max (below.headD 0) (rest.headD 0)
      here :: rest

/-- A row of lengths for every suffix of the old list, the longest suffix first. -/
def lengths (new : List α) : List α → List (List Nat)
  | [] => [List.replicate (new.length + 1) 0]
  | x :: xs =>
      let below := lengths new xs
      rowAbove same x new (below.headD []) :: below

/-- The script for what is left of both lists. `rows` are the rows of the old rest, and `column`
items of the new list are used up. -/
def scriptFrom (rows : List (List Nat)) (column : Nat) : List α → List α → List (Edit α)
  | [], [] => []
  | [], y :: ys => .add y :: scriptFrom rows (column + 1) [] ys
  | x :: xs, [] => .remove x :: scriptFrom rows.tail column xs []
  | x :: xs, y :: ys =>
      if same x y then .keep x y :: scriptFrom rows.tail (column + 1) xs ys
      else if (rows.tail.headD []).getD column 0 < (rows.headD []).getD (column + 1) 0 then
        .add y :: scriptFrom rows (column + 1) (x :: xs) ys
      else .remove x :: scriptFrom rows.tail column xs (y :: ys)
termination_by old new => old.length + new.length

def script (old new : List α) : List (Edit α) :=
  scriptFrom same (lengths same new old) 0 old new

end

end DartLowering.Diff
