/-!
Smaller candidates for a failing input. An integer moves towards zero, a list loses one of its
halves or gets a smaller head.
-/
namespace DartLowering.Check

/-- Zero, half of `v` and its neighbour towards zero. -/
def shrinkWord (v : Int64) : List Int64 :=
  if v = 0 then [] else [0, v / 2, if 0 < v then v - 1 else v + 1]

/-- Both halves, then the list with each smaller head. -/
def shrinkList {α : Type} (shrink : α → List α) : List α → List (List α)
  | [] => []
  | x :: xs =>
      let half := (x :: xs).length / 2
      [(x :: xs).take half, (x :: xs).drop half] ++ (shrink x).map (· :: xs)

/-- The first candidate that still fails, again and again, for at most `rounds` rounds; with the
number of rounds used. A round that finds none is the last and counts. -/
def minimise {α : Type} (shrink : α → List α) (holds : α → Bool) : (rounds : Nat) → α → α × Nat
  | 0, best => (best, 0)
  | rounds + 1, best =>
      match (shrink best).find? fun c => !holds c with
      | none => (best, 1)
      | some c =>
          let (least, used) := minimise shrink holds rounds c
          (least, used + 1)

end DartLowering.Check
