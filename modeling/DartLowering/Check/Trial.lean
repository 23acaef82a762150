import DartLowering.Check.Shrink

/-!
Checks of a property on many inputs. Trial `i` has an input of its own; what is kept of the trials
finished so far does not depend on their order, and the failing trial with the lowest number is the
one reported.
-/
namespace DartLowering.Check

/-- What is known after some trials. -/
structure Tally (α : Type) where
  passed : Nat := 0
  /-- The lowest failing trial and its input. -/
  failing : Option (Nat × α) := none
  deriving DecidableEq, Repr

/-- The tally after trial `i` on `input`. -/
def Tally.note {α : Type} (holds : α → Bool) (t : Tally α) (trial : Nat × α) : Tally α :=
  if holds trial.2 then { t with passed := t.passed + 1 }
  else
    match t.failing with
    | none => { t with failing := some trial }
    | some (j, _) => if trial.1 < j then { t with failing := some trial } else t

structure Settings where
  trials : Nat
  rounds : Nat

/-- Counts that are not positive mean two hundred. -/
def Settings.ofCounts (trials rounds : Int) : Settings :=
  ⟨if trials ≤ 0 then 200 else trials.toNat, if rounds ≤ 0 then 200 else rounds.toNat⟩

/-- A failing input and the smallest one found from it. -/
structure Counterexample (α : Type) where
  failing : α
  shrunk : α
  rounds : Nat

structure Report (α : Type) where
  passed : Nat
  counterexample : Option (Counterexample α)

/-- The trials in the order of their numbers. -/
def Settings.inputs {α : Type} (s : Settings) (input : Nat → α) : List (Nat × α) :=
  (List.range s.trials).map fun i => (i, input i)

/-- What a tally says, with its failing input made smaller where that can be done. -/
def Tally.report {α : Type} (rounds : Nat) (shrink : Option (α → List α)) (holds : α → Bool)
    (t : Tally α) : Report α :=
  ⟨t.passed, t.failing.map fun (_, input) =>
    match shrink with
    | none => ⟨input, input, 0⟩
    | some shrink =>
        let (shrunk, used) := minimise shrink holds rounds input
        ⟨input, shrunk, used⟩⟩

def forAll {α : Type} (s : Settings) (input : Nat → α) (shrink : Option (α → List α))
    (holds : α → Bool) : Report α :=
  ((s.inputs input).foldl (Tally.note holds) {}).report s.rounds shrink holds

end DartLowering.Check
