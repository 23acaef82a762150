import DartLowering.Lower.Names
import DartLowering.Source.Failure
import DartLowering.Syntax.Stmt
import DartLowering.Target.Code

/-!
Numbering the cases of a switch. Cases of the source fall through into the next one, emitted cases
do not, so each emitted case carries a label and ends by going on at the label of its successor in
the source. Explicit cases take the labels 1 to n in source order; the default takes n + 1, since it
is emitted last wherever it stands.
-/
namespace DartLowering.Lower

/-- The labels of the cases from the explicit label `next` on, `total` explicit cases in all. -/
def labelsFrom (total next : Nat) : List SwitchCase → List Nat
  | [] => []
  | c :: cs =>
      if c.isDefault then (total + 1) :: labelsFrom total next cs
      else next :: labelsFrom total (next + 1) cs

def caseLabels (cases : List SwitchCase) : List Nat :=
  labelsFrom (cases.countP fun c => !c.isDefault) 1 cases

/-- The second default of a switch. -/
def secondDefault? (cases : List SwitchCase) : Option SwitchCase :=
  (cases.filter SwitchCase.isDefault)[1]?

/-- Control never reaches the end of such a body. -/
def endsInJump (body : List Stmt) : Bool :=
  match body.getLast? with
  | some (.brk _) | some (.cont _) | some (.ret _ _) => true
  | _ => false

/-- The exit of a case: on to the label after it in the source, or out of the switch. -/
def caseExit (depth : Nat) (following : List Nat) (body : List Stmt) : List CodeStmt :=
  if endsInJump body then []
  else
    match following with
    | [] => [.brk]
    | label :: _ => [.contAt (switchLabel depth label)]

end DartLowering.Lower
