import DartLowering.Number.Integer
import DartLowering.Text.Decimal
import DartLowering.Text.Lines
import DartLowering.Text.Quoted

/-!
Releases of the runtime library. A version is up to three numbers, then perhaps the identifiers of a
prerelease and of a build; numbers that are left out are zero.
-/
namespace DartLowering

structure Release where
  major : Nat
  minor : Nat
  patch : Nat
  prerelease : String := ""
  build : String := ""
  deriving DecidableEq, Repr

/-- Why a text is no version. -/
inductive ReleaseFault
  | malformed
  /-- A numeric identifier of a prerelease has a zero in front. -/
  | leadingZero
  | tooLarge (digits : String)
  deriving DecidableEq, Repr

def ReleaseFault.text : ReleaseFault → String
  | .malformed => "Invalid Semantic Version"
  | .leadingZero => "Version segment starts with 0"
  | .tooLarge digits =>
      "Error parsing version segment: strconv.ParseUint: parsing " ++ Text.quote digits ++
        ": value out of range"

namespace Release

/-- The digits of a further number, none when no dot with a digit follows. -/
def takeFurther : List Char → List Char × List Char
  | '.' :: cs =>
      match cs.span Char.isDigit with
      | ([], _) => ([], '.' :: cs)
      | digitsAndRest => digitsAndRest
  | cs => ([], cs)

def isIdentifierChar (c : Char) : Bool := c.isAlphanum || c = '-'

/-- Identifiers after `mark`, with dots between them; `none` when one of them is empty. -/
def takeIdentifiers (mark : Char) (cs : List Char) : Option (List Char × List Char) :=
  match cs with
  | [] => some ([], [])
  | c :: rest =>
      if c = mark then
        let (ids, rest) := rest.span fun c => isIdentifierChar c || c = '.'
        if (Text.pieces '.' ids).any List.isEmpty then none else some (ids, rest)
      else some ([], cs)

def hasLeadingZero (identifier : List Char) : Bool :=
  identifier.all Char.isDigit && 1 < identifier.length && identifier.head? = some '0'

def number (digits : List Char) : Except ReleaseFault Nat :=
  if digits.isEmpty then .ok 0
  else
    match Number.readPlain digits with
    | .ok n => .ok n
    | .error _ => .error (.tooLarge (String.ofList digits))

def read (text : String) : Except ReleaseFault Release :=
  let cs :=
    match text.toList with
    | 'v' :: cs => cs
    | cs => cs
  let (major, cs) := cs.span Char.isDigit
  let (minor, cs) := takeFurther cs
  let (patch, cs) := takeFurther cs
  if major.isEmpty then .error .malformed
  else
    match takeIdentifiers '-' cs with
    | none => .error .malformed
    | some (prerelease, cs) =>
        match takeIdentifiers '+' cs with
        | some (build, []) => do
            let major ← number major
            let minor ← number minor
            let patch ← number patch
            if (Text.pieces '.' prerelease).any hasLeadingZero then .error .leadingZero
            else
              .ok ⟨major, minor, patch, String.ofList prerelease, String.ofList build⟩
        | _ => .error .malformed

def text (r : Release) : String :=
  Text.join "." ([r.major, r.minor, r.patch].map Text.decimalNat) ++
    (if r.prerelease = "" then "" else "-" ++ r.prerelease) ++
    (if r.build = "" then "" else "+" ++ r.build)

/-- By the three numbers. -/
def before (r s : Release) : Bool :=
  if r.major ≠ s.major then r.major < s.major
  else if r.minor ≠ s.minor then r.minor < s.minor
  else r.patch < s.patch

/-- The first release that emitted code runs on. -/
def first : Release := ⟨1, 0, 0, "", ""⟩

/-- The first release after it that emitted code does not run on. -/
def next : Release := ⟨2, 0, 0, "", ""⟩

def supported : String := ">= " ++ first.text ++ ", < " ++ next.text

/-- Why emitted code does not run on a release. -/
def obstacle? (r : Release) : Option String :=
  if r.prerelease ≠ "" then
    some (r.text ++
      " is a prerelease version and the constraint is only looking for release versions")
  else if r.before first then some (r.text ++ " is less than " ++ first.text)
  else if !r.before next then some (r.text ++ " is greater than or equal to " ++ next.text)
  else none

end DartLowering.Release
