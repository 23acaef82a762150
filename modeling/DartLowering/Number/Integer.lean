/-!
Integer texts. A literal may carry a sign, a base mark (`0x`, `0b`, `0o` or a plain leading `0` for
octal) and underscores between digits. Digits are read from the left, so a text can be refused as
too large before a later character is seen to be no digit.
-/
namespace DartLowering.Number

/-- Why an integer text is refused. -/
inductive IntegerFault
  | malformed
  | outOfRange
  deriving DecidableEq, Repr

def digitValue (c : Char) : Option Nat :=
  if '0' ≤ c && c ≤ '9' then some (c.toNat - '0'.toNat)
  else if 'a' ≤ c && c ≤ 'z' then some (c.toNat - 'a'.toNat + 10)
  else if 'A' ≤ c && c ≤ 'Z' then some (c.toNat - 'A'.toNat + 10)
  else none

/-- The value of `cs` after the digits read so far, below `limit`. -/
def digitsFrom (base limit : Nat) (underscores : Bool) (acc : Nat) :
    List Char → Except IntegerFault Nat
  | [] => .ok acc
  | c :: cs =>
      if underscores && c = '_' then digitsFrom base limit underscores acc cs
      else
        match digitValue c with
        | none => .error .malformed
        | some d =>
            if base ≤ d then .error .malformed
            else if limit ≤ acc * base + d then .error .outOfRange
            else digitsFrom base limit underscores (acc * base + d) cs

/-- The base that a text announces, and its digits. -/
def baseAndDigits : List Char → Nat × List Char
  | '0' :: m :: d :: cs =>
      if m = 'b' || m = 'B' then (2, d :: cs)
      else if m = 'o' || m = 'O' then (8, d :: cs)
      else if m = 'x' || m = 'X' then (16, d :: cs)
      else (8, m :: d :: cs)
  | '0' :: cs => (8, cs)
  | cs => (10, cs)

/-- What stands directly before a position in an integer text. -/
inductive Before
  | start
  | digit
  | underscore
  | other
  deriving DecidableEq

/-- Each underscore follows a digit and is followed by one. -/
def underscoresFrom (hex : Bool) (before : Before) : List Char → Bool
  | [] => before ≠ .underscore
  | c :: cs =>
      let isDigit := ('0' ≤ c && c ≤ '9') ||
        (hex && (('a' ≤ c && c ≤ 'f') || ('A' ≤ c && c ≤ 'F')))
      if isDigit then underscoresFrom hex .digit cs
      else if c = '_' then
        if before = .digit then underscoresFrom hex .underscore cs else false
      else if before = .underscore then false
      else underscoresFrom hex .other cs

/-- A base mark counts as a digit where underscores are concerned. -/
def underscoresPlaced : List Char → Bool
  | '0' :: m :: cs =>
      if m = 'x' || m = 'X' then underscoresFrom true .digit cs
      else if m = 'b' || m = 'B' || m = 'o' || m = 'O' then underscoresFrom false .digit cs
      else underscoresFrom false .start ('0' :: m :: cs)
  | cs => underscoresFrom false .start cs

def wordLimit : Nat := Nat.pow 2 64

/-- An unsigned literal below 2^64. -/
def readUnsigned (cs : List Char) : Except IntegerFault Nat :=
  if cs.isEmpty then .error .malformed
  else
    let (base, digits) := baseAndDigits cs
    match digitsFrom base wordLimit true 0 digits with
    | .error fault => .error fault
    | .ok n =>
        if digits.contains '_' && !underscoresPlaced cs then .error .malformed else .ok n

/-- The magnitude fits a word of the given sign. -/
def withSign (negative : Bool) (n : Nat) : Except IntegerFault Int64 :=
  if negative then
    if n ≤ Nat.pow 2 63 then .ok (Int64.ofInt (-(n : Int))) else .error .outOfRange
  else if n < Nat.pow 2 63 then .ok (Int64.ofNat n) else .error .outOfRange

/-- A literal with an optional sign that fits a signed word. -/
def readSigned : List Char → Except IntegerFault Int64
  | '+' :: cs => readUnsigned cs >>= withSign false
  | '-' :: cs => readUnsigned cs >>= withSign true
  | cs => readUnsigned cs >>= withSign false

/-- A literal that fits a word, signed or not; large unsigned values keep their bit pattern. -/
def readWord? (s : String) : Option Int64 :=
  match readSigned s.toList with
  | .ok v => some v
  | .error _ =>
      match readUnsigned s.toList with
      | .ok n => some (UInt64.ofNat n).toInt64
      | .error _ => none

/-- A nonempty run of decimal digits below 2^64. -/
def readPlain (cs : List Char) : Except IntegerFault Nat :=
  if cs.isEmpty then .error .malformed else digitsFrom 10 wordLimit false 0 cs

/-- A decimal text with an optional minus sign that fits a signed word. -/
def readDecimal? (s : String) : Option Int64 :=
  let r := match s.toList with
    | '-' :: cs => readPlain cs >>= withSign true
    | cs => readPlain cs >>= withSign false
  r.toOption

end DartLowering.Number
