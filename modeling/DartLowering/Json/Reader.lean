import DartLowering.Json.Value
import DartLowering.Number.Double

/-!
Reading JSON. `readFirst` takes the first value of a text and leaves what follows it, `readWhole`
accepts a text that holds one value and blanks. Arrays and objects nest up to `maxNesting` deep.
-/
namespace DartLowering.Json

def maxNesting : Nat := 10000

def isBlank (c : Char) : Bool := c = ' ' || c = '\t' || c = '\n' || c = '\r'

def skipBlank (cs : List Char) : List Char := cs.dropWhile isBlank

def isDigit (c : Char) : Bool := '0' ≤ c && c ≤ '9'

def takeDigits (cs : List Char) : List Char × List Char :=
  (cs.takeWhile isDigit, cs.dropWhile isDigit)

/-- A run of at least one digit. -/
def readDigits (cs : List Char) : Option (List Char × List Char) :=
  match takeDigits cs with
  | ([], _) => none
  | r => some r

/-- The digits before the point: no zero stands before another digit. -/
def readWholePart : List Char → Option (List Char × List Char)
  | '0' :: cs => some (['0'], cs)
  | cs => readDigits cs

/-- A mark and the digits it requires, or nothing where the mark is missing. -/
def readFraction : List Char → Option (List Char × List Char)
  | '.' :: cs => (readDigits cs).map fun r => ('.' :: r.1, r.2)
  | cs => some ([], cs)

def readExponent : List Char → Option (List Char × List Char)
  | e :: cs =>
      if e = 'e' || e = 'E' then
        match cs with
        | '+' :: cs => (readDigits cs).map fun r => (e :: '+' :: r.1, r.2)
        | '-' :: cs => (readDigits cs).map fun r => (e :: '-' :: r.1, r.2)
        | cs => (readDigits cs).map fun r => (e :: r.1, r.2)
      else some ([], e :: cs)
  | [] => some ([], [])

def readSign : List Char → List Char × List Char
  | '-' :: cs => (['-'], cs)
  | cs => ([], cs)

def readNumber (cs : List Char) : Option (List Char × List Char) := do
  let (sign, cs) := readSign cs
  let (whole, cs) ← readWholePart cs
  let (fraction, cs) ← readFraction cs
  let (exponent, cs) ← readExponent cs
  some (sign ++ whole ++ fraction ++ exponent, cs)

def hexValue (c : Char) : Option Nat :=
  if '0' ≤ c && c ≤ '9' then some (c.toNat - '0'.toNat)
  else if 'a' ≤ c && c ≤ 'f' then some (c.toNat - 'a'.toNat + 10)
  else if 'A' ≤ c && c ≤ 'F' then some (c.toNat - 'A'.toNat + 10)
  else none

/-- The code unit written by four hexadecimal digits. -/
def codeUnit (a b c d : Char) : Option Nat := do
  let a ← hexValue a
  let b ← hexValue b
  let c ← hexValue c
  let d ← hexValue d
  some (((a * 16 + b) * 16 + c) * 16 + d)

def isHighSurrogate (n : Nat) : Bool := 0xD800 ≤ n && n < 0xDC00

def isLowSurrogate (n : Nat) : Bool := 0xDC00 ≤ n && n < 0xE000

def replacement : Char := Char.ofNat 0xFFFD

def simpleEscape : Char → Option Char
  | '"' => some '"'
  | '\\' => some '\\'
  | '/' => some '/'
  | 'b' => some (Char.ofNat 8)
  | 'f' => some (Char.ofNat 12)
  | 'n' => some '\n'
  | 'r' => some '\r'
  | 't' => some '\t'
  | _ => none

/-- One piece of a string: the characters that spell it and what they denote. -/
inductive Piece
  | plain (c : Char)
  | escaped (spelling : List Char) (c : Char)
  /-- A code unit that is half of a pair. -/
  | half (spelling : List Char) (unit : Nat)

/-- The pieces up to the closing quote, and what follows it. -/
def readPieces : List Char → Option (List Piece × List Char)
  | [] => none
  | '"' :: cs => some ([], cs)
  | '\\' :: 'u' :: a :: b :: c :: d :: cs =>
      match codeUnit a b c d with
      | none => none
      | some unit =>
          let spelling := ['\\', 'u', a, b, c, d]
          let piece :=
            if isHighSurrogate unit || isLowSurrogate unit then Piece.half spelling unit
            else .escaped spelling (Char.ofNat unit)
          (readPieces cs).map fun r => (piece :: r.1, r.2)
  | '\\' :: e :: cs =>
      match simpleEscape e with
      | none => none
      | some c => (readPieces cs).map fun r => (.escaped ['\\', e] c :: r.1, r.2)
  | c :: cs =>
      if c.toNat < 0x20 || c = '\\' then none
      else (readPieces cs).map fun r => (.plain c :: r.1, r.2)

def Piece.spelling : Piece → List Char
  | .plain c => [c]
  | .escaped spelling _ => spelling
  | .half spelling _ => spelling

/-- The characters denoted. Two halves that belong together make one character, a half that stands
alone is replaced. -/
def denote : List Piece → List Char
  | [] => []
  | .half _ high :: .half s low :: ps =>
      if isHighSurrogate high && isLowSurrogate low then
        Char.ofNat (0x10000 + (high - 0xD800) * 0x400 + (low - 0xDC00)) :: denote ps
      else replacement :: denote (.half s low :: ps)
  | .half _ _ :: ps => replacement :: denote ps
  | .plain c :: ps => c :: denote ps
  | .escaped _ c :: ps => c :: denote ps

/-- A string after its opening quote: source, value and rest. -/
def readString (cs : List Char) : Option (String × String × List Char) :=
  (readPieces cs).map fun (pieces, rest) =>
    (String.ofList ('"' :: pieces.flatMap Piece.spelling ++ ['"']),
      String.ofList (denote pieces), rest)

mutual

/-- One value after blanks. `fuel` exceeds the number of characters left and `depth` is the nesting
still allowed. -/
def readValue : (fuel depth : Nat) → List Char → Option (Json × List Char)
  | 0, _, _ => none
  | fuel + 1, depth, cs =>
      match skipBlank cs with
      | 'n' :: 'u' :: 'l' :: 'l' :: rest => some (.null, rest)
      | 't' :: 'r' :: 'u' :: 'e' :: rest => some (.bool true, rest)
      | 'f' :: 'a' :: 'l' :: 's' :: 'e' :: rest => some (.bool false, rest)
      | '"' :: rest =>
          (readString rest).map fun (source, value, rest) => (.string source value, rest)
      | '[' :: rest =>
          match depth with
          | 0 => none
          | depth + 1 =>
              match skipBlank rest with
              | ']' :: after => some (.array ⟨'[' :: rest, after⟩ [], after)
              | inner =>
                  (readItems fuel depth inner).map fun (items, after) =>
                    (.array ⟨'[' :: rest, after⟩ items, after)
      | '\x7b' :: rest =>
          match depth with
          | 0 => none
          | depth + 1 =>
              match skipBlank rest with
              | '\x7d' :: after => some (.object ⟨'\x7b' :: rest, after⟩ [], after)
              | inner =>
                  (readMembers fuel depth inner).map fun (members, after) =>
                    (.object ⟨'\x7b' :: rest, after⟩ members, after)
      | inner => (readNumber inner).map fun (text, rest) => (.number (String.ofList text), rest)

/-- The items up to the closing bracket. -/
def readItems : (fuel depth : Nat) → List Char → Option (List Json × List Char)
  | 0, _, _ => none
  | fuel + 1, depth, cs =>
      match readValue fuel depth cs with
      | none => none
      | some (item, rest) =>
          match skipBlank rest with
          | ',' :: rest =>
              (readItems fuel depth rest).map fun (items, after) => (item :: items, after)
          | ']' :: after => some ([item], after)
          | _ => none

/-- The members up to the closing brace. -/
def readMembers : (fuel depth : Nat) → List Char → Option (List (String × Json) × List Char)
  | 0, _, _ => none
  | fuel + 1, depth, cs =>
      match skipBlank cs with
      | '"' :: rest =>
          match readString rest with
          | none => none
          | some (_, key, rest) =>
              match skipBlank rest with
              | ':' :: rest =>
                  match readValue fuel depth rest with
                  | none => none
                  | some (value, rest) =>
                      match skipBlank rest with
                      | ',' :: rest =>
                          (readMembers fuel depth rest).map fun (members, after) =>
                            ((key, value) :: members, after)
                      | '\x7d' :: after => some ([(key, value)], after)
                      | _ => none
              | _ => none
      | _ => none

end

def readFirst (text : String) : Option (Json × List Char) :=
  let cs := text.toList
  readValue (2 * cs.length + 2) maxNesting cs

def readWhole (text : String) : Option Json :=
  match readFirst text with
  | some (value, rest) => if (skipBlank rest).isEmpty then some value else none
  | none => none

/-- The decimal that a number's text denotes, and its sign. -/
def numberDecimal (text : String) : Bool × Number.Decimal :=
  let (sign, cs) := readSign text.toList
  let (whole, cs) := takeDigits cs
  let (fraction, cs) :=
    match cs with
    | '.' :: cs => takeDigits cs
    | cs => ([], cs)
  let exponent : Int :=
    match cs with
    | _ :: '-' :: ds => -(Nat.ofDigitChars 10 ds 0 : Int)
    | _ :: '+' :: ds => Nat.ofDigitChars 10 ds 0
    | _ :: ds => Nat.ofDigitChars 10 ds 0
    | [] => 0
  (!sign.isEmpty, ⟨Nat.ofDigitChars 10 (whole ++ fraction) 0, exponent - fraction.length⟩)

/-- The double nearest to a number, `none` when it is too large. -/
def numberDouble? (text : String) : Option Float :=
  let (negative, d) := numberDecimal text
  Number.ofDecimal negative d

end DartLowering.Json
