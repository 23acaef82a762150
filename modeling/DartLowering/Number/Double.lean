import DartLowering.Text.Decimal

/-!
Decimal texts of doubles. Writing takes the fewest digits that read back as the same double and,
among those, the ones nearest to it. Reading rounds to the nearest double, ties to the even one.
Both work on the exact rational value, in natural numbers.
-/
namespace DartLowering.Number

/-- A finite double as `mantissa * 2 ^ exponent`, the sign apart. -/
structure Binary where
  mantissa : Nat
  exponent : Int
  deriving DecidableEq, Repr

inductive DoubleClass
  | nan
  | infinite (negative : Bool)
  | finite (negative : Bool) (value : Binary)
  deriving DecidableEq, Repr

def classify (bits : UInt64) : DoubleClass :=
  let n := bits.toNat
  let negative := Nat.pow 2 63 ≤ n
  let e := n / Nat.pow 2 52 % Nat.pow 2 11
  let f := n % Nat.pow 2 52
  if e = 2047 then if f = 0 then .infinite negative else .nan
  else if e = 0 then .finite negative ⟨f, -1074⟩
  else .finite negative ⟨Nat.pow 2 52 + f, Int.ofNat e - 1075⟩

/-- `base ^ e` as a quotient of natural numbers. -/
def powerQuotient (base : Nat) (e : Int) : Nat × Nat :=
  if 0 ≤ e then (Nat.pow base e.toNat, 1) else (1, Nat.pow base (-e).toNat)

/-- A decimal `digits * 10 ^ exponent`. -/
structure Decimal where
  digits : Nat
  exponent : Int
  deriving DecidableEq, Repr

/-- The reals that round to a double, in units of a quarter of its last place. Powers of two have a
nearer neighbour below than above. -/
def lowerQuarters (b : Binary) : Nat :=
  if b.mantissa = Nat.pow 2 52 && -1074 < b.exponent then 4 * b.mantissa - 1
  else 4 * b.mantissa - 2

def upperQuarters (b : Binary) : Nat := 4 * b.mantissa + 2

/-- The decimal rounds to the double. -/
def roundsTo (b : Binary) (d : Decimal) : Bool :=
  let (tn, td) := powerQuotient 10 d.exponent
  let (qn, qd) := powerQuotient 2 (b.exponent - 2)
  let x := d.digits * tn * qd
  let lo := lowerQuarters b * qn * td
  let hi := upperQuarters b * qn * td
  if b.mantissa % 2 = 0 then lo ≤ x && x ≤ hi else lo < x && x < hi

/-- The number of decimal places before the point, negative for leading zeros after it: the least
`k` with value below `10 ^ k`. -/
def integerPlaces (b : Binary) : Int :=
  let (qn, qd) := powerQuotient 2 b.exponent
  if qd ≤ b.mantissa * qn then (Nat.toDigits 10 (b.mantissa * qn / qd)).length
  else
    match (List.range 330).find? fun t => qd ≤ b.mantissa * qn * Nat.pow 10 (t + 1) with
    | some t => -(t : Int)
    | none => 0

/-- The two decimals with `count` digits next to the double, the nearer first; of two equally near
the even one is first. -/
def neighbours (b : Binary) (count : Nat) : Decimal × Decimal :=
  let e := integerPlaces b - count
  let (qn, qd) := powerQuotient 2 b.exponent
  let (tn, td) := powerQuotient 10 e
  let num := b.mantissa * qn * td
  let den := qd * tn
  let low := num / den
  let twice := 2 * (num % den)
  if twice < den || (twice = den && low % 2 = 0) then (⟨low, e⟩, ⟨low + 1, e⟩)
  else (⟨low + 1, e⟩, ⟨low, e⟩)

def Decimal.stripZeros (fuel : Nat) (d : Decimal) : Decimal :=
  match fuel with
  | 0 => d
  | fuel + 1 =>
      if d.digits ≠ 0 && d.digits % 10 = 0 then
        Decimal.stripZeros fuel ⟨d.digits / 10, d.exponent + 1⟩
      else d

/-- The first grid with a decimal that rounds to the double, from `count` digits on. -/
def shortestFrom (b : Binary) (count : Nat) : Nat → Decimal
  | 0 => (neighbours b count).1
  | fuel + 1 =>
      let (near, far) := neighbours b count
      if roundsTo b near then near
      else if roundsTo b far then far
      else shortestFrom b (count + 1) fuel

/-- The shortest decimal that reads back as `b`, without trailing zeros. -/
def shortest (b : Binary) : Decimal := (shortestFrom b 1 16).stripZeros 20

/-- Where positional notation ends: it is used when the exponent of the first digit is at least
`least` and below `bound`. -/
structure DoubleFormat where
  least : Int
  bound : Int

/-- Six places before the point and four zeros after it are written out. -/
def DoubleFormat.plain : DoubleFormat := ⟨-4, 6⟩

/-- An exponent has a sign and at least two digits. -/
def exponentText (e : Int) : String :=
  let digits := Text.decimalNat e.natAbs
  (if e < 0 then "e-" else "e+") ++ (if digits.length < 2 then "0" else "") ++ digits

def DoubleFormat.finiteText (format : DoubleFormat) (b : Binary) : String :=
  if b.mantissa = 0 then "0"
  else
    let d := shortest b
    let digits := Nat.toDigits 10 d.digits
    let point := (digits.length : Int) + d.exponent
    let e := point - 1
    if e < format.least || format.bound ≤ e then
      match digits with
      | [] => "0"
      | [c] => String.ofList [c] ++ exponentText e
      | c :: cs => String.ofList (c :: '.' :: cs) ++ exponentText e
    else if point ≤ 0 then
      "0." ++ String.ofList (List.replicate (-point).toNat '0' ++ digits)
    else
      let whole := point.toNat
      if digits.length ≤ whole then
        String.ofList (digits ++ List.replicate (whole - digits.length) '0')
      else String.ofList (digits.take whole ++ '.' :: digits.drop whole)

/-- The text of a double in C notation. -/
def doubleText (x : Float) : String :=
  match classify x.toBits with
  | .nan => "NaN"
  | .infinite negative => if negative then "-Inf" else "+Inf"
  | .finite negative b => (if negative then "-" else "") ++ DoubleFormat.plain.finiteText b

/-- A nonnegative rational rounded to the nearest double, as bits; `none` above the largest. -/
def roundQuotient (num den : Nat) : Option UInt64 :=
  if num = 0 then some 0
  else
    let b : Int := (Nat.log2 num : Int) - Nat.log2 den
    let scaled := fun (q : Int) =>
      let (pn, pd) := powerQuotient 2 q
      (num * pd, den * pn)
    let q0 := max (-1074) (b - 53)
    let (n0, d0) := scaled q0
    let q := if Nat.pow 2 53 ≤ n0 / d0 then q0 + 1 else q0
    let (n, d) := scaled q
    let low := n / d
    let twice := 2 * (n % d)
    let m := if twice < d || (twice = d && low % 2 = 0) then low else low + 1
    let (m, q) := if m = Nat.pow 2 53 then (Nat.pow 2 52, q + 1) else (m, q)
    if m < Nat.pow 2 52 then some (UInt64.ofNat m)
    else if 971 < q then none
    else some (UInt64.ofNat ((q + 1075).toNat * Nat.pow 2 52 + (m - Nat.pow 2 52)))

/-- `digits * 10 ^ exponent` as a double, `none` when it is too large. -/
def ofDecimal (negative : Bool) (d : Decimal) : Option Float :=
  let places := (Nat.toDigits 10 d.digits).length + d.exponent
  let magnitude :=
    if d.digits = 0 || places < -330 then some 0
    else if 310 < places then none
    else
      let (tn, td) := powerQuotient 10 d.exponent
      roundQuotient (d.digits * tn) td
  magnitude.map fun bits =>
    Float.ofBits (if negative then bits + UInt64.ofNat (Nat.pow 2 63) else bits)

end DartLowering.Number
