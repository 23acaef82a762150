/-!
Decimal and hexadecimal texts of integers.
-/
namespace DartLowering.Text

def decimalNat (n : Nat) : String := String.ofList (Nat.toDigits 10 n)

def decimalInt : Int → String
  | .ofNat n => decimalNat n
  | .negSucc n => "-" ++ decimalNat (n + 1)

def decimal (v : Int64) : String := decimalInt v.toInt

/-- The last `width` hexadecimal digits of `n`, in lower case. -/
def hexDigits (width n : Nat) : List Char :=
  (List.range width).reverse.map fun i => Nat.digitChar (n / Nat.pow 16 i % 16)

end DartLowering.Text
