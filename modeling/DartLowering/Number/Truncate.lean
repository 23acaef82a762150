/-!
Reduction of a 64-bit word to a narrower width. Widths from 1 to 63 keep that many low bits and
extend them again, with the sign or with zeros; every other width leaves the word alone.
-/
namespace DartLowering.Number

/-- `v` reduced to `bits` bits and extended back to a word. -/
def truncate (v : Int64) (bits : Int64) (signed : Bool) : Int64 :=
  if bits ≤ 0 || 64 ≤ bits then v
  else
    let shift := 64 - bits
    if signed then (v <<< shift) >>> shift
    else ((v.toUInt64 <<< shift.toUInt64) >>> shift.toUInt64).toInt64

def ofBool (b : Bool) : Int64 := if b then 1 else 0

end DartLowering.Number
