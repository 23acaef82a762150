/-!
Keys of objects with a known set of members. They are compared without regard to case.
-/
namespace DartLowering.Json

/-- Letters that differ only in case are the same in a key; so are the long s and the Kelvin
sign. -/
def foldChar (c : Char) : Char :=
  if 'A' ≤ c && c ≤ 'Z' then c.toLower
  else if c.toNat = 0x17F then 's'
  else if c.toNat = 0x212A then 'k'
  else c

def foldKey (key : String) : String := String.ofList (key.toList.map foldChar)

end DartLowering.Json
