/-!
JSON values as they stand in a text. Members keep their order and may repeat a key; a number keeps
its digits, and every value can tell the text it was read from.
-/
namespace DartLowering

/-- Where a value stands in a text: the characters from its first on, and those that follow it. -/
structure Json.Extent where
  start : List Char := []
  rest : List Char := []

def Json.Extent.text (e : Json.Extent) : String :=
  String.ofList (e.start.take (e.start.length - e.rest.length))

inductive Json
  | null
  | bool (value : Bool)
  | number (source : String)
  | string (source : String) (value : String)
  | array (extent : Json.Extent) (items : List Json)
  | object (extent : Json.Extent) (members : List (String × Json))
  deriving Inhabited

namespace Json

/-- The text the value was read from. -/
def source : Json → String
  | .null => "null"
  | .bool value => if value then "true" else "false"
  | .number source => source
  | .string source _ => source
  | .array extent _ => extent.text
  | .object extent _ => extent.text

/-- The last member of that name. -/
def get? (key : String) : Json → Option Json
  | .object _ members => (members.reverse.find? fun m => m.1 == key).map (·.2)
  | _ => none

end DartLowering.Json
