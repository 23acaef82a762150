import DartLowering.Json.Value
import DartLowering.Text.Decimal
import DartLowering.Text.Lines

/-!
JSON values as indented text. A text that will stand in a page of markup is safe: the characters
that begin markup are written by number, and so are the two line separators that scripts cannot
hold.
-/
namespace DartLowering.Json

/-- How a character stands inside a quoted text. -/
def escape (c : Char) : List Char :=
  if c = '"' then ['\\', '"']
  else if c = '\\' then ['\\', '\\']
  else
    match c.toNat with
    | 8 => ['\\', 'b']
    | 12 => ['\\', 'f']
    | 10 => ['\\', 'n']
    | 13 => ['\\', 'r']
    | 9 => ['\\', 't']
    | n =>
        if n < 0x20 || c = '<' || c = '>' || c = '&' || n = 0x2028 || n = 0x2029 then
          '\\' :: 'u' :: Text.hexDigits 4 n
        else [c]

def quoted (s : String) : String := String.ofList ('"' :: s.toList.flatMap escape ++ ['"'])

def ofText (s : String) : Json := .string (quoted s) s

def ofWord (v : Int64) : Json := .number (Text.decimal v)

/-- An object that was not read from a text. -/
def ofMembers (members : List (String × Json)) : Json := .object {} members

/-- The start of a line at a nesting level. -/
def lineStart (level : Nat) : String := "\n" ++ Text.spaces (2 * level)

mutual

/-- One member or item to a line, two blanks further in for every level. -/
def indented (level : Nat) : Json → String
  | .null => "null"
  | .bool value => if value then "true" else "false"
  | .number source => source
  | .string _ value => quoted value
  | .array _ [] => "[]"
  | .array _ (j :: js) =>
      "[" ++ lineStart (level + 1) ++ indented (level + 1) j ++ indentedItems (level + 1) js ++
        lineStart level ++ "]"
  | .object _ [] => "\x7b\x7d"
  | .object _ ((key, j) :: ms) =>
      "\x7b" ++ lineStart (level + 1) ++ quoted key ++ ": " ++ indented (level + 1) j ++
        indentedMembers (level + 1) ms ++ lineStart level ++ "\x7d"

def indentedItems (level : Nat) : List Json → String
  | [] => ""
  | j :: js => "," ++ lineStart level ++ indented level j ++ indentedItems level js

def indentedMembers (level : Nat) : List (String × Json) → String
  | [] => ""
  | (key, j) :: ms =>
      "," ++ lineStart level ++ quoted key ++ ": " ++ indented level j ++ indentedMembers level ms

end

end DartLowering.Json
