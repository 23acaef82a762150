import DartLowering.Text.Decimal
import DartLowering.Text.Lines

/-!
Names in the emitted code. A word that the target language reserves gets an underscore, and a
selector becomes one name.
-/
namespace DartLowering.Lower

/-- Words that are no identifiers in the target language. -/
def reserved : List String :=
  ["assert", "break", "case", "catch", "class", "const", "continue", "default", "do", "else",
    "enum", "extends", "false", "final", "finally", "for", "if", "in", "is", "new", "null",
    "rethrow", "return", "super", "switch", "this", "throw", "true", "try", "var", "void",
    "while", "with"]

def identifier (name : String) : String := if reserved.contains name then name ++ "_" else name

/-- A colon at the end is dropped and colons inside become underscores. -/
def selectorName (selector : String) : String :=
  let cs := Text.withoutSuffix [':'] selector.toList
  identifier (String.ofList (cs.map fun c => if c = ':' then '_' else c))

/-- A parameter without a name is named after its place. -/
def paramName (name : String) (index : Nat) : String :=
  if name = "" then "__p" ++ Text.decimalNat index else identifier name

/-- The parameter that holds the arguments beyond the declared ones. -/
def varArgsParam : String := "__varargs"

/-- The function that holds the body of the program's start. -/
def entryInner : String := "__main"

/-- The label of case `k` of a switch inside `depth` others. -/
def switchLabel (depth k : Nat) : String :=
  if depth = 0 then "label" ++ Text.decimalNat k
  else "label" ++ Text.decimalNat depth ++ "_" ++ Text.decimalNat k

end DartLowering.Lower
