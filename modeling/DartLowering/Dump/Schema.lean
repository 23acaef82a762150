import DartLowering.Json.Key
import DartLowering.Json.Reader
import DartLowering.Number.Integer

/-!
The shape of dumps. A dump is a tree of objects of a few kinds, each with a fixed set of keys.
`Shape.conform` checks a JSON value against a shape and returns it in a canonical form: keys in
their own spelling and once each, null where an object or list item is missing, nothing where a
member is.

A key may repeat. Objects and lists then continue the earlier value, members and items in place,
while numbers, texts and table entries are replaced; a null takes back what can be missing and
leaves the rest alone. A shorter list only covers the items beyond its end, and a longer one that
comes later continues them; a null or an empty list forgets them.
-/
namespace DartLowering.Dump

/-- The kinds of objects in a dump. -/
inductive Kind
  | unit | record | field | type | position | param | case | node
  deriving DecidableEq, Repr

/-- What may stand behind a key. -/
inductive Shape
  | text
  /-- A boolean; with `nullable` it can be missing. -/
  | flag (nullable : Bool)
  /-- A 64-bit integer; with `nullable` it can be missing. -/
  | word (nullable : Bool)
  /-- Any value, kept as it is written. -/
  | verbatim
  | one (kind : Kind)
  | many (item : Shape)
  /-- Objects of one kind under names of their own. -/
  | table (kind : Kind)
  deriving DecidableEq, Repr

def nodes : Shape := .many (.one .node)

/-- The keys of each kind of object. -/
def Kind.keys : Kind → List (String × Shape)
  | .unit => [("name", .text), ("file", .text), ("records", .table .record), ("decls", nodes)]
  | .record =>
      [("union", .flag false), ("fields", .many (.one .field)), ("size", .word true),
        ("align", .word false)]
  | .field => [("name", .text), ("type", .one .type), ("offset", .word true)]
  | .type =>
      [("kind", .text), ("scalar", .text), ("bits", .word false), ("signed", .flag true),
        ("pointee", .one .type), ("elem", .one .type), ("len", .word true), ("vla", .flag false),
        ("name", .text), ("underlying", .one .type), ("params", .many (.one .type)),
        ("result", .one .type), ("variadic", .flag false), ("class", .text)]
  | .position => [("line", .word false), ("col", .word false)]
  | .param => [("name", .text), ("type", .one .type), ("pos", .one .position)]
  | .case =>
      [("label", .one .node), ("default", .flag false), ("stmts", nodes), ("pos", .one .position)]
  | .node =>
      [("kind", .text), ("pos", .one .position), ("type", .one .type), ("const", .verbatim),
        ("value", .verbatim), ("bytes", .many (.word false)), ("name", .text), ("ref", .text),
        ("op", .text), ("lhs", .one .node), ("rhs", .one .node), ("operand", .one .node),
        ("callee", .one .node), ("args", nodes), ("variadic", .flag false), ("builtin", .text),
        ("base", .one .node), ("arrow", .flag false), ("field", .text), ("index", .one .node),
        ("cast", .text), ("explicit", .flag false), ("arg", .one .type), ("list", .one .node),
        ("receiver", .one .node), ("class", .text), ("selector", .text), ("cond", .one .node),
        ("then", .one .node), ("else", .one .node), ("body", .one .node), ("stmts", nodes),
        ("init", .one .node), ("inc", .one .node), ("expr", .one .node), ("vars", nodes),
        ("cases", .many (.one .case)), ("params", .many (.one .param)), ("result", .one .type),
        ("entry", .flag false), ("owner", .text), ("class_method", .flag false)]

def Kind.key? (kind : Kind) (key : String) : Option (String × Shape) :=
  kind.keys.find? fun k => k.1 == Json.foldKey key

/-- The value under a key in canonical members. -/
def lookup (key : String) (members : List (String × Json)) : Option Json :=
  (members.find? fun m => m.1 == key).map (·.2)

/-- The members with `key` set, in its old place if it has one, or taken out. -/
def assign (key : String) (value : Option Json) : List (String × Json) → List (String × Json)
  | [] =>
      match value with
      | some v => [(key, v)]
      | none => []
  | m :: ms =>
      if m.1 == key then
        match value with
        | some v => (key, v) :: ms
        | none => ms
      else m :: assign key value ms

def membersOf : Option Json → List (String × Json)
  | some (.object _ members) => members
  | _ => []

def itemsOf : Option Json → List Json
  | some (.array _ items) => items
  | _ => []

/-- The key for items that a later, shorter list has covered. -/
def coveredKey (key : String) : String := key ++ "*"

def object (members : List (String × Json)) : Json := .object {} members

def array (items : List Json) : Json := .array {} items

/-- The earlier value of a key; a list has the items behind it that it covers. -/
def earlier (key : String) (done : List (String × Json)) : Option Json :=
  match lookup key done, lookup (coveredKey key) done with
  | some (.array _ items), some (.array _ more) => some (array (items ++ more))
  | value, _ => value

/-- The items of an earlier list beyond the end of the one that takes its place. -/
def covered : Option Json → Option Json → Option Json
  | some (.array _ old), some (.array _ (j :: js)) =>
      if old.length ≤ (j :: js).length then none else some (array (old.drop (j :: js).length))
  | _, _ => none

/-- The members after `key` has been given `value`. -/
def continued (key : String) (value : Option Json) (done : List (String × Json)) :
    List (String × Json) :=
  assign (coveredKey key) (covered (earlier key done) value) (assign key value done)

mutual

/-- The canonical form of a value of the given shape after the earlier value `old`, `none` when it
is of another shape. Inside, `none` means that nothing stands there. -/
def conform (old : Option Json) : Shape → Json → Option (Option Json)
  | .verbatim, j => some (some j)
  | .text, .null => some old
  | .text, .string source value => some (some (.string source value))
  | .flag nullable, .null => some (if nullable then none else old)
  | .flag _, .bool value => some (some (.bool value))
  | .word nullable, .null => some (if nullable then none else old)
  | .word _, .number source =>
      match Number.readDecimal? source with
      | some _ => some (some (.number source))
      | none => none
  | .one _, .null => some none
  | .one kind, .object _ members =>
      (conformMembers kind (membersOf old) members).map fun ms => some (object ms)
  | .many _, .null => some none
  | .many item, .array _ items =>
      (conformItems item (itemsOf old) items).map fun is => some (array is)
  | .table _, .null => some none
  | .table kind, .object _ members =>
      (conformEntries kind (membersOf old) members).map fun ms => some (object ms)
  | _, _ => none

def conformMembers (kind : Kind) (done : List (String × Json)) :
    List (String × Json) → Option (List (String × Json))
  | [] => some done
  | (key, value) :: ms =>
      match kind.key? key with
      | none => none
      | some (name, shape) =>
          match conform (earlier name done) shape value with
          | none => none
          | some v => conformMembers kind (continued name v done) ms

/-- Items continue the earlier ones at their places. A missing item is null. -/
def conformItems (item : Shape) (old : List Json) : List Json → Option (List Json)
  | [] => some []
  | j :: js =>
      match conform old.head? item j with
      | none => none
      | some v => (conformItems item old.tail js).map fun vs => v.getD .null :: vs

def conformEntries (kind : Kind) (done : List (String × Json)) :
    List (String × Json) → Option (List (String × Json))
  | [] => some done
  | (key, value) :: ms =>
      match conform none (.one kind) value with
      | none => none
      | some v => conformEntries kind (assign key (some (v.getD .null)) done) ms

end

/-- The canonical form of a whole dump. A null is the empty dump. -/
def canonical (j : Json) : Option Json :=
  (conform none (.one .unit) j).map fun v => v.getD (object [])

end DartLowering.Dump
