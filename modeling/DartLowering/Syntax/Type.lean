import DartLowering.Text.Decimal
import DartLowering.Text.Lines

/-!
Resolved types. A record is named by its tag, and its fields are looked up in a table of records,
so that records may refer to each other through pointers.
-/
namespace DartLowering

inductive ScalarKind
  | bool | char | schar | uchar | short | ushort | int | uint
  | long | ulong | longlong | ulonglong | float | double
  | unrecognised (code : Int)
  deriving DecidableEq, Repr

namespace ScalarKind

def all : List ScalarKind :=
  [.bool, .char, .schar, .uchar, .short, .ushort, .int, .uint, .long, .ulong, .longlong, .ulonglong,
    .float, .double]

def name : ScalarKind → String
  | .bool => "bool"
  | .char => "char"
  | .schar => "schar"
  | .uchar => "uchar"
  | .short => "short"
  | .ushort => "ushort"
  | .int => "int"
  | .uint => "uint"
  | .long => "long"
  | .ulong => "ulong"
  | .longlong => "longlong"
  | .ulonglong => "ulonglong"
  | .float => "float"
  | .double => "double"
  | .unrecognised code => "scalar(" ++ Text.decimalInt code ++ ")"

def ofName? (s : String) : Option ScalarKind := all.find? fun k => k.name == s

def isFloat (k : ScalarKind) : Bool := k = .float || k = .double

end ScalarKind

/-- An arithmetic type with its width. Signedness says nothing for floating kinds. -/
structure Scalar where
  kind : ScalarKind
  bits : Int64
  signed : Bool
  deriving DecidableEq, Repr

/-- The width and signedness that a kind has where longs and pointers are 64 bits wide. -/
def ScalarKind.canonical? : ScalarKind → Option Scalar
  | .bool => some ⟨.bool, 8, false⟩
  | .char => some ⟨.char, 8, true⟩
  | .schar => some ⟨.schar, 8, true⟩
  | .uchar => some ⟨.uchar, 8, false⟩
  | .short => some ⟨.short, 16, true⟩
  | .ushort => some ⟨.ushort, 16, false⟩
  | .int => some ⟨.int, 32, true⟩
  | .uint => some ⟨.uint, 32, false⟩
  | .long => some ⟨.long, 64, true⟩
  | .ulong => some ⟨.ulong, 64, false⟩
  | .longlong => some ⟨.longlong, 64, true⟩
  | .ulonglong => some ⟨.ulonglong, 64, false⟩
  | .float => some ⟨.float, 32, true⟩
  | .double => some ⟨.double, 64, true⟩
  | .unrecognised _ => none

/-- A reference to a struct or union. -/
structure RecordTag where
  name : String
  isUnion : Bool
  deriving DecidableEq, Repr

def RecordTag.text (r : RecordTag) : String := (if r.isUnion then "union " else "struct ") ++ r.name

inductive CType
  | void
  | scalar (s : Scalar)
  | pointer (pointee : CType)
  | functionPointer (params : List CType) (result : CType) (variadic : Bool)
  | array (elem : CType) (length : Option Int64) (isVariable : Bool)
  | record (tag : RecordTag)
  | function (params : List CType) (result : CType) (variadic : Bool)
  | alias (name : String) (underlying : CType)
  /-- A reference to an object; the empty class name means any object. -/
  | object (className : String)
  deriving Inhabited

/-- The parameters and result of a function type. -/
structure Prototype where
  params : List CType
  result : CType
  variadic : Bool

namespace CType

mutual

def text : CType → String
  | .void => "void"
  | .scalar s => s.kind.name
  | .pointer pointee => pointee.text ++ " *"
  | .functionPointer params result variadic =>
      result.text ++ " (*)(" ++ Text.join ", " (texts params variadic) ++ ")"
  | .array elem length isVariable =>
      if isVariable then elem.text ++ "[*]"
      else
        match length with
        | none => elem.text ++ "[]"
        | some n => elem.text ++ "[" ++ Text.decimal n ++ "]"
  | .record tag => tag.text
  | .function params result variadic =>
      result.text ++ " (" ++ Text.join ", " (texts params variadic) ++ ")"
  | .alias name _ => name
  | .object className => if className = "" then "id" else className ++ " *"

/-- The texts of a parameter list, closed by dots when more arguments may follow. -/
def texts : List CType → Bool → List String
  | [], variadic => if variadic then ["..."] else []
  | t :: ts, variadic => t.text :: texts ts variadic

end

/-- The type without the type names in front of it. -/
def unalias : CType → CType
  | .alias _ underlying => underlying.unalias
  | t => t

def scalar? (t : CType) : Option Scalar :=
  match t.unalias with
  | .scalar s => some s
  | _ => none

def isInteger (t : CType) : Bool :=
  match t.scalar? with
  | some s => !s.kind.isFloat
  | none => false

/-- What a pointer-like type addresses. -/
def pointee? (t : CType) : Option CType :=
  match t.unalias with
  | .pointer pointee => some pointee
  | .functionPointer params result variadic => some (.function params result variadic)
  | .array elem _ _ => some elem
  | _ => none

/-- The prototype of a function type. -/
def prototype? : CType → Option Prototype
  | .function params result variadic => some ⟨params, result, variadic⟩
  | _ => none

/-- The prototype that a type designates or points to. -/
def callable? (t : CType) : Option Prototype :=
  match t.unalias with
  | .function params result variadic => some ⟨params, result, variadic⟩
  | .functionPointer params result variadic => some ⟨params, result, variadic⟩
  | .pointer pointee => pointee.unalias.prototype?
  | _ => none

/-- Values are views of memory of their own. -/
def isComposite (t : CType) : Bool :=
  match t.unalias with
  | .record _ | .array _ _ _ => true
  | _ => false

def record? (t : CType) : Option RecordTag :=
  match t.unalias with
  | .record tag => some tag
  | _ => none

end CType

def Prototype.type (p : Prototype) : CType := .function p.params p.result p.variadic

/-- The text of a type that may be missing. -/
def typeText : Option CType → String
  | some t => t.text
  | none => "<nil>"

/-- A member of a record with the byte offset that the dump gives, zero when it gives none. -/
structure Field where
  name : String
  type : CType
  offset : Int64

/-- Size and alignment of a record in bytes. -/
structure Extent where
  size : Int64
  align : Int64
  deriving DecidableEq, Repr

/-- A struct or union. Its layout is reported when the dump gives the size and every offset. -/
structure Record where
  tag : RecordTag
  fields : List Field
  reported : Option Extent

/-- The records of a unit. -/
abbrev RecordTable := List Record

/-- A record that the table lacks is declared but never defined, and has no fields. -/
def RecordTable.find (table : RecordTable) (tag : RecordTag) : Record :=
  (List.find? (fun r => r.tag.name == tag.name) table).getD ⟨tag, [], none⟩

def Record.field? (r : Record) (name : String) : Option Field :=
  r.fields.find? fun f => f.name == name

end DartLowering
