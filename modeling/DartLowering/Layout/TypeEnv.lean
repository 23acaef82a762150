import DartLowering.Layout.Basic
import DartLowering.Syntax.Type

/-!
What is known about the types of a unit: its records and the names of two marker types. A value of
the pass-through type is handled by the emitted code natively, and the list record is what lies
behind an argument list.

Layouts follow records that lie inside each other by value. `TypeEnv.layoutWithin` goes down a
given number of levels; no chain of distinct records is longer than the table, so the bound in
`TypeEnv.layoutOf` is reached only by a record that holds itself. Layouts that are kept in `known`
are taken from there.
-/
namespace DartLowering

open Layout

structure TypeEnv where
  passThrough : String
  listRecord : String
  records : RecordTable
  /-- Layouts that were computed before. -/
  known : List (RecordTag × RecordLayout) := []

namespace TypeEnv

def defaultPassThrough : String := "__objc2dart__dart_class"

def defaultListRecord : String := "__va_list_tag"

/-- Empty marker names stand for the usual ones. -/
def ofMarkers (passThrough listRecord : String) (records : RecordTable) : TypeEnv where
  passThrough := if passThrough = "" then defaultPassThrough else passThrough
  listRecord := if listRecord = "" then defaultListRecord else listRecord
  records := records

/-- The type itself, not what it abbreviates, is the pass-through marker. -/
def isPassThrough (env : TypeEnv) : CType → Bool
  | .record tag => tag.name = env.passThrough
  | .alias name _ => name = env.passThrough
  | _ => false

/-- The type is the element of argument lists. -/
def isListRecord (env : TypeEnv) (t : CType) : Bool :=
  match t.record? with
  | some tag => tag.name = env.listRecord
  | none => false

end TypeEnv

/-- Size and alignment of a type as part of a record. -/
def CType.extent (layoutOf : RecordTag → Result RecordLayout) : CType → Result Extent
  | .scalar s =>
      let size := s.bits / 8
      if size = 0 then .error (.violation (.scalarWidth s.kind.name s.bits)) else .ok ⟨size, size⟩
  | .pointer _ | .functionPointer _ _ _ | .object _ => .ok ⟨pointerSize, pointerSize⟩
  | .array elem length isVariable =>
      if isVariable then .error (.of .variableLengthArray)
      else do
        let e ← elem.extent layoutOf
        match length with
        | none => .ok ⟨0, e.align⟩
        | some n =>
            match arrayLayout elem.text e.size e.align n with
            | .ok l => .ok ⟨l.size, l.elementAlign⟩
            | .error fault => .error (.violation (.arrayLayout fault))
  | .record tag => do
      let l ← layoutOf tag
      .ok ⟨l.size, l.align⟩
  | .alias _ underlying => underlying.extent layoutOf
  | .void => .error (.unsupported (.storage CType.void.text))
  | .function params result variadic =>
      .error (.unsupported (.storage (CType.function params result variadic).text))

/-- A field of a record as a slot that is not yet placed, unless its offset is reported. -/
def Field.slot (layoutOf : RecordTag → Result RecordLayout) (record : String) (f : Field) :
    Result Slot :=
  match f.type.extent layoutOf with
  | .ok e => .ok ⟨f.name, f.type.text, f.offset, e.size, e.align⟩
  | .error failure => .error (failure.wrap ("field " ++ record ++ "." ++ f.name))

def Record.slots (layoutOf : RecordTag → Result RecordLayout) (record : String) :
    List Field → Result (List Slot)
  | [] => .ok []
  | f :: fs => do
      let s ← f.slot layoutOf record
      let ss ← Record.slots layoutOf record fs
      .ok (s :: ss)

/-- The reported layout as it is, or the natural one. -/
def Record.layout (r : Record) (slots : List Slot) : Result RecordLayout :=
  match r.reported with
  | some e =>
      .ok { name := r.tag.name, isUnion := r.tag.isUnion, fields := slots, size := e.size,
            align := e.align }
  | none =>
      let computed :=
        if r.tag.isUnion then unionLayout maxAlignment r.tag.name slots
        else structLayout maxAlignment r.tag.name slots
      match computed with
      | .ok l => .ok l
      | .error fault => .error (.plain fault.text)

namespace TypeEnv

def known? (env : TypeEnv) (tag : RecordTag) : Option RecordLayout :=
  (env.known.find? fun k => k.1 = tag).map (·.2)

/-- The layout of a record that nests at most `depth` records, itself included. -/
def layoutWithin (env : TypeEnv) : Nat → RecordTag → Result RecordLayout
  | 0, _ => .error .crash
  | depth + 1, tag =>
      match env.known? tag with
      | some l => .ok l
      | none => do
          let r := env.records.find tag
          let slots ← Record.slots (layoutWithin env depth) r.tag.name r.fields
          r.layout slots

def layoutOf (env : TypeEnv) (tag : RecordTag) : Result RecordLayout :=
  env.layoutWithin (env.records.length + 1) tag

/-- The layout of a record, if it has one, is kept for later. -/
def remember (env : TypeEnv) (tag : RecordTag) : TypeEnv :=
  match env.layoutOf tag with
  | .ok l => { env with known := (tag, l) :: env.known }
  | .error _ => env

/-- Keeps the layouts of all records. -/
def rememberAll (env : TypeEnv) : TypeEnv :=
  env.records.foldl (fun env r => env.remember r.tag) env

def extent (env : TypeEnv) (t : CType) : Result Extent := t.extent env.layoutOf

end DartLowering.TypeEnv
