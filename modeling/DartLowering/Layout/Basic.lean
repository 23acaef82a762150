import DartLowering.Source.Failure

/-!
Memory layouts of records and arrays under natural alignment. Fields of a struct follow each other,
each at the next multiple of its alignment; fields of a union share offset zero; sizes are rounded
up to the alignment. All arithmetic is that of 64-bit words.
-/
namespace DartLowering.Layout

/-- A field of known size and alignment, with its offset once it is placed. -/
structure Slot where
  name : String
  type : String
  offset : Int64 := 0
  size : Int64
  align : Int64
  deriving DecidableEq, Repr

/-- Bytes that hold no field. -/
structure Padding where
  offset : Int64
  size : Int64
  reason : String
  deriving DecidableEq, Repr

structure RecordLayout where
  name : String
  isUnion : Bool
  fields : List Slot
  size : Int64
  align : Int64
  padding : List Padding := []
  deriving DecidableEq, Repr

structure ArrayLayout where
  elementType : String
  elementSize : Int64
  elementAlign : Int64
  length : Int64
  size : Int64
  deriving DecidableEq, Repr

def pointerSize : Int64 := 8

/-- The strictest alignment that targets support. -/
def maxAlignment : Int64 := 16

def isPowerOfTwo (n : Int64) : Bool := 0 < n && n &&& (n - 1) = 0

/-- The next multiple of a power of two. -/
def alignUp (value alignment : Int64) : Int64 :=
  if alignment ≤ 1 then value else (value + alignment - 1) &&& ~~~(alignment - 1)

/-- Alignments below one count as one; a positive `limit` caps them. -/
def clampAlignment (limit align : Int64) : Int64 :=
  if align ≤ 0 then 1 else if 0 < limit && limit < align then limit else align

/-- The field with its clamped alignment, refused when no memory can hold it. -/
def checkSlot (limit : Int64) (f : Slot) : Except LayoutFault Slot :=
  if f.size < 0 then .error (.fieldSize f.name f.size)
  else
    let align := clampAlignment limit f.align
    if isPowerOfTwo align then .ok { f with align } else .error (.fieldAlignment f.name align)

def checkSlots (limit : Int64) : List Slot → Except LayoutFault (List Slot)
  | [] => .ok []
  | f :: fs => do
      let f ← checkSlot limit f
      let fs ← checkSlots limit fs
      .ok (f :: fs)

/-- The gap between two offsets, if there is one. -/
def gap (offset next : Int64) (reason : String) : List Padding :=
  if offset < next then [⟨offset, next - offset, reason⟩] else []

/-- Fields placed one after the other from `offset` on: the placed fields, the gaps between them
and the offset after the last. -/
def placeFrom (offset : Int64) : List Slot → List Slot × List Padding × Int64
  | [] => ([], [], offset)
  | f :: fs =>
      let start := alignUp offset f.align
      let (placed, padding, stop) := placeFrom (start + f.size) fs
      ({ f with offset := start } :: placed,
        gap offset start ("alignment for field " ++ f.name) ++ padding, stop)

/-- The strictest alignment among the fields, at least one. -/
def strictest (fields : List Slot) : Int64 :=
  fields.foldl (fun most f => if most < f.align then f.align else most) 1

/-- The largest size among the fields, at least zero. -/
def largest (fields : List Slot) : Int64 :=
  fields.foldl (fun most f => if most < f.size then f.size else most) 0

def structLayout (limit : Int64) (name : String) (fields : List Slot) :
    Except LayoutFault RecordLayout := do
  let fields ← checkSlots limit fields
  let (placed, padding, stop) := placeFrom 0 fields
  let align := strictest fields
  let size := alignUp stop align
  .ok { name, isUnion := false, fields := placed, size, align,
        padding := padding ++ gap stop size "struct alignment" }

def unionLayout (limit : Int64) (name : String) (fields : List Slot) :
    Except LayoutFault RecordLayout := do
  let fields ← checkSlots limit fields
  let most := largest fields
  let align := strictest fields
  let size := alignUp most align
  .ok { name, isUnion := true, fields := fields.map fun f => { f with offset := 0 }, size, align,
        padding := gap most size "union alignment" }

def arrayLayout (elementType : String) (elementSize elementAlign length : Int64) :
    Except LayoutFault ArrayLayout :=
  if length < 0 then .error (.negativeLength length)
  else if elementSize ≤ 0 then .error (.elementSize elementSize)
  else
    let align := if elementAlign ≤ 0 then 1 else elementAlign
    if isPowerOfTwo align then
      .ok ⟨elementType, elementSize, align, length, length * elementSize⟩
    else .error (.elementAlignment align)

namespace RecordLayout

/-- The offset of the first field of that name. -/
def offset? (l : RecordLayout) (name : String) : Option Int64 :=
  (l.fields.find? fun f => f.name == name).map (·.offset)

def paddingBytes (l : RecordLayout) : Int64 := l.padding.foldl (fun n p => n + p.size) 0

def text (l : RecordLayout) : String :=
  (if l.isUnion then "Union " else "Struct ") ++ l.name ++ " (" ++
    Text.decimalNat l.fields.length ++ " fields, " ++ Text.decimal l.size ++ " bytes, " ++
    Text.decimal l.paddingBytes ++ " padding, align " ++ Text.decimal l.align ++ ")"

end RecordLayout

def ArrayLayout.text (l : ArrayLayout) : String :=
  "Array[" ++ l.elementType ++ "; " ++ Text.decimal l.length ++ "] (element: " ++
    Text.decimal l.elementSize ++ " bytes, total: " ++ Text.decimal l.size ++ " bytes, align: " ++
    Text.decimal l.elementAlign ++ ")"

end DartLowering.Layout
