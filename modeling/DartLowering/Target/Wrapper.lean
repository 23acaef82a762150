import DartLowering.Layout.TypeEnv

/-!
The wrapper classes of the runtime library. Every value of the source program is an object of one
of them, named by `TypeEnv.mapType`; `TypeEnv.storageKind` names the typed accessors for a value in
memory and `TypeEnv.sizeOf` its size in bytes.
-/
namespace DartLowering

namespace Wrapper

def float : String := "CFloat"

def double : String := "CDouble"

def uint64 : String := "CUint64"

def pointer : String := "CPointer"

def functionPointer : String := "CFunctionPointer"

def composite : String := "CComposite"

def varArgs : String := "CVarArgs"

def void : String := "void"

def dynamic : String := "dynamic"

def objectBase : String := "NSObject"

/-- The integer wrapper of a width and signedness. -/
def integer? (signed : Bool) (bits : Int64) : Option String :=
  if bits = 8 then some (if signed then "CInt8" else "CUint8")
  else if bits = 16 then some (if signed then "CInt16" else "CUint16")
  else if bits = 32 then some (if signed then "CInt32" else "CUint32")
  else if bits = 64 then some (if signed then "CInt64" else "CUint64")
  else none

end Wrapper

/-- The byte size of a kind, whatever width a dump gives it. -/
def ScalarKind.bytes? : ScalarKind → Option Int64
  | .bool | .char | .schar | .uchar => some 1
  | .short | .ushort => some 2
  | .int | .uint | .float => some 4
  | .long | .ulong | .longlong | .ulonglong | .double => some 8
  | .unrecognised _ => none

def scalarFailure (text : String) : Failure := .of (.invalidConfig "scalar kind" text)

def Scalar.unrecognised (s : Scalar) : Failure :=
  scalarFailure ("unrecognized scalar kind " ++ s.kind.name)

/-- The wrapper class of an arithmetic type. -/
def Scalar.wrapper (s : Scalar) : Result String :=
  if s.kind.bytes?.isNone then .error s.unrecognised
  else if s.kind.isFloat then
    if s.bits = 32 then .ok Wrapper.float
    else if s.bits = 64 then .ok Wrapper.double
    else .error (scalarFailure ("unsupported " ++ Text.decimal s.bits ++ "-bit floating type"))
  else
    match Wrapper.integer? s.signed s.bits with
    | some name => .ok name
    | none => .error (scalarFailure ("unsupported " ++ Text.decimal s.bits ++ "-bit integer type"))

/-- The stem of the typed accessors of an arithmetic type. -/
def Scalar.stem (s : Scalar) : String :=
  if s.kind.isFloat then if s.bits = 32 then "float" else "double"
  else (if s.signed then "int" else "uint") ++ Text.decimal s.bits

/-- What a pointer points at is a function. -/
def CType.isFunction (t : CType) : Bool := t.unalias.prototype?.isSome

namespace TypeEnv

/-- The class of values of a type. -/
def mapType (env : TypeEnv) : CType → Result String
  | .void => .ok Wrapper.void
  | .scalar s => s.wrapper
  | .pointer pointee =>
      .ok (if pointee.isFunction then Wrapper.functionPointer else Wrapper.pointer)
  | .functionPointer _ _ _ => .ok Wrapper.functionPointer
  | .array elem _ isVariable =>
      if isVariable then .error (.of .variableLengthArray)
      else .ok (if env.isListRecord elem then Wrapper.varArgs else Wrapper.pointer)
  | .record tag =>
      .ok (if env.isPassThrough (.record tag) then Wrapper.dynamic else Wrapper.composite)
  | .alias name underlying =>
      if env.isPassThrough (.alias name underlying) || env.isPassThrough underlying then
        .ok Wrapper.dynamic
      else env.mapType underlying
  | .object className => .ok (if className = "" then Wrapper.dynamic else className)
  | .function _ _ _ => .error (.unsupported .functionValue)

/-- The kind of storage that a type has, as the stem of accessor names. -/
def storageKind (env : TypeEnv) : CType → Result String
  | .scalar s => do
      let _ ← s.wrapper
      .ok s.stem
  | .pointer pointee => .ok (if pointee.isFunction then "functionPointer" else "pointer")
  | .functionPointer _ _ _ => .ok "functionPointer"
  | .object _ => .ok "pointer"
  | .array _ _ isVariable =>
      if isVariable then .error (.of .variableLengthArray) else .ok "composite"
  | .record tag =>
      if env.isPassThrough (.record tag) then .error (.unsupported .passThroughStored)
      else .ok "composite"
  | .alias name underlying =>
      if env.isPassThrough (.alias name underlying) || env.isPassThrough underlying then
        .error (.unsupported .passThroughStored)
      else env.storageKind underlying
  | .void => .error (.unsupported (.storageKind CType.void.text))
  | .function params result variadic =>
      .error (.unsupported (.storageKind (CType.function params result variadic).text))

/-- The byte size of a type. A void is one byte wide. -/
def sizeOf (env : TypeEnv) : CType → Result Int64
  | .scalar s =>
      match s.kind.bytes? with
      | some n => .ok n
      | none => .error s.unrecognised
  | .pointer _ | .functionPointer _ _ _ | .object _ => .ok Layout.pointerSize
  | .array elem length isVariable =>
      if isVariable then .error (.of .variableLengthArray)
      else
        match length with
        | none => .error (.unsupported .incompleteArraySize)
        | some n => do
            let size ← env.sizeOf elem
            .ok (size * n)
  | .record tag => do
      let l ← env.layoutOf tag
      .ok l.size
  | .alias _ underlying => env.sizeOf underlying
  | .void => .ok 1
  | .function _ _ _ => .error (.unsupported .functionSize)

/-- `f` of a type that may be missing. -/
def onType {α : Type} (f : CType → Result α) : Option CType → Result α
  | some t => f t
  | none => .error (.violation .missingType)

end DartLowering.TypeEnv
