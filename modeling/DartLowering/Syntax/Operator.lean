/-!
The operators, conversions and list intrinsics of the source language, with the spellings that
dumps use for them. Each family has one constructor for codes outside the known range.
-/
namespace DartLowering

inductive BinaryOp
  | mul | div | rem | add | sub | shl | shr
  | lt | gt | le | ge | eq | ne
  | bitAnd | bitXor | bitOr | logicalAnd | logicalOr
  | assign | mulAssign | divAssign | remAssign | addAssign | subAssign
  | shlAssign | shrAssign | andAssign | xorAssign | orAssign
  | comma
  | memberOfObject | memberOfPointer
  | unrecognised (code : Int)
  deriving DecidableEq, Repr

namespace BinaryOp

/-- The operators in the order of their codes. -/
def all : List BinaryOp :=
  [.mul, .div, .rem, .add, .sub, .shl, .shr, .lt, .gt, .le, .ge, .eq, .ne, .bitAnd, .bitXor, .bitOr,
    .logicalAnd, .logicalOr, .assign, .mulAssign, .divAssign, .remAssign, .addAssign, .subAssign,
    .shlAssign, .shrAssign, .andAssign, .xorAssign, .orAssign, .comma, .memberOfObject,
    .memberOfPointer]

def spelling : BinaryOp → String
  | .mul => "*"
  | .div => "/"
  | .rem => "%"
  | .add => "+"
  | .sub => "-"
  | .shl => "<<"
  | .shr => ">>"
  | .lt => "<"
  | .gt => ">"
  | .le => "<="
  | .ge => ">="
  | .eq => "=="
  | .ne => "!="
  | .bitAnd => "&"
  | .bitXor => "^"
  | .bitOr => "|"
  | .logicalAnd => "&&"
  | .logicalOr => "||"
  | .assign => "="
  | .mulAssign => "*="
  | .divAssign => "/="
  | .remAssign => "%="
  | .addAssign => "+="
  | .subAssign => "-="
  | .shlAssign => "<<="
  | .shrAssign => ">>="
  | .andAssign => "&="
  | .xorAssign => "^="
  | .orAssign => "|="
  | .comma => ","
  | .memberOfObject => ".*"
  | .memberOfPointer => "->*"
  | .unrecognised _ => "?"

def ofSpelling? (s : String) : Option BinaryOp := all.find? fun op => op.spelling == s

/-- The operator that a compound assignment applies. -/
def compoundBase? : BinaryOp → Option BinaryOp
  | .mulAssign => some .mul
  | .divAssign => some .div
  | .remAssign => some .rem
  | .addAssign => some .add
  | .subAssign => some .sub
  | .shlAssign => some .shl
  | .shrAssign => some .shr
  | .andAssign => some .bitAnd
  | .xorAssign => some .bitXor
  | .orAssign => some .bitOr
  | _ => none

end BinaryOp

inductive UnaryOp
  | postInc | postDec | preInc | preDec
  | addressOf | dereference
  | plus | minus | bitNot | logicalNot
  | real | imag
  | unrecognised (code : Int)
  deriving DecidableEq, Repr

namespace UnaryOp

def all : List UnaryOp :=
  [.postInc, .postDec, .preInc, .preDec, .addressOf, .dereference, .plus, .minus, .bitNot,
    .logicalNot, .real, .imag]

def spelling : UnaryOp → String
  | .postInc => "post++"
  | .postDec => "post--"
  | .preInc => "++"
  | .preDec => "--"
  | .addressOf => "&"
  | .dereference => "*"
  | .plus => "+"
  | .minus => "-"
  | .bitNot => "~"
  | .logicalNot => "!"
  | .real => "__real"
  | .imag => "__imag"
  | .unrecognised _ => "?"

def ofSpelling? (s : String) : Option UnaryOp := all.find? fun op => op.spelling == s

end UnaryOp

/-- How the front end classified a conversion. -/
inductive CastKind
  | lvalueToRvalue | noOp
  | functionToPointerDecay | arrayToPointerDecay
  | integralCast | integralToFloating | floatingToIntegral | floatingCast
  | integralToBoolean | floatingToBoolean
  | pointerToIntegral | pointerToBoolean
  | integralToPointer | nullToPointer
  | bitCast | toUnion | toVoid
  | unrecognised (code : Int)
  deriving DecidableEq, Repr

namespace CastKind

def all : List CastKind :=
  [.lvalueToRvalue, .noOp, .functionToPointerDecay, .arrayToPointerDecay, .integralCast,
    .integralToFloating, .floatingToIntegral, .floatingCast, .integralToBoolean,
    .floatingToBoolean, .pointerToIntegral, .pointerToBoolean, .integralToPointer, .nullToPointer,
    .bitCast, .toUnion, .toVoid]

def name : CastKind → String
  | .lvalueToRvalue => "LValueToRValue"
  | .noOp => "NoOp"
  | .functionToPointerDecay => "FunctionToPointerDecay"
  | .arrayToPointerDecay => "ArrayToPointerDecay"
  | .integralCast => "IntegralCast"
  | .integralToFloating => "IntegralToFloating"
  | .floatingToIntegral => "FloatingToIntegral"
  | .floatingCast => "FloatingCast"
  | .integralToBoolean => "IntegralToBoolean"
  | .floatingToBoolean => "FloatingToBoolean"
  | .pointerToIntegral => "PointerToIntegral"
  | .pointerToBoolean => "PointerToBoolean"
  | .integralToPointer => "IntegralToPointer"
  | .nullToPointer => "NullToPointer"
  | .bitCast => "BitCast"
  | .toUnion => "ToUnion"
  | .toVoid => "ToVoid"
  | .unrecognised _ => "?"

def ofName? (s : String) : Option CastKind := all.find? fun k => k.name == s

end CastKind

/-- The intrinsics on argument lists that calls may stand for. -/
inductive Builtin
  | none | listStart | listCopy | listEnd
  deriving DecidableEq, Repr

namespace Builtin

def all : List Builtin := [.none, .listStart, .listCopy, .listEnd]

def name : Builtin → String
  | .none => ""
  | .listStart => "va_start"
  | .listCopy => "va_copy"
  | .listEnd => "va_end"

/-- Intrinsics may be named with a builtin mark in front. -/
def ofName? (s : String) : Option Builtin :=
  all.find? fun b => b.name == s || (b ≠ .none && "__builtin_" ++ b.name == s)

end Builtin

/-- The member of a family with the given code. -/
def codeOf {α : Type} (family : List α) (other : Int → α) (code : Int) : α :=
  if code < 0 then other code else (family[code.toNat]?).getD (other code)

end DartLowering
