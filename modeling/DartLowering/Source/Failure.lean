import DartLowering.Source.Position
import DartLowering.Text.Quoted

/-!
Why a run fails. A failure is a report of a known cause at a place, a plain message, or either of
them with words put in front. Every cause belongs to a category and has a code; `Failure.locate`
gives a report its place unless it has one already, so that the innermost place wins.
-/
namespace DartLowering

/-- A construct that has no counterpart in the emitted code. -/
inductive Unsupported
  | scalarKind (name place : String)
  | typeKind (name place : String)
  | declarationKind (name : String)
  | statementKind (name : String)
  | expressionKind (name : String)
  | binaryOperator (spelling : String)
  | unaryOperator (spelling : String)
  | builtin (name : String)
  | castKind (name : String)
  | storage (type : String)
  | functionValue
  | passThroughStored
  | storageKind (type : String)
  | incompleteArraySize
  | functionSize
  | pointerToMember (op : String)
  | complexOperator (op : String)
  | castToNonPointer (cast type : String)
  | mixedDeclarators (first second : String)
  | other (text : String)
  deriving DecidableEq, Repr

def Unsupported.text : Unsupported → String
  | .scalarKind name place => "scalar kind " ++ Text.quote name ++ " at " ++ place
  | .typeKind name place => "type kind " ++ Text.quote name ++ " at " ++ place
  | .declarationKind name => "declaration kind " ++ Text.quote name
  | .statementKind name => "statement kind " ++ Text.quote name
  | .expressionKind name => "expression kind " ++ Text.quote name
  | .binaryOperator spelling => "binary operator " ++ Text.quote spelling
  | .unaryOperator spelling => "unary operator " ++ Text.quote spelling
  | .builtin name => "builtin " ++ Text.quote name
  | .castKind name => "cast kind " ++ Text.quote name
  | .storage type => "storage of type " ++ type
  | .functionValue => "function type used as a value type"
  | .passThroughStored => "pass-through type stored in memory"
  | .storageKind type => "no storage kind for " ++ type
  | .incompleteArraySize => "size of an incomplete array"
  | .functionSize => "size of a function type"
  | .pointerToMember op => "pointer-to-member operator " ++ op
  | .complexOperator op => "complex operator " ++ op
  | .castToNonPointer cast type => cast ++ " cast to non-pointer " ++ type
  | .mixedDeclarators first second => "for initializer declaring " ++ first ++ " and " ++ second
  | .other text => text

/-- Why numbers given for a record or an array describe no layout. -/
inductive LayoutFault
  | negativeLength (length : Int64)
  | elementSize (size : Int64)
  | elementAlignment (alignment : Int64)
  | fieldSize (field : String) (size : Int64)
  | fieldAlignment (field : String) (alignment : Int64)
  deriving DecidableEq, Repr

def LayoutFault.text : LayoutFault → String
  | .negativeLength length => "array length cannot be negative: " ++ Text.decimal length
  | .elementSize size => "element size must be positive: " ++ Text.decimal size
  | .elementAlignment alignment =>
      "element alignment must be power of 2: " ++ Text.decimal alignment
  | .fieldSize field size => "field " ++ field ++ " has invalid size: " ++ Text.decimal size
  | .fieldAlignment field alignment =>
      "field " ++ field ++ " alignment must be power of 2: " ++ Text.decimal alignment

/-- A promise about the input that does not hold. -/
inductive Violation
  | noUnit
  | missingType
  | missingExpression
  | scalarWidth (kind : String) (bits : Int64)
  | arrayLayout (fault : LayoutFault)
  | constantType (type : String)
  | operatorMethod (op : String)
  | arrowOnNonPointer (type : String)
  | memberOfNonRecord (field type : String)
  | unknownField (record field : String)
  | unplacedField (record field : String)
  | listStartPlace
  | listStartArguments
  | listCopyArguments (count : Nat)
  | noPrototype (type : String)
  | argumentCount (given expected : Nat)
  | castKind (cast : String)
  | unionTarget (type : String)
  | loopInitializer (node : String)
  | manyDefaults
  | other (text : String)
  deriving DecidableEq, Repr

def Violation.text : Violation → String
  | .noUnit => "no unit to generate"
  | .missingType => "missing type"
  | .missingExpression => "missing expression"
  | .scalarWidth kind bits => "scalar " ++ kind ++ " has width " ++ Text.decimal bits
  | .arrayLayout fault => fault.text
  | .constantType type => "integer constant of type " ++ type
  | .operatorMethod op => "no runtime method for operator " ++ op
  | .arrowOnNonPointer type => "-> applied to non-pointer " ++ type
  | .memberOfNonRecord field type => "member " ++ field ++ " of non-record " ++ type
  | .unknownField record field => "record " ++ record ++ " has no field " ++ field
  | .unplacedField record field => "layout of " ++ record ++ " has no field " ++ field
  | .listStartPlace => "va_start outside a variadic function"
  | .listStartArguments => "va_start without a list argument"
  | .listCopyArguments count => "va_copy takes two lists, got " ++ Text.decimalNat count
  | .noPrototype type => "variadic call through " ++ type ++ " has no prototype"
  | .argumentCount given expected =>
      "call passes " ++ Text.decimalNat given ++ " arguments to " ++ Text.decimalNat expected ++
        " parameters"
  | .castKind cast => "unhandled cast kind " ++ cast
  | .unionTarget type => "union coercion to non-union " ++ type
  | .loopInitializer node => "for initializer *ast." ++ node
  | .manyDefaults => "switch has more than one default case"
  | .other text => text

/-- What is wrong at one place of a dump. -/
inductive DumpFault
  | missingType
  | missingDeclaration
  | missingStatement
  | missingExpression
  | nonFunctionPointee (type : String)
  | methodWithoutOwner (selector : String)
  | expectedVariable
  | bodyNotCompound
  | stringByte (index : Nat) (value : Int64)
  | stringText
  | stringLength (bytes : Nat) (type : String) (room : Int64)
  | floatText
  | integerText (source : String)
  | constantText (source : String)
  | referenceKind (name : String)
  | messageWithoutTarget (selector : String)
  deriving DecidableEq, Repr

def DumpFault.text : DumpFault → String
  | .missingType => "missing type"
  | .missingDeclaration => "missing declaration"
  | .missingStatement => "missing statement"
  | .missingExpression => "missing expression"
  | .nonFunctionPointee type => "function pointer to non-function " ++ type
  | .methodWithoutOwner selector => "method " ++ selector ++ " has no owner class"
  | .expectedVariable => "expected variable declaration"
  | .bodyNotCompound => "function body must be a compound statement"
  | .stringByte index value =>
      "string literal byte " ++ Text.decimalNat index ++ " out of range: " ++ Text.decimal value
  | .stringText => "string literal: JSON"
  | .stringLength bytes type room =>
      "string literal has " ++ Text.decimalNat bytes ++ " bytes, its type " ++ type ++ " holds " ++
        Text.decimal room
  | .floatText => "float literal: JSON"
  | .integerText source => "int literal: invalid integer " ++ source
  | .constantText source => "const: invalid integer " ++ source
  | .referenceKind name => "unknown reference kind " ++ Text.quote name
  | .messageWithoutTarget selector => "message " ++ selector ++ " has neither receiver nor class"

/-- What a report is about. -/
inductive Cause
  | unsupported (construct : Unsupported)
  | variableLengthArray
  | violation (what : Violation)
  | nonConstantCase
  | unionTooSmall (target source : Int64)
  /-- The input at `path` is no JSON text of the dump's shape. -/
  | unreadableDump (path : String)
  /-- The dump at `path` is wrong at one of its places. -/
  | malformedDump (path place : String) (fault : DumpFault)
  | invalidConfig (field text : String)
  | fileAccess (operation path : String)
  | other (category code text : String)
  /-- A malformed dump described in free words. -/
  | otherDump (path text : String)
  deriving DecidableEq, Repr

namespace Cause

def category : Cause → String
  | .unsupported _ | .variableLengthArray => "UNSUPPORTED"
  | .violation _ | .nonConstantCase | .unionTooSmall _ _ => "INVARIANT"
  | .unreadableDump _ | .malformedDump _ _ _ | .otherDump _ _ => "DECODE"
  | .invalidConfig _ _ => "CONFIG"
  | .fileAccess _ _ => "IO"
  | .other category _ _ => category

def code : Cause → String
  | .unsupported _ => "UNSUPPORTED_CONSTRUCT"
  | .variableLengthArray => "VARIABLE_LENGTH_ARRAY"
  | .violation _ => "INVARIANT_VIOLATION"
  | .nonConstantCase => "NON_CONSTANT_CASE"
  | .unionTooSmall _ _ => "UNION_TOO_SMALL"
  | .unreadableDump _ | .malformedDump _ _ _ | .otherDump _ _ => "MALFORMED_DUMP"
  | .invalidConfig _ _ => "INVALID_CONFIG"
  | .fileAccess _ _ => "IO_FAILURE"
  | .other _ code _ => code

def text : Cause → String
  | .unsupported construct => "unsupported construct: " ++ construct.text
  | .variableLengthArray => "variable-length arrays are not supported"
  | .violation what => what.text
  | .nonConstantCase => "switch case label is not an integer constant"
  | .unionTooSmall target source =>
      "union coercion destination (" ++ Text.decimal target ++ " bytes) is smaller than source (" ++
        Text.decimal source ++ " bytes)"
  | .unreadableDump _ => "invalid dump: JSON"
  | .malformedDump _ place fault => place ++ ": " ++ fault.text
  | .invalidConfig field text => field ++ ": " ++ text
  | .fileAccess operation path => operation ++ " " ++ path
  | .other _ _ text => text
  | .otherDump _ text => text

/-- The file that a cause names on its own, without a position. -/
def path? : Cause → Option String
  | .unreadableDump path | .malformedDump path _ _ | .otherDump path _ => some path
  | .fileAccess _ path => some path
  | _ => none

end Cause

inductive Failure
  /-- A known cause at a place, possibly brought about by another failure. -/
  | report (cause : Cause) (position : Position) (origin : Option Failure)
  /-- A failure told in a text of its own, which stays as it was first told. -/
  | wrapped (text : String) (inner : Failure)
  | plain (text : String)
  /-- The run cannot go on: a null stands where a node is required, or a record holds itself. -/
  | crash
  deriving Inhabited

namespace Failure

/-- A report without a place. -/
def of (cause : Cause) : Failure := .report cause {} none

def unsupportedAt (position : Position) (what : Unsupported) : Failure :=
  .report (.unsupported what) position none

def unsupported (what : Unsupported) : Failure := .of (.unsupported what)

def violationAt (position : Position) (what : Violation) : Failure :=
  .report (.violation what) position none

def violation (what : Violation) : Failure := .of (.violation what)

/-- The cause in brackets, after its place and before what brought it about. -/
def message : Failure → String
  | .report cause position origin =>
      let words := "[" ++ cause.category ++ ":" ++ cause.code ++ "] " ++ cause.text
      let placed := if position.isValid then position.text ++ ": " ++ words else words
      match origin with
      | none => placed
      | some inner => placed ++ ": " ++ inner.message
  | .wrapped text _ => text
  | .plain text => text
  | .crash => ""

/-- The failure with words put in front. -/
def wrap (words : String) (f : Failure) : Failure := .wrapped (words ++ ": " ++ f.message) f

/-- The first report of the chain: its cause, place and origin. -/
def report? : Failure → Option (Cause × Position × Option Failure)
  | .report cause position origin => some (cause, position, origin)
  | .wrapped _ inner => inner.report?
  | .plain _ => none
  | .crash => none

/-- What the outermost failure wraps. -/
def inner? : Failure → Option Failure
  | .report _ _ origin => origin
  | .wrapped _ inner => some inner
  | .plain _ => none
  | .crash => none

/-- The first report moved to `position`. -/
def moveTo (position : Position) : Failure → Failure
  | .report cause _ origin => .report cause position origin
  | .wrapped text inner => .wrapped text (inner.moveTo position)
  | .plain text => .plain text
  | .crash => .crash

/-- The first report placed at `position`, unless it has a place or `position` names none. -/
def locate (position : Position) (f : Failure) : Failure :=
  match f.report? with
  | some (_, p, _) => if position.isValid && !p.isValid then f.moveTo position else f
  | none => f

/-- The run was brought to an end, and there is nothing to report. -/
def isCrash : Failure → Bool
  | .crash => true
  | .wrapped _ inner => inner.isCrash
  | .report _ _ _ => false
  | .plain _ => false

def category? (f : Failure) : Option String := f.report?.map (·.1.category)

end Failure

/-- A result that may fail. -/
abbrev Result := Except Failure

/-- Failures of `r` that have no place get `position`. -/
def Result.locate {α : Type} (position : Position) (r : Result α) : Result α :=
  match r with
  | .ok a => .ok a
  | .error f => .error (f.locate position)

end DartLowering
