import DartLowering.Number.Double
import DartLowering.Source.Position
import DartLowering.Syntax.Operator
import DartLowering.Syntax.Type
import DartLowering.Text.Quoted

/-!
Expressions with their resolved types and the texts that messages show for them.
-/
namespace DartLowering

/-- What every expression carries: its place, its type, and its value where the front end
evaluated it. -/
structure ExprInfo where
  position : Position := {}
  type : Option CType := none
  constant : Option Int64 := none
  deriving Inhabited

/-- What a name stands for. -/
inductive RefKind
  | var | parameter | function | self
  deriving DecidableEq, Repr

inductive Expr
  /-- A child that the tree lacks. -/
  | absent
  | int (info : ExprInfo) (value : Int64)
  | float (info : ExprInfo) (value : Float)
  | string (info : ExprInfo) (bytes : List UInt8)
  | ref (info : ExprInfo) (name : String) (kind : RefKind)
  | binary (info : ExprInfo) (op : BinaryOp) (lhs rhs : Expr)
  | unary (info : ExprInfo) (op : UnaryOp) (operand : Expr)
  | call (info : ExprInfo) (callee : Expr) (args : List Expr) (variadic : Bool) (builtin : Builtin)
  | member (info : ExprInfo) (base : Expr) (arrow : Bool) (field : String)
  | subscript (info : ExprInfo) (base index : Expr)
  | cast (info : ExprInfo) (kind : CastKind) (operand : Expr) (isExplicit : Bool)
  | sizeOf (info : ExprInfo) (arg : CType)
  | listNext (info : ExprInfo) (list : Expr)
  | conditional (info : ExprInfo) (cond then_ else_ : Expr)
  | message (info : ExprInfo) (receiver : Expr) (selector : String) (args : List Expr)
  | classMessage (info : ExprInfo) (className selector : String) (args : List Expr)
  deriving Inhabited

namespace Expr

def info : Expr → ExprInfo
  | .absent => {}
  | .int info _ | .float info _ | .string info _ | .ref info _ _ | .binary info _ _ _
  | .unary info _ _ | .call info _ _ _ _ | .member info _ _ _ | .subscript info _ _
  | .cast info _ _ _ | .sizeOf info _ | .listNext info _ | .conditional info _ _ _
  | .message info _ _ _ | .classMessage info _ _ _ => info

def position (e : Expr) : Position := e.info.position

def type (e : Expr) : Option CType := e.info.type

def scalar? (e : Expr) : Option Scalar := e.type.bind CType.scalar?

def isInteger (e : Expr) : Bool := e.type.any CType.isInteger

/-- The expression with a value recorded for it. -/
def withConstant (v : Int64) : Expr → Expr
  | .absent => .absent
  | .int info value => .int { info with constant := some v } value
  | .float info value => .float { info with constant := some v } value
  | .string info bytes => .string { info with constant := some v } bytes
  | .ref info name kind => .ref { info with constant := some v } name kind
  | .binary info op lhs rhs => .binary { info with constant := some v } op lhs rhs
  | .unary info op operand => .unary { info with constant := some v } op operand
  | .call info callee args variadic builtin =>
      .call { info with constant := some v } callee args variadic builtin
  | .member info base arrow field => .member { info with constant := some v } base arrow field
  | .subscript info base index => .subscript { info with constant := some v } base index
  | .cast info kind operand isExplicit =>
      .cast { info with constant := some v } kind operand isExplicit
  | .sizeOf info arg => .sizeOf { info with constant := some v } arg
  | .listNext info list => .listNext { info with constant := some v } list
  | .conditional info cond then_ else_ =>
      .conditional { info with constant := some v } cond then_ else_
  | .message info receiver selector args =>
      .message { info with constant := some v } receiver selector args
  | .classMessage info className selector args =>
      .classMessage { info with constant := some v } className selector args

/-- The type that a conversion or list read names in its own text. -/
def namedType (info : ExprInfo) : String :=
  match info.type with
  | some t => t.text
  | none => "%!s(<nil>)"

mutual

def text : Expr → String
  | .absent => "%!s(<nil>)"
  | .int _ value => Text.decimal value
  | .float _ value => Number.doubleText value
  | .string _ bytes => Text.quoteBytes bytes
  | .ref _ name _ => name
  | .binary _ op lhs rhs => "(" ++ lhs.text ++ " " ++ op.spelling ++ " " ++ rhs.text ++ ")"
  | .unary _ op operand =>
      match op with
      | .postInc => operand.text ++ "++"
      | .postDec => operand.text ++ "--"
      | op => op.spelling ++ operand.text
  | .call _ callee args _ _ => callee.text ++ "(" ++ Text.join ", " (texts args) ++ ")"
  | .member _ base arrow field => base.text ++ (if arrow then "->" else ".") ++ field
  | .subscript _ base index => base.text ++ "[" ++ index.text ++ "]"
  | .cast info _ operand isExplicit =>
      if isExplicit then "(" ++ namedType info ++ ")" ++ operand.text else operand.text
  | .sizeOf _ arg => "sizeof(" ++ arg.text ++ ")"
  | .listNext info list => "va_arg(" ++ list.text ++ ", " ++ namedType info ++ ")"
  | .conditional _ cond then_ else_ =>
      "(" ++ cond.text ++ " ? " ++ then_.text ++ " : " ++ else_.text ++ ")"
  | .message _ receiver selector args =>
      "[" ++ Text.join " " (receiver.text :: selector :: argumentText args) ++ "]"
  | .classMessage _ className selector args =>
      "[" ++ Text.join " " (className :: selector :: argumentText args) ++ "]"

def texts : List Expr → List String
  | [] => []
  | e :: es => e.text :: texts es

/-- The arguments of a message, nothing when there are none. -/
def argumentText : List Expr → List String
  | [] => []
  | e :: es => [Text.join ", " (e.text :: texts es)]

end

/-- The name of the node's kind. -/
def kindName : Expr → String
  | .absent => "<nil>"
  | .int _ _ => "IntLiteral"
  | .float _ _ => "FloatLiteral"
  | .string _ _ => "StringLiteral"
  | .ref _ _ _ => "NameRef"
  | .binary _ _ _ _ => "BinaryExpr"
  | .unary _ _ _ => "UnaryExpr"
  | .call _ _ _ _ _ => "CallExpr"
  | .member _ _ _ _ => "MemberExpr"
  | .subscript _ _ _ => "SubscriptExpr"
  | .cast _ _ _ _ => "CastExpr"
  | .sizeOf _ _ => "SizeOfExpr"
  | .listNext _ _ => "VarArgExpr"
  | .conditional _ _ _ _ => "ConditionalExpr"
  | .message _ _ _ _ => "MessageExpr"
  | .classMessage _ _ _ _ => "MessageExpr"

/-- The expression without the conversions in front of it that leave the emitted value alone. -/
def stripTransparent : Expr → Expr
  | .cast info kind operand isExplicit =>
      if kind = .lvalueToRvalue || kind = .noOp then operand.stripTransparent
      else .cast info kind operand isExplicit
  | e => e

/-- The name at the bottom of a callee, below decays of functions to pointers. -/
def calleeName? : Expr → Option (ExprInfo × String × RefKind)
  | .cast _ kind operand _ =>
      if kind = .functionToPointerDecay || kind = .noOp then operand.calleeName? else none
  | .ref info name kind => some (info, name, kind)
  | _ => none

/-- The function that a callee names directly. -/
def directCallee? (callee : Expr) : Option (ExprInfo × String) :=
  match callee.calleeName? with
  | some (info, name, kind) => if kind = .function then some (info, name) else none
  | none => none

/-- An argument list without the conversions around it. -/
def stripList : Expr → Expr
  | .cast info kind operand isExplicit =>
      if kind = .arrayToPointerDecay || kind = .lvalueToRvalue || kind = .noOp then
        operand.stripList
      else .cast info kind operand isExplicit
  | e => e

/-- A call that ends a list, perhaps under conversions to void. -/
def isListEnd : Expr → Bool
  | .cast _ kind operand _ => kind = .toVoid && operand.isListEnd
  | .call _ _ _ _ builtin => builtin = .listEnd
  | _ => false

end DartLowering.Expr
