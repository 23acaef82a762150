import DartLowering.Layout.TypeEnv
import DartLowering.Number.Truncate
import DartLowering.Syntax.Expr

/-!
Integer constant expressions. A value that the front end recorded is taken as it is; otherwise
literals, sizes, conversions and operators are evaluated in 64-bit words and each result is reduced
to the type of its node.
-/
namespace DartLowering

open Number

/-- `v` as a value of the integer type `t`. -/
def CType.fit (t : CType) (v : Int64) : Int64 :=
  match t.scalar? with
  | none => v
  | some s => if s.kind = .bool then ofBool (v ≠ 0) else truncate v s.bits s.signed

/-- The value recorded for a node of integer type, or else the computed one in the node's type. -/
def ExprInfo.value (info : ExprInfo) (compute : Unit → Option Int64) : Option Int64 :=
  match info.type with
  | none => none
  | some t =>
      if !t.isInteger then none
      else
        match info.constant with
        | some v => some v
        | none => (compute ()).map t.fit

def UnaryOp.evaluate (v : Int64) : UnaryOp → Option Int64
  | .plus => some v
  | .minus => some (-v)
  | .bitNot => some (~~~v)
  | .logicalNot => some (ofBool (v = 0))
  | _ => none

/-- Comparison of words, as unsigned numbers where the left operand is unsigned. -/
def less (unsigned : Bool) (l r : Int64) : Bool :=
  if unsigned then l.toUInt64 < r.toUInt64 else l < r

/-- Operators that need both operands. -/
def BinaryOp.evaluate (unsigned : Bool) (l r : Int64) : BinaryOp → Option Int64
  | .add => some (l + r)
  | .sub => some (l - r)
  | .mul => some (l * r)
  | .div =>
      if r = 0 then none
      else if unsigned then some (l.toUInt64 / r.toUInt64).toInt64
      else some (l / r)
  | .rem =>
      if r = 0 then none
      else if unsigned then some (l.toUInt64 % r.toUInt64).toInt64
      else some (l % r)
  | .shl => if r < 0 || 63 < r then none else some (l <<< r)
  | .shr =>
      if r < 0 || 63 < r then none
      else if unsigned then some (l.toUInt64 >>> r.toUInt64).toInt64
      else some (l >>> r)
  | .bitAnd => some (l &&& r)
  | .bitOr => some (l ||| r)
  | .bitXor => some (l ^^^ r)
  | .lt => some (ofBool (less unsigned l r))
  | .gt => some (ofBool (less unsigned r l))
  | .le => some (ofBool (!less unsigned r l))
  | .ge => some (ofBool (!less unsigned l r))
  | .eq => some (ofBool (l = r))
  | .ne => some (ofBool (l ≠ r))
  | _ => none

/-- The type of the expression is a signed scalar. -/
def Expr.isSigned (e : Expr) : Bool := e.scalar?.any (·.signed)

/-- The value of a binary expression; the right operand of a logical operator counts only where the
left one does not decide. -/
def foldBinary (op : BinaryOp) (unsigned : Bool) (lhs : Option Int64) (rhs : Unit → Option Int64) :
    Option Int64 :=
  match lhs with
  | none => none
  | some l =>
      match op with
      | .logicalAnd => if l = 0 then some 0 else (rhs ()).map fun r => ofBool (r ≠ 0)
      | .logicalOr => if l ≠ 0 then some 1 else (rhs ()).map fun r => ofBool (r ≠ 0)
      | op =>
          match rhs () with
          | none => none
          | some r => op.evaluate unsigned l r

/-- The value of an integer constant expression. -/
def TypeEnv.constant? (env : TypeEnv) : Expr → Option Int64
  | .int info value => info.value fun _ => some value
  | .sizeOf info arg => info.value fun _ => (env.extent arg).toOption.map (·.size)
  | .cast info kind operand _ =>
      info.value fun _ =>
        match kind with
        | .integralCast | .noOp => env.constant? operand
        | .integralToBoolean => (env.constant? operand).map fun v => ofBool (v ≠ 0)
        | _ => none
  | .unary info op operand =>
      info.value fun _ =>
        match env.constant? operand with
        | none => none
        | some v => op.evaluate v
  | .binary info op lhs rhs =>
      info.value fun _ =>
        foldBinary op (!lhs.isSigned) (env.constant? lhs) fun _ => env.constant? rhs
  | .conditional info cond then_ else_ =>
      info.value fun _ =>
        match env.constant? cond with
        | none => none
        | some c => if c ≠ 0 then env.constant? then_ else env.constant? else_
  | e => e.info.value fun _ => none

end DartLowering
