import DartLowering.Syntax.Stmt

/-!
Texts of expressions and statements as they are put together. A node asks some of its children for
their texts, and stops short where such a child is missing or stops short itself. The other children
it puts into a format, which shows a mark in their place.
-/
namespace DartLowering

namespace Expr

/-- What a format shows for a child that has the text `own`. -/
def inFormat (own : Option String) : Expr → String
  | .absent => "%!s(<nil>)"
  | _ => own.getD ("%!s(PANIC=String method: runtime error: " ++
      "invalid memory address or nil pointer dereference)")

/-- The texts of the arguments in a message, nothing when there are none. -/
def inMessage (texts : List String) : List String :=
  if texts.isEmpty then [] else [Text.join ", " texts]

mutual

/-- The text of an expression, `none` where it stops short. -/
def assembled : Expr → Option String
  | .absent => none
  | .int _ value => some (Text.decimal value)
  | .float _ value => some (Number.doubleText value)
  | .string _ bytes => some (Text.quoteBytes bytes)
  | .ref _ name _ => some name
  | .binary _ op lhs rhs =>
      some ("(" ++ lhs.inFormat lhs.assembled ++ " " ++ op.spelling ++ " " ++
        rhs.inFormat rhs.assembled ++ ")")
  | .unary _ op operand => do
      let text ← operand.assembled
      match op with
      | .postInc => some (text ++ "++")
      | .postDec => some (text ++ "--")
      | op => some (op.spelling ++ text)
  | .call _ callee args _ _ => do
      let texts ← assembledAll args
      some (callee.inFormat callee.assembled ++ "(" ++ Text.join ", " texts ++ ")")
  | .member _ base arrow field => do
      let text ← base.assembled
      some (text ++ (if arrow then "->" else ".") ++ field)
  | .subscript _ base index =>
      some (base.inFormat base.assembled ++ "[" ++ index.inFormat index.assembled ++ "]")
  | .cast info _ operand isExplicit =>
      if isExplicit then some ("(" ++ namedType info ++ ")" ++ operand.inFormat operand.assembled)
      else operand.assembled
  | .sizeOf _ arg => some ("sizeof(" ++ arg.text ++ ")")
  | .listNext info list =>
      some ("va_arg(" ++ list.inFormat list.assembled ++ ", " ++ namedType info ++ ")")
  | .conditional _ cond then_ else_ =>
      some ("(" ++ cond.inFormat cond.assembled ++ " ? " ++ then_.inFormat then_.assembled ++
        " : " ++ else_.inFormat else_.assembled ++ ")")
  | .message _ receiver selector args => do
      let target ← receiver.assembled
      let texts ← assembledAll args
      some ("[" ++ Text.join " " (target :: selector :: inMessage texts) ++ "]")
  | .classMessage _ className selector args => do
      let texts ← assembledAll args
      some ("[" ++ Text.join " " (className :: selector :: inMessage texts) ++ "]")

def assembledAll : List Expr → Option (List String)
  | [] => some []
  | e :: es => do
      let text ← e.assembled
      let texts ← assembledAll es
      some (text :: texts)

end

end Expr

/-- The text of a statement, `none` where it stops short. -/
def Stmt.assembled : Stmt → Option String
  | .ifElse _ cond _ _ => some ("if (" ++ cond.inFormat cond.assembled ++ ")")
  | .whileLoop _ cond _ => some ("while (" ++ cond.inFormat cond.assembled ++ ")")
  | .doLoop _ _ cond => some ("do ... while (" ++ cond.inFormat cond.assembled ++ ")")
  | .switch _ cond _ => some ("switch (" ++ cond.inFormat cond.assembled ++ ")")
  | .ret _ (some value) => do
      let text ← value.assembled
      some ("return " ++ text)
  | .expr _ value => value.assembled
  | s => some s.text

end DartLowering
