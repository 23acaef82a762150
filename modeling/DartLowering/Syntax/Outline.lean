import DartLowering.Syntax.Stmt

/-!
The nodes below a declaration, in the order in which they are written, with their depth.
-/
namespace DartLowering

/-- One node of an outline. -/
structure OutlineRow where
  depth : Nat
  kind : String
  text : String
  position : Position
  type : Option CType := none

namespace Expr

def row (depth : Nat) (e : Expr) : OutlineRow := ⟨depth, e.kindName, e.text, e.position, e.type⟩

mutual

def outline (depth : Nat) : Expr → List OutlineRow
  | .binary info op lhs rhs =>
      row depth (.binary info op lhs rhs) :: lhs.outline (depth + 1) ++ rhs.outline (depth + 1)
  | .unary info op operand => row depth (.unary info op operand) :: operand.outline (depth + 1)
  | .call info callee args variadic builtin =>
      row depth (.call info callee args variadic builtin) ::
        callee.outline (depth + 1) ++ outlines (depth + 1) args
  | .member info base arrow field =>
      row depth (.member info base arrow field) :: base.outline (depth + 1)
  | .subscript info base index =>
      row depth (.subscript info base index) :: base.outline (depth + 1) ++
        index.outline (depth + 1)
  | .cast info kind operand isExplicit =>
      row depth (.cast info kind operand isExplicit) :: operand.outline (depth + 1)
  | .listNext info list => row depth (.listNext info list) :: list.outline (depth + 1)
  | .conditional info cond then_ else_ =>
      row depth (.conditional info cond then_ else_) ::
        cond.outline (depth + 1) ++ then_.outline (depth + 1) ++ else_.outline (depth + 1)
  | .message info receiver selector args =>
      row depth (.message info receiver selector args) ::
        receiver.outline (depth + 1) ++ outlines (depth + 1) args
  | .classMessage info className selector args =>
      row depth (.classMessage info className selector args) :: outlines (depth + 1) args
  | e => [row depth e]

def outlines (depth : Nat) : List Expr → List OutlineRow
  | [] => []
  | e :: es => e.outline depth ++ outlines depth es

end

end Expr

def optionalOutline (depth : Nat) : Option Expr → List OutlineRow
  | none => []
  | some e => e.outline depth

def VarDecl.outline (depth : Nat) (v : VarDecl) : List OutlineRow :=
  ⟨depth, "VarDecl", v.text, v.position, some v.type⟩ :: optionalOutline (depth + 1) v.init

mutual

def Stmt.outline (depth : Nat) : Stmt → List OutlineRow
  | .compound position body =>
      ⟨depth, "CompoundStmt", (Stmt.compound position body).text, position, none⟩ ::
        Stmt.outlines (depth + 1) body
  | .ifElse position cond then_ else_ =>
      ⟨depth, "IfStmt", (Stmt.ifElse position cond then_ else_).text, position, none⟩ ::
        cond.outline (depth + 1) ++ then_.outline (depth + 1) ++ Stmt.optional (depth + 1) else_
  | .whileLoop position cond body =>
      ⟨depth, "WhileStmt", (Stmt.whileLoop position cond body).text, position, none⟩ ::
        cond.outline (depth + 1) ++ body.outline (depth + 1)
  | .doLoop position body cond =>
      ⟨depth, "DoStmt", (Stmt.doLoop position body cond).text, position, none⟩ ::
        body.outline (depth + 1) ++ cond.outline (depth + 1)
  | .forLoop position init cond inc body =>
      ⟨depth, "ForStmt", (Stmt.forLoop position init cond inc body).text, position, none⟩ ::
        Stmt.optional (depth + 1) init ++ optionalOutline (depth + 1) cond ++
        optionalOutline (depth + 1) inc ++ body.outline (depth + 1)
  | .switch position cond cases =>
      ⟨depth, "SwitchStmt", (Stmt.switch position cond cases).text, position, none⟩ ::
        cond.outline (depth + 1) ++ SwitchCase.outlines (depth + 1) cases
  | .ret position value =>
      ⟨depth, "ReturnStmt", (Stmt.ret position value).text, position, none⟩ ::
        optionalOutline (depth + 1) value
  | .decl position vars =>
      ⟨depth, "DeclStmt", (Stmt.decl position vars).text, position, none⟩ ::
        vars.flatMap (VarDecl.outline (depth + 1))
  | .expr position value =>
      ⟨depth, "ExprStmt", value.text, position, none⟩ :: value.outline (depth + 1)
  | .brk position => [⟨depth, "BreakStmt", "break", position, none⟩]
  | .cont position => [⟨depth, "ContinueStmt", "continue", position, none⟩]
  | .null position => [⟨depth, "NullStmt", ";", position, none⟩]

def Stmt.optional (depth : Nat) : Option Stmt → List OutlineRow
  | none => []
  | some s => s.outline depth

def Stmt.outlines (depth : Nat) : List Stmt → List OutlineRow
  | [] => []
  | s :: ss => s.outline depth ++ Stmt.outlines depth ss

def SwitchCase.outline (depth : Nat) : SwitchCase → List OutlineRow
  | .mk position label body =>
      let text :=
        match label with
        | none => "default"
        | some e => e.text
      ⟨depth, "SwitchCase", text, position, none⟩ :: Stmt.outlines (depth + 1) body

def SwitchCase.outlines (depth : Nat) : List SwitchCase → List OutlineRow
  | [] => []
  | c :: cs => c.outline depth ++ SwitchCase.outlines depth cs

end

/-- The nodes of the body, or of a variable's first value. -/
def Decl.outline : Decl → List OutlineRow
  | .func d =>
      match d.body with
      | none => []
      | some body => (Stmt.compound d.bodyPosition body).outline 0
  | .method d =>
      match d.body with
      | none => []
      | some body => (Stmt.compound d.bodyPosition body).outline 0
  | .var d => optionalOutline 0 d.init

end DartLowering
