import DartLowering.Syntax.Expr

/-!
Statements and top-level declarations of a unit.
-/
namespace DartLowering

/-- A variable, at file scope or local. -/
structure VarDecl where
  position : Position := {}
  name : String
  type : CType
  init : Option Expr := none

mutual

inductive Stmt
  | compound (position : Position) (body : List Stmt)
  | ifElse (position : Position) (cond : Expr) (then_ : Stmt) (else_ : Option Stmt)
  | whileLoop (position : Position) (cond : Expr) (body : Stmt)
  | doLoop (position : Position) (body : Stmt) (cond : Expr)
  | forLoop (position : Position) (init : Option Stmt) (cond inc : Option Expr) (body : Stmt)
  | switch (position : Position) (cond : Expr) (cases : List SwitchCase)
  | brk (position : Position)
  | cont (position : Position)
  | ret (position : Position) (value : Option Expr)
  | decl (position : Position) (vars : List VarDecl)
  | expr (position : Position) (value : Expr)
  | null (position : Position)

/-- One arm of a switch; the default arm has no label. -/
inductive SwitchCase
  | mk (position : Position) (label : Option Expr) (body : List Stmt)

end

namespace SwitchCase

def position : SwitchCase → Position
  | .mk position _ _ => position

def label : SwitchCase → Option Expr
  | .mk _ label _ => label

def body : SwitchCase → List Stmt
  | .mk _ _ body => body

def isDefault (c : SwitchCase) : Bool := c.label.isNone

end SwitchCase

namespace Stmt

def position : Stmt → Position
  | .compound p _ | .ifElse p _ _ _ | .whileLoop p _ _ | .doLoop p _ _
  | .forLoop p _ _ _ _ | .switch p _ _
  | .brk p | .cont p | .ret p _ | .decl p _ | .expr p _ | .null p => p

def text : Stmt → String
  | .compound _ body => "\x7b " ++ Text.decimalNat body.length ++ " statements \x7d"
  | .ifElse _ cond _ _ => "if (" ++ cond.text ++ ")"
  | .whileLoop _ cond _ => "while (" ++ cond.text ++ ")"
  | .doLoop _ _ cond => "do ... while (" ++ cond.text ++ ")"
  | .forLoop _ _ _ _ _ => "for (...)"
  | .switch _ cond _ => "switch (" ++ cond.text ++ ")"
  | .brk _ => "break"
  | .cont _ => "continue"
  | .ret _ none => "return"
  | .ret _ (some value) => "return " ++ value.text
  | .decl _ vars => "declare " ++ Text.join ", " (vars.map (·.name))
  | .expr _ value => value.text
  | .null _ => ";"

def kindName : Stmt → String
  | .compound _ _ => "CompoundStmt"
  | .ifElse _ _ _ _ => "IfStmt"
  | .whileLoop _ _ _ => "WhileStmt"
  | .doLoop _ _ _ => "DoStmt"
  | .forLoop _ _ _ _ _ => "ForStmt"
  | .switch _ _ _ => "SwitchStmt"
  | .brk _ => "BreakStmt"
  | .cont _ => "ContinueStmt"
  | .ret _ _ => "ReturnStmt"
  | .decl _ _ => "DeclStmt"
  | .expr _ _ => "ExprStmt"
  | .null _ => "NullStmt"

end Stmt

structure Param where
  position : Position := {}
  name : String
  type : CType

/-- A function, a prototype when it has no body. -/
structure FuncDecl where
  position : Position := {}
  name : String
  params : List Param
  result : CType
  body : Option (List Stmt)
  bodyPosition : Position := {}
  variadic : Bool
  /-- The program starts here. -/
  entry : Bool

/-- A method of a class, only declared when it has no body. -/
structure MethodDecl where
  position : Position := {}
  owner : String
  selector : String
  params : List Param
  result : CType
  body : Option (List Stmt)
  bodyPosition : Position := {}
  classMethod : Bool

inductive Decl
  | func (d : FuncDecl)
  | method (d : MethodDecl)
  | var (d : VarDecl)

/-- One source file with its declarations. -/
structure SourceUnit where
  name : String
  file : String
  decls : List Decl

def VarDecl.text (v : VarDecl) : String := v.type.text ++ " " ++ v.name

def FuncDecl.text (d : FuncDecl) : String :=
  let params := d.params.map fun p => p.type.text ++ " " ++ p.name
  d.result.text ++ " " ++ d.name ++ "(" ++
    Text.join ", " (params ++ if d.variadic then ["..."] else []) ++ ")"

def MethodDecl.text (d : MethodDecl) : String :=
  (if d.classMethod then "+[" else "-[") ++ d.owner ++ " " ++ d.selector ++ "]"

namespace Decl

def position : Decl → Position
  | .func d => d.position
  | .method d => d.position
  | .var d => d.position

def text : Decl → String
  | .func d => d.text
  | .method d => d.text
  | .var d => d.text

def kindName : Decl → String
  | .func _ => "FuncDecl"
  | .method _ => "MethodDecl"
  | .var _ => "VarDecl"

end DartLowering.Decl
