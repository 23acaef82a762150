import DartLowering.Text.Decimal
import DartLowering.Text.Lines

/-!
The emitted code as a tree, and its text. Expressions print on one line; statements print as lines,
each indented by two spaces for every block around it.
-/
namespace DartLowering

inductive Code
  /-- An identifier, a class name, `this` or `null`. -/
  | name (text : String)
  | int (value : Int64)
  /-- A floating literal in its written form. -/
  | double (text : String)
  | paren (inner : Code)
  /-- `receiver.name` -/
  | property (receiver : Code) (name : String)
  /-- `receiver.method(args)` -/
  | invoke (receiver : Code) (method : String) (args : List Code)
  /-- `callee(args)` -/
  | apply (callee : Code) (args : List Code)
  | list (items : List Code)
  /-- A list of bytes. -/
  | bytes (items : List Nat)
  /-- A function without parameters that returns `body`. -/
  | closure (body : Code)
  /-- Evaluates `first`, then `second`, whose value it has. -/
  | sequence (first second : Code)
  /-- The value of `body` where the temporary stands for `value`. -/
  | bind (value body : Code)
  | nonZero (value : Code)
  | choose (cond then_ else_ : Code)
  | castTo (value : Code) (type : String)
  deriving Inhabited

namespace Code

/-- The name that `bind` introduces. -/
def temporary : String := "__tmp"

mutual

def text : Code → String
  | .name text => text
  | .int value => Text.decimal value
  | .double text => text
  | .paren inner => "(" ++ inner.text ++ ")"
  | .property receiver field => receiver.text ++ "." ++ field
  | .invoke receiver method args =>
      receiver.text ++ "." ++ method ++ "(" ++ Text.join ", " (texts args) ++ ")"
  | .apply callee args => callee.text ++ "(" ++ Text.join ", " (texts args) ++ ")"
  | .list items => "[" ++ Text.join ", " (texts items) ++ "]"
  | .bytes items => "<int>[" ++ Text.join ", " (items.map Text.decimalNat) ++ "]"
  | .closure body => "() => " ++ body.text
  | .sequence first second =>
      "() \x7b " ++ first.text ++ "; return " ++ second.text ++ "; \x7d()"
  | .bind value body =>
      "() \x7b var " ++ temporary ++ " = " ++ value.text ++ "; return " ++ body.text ++ "; \x7d()"
  | .nonZero value => value.text ++ " != 0"
  | .choose cond then_ else_ => cond.text ++ " ? " ++ then_.text ++ " : " ++ else_.text
  | .castTo value type => value.text ++ " as " ++ type

def texts : List Code → List String
  | [] => []
  | c :: cs => c.text :: texts cs

end

end Code

/-- A declared variable and its first value. -/
structure Declarator where
  name : String
  value : Code

/-- What a loop does before its first test. -/
inductive LoopStart
  | nothing
  | evaluate (value : Code)
  /-- Declarators of one type; without any nothing is written. -/
  | declare (type : String) (vars : List Declarator)

/-- How a case of an emitted switch is selected. -/
inductive Selector
  | value (v : Int64)
  | default
  deriving DecidableEq, Repr

mutual

inductive CodeStmt
  | evaluate (value : Code)
  | declare (type : String) (var : Declarator)
  | ret (value : Option Code)
  | brk
  | cont
  /-- Goes on with the case of that label. -/
  | contAt (label : String)
  | empty
  | block (body : List CodeStmt)
  | ifElse (cond : Code) (body : List CodeStmt) (rest : ElseBranch)
  | whileLoop (cond : Code) (body : List CodeStmt)
  | doLoop (body : List CodeStmt) (cond : Code)
  | forLoop (start : LoopStart) (cond step : Option Code) (body : List CodeStmt)
  | switch (subject : Code) (cases : List CodeCase)

inductive ElseBranch
  | none
  | block (body : List CodeStmt)
  | elseIf (cond : Code) (body : List CodeStmt) (rest : ElseBranch)

/-- A labelled case; its body ends in an exit of its own. -/
inductive CodeCase
  | mk (label : String) (selector : Selector) (body : List CodeStmt)

end

def Declarator.text (d : Declarator) : String := d.name ++ " = " ++ d.value.text

def LoopStart.text : LoopStart → String
  | .nothing => ""
  | .evaluate value => value.text
  | .declare type vars =>
      match vars with
      | [] => ""
      | vars => type ++ " " ++ Text.join ", " (vars.map Declarator.text)

def Selector.text : Selector → String
  | .value v => "case " ++ Text.decimal v ++ ":"
  | .default => "default:"

/-- A line of code inside `level` blocks. -/
def indented (level : Nat) (line : String) : String := Text.spaces (2 * level) ++ line

def optionText : Option Code → String
  | none => ""
  | some c => c.text

mutual

/-- The lines of a statement inside `level` blocks. -/
def CodeStmt.lines (level : Nat) : CodeStmt → List String
  | .evaluate value => [indented level (value.text ++ ";")]
  | .declare type var => [indented level (type ++ " " ++ var.text ++ ";")]
  | .ret none => [indented level "return;"]
  | .ret (some value) => [indented level ("return " ++ value.text ++ ";")]
  | .brk => [indented level "break;"]
  | .cont => [indented level "continue;"]
  | .contAt label => [indented level ("continue " ++ label ++ ";")]
  | .empty => [indented level ";"]
  | .block body =>
      [indented level "\x7b"] ++ CodeStmt.linesOf (level + 1) body ++ [indented level "\x7d"]
  | .ifElse cond body rest =>
      [indented level ("if (" ++ cond.text ++ ") \x7b")] ++ CodeStmt.linesOf (level + 1) body ++
        rest.lines level
  | .whileLoop cond body =>
      [indented level ("while (" ++ cond.text ++ ") \x7b")] ++ CodeStmt.linesOf (level + 1) body ++
        [indented level "\x7d"]
  | .doLoop body cond =>
      [indented level "do \x7b"] ++ CodeStmt.linesOf (level + 1) body ++
        [indented level ("\x7d while (" ++ cond.text ++ ");")]
  | .forLoop start cond step body =>
      [indented level ("for (" ++ start.text ++ "; " ++ optionText cond ++ "; " ++
        optionText step ++ ") \x7b")] ++ CodeStmt.linesOf (level + 1) body ++
          [indented level "\x7d"]
  | .switch subject cases =>
      [indented level ("switch (" ++ subject.text ++ ") \x7b")] ++
        CodeCase.linesOf (level + 1) cases ++ [indented level "\x7d"]

def CodeStmt.linesOf (level : Nat) : List CodeStmt → List String
  | [] => []
  | s :: ss => s.lines level ++ CodeStmt.linesOf level ss

/-- The lines that close a branch and hold the branches after it. -/
def ElseBranch.lines (level : Nat) : ElseBranch → List String
  | .none => [indented level "\x7d"]
  | .block body =>
      [indented level "\x7d else \x7b"] ++ CodeStmt.linesOf (level + 1) body ++
        [indented level "\x7d"]
  | .elseIf cond body rest =>
      [indented level ("\x7d else if (" ++ cond.text ++ ") \x7b")] ++
        CodeStmt.linesOf (level + 1) body ++ rest.lines level

def CodeCase.lines (level : Nat) : CodeCase → List String
  | .mk label selector body =>
      [indented level (label ++ ": " ++ selector.text)] ++ CodeStmt.linesOf (level + 1) body

def CodeCase.linesOf (level : Nat) : List CodeCase → List String
  | [] => []
  | c :: cs => c.lines level ++ CodeCase.linesOf level cs

end

/-- A function or method with its body. -/
structure CodeFunction where
  isStatic : Bool
  result : String
  name : String
  /-- Types and names of the parameters. -/
  params : List (String × String)
  body : List CodeStmt

def CodeFunction.lines (level : Nat) (f : CodeFunction) : List String :=
  let params := f.params.map fun p => p.1 ++ " " ++ p.2
  [indented level ((if f.isStatic then "static " else "") ++ f.result ++ " " ++ f.name ++ "(" ++
    Text.join ", " params ++ ") \x7b")] ++ CodeStmt.linesOf (level + 1) f.body ++
    [indented level "\x7d"]

/-- A top-level piece of the emitted file. -/
inductive CodeItem
  | function (f : CodeFunction)
  /-- The program's start: `inner` is called with the given arguments. -/
  | main (inner : CodeFunction) (args : List Code)
  | class (name base : String) (methods : List CodeFunction)
  | variable (type : String) (var : Declarator)

/-- Methods with an empty line between them. -/
def methodLines (level : Nat) : List CodeFunction → List String
  | [] => []
  | [f] => f.lines level
  | f :: g :: fs => f.lines level ++ [""] ++ methodLines level (g :: fs)

def CodeItem.lines : CodeItem → List String
  | .function f => f.lines 0
  | .main inner args =>
      ["void main() \x7b"] ++ inner.lines 1 ++
        [indented 1 (Code.apply (.name inner.name) args).text ++ ";", "\x7d"]
  | .class name base methods =>
      ["class " ++ name ++ " extends " ++ base ++ " \x7b"] ++ methodLines 1 methods ++ ["\x7d"]
  | .variable type var => [type ++ " " ++ var.text ++ ";"]

/-- A whole emitted file: fixed lines, an empty line, and the items with empty lines between. -/
structure CodeFile where
  header : String
  imports : List String
  items : List CodeItem

def itemLines : List CodeItem → List String
  | [] => []
  | [i] => i.lines
  | i :: j :: is => i.lines ++ [""] ++ itemLines (j :: is)

def CodeFile.lines (f : CodeFile) : List String :=
  [f.header] ++ f.imports.map (fun uri => "import '" ++ uri ++ "';") ++ [""] ++ itemLines f.items

/-- Every line with its line feed. -/
def unlines (lines : List String) : String := String.join (lines.map (· ++ "\n"))

def CodeFile.text (f : CodeFile) : String := unlines f.lines

end DartLowering
