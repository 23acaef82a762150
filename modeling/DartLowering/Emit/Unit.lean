import DartLowering.Emit.Stmt
import DartLowering.Lower.Unit

/-!
Whole units. All items of a unit go to one writer, one after the other, and their questions about
types share the kept layouts; the text is given out when the last item is done.
-/
namespace DartLowering.Emit

open Writing
open Lower (Scope Item identifier)

/-- Parameters with commas between them, the first of them number `i`. -/
def paramsFrom (env : TypeEnv) (scope : Scope) (i : Nat) : List Param → Writing Unit
  | [] => pure ()
  | p :: ps => do
      comma i
      Run.locate p.position
        (declaration env scope (Lower.paramName p.name i) p.type none .noInit)
      paramsFrom env scope (i + 1) ps

/-- The parameters of a function, with one more for the arguments beyond them. -/
def params (env : TypeEnv) (scope : Scope) (ps : List Param) (variadic : Bool) : Writing Unit := do
  paramsFrom env scope 0 ps
  if variadic then do
    comma ps.length
    print (Wrapper.varArgs ++ " " ++ Lower.varArgsParam)
  else pure ()

/-- A function after the name of its result, up to its closing brace. -/
def function (env : TypeEnv) (outer scope : Scope) (name : String) (ps : List Param)
    (variadic : Bool) (body : List Stmt) : Writing Unit := do
  print (name ++ "(")
  params env outer ps variadic
  print ") "
  block (stmts env scope body)

def defaultArgumentsFrom (env : TypeEnv) (i : Nat) : List Param → Writing Unit
  | [] => pure ()
  | p :: ps => do
      comma i
      Run.locate p.position (defaultValue env p.type)
      defaultArgumentsFrom env (i + 1) ps

/-- The empty list of a variadic function that is called with its parameters only. -/
def noVarArgs (d : FuncDecl) : Writing Unit :=
  if d.variadic then do
    comma d.params.length
    print (Wrapper.varArgs ++ "([])")
  else pure ()

/-- The start of the program, which calls the function of the source with default values. -/
def entryPoint (env : TypeEnv) (d : FuncDecl) (body : List Stmt) : Writing Unit := do
  let result ← Run.ofResult (env.mapType d.result)
  line "void main() \x7b"
  deeper do
    print (result ++ " ")
    function env {} { variadic := d.variadic } Lower.entryInner d.params d.variadic body
    newline
    print (Lower.entryInner ++ "(")
    defaultArgumentsFrom env 0 d.params
    noVarArgs d
    line ");"
  line "\x7d"

def funcDecl (env : TypeEnv) (d : FuncDecl) (body : List Stmt) : Writing Unit :=
  if d.entry then entryPoint env d body
  else do
    let result ← Run.ofResult (env.mapType d.result)
    print (result ++ " ")
    function env {} { variadic := d.variadic } (identifier d.name) d.params d.variadic body
    newline

def method (env : TypeEnv) (d : MethodDecl) (body : List Stmt) : Writing Unit := do
  let result ← Run.ofResult (env.mapType d.result)
  print (if d.classMethod then "static " else "")
  print (result ++ " ")
  function env {} { self := if d.classMethod then identifier d.owner else "this" }
    (Lower.selectorName d.selector) d.params false body
  newline

/-- The empty line in front of piece `i`. -/
def emptyLine (i : Nat) : Writing Unit := if 0 < i then newline else pure ()

/-- Methods with an empty line between them, the first of them number `i`. -/
def methodsFrom (env : TypeEnv) (i : Nat) : List (MethodDecl × List Stmt) → Writing Unit
  | [] => pure ()
  | (d, body) :: ms => do
      emptyLine i
      Run.locate d.position (method env d body)
      methodsFrom env (i + 1) ms

/-- The first value of a variable at file scope, which is not copied. -/
def globalValue (env : TypeEnv) (d : VarDecl) : Writing Unit :=
  match d.init with
  | some init => expr env {} false init
  | none => defaultValue env d.type

def global (env : TypeEnv) (d : VarDecl) : Writing Unit := do
  let type ← Run.ofResult (env.mapType d.type)
  print (type ++ " " ++ identifier d.name ++ " = ")
  globalValue env d
  line ";"

def item (env : TypeEnv) : Item → Writing Unit
  | .function d body => Run.locate d.position (funcDecl env d body)
  | .variable d => Run.locate d.position (global env d)
  | .class owner ms => do
      line ("class " ++ identifier owner ++ " extends " ++ Wrapper.objectBase ++ " \x7b")
      deeper (methodsFrom env 0 ms)
      line "\x7d"

/-- Items with an empty line between them, the first of them number `i`. A run that was stopped
fails before its next item. -/
def itemsFrom (env : TypeEnv) (cancelled : Bool) (i : Nat) : List Item → Writing Unit
  | [] => pure ()
  | it :: its =>
      if cancelled then .fail (.plain "context canceled")
      else do
        emptyLine i
        item env it
        itemsFrom env cancelled (i + 1) its

def importLines : List String → Writing Unit
  | [] => pure ()
  | uri :: uris => do
      line ("import '" ++ uri ++ "';")
      importLines uris

def file (env : TypeEnv) (package : String) (cancelled : Bool) (u : SourceUnit) : Writing Unit := do
  line Lower.header
  importLines (Package.imports package)
  newline
  itemsFrom env cancelled 0 (Lower.plan u.decls)

/-- The text of a unit's file, written from a blank sheet. Layouts that were kept before are used,
and new ones stay kept, also after a failure. -/
def generate (env : TypeEnv) (package : String) (cancelled : Bool) :
    Option SourceUnit → Lookup String
  | none => .fail (.violation .noUnit)
  | some u => fun layouts =>
      (file env package cancelled u { layouts }).map fun (r, d) =>
        (r.map fun _ => d.writer.text, d.layouts)

end DartLowering.Emit
