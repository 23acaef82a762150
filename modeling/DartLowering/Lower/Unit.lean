import DartLowering.Lower.Stmt
import DartLowering.Target.Package

/-!
Whole units. `plan` puts the declarations that produce code in order: prototypes produce none, and
the methods of a class come together where its first method stands. Each planned item is lowered on
its own; the first failure ends the run.
-/
namespace DartLowering.Lower

/-- A top-level piece of output before it is lowered. -/
inductive Item
  | function (d : FuncDecl) (body : List Stmt)
  | variable (d : VarDecl)
  | class (owner : String) (methods : List (MethodDecl × List Stmt))

def Item.text : Item → String
  | .function d _ => "function " ++ d.name
  | .variable d => "variable " ++ d.name
  | .class owner _ => "class " ++ owner

/-- The defined methods of a class among some declarations. -/
def methodsOf (owner : String) : List Decl → List (MethodDecl × List Stmt)
  | [] => []
  | .method d :: ds =>
      match d.body with
      | some body => if d.owner = owner then (d, body) :: methodsOf owner ds else methodsOf owner ds
      | none => methodsOf owner ds
  | _ :: ds => methodsOf owner ds

/-- The items after the classes in `seen` have been planned. -/
def planFrom (seen : List String) : List Decl → List Item
  | [] => []
  | .func d :: ds =>
      match d.body with
      | some body => .function d body :: planFrom seen ds
      | none => planFrom seen ds
  | .var d :: ds => .variable d :: planFrom seen ds
  | .method d :: ds =>
      match d.body with
      | some body =>
          if seen.contains d.owner then planFrom seen ds
          else .class d.owner ((d, body) :: methodsOf d.owner ds) :: planFrom (d.owner :: seen) ds
      | none => planFrom seen ds

def plan (decls : List Decl) : List Item := planFrom [] decls

/-- Types and names of parameters, counted from `index`. -/
def paramsFrom (env : TypeEnv) (index : Nat) : List Param → Result (List (String × String))
  | [] => .ok []
  | p :: ps => do
      let type ← Result.locate p.position (env.mapType p.type)
      let rest ← paramsFrom env (index + 1) ps
      .ok ((type, identifier (paramName p.name index)) :: rest)

/-- The parameters of a function, with one more for the arguments beyond them. -/
def params (env : TypeEnv) (ps : List Param) (variadic : Bool) :
    Result (List (String × String)) := do
  let fixed ← paramsFrom env 0 ps
  .ok (fixed ++ if variadic then [(Wrapper.varArgs, varArgsParam)] else [])

def defaultArguments (env : TypeEnv) : List Param → Result (List Code)
  | [] => .ok []
  | p :: ps => do
      let value ← Result.locate p.position (defaultValue env p.type)
      let rest ← defaultArguments env ps
      .ok (value :: rest)

/-- A function under a name of its own choice. -/
def function (env : TypeEnv) (name : String) (d : FuncDecl) (body : List Stmt) :
    Result CodeFunction := do
  let result ← env.mapType d.result
  let params ← params env d.params d.variadic
  let body ← stmts env { variadic := d.variadic } body
  .ok ⟨false, result, name, params, body⟩

/-- The start of the program takes no arguments and returns nothing: the function of the source
becomes a local one that is called with default values. -/
def entryPoint (env : TypeEnv) (d : FuncDecl) (body : List Stmt) : Result CodeItem := do
  let inner ← function env entryInner d body
  let args ← defaultArguments env d.params
  let extra := if d.variadic then [Code.apply (.name Wrapper.varArgs) [.list []]] else []
  .ok (.main inner (args ++ extra))

def method (env : TypeEnv) (d : MethodDecl) (body : List Stmt) : Result CodeFunction := do
  let result ← env.mapType d.result
  let params ← params env d.params false
  let self := if d.classMethod then identifier d.owner else "this"
  let body ← stmts env { self } body
  .ok ⟨d.classMethod, result, selectorName d.selector, params, body⟩

def methods (env : TypeEnv) : List (MethodDecl × List Stmt) → Result (List CodeFunction)
  | [] => .ok []
  | (d, body) :: ms => do
      let first ← Result.locate d.position (method env d body)
      let rest ← methods env ms
      .ok (first :: rest)

/-- A variable at file scope; its first value is not copied. -/
def global (env : TypeEnv) (d : VarDecl) : Result CodeItem := do
  let type ← env.mapType d.type
  let value ←
    match d.init with
    | some init => expr env {} false init
    | none => defaultValue env d.type
  .ok (.variable type ⟨identifier d.name, value⟩)

def item (env : TypeEnv) : Item → Result CodeItem
  | .function d body =>
      Result.locate d.position <|
        if d.entry then entryPoint env d body
        else do
          let f ← function env (identifier d.name) d body
          .ok (.function f)
  | .variable d => Result.locate d.position (global env d)
  | .class owner ms => do
      let ms ← methods env ms
      .ok (.class (identifier owner) Wrapper.objectBase ms)

def items (env : TypeEnv) : List Item → Result (List CodeItem)
  | [] => .ok []
  | i :: is => do
      let first ← item env i
      let rest ← items env is
      .ok (first :: rest)

def header : String := "// Code generated by objc2dart. DO NOT EDIT."

def unit (env : TypeEnv) (package : String) (u : SourceUnit) : Result CodeFile := do
  let items ← items env (plan u.decls)
  .ok ⟨header, Package.imports package, items⟩

/-- The text of a unit's file. A run that was stopped before it began fails at the first item. -/
def generate (env : TypeEnv) (package : String) (cancelled : Bool) (u : Option SourceUnit) :
    Result String :=
  match u with
  | none => .error (.violation .noUnit)
  | some u =>
      if cancelled && !(plan u.decls).isEmpty then .error (.plain "context canceled")
      else do
        let file ← unit env package u
        .ok file.text

/-- The items a run takes up: up to the first that fails. -/
def attempted (env : TypeEnv) : List Item → List Item
  | [] => []
  | i :: is =>
      match item env i with
      | .ok _ => i :: attempted env is
      | .error _ => [i]

/-- What a run tells about its progress. -/
def progress (env : TypeEnv) (cancelled : Bool) (u : SourceUnit) : List String :=
  if cancelled then []
  else (attempted env (plan u.decls)).map fun i => u.name ++ ": emitting " ++ i.text

end DartLowering.Lower
