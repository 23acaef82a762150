import DartLowering.Lower.Expr
import DartLowering.Lower.Switch

/-!
Statements. Each source statement becomes a list of emitted ones: a declaration of several variables
becomes several statements, and ending an argument list becomes nothing.
-/
namespace DartLowering.Lower

/-- Every variable starts out as an object of its class; records and arrays of known length own
memory of their full size, and what is no wrapper object starts as null. -/
def defaultValue (env : TypeEnv) (t : CType) : Result Code := do
  let type ← env.mapType t
  if !isValue env (some t) then .ok (.name "null")
  else
    let ownsArray :=
      match t.unalias with
      | .array _ (some _) _ => true
      | _ => false
    if type = Wrapper.composite || (type = Wrapper.pointer && ownsArray) then do
      let size ← env.sizeOf t
      .ok (onClass type "local" [.int size])
    else .ok (onClass type "local" [])

/-- The class of a variable and its declarator. -/
def localVariable (env : TypeEnv) (scope : Scope) (v : VarDecl) : Result (String × Declarator) := do
  let type ← env.mapType v.type
  let value ←
    match v.init with
    | some init => copied env scope init
    | none => defaultValue env v.type
  .ok (type, ⟨identifier v.name, value⟩)

def localVariables (env : TypeEnv) (scope : Scope) : List VarDecl → Result (List CodeStmt)
  | [] => .ok []
  | v :: vs => do
      let (type, var) ← Result.locate v.position (localVariable env scope v)
      let rest ← localVariables env scope vs
      .ok (.declare type var :: rest)

/-- The declarators of a loop after the first, which must have its class. -/
def moreDeclarators (env : TypeEnv) (scope : Scope) (first : String) :
    List VarDecl → Result (List Declarator)
  | [] => .ok []
  | v :: vs => do
      let type ← Result.locate v.position (env.mapType v.type)
      if type ≠ first then .error (.unsupportedAt v.position (.mixedDeclarators first type))
      else do
        let (_, var) ← Result.locate v.position (localVariable env scope v)
        let rest ← moreDeclarators env scope first vs
        .ok (var :: rest)

def loopStart (env : TypeEnv) (scope : Scope) (position : Position) :
    Option Stmt → Result LoopStart
  | none => .ok .nothing
  | some (.decl _ []) => .ok .nothing
  | some (.decl _ (v :: vs)) => do
      let (type, var) ← Result.locate v.position (localVariable env scope v)
      let rest ← moreDeclarators env scope type vs
      .ok (.declare type (var :: rest))
  | some (.expr _ value) => do
      let code ← expr env scope false value
      .ok (.evaluate code)
  | some s => .error (.violationAt position (.loopInitializer s.kindName))

def onOption {α β : Type} (f : α → Result β) : Option α → Result (Option β)
  | none => .ok none
  | some a => do
      let b ← f a
      .ok (some b)

/-- The value that selects a case. -/
def caseValue (env : TypeEnv) (position : Position) (label : Expr) : Result Int64 :=
  match env.constant? label with
  | some v => .ok v
  | none => .error (.report .nonConstantCase position none)

mutual

/-- The emitted form of a statement, with failures placed at it. With `inBlock` it is the body of a
block that is already open, and the statements of a compound follow without braces of their own. -/
def stmt (env : TypeEnv) (scope : Scope) (inBlock : Bool) : Stmt → Result (List CodeStmt)
  | .compound position body =>
      if inBlock then stmts env scope body
      else
        Result.locate position do
          let body ← stmts env scope body
          .ok [.block body]
  | .ifElse position cond then_ else_ =>
      Result.locate position do
        let test ← condition env scope cond
        let body ← stmt env scope true then_
        let rest ← elseBranch env scope else_
        .ok [.ifElse test body rest]
  | .whileLoop position cond body =>
      Result.locate position do
        let test ← condition env scope cond
        let body ← stmt env scope true body
        .ok [.whileLoop test body]
  | .doLoop position body cond =>
      Result.locate position do
        let body ← stmt env scope true body
        let test ← condition env scope cond
        .ok [.doLoop body test]
  | .forLoop position init cond inc body =>
      Result.locate position do
        let start ← loopStart env scope position init
        let test ← onOption (condition env scope) cond
        let step ← onOption (expr env scope false) inc
        let body ← stmt env scope true body
        .ok [.forLoop start test step body]
  | .switch position cond cases =>
      Result.locate position <|
        match secondDefault? cases with
        | some c => .error (.violationAt c.position .manyDefaults)
        | none => do
            let subject ← expr env scope false cond
            let labels := caseLabels cases
            let explicit ← explicitCases env scope labels cases
            let default ← defaultCases env scope labels cases
            .ok [.switch (.invoke (asReceiver env cond subject) "intValue" [])
              (explicit ++ default)]
  | .brk _ => .ok [.brk]
  | .cont _ => .ok [.cont]
  | .null _ => .ok [.empty]
  | .ret position value =>
      Result.locate position do
        let value ← onOption (copied env scope) value
        .ok [.ret value]
  | .decl position vars => Result.locate position (localVariables env scope vars)
  | .expr position value =>
      Result.locate position <|
        if value.isListEnd then .ok []
        else do
          let code ← expr env scope false value
          .ok [.evaluate code]

def stmts (env : TypeEnv) (scope : Scope) : List Stmt → Result (List CodeStmt)
  | [] => .ok []
  | s :: ss => do
      let first ← stmt env scope false s
      let rest ← stmts env scope ss
      .ok (first ++ rest)

/-- An if that stands alone after else continues the chain. -/
def elseBranch (env : TypeEnv) (scope : Scope) : Option Stmt → Result ElseBranch
  | none => .ok .none
  | some (.ifElse position cond then_ else_) =>
      Result.locate position do
        let test ← condition env scope cond
        let body ← stmt env scope true then_
        let rest ← elseBranch env scope else_
        .ok (.elseIf test body rest)
  | some s => do
      let body ← stmt env scope true s
      .ok (.block body)

/-- The cases with a value, in source order. -/
def explicitCases (env : TypeEnv) (scope : Scope) :
    List Nat → List SwitchCase → Result (List CodeCase)
  | label :: following, .mk position (some value) body :: cs => do
      let v ← caseValue env position value
      let code ← Result.locate position
        (stmts env { scope with switchDepth := scope.switchDepth + 1 } body)
      let rest ← explicitCases env scope following cs
      .ok (.mk (switchLabel scope.switchDepth label) (.value v)
        (code ++ caseExit scope.switchDepth following body) :: rest)
  | _ :: following, .mk _ none _ :: cs => explicitCases env scope following cs
  | _, _ => .ok []

/-- The cases without a value. -/
def defaultCases (env : TypeEnv) (scope : Scope) :
    List Nat → List SwitchCase → Result (List CodeCase)
  | label :: following, .mk position none body :: cs => do
      let code ← Result.locate position
        (stmts env { scope with switchDepth := scope.switchDepth + 1 } body)
      let rest ← defaultCases env scope following cs
      .ok (.mk (switchLabel scope.switchDepth label) .default
        (code ++ caseExit scope.switchDepth following body) :: rest)
  | _ :: following, .mk _ (some _) _ :: cs => defaultCases env scope following cs
  | _, _ => .ok []

end

end DartLowering.Lower
