import DartLowering.Emit.Expr
import DartLowering.Lower.Stmt

/-!
Statements written line by line. A block ends in the middle of the line of its closing brace, so
that what follows can go on there.
-/
namespace DartLowering.Emit

open Writing
open Lower (Scope identifier)

/-- The value that a variable starts out with. -/
def defaultValue (env : TypeEnv) (t : CType) : Writing Unit := do
  let type ← Run.ofResult (env.mapType t)
  if !Lower.isValue env (some t) then print "null"
  else
    let ownsArray :=
      match t.unalias with
      | .array _ (some _) _ => true
      | _ => false
    if type = Wrapper.composite || (type = Wrapper.pointer && ownsArray) then do
      let size ← ask (env.lookupSize t)
      print (type ++ ".local(" ++ Text.decimal size ++ ")")
    else print (type ++ ".local()")

/-- How a declaration is written. -/
inductive DeclMode
  | full
  /-- Without a value, for parameters. -/
  | noInit
  /-- Without a type, for the later declarators of a loop. -/
  | noType
  deriving DecidableEq

/-- A declaration without its end. -/
def declaration (env : TypeEnv) (scope : Scope) (name : String) (t : CType) (init : Option Expr)
    (mode : DeclMode) : Writing Unit := do
  let type ← Run.ofResult (env.mapType t)
  print (if mode = .noType then "" else type ++ " ")
  print (identifier name)
  if mode = .noInit then pure ()
  else do
    print " = "
    match init with
    | some e => copied env e (expr env scope false e)
    | none => defaultValue env t

def localVariables (env : TypeEnv) (scope : Scope) : List VarDecl → Writing Unit
  | [] => pure ()
  | v :: vs => do
      Run.locate v.position (declaration env scope v.name v.type v.init .full)
      line ";"
      localVariables env scope vs

/-- The declarators of a loop after the first, which must have its class. -/
def moreDeclarators (env : TypeEnv) (scope : Scope) (first : String) : List VarDecl → Writing Unit
  | [] => pure ()
  | v :: vs => do
      let type ← Run.locate v.position (Run.ofResult (env.mapType v.type))
      if type ≠ first then .fail (.unsupportedAt v.position (.mixedDeclarators first type))
      else do
        print ", "
        Run.locate v.position (declaration env scope v.name v.type v.init .noType)
        moreDeclarators env scope first vs

def declarators (env : TypeEnv) (scope : Scope) : List VarDecl → Writing Unit
  | [] => pure ()
  | v :: vs => do
      let type ← Run.locate v.position (Run.ofResult (env.mapType v.type))
      Run.locate v.position (declaration env scope v.name v.type v.init .full)
      moreDeclarators env scope type vs

def loopStart (env : TypeEnv) (scope : Scope) (position : Position) : Option Stmt → Writing Unit
  | none => pure ()
  | some (.decl _ vs) => declarators env scope vs
  | some (.expr _ value) => expr env scope false value
  | some s => .fail (.violationAt position (.loopInitializer s.kindName))

def onOption {α : Type} (f : α → Writing Unit) : Option α → Writing Unit
  | none => pure ()
  | some a => f a

/-- A block, up to its closing brace. -/
def block (m : Writing Unit) : Writing Unit := do
  line "\x7b"
  deeper m
  print "\x7d"

/-- The label of case `i`, which has to have one. -/
def labelAt (labels : List Nat) (i : Nat) : Writing Nat := Run.require labels[i]?

/-- The label of the case after case `i`, 0 when there is none. -/
def labelAfter (labels : List Nat) (i : Nat) : Writing Nat :=
  if i + 1 < labels.length then labelAt labels (i + 1) else pure 0

/-- The statements of a case and its exit to the label `target`, 0 when it leaves the switch. -/
def caseBody (depth : Nat) (body : List Stmt) (target : Nat) (m : Writing Unit) : Writing Unit :=
  deeper do
    m
    if Lower.endsInJump body then pure ()
    else if target ≠ 0 then line ("continue " ++ Lower.switchLabel depth target ++ ";")
    else line "break;"

mutual

/-- A statement as whole lines, with failures placed at it. With `inBlock` the statements of a
compound follow without braces of their own. -/
def stmt (env : TypeEnv) (scope : Scope) (inBlock : Bool) : Stmt → Writing Unit
  | .compound position body =>
      if inBlock then stmts env scope body
      else
        Run.locate position do
          block (stmts env scope body)
          newline
  | .ifElse position cond then_ else_ =>
      Run.locate position do
        print "if ("
        condition env cond (expr env scope false cond)
        print ") "
        block (stmt env scope true then_)
        elseBranch env scope else_
  | .whileLoop position cond body =>
      Run.locate position do
        print "while ("
        condition env cond (expr env scope false cond)
        print ") "
        block (stmt env scope true body)
        newline
  | .doLoop position body cond =>
      Run.locate position do
        print "do "
        block (stmt env scope true body)
        print " while ("
        condition env cond (expr env scope false cond)
        line ");"
  | .forLoop position init cond inc body =>
      Run.locate position do
        print "for ("
        loopStart env scope position init
        print "; "
        onOption (fun e => condition env e (expr env scope false e)) cond
        print "; "
        onOption (expr env scope false) inc
        print ") "
        block (stmt env scope true body)
        newline
  | .switch position cond cases =>
      Run.locate position <|
        match Lower.secondDefault? cases with
        | some c => .fail (.violationAt c.position .manyDefaults)
        | none => do
            print "switch ("
            receiver env cond (expr env scope false cond)
            line ".intValue()) \x7b"
            deeper do
              explicitCases env scope (Lower.caseLabels cases) 0 cases
              defaultCase env scope (Lower.caseLabels cases) 0 cases
            line "\x7d"
  | .brk _ => line "break;"
  | .cont _ => line "continue;"
  | .null _ => line ";"
  | .ret position none => Run.locate position (line "return;")
  | .ret position (some value) =>
      Run.locate position do
        print "return "
        copied env value (expr env scope false value)
        line ";"
  | .decl position vars => Run.locate position (localVariables env scope vars)
  | .expr position value =>
      Run.locate position <|
        if value.isListEnd then pure ()
        else do
          expr env scope false value
          line ";"

def stmts (env : TypeEnv) (scope : Scope) : List Stmt → Writing Unit
  | [] => pure ()
  | s :: ss => do
      stmt env scope false s
      stmts env scope ss

/-- What follows the closing brace of a branch. An if that stands alone after else continues the
chain. -/
def elseBranch (env : TypeEnv) (scope : Scope) : Option Stmt → Writing Unit
  | none => newline
  | some (.ifElse position cond then_ else_) => do
      print " else "
      Run.locate position do
        print "if ("
        condition env cond (expr env scope false cond)
        print ") "
        block (stmt env scope true then_)
        elseBranch env scope else_
  | some s => do
      print " else "
      block (stmt env scope true s)
      newline

/-- The cases with a value, the first of them case `i`. -/
def explicitCases (env : TypeEnv) (scope : Scope) (labels : List Nat) (i : Nat) :
    List SwitchCase → Writing Unit
  | [] => pure ()
  | .mk _ none _ :: cs => explicitCases env scope labels (i + 1) cs
  | .mk position (some value) body :: cs => do
      let v ← constant env value
      match v with
      | none => .fail (.report .nonConstantCase position none)
      | some v => do
          let label ← labelAt labels i
          line (Lower.switchLabel scope.switchDepth label ++ ": case " ++ Text.decimal v ++ ":")
          let target ← labelAfter labels i
          Run.locate position (caseBody scope.switchDepth body target
            (stmts env { scope with switchDepth := scope.switchDepth + 1 } body))
          explicitCases env scope labels (i + 1) cs

/-- The case without a value, if there is one from case `i` on. -/
def defaultCase (env : TypeEnv) (scope : Scope) (labels : List Nat) (i : Nat) :
    List SwitchCase → Writing Unit
  | [] => pure ()
  | .mk _ (some _) _ :: cs => defaultCase env scope labels (i + 1) cs
  | .mk position none body :: _ => do
      let label ← labelAt labels i
      let next ← labelAfter labels i
      line (Lower.switchLabel scope.switchDepth label ++ ": default:")
      Run.locate position (caseBody scope.switchDepth body (if next ≠ label then next else 0)
        (stmts env { scope with switchDepth := scope.switchDepth + 1 } body))

end

section Equations

variable (env : TypeEnv) (scope : Scope)

theorem stmt_compound (inBlock : Bool) (position : Position) (body : List Stmt) :
    stmt env scope inBlock (.compound position body) =
      if inBlock then stmts env scope body
      else Run.locate position (do
        block (stmts env scope body)
        newline) := by
  rw [stmt]

theorem stmts_cons (s : Stmt) (ss : List Stmt) :
    stmts env scope (s :: ss) = (do
      stmt env scope false s
      stmts env scope ss) := by
  rw [stmts]

end Equations

end DartLowering.Emit
