import DartLowering.Emit.Lookup
import DartLowering.Emit.Writer
import DartLowering.Lower.Expr

/-!
Expressions written piece by piece. What `Lower.expr` builds as a tree goes to the writer here as
soon as it is known, and questions about types and constants are asked when the writing gets there.
A child that is written in several ways is handed on as the writing of it.
-/
namespace DartLowering

/-- What emission works on: the text so far and the layouts that were kept. -/
structure Desk where
  writer : Writer := {}
  layouts : LayoutCache := []

abbrev Writing := Run Desk

namespace Writing

def ask {α : Type} (m : Lookup α) : Writing α := fun d =>
  (m d.layouts).map fun (r, layouts) => (r, { d with layouts })

def print (s : String) : Writing Unit := fun d =>
  some (.ok (), { d with writer := d.writer.print s })

def newline : Writing Unit := fun d => some (.ok (), { d with writer := d.writer.newline })

/-- A whole line, or the rest of one. -/
def line (s : String) : Writing Unit := do
  print s
  newline

/-- The writing inside one more block. The level is taken back however it ends. -/
def deeper (m : Writing Unit) : Writing Unit := fun d =>
  (m { d with writer := d.writer.deeper }).map fun (r, d) =>
    (r, { d with writer := d.writer.shallower })

def comma (i : Nat) : Writing Unit := if 0 < i then print ", " else pure ()

/-- Writings with commas between them, the first of them item `i`. -/
def separatedFrom (i : Nat) : List (Writing Unit) → Writing Unit
  | [] => pure ()
  | m :: ms => do
      comma i
      m
      separatedFrom (i + 1) ms

/-- Item `i`, which has to be there. -/
def item (ms : List (Writing Unit)) (i : Nat) : Writing Unit := do
  let m ← Run.require ms[i]?
  m

/-- The items from `i` on, of which there have to be `count`. -/
def argumentsFrom (ms : List (Writing Unit)) (i : Nat) : (count : Nat) → Writing Unit
  | 0 => pure ()
  | count + 1 => do
      comma i
      item ms i
      argumentsFrom ms (i + 1) count

/-- The items after the first `count`, which have to be there. -/
def dropped (ms : List (Writing Unit)) (count : Nat) : Writing (List (Writing Unit)) :=
  if count ≤ ms.length then pure (ms.drop count) else Run.brokenOff

end Writing

namespace Emit

open Writing
open Lower (Scope Access identifier)

def constant (env : TypeEnv) (e : Expr) : Writing (Option Int64) := ask (env.lookupConstant e)

/-- The wrapper of an integer, reduced to its type. -/
def constantOf (info : ExprInfo) (v : Int64) : Writing Unit :=
  match info.type.bind CType.scalar? with
  | none => .fail (.violationAt info.position (.constantType (typeText info.type)))
  | some s => do
      let wrapper ← Run.ofResult s.wrapper
      let v := if s.kind = .bool && v ≠ 0 then 1 else v
      print (wrapper ++ ".fromInt(" ++ Text.decimal (Number.truncate v s.bits s.signed) ++ ")")

def double (info : ExprInfo) (x : Float) : Writing Unit :=
  let isFloat := (info.type.bind CType.scalar?).any fun s => s.kind = .float
  let wrapper := if isFloat then Wrapper.float else Wrapper.double
  print (wrapper ++ ".fromDouble(" ++ Lower.doubleLiteral x ++ ")")

/-- A pointer to the bytes and a terminating zero. -/
def string (bytes : List UInt8) : Writing Unit :=
  let items := (bytes.map UInt8.toNat ++ [0]).map Text.decimalNat
  print (Wrapper.pointer ++ ".fromBytes(<int>[" ++ Text.join ", " items ++ "])")

/-- The code of `e` can be followed by a method call as it stands. -/
def bare (env : TypeEnv) (e : Expr) : Writing Bool :=
  match e.stripTransparent with
  | .ref _ _ _ | .conditional _ _ _ _ | .listNext _ _ => pure true
  | _ => do
      let v ← constant env e
      pure v.isSome

section Uses

variable (env : TypeEnv) (e : Expr) (m : Writing Unit)

/-- The code of `e` where a method call follows it. -/
def receiver : Writing Unit := do
  let isBare ← bare env e
  if isBare then m
  else do
    print "("
    m
    print ")"

/-- The code of `e` as a test. -/
def condition : Writing Unit := do
  receiver env e m
  let e ← e.present
  let isFloat := e.scalar?.any fun s => s.kind.isFloat
  print (if isFloat then ".doubleValue() != 0" else ".intValue() != 0")

/-- The code of `e`, copied if it is a wrapper object. -/
def copied : Writing Unit := do
  let x ← e.present
  if Lower.isValue env x.type then do
    receiver env e m
    print ".copy()"
  else m

/-- A method call on `e` with one argument. -/
def invoke (method : String) (arg : Writing Unit) : Writing Unit := do
  receiver env e m
  print ("." ++ method ++ "(")
  arg
  print ")"

end Uses

/-- A compound assignment. A name is repeated, any other target is bound to a temporary. -/
def compound (scope : Scope) (lhs : Expr) (method : String) (left right : Writing Unit) :
    Writing Unit :=
  match Lower.targetName? scope lhs with
  | some target => do
      print (target.text ++ ".set(" ++ target.text ++ "." ++ method ++ "(")
      right
      print "))"
  | none => do
      print ("() \x7b var " ++ Code.temporary ++ " = ")
      left
      print ("; return " ++ Code.temporary ++ ".set(" ++ Code.temporary ++ "." ++ method ++ "(")
      right
      print ")); \x7d()"

def binary (env : TypeEnv) (scope : Scope) (info : ExprInfo) (op : BinaryOp) (lhs : Expr)
    (left right : Writing Unit) : Writing Unit :=
  match op with
  | .comma => do
      print "() \x7b "
      left
      print "; return "
      right
      print "; \x7d()"
  | .assign => invoke env lhs left "set" right
  | .logicalAnd | .logicalOr => do
      receiver env lhs left
      print ("." ++ (if op = .logicalAnd then "and" else "or") ++ "(() => ")
      right
      print ")"
  | .memberOfObject | .memberOfPointer =>
      .fail (.unsupportedAt info.position (.pointerToMember op.spelling))
  | op =>
      match op.compoundBase? with
      | some base => compound scope lhs ((Lower.binaryMethod? base).getD "") left right
      | none =>
          match Lower.binaryMethod? op with
          | none => .fail (.violationAt info.position (.operatorMethod op.spelling))
          | some method => invoke env lhs left method right

def unary (env : TypeEnv) (info : ExprInfo) (op : UnaryOp) (operand : Expr) (m : Writing Unit) :
    Writing Unit :=
  match op with
  | .plus => m
  | .real | .imag => .fail (.unsupportedAt info.position (.complexOperator op.spelling))
  | op =>
      match if op = .addressOf then Lower.functionName? operand else none with
      | some name => print (Wrapper.functionPointer ++ "(" ++ identifier name ++ ")")
      | none =>
          match Lower.unaryMethod? op with
          | none => .fail (.violationAt info.position (.operatorMethod op.spelling))
          | some method => do
              receiver env operand m
              print ("." ++ method ++ "()")

/-- The first `fixed` arguments, and a list of the others for a variadic callee. -/
def arguments (args : List (Writing Unit)) (fixed : Nat) (variadic : Bool) : Writing Unit := do
  argumentsFrom args 0 fixed
  if variadic then do
    comma fixed
    print (Wrapper.varArgs ++ "([")
    let rest ← dropped args fixed
    separatedFrom 0 rest
    print "])"
  else pure ()

/-- How many arguments a call passes one by one, and whether the others follow in a list. -/
def callShape (info : ExprInfo) (callee : Expr) (args : List Expr) (variadic : Bool) :
    Writing (Nat × Bool) := do
  let callee ← callee.present
  Run.ofResult (Lower.callShape info callee args variadic)

/-- A call. Arguments are written as copies, those of list intrinsics as the lists they are. -/
def call (env : TypeEnv) (scope : Scope) (info : ExprInfo) (callee : Expr) (args : List Expr)
    (variadic : Bool) (builtin : Builtin) (m : Writing Unit) (copies lists : List (Writing Unit)) :
    Writing Unit :=
  match builtin with
  | .listStart =>
      if !scope.variadic then .fail (.violationAt info.position .listStartPlace)
      else if args.length < 1 then .fail (.violationAt info.position .listStartArguments)
      else do
        print (Wrapper.varArgs ++ ".start(")
        item lists 0
        print (", " ++ Lower.varArgsParam ++ ")")
  | .listCopy =>
      if args.length ≠ 2 then .fail (.violationAt info.position (.listCopyArguments args.length))
      else do
        print (Wrapper.varArgs ++ ".copy(")
        item lists 0
        print ", "
        item lists 1
        print ")"
  | .listEnd => print "null"
  | .none => do
      let (fixed, variadic) ← callShape info callee args variadic
      match callee.directCallee? with
      | some (_, name) => do
          print (identifier name ++ "(")
          arguments copies fixed variadic
          print ")"
      | none => do
          print "Function.apply("
          receiver env callee m
          print ".function, ["
          arguments copies fixed variadic
          print "])"

/-- The field that a member access names and where it lies. -/
def access (env : TypeEnv) (position : Position) (t : Option CType) (field : String) :
    Writing Access :=
  match t.bind CType.record? with
  | none => .fail (.violationAt position (.memberOfNonRecord field (typeText t)))
  | some tag =>
      match (env.records.find tag).field? field with
      | none => .fail (.violationAt position (.unknownField tag.name field))
      | some f => do
          let layout ← ask (env.lookupLayout tag)
          match layout.offset? field with
          | none => .fail (.violationAt position (.unplacedField tag.name field))
          | some offset => do
              let kind ← Run.ofResult (env.storageKind f.type)
              pure ⟨offset, kind, f.type⟩

/-- The type whose member is read. -/
def memberType (position : Position) (base : Expr) (arrow : Bool) : Writing (Option CType) := do
  let base ← base.present
  if arrow then
    match base.type.bind CType.pointee? with
    | some t => pure (some t)
    | none => .fail (.violationAt position (.arrowOnNonPointer (typeText base.type)))
  else pure base.type

/-- A typed read at the offset of a field. -/
def member (env : TypeEnv) (info : ExprInfo) (base : Expr) (arrow : Bool) (field : String)
    (m : Writing Unit) : Writing Unit := do
  let t ← memberType info.position base arrow
  let access ← access env info.position t field
  receiver env base m
  print (if arrow then ".dereference()" else "")
  if access.kind = "composite" then do
    let size ← ask (env.lookupSize access.type)
    print (".compositeAtOffset(" ++ Text.decimal access.offset ++ ", " ++ Text.decimal size ++ ")")
  else print ("." ++ access.kind ++ "AtOffset(" ++ Text.decimal access.offset ++ ")")

/-- The stem of an accessor with a capital in front. -/
def capitalised (stem : String) : Writing String := do
  let initial ← Run.require stem.toList.head?
  pure (String.ofList (initial.toUpper :: stem.toList.tail))

/-- The view that a pointer cast adds, empty where the pointer stays as it is. -/
def pointerView (env : TypeEnv) (info : ExprInfo) (kind : CastKind) : Writing String :=
  let refused : Writing String :=
    if info.type.any env.isPassThrough then pure ""
    else .fail (.unsupportedAt info.position (.castToNonPointer kind.name (typeText info.type)))
  match info.type with
  | none => refused
  | some t =>
      match t.unalias with
      | .object _ => pure ""
      | .functionPointer _ _ _ => pure ".asFunctionPointer()"
      | .pointer pointee =>
          match pointee.unalias with
          | .void => pure ".asUint8Pointer()"
          | .function _ _ _ => pure ".asFunctionPointer()"
          | .array elem length isVariable => do
              let size ← ask (env.lookupSize (.array elem length isVariable))
              pure (".asCompositePointer(" ++ Text.decimal size ++ ")")
          | .record tag => do
              let size ← ask (env.lookupSize (.record tag))
              pure (".asCompositePointer(" ++ Text.decimal size ++ ")")
          | _ => do
              let stem ← Run.ofResult (env.storageKind pointee)
              let stem ← capitalised stem
              pure (".as" ++ stem ++ "Pointer()")
      | _ => refused

/-- The byte size of a type that may be missing. -/
def size (env : TypeEnv) : Option CType → Writing Int64
  | some t => ask (env.lookupSize t)
  | none => .fail (.violation .missingType)

def toUnion (env : TypeEnv) (info : ExprInfo) (operand : Expr) (m : Writing Unit) : Writing Unit :=
  match info.type.bind CType.record? with
  | some ⟨_, true⟩ => do
      let target ← size env info.type
      let operand ← operand.present
      let source ← size env operand.type
      if target < source then .fail (.report (.unionTooSmall target source) info.position none)
      else do
        print (Wrapper.composite ++ ".local(" ++ Text.decimal target ++ ").set(")
        m
        print ")"
  | _ => .fail (.violationAt info.position (.unionTarget (typeText info.type)))

def cast (env : TypeEnv) (info : ExprInfo) (kind : CastKind) (operand : Expr) (m : Writing Unit) :
    Writing Unit :=
  match kind with
  | .lvalueToRvalue | .noOp | .toVoid => m
  | .functionToPointerDecay => do
      print (Wrapper.functionPointer ++ "(")
      m
      print ")"
  | .integralToBoolean | .floatingToBoolean | .pointerToBoolean => do
      let wrapper ← Run.ofResult (TypeEnv.onType env.mapType info.type)
      print (wrapper ++ ".fromInt(")
      condition env operand m
      print " ? 1 : 0)"
  | .integralCast | .integralToFloating | .floatingToIntegral | .floatingCast
  | .pointerToIntegral => do
      let stem ← Run.ofResult (TypeEnv.onType env.storageKind info.type)
      receiver env operand m
      print ("." ++ stem ++ "Value()")
  | .integralToPointer | .nullToPointer => do
      let view ← pointerView env info kind
      receiver env operand m
      print (".pointerValue()" ++ view)
  | .arrayToPointerDecay => do
      let view ← pointerView env info kind
      match Lower.literalBytes? operand with
      | some bytes => do
          string bytes
          print view
      | none => do
          receiver env operand m
          print (".addressOf()" ++ view)
  | .bitCast => do
      let view ← pointerView env info kind
      if view = "" then m
      else do
        receiver env operand m
        print view
  | .toUnion => toUnion env info operand m
  | .unrecognised _ => .fail (.violationAt info.position (.castKind kind.name))

/-- The constant that `e` is, or else `node`, with failures placed at `e`. -/
def orConstant (env : TypeEnv) (e : Expr) (node : Writing Unit) : Writing Unit :=
  Run.locate e.position do
    let v ← constant env e
    match v with
    | some v => constantOf e.info v
    | none => node

mutual

/-- The code of an expression. With `peel`, conversions around an argument list are passed over. -/
def expr (env : TypeEnv) (scope : Scope) (peel : Bool) : Expr → Writing Unit
  | .absent => .fail (.violation .missingExpression)
  | .int info value => orConstant env (.int info value) (constantOf info value)
  | .float info value => orConstant env (.float info value) (double info value)
  | .string info bytes => orConstant env (.string info bytes) (string bytes)
  | .ref info name kind =>
      orConstant env (.ref info name kind) (print (Lower.refCode scope name kind).text)
  | .binary info op lhs rhs =>
      orConstant env (.binary info op lhs rhs)
        (binary env scope info op lhs (expr env scope false lhs) (expr env scope false rhs))
  | .unary info op operand =>
      orConstant env (.unary info op operand)
        (unary env info op operand (expr env scope false operand))
  | .call info callee args variadic builtin =>
      orConstant env (.call info callee args variadic builtin)
        (call env scope info callee args variadic builtin (expr env scope false callee)
          (copies env scope args) (lists env scope args))
  | .member info base arrow field =>
      orConstant env (.member info base arrow field)
        (member env info base arrow field (expr env scope false base))
  | .subscript info base index =>
      orConstant env (.subscript info base index) do
        receiver env base (expr env scope false base)
        print ".add("
        expr env scope false index
        print ").dereference()"
  | .cast info kind operand isExplicit =>
      if peel && (kind = .arrayToPointerDecay || kind = .lvalueToRvalue || kind = .noOp) then
        expr env scope true operand
      else
        orConstant env (.cast info kind operand isExplicit)
          (cast env info kind operand (expr env scope false operand))
  | .sizeOf info arg =>
      orConstant env (.sizeOf info arg) do
        let size ← ask (env.lookupSize arg)
        print (Wrapper.uint64 ++ ".fromInt(" ++ Text.decimal size ++ ")")
  | .listNext info list =>
      orConstant env (.listNext info list) do
        let type ← Run.ofResult (TypeEnv.onType env.mapType info.type)
        print "("
        receiver env list.stripList (expr env scope true list)
        print (".next() as " ++ type ++ ")")
  | .conditional info cond then_ else_ =>
      orConstant env (.conditional info cond then_ else_) do
        print "("
        condition env cond (expr env scope false cond)
        print " ? "
        expr env scope false then_
        print " : "
        expr env scope false else_
        print ")"
  | .message info target selector args =>
      orConstant env (.message info target selector args) do
        receiver env target (expr env scope false target)
        print ("." ++ Lower.selectorName selector ++ "(")
        separatedFrom 0 (copies env scope args)
        print ")"
  | .classMessage info className selector args =>
      orConstant env (.classMessage info className selector args) do
        print (identifier className)
        print ("." ++ Lower.selectorName selector ++ "(")
        separatedFrom 0 (copies env scope args)
        print ")"

/-- Arguments, copied where they are wrapper objects. -/
def copies (env : TypeEnv) (scope : Scope) : List Expr → List (Writing Unit)
  | [] => []
  | e :: es => copied env e (expr env scope false e) :: copies env scope es

def lists (env : TypeEnv) (scope : Scope) : List Expr → List (Writing Unit)
  | [] => []
  | e :: es => expr env scope true e :: lists env scope es

end

end DartLowering.Emit
