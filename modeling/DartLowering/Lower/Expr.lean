import DartLowering.Layout.Constant
import DartLowering.Lower.Names
import DartLowering.Target.Code
import DartLowering.Target.Wrapper

/-!
Expressions in terms of wrapper objects. Operators become method calls, member accesses become typed
reads at byte offsets, and integer constants become wrappers of their value before anything else
about an expression is looked at. A failure is placed at the innermost expression that has a
position.
-/
namespace DartLowering.Lower

/-- What an expression may refer to besides the unit's types. -/
structure Scope where
  /-- The enclosing function takes arguments beyond its parameters. -/
  variadic : Bool := false
  /-- What the receiver of the enclosing method is called. -/
  self : String := "this"
  /-- The number of switches around the place. -/
  switchDepth : Nat := 0

def binaryMethod? : BinaryOp → Option String
  | .add => some "add"
  | .sub => some "sub"
  | .mul => some "mul"
  | .div => some "div"
  | .rem => some "rem"
  | .shl => some "shl"
  | .shr => some "shr"
  | .bitAnd => some "bitAnd"
  | .bitOr => some "bitOr"
  | .bitXor => some "bitXor"
  | .lt => some "lt"
  | .gt => some "gt"
  | .le => some "le"
  | .ge => some "ge"
  | .eq => some "eq"
  | .ne => some "ne"
  | _ => none

def unaryMethod? : UnaryOp → Option String
  | .preInc => some "inc"
  | .preDec => some "dec"
  | .postInc => some "postinc"
  | .postDec => some "postdec"
  | .addressOf => some "addressOf"
  | .dereference => some "dereference"
  | .minus => some "neg"
  | .logicalNot => some "not"
  | .bitNot => some "bitNot"
  | _ => none

/-- `class.method(args)` -/
def onClass (className method : String) (args : List Code) : Code :=
  .invoke (.name className) method args

/-- The wrapper of an integer, reduced to its type. -/
def constantCode (info : ExprInfo) (v : Int64) : Result Code :=
  match info.type.bind CType.scalar? with
  | none => .error (.violationAt info.position (.constantType (typeText info.type)))
  | some s => do
      let wrapper ← s.wrapper
      let v := if s.kind = .bool && v ≠ 0 then 1 else v
      .ok (onClass wrapper "fromInt" [.int (Number.truncate v s.bits s.signed)])

/-- A floating literal of the target language: it shows a point or an exponent. -/
def doubleLiteral (x : Float) : String :=
  match Number.classify x.toBits with
  | .nan => "double.nan"
  | .infinite negative => if negative then "double.negativeInfinity" else "double.infinity"
  | .finite _ _ =>
      let s := Number.doubleText x
      if s.toList.any (fun c => c = '.' || c = 'e' || c = 'E') then s else s ++ ".0"

def floatCode (info : ExprInfo) (x : Float) : Code :=
  let isFloat := (info.type.bind CType.scalar?).any fun s => s.kind = .float
  onClass (if isFloat then Wrapper.float else Wrapper.double) "fromDouble"
    [.double (doubleLiteral x)]

/-- A pointer to the bytes and a terminating zero. -/
def stringCode (bytes : List UInt8) : Code :=
  onClass Wrapper.pointer "fromBytes" [.bytes (bytes.map UInt8.toNat ++ [0])]

/-- The code of `e` can be followed by a method call as it stands. -/
def isBare (env : TypeEnv) (e : Expr) : Bool :=
  match e.stripTransparent with
  | .ref _ _ _ | .conditional _ _ _ _ | .listNext _ _ => true
  | _ => (env.constant? e).isSome

/-- The code of `e` where a method call follows it. -/
def asReceiver (env : TypeEnv) (e : Expr) (code : Code) : Code :=
  if isBare env e then code else .paren code

/-- The code of `e` as a test: it is not zero. Floating values are compared as doubles. -/
def asCondition (env : TypeEnv) (e : Expr) (code : Code) : Code :=
  let isFloat := e.scalar?.any fun s => s.kind.isFloat
  .nonZero (.invoke (asReceiver env e code) (if isFloat then "doubleValue" else "intValue") [])

/-- Values of the type are wrapper objects, which are passed by copy. -/
def isValue (env : TypeEnv) : Option CType → Bool
  | none => false
  | some t =>
      match t.unalias with
      | .object _ => false
      | _ =>
          match env.mapType t with
          | .error _ => false
          | .ok name => name ≠ Wrapper.dynamic && name ≠ Wrapper.void

/-- The code of `e`, copied if it is a wrapper object. -/
def asCopy (env : TypeEnv) (e : Expr) (code : Code) : Code :=
  if isValue env e.type then .invoke (asReceiver env e code) "copy" [] else code

def refCode (scope : Scope) (name : String) (kind : RefKind) : Code :=
  .name (if kind = .self then scope.self else identifier name)

/-- The name that an assignment target is, conversions aside. -/
def targetName? (scope : Scope) (lhs : Expr) : Option Code :=
  match lhs.stripTransparent with
  | .ref _ name kind => some (refCode scope name kind)
  | _ => none

/-- The function whose address is taken. -/
def functionName? : Expr → Option String
  | .ref _ name kind => if kind = .function then some name else none
  | _ => none

/-- How a member access reads memory. -/
structure Access where
  offset : Int64
  kind : String
  type : CType

/-- The field that a member access names and where it lies. -/
def resolveMember (env : TypeEnv) (position : Position) (base : Expr) (arrow : Bool)
    (field : String) : Result Access := do
  let baseType ←
    if arrow then
      match base.type.bind CType.pointee? with
      | some t => .ok (some t)
      | none => .error (.violationAt position (.arrowOnNonPointer (typeText base.type)))
    else .ok base.type
  match baseType.bind CType.record? with
  | none => .error (.violationAt position (.memberOfNonRecord field (typeText baseType)))
  | some tag =>
      match (env.records.find tag).field? field with
      | none => .error (.violationAt position (.unknownField tag.name field))
      | some f => do
          let layout ← env.layoutOf tag
          match layout.offset? field with
          | none => .error (.violationAt position (.unplacedField tag.name field))
          | some offset => do
              let kind ← env.storageKind f.type
              .ok ⟨offset, kind, f.type⟩

/-- The typed read of a resolved member. -/
def accessCode (env : TypeEnv) (access : Access) (memory : Code) : Result Code :=
  if access.kind = "composite" then do
    let size ← env.sizeOf access.type
    .ok (.invoke memory "compositeAtOffset" [.int access.offset, .int size])
  else .ok (.invoke memory (access.kind ++ "AtOffset") [.int access.offset])

/-- How many arguments a call passes one by one, and whether the others follow in a list. -/
def callShape (info : ExprInfo) (callee : Expr) (args : List Expr) (variadic : Bool) :
    Result (Nat × Bool) :=
  let direct := callee.directCallee?.bind fun c => c.1.type.bind CType.callable?
  match (callee.type.bind CType.callable?).or direct with
  | none =>
      if variadic then
        .error (.violationAt info.position (.noPrototype (typeText callee.type)))
      else .ok (args.length, false)
  | some p =>
      let variadic := p.variadic || variadic
      if args.length < p.params.length || (!variadic && args.length ≠ p.params.length) then
        .error (.violationAt info.position (.argumentCount args.length p.params.length))
      else .ok (p.params.length, variadic)

/-- The first `fixed` arguments, and a list of the others for a variadic callee. -/
def packArguments (fixed : Nat) (variadic : Bool) (args : List Code) : List Code :=
  if variadic then
    args.take fixed ++ [.apply (.name Wrapper.varArgs) [.list (args.drop fixed)]]
  else args.take fixed

/-- A call through the function object of a callee. -/
def indirectCall (env : TypeEnv) (callee : Expr) (code : Code) (args : List Code) : Code :=
  onClass "Function" "apply" [.property (asReceiver env callee code) "function", .list args]

def capitalised (s : String) : String :=
  match s.toList with
  | [] => ""
  | c :: cs => String.ofList (c.toUpper :: cs)

/-- The view that a pointer cast adds, none where the pointer stays as it is. -/
def pointerView (env : TypeEnv) (info : ExprInfo) (kind : CastKind) :
    Result (Option (String × List Code)) :=
  let refused : Result (Option (String × List Code)) :=
    if info.type.any env.isPassThrough then .ok none
    else .error (.unsupportedAt info.position (.castToNonPointer kind.name (typeText info.type)))
  match info.type with
  | none => refused
  | some t =>
      match t.unalias with
      | .object _ => .ok none
      | .functionPointer _ _ _ => .ok (some ("asFunctionPointer", []))
      | .pointer pointee =>
          match pointee.unalias with
          | .void => .ok (some ("asUint8Pointer", []))
          | .function _ _ _ => .ok (some ("asFunctionPointer", []))
          | .array elem length isVariable => do
              let size ← env.sizeOf (.array elem length isVariable)
              .ok (some ("asCompositePointer", [.int size]))
          | .record tag => do
              let size ← env.sizeOf (.record tag)
              .ok (some ("asCompositePointer", [.int size]))
          | _ => do
              let stem ← env.storageKind pointee
              .ok (some ("as" ++ capitalised stem ++ "Pointer", []))
      | _ => refused

def viewed (view : Option (String × List Code)) (code : Code) : Code :=
  match view with
  | none => code
  | some (method, args) => .invoke code method args

/-- The bytes of a string literal under conversions that leave it alone. -/
def literalBytes? (e : Expr) : Option (List UInt8) :=
  match e.stripTransparent with
  | .string _ bytes => some bytes
  | _ => none

/-- The size of a union that a value is converted to. -/
def unionSize (env : TypeEnv) (info : ExprInfo) (operand : Expr) : Result Int64 :=
  match info.type.bind CType.record? with
  | some ⟨_, true⟩ => do
      let target ← TypeEnv.onType env.sizeOf info.type
      let source ← TypeEnv.onType env.sizeOf operand.type
      if target < source then .error (.report (.unionTooSmall target source) info.position none)
      else .ok target
  | _ => .error (.violationAt info.position (.unionTarget (typeText info.type)))

/-- What a conversion does with the code of its operand. -/
inductive CastPlan
  /-- The operand as it is. -/
  | keep
  | functionPointer
  | toBoolean (wrapper : String)
  /-- A call on the operand as receiver. -/
  | method (name : String) (view : Option (String × List Code))
  /-- A view of the operand as receiver. -/
  | retype (view : String × List Code)
  /-- The bytes in place of the operand. -/
  | literal (bytes : List UInt8) (view : Option (String × List Code))
  | union (size : Int64)

def castPlan (env : TypeEnv) (info : ExprInfo) (kind : CastKind) (operand : Expr) :
    Result CastPlan :=
  match kind with
  | .lvalueToRvalue | .noOp | .toVoid => .ok .keep
  | .functionToPointerDecay => .ok .functionPointer
  | .integralToBoolean | .floatingToBoolean | .pointerToBoolean => do
      let wrapper ← TypeEnv.onType env.mapType info.type
      .ok (.toBoolean wrapper)
  | .integralCast | .integralToFloating | .floatingToIntegral | .floatingCast
  | .pointerToIntegral => do
      let stem ← TypeEnv.onType env.storageKind info.type
      .ok (.method (stem ++ "Value") none)
  | .integralToPointer | .nullToPointer => do
      let view ← pointerView env info kind
      .ok (.method "pointerValue" view)
  | .arrayToPointerDecay => do
      let view ← pointerView env info kind
      match literalBytes? operand with
      | some bytes => .ok (.literal bytes view)
      | none => .ok (.method "addressOf" view)
  | .bitCast => do
      let view ← pointerView env info kind
      match view with
      | none => .ok .keep
      | some view => .ok (.retype view)
  | .toUnion => do
      let size ← unionSize env info operand
      .ok (.union size)
  | .unrecognised _ => .error (.violationAt info.position (.castKind kind.name))

def CastPlan.code (env : TypeEnv) (operand : Expr) (code : Code) : CastPlan → Code
  | .keep => code
  | .functionPointer => .apply (.name Wrapper.functionPointer) [code]
  | .toBoolean wrapper =>
      onClass wrapper "fromInt" [.choose (asCondition env operand code) (.int 1) (.int 0)]
  | .method name view => viewed view (.invoke (asReceiver env operand code) name [])
  | .retype view => viewed (some view) (asReceiver env operand code)
  | .literal bytes view => viewed view (stringCode bytes)
  | .union size => .invoke (onClass Wrapper.composite "local" [.int size]) "set" [code]

/-- The constant that `e` is, or else what `node` gives, with failures placed at `e`. -/
def orConstant (env : TypeEnv) (e : Expr) (node : Unit → Result Code) : Result Code :=
  Result.locate e.position <|
    match env.constant? e with
    | some v => constantCode e.info v
    | none => node ()

mutual

/-- The code of an expression. With `peel`, conversions around an argument list are passed over. -/
def expr (env : TypeEnv) (scope : Scope) (peel : Bool) : Expr → Result Code
  | .absent => .error (.violation .missingExpression)
  | .int info value =>
      orConstant env (.int info value) fun _ => constantCode info value
  | .float info value =>
      orConstant env (.float info value) fun _ => .ok (floatCode info value)
  | .string info bytes =>
      orConstant env (.string info bytes) fun _ => .ok (stringCode bytes)
  | .ref info name kind =>
      orConstant env (.ref info name kind) fun _ => .ok (refCode scope name kind)
  | .binary info op lhs rhs =>
      orConstant env (.binary info op lhs rhs) fun _ =>
        match op with
        | .comma => do
            let first ← expr env scope false lhs
            let second ← expr env scope false rhs
            .ok (.sequence first second)
        | .assign => do
            let target ← expr env scope false lhs
            let value ← expr env scope false rhs
            .ok (.invoke (asReceiver env lhs target) "set" [value])
        | .logicalAnd | .logicalOr => do
            let left ← expr env scope false lhs
            let right ← expr env scope false rhs
            let method := if op = .logicalAnd then "and" else "or"
            .ok (.invoke (asReceiver env lhs left) method [.closure right])
        | .memberOfObject | .memberOfPointer =>
            .error (.unsupportedAt info.position (.pointerToMember op.spelling))
        | op =>
            match op.compoundBase?.bind binaryMethod? with
            | some method =>
                match targetName? scope lhs with
                | some target => do
                    let value ← expr env scope false rhs
                    .ok (.invoke target "set" [.invoke target method [value]])
                | none => do
                    let target ← expr env scope false lhs
                    let value ← expr env scope false rhs
                    let temporary := Code.name Code.temporary
                    .ok (.bind target (.invoke temporary "set" [.invoke temporary method [value]]))
            | none =>
                match binaryMethod? op with
                | none => .error (.violationAt info.position (.operatorMethod op.spelling))
                | some method => do
                    let left ← expr env scope false lhs
                    let right ← expr env scope false rhs
                    .ok (.invoke (asReceiver env lhs left) method [right])
  | .unary info op operand =>
      orConstant env (.unary info op operand) fun _ =>
        match op with
        | .plus => expr env scope false operand
        | .real | .imag => .error (.unsupportedAt info.position (.complexOperator op.spelling))
        | op =>
            match if op = .addressOf then functionName? operand else none with
            | some name => .ok (.apply (.name Wrapper.functionPointer) [.name (identifier name)])
            | none =>
                match unaryMethod? op with
                | none => .error (.violationAt info.position (.operatorMethod op.spelling))
                | some method => do
                    let code ← expr env scope false operand
                    .ok (.invoke (asReceiver env operand code) method [])
  | .call info callee args variadic builtin =>
      orConstant env (.call info callee args variadic builtin) fun _ =>
        match builtin with
        | .listStart =>
            if !scope.variadic then .error (.violationAt info.position .listStartPlace)
            else
              match args with
              | [] => .error (.violationAt info.position .listStartArguments)
              | list :: _ => do
                  let code ← expr env scope true list
                  .ok (onClass Wrapper.varArgs "start" [code, .name varArgsParam])
        | .listCopy =>
            match args with
            | [target, source] => do
                let target ← expr env scope true target
                let source ← expr env scope true source
                .ok (onClass Wrapper.varArgs "copy" [target, source])
            | args => .error (.violationAt info.position (.listCopyArguments args.length))
        | .listEnd => .ok (.name "null")
        | .none => do
            let (fixed, variadic) ← callShape info callee args variadic
            match callee.directCallee? with
            | some (_, name) => do
                let codes ← copies env scope args
                .ok (.apply (.name (identifier name)) (packArguments fixed variadic codes))
            | none => do
                let code ← expr env scope false callee
                let codes ← copies env scope args
                .ok (indirectCall env callee code (packArguments fixed variadic codes))
  | .member info base arrow field =>
      orConstant env (.member info base arrow field) fun _ => do
        let access ← resolveMember env info.position base arrow field
        let code ← expr env scope false base
        let memory := asReceiver env base code
        accessCode env access (if arrow then .invoke memory "dereference" [] else memory)
  | .subscript info base index =>
      orConstant env (.subscript info base index) fun _ => do
        let pointer ← expr env scope false base
        let offset ← expr env scope false index
        .ok (.invoke (.invoke (asReceiver env base pointer) "add" [offset]) "dereference" [])
  | .cast info kind operand isExplicit =>
      if peel && (kind = .arrayToPointerDecay || kind = .lvalueToRvalue || kind = .noOp) then
        expr env scope true operand
      else
        orConstant env (.cast info kind operand isExplicit) fun _ => do
          let plan ← castPlan env info kind operand
          match plan with
          | .literal bytes view => .ok (viewed view (stringCode bytes))
          | plan => do
              let code ← expr env scope false operand
              .ok (plan.code env operand code)
  | .sizeOf info arg =>
      orConstant env (.sizeOf info arg) fun _ => do
        let size ← env.sizeOf arg
        .ok (onClass Wrapper.uint64 "fromInt" [.int size])
  | .listNext info list =>
      orConstant env (.listNext info list) fun _ => do
        let type ← TypeEnv.onType env.mapType info.type
        let code ← expr env scope true list
        .ok (.paren (.castTo (.invoke (asReceiver env list.stripList code) "next" []) type))
  | .conditional info cond then_ else_ =>
      orConstant env (.conditional info cond then_ else_) fun _ => do
        let test ← expr env scope false cond
        let yes ← expr env scope false then_
        let no ← expr env scope false else_
        .ok (.paren (.choose (asCondition env cond test) yes no))
  | .message info receiver selector args =>
      orConstant env (.message info receiver selector args) fun _ => do
        let target ← expr env scope false receiver
        let codes ← copies env scope args
        .ok (.invoke (asReceiver env receiver target) (selectorName selector) codes)
  | .classMessage info className selector args =>
      orConstant env (.classMessage info className selector args) fun _ => do
        let codes ← copies env scope args
        .ok (.invoke (.name (identifier className)) (selectorName selector) codes)

def copies (env : TypeEnv) (scope : Scope) : List Expr → Result (List Code)
  | [] => .ok []
  | e :: es => do
      let code ← expr env scope false e
      let codes ← copies env scope es
      .ok (asCopy env e code :: codes)

end

def condition (env : TypeEnv) (scope : Scope) (e : Expr) : Result Code := do
  let code ← expr env scope false e
  .ok (asCondition env e code)

def copied (env : TypeEnv) (scope : Scope) (e : Expr) : Result Code := do
  let code ← expr env scope false e
  .ok (asCopy env e code)

end DartLowering.Lower
