import DartLowering.Dump.Schema
import DartLowering.Layout.TypeEnv
import DartLowering.Syntax.Stmt

/-!
The unit that a dump describes. Records are known by name before anything else is read, so types may
refer to records that are defined later or never. A failure names the place in the dump where it
stands.

Every step goes one level down into the dump, whose nesting is bounded by the reader; `fuel` counts
the levels that are left.
-/
namespace DartLowering.Dump

/-- What the whole dump says about its nodes. -/
structure Reading where
  /-- The path of the dump. -/
  path : String
  /-- The source file that positions refer to. -/
  file : String
  tags : List RecordTag

def get? (key : String) : Json → Option Json
  | .object _ members => lookup key members
  | _ => none

def textAt (key : String) (j : Json) : String :=
  match get? key j with
  | some (.string _ value) => value
  | _ => ""

def flagAt? (key : String) (j : Json) : Option Bool :=
  match get? key j with
  | some (.bool value) => some value
  | _ => none

def flagAt (key : String) (j : Json) : Bool := (flagAt? key j).getD false

def word? : Json → Option Int64
  | .number source => Number.readDecimal? source
  | _ => none

def wordAt? (key : String) (j : Json) : Option Int64 := (get? key j).bind word?

def wordAt (key : String) (j : Json) : Int64 := (wordAt? key j).getD 0

/-- The items of a list; an item that is missing is `none`. -/
def itemsAt (key : String) (j : Json) : List (Option Json) :=
  (itemsOf (get? key j)).map fun
    | .null => none
    | item => some item

namespace Reading

def malformed {α : Type} (r : Reading) (place : String) (fault : DumpFault) : Result α :=
  .error (.of (.malformedDump r.path place fault))

def position (r : Reading) (node : Json) : Position :=
  match get? "pos" node with
  | some p => ⟨r.file, wordAt "line" p, wordAt "col" p⟩
  | none => ⟨r.file, 0, 0⟩

/-- A record of the dump, or one that is declared only. -/
def tag (r : Reading) (name : String) : RecordTag :=
  (r.tags.find? fun t => t.name == name).getD ⟨name, false⟩

/-- The scalar of a kind with the width and signedness that the dump gives. -/
def scalar (canonical : Scalar) (node : Json) : Scalar where
  kind := canonical.kind
  bits := if wordAt "bits" node = 0 then canonical.bits else wordAt "bits" node
  signed := (flagAt? "signed" node).getD canonical.signed

end Reading

/-- `f` of each item, with the item's place in brackets. -/
def indexed {α β : Type} (f : α → String → Result β) (place : String) (index : Nat) :
    List α → Result (List β)
  | [] => .ok []
  | a :: as => do
      let b ← f a (place ++ "[" ++ Text.decimalNat index ++ "]")
      let bs ← indexed f place (index + 1) as
      .ok (b :: bs)

namespace Reading

/-- A pointer to a function is a function pointer, whatever it is called. -/
def pointerTo (pointee : CType) : CType :=
  match pointee.unalias.prototype? with
  | some p => .functionPointer p.params p.result p.variadic
  | none => .pointer pointee

def type (r : Reading) : (fuel : Nat) → Option Json → String → Result CType
  | _, none, place => r.malformed place .missingType
  | 0, some _, _ => .error .crash
  | fuel + 1, some node, place =>
      match textAt "kind" node with
      | "void" => .ok .void
      | "scalar" =>
          match (ScalarKind.ofName? (textAt "scalar" node)).bind ScalarKind.canonical? with
          | some canonical => .ok (.scalar (scalar canonical node))
          | none => .error (.unsupported (.scalarKind (textAt "scalar" node) place))
      | "pointer" => do
          let pointee ← r.type fuel (get? "pointee" node) (place ++ ".pointee")
          .ok (pointerTo pointee)
      | "fnptr" => do
          let pointee ← r.type fuel (get? "pointee" node) (place ++ ".pointee")
          match pointee.unalias.prototype? with
          | some p => .ok (.functionPointer p.params p.result p.variadic)
          | none => r.malformed place (.nonFunctionPointee pointee.text)
      | "array" => do
          let elem ← r.type fuel (get? "elem" node) (place ++ ".elem")
          .ok (.array elem (wordAt? "len" node) (flagAt "vla" node))
      | "record" => .ok (.record (r.tag (textAt "name" node)))
      | "function" => do
          let result ← r.type fuel (get? "result" node) (place ++ ".result")
          let params ← indexed (r.type fuel) (place ++ ".params") 0 (itemsAt "params" node)
          .ok (.function params result (flagAt "variadic" node))
      | "alias" => do
          let underlying ← r.type fuel (get? "underlying" node) (place ++ ".underlying")
          .ok (.alias (textAt "name" node) underlying)
      | "object" => .ok (.object (textAt "class" node))
      | kind => .error (.unsupported (.typeKind kind place))

/-- The text of an integer: that of a string, or the value as it is written. -/
def integerText : Option Json → String
  | none => ""
  | some (.string _ value) => value
  | some .null => ""
  | some j => j.source

/-- A value as it is written; a missing one counts as null. -/
def sourceText (value : Option Json) : String := (value.getD .null).source

def integer? (value : Option Json) : Option Int64 := Number.readWord? (integerText value)

/-- Bytes given one by one, from `index` on. -/
def bytesFrom (r : Reading) (place : String) (index : Nat) : List Json → Result (List UInt8)
  | [] => .ok []
  | j :: js =>
      let v := (word? j).getD 0
      if v < 0 || 0xff < v then r.malformed place (.stringByte index v)
      else do
        let rest ← r.bytesFrom place (index + 1) js
        .ok (v.toInt.toNat.toUInt8 :: rest)

/-- The bytes of a string literal: those listed, or else the encoding of its text. -/
def stringBytes (r : Reading) (node : Json) (place : String) : Result (List UInt8) :=
  match get? "bytes" node with
  | some (.array _ items) => r.bytesFrom place 0 items
  | _ =>
      match get? "value" node with
      | some (.string _ value) => .ok value.toUTF8.toList
      | some .null => .ok []
      | _ => r.malformed place .stringText

/-- The literal fits the array type that it has. -/
def checkLength (r : Reading) (type : Option CType) (bytes : List UInt8) (place : String) :
    Result Unit :=
  match type.map CType.unalias with
  | some (.array _ (some n) _) =>
      if Int64.ofNat bytes.length + 1 = n then .ok ()
      else r.malformed place (.stringLength bytes.length (typeText type) (n - 1))
  | _ => .ok ()

def refKind? : String → Option RefKind
  | "" => some .var
  | "var" => some .var
  | "param" => some .parameter
  | "function" => some .function
  | "self" => some .self
  | _ => none

/-- An expression and the value recorded for it. -/
def record (r : Reading) (node : Json) (place : String) (e : Expr) : Result Expr :=
  match get? "const" node with
  | none => .ok e
  | some j =>
      match integer? (some j) with
      | some v => .ok (e.withConstant v)
      | none => r.malformed place (.constantText j.source)

def optionalType (r : Reading) (fuel : Nat) (node : Option Json) (place : String) :
    Result (Option CType) :=
  match node with
  | none => .ok none
  | some t => do
      let t ← r.type fuel (some t) place
      .ok (some t)

def expr (r : Reading) : (fuel : Nat) → Option Json → String → Result Expr
  | _, none, place => r.malformed place .missingExpression
  | 0, some _, _ => .error .crash
  | fuel + 1, some node, place => do
      let type ← r.optionalType fuel (get? "type" node) (place ++ ".type")
      let info : ExprInfo := { position := r.position node, type }
      let child := fun key => r.expr fuel (get? key node) (place ++ "." ++ key)
      let children := fun key => indexed (r.expr fuel) (place ++ "." ++ key) 0 (itemsAt key node)
      let e ←
        match textAt "kind" node with
        | "int" =>
            match integer? (get? "value" node) with
            | some v => .ok (.int info v)
            | none => r.malformed place (.integerText (sourceText (get? "value" node)))
        | "float" =>
            match get? "value" node with
            | some (.number source) =>
                match Json.numberDouble? source with
                | some x => .ok (.float info x)
                | none => r.malformed place .floatText
            | some .null => .ok (.float info 0)
            | _ => r.malformed place .floatText
        | "string" => do
            let bytes ← r.stringBytes node place
            r.checkLength type bytes place
            .ok (.string info bytes)
        | "name" =>
            match refKind? (textAt "ref" node) with
            | some kind => .ok (.ref info (textAt "name" node) kind)
            | none => r.malformed place (.referenceKind (textAt "ref" node))
        | "binary" =>
            match BinaryOp.ofSpelling? (textAt "op" node) with
            | none => .error (.unsupportedAt info.position (.binaryOperator (textAt "op" node)))
            | some op => do
                let lhs ← child "lhs"
                let rhs ← child "rhs"
                .ok (.binary info op lhs rhs)
        | "unary" =>
            match UnaryOp.ofSpelling? (textAt "op" node) with
            | none => .error (.unsupportedAt info.position (.unaryOperator (textAt "op" node)))
            | some op => do
                let operand ← child "operand"
                .ok (.unary info op operand)
        | "call" =>
            match Builtin.ofName? (textAt "builtin" node) with
            | none => .error (.unsupportedAt info.position (.builtin (textAt "builtin" node)))
            | some builtin => do
                let callee ← child "callee"
                let args ← children "args"
                .ok (.call info callee args (flagAt "variadic" node) builtin)
        | "member" => do
            let base ← child "base"
            .ok (.member info base (flagAt "arrow" node) (textAt "field" node))
        | "subscript" => do
            let base ← child "base"
            let index ← child "index"
            .ok (.subscript info base index)
        | "cast" =>
            match CastKind.ofName? (textAt "cast" node) with
            | none => .error (.unsupportedAt info.position (.castKind (textAt "cast" node)))
            | some kind => do
                let operand ← child "operand"
                .ok (.cast info kind operand (flagAt "explicit" node))
        | "sizeof" => do
            let arg ← r.type fuel (get? "arg" node) (place ++ ".arg")
            .ok (.sizeOf info arg)
        | "va_arg" => do
            let list ← child "list"
            .ok (.listNext info list)
        | "cond" => do
            let cond ← child "cond"
            let then_ ← child "then"
            let else_ ← child "else"
            .ok (.conditional info cond then_ else_)
        | "message" =>
            match get? "receiver" node with
            | some _ => do
                let receiver ← child "receiver"
                let args ← children "args"
                .ok (.message info receiver (textAt "selector" node) args)
            | none =>
                if textAt "class" node = "" then
                  r.malformed place (.messageWithoutTarget (textAt "selector" node))
                else do
                  let args ← children "args"
                  .ok (.classMessage info (textAt "class" node) (textAt "selector" node) args)
        | kind => .error (.unsupportedAt info.position (.expressionKind kind))
      r.record node place e

/-- A child that may be missing. -/
def optional {α : Type} (f : Option Json → String → Result α) (node : Option Json)
    (place : String) : Result (Option α) :=
  match node with
  | none => .ok none
  | some node => do
      let a ← f (some node) place
      .ok (some a)

def varDecl (r : Reading) (fuel : Nat) (node : Option Json) (place : String) : Result VarDecl :=
  match node with
  | none => r.malformed place .expectedVariable
  | some node =>
      if textAt "kind" node ≠ "var" then r.malformed place .expectedVariable
      else do
        let type ← r.type fuel (get? "type" node) (place ++ ".type")
        let init ← optional (r.expr fuel) (get? "init" node) (place ++ ".init")
        .ok { position := r.position node, name := textAt "name" node, type, init }

/-- One arm of a switch. -/
def switchCase (r : Reading) (fuel : Nat) (stmt : Option Json → String → Result Stmt)
    (node : Option Json) (place : String) : Result SwitchCase :=
  match node with
  | none => .error .crash
  | some node => do
      let label ←
        if flagAt "default" node then .ok none
        else do
          let label ← r.expr fuel (get? "label" node) (place ++ ".label")
          .ok (some label)
      let body ← indexed stmt (place ++ ".stmts") 0 (itemsAt "stmts" node)
      .ok (.mk (r.position node) label body)

def stmt (r : Reading) : (fuel : Nat) → Option Json → String → Result Stmt
  | _, none, place => r.malformed place .missingStatement
  | 0, some _, _ => .error .crash
  | fuel + 1, some node, place =>
      let position := r.position node
      let exprAt := fun key => r.expr fuel (get? key node) (place ++ "." ++ key)
      let stmtAt := fun key => r.stmt fuel (get? key node) (place ++ "." ++ key)
      let exprAt? := fun key => optional (r.expr fuel) (get? key node) (place ++ "." ++ key)
      let stmtAt? := fun key => optional (r.stmt fuel) (get? key node) (place ++ "." ++ key)
      match textAt "kind" node with
      | "compound" => do
          let body ← indexed (r.stmt fuel) (place ++ ".stmts") 0 (itemsAt "stmts" node)
          .ok (.compound position body)
      | "if" => do
          let cond ← exprAt "cond"
          let then_ ← stmtAt "then"
          let else_ ← stmtAt? "else"
          .ok (.ifElse position cond then_ else_)
      | "while" => do
          let cond ← exprAt "cond"
          let body ← stmtAt "body"
          .ok (.whileLoop position cond body)
      | "do" => do
          let body ← stmtAt "body"
          let cond ← exprAt "cond"
          .ok (.doLoop position body cond)
      | "for" => do
          let init ← stmtAt? "init"
          let cond ← exprAt? "cond"
          let inc ← exprAt? "inc"
          let body ← stmtAt "body"
          .ok (.forLoop position init cond inc body)
      | "switch" => do
          let cond ← exprAt "cond"
          let cases ←
            indexed (r.switchCase fuel (r.stmt fuel)) (place ++ ".cases") 0 (itemsAt "cases" node)
          .ok (.switch position cond cases)
      | "break" => .ok (.brk position)
      | "continue" => .ok (.cont position)
      | "null" => .ok (.null position)
      | "return" => do
          let value ← exprAt? "expr"
          .ok (.ret position value)
      | "decl" => do
          let vars ← indexed (r.varDecl fuel) (place ++ ".vars") 0 (itemsAt "vars" node)
          .ok (.decl position vars)
      | "expr" => do
          let value ← exprAt "expr"
          .ok (.expr position value)
      | kind => .error (.unsupportedAt position (.statementKind kind))

def param (r : Reading) (fuel : Nat) (node : Option Json) (place : String) : Result Param :=
  match node with
  | none => .error .crash
  | some node => do
      let type ← r.type fuel (get? "type" node) place
      .ok { position := r.position node, name := textAt "name" node, type }

/-- The statements of a body, which must be a compound, and its place. -/
def body (r : Reading) (fuel : Nat) (node : Option Json) (place : String) :
    Result (Option (List Stmt × Position)) :=
  match node with
  | none => .ok none
  | some node => do
      let s ← r.stmt fuel (some node) place
      match s with
      | .compound position body => .ok (some (body, position))
      | _ => r.malformed place .bodyNotCompound

def decl (r : Reading) (fuel : Nat) (node : Option Json) (place : String) : Result Decl :=
  match node with
  | none => r.malformed place .missingDeclaration
  | some node =>
      match textAt "kind" node with
      | "function" => do
          let params ← indexed (r.param fuel) (place ++ ".params") 0 (itemsAt "params" node)
          let result ← r.type fuel (get? "result" node) (place ++ ".result")
          let body ← r.body fuel (get? "body" node) (place ++ ".body")
          let name := textAt "name" node
          .ok <| .func
            { position := r.position node, name, params, result
              body := body.map (·.1)
              bodyPosition := (body.map (·.2)).getD {}
              variadic := flagAt "variadic" node
              entry := flagAt "entry" node || (name = "main" && body.isSome) }
      | "method" => do
          let params ← indexed (r.param fuel) (place ++ ".params") 0 (itemsAt "params" node)
          let result ← r.type fuel (get? "result" node) (place ++ ".result")
          let body ← r.body fuel (get? "body" node) (place ++ ".body")
          if textAt "owner" node = "" then
            r.malformed place (.methodWithoutOwner (textAt "selector" node))
          else
            .ok <| .method
              { position := r.position node, params, result
                owner := textAt "owner" node
                selector := textAt "selector" node
                body := body.map (·.1)
                bodyPosition := (body.map (·.2)).getD {}
                classMethod := flagAt "class_method" node }
      | "var" => do
          let v ← r.varDecl fuel (some node) place
          .ok (.var v)
      | kind => .error (.unsupportedAt (r.position node) (.declarationKind kind))

def field (r : Reading) (fuel : Nat) (node : Option Json) (place : String) :
    Result (Field × Bool) :=
  match node with
  | none => .error .crash
  | some node => do
      let type ← r.type fuel (get? "type" node) place
      let offset := wordAt? "offset" node
      .ok (⟨textAt "name" node, type, offset.getD 0⟩, offset.isSome)

/-- A record; its layout is taken from the dump when that gives the size and all offsets. -/
def recordOf (r : Reading) (fuel : Nat) (entry : String × Json) : Result Record := do
  let (name, node) := entry
  let fields ← indexed (r.field fuel) ("records[" ++ name ++ "].fields") 0 (itemsAt "fields" node)
  let align := wordAt "align" node
  let reported :=
    match wordAt? "size" node with
    | some size =>
        if fields.all (·.2) then some ⟨size, if align = 0 then 1 else align⟩ else none
    | none => none
  .ok ⟨⟨name, flagAt "union" node⟩, fields.map (·.1), reported⟩

def records (r : Reading) (fuel : Nat) : List (String × Json) → Result (List Record)
  | [] => .ok []
  | e :: es => do
      let first ← r.recordOf fuel e
      let rest ← r.records fuel es
      .ok (first :: rest)

end Reading

/-- Marker names of a run; empty ones stand for the usual names. -/
structure Markers where
  passThrough : String := ""
  listRecord : String := ""

/-- A unit and what is known about its types. -/
structure Loaded where
  unit : SourceUnit
  env : TypeEnv

/-- The unit of a canonical dump. -/
def resolve (path : String) (markers : Markers) (dump : Json) : Result Loaded := do
  let entries := membersOf (get? "records" dump)
  if entries.any fun e => e.2 matches .null then .error .crash
  else do
    let reading : Reading :=
      { path, file := textAt "file" dump
        tags := entries.map fun e => ⟨e.1, flagAt "union" e.2⟩ }
    let fuel := Json.maxNesting
    let records ← reading.records fuel entries
    let decls ← indexed (reading.decl fuel) "decls" 0 (itemsAt "decls" dump)
    let env := TypeEnv.ofMarkers markers.passThrough markers.listRecord records
    .ok ⟨⟨textAt "name" dump, reading.file, decls⟩, env.rememberAll⟩

/-- The unit of a dump that was read from `path`. -/
def ofJson (path : String) (markers : Markers) (j : Json) : Result Loaded :=
  match canonical j with
  | some dump => resolve path markers dump
  | none => .error (.of (.unreadableDump path))

/-- The unit of a dump's text. What follows the first value is ignored. -/
def ofText (path : String) (markers : Markers) (text : String) : Result Loaded :=
  match Json.readFirst text with
  | some (j, _) => ofJson path markers j
  | none => .error (.of (.unreadableDump path))

end DartLowering.Dump
