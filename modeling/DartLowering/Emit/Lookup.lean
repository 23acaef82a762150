import DartLowering.Emit.Run
import DartLowering.Layout.Constant
import DartLowering.Target.Wrapper

/-!
Questions about types and constants. The layout of a record is kept when it has been found, and
later questions take it from there; where a record has none, the layouts of the records inside it
that were found on the way stay kept.
-/
namespace DartLowering

open Layout Number

/-- Kept layouts, the latest first. -/
abbrev LayoutCache := List (RecordTag × RecordLayout)

/-- A question whose answer may add to the kept layouts. -/
abbrev Lookup := Run LayoutCache

namespace Lookup

def kept? (tag : RecordTag) : Lookup (Option RecordLayout) := fun layouts =>
  some (.ok ((layouts.find? fun k => k.1 = tag).map (·.2)), layouts)

def keep (tag : RecordTag) (l : RecordLayout) : Lookup Unit := fun layouts =>
  some (.ok (), (tag, l) :: layouts)

end Lookup

/-- The child itself, which has to be there. -/
def Expr.present {σ : Type} : Expr → Run σ Expr
  | .absent => .brokenOff
  | e => pure e

/-- Size and alignment of a type as part of a record. -/
def CType.lookupExtent (layoutOf : RecordTag → Lookup RecordLayout) : CType → Lookup Extent
  | .scalar s =>
      let size := s.bits / 8
      if size = 0 then .fail (.violation (.scalarWidth s.kind.name s.bits)) else pure ⟨size, size⟩
  | .pointer _ | .functionPointer _ _ _ | .object _ => pure ⟨pointerSize, pointerSize⟩
  | .array elem length isVariable =>
      if isVariable then .fail (.of .variableLengthArray)
      else do
        let e ← elem.lookupExtent layoutOf
        match length with
        | none => pure ⟨0, e.align⟩
        | some n =>
            match arrayLayout elem.text e.size e.align n with
            | .ok l => pure ⟨l.size, l.elementAlign⟩
            | .error fault => .fail (.violation (.arrayLayout fault))
  | .record tag => do
      let l ← layoutOf tag
      pure ⟨l.size, l.align⟩
  | .alias _ underlying => underlying.lookupExtent layoutOf
  | .void => .fail (.unsupported (.storage CType.void.text))
  | .function params result variadic =>
      .fail (.unsupported (.storage (CType.function params result variadic).text))

def Field.lookupSlot (layoutOf : RecordTag → Lookup RecordLayout) (record : String) (f : Field) :
    Lookup Slot := do
  match ← (f.type.lookupExtent layoutOf).attempt with
  | .ok e => pure ⟨f.name, f.type.text, f.offset, e.size, e.align⟩
  | .error failure => .fail (failure.wrap ("field " ++ record ++ "." ++ f.name))

def Record.lookupSlots (layoutOf : RecordTag → Lookup RecordLayout) (record : String) :
    List Field → Lookup (List Slot)
  | [] => pure []
  | f :: fs => do
      let s ← f.lookupSlot layoutOf record
      let ss ← Record.lookupSlots layoutOf record fs
      pure (s :: ss)

namespace TypeEnv

/-- The layout of a record that nests at most `depth` records, itself included. A record that holds
itself is never done, and the run is broken off. -/
def lookupLayoutWithin (env : TypeEnv) : Nat → RecordTag → Lookup RecordLayout
  | 0, _ => .brokenOff
  | depth + 1, tag => do
      match ← Lookup.kept? tag with
      | some l => pure l
      | none => do
          let r := env.records.find tag
          let slots ← Record.lookupSlots (env.lookupLayoutWithin depth) r.tag.name r.fields
          let l ← Run.ofResult (r.layout slots)
          Lookup.keep tag l
          pure l

def lookupLayout (env : TypeEnv) (tag : RecordTag) : Lookup RecordLayout :=
  env.lookupLayoutWithin (env.records.length + 1) tag

def lookupSize (env : TypeEnv) : CType → Lookup Int64
  | .scalar s =>
      match s.kind.bytes? with
      | some n => pure n
      | none => .fail s.unrecognised
  | .pointer _ | .functionPointer _ _ _ | .object _ => pure pointerSize
  | .array elem length isVariable =>
      if isVariable then .fail (.of .variableLengthArray)
      else
        match length with
        | none => .fail (.unsupported .incompleteArraySize)
        | some n => do
            let size ← env.lookupSize elem
            pure (size * n)
  | .record tag => do
      let l ← env.lookupLayout tag
      pure l.size
  | .alias _ underlying => env.lookupSize underlying
  | .void => pure 1
  | .function _ _ _ => .fail (.unsupported .functionSize)

end TypeEnv

section Constants

variable {σ : Type}

/-- The quotient or remainder of two words. -/
def divided (op : Int64 → Int64 → Int64) (l r : Int64) : Run σ Int64 :=
  if r = 0 then .brokenOff else pure (op l r)

/-- Operators that need both operands. -/
def BinaryOp.apply (unsigned : Bool) (l r : Int64) : BinaryOp → Run σ (Option Int64)
  | .div =>
      if r = 0 then pure none
      else do
        let q ← divided
          (fun l r => if unsigned then (l.toUInt64 / r.toUInt64).toInt64 else l / r) l r
        pure (some q)
  | .rem =>
      if r = 0 then pure none
      else do
        let q ← divided
          (fun l r => if unsigned then (l.toUInt64 % r.toUInt64).toInt64 else l % r) l r
        pure (some q)
  | op => pure (op.evaluate unsigned l r)

/-- The operator changes its left operand or gives it up. -/
def BinaryOp.isEffect (op : BinaryOp) : Bool :=
  op.compoundBase?.isSome || op = .assign || op = .comma

/-- The value of a binary expression from those of its operands. -/
def foldOperands (op : BinaryOp) (lhs : Expr) (left right : Run σ (Option Int64)) :
    Run σ (Option Int64) :=
  if op.isEffect then pure none
  else do
    match ← left with
    | none => pure none
    | some l =>
        if op = .logicalAnd ∧ l = 0 then pure (some 0)
        else if op = .logicalOr ∧ l ≠ 0 then pure (some 1)
        else do
          match ← right with
          | none => pure none
          | some r =>
              if op = .logicalAnd ∨ op = .logicalOr then pure (some (ofBool (r ≠ 0)))
              else do
                let lhs ← lhs.present
                op.apply (!lhs.isSigned) l r

/-- The value recorded for a node of integer type, or else the computed one in the node's type. -/
def ExprInfo.lookupValue (info : ExprInfo) (compute : Run σ (Option Int64)) :
    Run σ (Option Int64) :=
  match info.type with
  | none => pure none
  | some t =>
      if !t.isInteger then pure none
      else
        match info.constant with
        | some v => pure (some v)
        | none => do
            let v ← compute
            pure (v.map t.fit)

end Constants

/-- The value of an integer constant expression. -/
def TypeEnv.lookupConstant (env : TypeEnv) : Expr → Lookup (Option Int64)
  | .int info value => info.lookupValue (pure (some value))
  | .sizeOf info arg =>
      info.lookupValue do
        let e ← (arg.lookupExtent env.lookupLayout).attempt
        pure (e.toOption.map (·.size))
  | .cast info kind operand _ =>
      info.lookupValue <|
        match kind with
        | .integralCast | .noOp => env.lookupConstant operand
        | .integralToBoolean => do
            let v ← env.lookupConstant operand
            pure (v.map fun v => ofBool (v ≠ 0))
        | _ => pure none
  | .unary info op operand =>
      info.lookupValue do
        let v ← env.lookupConstant operand
        pure (v.bind fun v => op.evaluate v)
  | .binary info op lhs rhs =>
      info.lookupValue (foldOperands op lhs (env.lookupConstant lhs) (env.lookupConstant rhs))
  | .conditional info cond then_ else_ =>
      info.lookupValue do
        match ← env.lookupConstant cond with
        | none => pure none
        | some c => if c ≠ 0 then env.lookupConstant then_ else env.lookupConstant else_
  | e => e.info.lookupValue (pure none)

end DartLowering
