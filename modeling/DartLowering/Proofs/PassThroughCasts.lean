import DartLowering.Dump.Resolve
import DartLowering.Emit.Expr
import DartLowering.Json.Writer
import DartLowering.Lower.Unit
import DartLowering.Proofs.Result

/-!
Casts to pass-through types. Mapping recognises the pass-through marker in every name of a type and
in the record that the names stand for (`TypeEnv.isMarked`). A cast looks below the names first and
asks for the marker afterwards, of the outermost name only. So it keeps its operand exactly where
that name is the marker and no pointer is below it, or where an object is below it.
-/
namespace DartLowering

open Result

/-- The marker is one of the names of the type, or names the record that they stand for. -/
def TypeEnv.isMarked (env : TypeEnv) : CType → Bool
  | .alias name underlying => env.isPassThrough (.alias name underlying) || env.isMarked underlying
  | t => env.isPassThrough t

def CType.isPointer (t : CType) : Bool :=
  match t.unalias with
  | .pointer _ | .functionPointer _ _ _ => true
  | _ => false

def CType.isObject (t : CType) : Bool :=
  match t.unalias with
  | .object _ => true
  | _ => false

/-- The constant of a node of type `t` for which nothing is computed. -/
def ExprInfo.recorded? (info : ExprInfo) (t : CType) : Option Int64 :=
  if t.isInteger then info.constant else none

theorem ExprInfo.recorded?_eq_none_iff {info : ExprInfo} {t : CType} :
    info.recorded? t = none ↔ (t.isInteger = true → info.constant = none) := by
  unfold recorded?
  split <;> simp_all

theorem CastKind.bitCast_not_peeled (peel : Bool) :
    ¬ (peel && (bitCast = arrayToPointerDecay || bitCast = lvalueToRvalue || bitCast = noOp)) =
      true := by
  simp

theorem Wrapper.integer?_ne_dynamic (signed : Bool) (bits : Int64) :
    Wrapper.integer? signed bits ≠ some Wrapper.dynamic := by
  grind [Wrapper.integer?, Wrapper.dynamic]

theorem Scalar.wrapper_ne_dynamic (s : Scalar) : s.wrapper ≠ .ok Wrapper.dynamic := by
  grind [Scalar.wrapper, Wrapper.integer?_ne_dynamic, Wrapper.dynamic, Wrapper.float,
    Wrapper.double]

namespace TypeEnv

variable {env : TypeEnv}

theorem isMarked_of_isPassThrough {t : CType} (h : env.isPassThrough t = true) :
    env.isMarked t = true := by
  cases t with
  | «alias» name underlying => exact Bool.or_eq_true_iff.mpr (.inl h)
  | _ => exact h

/-- What is mapped to the dynamic class is marked, except for objects of no class or of that
name. -/
theorem mapType_eq_dynamic_iff : ∀ {t : CType}, env.mapType t = .ok Wrapper.dynamic ↔
    env.isMarked t = true ∨ t.unalias = .object "" ∨ t.unalias = .object Wrapper.dynamic
  | .void | .functionPointer _ _ _ | .function _ _ _ => by
    simp [mapType, isMarked, isPassThrough, CType.unalias, Wrapper.void, Wrapper.dynamic,
      Wrapper.functionPointer]
  | .scalar s => by
    simp [mapType, isMarked, isPassThrough, CType.unalias, s.wrapper_ne_dynamic]
  | .pointer pointee => by
    simp only [mapType, isMarked, isPassThrough, CType.unalias]
    split <;> simp [Wrapper.functionPointer, Wrapper.pointer, Wrapper.dynamic]
  | .array elem _ isVariable => by
    simp only [mapType, isMarked, isPassThrough, CType.unalias]
    split
    · simp
    · split <;> simp [Wrapper.varArgs, Wrapper.pointer, Wrapper.dynamic]
  | .record tag => by
    simp only [mapType, isMarked, CType.unalias]
    split <;> simp_all [Wrapper.composite, Wrapper.dynamic]
  | .object className => by
    simp only [mapType, isMarked, isPassThrough, CType.unalias]
    split <;> simp_all
  | .alias name t => by
    have ih : env.mapType t = .ok Wrapper.dynamic ↔ _ := mapType_eq_dynamic_iff
    rw [mapType, isMarked, CType.unalias]
    split
    · rename_i hpass
      refine iff_of_true rfl (.inl ?_)
      rcases Bool.or_eq_true_iff.mp hpass with hname | hbelow
      · exact Bool.or_eq_true_iff.mpr (.inl hname)
      · exact Bool.or_eq_true_iff.mpr (.inr (isMarked_of_isPassThrough hbelow))
    · rename_i hpass
      have hname : env.isPassThrough (.alias name t) = false := by
        simp only [Bool.or_eq_true, not_or, Bool.not_eq_true] at hpass
        exact hpass.1
      rw [ih, hname, Bool.false_or]

end TypeEnv

/-- Bit casts to the type of the node are written as their operands are, and fail only as these
do. -/
structure TypeEnv.KeepsOperand (env : TypeEnv) (info : ExprInfo) : Prop where
  lowered : ∀ scope peel operand isExplicit,
    Lower.expr env scope peel (.cast info .bitCast operand isExplicit) =
      Result.locate info.position (Lower.expr env scope false operand)
  written : ∀ scope peel operand isExplicit,
    Emit.expr env scope peel (.cast info .bitCast operand isExplicit) =
      (Emit.expr env scope false operand).locate info.position

namespace Lower

variable {env : TypeEnv} {info : ExprInfo} {t : CType}

theorem pointerView_eq_none_iff (htype : info.type = some t) (kind : CastKind) :
    pointerView env info kind = .ok none ↔
      t.isObject = true ∨ env.isPassThrough t = true ∧ t.isPointer = false := by
  have hview : ∀ {α : Type} (r : Result α) (view : α → String × List Code),
      (r >>= fun a => .ok (some (view a))) ≠ (.ok none : Result (Option (String × List Code))) := by
    intro α r view h
    obtain ⟨a, -, ha⟩ := bind_eq_ok.mp h
    cases ha
  unfold pointerView CType.isObject CType.isPointer
  rw [htype]
  dsimp only
  cases t.unalias with
  | object | functionPointer => simp
  | pointer pointee =>
    dsimp only
    cases pointee.unalias with
    | void | function => simp
    | array | record => simpa using hview _ _
    | _ => simpa using hview _ _
  | _ =>
    simp only [Option.any_some]
    split <;> simp_all

/-- A bit cast is a constant only by what was recorded for it. -/
theorem constant?_bitCast (htype : info.type = some t) (operand : Expr) (isExplicit : Bool) :
    env.constant? (.cast info .bitCast operand isExplicit) = info.recorded? t := by
  change (info.value fun _ => none) = _
  rw [ExprInfo.value, ExprInfo.recorded?, htype]
  dsimp only
  cases t.isInteger <;> cases info.constant <;> rfl

theorem expr_bitCast (scope : Scope) (peel : Bool) (operand : Expr) (isExplicit : Bool) :
    expr env scope peel (.cast info .bitCast operand isExplicit) =
      orConstant env (.cast info .bitCast operand isExplicit) fun _ =>
        pointerView env info .bitCast >>= fun view =>
          match view with
          | none => expr env scope false operand
          | some view => expr env scope false operand >>= fun code =>
              .ok (viewed (some view) (asReceiver env operand code)) := by
  rw [expr, if_neg (CastKind.bitCast_not_peeled peel)]
  congr 1
  funext _
  rw [castPlan]
  cases pointerView env info .bitCast with
  | error => rfl
  | ok view =>
    cases view with
    | none => exact Result.bind_ok _
    | some view => rfl

theorem constantCode_ne_name (v : Int64) (name : String) :
    constantCode info v ≠ .ok (.name name) := by
  unfold constantCode
  intro h
  split at h
  · cases h
  · obtain ⟨wrapper, -, hcode⟩ := bind_eq_ok.mp h
    cases hcode

/-- Under a cast that adds a view, and under one that is a constant, a name is not written alone. -/
theorem view_of_kept_name (htype : info.type = some t) {name : String}
    (h : expr env {} false (.cast info .bitCast (.ref {} name .var) false) =
      .ok (.name (identifier name))) :
    pointerView env info .bitCast = .ok none ∧ info.recorded? t = none := by
  rw [expr_bitCast] at h
  have hcode := locate_eq_ok.mp h
  rw [constant?_bitCast htype] at hcode
  split at hcode
  · exact absurd hcode (constantCode_ne_name _ _)
  · rename_i hnone
    obtain ⟨view, hview, hcode⟩ := bind_eq_ok.mp hcode
    cases view with
    | some view =>
      obtain ⟨code, -, hcode⟩ := bind_eq_ok.mp hcode
      cases hcode
    | none => exact ⟨hview, hnone⟩

theorem expr_of_view_none (htype : info.type = some t)
    (hview : pointerView env info .bitCast = .ok none) (hnone : info.recorded? t = none)
    (scope : Scope) (peel : Bool) (operand : Expr) (isExplicit : Bool) :
    expr env scope peel (.cast info .bitCast operand isExplicit) =
      Result.locate info.position (expr env scope false operand) := by
  rw [expr_bitCast, orConstant, constant?_bitCast htype, hnone, hview]
  rfl

end Lower

namespace Emit

variable {env : TypeEnv} {info : ExprInfo} {t : CType}

theorem pointerView_eq_empty (htype : info.type = some t)
    (h : t.isObject = true ∨ env.isPassThrough t = true ∧ t.isPointer = false) (kind : CastKind) :
    pointerView env info kind = pure "" := by
  unfold CType.isObject CType.isPointer at h
  unfold pointerView
  rw [htype]
  dsimp only
  cases hbelow : t.unalias with
  | object => rfl
  | functionPointer | pointer => simp [hbelow] at h
  | _ =>
    simp only [hbelow, Bool.false_eq_true, false_or, and_true] at h
    simp only [Option.any_some, if_pos h]

theorem lookupConstant_bitCast (htype : info.type = some t) (operand : Expr) (isExplicit : Bool) :
    env.lookupConstant (.cast info .bitCast operand isExplicit) = pure (info.recorded? t) := by
  change info.lookupValue (pure none) = _
  rw [ExprInfo.lookupValue, ExprInfo.recorded?, htype]
  dsimp only
  cases t.isInteger <;> cases info.constant <;> rfl

theorem expr_of_view_empty (htype : info.type = some t)
    (h : t.isObject = true ∨ env.isPassThrough t = true ∧ t.isPointer = false)
    (hnone : info.recorded? t = none) (scope : Lower.Scope) (peel : Bool) (operand : Expr)
    (isExplicit : Bool) :
    expr env scope peel (.cast info .bitCast operand isExplicit) =
      (expr env scope false operand).locate info.position := by
  rw [expr, if_neg (CastKind.bitCast_not_peeled peel), orConstant, constant,
    lookupConstant_bitCast htype, hnone, cast, pointerView_eq_empty htype h]
  rfl

end Emit

/-- Every marked type is mapped to the dynamic class, and no other type but an object is. Bit casts
to a marked type keep every operand exactly where an object is below its names, or where the
outermost name is the marker and no pointer is below it; and where no integer was recorded for the
cast, if the type is one of integers. -/
theorem marked_casts_keep_iff {env : TypeEnv} {info : ExprInfo} {t : CType}
    (htype : info.type = some t) (hmarked : env.isMarked t = true) :
    (∀ t, env.mapType t = .ok Wrapper.dynamic ↔
      env.isMarked t = true ∨ t.unalias = .object "" ∨ t.unalias = .object Wrapper.dynamic) ∧
    env.mapType t = .ok Wrapper.dynamic ∧
    (env.KeepsOperand info ↔
      (t.isObject = true ∨ env.isPassThrough t = true ∧ t.isPointer = false) ∧
        (t.isInteger = true → info.constant = none)) := by
  have hclass : env.mapType t = .ok Wrapper.dynamic :=
    TypeEnv.mapType_eq_dynamic_iff.mpr (.inl hmarked)
  refine ⟨fun _ => TypeEnv.mapType_eq_dynamic_iff, hclass, ?_⟩
  rw [← Lower.pointerView_eq_none_iff htype .bitCast, ← ExprInfo.recorded?_eq_none_iff]
  constructor
  · intro hkeeps
    exact Lower.view_of_kept_name htype (hkeeps.lowered {} false (.ref {} "x" .var) false)
  · rintro ⟨hview, hnone⟩
    have hplain := (Lower.pointerView_eq_none_iff htype .bitCast).mp hview
    exact ⟨Lower.expr_of_view_none htype hview hnone, Emit.expr_of_view_empty htype hplain hnone⟩

/-- The marker as a type name of its own. -/
theorem marker_casts_keep :
    let env := TypeEnv.ofMarkers "" "" []
    let marker : CType := .alias TypeEnv.defaultPassThrough (.record ⟨"", false⟩)
    env.isMarked marker = true ∧ env.mapType marker = .ok "dynamic" ∧
      env.KeepsOperand { type := some marker } := by
  intro env marker
  have htype : ({ type := some marker } : ExprInfo).type = some marker := rfl
  have hmarked : env.isMarked marker = true := by decide
  obtain ⟨-, hclass, hkeeps⟩ := marked_casts_keep_iff htype hmarked
  exact ⟨hmarked, hclass, hkeeps.mpr ⟨.inr ⟨by decide, rfl⟩, fun _ => rfl⟩⟩

/-- The dump of a unit with one variable, which starts with an object that is cast to a type named
after the marker record. -/
def castToNamedMarker : Json :=
  let named : Json := .ofMembers
    [("kind", .ofText "alias"), ("name", .ofText "NSString"),
      ("underlying", .ofMembers
        [("kind", .ofText "record"), ("name", .ofText TypeEnv.defaultPassThrough)])]
  .ofMembers
    [("name", .ofText "u"), ("file", .ofText "u.m"),
      ("decls", .array {}
        [.ofMembers
          [("kind", .ofText "var"), ("name", .ofText "s"), ("type", named),
            ("init", .ofMembers
              [("kind", .ofText "cast"), ("cast", .ofText "BitCast"), ("type", named),
                ("pos", .ofMembers [("line", .ofWord 2), ("col", .ofWord 14)]),
                ("operand", .ofMembers
                  [("kind", .ofText "name"), ("name", .ofText "p"),
                    ("type", .ofMembers [("kind", .ofText "object")])])])]])]

/-- One name in front of the marker record: the class of the values is dynamic, and the cast fails
for the sake of the type. -/
theorem named_marker_cast_fails :
    ∃ loaded s e, Dump.ofJson "in.json" {} castToNamedMarker = .ok loaded ∧
      loaded.unit.decls = [.var s] ∧ s.init = some e ∧ loaded.env.mapType s.type = .ok "dynamic" ∧
      loaded.env.isMarked s.type = true ∧
      Lower.expr loaded.env {} false e =
        .error (.unsupportedAt ⟨"u.m", 2, 14⟩ (.castToNonPointer "BitCast" "NSString")) :=
  ⟨_, _, _, rfl, rfl, rfl, rfl, rfl, rfl⟩

end DartLowering
