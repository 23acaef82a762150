import DartLowering.Proofs.Relabelling

/-!
Two runs over units that differ in labels only. `Agrees` says what the type tables of the two runs
must have in common: the types that occur in the first unit have the same classes, accessors and
sizes as what they are replaced by, and members lie at the same places. Then both runs succeed, with
the same output, or both fail, and their failures are related as the failures of single steps are.
-/
namespace DartLowering

open Result

variable {ok : CType → Prop} {e : Expr}

def Field.relabel (m : Relabelling) (f : Field) : Field := { f with type := m.type f.type }

/-- The tables `env` and `env'` of two runs agree on the types that satisfy `ok` and on what
replaces them, where failures count as the same when `F` relates them. -/
structure Agrees (m : Relabelling) (ok : CType → Prop) (F : Failure → Failure → Prop)
    (env env' : TypeEnv) : Prop where
  structural : m.Structural
  same : ∀ f, F f f
  located : ∀ p f g, F f g → F (f.locate p) (g.locate (m.place p))
  reported : ∀ (cause : String → Cause) p t, F (.report (cause (typeText t)) p none)
    (.report (cause (typeText (t.map m.type))) (m.place p) none)
  ok_unalias : ∀ t, ok t → ok t.unalias
  ok_pointee : ∀ t, ok (.pointer t) → ok t
  mapType : ∀ t, ok t → Alike F Eq (env.mapType t) (env'.mapType (m.type t))
  storageKind : ∀ t, ok t → Alike F Eq (env.storageKind t) (env'.storageKind (m.type t))
  sizeOf : ∀ t, ok t → Alike F Eq (env.sizeOf t) (env'.sizeOf (m.type t))
  extent : ∀ t, ok t →
    (env'.extent (m.type t)).toOption.map (·.size) = (env.extent t).toOption.map (·.size)
  passThrough : ∀ t, ok t → env'.isPassThrough (m.type t) = env.isPassThrough t
  field : ∀ tag name, (env'.records.find tag).field? name =
    ((env.records.find tag).field? name).map (Field.relabel m)
  ok_field : ∀ tag name f, (env.records.find tag).field? name = some f → ok f.type
  layout : ∀ tag, Alike F (fun l l' => ∀ name, l'.offset? name = l.offset? name)
    (env.layoutOf tag) (env'.layoutOf tag)

def Expr.types (e : Expr) : List CType :=
  e.type.toList ++
    match e with
    | .sizeOf _ arg => [arg]
    | _ => []

/-- Every type in the expression satisfies `ok`. -/
inductive Expr.Typed (ok : CType → Prop) : Expr → Prop
  | mk {e : Expr} (own : ∀ t ∈ e.types, ok t) (children : ∀ x ∈ e.children, x.Typed ok) : e.Typed ok

theorem Expr.Typed.own (h : e.Typed ok) {t : CType} (ht : t ∈ e.types) : ok t := by
  cases h with
  | mk own _ => exact own t ht

theorem Expr.Typed.type (h : e.Typed ok) {t : CType} (ht : e.type = some t) : ok t :=
  h.own (List.mem_append_left _ (Option.mem_toList.mpr ht))

theorem Expr.Typed.child {x : Expr} (h : e.Typed ok) (hx : x ∈ e.children) : x.Typed ok := by
  cases h with
  | mk _ children => exact children x hx

theorem Expr.Typed.stripList (h : e.Typed ok) : e.stripList.Typed ok := by
  fun_induction Expr.stripList e with
  | case1 info kind operand isExplicit hkind ih => exact ih (h.child List.mem_cons_self)
  | case2 | case3 => exact h

namespace Agrees

variable {m : Relabelling} {ok : CType → Prop} {F : Failure → Failure → Prop} {env env' : TypeEnv}
  (h : Agrees m ok F env env') {e : Expr}

include h

section Constants

omit h in
theorem value_relabel (hm : m.Structural) {info : ExprInfo} {compute compute' : Unit → Option Int64}
    (hcompute : compute' () = compute ()) :
    (info.relabel m).value compute' = info.value compute := by
  unfold ExprInfo.value
  cases htype : info.type with
  | none => simp only [ExprInfo.relabel, htype, Option.map_none]
  | some t =>
    have hfit : (m.type t).fit = t.fit := by
      funext v
      unfold CType.fit
      rw [hm.scalar?]
    simp only [ExprInfo.relabel, htype, Option.map_some, hm.isInteger, hcompute, hfit]

theorem constant (he : e.Typed ok) : env'.constant? (e.relabel m) = env.constant? e := by
  induction he with
  | @mk e own children ih =>
    cases e with
    | sizeOf info arg =>
      rw [Expr.relabel, TypeEnv.constant?, TypeEnv.constant?]
      exact value_relabel h.structural (h.extent arg (own arg (by simp [Expr.types])))
    | cast info kind operand isExplicit =>
      have hoperand := ih operand List.mem_cons_self
      rw [Expr.relabel, TypeEnv.constant?.eq_def env', TypeEnv.constant?.eq_def env]
      dsimp only
      rw [hoperand]
      exact value_relabel h.structural rfl
    | unary info op operand =>
      rw [Expr.relabel, TypeEnv.constant?, TypeEnv.constant?, ih operand List.mem_cons_self]
      exact value_relabel h.structural rfl
    | binary info op lhs rhs =>
      rw [Expr.relabel, TypeEnv.constant?, TypeEnv.constant?, ih lhs (by simp [Expr.children]),
        ih rhs (by simp [Expr.children]), isSigned_relabel h.structural]
      exact value_relabel h.structural rfl
    | conditional info cond then_ else_ =>
      rw [Expr.relabel, TypeEnv.constant?, TypeEnv.constant?, ih cond (by simp [Expr.children]),
        ih then_ (by simp [Expr.children]), ih else_ (by simp [Expr.children])]
      exact value_relabel h.structural rfl
    | absent => rfl
    | _ => exact value_relabel h.structural rfl

end Constants

open Lower

section Codes

theorem constantCode (info : ExprInfo) (v : Int64) :
    Alike F Eq (Lower.constantCode info v) (Lower.constantCode (info.relabel m) v) := by
  have hscalar : (info.relabel m).type.bind CType.scalar? = info.type.bind CType.scalar? :=
    bind_relabel h.structural.scalar? info.type
  unfold Lower.constantCode
  rw [hscalar]
  cases info.type.bind CType.scalar? with
  | none =>
    exact .error (h.reported (fun s => .violation (.constantType s)) info.position info.type)
  | some s => exact .refl h.same _

theorem floatCode (info : ExprInfo) (x : Float) :
    Lower.floatCode (info.relabel m) x = Lower.floatCode info x := by
  have hscalar : (info.relabel m).type.bind CType.scalar? = info.type.bind CType.scalar? :=
    bind_relabel h.structural.scalar? info.type
  unfold Lower.floatCode
  rw [hscalar]

theorem asReceiver (he : e.Typed ok) (code : Code) :
    Lower.asReceiver env' (e.relabel m) code = Lower.asReceiver env e code := by
  have hclosed : ∀ x : Expr, isClosed (x.relabel m) = isClosed x := by
    intro x
    cases x <;> rfl
  unfold Lower.asReceiver
  rw [isBare_eq, isBare_eq, stripTransparent_relabel, hclosed, h.constant he]

theorem asCondition (he : e.Typed ok) (code : Code) :
    Lower.asCondition env' (e.relabel m) code = Lower.asCondition env e code := by
  unfold Lower.asCondition
  rw [h.asReceiver he, scalar?_relabel h.structural]

theorem isValue {t? : Option CType} (ht : ∀ t, t? = some t → ok t) :
    Lower.isValue env' (t?.map m.type) = Lower.isValue env t? := by
  cases t? with
  | none => rfl
  | some t =>
    have hmapped := h.mapType t (ht t rfl)
    simp only [Option.map_some, Lower.isValue, h.structural.unalias]
    generalize env.mapType t = r at hmapped ⊢
    generalize env'.mapType (m.type t) = r' at hmapped ⊢
    cases hmapped with
    | ok heq =>
      rw [heq]
      cases t.unalias <;> rfl
    | error => cases t.unalias <;> rfl

theorem asCopy (he : e.Typed ok) (code : Code) :
    Lower.asCopy env' (e.relabel m) code = Lower.asCopy env e code := by
  unfold Lower.asCopy
  rw [type_relabel, h.isValue fun t ht => he.type ht, h.asReceiver he]

theorem planCode (he : e.Typed ok) (code : Code) (plan : CastPlan) :
    plan.code env' (e.relabel m) code = plan.code env e code := by
  cases plan with
  | toBoolean wrapper => simp only [CastPlan.code, h.asCondition he]
  | method | retype => simp only [CastPlan.code, h.asReceiver he]
  | _ => rfl

end Codes

section Helpers

variable {info : ExprInfo}

theorem onType {α : Type} {f g : CType → Result α}
    (hfg : ∀ t, ok t → Alike F Eq (f t) (g (m.type t))) {t? : Option CType}
    (ht : ∀ t, t? = some t → ok t) :
    Alike F Eq (TypeEnv.onType f t?) (TypeEnv.onType g (t?.map m.type)) := by
  cases t? with
  | none => exact .error (h.same _)
  | some t => exact hfg t (ht t rfl)

theorem recordMember (position : Position) (t : Option CType) (field : String) :
    Alike F (fun a b => b = { a with type := m.type a.type } ∧ ok a.type)
      (Lower.recordMember env position t field)
      (Lower.recordMember env' (m.place position) (t.map m.type) field) := by
  unfold Lower.recordMember
  rw [bind_relabel h.structural.record? t]
  cases t.bind CType.record? with
  | none => exact .error (h.reported (fun s => .violation (.memberOfNonRecord field s)) position t)
  | some tag =>
    dsimp only
    rw [h.field tag field]
    cases hfield : (env.records.find tag).field? field with
    | none =>
      exact .error (h.reported (fun _ => .violation (.unknownField tag.name field)) position none)
    | some f =>
      refine (h.layout tag).bind fun layout layout' hlayout => ?_
      rw [hlayout]
      cases layout.offset? field with
      | none =>
        exact .error
          (h.reported (fun _ => .violation (.unplacedField tag.name field)) position none)
      | some offset =>
        have hok := h.ok_field tag field f hfield
        exact (h.storageKind f.type hok).bind_eq fun kind => .ok ⟨rfl, hok⟩

theorem resolveMember (position : Position) (base : Expr) (arrow : Bool) (field : String) :
    Alike F (fun a b => b = { a with type := m.type a.type } ∧ ok a.type)
      (Lower.resolveMember env position base arrow field)
      (Lower.resolveMember env' (m.place position) (base.relabel m) arrow field) := by
  have hpointee : (base.type.map m.type).bind CType.pointee? =
      (base.type.bind CType.pointee?).map m.type := by
    cases base.type with
    | none => rfl
    | some t => exact h.structural.pointee? t
  rw [resolveMember_eq, resolveMember_eq, type_relabel, hpointee]
  split
  · cases base.type.bind CType.pointee? with
    | none =>
      exact .error (h.reported (fun s => .violation (.arrowOnNonPointer s)) position base.type)
    | some t => exact h.recordMember position (some t) field
  · exact h.recordMember position base.type field

theorem accessCode {access : Access} (hok : ok access.type) (memory : Code) :
    Alike F Eq (Lower.accessCode env access memory)
      (Lower.accessCode env' { access with type := m.type access.type } memory) := by
  unfold Lower.accessCode
  dsimp only
  split
  · exact (h.sizeOf access.type hok).bind_eq fun size => .ok rfl
  · exact .ok rfl

theorem knownShape (callee : Expr) :
    (callee.relabel m).knownPrototype?.map Prototype.shape =
      callee.knownPrototype?.map Prototype.shape := by
  have hbind : ∀ t? : Option CType, ((t?.map m.type).bind CType.callable?).map Prototype.shape =
      (t?.bind CType.callable?).map Prototype.shape := by
    intro t?
    cases t? with
    | none => rfl
    | some t => exact h.structural.callableShape t
  have hdirect : ((callee.relabel m).directCallee?.bind fun c =>
        c.1.type.bind CType.callable?).map Prototype.shape =
      (callee.directCallee?.bind fun c => c.1.type.bind CType.callable?).map Prototype.shape := by
    rw [directCallee?_relabel]
    cases callee.directCallee? with
    | none => rfl
    | some c => exact hbind c.1.type
  simp only [Expr.knownPrototype?, Option.map_or, hdirect, type_relabel, hbind]

theorem callShape (info : ExprInfo) (callee : Expr) (args : List Expr) (variadic : Bool) :
    Alike F Eq (Lower.callShape info callee args variadic)
      (Lower.callShape (info.relabel m) (callee.relabel m)
        (args.map (Expr.relabel m)) variadic) := by
  -- the two prototypes may differ in the types of their parameters, but not in their number
  have hshape := h.knownShape callee
  unfold Expr.knownPrototype? at hshape
  unfold Lower.callShape
  dsimp only
  rw [List.length_map]
  generalize (callee.type.bind CType.callable?).or _ = p at hshape
  generalize ((callee.relabel m).type.bind CType.callable?).or _ = q at hshape
  cases p with
  | none =>
    cases q with
    | some q => cases hshape
    | none =>
      dsimp only
      split
      · rw [type_relabel]
        exact .error (h.reported (fun s => .violation (.noPrototype s)) info.position callee.type)
      · exact .ok rfl
  | some p =>
    cases q with
    | none => cases hshape
    | some q =>
      simp only [Option.map_some, Option.some.injEq, Prototype.shape, Prod.mk.injEq] at hshape
      simp only [hshape.1, hshape.2]
      split
      · exact .error (h.reported
          (fun _ => .violation (.argumentCount args.length p.params.length)) info.position none)
      · exact .ok rfl

theorem pointerView (ht : ∀ t, info.type = some t → ok t) (kind : CastKind) :
    Alike F Eq (Lower.pointerView env info kind)
      (Lower.pointerView env' (info.relabel m) kind) := by
  have hpass : (info.relabel m).type.any env'.isPassThrough = info.type.any env.isPassThrough := by
    cases htype : info.type with
    | none => simp [ExprInfo.relabel, htype]
    | some t => simp [ExprInfo.relabel, htype, h.passThrough t (ht t htype)]
  have hrefused : Alike F Eq
      (if info.type.any env.isPassThrough then .ok none else
        .error (.unsupportedAt info.position (.castToNonPointer kind.name (typeText info.type))) :
        Result (Option (String × List Code)))
      (if (info.relabel m).type.any env'.isPassThrough then .ok none else
        .error (.unsupportedAt (info.relabel m).position
          (.castToNonPointer kind.name (typeText (info.relabel m).type)))) := by
    rw [hpass]
    split
    · exact .ok rfl
    · exact .error (h.reported (fun s => .unsupported (.castToNonPointer kind.name s)) info.position
        info.type)
  unfold Lower.pointerView
  dsimp only
  cases htype : info.type with
  | none =>
    rw [htype] at hrefused
    simpa only [ExprInfo.relabel, htype, Option.map_none] using hrefused
  | some t =>
    -- both runs look through type names, at the pointer and again at what it points to
    have hok := h.ok_unalias t (ht t htype)
    simp only [ExprInfo.relabel, htype, Option.map_some, h.structural.unalias] at hrefused ⊢
    cases hu : t.unalias with
    | object | functionPointer => exact .ok rfl
    | pointer pointee =>
      rw [hu] at hok
      have hpointee := h.ok_pointee pointee hok
      have hsize := h.sizeOf pointee.unalias (h.ok_unalias pointee hpointee)
      have hstem := h.storageKind pointee hpointee
      rw [h.structural.type_unalias] at hsize
      dsimp only [CType.mapParts]
      rw [h.structural.unalias]
      cases hp : pointee.unalias with
      | void | function => exact .ok rfl
      | array | record =>
        rw [hp] at hsize
        exact hsize.bind_eq fun size => .ok rfl
      | _ => exact hstem.bind_eq fun stem => .ok rfl
    | _ => exact hrefused

theorem unionSize (ht : ∀ t, info.type = some t → ok t) {operand : Expr} (he : operand.Typed ok) :
    Alike F Eq (Lower.unionSize env info operand)
      (Lower.unionSize env' (info.relabel m) (operand.relabel m)) := by
  have hrecord : (info.relabel m).type.bind CType.record? = info.type.bind CType.record? :=
    bind_relabel h.structural.record? info.type
  unfold Lower.unionSize
  rw [hrecord]
  split
  · refine (h.onType h.sizeOf ht).bind_eq fun target => ?_
    rw [type_relabel]
    refine (h.onType h.sizeOf fun t => he.type).bind_eq fun source => ?_
    split
    · exact .error (h.reported (fun _ => .unionTooSmall target source) info.position none)
    · exact .ok rfl
  · exact .error (h.reported (fun s => .violation (.unionTarget s)) info.position info.type)

theorem castPlan (ht : ∀ t, info.type = some t → ok t) (kind : CastKind) {operand : Expr}
    (he : operand.Typed ok) : Alike F Eq (Lower.castPlan env info kind operand)
      (Lower.castPlan env' (info.relabel m) kind (operand.relabel m)) := by
  cases kind with
  | lvalueToRvalue | noOp | toVoid | functionToPointerDecay => exact .ok rfl
  | integralToBoolean | floatingToBoolean | pointerToBoolean =>
    exact (h.onType h.mapType ht).bind_eq fun wrapper => .ok rfl
  | integralCast | integralToFloating | floatingToIntegral | floatingCast | pointerToIntegral =>
    exact (h.onType h.storageKind ht).bind_eq fun stem => .ok rfl
  | integralToPointer | nullToPointer =>
    exact (h.pointerView ht _).bind_eq fun view => .ok rfl
  | arrayToPointerDecay =>
    refine (h.pointerView ht _).bind_eq fun view => ?_
    rw [literalBytes?_relabel]
    split <;> exact .ok rfl
  | bitCast =>
    refine (h.pointerView ht _).bind_eq fun view => ?_
    split <;> exact .ok rfl
  | toUnion => exact (h.unionSize ht he).bind_eq fun size => .ok rfl
  | unrecognised name =>
    exact .error (h.reported (fun _ => .violation (.castKind _)) info.position none)

theorem orConstant (he : e.Typed ok) {e' : Expr} (heq : e.relabel m = e')
    (hinfo : e'.info = e.info.relabel m) {node node' : Unit → Result Code}
    (hnode : Alike F Eq (node ()) (node' ())) :
    Alike F Eq (Lower.orConstant env e node) (Lower.orConstant env' e' node') := by
  have hposition : e'.position = m.place e.position := by
    unfold Expr.position
    rw [hinfo]
    rfl
  unfold Lower.orConstant
  rw [← heq, h.constant he, heq, hposition]
  refine Alike.locate ?_ (h.located e.position)
  cases env.constant? e with
  | some v =>
    rw [hinfo]
    exact h.constantCode e.info v
  | none => exact hnode

theorem copies {scope : Scope} {args : List Expr} (hargs : ∀ x ∈ args, x.Typed ok)
    (ih : ∀ x ∈ args, Alike F Eq (expr env scope false x) (expr env' scope false (x.relabel m))) :
    Alike F Eq (Lower.copies env scope args)
      (Lower.copies env' scope (args.map (Expr.relabel m))) := by
  induction args with
  | nil => exact .ok rfl
  | cons x xs ihs =>
    rw [List.forall_mem_cons] at hargs ih
    rw [List.map_cons, Lower.copies, Lower.copies]
    refine ih.1.bind_eq fun code => (ihs hargs.2 ih.2).bind_eq fun codes => ?_
    rw [h.asCopy hargs.1]
    exact .ok rfl

end Helpers

section Steps

variable {scope : Scope} {peel : Bool} {info : ExprInfo} {args : List Expr}

omit h in
/-- Both runs give related codes for the children. -/
def ChildrenAlike (m : Relabelling) (F : Failure → Failure → Prop) (env env' : TypeEnv)
    (scope : Scope) (e : Expr) : Prop :=
  ∀ x ∈ e.children, ∀ peel, Alike F Eq (expr env scope peel x) (expr env' scope peel (x.relabel m))

theorem binary {op : BinaryOp} {lhs rhs : Expr} (he : Expr.Typed ok (.binary info op lhs rhs))
    (ih : ChildrenAlike m F env env' scope (.binary info op lhs rhs)) :
    Alike F Eq (expr env scope peel (.binary info op lhs rhs))
      (expr env' scope peel (Expr.relabel m (.binary info op lhs rhs))) := by
  have hlhs := ih lhs (by simp [Expr.children]) false
  have hrhs := ih rhs (by simp [Expr.children]) false
  have htyped : lhs.Typed ok := he.child (by simp [Expr.children])
  -- a call of a method of the left operand with the right one
  have hinvoke : ∀ method (wrap : Code → Code), Alike F Eq
      (do
        let left ← expr env scope false lhs
        let right ← expr env scope false rhs
        .ok (Code.invoke (Lower.asReceiver env lhs left) method [wrap right]))
      (do
        let left ← expr env' scope false (lhs.relabel m)
        let right ← expr env' scope false (rhs.relabel m)
        .ok (Code.invoke (Lower.asReceiver env' (lhs.relabel m) left) method [wrap right])) := by
    intro method wrap
    refine hlhs.bind_eq fun left => hrhs.bind_eq fun right => ?_
    rw [h.asReceiver htyped]
    exact .ok rfl
  rw [expr.eq_def env, Expr.relabel, expr.eq_def env']
  refine h.orConstant he rfl rfl ?_
  dsimp only
  split
  · exact hlhs.bind_eq fun first => hrhs.bind_eq fun second => .ok rfl
  · exact hinvoke "set" id
  · exact hinvoke _ Code.closure
  · exact hinvoke _ Code.closure
  · exact .error (h.reported (fun _ => .unsupported (.pointerToMember _)) info.position none)
  · exact .error (h.reported (fun _ => .unsupported (.pointerToMember _)) info.position none)
  · split
    · rw [targetName?_relabel]
      split
      · exact hrhs.bind_eq fun value => .ok rfl
      · exact hlhs.bind_eq fun target => hrhs.bind_eq fun value => .ok rfl
    · split
      · exact .error (h.reported (fun _ => .violation (.operatorMethod _)) info.position none)
      · exact hinvoke _ id

theorem unary {op : UnaryOp} {operand : Expr} (he : Expr.Typed ok (.unary info op operand))
    (ih : ChildrenAlike m F env env' scope (.unary info op operand)) :
    Alike F Eq (expr env scope peel (.unary info op operand))
      (expr env' scope peel (Expr.relabel m (.unary info op operand))) := by
  have hoperand := ih operand (by simp [Expr.children]) false
  rw [expr.eq_def env, Expr.relabel, expr.eq_def env']
  refine h.orConstant he rfl rfl ?_
  split
  · exact hoperand
  · exact .error (h.reported (fun _ => .unsupported (.complexOperator _)) info.position none)
  · exact .error (h.reported (fun _ => .unsupported (.complexOperator _)) info.position none)
  · rw [functionName?_relabel]
    split
    · exact .ok rfl
    · split
      · exact .error (h.reported (fun _ => .violation (.operatorMethod _)) info.position none)
      · refine hoperand.bind_eq fun code => ?_
        rw [h.asReceiver (he.child (by simp [Expr.children]))]
        exact .ok rfl

theorem call {callee : Expr} {variadic : Bool} {builtin : Builtin}
    (he : Expr.Typed ok (.call info callee args variadic builtin))
    (ih : ChildrenAlike m F env env' scope (.call info callee args variadic builtin)) :
    Alike F Eq (expr env scope peel (.call info callee args variadic builtin))
      (expr env' scope peel (Expr.relabel m (.call info callee args variadic builtin))) := by
  have hcodes : Alike F Eq (Lower.copies env scope args)
      (Lower.copies env' scope (args.map (Expr.relabel m))) :=
    h.copies (fun x hx => he.child (List.mem_cons_of_mem callee hx))
      fun x hx => ih x (List.mem_cons_of_mem callee hx) false
  rw [expr.eq_def env, Expr.relabel, expr.eq_def env', relabelAll_eq_map]
  refine h.orConstant he (by rw [Expr.relabel, relabelAll_eq_map]) rfl ?_
  cases builtin with
  | listStart =>
    dsimp only
    split
    · exact .error (h.reported (fun _ => .violation .listStartPlace) info.position none)
    · cases args with
      | nil =>
        exact .error (h.reported (fun _ => .violation .listStartArguments) info.position none)
      | cons list rest =>
        exact (ih list (by simp [Expr.children]) true).bind_eq fun code => .ok rfl
  | listCopy =>
    have hcount := fun n : Nat =>
      h.reported (fun _ => .violation (.listCopyArguments n)) info.position none
    cases args with
    | nil => exact .error (hcount 0)
    | cons target rest =>
      cases rest with
      | nil => exact .error (hcount 1)
      | cons source more =>
        cases more with
        | nil =>
          exact (ih target (by simp [Expr.children]) true).bind_eq fun first =>
            (ih source (by simp [Expr.children]) true).bind_eq fun second => .ok rfl
        | cons third others =>
          simp only [List.map_cons, List.length_cons, List.length_map]
          exact .error (hcount (others.length + 3))
  | listEnd => exact .ok rfl
  | none =>
    refine (h.callShape info callee args variadic).bind_eq fun shape => ?_
    rw [directCallee?_relabel]
    cases callee.directCallee? with
    | some c => exact hcodes.bind_eq fun codes => .ok rfl
    | none =>
      refine (ih callee List.mem_cons_self false).bind_eq fun code => hcodes.bind_eq fun codes => ?_
      unfold indirectCall
      rw [h.asReceiver (he.child List.mem_cons_self)]
      exact .ok rfl

theorem cast {kind : CastKind} {operand : Expr} {isExplicit : Bool}
    (he : Expr.Typed ok (.cast info kind operand isExplicit))
    (ih : ChildrenAlike m F env env' scope (.cast info kind operand isExplicit)) :
    Alike F Eq (expr env scope peel (.cast info kind operand isExplicit))
      (expr env' scope peel (Expr.relabel m (.cast info kind operand isExplicit))) := by
  have htyped : operand.Typed ok := he.child List.mem_cons_self
  rw [expr.eq_def env, Expr.relabel, expr.eq_def env']
  dsimp only
  split
  · exact ih operand List.mem_cons_self true
  · refine h.orConstant he rfl rfl ?_
    refine (h.castPlan (fun t ht => he.type ht) kind htyped).bind_eq fun plan => ?_
    split
    · exact .ok rfl
    · refine (ih operand List.mem_cons_self false).bind_eq fun code => ?_
      rw [h.planCode htyped]
      exact .ok rfl

theorem member {base : Expr} {arrow : Bool} {field : String}
    (he : Expr.Typed ok (.member info base arrow field))
    (ih : ChildrenAlike m F env env' scope (.member info base arrow field)) :
    Alike F Eq (expr env scope peel (.member info base arrow field))
      (expr env' scope peel (Expr.relabel m (.member info base arrow field))) := by
  rw [expr.eq_def env, Expr.relabel, expr.eq_def env']
  refine h.orConstant he rfl rfl ?_
  refine (h.resolveMember info.position base arrow field).bind fun access access' haccess => ?_
  refine (ih base List.mem_cons_self false).bind_eq fun code => ?_
  rw [haccess.1, h.asReceiver (he.child List.mem_cons_self)]
  exact h.accessCode haccess.2 _

theorem subscript {base index : Expr} (he : Expr.Typed ok (.subscript info base index))
    (ih : ChildrenAlike m F env env' scope (.subscript info base index)) :
    Alike F Eq (expr env scope peel (.subscript info base index))
      (expr env' scope peel (Expr.relabel m (.subscript info base index))) := by
  rw [expr.eq_def env, Expr.relabel, expr.eq_def env']
  refine h.orConstant he rfl rfl ?_
  refine (ih base List.mem_cons_self false).bind_eq fun pointer => ?_
  refine (ih index (by simp [Expr.children]) false).bind_eq fun offset => ?_
  rw [h.asReceiver (he.child List.mem_cons_self)]
  exact .ok rfl

theorem listNext {list : Expr} (he : Expr.Typed ok (.listNext info list))
    (ih : ChildrenAlike m F env env' scope (.listNext info list)) :
    Alike F Eq (expr env scope peel (.listNext info list))
      (expr env' scope peel (Expr.relabel m (.listNext info list))) := by
  have hlist : list.Typed ok := he.child List.mem_cons_self
  rw [expr.eq_def env, Expr.relabel, expr.eq_def env']
  refine h.orConstant he rfl rfl ?_
  refine (h.onType h.mapType fun t ht => he.type ht).bind_eq fun type => ?_
  refine (ih list List.mem_cons_self true).bind_eq fun code => ?_
  rw [stripList_relabel, h.asReceiver hlist.stripList]
  exact .ok rfl

theorem conditional {cond then_ else_ : Expr}
    (he : Expr.Typed ok (.conditional info cond then_ else_))
    (ih : ChildrenAlike m F env env' scope (.conditional info cond then_ else_)) :
    Alike F Eq (expr env scope peel (.conditional info cond then_ else_))
      (expr env' scope peel (Expr.relabel m (.conditional info cond then_ else_))) := by
  rw [expr.eq_def env, Expr.relabel, expr.eq_def env']
  refine h.orConstant he rfl rfl ?_
  refine (ih cond List.mem_cons_self false).bind_eq fun test => ?_
  refine (ih then_ (by simp [Expr.children]) false).bind_eq fun yes => ?_
  refine (ih else_ (by simp [Expr.children]) false).bind_eq fun no => ?_
  rw [h.asCondition (he.child List.mem_cons_self)]
  exact .ok rfl

theorem message {receiver : Expr} {selector : String}
    (he : Expr.Typed ok (.message info receiver selector args))
    (ih : ChildrenAlike m F env env' scope (.message info receiver selector args)) :
    Alike F Eq (expr env scope peel (.message info receiver selector args))
      (expr env' scope peel (Expr.relabel m (.message info receiver selector args))) := by
  have hcodes := h.copies (fun x hx => he.child (List.mem_cons_of_mem receiver hx))
    fun x hx => ih x (List.mem_cons_of_mem receiver hx) false
  rw [expr.eq_def env, Expr.relabel, expr.eq_def env', relabelAll_eq_map]
  refine h.orConstant he (by rw [Expr.relabel, relabelAll_eq_map]) rfl ?_
  refine (ih receiver List.mem_cons_self false).bind_eq fun target => ?_
  rw [h.asReceiver (he.child List.mem_cons_self)]
  exact hcodes.bind_eq fun codes => .ok rfl

theorem classMessage {className selector : String}
    (he : Expr.Typed ok (.classMessage info className selector args))
    (ih : ChildrenAlike m F env env' scope (.classMessage info className selector args)) :
    Alike F Eq (expr env scope peel (.classMessage info className selector args))
      (expr env' scope peel (Expr.relabel m (.classMessage info className selector args))) := by
  have hcodes := h.copies (fun x hx => he.child hx) fun x hx => ih x hx false
  rw [expr.eq_def env, Expr.relabel, expr.eq_def env', relabelAll_eq_map]
  refine h.orConstant he (by rw [Expr.relabel, relabelAll_eq_map]) rfl ?_
  exact hcodes.bind_eq fun codes => .ok rfl

/-- Both runs give the same code for an expression, or both give none. -/
theorem expr (he : e.Typed ok) : ∀ peel,
    Alike F Eq (Lower.expr env scope peel e) (Lower.expr env' scope peel (e.relabel m)) := by
  induction he with
  | @mk e own children ih =>
    intro peel
    have he : e.Typed ok := .mk own children
    cases e with
    | absent => exact .error (h.same _)
    | int info value => exact h.orConstant he rfl rfl (h.constantCode info value)
    | float info value => exact h.orConstant he rfl rfl (.ok (h.floatCode info value).symm)
    | string | ref => exact h.orConstant he rfl rfl (.ok rfl)
    | binary info op lhs rhs => exact h.binary he ih
    | unary info op operand => exact h.unary he ih
    | call info callee args variadic builtin => exact h.call he ih
    | member info base arrow field => exact h.member he ih
    | subscript info base index => exact h.subscript he ih
    | cast info kind operand isExplicit => exact h.cast he ih
    | sizeOf info arg =>
      have harg : ok arg := own arg (by simp [Expr.types])
      exact h.orConstant he rfl rfl ((h.sizeOf arg harg).bind_eq fun size => .ok rfl)
    | listNext info list => exact h.listNext he ih
    | conditional info cond then_ else_ => exact h.conditional he ih
    | message info receiver selector args => exact h.message he ih
    | classMessage info className selector args => exact h.classMessage he ih

end Steps

end Agrees

end DartLowering
