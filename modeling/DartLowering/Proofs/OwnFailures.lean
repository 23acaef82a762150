import DartLowering.Proofs.Containment
import DartLowering.Proofs.Spelling

/-!
How the questions fail that the emission of one node asks about types, layouts and calls, before or
after its children are emitted. They make reports at the place of the node, reports that have no
place yet, and they pass on what the layout of a record fails with: `AdmitsOwn P env position` says
that `P` holds of all of these. The codes that they make are spelled as the node is.
-/
namespace DartLowering

open Result Text

/-- `P` holds of what a node at `position` may fail with by itself. -/
structure AdmitsOwn (P : Failure → Prop) (env : TypeEnv) (position : Position) : Prop where
  reported : ∀ c : Cause, c.isOrdinary = true → P (.of c)
  placed : ∀ c : Cause, c.isOrdinary = true → P (.report c position none)
  layout : ∀ tag, FailsOnly P (env.layoutOf tag)
  unplaced : ∀ tag field f l, (env.records.find tag).field? field = some f →
    env.layoutOf tag = .ok l → l.offset? field = none →
      P (.report (.violation (.unplacedField tag.name field)) position none)

namespace AdmitsOwn

variable {P : Failure → Prop} {env : TypeEnv}

section Types

variable {position : Position} (h : AdmitsOwn P env position)

include h

theorem report {α : Type} {c : Cause} (hc : c.isOrdinary = true) :
    FailsOnly P (.error (.of c) : Result α) :=
  failsOnly_error.mpr (h.reported c hc)

theorem placedReport {α : Type} {c : Cause} (hc : c.isOrdinary = true) :
    FailsOnly P (.error (.report c position none) : Result α) :=
  failsOnly_error.mpr (h.placed c hc)

theorem wrapper (s : Scalar) : FailsOnly P s.wrapper := by
  unfold Scalar.wrapper
  split
  · exact h.report rfl
  · split
    · split
      · exact failsOnly_ok _
      · split
        · exact failsOnly_ok _
        · exact h.report rfl
    · split
      · exact failsOnly_ok _
      · exact h.report rfl

theorem mapType : ∀ t : CType, FailsOnly P (env.mapType t)
  | .void | .pointer _ | .functionPointer _ _ _ | .record _ | .object _ => failsOnly_ok _
  | .scalar s => h.wrapper s
  | .array elem length isVariable => by
    rw [TypeEnv.mapType]
    split
    · exact h.report rfl
    · exact failsOnly_ok _
  | .alias name t => by
    rw [TypeEnv.mapType]
    split
    · exact failsOnly_ok _
    · exact mapType t
  | .function _ _ _ => h.report rfl

theorem storageKind : ∀ t : CType, FailsOnly P (env.storageKind t)
  | .pointer _ | .functionPointer _ _ _ | .object _ => failsOnly_ok _
  | .scalar s => (h.wrapper s).bind fun _ => failsOnly_ok _
  | .array elem length isVariable => by
    rw [TypeEnv.storageKind]
    split
    · exact h.report rfl
    · exact failsOnly_ok _
  | .record tag => by
    rw [TypeEnv.storageKind]
    split
    · exact h.report rfl
    · exact failsOnly_ok _
  | .alias name t => by
    rw [TypeEnv.storageKind]
    split
    · exact h.report rfl
    · exact storageKind t
  | .void | .function _ _ _ => h.report rfl

theorem sizeOf : ∀ t : CType, FailsOnly P (env.sizeOf t)
  | .void | .pointer _ | .functionPointer _ _ _ | .object _ => failsOnly_ok _
  | .scalar s => by
    rw [TypeEnv.sizeOf]
    split
    · exact failsOnly_ok _
    · exact h.report rfl
  | .array elem length isVariable => by
    rw [TypeEnv.sizeOf.eq_def]
    dsimp only
    split
    · exact h.report rfl
    · cases length with
      | none => exact h.report rfl
      | some n => exact (sizeOf elem).bind fun size => failsOnly_ok _
  | .record tag => (h.layout tag).bind fun l => failsOnly_ok _
  | .alias _ t => sizeOf t
  | .function _ _ _ => h.report rfl

theorem onType {α : Type} {f : CType → Result α} (hf : ∀ t, FailsOnly P (f t)) (t? : Option CType) :
    FailsOnly P (TypeEnv.onType f t?) := by
  cases t? with
  | none => exact h.report rfl
  | some t => exact hf t

theorem recordMember (t : Option CType) (field : String) :
    FailsOnly P (Lower.recordMember env position t field) := by
  unfold Lower.recordMember
  split
  · exact h.placedReport rfl
  · rename_i tag _
    split
    · exact h.placedReport rfl
    · rename_i f hf
      refine failsOnly_bind.mpr ⟨h.layout tag, fun layout hlayout => ?_⟩
      split
      · rename_i hnone
        exact failsOnly_error.mpr (h.unplaced tag field f layout hf hlayout hnone)
      · exact (h.storageKind _).bind fun kind => failsOnly_ok _

theorem resolveMember (base : Expr) (arrow : Bool) (field : String) :
    FailsOnly P (Lower.resolveMember env position base arrow field) := by
  rw [Lower.resolveMember_eq]
  split
  · split
    · exact h.recordMember _ field
    · exact h.placedReport rfl
  · exact h.recordMember base.type field

theorem sized (t : CType) : Ends P (fun _ => True) (env.sizeOf t) :=
  ⟨h.sizeOf t, fun _ _ => trivial⟩

theorem stored (t : CType) : Ends P (Over isWord) (env.storageKind t) :=
  ⟨h.storageKind t, fun _ => TypeEnv.storageKind_word⟩

theorem onType_ends {α : Type} {Q : α → Prop} {f : CType → Result α} {t? : Option CType}
    (hf : ∀ t, t? = some t → Ends P Q (f t)) : Ends P Q (TypeEnv.onType f t?) := by
  cases t? with
  | none => exact ends_error (h.reported _ rfl)
  | some t => exact hf t rfl

variable {p : Char → Bool} (hp : AdmitsWords p)

include hp

theorem mapped {t? : Option CType} (hclass : ∀ c, t?.bind CType.className? = some c → Over p c) :
    Ends P (Over p) (TypeEnv.onType env.mapType t?) :=
  h.onType_ends fun t ht =>
    ⟨h.mapType t, fun _ hname => Lower.mapType_over hp hname (by simpa [ht] using hclass)⟩

theorem accessCode {access : Lower.Access} {memory : Code} (hkind : Over isWord access.kind)
    (hmemory : memory.Spelled p) :
    Ends P (Code.Spelled p) (Lower.accessCode env access memory) := by
  unfold Lower.accessCode
  split
  · refine (h.sized access.type).bind fun size _ => ends_ok ?_
    exact ⟨hmemory, over_word hp rfl, trivial, trivial, trivial⟩
  · exact ends_ok
      ⟨hmemory, over_append.mpr ⟨hkind.weaken hp, over_word hp rfl⟩, trivial, trivial⟩

end Types

section Nodes

open Lower

variable {info : ExprInfo} (h : AdmitsOwn P env info.position)

include h

theorem refused {α : Type} {Q : α → Prop} {c : Cause} (hc : c.isOrdinary = true) :
    Ends P Q (.error (.report c info.position none)) :=
  ends_error (h.placed c hc)

theorem callShape (callee : Expr) (args : List Expr) (variadic : Bool) :
    FailsOnly P (Lower.callShape info callee args variadic) := by
  unfold Lower.callShape
  dsimp only
  split
  · split
    · exact h.placedReport rfl
    · exact failsOnly_ok _
  · split
    · exact h.placedReport rfl
    · exact failsOnly_ok _

theorem unionSize (operand : Expr) : Ends P (fun _ => True) (Lower.unionSize env info operand) := by
  have hsized : ∀ t?, Ends P (fun _ => True) (TypeEnv.onType env.sizeOf t?) :=
    fun t? => h.onType_ends fun t _ => h.sized t
  unfold Lower.unionSize
  split
  · refine (hsized info.type).bind fun target _ => (hsized operand.type).bind fun source _ => ?_
    split
    · exact h.refused rfl
    · exact ends_ok trivial
  · exact h.refused rfl

variable {p : Char → Bool} (hp : AdmitsWords p)

include hp

theorem constantCode (v : Int64) : Ends P (Code.Spelled p) (Lower.constantCode info v) := by
  unfold Lower.constantCode
  split
  · exact h.refused rfl
  · refine Ends.bind ⟨h.wrapper _, fun _ => Scalar.wrapper_word⟩ fun wrapper hwrapper => ends_ok ?_
    exact ⟨hwrapper.weaken hp, over_word hp rfl, trivial, trivial⟩

/-- A view leaves code spelled as it is. -/
theorem pointerView (kind : CastKind) : Ends P (fun view => ∀ code : Code, code.Spelled p →
    (viewed view code).Spelled p) (Lower.pointerView env info kind) := by
  have hview : ∀ {method : String} {args : List Code}, Over p method → Code.AllSpelled p args →
      Ends P (fun view => ∀ code : Code, code.Spelled p → (viewed view code).Spelled p)
        (.ok (some (method, args))) :=
    fun hmethod hargs => ends_ok fun code hcode => ⟨hcode, hmethod, hargs⟩
  have hnone : Ends P (fun view => ∀ code : Code, code.Spelled p → (viewed view code).Spelled p)
      (.ok none) := ends_ok fun code hcode => hcode
  unfold Lower.pointerView
  dsimp only
  split
  · split
    · exact hnone
    · exact h.refused rfl
  · split
    · exact hnone
    · exact hview (over_word hp rfl) trivial
    · split
      · exact hview (over_word hp rfl) trivial
      · exact hview (over_word hp rfl) trivial
      · exact (h.sized _).bind fun size _ => hview (over_word hp rfl) ⟨trivial, trivial⟩
      · exact (h.sized _).bind fun size _ => hview (over_word hp rfl) ⟨trivial, trivial⟩
      · refine (h.stored _).bind fun stem hstem => hview ?_ trivial
        have hcapital := (capitalised_word hstem).weaken hp
        exact over_append.mpr ⟨over_append.mpr ⟨over_word hp rfl, hcapital⟩, over_word hp rfl⟩
    · split
      · exact hnone
      · exact h.refused rfl

/-- What a conversion makes of the code of its operand. -/
theorem castPlan {operand : Expr}
    (hclass : ∀ c, info.type.bind CType.className? = some c → Over p c) (kind : CastKind) :
    Ends P (fun plan => ∀ code : Code, code.Spelled p → (plan.code env operand code).Spelled p)
      (Lower.castPlan env info kind operand) := by
  cases kind with
  | lvalueToRvalue | noOp | toVoid => exact ends_ok fun code hcode => hcode
  | functionToPointerDecay => exact ends_ok fun code hcode => ⟨over_word hp rfl, hcode, trivial⟩
  | integralToBoolean | floatingToBoolean | pointerToBoolean =>
    refine (h.mapped hp hclass).bind fun wrapper hwrapper => ends_ok fun code hcode => ?_
    exact onClass_spelled hwrapper (over_word hp rfl)
      ⟨⟨asCondition_spelled hp hcode, trivial, trivial⟩, trivial⟩
  | integralCast | integralToFloating | floatingToIntegral | floatingCast | pointerToIntegral =>
    refine (h.onType_ends fun t _ => h.stored t).bind fun stem hstem => ends_ok fun code hcode => ?_
    exact ⟨asReceiver_spelled.mpr hcode,
      over_append.mpr ⟨hstem.weaken hp, over_word hp rfl⟩, trivial⟩
  | integralToPointer | nullToPointer =>
    refine (h.pointerView hp _).bind fun view hview => ends_ok fun code hcode => ?_
    exact hview _ ⟨asReceiver_spelled.mpr hcode, over_word hp rfl, trivial⟩
  | arrayToPointerDecay =>
    refine (h.pointerView hp _).bind fun view hview => ?_
    split
    · exact ends_ok fun code _ => hview _ (stringCode_spelled hp _)
    · refine ends_ok fun code hcode => hview _ ?_
      exact ⟨asReceiver_spelled.mpr hcode, over_word hp rfl, trivial⟩
  | bitCast =>
    refine (h.pointerView hp _).bind fun view hview => ?_
    split
    · exact ends_ok fun code hcode => hcode
    · exact ends_ok fun code hcode => hview _ (asReceiver_spelled.mpr hcode)
  | toUnion =>
    refine (h.unionSize operand).bind fun size _ => ends_ok fun code hcode => ?_
    exact ⟨⟨over_word hp rfl, over_word hp rfl, trivial, trivial⟩, over_word hp rfl, hcode, trivial⟩
  | unrecognised => exact h.refused rfl

end Nodes

end AdmitsOwn

end DartLowering
