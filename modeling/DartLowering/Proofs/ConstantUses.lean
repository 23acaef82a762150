import DartLowering.Dump.Resolve
import DartLowering.Json.Writer
import DartLowering.Lower.Stmt
import DartLowering.Proofs.ConstantArithmetic
import DartLowering.Proofs.Result

/-!
The uses of an integer constant. A constant expression is emitted as the construction of a wrapper,
it selects a case, and expressions around it are folded from it. Emission brings the value into the
range of the type; the other uses take it as it is. A computed value is in range already, so the
uses agree unless a value was recorded for the expression that its type does not hold.
-/
namespace DartLowering

open Number

section Range

variable {s : Scalar} {t : CType}

def Scalar.HoldsWord (s : Scalar) (c : Int64) : Prop := ∃ v, s.Holds v ∧ c = Int64.ofInt v

/-- The widths that wrappers exist for. -/
theorem Scalar.bits_of_wrapper {w : String} (h : s.wrapper = .ok w) :
    s.bits = 8 ∨ s.bits = 16 ∨ s.bits = 32 ∨ s.bits = 64 := by
  by_contra hbits
  rw [not_or, not_or, not_or] at hbits
  obtain ⟨h8, h16, h32, h64⟩ := hbits
  have hinteger : Wrapper.integer? s.signed s.bits = none := by
    rw [Wrapper.integer?, if_neg h8, if_neg h16, if_neg h32, if_neg h64]
  rw [wrapper, hinteger, if_neg h32, if_neg h64] at h
  split at h
  · cases h
  · split at h
    · cases h
    · cases h

theorem Scalar.wordSized_of_wrapper {w : String} (h : s.wrapper = .ok w) : s.WordSized := by
  unfold WordSized
  rcases bits_of_wrapper h with hbits | hbits | hbits | hbits
  all_goals
    rw [hbits]
    decide

theorem CType.fit_eq_ofInt (ht : t.scalar? = some s) (hs : s.WordSized) (v : Int64) :
    t.fit v = Int64.ofInt (s.reduce v.toInt) := by
  have hlow := v.le_toInt
  have hhigh := v.toInt_lt
  have hfit := CType.fit_ofInt ht hs (v := v.toInt) fun _ => ⟨by omega, by omega⟩
  rwa [Int64.ofInt_toInt] at hfit

/-- Bringing a word into the range of a type leaves alone what the type holds. -/
theorem CType.fit_eq_self_iff (ht : t.scalar? = some s) (hs : s.WordSized) {v : Int64} :
    t.fit v = v ↔ s.HoldsWord v := by
  rw [fit_eq_ofInt ht hs]
  constructor
  · intro hv
    exact ⟨s.reduce v.toInt, s.reduce_holds hs v.toInt, hv.symm⟩
  · rintro ⟨i, hi, rfl⟩
    exact Scalar.ofInt_reduce_toInt hs hi

theorem CType.fit_holdsWord (ht : t.scalar? = some s) (hs : s.WordSized) (v : Int64) :
    s.HoldsWord (t.fit v) :=
  ⟨s.reduce v.toInt, s.reduce_holds hs v.toInt, fit_eq_ofInt ht hs v⟩

end Range

section Uses

variable {env : TypeEnv} {e : Expr} {v : Int64}

/-- A constant has an integer type, and was recorded or computed in it. -/
theorem ExprInfo.value_eq_some {info : ExprInfo} {compute : Unit → Option Int64}
    (h : info.value compute = some v) :
    ∃ t s, info.type = some t ∧ t.scalar? = some s ∧
      (info.constant = some v ∨ info.constant = none ∧ ∃ raw, v = t.fit raw) := by
  unfold value at h
  cases htype : info.type with
  | none =>
    rw [htype] at h
    cases h
  | some t =>
    rw [htype] at h
    dsimp only at h
    cases hs : t.scalar? with
    | none => simp [CType.isInteger, hs] at h
    | some s =>
      refine ⟨t, s, rfl, hs, ?_⟩
      by_cases hinteger : t.isInteger
      · rw [if_neg (by simp [hinteger])] at h
        cases hconstant : info.constant with
        | none =>
          rw [hconstant] at h
          obtain ⟨raw, -, hraw⟩ := Option.map_eq_some_iff.mp h
          exact .inr ⟨rfl, raw, hraw.symm⟩
        | some c =>
          rw [hconstant] at h
          exact .inl h
      · rw [if_pos (by simp [hinteger])] at h
        cases h

theorem TypeEnv.constant?_eq_value (env : TypeEnv) (e : Expr) :
    ∃ compute, env.constant? e = e.info.value compute := by
  cases e with
  | _ => exact ⟨_, rfl⟩

end Uses

namespace Lower

variable {env : TypeEnv} {scope : Scope} {e : Expr} {v : Int64}

/-- Emission brings a constant into the range of its type. -/
theorem constantCode_eq_fit {info : ExprInfo} {t : CType} {s : Scalar} {w : String}
    (htype : info.type = some t) (hs : t.scalar? = some s) (hw : s.wrapper = .ok w) :
    constantCode info v = .ok (onClass w "fromInt" [.int (t.fit v)]) := by
  have hscalar : info.type.bind CType.scalar? = some s := by rw [htype, Option.bind_some, hs]
  have hprinted : truncate (if s.kind = .bool && v ≠ 0 then 1 else v) s.bits s.signed =
      t.fit v := by
    rw [CType.fit, hs]
    by_cases hbool : s.kind = .bool
    · have htruth : ∀ p : Bool, truncate (ofBool p) s.bits s.signed = ofBool p := by
        rcases Scalar.bits_of_wrapper hw with hbits | hbits | hbits | hbits
        all_goals
          rw [hbits]
          cases s.signed <;> decide
      by_cases hzero : v = 0
      · simpa [hbool, hzero, ofBool] using htruth false
      · simpa [hbool, hzero, ofBool] using htruth true
    · simp [hbool]
  rw [constantCode, hscalar]
  dsimp only
  rw [hw, Result.ok_bind, hprinted]

theorem expr_of_constant (hc : env.constant? e = some v) {code : Code}
    (h : constantCode e.info v = .ok code) : expr env scope false e = .ok code := by
  have hor : ∀ node : Unit → Result Code, orConstant env e node = .ok code := by
    intro node
    rw [orConstant, hc]
    dsimp only
    rw [h]
    rfl
  rw [expr.eq_def]
  cases e with
  | absent => cases h
  | cast info kind operand isExplicit =>
    dsimp only
    rw [if_neg (by simp)]
    exact hor _
  | _ => exact hor _

/-- A constant selects the case of its value, a conversion around it is folded from its value, and
it is emitted as a value that its type holds. This is one value exactly where the type holds what
was recorded for the expression, if anything was. -/
theorem constant_uses_agree_iff (hc : env.constant? e = some v) :
    ∃ s, e.scalar? = some s ∧ (∀ position, caseValue env position e = .ok v) ∧
      (∀ info isExplicit,
        env.constant? (.cast info .integralCast e isExplicit) = info.value fun _ => some v) ∧
      ∀ w, s.wrapper = .ok w → ∃ printed,
        expr env scope false e = .ok (onClass w "fromInt" [.int printed]) ∧ s.HoldsWord printed ∧
        (printed = v ↔ ∀ c, e.info.constant = some c → s.HoldsWord c) := by
  obtain ⟨compute, hvalue⟩ := env.constant?_eq_value e
  obtain ⟨t, s, htype, hs, hsource⟩ := ExprInfo.value_eq_some (hvalue.symm.trans hc)
  have hscalar : e.scalar? = some s := by rw [Expr.scalar?, Expr.type, htype, Option.bind_some, hs]
  refine ⟨s, hscalar, fun position => by rw [caseValue, hc],
    fun info isExplicit => by rw [TypeEnv.constant?, hc], fun w hw => ?_⟩
  have hword := Scalar.wordSized_of_wrapper hw
  refine ⟨t.fit v, expr_of_constant hc (constantCode_eq_fit htype hs hw),
    CType.fit_holdsWord hs hword v, ?_⟩
  rw [CType.fit_eq_self_iff hs hword]
  rcases hsource with hrecorded | ⟨hnone, raw, hraw⟩
  · rw [hrecorded]
    constructor
    · rintro hv c ⟨⟩
      exact hv
    · intro hheld
      exact hheld v rfl
  · rw [hnone, hraw]
    exact iff_of_true (CType.fit_holdsWord hs hword raw) fun c hrecorded => by cases hrecorded

/-- The complement of zero as an unsigned integer of 32 bits. -/
def complementOfZero : Expr :=
  let uint : CType := .scalar ⟨.uint, 32, false⟩
  .unary ⟨{}, some uint, none⟩ .bitNot (.int ⟨{}, some uint, none⟩ 0)

/-- Folded, the complement of zero is the largest value of its type in every use. -/
theorem constant_uses_agree_complement :
    (TypeEnv.ofMarkers "" "" []).constant? complementOfZero = some 4294967295 ∧
      ∃ s, complementOfZero.scalar? = some s ∧
        (∀ position, caseValue (.ofMarkers "" "" []) position complementOfZero = .ok 4294967295) ∧
        (∀ info isExplicit, (TypeEnv.ofMarkers "" "" []).constant?
          (.cast info .integralCast complementOfZero isExplicit) =
            info.value fun _ => some 4294967295) ∧
        ∀ w, s.wrapper = .ok w → ∃ printed,
          expr (.ofMarkers "" "" []) {} false complementOfZero =
            .ok (onClass w "fromInt" [.int printed]) ∧ s.HoldsWord printed ∧
          (printed = 4294967295 ↔
            ∀ c, complementOfZero.info.constant = some c → s.HoldsWord c) :=
  have hc : (TypeEnv.ofMarkers "" "" []).constant? complementOfZero = some 4294967295 := rfl
  ⟨hc, constant_uses_agree_iff hc⟩

/-- The dump of a variable that starts with the complement of zero, recorded as a word of ones. -/
def recordedComplement : Json :=
  let uint : Json := .ofMembers
    [("kind", .ofText "scalar"), ("scalar", .ofText "uint")]
  .ofMembers
    [("name", .ofText "u"), ("file", .ofText "u.c"),
      ("decls", .array {}
        [.ofMembers
          [("kind", .ofText "var"), ("name", .ofText "x"), ("type", uint),
            ("init", .ofMembers
              [("kind", .ofText "unary"), ("op", .ofText "~"), ("type", uint),
                ("const", .ofWord (-1)),
                ("operand", .ofMembers
                  [("kind", .ofText "int"), ("type", uint), ("value", .ofWord 0)])])]])]

/-- Recorded as minus one, the complement of zero selects another case than its emitted value. -/
theorem constant_uses_differ_recorded :
    ∃ loaded x e, Dump.ofJson "in.json" {} recordedComplement = .ok loaded ∧
      loaded.unit.decls = [.var x] ∧ x.init = some e ∧ loaded.env.constant? e = some (-1) ∧
      caseValue loaded.env {} e = .ok (-1) ∧
      expr loaded.env {} false e = .ok (onClass "CUint32" "fromInt" [.int 4294967295]) :=
  ⟨_, _, _, rfl, rfl, rfl, rfl, rfl, rfl⟩

end Lower

end DartLowering
