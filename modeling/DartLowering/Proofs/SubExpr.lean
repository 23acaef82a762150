import DartLowering.Layout.Constant
import Mathlib.Data.List.Basic

/-!
Sub-expressions and the paths that lead to them. A path is a list of child numbers. It is live when
it does not lead into a constant, whose operands leave no trace in the emitted code, nor into a
child that a list intrinsic has no use for.
-/
namespace DartLowering.Expr

variable {e : Expr} {path : List Nat}

/-- The sub-expressions directly below a node, in the order of the source. -/
def children : Expr → List Expr
  | .binary _ _ lhs rhs => [lhs, rhs]
  | .unary _ _ operand => [operand]
  | .call _ callee args _ _ => callee :: args
  | .member _ base _ _ => [base]
  | .subscript _ base index => [base, index]
  | .cast _ _ operand _ => [operand]
  | .listNext _ list => [list]
  | .conditional _ cond then_ else_ => [cond, then_, else_]
  | .message _ receiver _ args => receiver :: args
  | .classMessage _ _ _ args => args
  | .absent | .int _ _ | .float _ _ | .string _ _ | .ref _ _ _ | .sizeOf _ _ => []

theorem size_children {x : Expr} (h : x ∈ e.children) : SizeOf.sizeOf x < SizeOf.sizeOf e := by
  have hargs : ∀ args : List Expr, x ∈ args → SizeOf.sizeOf x < SizeOf.sizeOf args :=
    fun _ hx => List.sizeOf_lt_of_mem hx
  cases e with
  | absent | int | float | string | ref | sizeOf => cases h
  | unary | member | cast | listNext =>
    obtain rfl := List.mem_singleton.mp h
    simp only [unary.sizeOf_spec, member.sizeOf_spec, cast.sizeOf_spec, listNext.sizeOf_spec]
    omega
  | binary | subscript | conditional =>
    simp only [children, List.mem_cons, List.not_mem_nil, or_false] at h
    simp only [binary.sizeOf_spec, subscript.sizeOf_spec, conditional.sizeOf_spec]
    rcases h with rfl | rfl | rfl <;> omega
  | call info callee args variadic builtin | message info callee selector args =>
    simp only [call.sizeOf_spec, message.sizeOf_spec]
    rcases List.mem_cons.mp h with rfl | h
    · omega
    · have hlt := hargs _ h
      omega
  | classMessage info className selector args =>
    have hlt := hargs args h
    simp only [classMessage.sizeOf_spec]
    omega

/-- Induction over expressions whose hypothesis covers every child, also those in a list. -/
theorem childInduction {motive : Expr → Prop}
    (step : ∀ e, (∀ x ∈ e.children, motive x) → motive e) (e : Expr) : motive e :=
  step e fun x _ => childInduction step x
termination_by SizeOf.sizeOf e
decreasing_by exact size_children ‹_›

/-- The sub-expression that a path of child numbers leads to. -/
def sub? : Expr → List Nat → Option Expr
  | e, [] => some e
  | e, i :: path => (e.children[i]?).bind fun x => x.sub? path

/-- The way down through conversions. -/
def bottom : Expr → List Nat
  | .cast _ _ operand _ => 0 :: operand.bottom
  | _ => []

/-- A name or literal under conversions that leave no trace of their own. -/
inductive Absorbed : Expr → Prop
  | ref (info : ExprInfo) (name : String) (kind : RefKind) : Absorbed (.ref info name kind)
  | string (info : ExprInfo) (bytes : List UInt8) : Absorbed (.string info bytes)
  | cast (info : ExprInfo) {kind : CastKind} {operand : Expr} (isExplicit : Bool)
      (hkind : kind = .lvalueToRvalue ∨ kind = .noOp ∨ kind = .functionToPointerDecay)
      (h : Absorbed operand) : Absorbed (.cast info kind operand isExplicit)

/-- Every sub-expression of such an expression lies on the way down. -/
theorem Absorbed.sub {x y : Expr} (h : x.Absorbed) (hy : x.sub? path = some y) :
    y.Absorbed ∧ path <+: x.bottom := by
  induction path generalizing x with
  | nil =>
    cases hy
    exact ⟨h, List.nil_prefix⟩
  | cons i path ih =>
    obtain ⟨z, hz, hy⟩ := Option.bind_eq_some_iff.mp hy
    cases h with
    | ref | string => cases hz
    | cast info isExplicit hkind h =>
      match i with
      | 0 =>
        cases hz
        obtain ⟨habsorbed, hstarts⟩ := ih h hy
        exact ⟨habsorbed, List.prefix_cons_inj 0 |>.mpr hstarts⟩
      | i + 1 => cases hz

/-- A child whose code is wanted. The callees of list intrinsics have none, starting a list takes
only the first argument, and ending one takes none. -/
def wants : Expr → Nat → Bool
  | .call _ _ _ _ builtin, i =>
      match builtin with
      | .none => true
      | .listStart => i == 1
      | .listCopy => i != 0
      | .listEnd => false
  | _, _ => true

/-- The path leads through wanted children of nodes that are no constants. -/
def isLive (env : TypeEnv) : Expr → List Nat → Bool
  | _, [] => true
  | e, i :: path =>
      (env.constant? e).isNone && e.wants i && (e.children[i]?).any fun x => x.isLive env path

theorem isLive_cons {env : TypeEnv} {i : Nat} :
    e.isLive env (i :: path) = true ↔ env.constant? e = none ∧ e.wants i = true ∧
      ∃ x, e.children[i]? = some x ∧ x.isLive env path = true := by
  simp [isLive, Option.any_eq_true, and_assoc]

theorem exists_sub_of_isLive {env : TypeEnv} (h : e.isLive env path = true) :
    ∃ x, e.sub? path = some x := by
  induction path generalizing e with
  | nil => exact ⟨e, rfl⟩
  | cons i path ih =>
    obtain ⟨-, -, x, hx, hlive⟩ := isLive_cons.mp h
    obtain ⟨y, hy⟩ := ih hlive
    exact ⟨y, by rw [sub?, hx, Option.bind_some, hy]⟩

/-- The node does more than having a value. -/
def isEffect : Expr → Bool
  | .call _ _ _ _ builtin => builtin != .listEnd
  | .message _ _ _ _ | .classMessage _ _ _ _ | .listNext _ _ => true
  | .binary _ op _ _ => op == .assign || op.compoundBase?.isSome
  | .unary _ op _ => op == .preInc || op == .preDec || op == .postInc || op == .postDec
  | _ => false

theorem Absorbed.no_effect {x y : Expr} (h : x.Absorbed) (hy : x.sub? path = some y) :
    ¬ y.isEffect = true := by
  obtain ⟨habsorbed, -⟩ := h.sub hy
  cases habsorbed <;> exact Bool.false_ne_true

/-- A conversion around an argument list that is passed over. -/
def isPeeled : Expr → Bool
  | .cast _ kind _ _ => kind = .arrayToPointerDecay || kind = .lvalueToRvalue || kind = .noOp
  | _ => false

end DartLowering.Expr
