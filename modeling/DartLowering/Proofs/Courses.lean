import DartLowering.Proofs.EmittedParts
import DartLowering.Proofs.OwnFailures

/-!
The course of emission. What a node does in its own right and when it turns to which child is laid
out as a `Course`: an outcome, or a child to emit and what follows from its code. A course says
nothing of how children are emitted. Run with the emission of children it comes to the code of the
node, and the children that it turned to on the way are those whose emission was attempted.
-/
namespace DartLowering

open Result Text

namespace Expr

/-- `x` lies somewhere below `e`. -/
def Below (x e : Expr) : Prop := ∃ i path, e.sub? (i :: path) = some x

variable {e x y : Expr}

theorem below_child (h : x ∈ e.children) : x.Below e := by
  obtain ⟨i, hi⟩ := List.getElem?_of_mem h
  exact ⟨i, [], by rw [sub?, hi]; rfl⟩

theorem Below.of_child (hx : x ∈ e.children) (h : y.Below x) : y.Below e := by
  obtain ⟨i, hi⟩ := List.getElem?_of_mem hx
  obtain ⟨j, path, hpath⟩ := h
  exact ⟨i, j :: path, by rw [sub?, hi]; exact hpath⟩

theorem stripList_eq_or_below (e : Expr) : e.stripList = e ∨ e.stripList.Below e := by
  induction e using childInduction with
  | step e ih =>
    cases e with
    | cast info kind operand isExplicit =>
      rw [stripList]
      split
      · have hoperand : operand ∈ (cast info kind operand isExplicit).children := List.mem_cons_self
        rcases ih operand hoperand with heq | hbelow
        · rw [heq]
          exact .inr (below_child hoperand)
        · exact .inr (hbelow.of_child hoperand)
      · exact .inl rfl
    | _ => exact .inl rfl

theorem below_stripList (h : x ∈ e.children) : x.stripList.Below e := by
  rcases x.stripList_eq_or_below with heq | hbelow
  · rw [heq]
    exact below_child h
  · exact hbelow.of_child h

/-- What passes from nodes to their children passes to all that lies below. -/
theorem Below.inherits {M : Expr → Prop} (hM : ∀ {e x : Expr}, M e → x ∈ e.children → M x)
    (he : M e) (h : x.Below e) : M x := by
  obtain ⟨i, path, hpath⟩ := h
  induction path generalizing e i with
  | nil =>
    obtain ⟨y, hy, hx⟩ := Option.bind_eq_some_iff.mp hpath
    cases hx
    exact hM he (List.mem_of_getElem? hy)
  | cons j path ih =>
    obtain ⟨y, hy, hx⟩ := Option.bind_eq_some_iff.mp hpath
    exact ih (hM he (List.mem_of_getElem? hy)) j hx

theorem Spelled.of_below {p : Char → Bool} (h : e.Spelled p) (hx : x.Below e) : x.Spelled p :=
  hx.inherits (fun h hx => h.child hx) h

theorem Below.size_lt (h : x.Below e) : SizeOf.sizeOf x < SizeOf.sizeOf e := by
  obtain ⟨i, path, hpath⟩ := h
  induction path generalizing e i with
  | nil =>
    obtain ⟨y, hy, hx⟩ := Option.bind_eq_some_iff.mp hpath
    cases hx
    exact size_children (List.mem_of_getElem? hy)
  | cons j path ih =>
    obtain ⟨y, hy, hx⟩ := Option.bind_eq_some_iff.mp hpath
    exact Nat.lt_trans (ih j hx) (size_children (List.mem_of_getElem? hy))

/-- Induction over expressions whose hypothesis covers all that lies below. -/
theorem belowInduction {motive : Expr → Prop}
    (step : ∀ e, (∀ x, x.Below e → motive x) → motive e) (e : Expr) : motive e :=
  step e fun x _ => belowInduction step x
termination_by SizeOf.sizeOf e
decreasing_by exact Below.size_lt ‹_›

end Expr

namespace Lower

/-- What emitting a node comes to: an outcome, or a child to emit and what follows from its code. -/
inductive Course
  | ends (r : Result Code)
  | emits (x : Expr) (next : Code → Course)

namespace Course

/-- The code of one child, made into that of the node. -/
def one (x : Expr) (make : Code → Code) : Course := .emits x fun code => .ends (.ok (make code))

def two (x y : Expr) (make : Code → Code → Code) : Course := .emits x fun code => one y (make code)

/-- What follows from an answer that may fail. -/
def after {α : Type} (r : Result α) (next : α → Course) : Course :=
  match r with
  | .ok a => next a
  | .error f => .ends (.error f)

/-- The arguments one after the other, copied where they are wrapper objects. -/
def copies (env : TypeEnv) : List Expr → (List Code → Course) → Course
  | [], next => next []
  | x :: xs, next =>
    .emits x fun code => copies env xs fun codes => next (asCopy env x code :: codes)

/-- The outcome, with `emit` for the children. -/
def run (emit : Expr → Result Code) : Course → Result Code
  | .ends r => r
  | .emits x next => do
      let code ← emit x
      (next code).run emit

/-- The children whose emission is attempted, up to the first that fails. -/
def attempted (emit : Expr → Result Code) : Course → List Expr
  | .ends _ => []
  | .emits x next =>
      x :: match emit x with
        | .ok code => (next code).attempted emit
        | .error _ => []

end Course

section Nodes

variable (env : TypeEnv) (scope : Scope)

def binaryCourse (info : ExprInfo) (op : BinaryOp) (lhs rhs : Expr) : Course :=
  let invoking (method : String) : Course :=
    .two lhs rhs fun left right => .invoke (asReceiver env lhs left) method [right]
  match op with
  | .comma => .two lhs rhs .sequence
  | .assign => invoking "set"
  | .logicalAnd | .logicalOr =>
      let method := if op = .logicalAnd then "and" else "or"
      .two lhs rhs fun left right => .invoke (asReceiver env lhs left) method [.closure right]
  | .memberOfObject | .memberOfPointer =>
      .ends (.error (.unsupportedAt info.position (.pointerToMember op.spelling)))
  | op =>
      match op.compoundBase?.bind binaryMethod? with
      | some method =>
          match targetName? scope lhs with
          | some target =>
            .one rhs fun value => .invoke target "set" [.invoke target method [value]]
          | none =>
              let temporary := Code.name Code.temporary
              .two lhs rhs fun target value =>
                .bind target (.invoke temporary "set" [.invoke temporary method [value]])
      | none =>
          match binaryMethod? op with
          | none => .ends (.error (.violationAt info.position (.operatorMethod op.spelling)))
          | some method => invoking method

def unaryCourse (info : ExprInfo) (op : UnaryOp) (operand : Expr) : Course :=
  match op with
  | .plus => .one operand id
  | .real | .imag => .ends (.error (.unsupportedAt info.position (.complexOperator op.spelling)))
  | op =>
      match if op = .addressOf then functionName? operand else none with
      | some name => .ends (.ok (.apply (.name Wrapper.functionPointer) [.name (identifier name)]))
      | none =>
          match unaryMethod? op with
          | none => .ends (.error (.violationAt info.position (.operatorMethod op.spelling)))
          | some method => .one operand fun code => .invoke (asReceiver env operand code) method []

/-- Lists are emitted without the conversions around them. -/
def callCourse (info : ExprInfo) (callee : Expr) (args : List Expr) (variadic : Bool)
    (builtin : Builtin) : Course :=
  match builtin with
  | .listStart =>
      if !scope.variadic then .ends (.error (.violationAt info.position .listStartPlace))
      else
        match args with
        | [] => .ends (.error (.violationAt info.position .listStartArguments))
        | list :: _ =>
            .one list.stripList fun code =>
              onClass Wrapper.varArgs "start" [code, .name varArgsParam]
  | .listCopy =>
      match args with
      | [target, source] =>
          .two target.stripList source.stripList fun target source =>
            onClass Wrapper.varArgs "copy" [target, source]
      | args => .ends (.error (.violationAt info.position (.listCopyArguments args.length)))
  | .listEnd => .ends (.ok (.name "null"))
  | .none =>
      .after (callShape info callee args variadic) fun (fixed, variadic) =>
        match callee.directCallee? with
        | some (_, name) =>
            .copies env args fun codes =>
              .ends (.ok (.apply (.name (identifier name)) (packArguments fixed variadic codes)))
        | none =>
            .emits callee fun code => .copies env args fun codes =>
              .ends (.ok (indirectCall env callee code (packArguments fixed variadic codes)))

def memberCourse (info : ExprInfo) (base : Expr) (arrow : Bool) (field : String) : Course :=
  .after (resolveMember env info.position base arrow field) fun access =>
    .emits base fun code =>
      let memory := asReceiver env base code
      .ends (accessCode env access (if arrow then .invoke memory "dereference" [] else memory))

def castCourse (info : ExprInfo) (kind : CastKind) (operand : Expr) : Course :=
  .after (castPlan env info kind operand) fun plan =>
    match plan with
    | .literal bytes view => .ends (.ok (viewed view (stringCode bytes)))
    | plan => .one operand fun code => plan.code env operand code

/-- The course of a node that is no constant. -/
def nodeCourse : Expr → Course
  | .absent => .ends (.error (.violation .missingExpression))
  | .int info value => .ends (constantCode info value)
  | .float info value => .ends (.ok (floatCode info value))
  | .string _ bytes => .ends (.ok (stringCode bytes))
  | .ref _ name kind => .ends (.ok (refCode scope name kind))
  | .binary info op lhs rhs => binaryCourse env scope info op lhs rhs
  | .unary info op operand => unaryCourse env info op operand
  | .call info callee args variadic builtin =>
      callCourse env scope info callee args variadic builtin
  | .member info base arrow field => memberCourse env info base arrow field
  | .subscript _ base index =>
      .two base index fun pointer offset =>
        .invoke (.invoke (asReceiver env base pointer) "add" [offset]) "dereference" []
  | .cast info kind operand _ => castCourse env info kind operand
  | .sizeOf _ arg =>
      .after (env.sizeOf arg) fun size =>
        .ends (.ok (onClass Wrapper.uint64 "fromInt" [.int size]))
  | .listNext info list =>
      .after (TypeEnv.onType env.mapType info.type) fun type =>
        .one list.stripList fun code =>
          .paren (.castTo (.invoke (asReceiver env list.stripList code) "next" []) type)
  | .conditional _ cond then_ else_ =>
      .emits cond fun test => .two then_ else_ fun yes no =>
        .paren (.choose (asCondition env cond test) yes no)
  | .message _ receiver selector args =>
      .emits receiver fun target => .copies env args fun codes =>
        .ends (.ok (.invoke (asReceiver env receiver target) (selectorName selector) codes))
  | .classMessage _ className selector args =>
      .copies env args fun codes =>
        .ends (.ok (.invoke (.name (identifier className)) (selectorName selector) codes))

/-- The course of an expression. Constants are made before anything else is looked at. -/
def course (e : Expr) : Course :=
  match env.constant? e with
  | some v => .ends (constantCode e.info v)
  | none => nodeCourse env scope e

end Nodes

namespace Course

variable {emit : Expr → Result Code} {env : TypeEnv} {scope : Scope}

theorem run_after {α : Type} (r : Result α) (next : α → Course) :
    (after r next).run emit = r >>= fun a => (next a).run emit := by
  cases r <;> rfl

theorem run_copies (xs : List Expr) (next : List Code → Course) :
    (copies env xs next).run (expr env scope false) =
      Lower.copies env scope xs >>= fun codes => (next codes).run (expr env scope false) := by
  induction xs generalizing next with
  | nil => rfl
  | cons x xs ih =>
    rw [copies, run, Lower.copies]
    simp only [ih, bind_assoc, ok_bind]

end Course

section Runs

variable {env : TypeEnv} {scope : Scope}

theorem orConstant_eq_run {e : Expr} {node : Unit → Result Code} {emit : Expr → Result Code}
    (hnode : node () = (nodeCourse env scope e).run emit) :
    orConstant env e node = Result.locate e.position ((course env scope e).run emit) := by
  unfold orConstant course
  cases env.constant? e with
  | some v => rfl
  | none => exact congrArg (Result.locate e.position) hnode

theorem call_eq_run (info : ExprInfo) (callee : Expr) (args : List Expr) (variadic : Bool)
    (builtin : Builtin) : expr env scope false (.call info callee args variadic builtin) =
      Result.locate info.position
        ((course env scope (.call info callee args variadic builtin)).run
          (expr env scope false)) := by
  rw [expr.eq_def]
  refine orConstant_eq_run ?_
  cases builtin with
  | listStart =>
    dsimp only [nodeCourse, callCourse]
    split
    · rfl
    · cases args with
      | nil => rfl
      | cons list rest =>
        dsimp only
        rw [expr_stripList]
        rfl
  | listCopy =>
    rcases args with _ | ⟨target, _ | ⟨source, _ | ⟨third, rest⟩⟩⟩
    · rfl
    · rfl
    · dsimp only
      rw [expr_stripList, expr_stripList]
      rfl
    · rfl
  | listEnd => rfl
  | none =>
    rw [nodeCourse, callCourse, Course.run_after]
    refine congrArg (callShape info callee args variadic >>= ·) (funext fun shape => ?_)
    cases callee.directCallee? with
    | some c =>
      dsimp only
      rw [Course.run_copies]
      rfl
    | none => simp only [Course.run, Course.run_copies]

/-- The code of an expression is what its course comes to, with failures placed at the
expression. -/
theorem expr_eq_run (e : Expr) : expr env scope false e =
    Result.locate e.position ((course env scope e).run (expr env scope false)) := by
  cases e with
  | call info callee args variadic builtin => exact call_eq_run info callee args variadic builtin
  | absent =>
    rw [expr.eq_def]
    rfl
  | int | float | string | ref | subscript | conditional =>
    rw [expr.eq_def]
    exact orConstant_eq_run rfl
  | binary info op lhs rhs =>
    rw [expr.eq_def]
    refine orConstant_eq_run ?_
    -- the name of the target matters to compound assignments only
    cases op <;> cases htarget : targetName? scope lhs <;>
      simp only [nodeCourse, binaryCourse, htarget] <;> rfl
  | unary info op operand =>
    rw [expr.eq_def]
    refine orConstant_eq_run ?_
    cases op with
    | plus =>
      change expr env scope false operand = expr env scope false operand >>= fun code => .ok code
      cases expr env scope false operand <;> rfl
    | addressOf =>
      cases hname : functionName? operand <;> simp only [nodeCourse, unaryCourse, hname] <;> rfl
    | _ => rfl
  | member info base arrow field =>
    rw [expr.eq_def]
    refine orConstant_eq_run ?_
    rw [nodeCourse, memberCourse, Course.run_after]
    rfl
  | cast info kind operand isExplicit =>
    rw [expr.eq_def]
    dsimp only
    rw [Bool.false_and, if_neg Bool.false_ne_true]
    refine orConstant_eq_run ?_
    rw [nodeCourse, castCourse, Course.run_after]
    refine congrArg (castPlan env info kind operand >>= ·) (funext fun plan => ?_)
    cases plan <;> rfl
  | sizeOf info arg =>
    rw [expr.eq_def]
    refine orConstant_eq_run ?_
    rw [nodeCourse, Course.run_after]
    rfl
  | listNext info list =>
    rw [expr.eq_def]
    refine orConstant_eq_run ?_
    rw [nodeCourse, Course.run_after, expr_stripList]
    rfl
  | message info receiver selector args =>
    rw [expr.eq_def]
    refine orConstant_eq_run ?_
    simp only [nodeCourse, Course.run, Course.run_copies]
  | classMessage info className selector args =>
    rw [expr.eq_def]
    refine orConstant_eq_run ?_
    rw [nodeCourse, Course.run_copies]
    rfl

end Runs

namespace Course

/-- The children that the course turns to satisfy `S`. If their codes have `Q`, it ends by itself
with `P` or with a code that has `Q`. -/
def Bounded (S : Expr → Prop) (P : Failure → Prop) (Q : Code → Prop) : Course → Prop
  | .ends r => Ends P Q r
  | .emits x next => S x ∧ ∀ code, Q code → (next code).Bounded S P Q

variable {S : Expr → Prop} {P : Failure → Prop} {Q : Code → Prop} {x y : Expr}
  {emit : Expr → Result Code} {c : Course}

theorem bounded_one (hx : S x) {make : Code → Code} (h : ∀ a, Q a → Q (make a)) :
    (one x make).Bounded S P Q :=
  ⟨hx, fun a ha => ends_ok (h a ha)⟩

theorem bounded_two (hx : S x) (hy : S y) {make : Code → Code → Code}
    (h : ∀ a b, Q a → Q b → Q (make a b)) : (two x y make).Bounded S P Q :=
  ⟨hx, fun a ha => bounded_one hy fun b => h a b ha⟩

theorem bounded_after {α : Type} {r : Result α} {R : α → Prop} {next : α → Course} (hr : Ends P R r)
    (hnext : ∀ a, R a → (next a).Bounded S P Q) : (after r next).Bounded S P Q := by
  cases r with
  | ok a => exact hnext a (hr.yields a rfl)
  | error f => exact ends_error (hr.fails f rfl)

theorem bounded_copies {env : TypeEnv} (hcopy : ∀ x code, Q code → Q (asCopy env x code))
    {xs : List Expr} (hxs : ∀ x ∈ xs, S x) {next : List Code → Course}
    (hnext : ∀ codes, (∀ c ∈ codes, Q c) → (next codes).Bounded S P Q) :
    (copies env xs next).Bounded S P Q := by
  induction xs generalizing next with
  | nil => exact hnext [] (List.forall_mem_nil _)
  | cons x xs ih =>
    rw [List.forall_mem_cons] at hxs
    refine ⟨hxs.1, fun code hcode => ih hxs.2 fun codes hcodes => hnext _ ?_⟩
    exact List.forall_mem_cons.mpr ⟨hcopy x code hcode, hcodes⟩

/-- A course ends as its children do, or as it does by itself. -/
theorem Bounded.ends (h : c.Bounded S P Q) (hemit : ∀ x, S x → Ends P Q (emit x)) :
    Ends P Q (c.run emit) := by
  induction c with
  | ends r => exact h
  | emits x next ih => exact (hemit x h.1).bind fun code hcode => ih code (h.2 code hcode)

variable (hemit : ∀ x, Yields Q (emit x))

include hemit

theorem Bounded.of_attempted (h : c.Bounded S P Q) (hx : x ∈ c.attempted emit) : S x := by
  induction c with
  | ends r => cases hx
  | emits y next ih =>
    rw [attempted] at hx
    rcases List.mem_cons.mp hx with rfl | hx
    · exact h.1
    · cases hy : emit y with
      | ok code =>
        rw [hy] at hx
        exact ih code (h.2 code (hemit y code hy)) hx
      | error f =>
        rw [hy] at hx
        cases hx

/-- A course fails as the last child that it turned to, or by itself when all of them succeeded. -/
theorem Bounded.failed (h : c.Bounded S P Q) {f : Failure} (hf : c.run emit = .error f) :
    (∃ x ∈ c.attempted emit, emit x = .error f) ∨
      P f ∧ ∀ x ∈ c.attempted emit, ∃ code, emit x = .ok code := by
  induction c with
  | ends r =>
    refine .inr ⟨h.fails f hf, fun x hx => ?_⟩
    cases hx
  | emits y next ih =>
    rw [run] at hf
    rw [attempted]
    cases hy : emit y with
    | error g =>
      rw [hy] at hf
      exact .inl ⟨y, List.mem_cons_self, hy.trans hf⟩
    | ok code =>
      rw [hy] at hf
      rcases ih code (h.2 code (hemit y code hy)) hf with ⟨x, hx, hfailed⟩ | ⟨hown, hrest⟩
      · exact .inl ⟨x, List.mem_cons_of_mem y hx, hfailed⟩
      · exact .inr ⟨hown, List.forall_mem_cons.mpr ⟨⟨code, hy⟩, hrest⟩⟩

end Course

section Bounds

variable {P : Failure → Prop} {p : Char → Bool} {env : TypeEnv} {scope : Scope} {info : ExprInfo}
  (h : AdmitsOwn P env info.position) (hp : AdmitsWords p) {S : Expr → Prop}

include h hp

theorem binaryCourse_bounded (hself : Over p scope.self) {op : BinaryOp} {lhs rhs : Expr}
    (htarget : lhs.Spelled p) (hlhs : S lhs) (hrhs : S rhs) :
    (binaryCourse env scope info op lhs rhs).Bounded S P (Code.Spelled p) := by
  have hinvoke : ∀ {method : String} {make : Code → Code}, Over p method →
      (∀ code, code.Spelled p → (make code).Spelled p) →
      (Course.two lhs rhs fun left right => .invoke (asReceiver env lhs left) method
        [make right]).Bounded S P (Code.Spelled p) := by
    intro method make hmethod hmake
    refine Course.bounded_two hlhs hrhs fun left right hleft hright => ?_
    exact ⟨asReceiver_spelled.mpr hleft, hmethod, hmake right hright, trivial⟩
  unfold binaryCourse
  dsimp only
  split
  · exact Course.bounded_two hlhs hrhs fun _ _ hleft hright => ⟨hleft, hright⟩
  · exact hinvoke (over_word hp rfl) fun _ => id
  · exact hinvoke (over_word hp rfl) fun _ => id
  · exact hinvoke (over_word hp rfl) fun _ => id
  · exact h.refused rfl
  · exact h.refused rfl
  · split
    · rename_i method hmethod
      obtain ⟨base, -, hbase⟩ := Option.bind_eq_some_iff.mp hmethod
      have hmethod : Over p method := (binaryMethod_word hbase).weaken hp
      split
      · rename_i target hname
        have hname := targetName_spelled hp hself htarget hname
        refine Course.bounded_one hrhs fun value hvalue => ?_
        exact ⟨hname, over_word hp rfl, ⟨hname, hmethod, hvalue, trivial⟩, trivial⟩
      · have htemporary : Over p Code.temporary := over_word hp rfl
        refine Course.bounded_two hlhs hrhs fun target value htarget hvalue => ?_
        exact ⟨htarget, htemporary, over_word hp rfl, ⟨htemporary, hmethod, hvalue, trivial⟩,
          trivial⟩
    · split
      · exact h.refused rfl
      · rename_i method hmethod
        exact hinvoke ((binaryMethod_word hmethod).weaken hp) fun _ => id

theorem unaryCourse_bounded {op : UnaryOp} {operand : Expr} (hname : operand.Spelled p)
    (hoperand : S operand) : (unaryCourse env info op operand).Bounded S P (Code.Spelled p) := by
  unfold unaryCourse
  split
  · exact Course.bounded_one hoperand fun _ => id
  · exact h.refused rfl
  · exact h.refused rfl
  · split
    · rename_i name hfunction
      split at hfunction
      · have hover := functionName_over hname hfunction
        exact ends_ok ⟨over_word hp rfl, identifier_over hp hover, trivial⟩
      · cases hfunction
    · split
      · exact h.refused rfl
      · rename_i method hmethod
        refine Course.bounded_one hoperand fun inner hinner => ?_
        exact ⟨asReceiver_spelled.mpr hinner, (unaryMethod_word hmethod).weaken hp, trivial⟩

theorem callCourse_bounded {callee : Expr} {args : List Expr} {variadic : Bool} {builtin : Builtin}
    (hname : callee.Spelled p) (hcallee : S callee) (hargs : ∀ x ∈ args, S x)
    (hlists : ∀ x ∈ args, S x.stripList) :
    (callCourse env scope info callee args variadic builtin).Bounded S P (Code.Spelled p) := by
  cases builtin with
  | listStart =>
    dsimp only [callCourse]
    split
    · exact h.refused rfl
    · cases args with
      | nil => exact h.refused rfl
      | cons list rest =>
        refine Course.bounded_one (hlists list List.mem_cons_self) fun code hcode => ?_
        exact ⟨over_word hp rfl, over_word hp rfl, hcode, over_word hp rfl, trivial⟩
  | listCopy =>
    dsimp only [callCourse]
    split
    · simp only [List.forall_mem_cons] at hlists
      refine Course.bounded_two hlists.1 hlists.2.1 fun target source htarget hsource => ?_
      exact ⟨over_word hp rfl, over_word hp rfl, htarget, hsource, trivial⟩
    · exact h.refused rfl
  | listEnd => exact ends_ok (over_word hp rfl)
  | none =>
    have hcopy : ∀ x code, Code.Spelled p code → (asCopy env x code).Spelled p :=
      fun _ _ => asCopy_spelled hp
    have hshape : Ends P (fun _ => True) (callShape info callee args variadic) :=
      ⟨h.callShape callee args variadic, fun _ _ => trivial⟩
    refine Course.bounded_after hshape fun shape _ => ?_
    dsimp only
    split
    · rename_i ref name hdirect
      have hover := directCallee_over hname hdirect
      refine Course.bounded_copies hcopy hargs fun codes hcodes => ends_ok ?_
      exact ⟨identifier_over hp hover, packArguments_spelled hp hcodes _ _⟩
    · refine ⟨hcallee, fun inner hinner => ?_⟩
      refine Course.bounded_copies hcopy hargs fun codes hcodes => ends_ok ?_
      exact ⟨over_word hp rfl, over_word hp rfl, ⟨asReceiver_spelled.mpr hinner, over_word hp rfl⟩,
        packArguments_spelled hp hcodes _ _, trivial⟩

end Bounds

/-- The course of a node ends by itself as nodes at its place do, and turns to what lies below. Its
code is spelled as the expression is. -/
theorem course_bounded {P : Failure → Prop} {p : Char → Bool} {env : TypeEnv} {scope : Scope}
    {e : Expr} (h : AdmitsOwn P env e.position) (hp : AdmitsWords p) (hself : Over p scope.self)
    (he : e.Spelled p) :
    (course env scope e).Bounded (fun x => x.Below e) P (Code.Spelled p) := by
  have hchild : ∀ x ∈ e.children, x.Below e := fun x hx => Expr.below_child hx
  have hlist : ∀ x ∈ e.children, x.stripList.Below e := fun x hx => Expr.below_stripList hx
  have hcopy : ∀ x code, Code.Spelled p code → (asCopy env x code).Spelled p :=
    fun _ _ => asCopy_spelled hp
  have hclass : ∀ c, e.type.bind CType.className? = some c → Over p c :=
    fun c hc => he.own (List.mem_append_left _ (Option.mem_toList.mpr hc))
  unfold course
  cases env.constant? e with
  | some v => exact h.constantCode hp v
  | none =>
    dsimp only
    cases e with
    | absent => exact ends_error (h.reported _ rfl)
    | int info value => exact h.constantCode hp value
    | float => exact ends_ok (floatCode_spelled hp _ _)
    | string => exact ends_ok (stringCode_spelled hp _)
    | ref info name kind =>
      exact ends_ok (refCode_spelled hp hself (he.own (by simp [Expr.names])) kind)
    | binary info op lhs rhs =>
      exact binaryCourse_bounded h hp hself (he.child (by simp [Expr.children]))
        (hchild lhs (by simp [Expr.children])) (hchild rhs (by simp [Expr.children]))
    | unary info op operand =>
      exact unaryCourse_bounded h hp (he.child List.mem_cons_self)
        (hchild operand List.mem_cons_self)
    | call info callee args variadic builtin =>
      exact callCourse_bounded h hp (he.child List.mem_cons_self) (hchild callee List.mem_cons_self)
        (fun x hx => hchild x (List.mem_cons_of_mem callee hx))
        fun x hx => hlist x (List.mem_cons_of_mem callee hx)
    | member info base arrow field =>
      have haccess : Ends P (fun access => Over isWord access.kind)
          (resolveMember env info.position base arrow field) := by
        refine ⟨h.resolveMember base arrow field, fun access haccess => ?_⟩
        obtain ⟨_, _, _, -, -, -, -, hkind, -⟩ := resolveMember_eq_ok haccess
        exact TypeEnv.storageKind_word hkind
      refine Course.bounded_after haccess fun access hkind => ?_
      refine ⟨hchild base List.mem_cons_self, fun inner hinner => h.accessCode hp hkind ?_⟩
      split
      · exact ⟨asReceiver_spelled.mpr hinner, over_word hp rfl, trivial⟩
      · exact asReceiver_spelled.mpr hinner
    | subscript info base index =>
      refine Course.bounded_two ?_ ?_ fun pointer offset hbase hindex => ?_
      · exact hchild base List.mem_cons_self
      · exact hchild index (by simp [Expr.children])
      · exact ⟨⟨asReceiver_spelled.mpr hbase, over_word hp rfl, hindex, trivial⟩, over_word hp rfl,
          trivial⟩
    | cast info kind operand isExplicit =>
      refine Course.bounded_after (h.castPlan hp hclass kind) fun plan hplan => ?_
      split
      · -- the literal stands in for the operand, whose code is not asked for
        have hnothing : Code.Spelled p (.name "") := over_word hp rfl
        exact ends_ok (hplan _ hnothing)
      · exact Course.bounded_one (hchild operand List.mem_cons_self) hplan
    | sizeOf info arg =>
      refine Course.bounded_after (h.sized arg) fun size _ => ends_ok ?_
      exact ⟨over_word hp rfl, over_word hp rfl, trivial, trivial⟩
    | listNext info list =>
      refine Course.bounded_after (h.mapped hp hclass) fun type htype => ?_
      refine Course.bounded_one (hlist list List.mem_cons_self) fun inner hinner => ?_
      exact ⟨⟨asReceiver_spelled.mpr hinner, over_word hp rfl, trivial⟩, htype⟩
    | conditional info cond then_ else_ =>
      refine ⟨hchild cond List.mem_cons_self, fun test htest => ?_⟩
      refine Course.bounded_two ?_ ?_ fun yes no hyes hno => ?_
      · exact hchild then_ (by simp [Expr.children])
      · exact hchild else_ (by simp [Expr.children])
      · exact ⟨asCondition_spelled hp htest, hyes, hno⟩
    | message info receiver selector args =>
      have hselector := selectorName_over hp (he.own (s := selector) (by simp [Expr.names]))
      refine ⟨hchild receiver List.mem_cons_self, fun target htarget => ?_⟩
      refine Course.bounded_copies hcopy (fun x hx => hchild x (List.mem_cons_of_mem receiver hx))
        fun codes hcodes => ends_ok ?_
      exact ⟨asReceiver_spelled.mpr htarget, hselector, Code.allSpelled_iff.mpr hcodes⟩
    | classMessage info className selector args =>
      refine Course.bounded_copies hcopy hchild fun codes hcodes => ends_ok ?_
      exact ⟨identifier_over hp (he.own (by simp [Expr.names])),
        selectorName_over hp (he.own (by simp [Expr.names])), Code.allSpelled_iff.mpr hcodes⟩

end Lower

end DartLowering
