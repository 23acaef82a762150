import DartLowering.Lower.Unit
import DartLowering.Proofs.EmissionStep
import DartLowering.Proofs.Fallthrough
import DartLowering.Proofs.PassThroughCasts

/-!
What a unit that is emitted does not contain. `Expr.Supported`, `Stmt.Supported` and
`Decl.Supported` say of a single node, statement and declaration what the target language has a form
for. When a unit has a file, every declaration of it is supported: each statement inside a body has
code of its own, and so has each live sub-expression of its expressions, so the checks that emission
makes at a node are made at all of them.
-/
namespace DartLowering

/-- The prototype that is known for a callee, from its type or from the function it names. -/
def Expr.knownPrototype? (callee : Expr) : Option Prototype :=
  (callee.type.bind CType.callable?).or
    (callee.directCallee?.bind fun c => c.1.type.bind CType.callable?)

/-- The record that a member access reads. -/
def Expr.accessedRecord? (base : Expr) (arrow : Bool) : Option RecordTag :=
  (if arrow then base.type.bind CType.pointee? else base.type).bind CType.record?

/-- The node has a form in the target language, inside a function that is variadic or not. -/
def Expr.Supported (env : TypeEnv) (variadic : Bool) : Expr → Prop
  | .binary _ op _ _ => op ≠ .memberOfObject ∧ op ≠ .memberOfPointer
  | .unary _ op _ => op ≠ .real ∧ op ≠ .imag
  | .call _ _ _ _ .listStart => variadic = true
  | .call _ _ args _ .listCopy => args.length = 2
  | .call _ callee args variadicCall .none =>
      ∀ p, callee.knownPrototype? = some p → p.params.length ≤ args.length ∧
        (p.variadic = false → variadicCall = false → args.length = p.params.length)
  | .member _ base arrow field =>
      ∃ tag, base.accessedRecord? arrow = some tag ∧
        ((env.records.find tag).field? field).isSome = true
  | .cast info .toUnion operand _ =>
      ∃ tag target source, info.type.bind CType.record? = some tag ∧ tag.isUnion = true ∧
        TypeEnv.onType env.sizeOf info.type = .ok target ∧
        TypeEnv.onType env.sizeOf operand.type = .ok source ∧ source ≤ target
  | _ => True

/-- Every node that is live and no constant has a form in the target language. -/
def Expr.SupportedThroughout (env : TypeEnv) (variadic : Bool) (e : Expr) : Prop :=
  ∀ path x, e.isLive env path = true → e.sub? path = some x → env.constant? x = none →
    x.Supported env variadic

/-- The type has a class in the target language. An array of variable length has none, unless one of
its names is that of the type that is passed through. -/
def CType.Mapped (env : TypeEnv) (t : CType) : Prop :=
  ∃ name, env.mapType t = .ok name ∧ ∀ elem length, t.unalias = .array elem length true →
    env.isMarked t = true ∧ name = Wrapper.dynamic

namespace Stmt

/-- The statements directly inside a statement, with what a loop starts with. -/
def children : Stmt → List Stmt
  | .compound _ body => body
  | .ifElse _ _ then_ else_ => then_ :: else_.toList
  | .whileLoop _ _ body | .doLoop _ body _ => [body]
  | .forLoop _ init _ _ body => init.toList ++ [body]
  | .switch _ _ cases => cases.flatMap SwitchCase.body
  | .brk _ | .cont _ | .ret _ _ | .decl _ _ | .expr _ _ | .null _ => []

/-- The second statement is the first or stands inside it. -/
inductive Contains : Stmt → Stmt → Prop
  | self (s : Stmt) : Contains s s
  | inside {s t u : Stmt} (ht : t ∈ s.children) (hu : Contains t u) : Contains s u

/-- The expressions of a statement itself, the labels of its cases apart. -/
def exprs : Stmt → List Expr
  | .ifElse _ cond _ _ | .whileLoop _ cond _ | .doLoop _ _ cond | .switch _ cond _ => [cond]
  | .forLoop _ _ cond inc _ => cond.toList ++ inc.toList
  | .ret _ value => value.toList
  | .decl _ vars => vars.filterMap VarDecl.init
  | .expr _ value => [value]
  | .compound _ _ | .brk _ | .cont _ | .null _ => []

def vars : Stmt → List VarDecl
  | .decl _ vars => vars
  | _ => []

def loopVars : Stmt → List VarDecl
  | .forLoop _ (some init) _ _ _ => init.vars
  | _ => []

def cases : Stmt → List SwitchCase
  | .switch _ _ cases => cases
  | _ => []

/-- The branch that the code of a statement becomes after else. -/
def branch (s : Stmt) (code : List CodeStmt) : ElseBranch :=
  match s with
  | .ifElse _ _ _ _ =>
      match code with
      | [.ifElse test body rest] => .elseIf test body rest
      | code => .block code
  | _ => .block code

/-- The statement has a form in the target language, what it contains apart. -/
structure Supported (env : TypeEnv) (variadic : Bool) (s : Stmt) : Prop where
  exprs : ∀ e ∈ s.exprs, e.SupportedThroughout env variadic
  vars : ∀ v ∈ s.vars, v.type.Mapped env
  loopVars : ∃ name, ∀ v ∈ s.loopVars, env.mapType v.type = .ok name
  oneDefault : (s.cases.filter SwitchCase.isDefault).length ≤ 1
  labels : ∀ c ∈ s.cases, ∀ label, c.label = some label → (env.constant? label).isSome = true

end Stmt

/-- Every statement in the body has a form in the target language. -/
def BodySupported (env : TypeEnv) (variadic : Bool) (body : List Stmt) : Prop :=
  ∀ s ∈ body, ∀ t, s.Contains t → t.Supported env variadic

/-- A declaration has a form in the target language. Prototypes produce no code. -/
def Decl.Supported (env : TypeEnv) : Decl → Prop
  | .func d => ∀ body, d.body = some body → d.result.Mapped env ∧
      (∀ p ∈ d.params, p.type.Mapped env) ∧ BodySupported env d.variadic body
  | .method d => ∀ body, d.body = some body → d.result.Mapped env ∧
      (∀ p ∈ d.params, p.type.Mapped env) ∧ BodySupported env false body
  | .var d => d.type.Mapped env ∧ ∀ init, d.init = some init → init.SupportedThroughout env false

theorem Expr.Absorbed.supported {env : TypeEnv} {x : Expr} (h : x.Absorbed) (variadic : Bool) :
    x.Supported env variadic := by
  cases h with
  | ref | string => trivial
  | cast info isExplicit hkind h =>
    rcases hkind with rfl | rfl | rfl <;> trivial

namespace Lower

variable {env : TypeEnv} {scope : Scope} {e x : Expr} {peel : Bool} {code : Code} {info : ExprInfo}
  {variadic : Bool} {position : Position} {field : String} {access : Access}

theorem mapped_of_mapType {t : CType} {name : String} (h : env.mapType t = .ok name) :
    t.Mapped env := by
  refine ⟨name, h, fun elem length hunalias => ?_⟩
  have hdynamic : name = Wrapper.dynamic := by
    fun_induction CType.unalias t with
    | case1 aliasName underlying ih =>
      rw [TypeEnv.mapType] at h
      split at h
      · cases h
        rfl
      · exact ih h hunalias
    | case2 t =>
      subst hunalias
      cases h
  rcases TypeEnv.mapType_eq_dynamic_iff.mp (hdynamic ▸ h) with hmarked | hobject | hobject
  · exact ⟨hmarked, hdynamic⟩
  · cases hunalias.symm.trans hobject
  · cases hunalias.symm.trans hobject

/-- A live sub-expression has code of its own, unless a name or literal stands for it. -/
theorem expr_of_isLive {path : List Nat} (h : expr env scope peel e = .ok code)
    (hlive : e.isLive env path = true) (hx : e.sub? path = some x) :
    (∃ peel' code', expr env scope peel' x = .ok code') ∨ x.Absorbed := by
  induction path generalizing e peel code with
  | nil =>
    cases hx
    exact .inl ⟨peel, code, h⟩
  | cons i path ih =>
    obtain ⟨hc, hwants, y, hy, hlive⟩ := Expr.isLive_cons.mp hlive
    have hx : y.sub? path = some x := by simpa [Expr.sub?, hy] using hx
    rcases parts_find hc h hy hwants with ⟨peel', _, _, code', -, -, hcode'⟩ | ⟨habsorbed, -⟩
    · exact ih hcode' hlive hx
    · exact .inr (habsorbed.sub hx).1

theorem copies_length {args : List Expr} {codes : List Code}
    (h : copies env scope args = .ok codes) : codes.length = args.length := by
  induction args generalizing codes with
  | nil =>
    cases h
    rfl
  | cons e es ih =>
    simp only [copies, Result.bind_eq_ok, Except.ok.injEq] at h
    obtain ⟨_, -, rest, hrest, rfl⟩ := h
    simp only [List.length_cons, ih hrest]

theorem callShape_counts {callee : Expr} {args : List Expr} {shape : Nat × Bool}
    (h : callShape info callee args variadic = .ok shape) {p : Prototype}
    (hp : callee.knownPrototype? = some p) :
    p.params.length ≤ args.length ∧
      (p.variadic = false → variadic = false → args.length = p.params.length) := by
  unfold Expr.knownPrototype? at hp
  simp only [callShape, hp] at h
  split at h
  · cases h
  · rename_i hcount
    simp only [Bool.or_eq_true, decide_eq_true_eq, Bool.and_eq_true, Bool.not_eq_true', not_or,
      Nat.not_lt] at hcount
    refine ⟨hcount.1, fun hp hv => ?_⟩
    by_contra hne
    exact hcount.2 ⟨by simp [hp, hv], hne⟩

/-- The access to a field of a type that is expected to be a record. -/
def recordMember (env : TypeEnv) (position : Position) (t : Option CType) (field : String) :
    Result Access :=
  match t.bind CType.record? with
  | none => .error (.violationAt position (.memberOfNonRecord field (typeText t)))
  | some tag =>
      match (env.records.find tag).field? field with
      | none => .error (.violationAt position (.unknownField tag.name field))
      | some f => do
          let layout ← env.layoutOf tag
          match layout.offset? field with
          | none => .error (.violationAt position (.unplacedField tag.name field))
          | some offset => do
              let kind ← env.storageKind f.type
              .ok ⟨offset, kind, f.type⟩

/-- An access goes to the record that the base is or points to. -/
theorem resolveMember_eq (position : Position) (base : Expr) (arrow : Bool) (field : String) :
    resolveMember env position base arrow field =
      if arrow then
        match base.type.bind CType.pointee? with
        | some t => recordMember env position (some t) field
        | none => .error (.violationAt position (.arrowOnNonPointer (typeText base.type)))
      else recordMember env position base.type field := by
  cases arrow with
  | false => rfl
  | true =>
    rw [resolveMember, if_pos rfl, if_pos rfl]
    cases base.type.bind CType.pointee? <;> rfl

theorem recordMember_eq_ok {t : Option CType} (h : recordMember env position t field = .ok access) :
    ∃ tag f layout, t.bind CType.record? = some tag ∧
      (env.records.find tag).field? field = some f ∧ env.layoutOf tag = .ok layout ∧
      layout.offset? field = some access.offset ∧ env.storageKind f.type = .ok access.kind ∧
      access.type = f.type := by
  unfold recordMember at h
  split at h
  · cases h
  · rename_i tag htag
    split at h
    · cases h
    · rename_i f hf
      obtain ⟨layout, hlayout, h⟩ := Result.bind_eq_ok.mp h
      split at h
      · cases h
      · rename_i offset hoffset
        obtain ⟨kind, hkind, h⟩ := Result.bind_eq_ok.mp h
        cases h
        exact ⟨tag, f, layout, htag, hf, hlayout, hoffset, hkind, rfl⟩

theorem resolveMember_eq_ok {base : Expr} {arrow : Bool}
    (h : resolveMember env position base arrow field = .ok access) :
    ∃ tag f layout, base.accessedRecord? arrow = some tag ∧
      (env.records.find tag).field? field = some f ∧ env.layoutOf tag = .ok layout ∧
      layout.offset? field = some access.offset ∧ env.storageKind f.type = .ok access.kind ∧
      access.type = f.type := by
  rw [resolveMember_eq] at h
  unfold Expr.accessedRecord?
  split at h
  · rename_i harrow
    rw [if_pos harrow]
    split at h
    · rename_i t ht
      rw [ht]
      exact recordMember_eq_ok h
    · cases h
  · rename_i harrow
    rw [if_neg harrow]
    exact recordMember_eq_ok h

theorem resolveMember_field {base : Expr} {arrow : Bool}
    (h : resolveMember env position base arrow field = .ok access) :
    ∃ tag, base.accessedRecord? arrow = some tag ∧
      ((env.records.find tag).field? field).isSome = true := by
  obtain ⟨tag, f, _, htag, hf, -⟩ := resolveMember_eq_ok h
  exact ⟨tag, htag, by simp [hf]⟩

theorem unionSize_fits {operand : Expr} {size : Int64} (h : unionSize env info operand = .ok size) :
    ∃ tag target source, info.type.bind CType.record? = some tag ∧ tag.isUnion = true ∧
      TypeEnv.onType env.sizeOf info.type = .ok target ∧
      TypeEnv.onType env.sizeOf operand.type = .ok source ∧ source ≤ target := by
  unfold unionSize at h
  split at h
  · rename_i name htag
    obtain ⟨target, htarget, h⟩ := Result.bind_eq_ok.mp h
    obtain ⟨source, hsource, h⟩ := Result.bind_eq_ok.mp h
    split at h
    · cases h
    · rename_i hle
      exact ⟨_, target, source, htag, rfl, htarget, hsource, Int64.not_lt.mp hle⟩
  · cases h

theorem call_supported {callee : Expr} {args : List Expr} {builtin : Builtin}
    (hc : env.constant? (.call info callee args variadic builtin) = none)
    (h : expr env scope peel (.call info callee args variadic builtin) = .ok code) :
    Expr.Supported env scope.variadic (.call info callee args variadic builtin) := by
  rw [expr.eq_def] at h
  replace h := (orConstant_eq_ok hc).mp h
  cases builtin with
  | listStart =>
    dsimp only at h
    split at h
    · cases h
    · rename_i hvariadic
      simpa [Expr.Supported] using hvariadic
  | listCopy =>
    dsimp only at h
    split at h
    · rfl
    · cases h
  | listEnd => trivial
  | none =>
    obtain ⟨shape, hshape, -⟩ := Result.bind_eq_ok.mp h
    exact fun p hp => callShape_counts hshape hp

theorem cast_supported {kind : CastKind} {operand : Expr} {isExplicit : Bool}
    (hc : env.constant? (.cast info kind operand isExplicit) = none)
    (h : expr env scope peel (.cast info kind operand isExplicit) = .ok code) :
    Expr.Supported env scope.variadic (.cast info kind operand isExplicit) := by
  cases kind with
  | toUnion =>
    rw [expr, if_neg (by simp), orConstant_eq_ok hc] at h
    obtain ⟨plan, hplan, -⟩ := Result.bind_eq_ok.mp h
    obtain ⟨size, hsize, -⟩ := Result.bind_eq_ok.mp hplan
    exact unionSize_fits hsize
  | _ => trivial

/-- A node with code that is no constant has passed the checks of its kind. -/
theorem supported_of_expr (hc : env.constant? x = none) (h : expr env scope peel x = .ok code) :
    x.Supported env scope.variadic := by
  cases x with
  | binary | unary =>
    rw [expr.eq_def] at h
    replace h := (orConstant_eq_ok hc).mp h
    constructor
    · rintro rfl
      cases h
    · rintro rfl
      cases h
  | call info callee args variadic builtin => exact call_supported hc h
  | member info base arrow field =>
    rw [expr, orConstant_eq_ok hc] at h
    obtain ⟨access, haccess, -⟩ := Result.bind_eq_ok.mp h
    exact resolveMember_field haccess
  | cast info kind operand isExplicit => exact cast_supported hc h
  | _ => trivial

theorem supportedThroughout_of_expr (h : expr env scope peel e = .ok code) :
    e.SupportedThroughout env scope.variadic := by
  intro path x hlive hx hc
  rcases expr_of_isLive h hlive hx with ⟨peel', code', hcode'⟩ | habsorbed
  · exact supported_of_expr hc hcode'
  · exact habsorbed.supported scope.variadic

/-- Whatever is live in an expression that ends a list ends it too. -/
theorem isListEnd_of_isLive {path : List Nat} (h : e.isListEnd = true)
    (hlive : e.isLive env path = true) (hx : e.sub? path = some x) : x.isListEnd = true := by
  induction path generalizing e with
  | nil =>
    cases hx
    exact h
  | cons i path ih =>
    obtain ⟨-, hwants, y, hy, hbelow⟩ := Expr.isLive_cons.mp hlive
    have hsub : y.sub? path = some x := by simpa [Expr.sub?, hy] using hx
    cases e with
    | cast info kind operand isExplicit =>
      simp only [Expr.isListEnd, Bool.and_eq_true, decide_eq_true_eq] at h
      have hmem := List.mem_of_getElem? hy
      obtain rfl := List.mem_singleton.mp hmem
      exact ih h.2 hbelow hsub
    | call info callee args variadicCall builtin =>
      simp only [Expr.isListEnd, decide_eq_true_eq] at h
      simp [Expr.wants, h] at hwants
    | _ => cases h

/-- Ending a list leaves no code, and nothing below it is live. -/
theorem supportedThroughout_of_isListEnd (h : e.isListEnd = true) :
    e.SupportedThroughout env variadic := by
  intro path x hlive hx _
  have hend := isListEnd_of_isLive h hlive hx
  cases x with
  | cast info kind operand isExplicit =>
    simp only [Expr.isListEnd, Bool.and_eq_true, decide_eq_true_eq] at hend
    rw [hend.1]
    trivial
  | call info callee args variadicCall builtin =>
    simp only [Expr.isListEnd, decide_eq_true_eq] at hend
    rw [hend]
    trivial
  | _ => cases hend

section Statements

variable {inBlock : Bool} {s : Stmt} {out : List CodeStmt}

theorem expr_of_condition (h : condition env scope e = .ok code) :
    ∃ inner, expr env scope false e = .ok inner := by
  obtain ⟨inner, hinner, -⟩ := Result.bind_eq_ok.mp h
  exact ⟨inner, hinner⟩

theorem expr_of_copied (h : copied env scope e = .ok code) :
    ∃ inner, expr env scope false e = .ok inner := by
  obtain ⟨inner, hinner, -⟩ := Result.bind_eq_ok.mp h
  exact ⟨inner, hinner⟩

theorem onOption_mem {α β : Type} {f : α → Result β} {a? : Option α} {b? : Option β}
    (h : onOption f a? = .ok b?) : ∀ a ∈ a?.toList, ∃ b, f a = .ok b := by
  cases a? with
  | none => simp
  | some a =>
    obtain ⟨b, hb, -⟩ := Result.bind_eq_ok.mp h
    simpa using ⟨b, hb⟩

theorem localVariable_eq_ok {v : VarDecl} {type : String} {var : Declarator}
    (h : localVariable env scope v = .ok (type, var)) :
    env.mapType v.type = .ok type ∧
      ∀ init, v.init = some init → ∃ code, expr env scope false init = .ok code := by
  obtain ⟨type', htype, h⟩ := Result.bind_eq_ok.mp h
  cases hinit : v.init with
  | none =>
    simp only [hinit, Result.bind_eq_ok, Except.ok.injEq, Prod.mk.injEq] at h
    obtain ⟨_, -, rfl, -⟩ := h
    exact ⟨htype, nofun⟩
  | some init =>
    simp only [hinit, Result.bind_eq_ok, Except.ok.injEq, Prod.mk.injEq] at h
    obtain ⟨_, hcode, rfl, -⟩ := h
    refine ⟨htype, fun init' hinit' => ?_⟩
    cases hinit'
    exact expr_of_copied hcode

theorem localVariables_eq_ok {vars : List VarDecl} :
    (∃ out, localVariables env scope vars = .ok out) ↔
      ∀ v ∈ vars, ∃ type var, localVariable env scope v = .ok (type, var) := by
  induction vars with
  | nil => simp [localVariables]
  | cons v vs ih =>
    rw [List.forall_mem_cons, ← ih]
    simp only [localVariables, Result.bind_eq_ok, Result.locate_eq_ok, Prod.exists,
      Except.ok.injEq]
    constructor
    · rintro ⟨_, type, var, hv, rest, hrest, -⟩
      exact ⟨⟨type, var, hv⟩, rest, hrest⟩
    · rintro ⟨⟨type, var, hv⟩, rest, hrest⟩
      exact ⟨_, type, var, hv, rest, hrest, rfl⟩

theorem moreDeclarators_mem {first : String} {vars : List VarDecl} {rest : List Declarator}
    (h : moreDeclarators env scope first vars = .ok rest) :
    ∀ v ∈ vars, env.mapType v.type = .ok first ∧
      ∃ type var, localVariable env scope v = .ok (type, var) := by
  induction vars generalizing rest with
  | nil => simp
  | cons v vs ih =>
    simp only [moreDeclarators, Result.bind_eq_ok, Result.locate_eq_ok] at h
    obtain ⟨type, htype, h⟩ := h
    split at h
    · cases h
    · rename_i hsame
      rw [not_not] at hsame
      subst hsame
      simp only [Result.bind_eq_ok, Result.locate_eq_ok] at h
      obtain ⟨⟨type', var⟩, hv, tail, htail, -⟩ := h
      exact List.forall_mem_cons.mpr ⟨⟨htype, type', var, hv⟩, ih htail⟩

/-- What a loop starts with could stand before it, and its variables have one class. -/
theorem loopStart_eq_ok {position : Position} {init : Stmt} {start : LoopStart}
    (h : loopStart env scope position (some init) = .ok start) :
    (∃ out, stmt env scope false init = .ok out) ∧
      ∃ name, ∀ v ∈ init.vars, env.mapType v.type = .ok name := by
  cases init with
  | decl declPosition vars =>
    cases vars with
    | nil => exact ⟨⟨[], by rw [stmt, Result.locate_eq_ok]; rfl⟩, "", by simp [Stmt.vars]⟩
    | cons v vs =>
      simp only [loopStart, Result.bind_eq_ok, Result.locate_eq_ok] at h
      obtain ⟨⟨type, var⟩, hv, rest, hrest, -⟩ := h
      have hmore := moreDeclarators_mem hrest
      constructor
      · obtain ⟨out, hout⟩ := localVariables_eq_ok.mpr (List.forall_mem_cons.mpr
          ⟨⟨type, var, hv⟩, fun w hw => (hmore w hw).2⟩)
        exact ⟨out, by rw [stmt, Result.locate_eq_ok, hout]⟩
      · exact ⟨type, List.forall_mem_cons.mpr
          ⟨(localVariable_eq_ok hv).1, fun w hw => (hmore w hw).1⟩⟩
  | expr exprPosition value =>
    refine ⟨?_, "", by simp [Stmt.vars]⟩
    simp only [loopStart, Result.bind_eq_ok] at h
    obtain ⟨code, hcode, -⟩ := h
    simp only [stmt, Result.locate_eq_ok]
    cases value.isListEnd with
    | true => exact ⟨[], rfl⟩
    | false => exact ⟨_, Result.bind_eq_ok.mpr ⟨code, hcode, rfl⟩⟩
  | _ => cases h

theorem stmts_mem {body : List Stmt} (h : stmts env scope body = .ok out) :
    ∀ s ∈ body, ∃ out, stmt env scope false s = .ok out := by
  induction body generalizing out with
  | nil => simp
  | cons s ss ih =>
    simp only [stmts, Result.bind_eq_ok] at h
    obtain ⟨first, hfirst, rest, hrest, -⟩ := h
    exact List.forall_mem_cons.mpr ⟨⟨first, hfirst⟩, ih hrest⟩

/-- After else, a statement is lowered as in a block of its own. -/
theorem elseBranch_some (env : TypeEnv) (scope : Scope) (s : Stmt) :
    elseBranch env scope (some s) =
      stmt env scope true s >>= fun code => .ok (s.branch code) := by
  cases s with
  | ifElse position cond then_ else_ =>
    rw [elseBranch, stmt]
    cases condition env scope cond with
    | error f => rfl
    | ok test =>
      cases stmt env scope true then_ with
      | error f => rfl
      | ok body => cases elseBranch env scope else_ <;> rfl
  | _ =>
    rw [elseBranch]
    · rfl
    · intro _ _ _ _ heq
      cases heq

theorem elseBranch_mem {else_ : Option Stmt} {branch : ElseBranch}
    (h : elseBranch env scope else_ = .ok branch) :
    ∀ s ∈ else_.toList, ∃ out, stmt env scope true s = .ok out := by
  cases else_ with
  | none => simp
  | some s =>
    rw [elseBranch_some] at h
    obtain ⟨code, hcode, -⟩ := Result.bind_eq_ok.mp h
    exact List.forall_mem_singleton.mpr ⟨code, hcode⟩

/-- Every statement directly inside one that has code has code, in a scope of the same function. -/
theorem stmt_children (h : stmt env scope inBlock s = .ok out) :
    ∀ t ∈ s.children, ∃ scope' inBlock' out', scope'.variadic = scope.variadic ∧
      stmt env scope' inBlock' t = .ok out' := by
  -- apart from the bodies of cases, the scope is the same
  have hsame : ∀ t, (∃ inBlock' out', stmt env scope inBlock' t = .ok out') →
      ∃ scope' inBlock' out', scope'.variadic = scope.variadic ∧
        stmt env scope' inBlock' t = .ok out' := by
    rintro t ⟨inBlock', out', hout'⟩
    exact ⟨scope, inBlock', out', rfl, hout'⟩
  intro t ht
  cases s with
  | compound position body =>
    obtain ⟨out, hbody⟩ : ∃ out, stmts env scope body = .ok out := by
      cases inBlock with
      | true => exact ⟨out, by simpa only [stmt, if_true] using h⟩
      | false =>
        simp only [stmt, Bool.false_eq_true, if_false, Result.locate_eq_ok, Result.bind_eq_ok] at h
        obtain ⟨out, hout, -⟩ := h
        exact ⟨out, hout⟩
    exact hsame t ⟨false, stmts_mem hbody t ht⟩
  | ifElse position cond then_ else_ =>
    simp only [stmt, Result.locate_eq_ok, Result.bind_eq_ok] at h
    obtain ⟨_, -, body, hbody, rest, hrest, -⟩ := h
    rcases List.mem_cons.mp ht with rfl | ht
    · exact hsame _ ⟨true, body, hbody⟩
    · exact hsame t ⟨true, elseBranch_mem hrest t ht⟩
  | whileLoop position cond inner =>
    simp only [stmt, Result.locate_eq_ok, Result.bind_eq_ok] at h
    obtain ⟨_, -, body, hbody, -⟩ := h
    cases List.mem_singleton.mp ht
    exact hsame _ ⟨true, body, hbody⟩
  | doLoop position inner cond =>
    simp only [stmt, Result.locate_eq_ok, Result.bind_eq_ok] at h
    obtain ⟨body, hbody, -⟩ := h
    cases List.mem_singleton.mp ht
    exact hsame _ ⟨true, body, hbody⟩
  | forLoop position init cond inc inner =>
    simp only [stmt, Result.locate_eq_ok, Result.bind_eq_ok] at h
    obtain ⟨start, hstart, _, -, _, -, body, hbody, -⟩ := h
    rcases List.mem_append.mp ht with ht | ht
    · cases init with
      | none => cases ht
      | some init =>
        cases List.mem_singleton.mp ht
        exact hsame _ ⟨false, (loopStart_eq_ok hstart).1⟩
    · cases List.mem_singleton.mp ht
      exact hsame _ ⟨true, body, hbody⟩
  | switch position cond cases =>
    obtain ⟨-, _, ds, -, hds, -⟩ := Fallthrough.stmt_switch_eq_ok.mp h
    obtain ⟨c, hc, ht⟩ := List.mem_flatMap.mp ht
    obtain ⟨body, hbody⟩ := hds.bodies c hc
    obtain ⟨out, hout⟩ := stmts_mem hbody t ht
    exact ⟨{ scope with switchDepth := scope.switchDepth + 1 }, false, out, rfl, hout⟩
  | _ => cases ht

theorem labels_of_lowered {labels : List Nat} {cs : List SwitchCase} {ds : List CodeCase}
    (h : Fallthrough.Lowered env scope labels cs ds) :
    ∀ c ∈ cs, ∀ label, c.label = some label → (env.constant? label).isSome = true := by
  induction h with
  | nil => simp
  | cons hselector _ _ ih =>
    refine List.forall_mem_cons.mpr ⟨fun label hlabel => ?_, ih⟩
    rw [SwitchCase.selector?, hlabel] at hselector
    obtain ⟨v, hv, -⟩ := Option.map_eq_some_iff.mp hselector
    simp [hv]

/-- Every expression of a statement that has code has code, unless it only ends a list. -/
theorem stmt_exprs (h : stmt env scope inBlock s = .ok out) :
    ∀ e ∈ s.exprs, (∃ code, expr env scope false e = .ok code) ∨ e.isListEnd = true := by
  intro e he
  cases s with
  | compound | brk | cont | null => cases he
  | ifElse | whileLoop =>
    simp only [stmt, Result.locate_eq_ok, Result.bind_eq_ok] at h
    obtain ⟨test, htest, -⟩ := h
    cases List.mem_singleton.mp he
    exact .inl (expr_of_condition htest)
  | doLoop position inner cond =>
    simp only [stmt, Result.locate_eq_ok, Result.bind_eq_ok] at h
    obtain ⟨_, -, test, htest, -⟩ := h
    cases List.mem_singleton.mp he
    exact .inl (expr_of_condition htest)
  | forLoop position init cond inc inner =>
    simp only [stmt, Result.locate_eq_ok, Result.bind_eq_ok] at h
    obtain ⟨_, -, test, htest, step, hstep, -⟩ := h
    rcases List.mem_append.mp he with he | he
    · obtain ⟨code, hcode⟩ := onOption_mem htest e he
      exact .inl (expr_of_condition hcode)
    · exact .inl (onOption_mem hstep e he)
  | switch position cond cases =>
    obtain ⟨-, code, _, hcode, -⟩ := Fallthrough.stmt_switch_eq_ok.mp h
    cases List.mem_singleton.mp he
    exact .inl ⟨code, hcode⟩
  | ret position value =>
    simp only [stmt, Result.locate_eq_ok, Result.bind_eq_ok] at h
    obtain ⟨_, hvalue, -⟩ := h
    obtain ⟨code, hcode⟩ := onOption_mem hvalue e he
    exact .inl (expr_of_copied hcode)
  | decl position vars =>
    simp only [stmt, Result.locate_eq_ok] at h
    obtain ⟨v, hv, hinit⟩ := List.mem_filterMap.mp he
    obtain ⟨type, var, hvar⟩ := localVariables_eq_ok.mp ⟨out, h⟩ v hv
    exact .inl ((localVariable_eq_ok hvar).2 e hinit)
  | expr position value =>
    simp only [stmt, Result.locate_eq_ok] at h
    cases List.mem_singleton.mp he
    split at h
    · rename_i hend
      exact .inr hend
    · obtain ⟨code, hcode, -⟩ := Result.bind_eq_ok.mp h
      exact .inl ⟨code, hcode⟩

/-- What emission checks at the statement itself. -/
theorem stmt_supported (h : stmt env scope inBlock s = .ok out) :
    s.Supported env scope.variadic := by
  have hexprs : ∀ e ∈ s.exprs, e.SupportedThroughout env scope.variadic := by
    intro e he
    rcases stmt_exprs h e he with ⟨code, hcode⟩ | hend
    · exact supportedThroughout_of_expr hcode
    · exact supportedThroughout_of_isListEnd hend
  cases s with
  | decl position vars =>
    refine ⟨hexprs, fun v hv => ?_, ⟨"", by simp [Stmt.loopVars]⟩, Nat.zero_le 1,
      by simp [Stmt.cases]⟩
    simp only [stmt, Result.locate_eq_ok] at h
    obtain ⟨type, var, hvar⟩ := localVariables_eq_ok.mp ⟨out, h⟩ v hv
    exact mapped_of_mapType (localVariable_eq_ok hvar).1
  | forLoop position init cond inc inner =>
    refine ⟨hexprs, by simp [Stmt.vars], ?_, Nat.zero_le 1, by simp [Stmt.cases]⟩
    simp only [stmt, Result.locate_eq_ok, Result.bind_eq_ok] at h
    obtain ⟨start, hstart, -⟩ := h
    cases init with
    | none => exact ⟨"", by simp [Stmt.loopVars]⟩
    | some init => exact (loopStart_eq_ok hstart).2
  | switch position cond cases =>
    obtain ⟨hdefault, -, ds, -, hds, -⟩ := Fallthrough.stmt_switch_eq_ok.mp h
    exact ⟨hexprs, by simp [Stmt.vars], ⟨"", by simp [Stmt.loopVars]⟩, hdefault,
      labels_of_lowered hds⟩
  | _ =>
    -- the others declare nothing and have no cases
    exact ⟨hexprs, by simp [Stmt.vars], ⟨"", by simp [Stmt.loopVars]⟩, Nat.zero_le 1,
      by simp [Stmt.cases]⟩

/-- Every statement inside one that has code has code, in a scope of the same function. -/
theorem stmt_of_contains {t : Stmt} (ht : s.Contains t) (h : stmt env scope inBlock s = .ok out) :
    ∃ scope' inBlock' out', scope'.variadic = scope.variadic ∧
      stmt env scope' inBlock' t = .ok out' := by
  induction ht generalizing scope inBlock out with
  | self s => exact ⟨scope, inBlock, out, rfl, h⟩
  | inside ht _ ih =>
    obtain ⟨scope', inBlock', out', hvariadic, hout'⟩ := stmt_children h _ ht
    rw [← hvariadic]
    exact ih hout'

theorem bodySupported_of_stmts {body : List Stmt} (h : stmts env scope body = .ok out) :
    BodySupported env scope.variadic body := by
  intro s hs t ht
  obtain ⟨out, hout⟩ := stmts_mem h s hs
  obtain ⟨scope', inBlock', out', hvariadic, hout'⟩ := stmt_of_contains ht hout
  rw [← hvariadic]
  exact stmt_supported hout'

end Statements

section Units

variable {body : List Stmt} {ds : List Decl}

theorem paramsFrom_length {index : Nat} {ps : List Param} {out : List (String × String)}
    (h : paramsFrom env index ps = .ok out) : out.length = ps.length := by
  induction ps generalizing index out with
  | nil =>
    cases h
    rfl
  | cons p ps ih =>
    simp only [paramsFrom, Result.bind_eq_ok, Except.ok.injEq] at h
    obtain ⟨_, -, rest, hrest, rfl⟩ := h
    simp only [List.length_cons, ih hrest]

theorem paramsFrom_mapped {index : Nat} {ps : List Param} {out : List (String × String)}
    (h : paramsFrom env index ps = .ok out) : ∀ p ∈ ps, p.type.Mapped env := by
  induction ps generalizing index out with
  | nil => simp
  | cons p ps ih =>
    simp only [paramsFrom, Result.bind_eq_ok, Result.locate_eq_ok] at h
    obtain ⟨type, htype, rest, hrest, -⟩ := h
    exact List.forall_mem_cons.mpr ⟨mapped_of_mapType htype, ih hrest⟩

theorem function_supported {name : String} {d : FuncDecl} {f : CodeFunction}
    (h : function env name d body = .ok f) : d.result.Mapped env ∧
      (∀ p ∈ d.params, p.type.Mapped env) ∧ BodySupported env d.variadic body := by
  simp only [function, params, Result.bind_eq_ok] at h
  obtain ⟨result, hresult, _, ⟨fixed, hfixed, -⟩, out, hout, -⟩ := h
  exact ⟨mapped_of_mapType hresult, paramsFrom_mapped hfixed, bodySupported_of_stmts hout⟩

theorem method_supported {d : MethodDecl} {f : CodeFunction} (h : method env d body = .ok f) :
    d.result.Mapped env ∧
      (∀ p ∈ d.params, p.type.Mapped env) ∧ BodySupported env false body := by
  simp only [method, params, Result.bind_eq_ok] at h
  obtain ⟨result, hresult, _, ⟨fixed, hfixed, -⟩, out, hout, -⟩ := h
  exact ⟨mapped_of_mapType hresult, paramsFrom_mapped hfixed, bodySupported_of_stmts hout⟩

theorem methods_mem {ms : List (MethodDecl × List Stmt)} {fs : List CodeFunction}
    (h : methods env ms = .ok fs) : ∀ m ∈ ms, ∃ f, method env m.1 m.2 = .ok f := by
  induction ms generalizing fs with
  | nil => simp
  | cons m ms ih =>
    simp only [methods, Result.bind_eq_ok, Result.locate_eq_ok] at h
    obtain ⟨first, hfirst, rest, hrest, -⟩ := h
    exact List.forall_mem_cons.mpr ⟨⟨first, hfirst⟩, ih hrest⟩

theorem items_mem {is : List Item} {out : List CodeItem} (h : items env is = .ok out) :
    ∀ i ∈ is, ∃ code ∈ out, item env i = .ok code := by
  induction is generalizing out with
  | nil => simp
  | cons i is ih =>
    simp only [items, Result.bind_eq_ok, Except.ok.injEq] at h
    obtain ⟨first, hfirst, rest, hrest, rfl⟩ := h
    refine List.forall_mem_cons.mpr ⟨⟨first, List.mem_cons_self, hfirst⟩, fun j hj => ?_⟩
    obtain ⟨code, hcode, hitem⟩ := ih hrest j hj
    exact ⟨code, List.mem_cons_of_mem first hcode, hitem⟩

theorem mem_methodsOf {d : MethodDecl} (hd : .method d ∈ ds) (hbody : d.body = some body) :
    (d, body) ∈ methodsOf d.owner ds := by
  induction ds with
  | nil => cases hd
  | cons c ds ih =>
    rcases List.mem_cons.mp hd with rfl | hd
    · simp [methodsOf, hbody]
    · have hrest := ih hd
      cases c with
      | func | var => exact hrest
      | method m =>
        rw [methodsOf]
        split
        · split
          · exact List.mem_cons_of_mem _ hrest
          · exact hrest
        · exact hrest

/-- Planning a declaration puts at most an item in front of the others. -/
theorem planFrom_cons (seen : List String) (c : Decl) (ds : List Decl) :
    ∃ front seen', planFrom seen (c :: ds) = front ++ planFrom seen' ds := by
  cases c with
  | var v => exact ⟨[_], seen, rfl⟩
  | func f =>
    rw [planFrom]
    split
    · exact ⟨[_], seen, rfl⟩
    · exact ⟨[], seen, rfl⟩
  | method m =>
    rw [planFrom]
    split
    · split
      · exact ⟨[], seen, rfl⟩
      · exact ⟨[_], m.owner :: seen, rfl⟩
    · exact ⟨[], seen, rfl⟩

theorem function_mem_planFrom {d : FuncDecl} (hd : .func d ∈ ds) (hbody : d.body = some body)
    (seen : List String) : .function d body ∈ planFrom seen ds := by
  induction ds generalizing seen with
  | nil => cases hd
  | cons c ds ih =>
    rcases List.mem_cons.mp hd with rfl | hrest
    · simp [planFrom, hbody]
    · obtain ⟨front, seen', hplan⟩ := planFrom_cons seen c ds
      rw [hplan]
      exact List.mem_append_right front (ih hrest seen')

theorem variable_mem_planFrom {d : VarDecl} (hd : .var d ∈ ds) (seen : List String) :
    .variable d ∈ planFrom seen ds := by
  induction ds generalizing seen with
  | nil => cases hd
  | cons c ds ih =>
    rcases List.mem_cons.mp hd with rfl | hrest
    · simp [planFrom]
    · obtain ⟨front, seen', hplan⟩ := planFrom_cons seen c ds
      rw [hplan]
      exact List.mem_append_right front (ih hrest seen')

/-- The class of an owner is planned with all its methods, unless it is planned already. -/
theorem class_mem_planFrom {owner : String} (hne : methodsOf owner ds ≠ []) {seen : List String}
    (hseen : owner ∉ seen) : .class owner (methodsOf owner ds) ∈ planFrom seen ds := by
  induction ds generalizing seen with
  | nil => exact absurd rfl hne
  | cons d ds ih =>
    cases d with
    | func f =>
      have hrest := ih hne hseen
      rw [planFrom]
      split
      · exact List.mem_cons_of_mem _ hrest
      · exact hrest
    | var v => exact List.mem_cons_of_mem _ (ih hne hseen)
    | method m =>
      rw [methodsOf] at hne ⊢
      rw [planFrom]
      cases hbody : m.body with
      | none =>
        rw [hbody] at hne
        exact ih hne hseen
      | some body =>
        rw [hbody] at hne
        dsimp only at hne ⊢
        by_cases howner : m.owner = owner
        · subst howner
          have hnew : seen.contains m.owner = false := by simpa using hseen
          rw [if_pos rfl, hnew]
          exact List.mem_cons_self
        · rw [if_neg howner] at hne ⊢
          split
          · exact ih hne hseen
          · exact List.mem_cons_of_mem _ (ih hne (by simp [Ne.symm howner, hseen]))

/-- What an item is planned from stands among some declarations, and is defined there. -/
def Item.Planned (decls : List Decl) : Item → Prop
  | .function d body => .func d ∈ decls ∧ d.body = some body
  | .variable d => .var d ∈ decls
  | .class owner ms =>
      ms ≠ [] ∧ ∀ m ∈ ms, .method m.1 ∈ decls ∧ m.1.owner = owner ∧ m.1.body = some m.2

theorem planned_of_mem_methodsOf {owner : String} {decls : List Decl} (hds : ds ⊆ decls) :
    ∀ m ∈ methodsOf owner ds, .method m.1 ∈ decls ∧ m.1.owner = owner ∧ m.1.body = some m.2 := by
  induction ds with
  | nil => exact List.forall_mem_nil _
  | cons d ds ih =>
    rw [List.cons_subset] at hds
    have hrest := ih hds.2
    cases d with
    | func | var => exact hrest
    | method d =>
      rw [methodsOf]
      split
      · rename_i body hbody
        split
        · rename_i howner
          exact List.forall_mem_cons.mpr ⟨⟨hds.1, howner, hbody⟩, hrest⟩
        · exact hrest
      · exact hrest

theorem planned_of_mem_planFrom {seen : List String} {decls : List Decl} (hds : ds ⊆ decls) :
    ∀ i ∈ planFrom seen ds, i.Planned decls := by
  induction ds generalizing seen with
  | nil => exact List.forall_mem_nil _
  | cons d ds ih =>
    rw [List.cons_subset] at hds
    obtain ⟨hd, hds⟩ := hds
    cases d with
    | var d => exact List.forall_mem_cons.mpr ⟨hd, ih hds⟩
    | func d =>
      rw [planFrom]
      split
      · rename_i body hbody
        exact List.forall_mem_cons.mpr ⟨⟨hd, hbody⟩, ih hds⟩
      · exact ih hds
    | method d =>
      rw [planFrom]
      split
      · rename_i body hbody
        split
        · exact ih hds
        · refine List.forall_mem_cons.mpr ⟨⟨List.cons_ne_nil _ _, ?_⟩, ih hds⟩
          exact List.forall_mem_cons.mpr ⟨⟨hd, rfl, hbody⟩, planned_of_mem_methodsOf hds⟩
      · exact ih hds

theorem planned_of_mem_plan (decls : List Decl) : ∀ i ∈ plan decls, i.Planned decls :=
  planned_of_mem_planFrom (List.Subset.refl decls)

section Planned

variable {decls : List Decl} {out : List CodeItem} {body : List Stmt}

theorem function_of_mem (h : items env (plan decls) = .ok out) {d : FuncDecl}
    (hd : .func d ∈ decls) (hbody : d.body = some body) :
    ∃ name f, function env name d body = .ok f := by
  obtain ⟨code, -, hcode⟩ := items_mem h _ (function_mem_planFrom hd hbody [])
  simp only [item, Result.locate_eq_ok] at hcode
  split at hcode
  · obtain ⟨f, hf, -⟩ := Result.bind_eq_ok.mp hcode
    exact ⟨_, f, hf⟩
  · obtain ⟨f, hf, -⟩ := Result.bind_eq_ok.mp hcode
    exact ⟨_, f, hf⟩

theorem method_of_mem (h : items env (plan decls) = .ok out) {d : MethodDecl}
    (hd : .method d ∈ decls) (hbody : d.body = some body) : ∃ f, method env d body = .ok f := by
  have hmem := mem_methodsOf hd hbody
  have hplanned := class_mem_planFrom (List.ne_nil_of_mem hmem) List.not_mem_nil
  obtain ⟨code, -, hcode⟩ := items_mem h _ hplanned
  obtain ⟨fs, hfs, -⟩ := Result.bind_eq_ok.mp hcode
  exact methods_mem hfs _ hmem

theorem global_of_mem (h : items env (plan decls) = .ok out) {d : VarDecl}
    (hd : .var d ∈ decls) : (∃ type, env.mapType d.type = .ok type) ∧
      ∀ init, d.init = some init → ∃ code, expr env {} false init = .ok code := by
  obtain ⟨code, -, hcode⟩ := items_mem h _ (variable_mem_planFrom hd [])
  simp only [item, global, Result.locate_eq_ok, Result.bind_eq_ok] at hcode
  obtain ⟨type, htype, hcode⟩ := hcode
  refine ⟨⟨type, htype⟩, fun init hinit => ?_⟩
  rw [hinit] at hcode
  obtain ⟨value, hvalue, -⟩ := Result.bind_eq_ok.mp hcode
  exact ⟨value, hvalue⟩

theorem decl_supported (h : items env (plan decls) = .ok out) : ∀ d ∈ decls, d.Supported env := by
  intro d hd
  cases d with
  | func d =>
    intro body hbody
    obtain ⟨name, f, hf⟩ := function_of_mem h hd hbody
    exact function_supported hf
  | method d =>
    intro body hbody
    obtain ⟨f, hf⟩ := method_of_mem h hd hbody
    exact method_supported hf
  | var d =>
    obtain ⟨⟨type, htype⟩, hinit⟩ := global_of_mem h hd
    refine ⟨mapped_of_mapType htype, fun init heq => ?_⟩
    obtain ⟨value, hvalue⟩ := hinit init heq
    exact supportedThroughout_of_expr hvalue

end Planned

theorem generate_eq_ok {package text : String} {cancelled : Bool} {u : SourceUnit}
    (h : generate env package cancelled (some u) = .ok text) :
    ∃ file, unit env package u = .ok file ∧ file.text = text := by
  unfold generate at h
  dsimp only at h
  split at h
  · cases h
  · obtain ⟨file, hfile, htext⟩ := Result.bind_eq_ok.mp h
    cases htext
    exact ⟨file, hfile, rfl⟩

/-- A unit that has a file contains nothing without a form in the target language. -/
theorem generated_units_are_supported {package text : String} {cancelled : Bool} {u : SourceUnit}
    (h : generate env package cancelled (some u) = .ok text) : ∀ d ∈ u.decls, d.Supported env := by
  unfold generate at h
  dsimp only at h
  split at h
  · cases h
  · obtain ⟨file, hfile, -⟩ := Result.bind_eq_ok.mp h
    obtain ⟨out, hout, -⟩ := Result.bind_eq_ok.mp hfile
    exact decl_supported hout

/-- A variadic function that starts a list, counts two variables together, switches and calls
itself with one argument more than it has parameters. -/
def countedPick : FuncDecl :=
  let int : CType := .scalar ⟨.int, 32, true⟩
  let info : ExprInfo := { type := some int }
  let n : Expr := .ref info "n" .parameter
  let pick : Expr := .ref { type := some (.function [int] int true) } "pick" .function
  { name := "pick", params := [⟨{}, "n", int⟩], result := int, variadic := true, entry := false
    body := some
      [.expr {} (.call {} (.ref {} "va_start" .function) [.ref {} "ap" .var, n] false .listStart),
        .forLoop {} (some (.decl {} [⟨{}, "i", int, some n⟩, ⟨{}, "j", int, none⟩])) (some n)
          none (.null {}),
        .switch {} n [.mk {} (some (.int info 1)) [.brk {}], .mk {} none []],
        .ret {} (some (.call info pick [n, n] false .none))] }

theorem countedPick_supported :
    (∃ text, generate ⟨"", "", [], []⟩ "" false (some ⟨"", "", [.func countedPick]⟩) = .ok text) ∧
      Decl.Supported ⟨"", "", [], []⟩ (.func countedPick) := by
  obtain ⟨text, htext⟩ : ∃ text,
      generate ⟨"", "", [], []⟩ "" false (some ⟨"", "", [.func countedPick]⟩) = .ok text := ⟨_, rfl⟩
  exact ⟨⟨text, htext⟩, generated_units_are_supported htext _ List.mem_cons_self⟩

/-- A unit with a variable that is an array of variable length, under the name of the type that is
passed through, has a file. -/
theorem marked_array_is_generated : ∃ v text elem length,
    v.type.unalias = .array elem length true ∧
      generate (.ofMarkers "" "" []) "" false (some ⟨"u", "u.c", [.var v]⟩) = .ok text :=
  ⟨⟨{}, "v", .alias TypeEnv.defaultPassThrough (.array (.scalar ⟨.int, 32, true⟩) none true), none⟩,
    _, _, _, rfl, rfl⟩

end Units

end Lower

end DartLowering
