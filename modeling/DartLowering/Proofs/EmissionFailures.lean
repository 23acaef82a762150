import DartLowering.Proofs.Courses
import DartLowering.Proofs.SpelledUnits

/-!
How emission ends. `Admits P env` says that `P` holds of every report of a cause that runs return,
wherever it is placed, and of every failure to lay out a record; of the report that a layout lacks a
field only if there is such a layout. Then whatever emission fails with satisfies `P`: each function
of it either makes such a report or passes on a failure of what it calls. Where it succeeds, the
code is spelled as the statements and declarations are that it comes from.
-/
namespace DartLowering

open Result Text

structure Admits (P : Failure → Prop) (env : TypeEnv) : Prop where
  located : ∀ p f, P f → P (f.locate p)
  reported : ∀ (c : Cause) p, c.isOrdinary = true → P (.report c p none)
  layout : ∀ tag, FailsOnly P (env.layoutOf tag)
  unplaced : ∀ tag field f l p, (env.records.find tag).field? field = some f →
    env.layoutOf tag = .ok l → l.offset? field = none →
      P (.report (.violation (.unplacedField tag.name field)) p none)

namespace Admits

variable {P : Failure → Prop} {env : TypeEnv} (h : Admits P env)

include h

theorem report {α : Type} {Q : α → Prop} {c : Cause} {p : Position} (hc : c.isOrdinary = true) :
    Ends P Q (.error (.report c p none)) :=
  ends_error (h.reported c p hc)

theorem locate {α : Type} {Q : α → Prop} {p : Position} {r : Result α} (hr : Ends P Q r) :
    Ends P Q (Result.locate p r) :=
  ⟨hr.fails.locate (h.located p), fun a ha => hr.yields a (locate_eq_ok.mp ha)⟩

/-- It holds of what nodes fail with by themselves, wherever they stand. -/
theorem own (position : Position) : AdmitsOwn P env position where
  reported c hc := h.reported c {} hc
  placed c hc := h.reported c position hc
  layout := h.layout
  unplaced tag field f l hf hl hnone := h.unplaced tag field f l position hf hl hnone

section Types

theorem wrapper (s : Scalar) : FailsOnly P s.wrapper := (h.own {}).wrapper s

theorem mapType (t : CType) : FailsOnly P (env.mapType t) := (h.own {}).mapType t

theorem storageKind (t : CType) : FailsOnly P (env.storageKind t) := (h.own {}).storageKind t

theorem sizeOf (t : CType) : FailsOnly P (env.sizeOf t) := (h.own {}).sizeOf t

theorem onType {α : Type} {f : CType → Result α} (hf : ∀ t, FailsOnly P (f t)) (t? : Option CType) :
    FailsOnly P (TypeEnv.onType f t?) :=
  (h.own {}).onType hf t?

end Types

section Expressions

theorem callShape (info : ExprInfo) (callee : Expr) (args : List Expr) (variadic : Bool) :
    FailsOnly P (Lower.callShape info callee args variadic) :=
  (h.own info.position).callShape callee args variadic

/-- The code of an expression is spelled as the expression is, and whatever it fails with is
admitted. -/
theorem expr_ends {p : Char → Bool} (hp : AdmitsWords p) {scope : Lower.Scope}
    (hself : Over p scope.self) {e : Expr} (he : e.Spelled p) (peel : Bool) :
    Ends P (Code.Spelled p) (Lower.expr env scope peel e) := by
  have hexpr : ∀ e : Expr, e.Spelled p →
      Ends P (Code.Spelled p) (Lower.expr env scope false e) := by
    intro e he
    induction e using Expr.belowInduction with
    | step e ih =>
      have hbounded := Lower.course_bounded (h.own e.position) hp hself he
      rw [Lower.expr_eq_run]
      exact h.locate (hbounded.ends fun x hx => ih x hx (he.of_below hx))
  cases peel with
  | false => exact hexpr e he
  | true =>
    rw [Lower.expr_stripList]
    exact hexpr e.stripList (Lower.spelled_stripList he)

end Expressions

section Statements

variable {p : Char → Bool} (hp : AdmitsWords p)

include hp

theorem mapped {t : CType} (ht : ∀ c, t.className? = some c → Over p c) :
    Ends P (Over p) (env.mapType t) :=
  ⟨h.mapType t, fun _ htype => Lower.mapType_over hp htype ht⟩

theorem defaultValue {t : CType} (ht : ∀ c, t.className? = some c → Over p c) :
    Ends P (Code.Spelled p) (Lower.defaultValue env t) := by
  refine (h.mapped hp ht).bind fun type htype => ?_
  split
  · exact ends_ok (over_word hp rfl)
  · dsimp only
    split
    all_goals
      split
      · refine Ends.bind ⟨h.sizeOf t, fun _ _ => trivial⟩ fun size _ => ends_ok ?_
        exact Lower.onClass_spelled htype (over_word hp rfl) ⟨trivial, trivial⟩
      · exact ends_ok (Lower.onClass_spelled htype (over_word hp rfl) trivial)

variable {scope : Lower.Scope} (hself : Over p scope.self)

include hself

theorem condition {e : Expr} (he : e.Spelled p) :
    Ends P (Code.Spelled p) (Lower.condition env scope e) :=
  (h.expr_ends hp hself he false).bind fun _ hcode => ends_ok (Lower.asCondition_spelled hp hcode)

theorem copied {e : Expr} (he : e.Spelled p) : Ends P (Code.Spelled p) (Lower.copied env scope e) :=
  (h.expr_ends hp hself he false).bind fun _ hcode => ends_ok (Lower.asCopy_spelled hp hcode)

theorem localVariable {v : VarDecl} (hv : v.Spelled p) :
    Ends P (fun var => Over p var.1 ∧ var.2.Spelled p) (Lower.localVariable env scope v) := by
  refine (h.mapped hp hv.type).bind fun type ht => ?_
  have hname := Lower.identifier_over hp hv.name
  dsimp only
  split
  · rename_i init hinit
    refine (h.copied hp hself (hv.init init hinit)).bind fun value hvalue => ?_
    exact ends_ok ⟨ht, hname, hvalue⟩
  · exact (h.defaultValue hp hv.type).bind fun value hvalue => ends_ok ⟨ht, hname, hvalue⟩

section Variables

variable {vs : List VarDecl} (hvs : ∀ v ∈ vs, v.Spelled p)

include hvs

theorem localVariables :
    Ends P (fun out => ∀ c ∈ out, c.Spelled p) (Lower.localVariables env scope vs) := by
  induction vs with
  | nil => exact ends_ok (List.forall_mem_nil _)
  | cons v vs ih =>
    rw [List.forall_mem_cons] at hvs
    refine (h.locate (h.localVariable hp hself hvs.1)).bind fun var hvar => ?_
    exact (ih hvs.2).bind fun rest hrest => ends_ok (List.forall_mem_cons.mpr ⟨hvar, hrest⟩)

theorem moreDeclarators (first : String) :
    Ends P (fun ds => ∀ d ∈ ds, d.Spelled p) (Lower.moreDeclarators env scope first vs) := by
  induction vs with
  | nil => exact ends_ok (List.forall_mem_nil _)
  | cons v vs ih =>
    rw [List.forall_mem_cons] at hvs
    refine (h.locate (h.mapped hp hvs.1.type)).bind fun type _ => ?_
    split
    · exact h.report rfl
    · refine (h.locate (h.localVariable hp hself hvs.1)).bind fun var hvar => ?_
      exact (ih hvs.2).bind fun rest hrest => ends_ok (List.forall_mem_cons.mpr ⟨hvar.2, hrest⟩)

end Variables

theorem loopStart {init : Option Stmt} (hinit : ∀ s ∈ init, s.Spelled p) (position : Position) :
    Ends P (LoopStart.Spelled p) (Lower.loopStart env scope position init) := by
  cases init with
  | none => exact ends_ok trivial
  | some s =>
    have hs := hinit s rfl
    cases s with
    | decl q vs =>
      have hvs : ∀ v ∈ vs, v.Spelled p := fun v hv => hs.var hv
      cases vs with
      | nil => exact ends_ok trivial
      | cons v vs =>
        rw [List.forall_mem_cons] at hvs
        refine (h.locate (h.localVariable hp hself hvs.1)).bind fun var hvar => ?_
        refine (h.moreDeclarators hp hself hvs.2 _).bind fun rest hrest => ends_ok ?_
        exact ⟨hvar.1, List.forall_mem_cons.mpr ⟨hvar.2, hrest⟩⟩
    | expr q value =>
      have hvalue := h.expr_ends hp hself (hs.expr List.mem_cons_self) false
      exact hvalue.bind fun code hcode => ends_ok hcode
    | _ => exact h.report rfl

omit h hp hself

theorem onOption {f : Expr → Result Code} {e? : Option Expr}
    (hf : ∀ e ∈ e?, Ends P (Code.Spelled p) (f e)) :
    Ends P (fun code? => ∀ c ∈ code?, c.Spelled p) (Lower.onOption f e?) := by
  cases e? with
  | none =>
    refine ends_ok fun c hc => ?_
    cases hc
  | some e =>
    refine (hf e rfl).bind fun code hcode => ends_ok fun c hc => ?_
    cases hc
    exact hcode

/-- Statements of a list, the code of each of them given. -/
theorem stmts_of_each {body : List Stmt}
    (ih : ∀ s ∈ body, Ends P (fun out => ∀ c ∈ out, c.Spelled p) (Lower.stmt env scope false s)) :
    Ends P (fun out => ∀ c ∈ out, c.Spelled p) (Lower.stmts env scope body) := by
  induction body with
  | nil => exact ends_ok (List.forall_mem_nil _)
  | cons s ss ihs =>
    rw [List.forall_mem_cons] at ih
    rw [Lower.stmts]
    refine ih.1.bind fun first hfirst => (ihs ih.2).bind fun rest hrest => ?_
    exact ends_ok (List.forall_mem_append.mpr ⟨hfirst, hrest⟩)

theorem elseBranch_of_each {else_ : Option Stmt}
    (ih : ∀ s ∈ else_, Ends P (fun out => ∀ c ∈ out, c.Spelled p) (Lower.stmt env scope true s)) :
    Ends P (ElseBranch.Spelled p) (Lower.elseBranch env scope else_) := by
  cases else_ with
  | none =>
    rw [Lower.elseBranch]
    exact ends_ok trivial
  | some s =>
    rw [Lower.elseBranch_some]
    exact (ih s rfl).bind fun code hcode => ends_ok (Lower.branch_spelled s hcode)

section Cases

variable {cs : List SwitchCase} (labels : List Nat)
  (ih : ∀ c ∈ cs, ∀ s ∈ c.body, Ends P (fun out => ∀ c ∈ out, c.Spelled p)
    (Lower.stmt env { scope with switchDepth := scope.switchDepth + 1 } false s))

include h hp ih

theorem explicitCases :
    Ends P (fun ds => ∀ d ∈ ds, d.Spelled p) (Lower.explicitCases env scope labels cs) := by
  induction cs generalizing labels with
  | nil =>
    simp only [Lower.explicitCases]
    exact ends_ok (List.forall_mem_nil _)
  | cons c cs ihs =>
    rw [List.forall_mem_cons] at ih
    obtain ⟨position, label, body⟩ := c
    cases labels with
    | nil =>
      simp only [Lower.explicitCases]
      exact ends_ok (List.forall_mem_nil _)
    | cons first following =>
      cases label with
      | none =>
        simp only [Lower.explicitCases]
        exact ihs following ih.2
      | some value =>
        have hvalue : Ends P (fun _ => True) (Lower.caseValue env position value) := by
          unfold Lower.caseValue
          split
          · exact ends_ok trivial
          · exact h.report rfl
        simp only [Lower.explicitCases]
        refine hvalue.bind fun v _ => (h.locate (stmts_of_each ih.1)).bind fun code hcode => ?_
        refine (ihs following ih.2).bind fun rest hrest => ends_ok ?_
        exact List.forall_mem_cons.mpr ⟨Lower.case_spelled hp hcode _, hrest⟩

theorem defaultCases :
    Ends P (fun ds => ∀ d ∈ ds, d.Spelled p) (Lower.defaultCases env scope labels cs) := by
  induction cs generalizing labels with
  | nil =>
    simp only [Lower.defaultCases]
    exact ends_ok (List.forall_mem_nil _)
  | cons c cs ihs =>
    rw [List.forall_mem_cons] at ih
    obtain ⟨position, label, body⟩ := c
    cases labels with
    | nil =>
      simp only [Lower.defaultCases]
      exact ends_ok (List.forall_mem_nil _)
    | cons first following =>
      cases label with
      | some value =>
        simp only [Lower.defaultCases]
        exact ihs following ih.2
      | none =>
        simp only [Lower.defaultCases]
        refine (h.locate (stmts_of_each ih.1)).bind fun code hcode => ?_
        refine (ihs following ih.2).bind fun rest hrest => ends_ok ?_
        exact List.forall_mem_cons.mpr ⟨Lower.case_spelled hp hcode _, hrest⟩

end Cases

include h hp

/-- The code of a statement is spelled as the statement is. -/
theorem stmt {s : Stmt} (hs : s.Spelled p) : ∀ (scope : Lower.Scope) (inBlock : Bool),
    Over p scope.self →
      Ends P (fun out => ∀ c ∈ out, c.Spelled p) (Lower.stmt env scope inBlock s) := by
  induction s using Stmt.childInduction with
  | step s ih =>
    intro scope inBlock hself
    have ih := fun t ht scope inBlock => ih t ht (hs.child ht) scope inBlock
    have hcondition : ∀ e ∈ s.exprs, Ends P (Code.Spelled p) (Lower.condition env scope e) :=
      fun e he => h.condition hp hself (hs.expr he)
    have hbody : ∀ t ∈ s.children, Ends P (CodeStmt.AllSpelled p) (Lower.stmt env scope true t) :=
      fun t ht => (ih t ht scope true hself).imp fun _ => CodeStmt.allSpelled_iff.mpr
    cases s with
    | compound position body =>
      have hstmts := stmts_of_each fun t ht => ih t ht scope false hself
      rw [Lower.stmt]
      split
      · exact hstmts
      · refine h.locate (hstmts.bind fun code hcode => ends_ok ?_)
        exact List.forall_mem_singleton.mpr (CodeStmt.allSpelled_iff.mpr hcode)
    | ifElse position cond then_ else_ =>
      rw [Lower.stmt]
      apply h.locate
      refine (hcondition cond List.mem_cons_self).bind fun test htest => ?_
      refine (hbody then_ List.mem_cons_self).bind fun code hcode => ?_
      refine (elseBranch_of_each fun t ht => ?_).bind fun rest hrest =>
        ends_ok (List.forall_mem_singleton.mpr ⟨htest, hcode, hrest⟩)
      exact ih t (List.mem_cons_of_mem _ (Option.mem_toList.mpr ht)) scope true hself
    | whileLoop position cond body =>
      rw [Lower.stmt]
      apply h.locate
      refine (hcondition cond List.mem_cons_self).bind fun test htest => ?_
      exact (hbody body List.mem_cons_self).bind fun code hcode =>
        ends_ok (List.forall_mem_singleton.mpr ⟨htest, hcode⟩)
    | doLoop position body cond =>
      rw [Lower.stmt]
      apply h.locate
      refine (hbody body List.mem_cons_self).bind fun code hcode => ?_
      exact (hcondition cond List.mem_cons_self).bind fun test htest =>
        ends_ok (List.forall_mem_singleton.mpr ⟨hcode, htest⟩)
    | forLoop position init cond inc body =>
      rw [Lower.stmt]
      apply h.locate
      refine (h.loopStart hp hself (fun t ht => ?_) position).bind fun start hstart => ?_
      · exact hs.child (List.mem_append_left _ (Option.mem_toList.mpr ht))
      refine (onOption fun e he => hcondition e ?_).bind fun test htest => ?_
      · exact List.mem_append_left _ (Option.mem_toList.mpr he)
      refine (onOption fun e he => h.expr_ends hp hself (hs.expr ?_) false).bind
        fun step hstep => ?_
      · exact List.mem_append_right _ (Option.mem_toList.mpr he)
      exact (hbody body (List.mem_append_right _ List.mem_cons_self)).bind fun code hcode =>
        ends_ok (List.forall_mem_singleton.mpr ⟨hstart, htest, hstep, hcode⟩)
    | switch position cond cases =>
      have hbodies := fun c (hc : c ∈ cases) t (ht : t ∈ c.body) =>
        ih t (List.mem_flatMap.mpr ⟨c, hc, ht⟩)
          { scope with switchDepth := scope.switchDepth + 1 } false hself
      rw [Lower.stmt]
      apply h.locate
      split
      · exact h.report rfl
      · refine (h.expr_ends hp hself (hs.expr List.mem_cons_self) false).bind
          fun subject hsubject => ?_
        refine (h.explicitCases hp _ hbodies).bind fun explicit hexplicit => ?_
        refine (h.defaultCases hp _ hbodies).bind fun default hdefault => ends_ok ?_
        refine List.forall_mem_singleton.mpr
          ⟨⟨Lower.asReceiver_spelled.mpr hsubject, over_word hp rfl, trivial⟩, ?_⟩
        exact CodeCase.allSpelled_iff.mpr (List.forall_mem_append.mpr ⟨hexplicit, hdefault⟩)
    | brk | cont | null =>
      rw [Lower.stmt]
      exact ends_ok (List.forall_mem_singleton.mpr trivial)
    | ret position value =>
      rw [Lower.stmt]
      have hvalue := onOption fun e (he : e ∈ value) =>
        h.copied hp hself (hs.expr (Option.mem_toList.mpr he))
      exact h.locate (hvalue.bind fun code hcode => ends_ok (List.forall_mem_singleton.mpr hcode))
    | decl position vs =>
      rw [Lower.stmt]
      exact h.locate (h.localVariables hp hself fun v hv => hs.var hv)
    | expr position value =>
      rw [Lower.stmt]
      apply h.locate
      split
      · exact ends_ok (List.forall_mem_nil _)
      · exact (h.expr_ends hp hself (hs.expr List.mem_cons_self) false).bind fun code hcode =>
          ends_ok (List.forall_mem_singleton.mpr hcode)

theorem stmts (hself : Over p scope.self) {body : List Stmt} (hbody : ∀ s ∈ body, s.Spelled p) :
    Ends P (fun out => ∀ c ∈ out, c.Spelled p) (Lower.stmts env scope body) :=
  stmts_of_each fun s hs => h.stmt hp (hbody s hs) scope false hself

end Statements

section Units

variable {p : Char → Bool} (hp : AdmitsWords p)

include hp

section Params

variable {ps : List Param} (hps : ∀ q ∈ ps, q.Spelled p)

include hps

theorem paramsFrom (index : Nat) :
    Ends P (fun out => ∀ q ∈ out, Over p q.1 ∧ Over p q.2) (Lower.paramsFrom env index ps) := by
  induction ps generalizing index with
  | nil => exact ends_ok (List.forall_mem_nil _)
  | cons q ps ih =>
    rw [List.forall_mem_cons] at hps
    obtain ⟨hname, hclass⟩ := hps.1
    refine (h.locate (h.mapped hp hclass)).bind fun type htype => ?_
    refine (ih hps.2 (index + 1)).bind fun rest hrest => ends_ok ?_
    have hparam := Lower.identifier_over hp (Lower.paramName_over hp hname index)
    exact List.forall_mem_cons.mpr ⟨⟨htype, hparam⟩, hrest⟩

theorem params (variadic : Bool) :
    Ends P (fun out => ∀ q ∈ out, Over p q.1 ∧ Over p q.2) (Lower.params env ps variadic) := by
  refine (h.paramsFrom hp hps 0).bind fun fixed hfixed => ends_ok ?_
  refine List.forall_mem_append.mpr ⟨hfixed, ?_⟩
  split
  · exact List.forall_mem_singleton.mpr ⟨over_word hp rfl, over_word hp rfl⟩
  · exact List.forall_mem_nil _

theorem defaultArguments :
    Ends P (fun codes => ∀ c ∈ codes, c.Spelled p) (Lower.defaultArguments env ps) := by
  induction ps with
  | nil => exact ends_ok (List.forall_mem_nil _)
  | cons q ps ih =>
    rw [List.forall_mem_cons] at hps
    refine (h.locate (h.defaultValue hp hps.1.2)).bind fun value hvalue => ?_
    exact (ih hps.2).bind fun rest hrest => ends_ok (List.forall_mem_cons.mpr ⟨hvalue, hrest⟩)

end Params

theorem function {name : String} {d : FuncDecl} {body : List Stmt} (hd : d.Spelled p)
    (hbody : d.body = some body) (hname : Over p name) :
    Ends P (CodeFunction.Spelled p) (Lower.function env name d body) := by
  refine (h.mapped hp hd.result).bind fun result hresult => ?_
  refine (h.params hp hd.params d.variadic).bind fun params hparams => ?_
  have hthis : Over p "this" := over_word hp rfl
  refine (h.stmts hp hthis (hd.body body hbody)).bind fun code hcode => ?_
  exact ends_ok ⟨hresult, hname, hparams, hcode⟩

theorem method {d : MethodDecl} {body : List Stmt} (hd : d.Spelled p) (hbody : d.body = some body) :
    Ends P (CodeFunction.Spelled p) (Lower.method env d body) := by
  refine (h.mapped hp hd.result).bind fun result hresult => ?_
  refine (h.params hp hd.params false).bind fun params hparams => ?_
  refine (h.stmts hp ?_ (hd.body body hbody)).bind fun code hcode => ends_ok ?_
  · dsimp only
    split
    · exact Lower.identifier_over hp hd.owner
    · exact over_word hp rfl
  · exact ⟨hresult, Lower.selectorName_over hp hd.selector, hparams, hcode⟩

theorem methods {ms : List (MethodDecl × List Stmt)}
    (hms : ∀ m ∈ ms, m.1.Spelled p ∧ m.1.body = some m.2) :
    Ends P (fun fs => ∀ f ∈ fs, f.Spelled p) (Lower.methods env ms) := by
  induction ms with
  | nil => exact ends_ok (List.forall_mem_nil _)
  | cons q ms ih =>
    rw [List.forall_mem_cons] at hms
    refine (h.locate (h.method hp hms.1.1 hms.1.2)).bind fun first hfirst => ?_
    exact (ih hms.2).bind fun rest hrest => ends_ok (List.forall_mem_cons.mpr ⟨hfirst, hrest⟩)

theorem global {d : VarDecl} (hd : d.Spelled p) :
    Ends P (CodeItem.Spelled p) (Lower.global env d) := by
  have hname := Lower.identifier_over hp hd.name
  have hthis : Over p "this" := over_word hp rfl
  refine (h.mapped hp hd.type).bind fun type ht => ?_
  dsimp only
  split
  · rename_i init hinit
    refine (h.expr_ends hp hthis (hd.init init hinit) false).bind fun value hvalue => ?_
    exact ends_ok ⟨ht, hname, hvalue⟩
  · exact (h.defaultValue hp hd.type).bind fun value hvalue => ends_ok ⟨ht, hname, hvalue⟩

theorem item {i : Lower.Item} (hi : i.Spelled p) :
    Ends P (CodeItem.Spelled p) (Lower.item env i) := by
  cases i with
  | function d body =>
    obtain ⟨hd, hbody⟩ := hi
    apply h.locate
    split
    · refine (h.function hp hd hbody (over_word hp rfl)).bind fun inner hinner => ?_
      refine (h.defaultArguments hp hd.params).bind fun args hargs => ends_ok ?_
      refine ⟨hinner, List.forall_mem_append.mpr ⟨hargs, ?_⟩⟩
      split
      · exact List.forall_mem_singleton.mpr ⟨over_word hp rfl, trivial, trivial⟩
      · exact List.forall_mem_nil _
    · exact (h.function hp hd hbody (Lower.identifier_over hp hd.name)).bind fun f hf => ends_ok hf
  | «variable» d => exact h.locate (h.global hp hi)
  | «class» owner ms =>
    refine (h.methods hp hi.2).bind fun fs hfs => ends_ok ?_
    exact ⟨Lower.identifier_over hp hi.1, over_word hp rfl, hfs⟩

theorem items {is : List Lower.Item} (his : ∀ i ∈ is, i.Spelled p) :
    Ends P (fun out => ∀ i ∈ out, i.Spelled p) (Lower.items env is) := by
  induction is with
  | nil => exact ends_ok (List.forall_mem_nil _)
  | cons i is ih =>
    rw [List.forall_mem_cons] at his
    refine (h.item hp his.1).bind fun first hfirst => (ih his.2).bind fun rest hrest => ?_
    exact ends_ok (List.forall_mem_cons.mpr ⟨hfirst, hrest⟩)

/-- The items of a file are spelled as the declarations of the unit are. -/
theorem unit (package : String) {u : SourceUnit} (hu : ∀ d ∈ u.decls, d.Spelled p) :
    Ends P (fun file => ∀ i ∈ file.items, i.Spelled p) (Lower.unit env package u) := by
  have hplan : ∀ i ∈ Lower.plan u.decls, i.Spelled p :=
    fun i hi => Lower.spelled_of_planned hu (Lower.planned_of_mem_plan u.decls i hi)
  exact (h.items hp hplan).bind fun items hitems => ends_ok hitems

omit hp

/-- Whatever a run that was not stopped fails with is admitted. -/
theorem generate (package : String) (u : Option SourceUnit) :
    FailsOnly P (Lower.generate env package false u) := by
  cases u with
  | none => exact (h.report rfl : Ends P (fun _ => True) _).fails
  | some u =>
    rw [Lower.generate, Bool.false_and, if_neg Bool.false_ne_true]
    have hunit := h.unit (fun _ _ => rfl) package fun d (_ : d ∈ u.decls) => d.spelled_any
    exact hunit.fails.bind fun file => failsOnly_ok _

end Units

end Admits

/-- Nothing is asked of failures. -/
theorem admits_any (env : TypeEnv) : Admits (fun _ => True) env :=
  ⟨fun _ _ _ => trivial, fun _ _ _ => trivial, fun _ _ _ => trivial, fun _ _ _ _ _ _ _ _ => trivial⟩

theorem Lower.expr_yields {p : Char → Bool} (hp : AdmitsWords p) {env : TypeEnv} {scope : Scope}
    (hself : Over p scope.self) {e : Expr} (he : e.Spelled p) (peel : Bool) :
    Yields (Code.Spelled p) (expr env scope peel e) :=
  ((admits_any env).expr_ends hp hself he peel).yields

theorem Lower.unit_spelled {p : Char → Bool} (hp : AdmitsWords p) {env : TypeEnv} {package : String}
    {u : SourceUnit} {file : CodeFile} (hu : ∀ d ∈ u.decls, d.Spelled p)
    (h : unit env package u = .ok file) : ∀ i ∈ file.items, i.Spelled p :=
  ((admits_any env).unit hp package hu).yields file h

end DartLowering
