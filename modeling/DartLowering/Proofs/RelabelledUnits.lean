import DartLowering.Proofs.RelabelledRuns

/-!
Statements, declarations and whole units under a relabelling: where the type tables of two runs
agree, both runs give the same text for a unit and what it is relabelled to, or both fail.
-/
namespace DartLowering

open Result

/-- The types of the variable and of its first value satisfy `ok`. -/
structure VarDecl.Typed (ok : CType → Prop) (v : VarDecl) : Prop where
  type : ok v.type
  init : ∀ e, v.init = some e → e.Typed ok

inductive Stmt.Typed (ok : CType → Prop) : Stmt → Prop
  | mk {s : Stmt} (exprs : ∀ e ∈ s.exprs, e.Typed ok) (vars : ∀ v ∈ s.vars, v.Typed ok)
      (labels : ∀ c ∈ s.cases, ∀ e, c.label = some e → e.Typed ok)
      (children : ∀ t ∈ s.children, t.Typed ok) : s.Typed ok

structure FuncDecl.Typed (ok : CType → Prop) (d : FuncDecl) : Prop where
  params : ∀ p ∈ d.params, ok p.type
  result : ok d.result
  body : ∀ body, d.body = some body → ∀ s ∈ body, s.Typed ok

structure MethodDecl.Typed (ok : CType → Prop) (d : MethodDecl) : Prop where
  params : ∀ p ∈ d.params, ok p.type
  result : ok d.result
  body : ∀ body, d.body = some body → ∀ s ∈ body, s.Typed ok

/-- Every type in the declaration satisfies `ok`. -/
def Decl.Typed (ok : CType → Prop) : Decl → Prop
  | .func d => d.Typed ok
  | .method d => d.Typed ok
  | .var d => d.Typed ok

theorem Stmt.branch_relabel (m : Relabelling) (s : Stmt) : (s.relabel m).branch = s.branch := by
  funext code
  cases s <;> rfl

namespace Agrees

variable {m : Relabelling} {ok : CType → Prop} {F : Failure → Failure → Prop} {env env' : TypeEnv}
  (h : Agrees m ok F env env') {scope : Lower.Scope}

include h

section Statements

theorem condition {e : Expr} (he : e.Typed ok) :
    Alike F Eq (Lower.condition env scope e) (Lower.condition env' scope (e.relabel m)) := by
  refine (h.expr he false).bind_eq fun code => ?_
  rw [h.asCondition he]
  exact .ok rfl

theorem copied {e : Expr} (he : e.Typed ok) :
    Alike F Eq (Lower.copied env scope e) (Lower.copied env' scope (e.relabel m)) := by
  refine (h.expr he false).bind_eq fun code => ?_
  rw [h.asCopy he]
  exact .ok rfl

omit h in
theorem onOption {f g : Expr → Result Code} {e? : Option Expr}
    (hfg : ∀ e ∈ e?, Alike F Eq (f e) (g (e.relabel m))) :
    Alike F Eq (Lower.onOption f e?) (Lower.onOption g (e?.map (Expr.relabel m))) := by
  cases e? with
  | none => exact .ok rfl
  | some e => exact (hfg e rfl).bind_eq fun code => .ok rfl

theorem caseValue (position : Position) {label : Expr} (hlabel : label.Typed ok) :
    Alike F Eq (Lower.caseValue env position label)
      (Lower.caseValue env' (m.place position) (label.relabel m)) := by
  unfold Lower.caseValue
  rw [h.constant hlabel]
  cases env.constant? label with
  | some v => exact .ok rfl
  | none => exact .error (h.reported (fun _ => .nonConstantCase) position none)

theorem defaultValue {t : CType} (ht : ok t) :
    Alike F Eq (Lower.defaultValue env t) (Lower.defaultValue env' (m.type t)) := by
  have hvalue : Lower.isValue env' (some (m.type t)) = Lower.isValue env (some t) :=
    h.isValue fun u hu => Option.some.inj hu ▸ ht
  refine (h.mapType t ht).bind_eq fun type => ?_
  rw [hvalue]
  split
  · exact .ok rfl
  · -- how much memory is owned depends on the head of the type only
    have hlocal : ∀ sized : Bool, Alike F Eq
        (if type = Wrapper.composite || (type = Wrapper.pointer && sized) then do
          let size ← env.sizeOf t
          .ok (Lower.onClass type "local" [.int size])
        else .ok (Lower.onClass type "local" []))
        (if type = Wrapper.composite || (type = Wrapper.pointer && sized) then do
          let size ← env'.sizeOf (m.type t)
          .ok (Lower.onClass type "local" [.int size])
        else .ok (Lower.onClass type "local" [])) := by
      intro sized
      split
      · exact (h.sizeOf t ht).bind_eq fun size => .ok rfl
      · exact .ok rfl
    rw [h.structural.unalias]
    cases t.unalias with
    | array elem length isVariable => cases length <;> exact hlocal _
    | _ => exact hlocal false

theorem localVariable {v : VarDecl} (hv : v.Typed ok) :
    Alike F Eq (Lower.localVariable env scope v)
      (Lower.localVariable env' scope (v.relabel m)) := by
  refine (h.mapType v.type hv.type).bind_eq fun type => ?_
  dsimp only [VarDecl.relabel]
  cases hinit : v.init with
  | none => exact (h.defaultValue hv.type).bind_eq fun value => .ok rfl
  | some init => exact (h.copied (hv.init init hinit)).bind_eq fun value => .ok rfl

theorem localVariables {vs : List VarDecl} (hvs : ∀ v ∈ vs, v.Typed ok) :
    Alike F Eq (Lower.localVariables env scope vs)
      (Lower.localVariables env' scope (vs.map (VarDecl.relabel m))) := by
  induction vs with
  | nil => exact .ok rfl
  | cons v vs ih =>
    rw [List.forall_mem_cons] at hvs
    refine ((h.localVariable hvs.1).locate (h.located v.position)).bind_eq fun var => ?_
    exact (ih hvs.2).bind_eq fun rest => .ok rfl

theorem moreDeclarators {first : String} {vs : List VarDecl} (hvs : ∀ v ∈ vs, v.Typed ok) :
    Alike F Eq (Lower.moreDeclarators env scope first vs)
      (Lower.moreDeclarators env' scope first (vs.map (VarDecl.relabel m))) := by
  induction vs with
  | nil => exact .ok rfl
  | cons v vs ih =>
    rw [List.forall_mem_cons] at hvs
    refine ((h.mapType v.type hvs.1.type).locate (h.located v.position)).bind_eq fun type => ?_
    split
    · exact .error
        (h.reported (fun _ => .unsupported (.mixedDeclarators first type)) v.position none)
    · refine ((h.localVariable hvs.1).locate (h.located v.position)).bind_eq fun var => ?_
      exact (ih hvs.2).bind_eq fun rest => .ok rfl

theorem loopStart (position : Position) {init : Option Stmt} (hinit : ∀ s ∈ init, s.Typed ok) :
    Alike F Eq (Lower.loopStart env scope position init)
      (Lower.loopStart env' scope (m.place position) (init.map (Stmt.relabel m))) := by
  cases init with
  | none => exact .ok rfl
  | some s =>
    obtain ⟨exprs, vars, -, -⟩ := hinit s rfl
    cases s with
    | decl p vs =>
      cases vs with
      | nil => exact .ok rfl
      | cons v vs =>
        obtain ⟨hv, hvs⟩ := List.forall_mem_cons.mp vars
        refine ((h.localVariable hv).locate (h.located v.position)).bind_eq fun var => ?_
        exact (h.moreDeclarators hvs).bind_eq fun rest => .ok rfl
    | expr p value =>
      exact (h.expr (exprs value List.mem_cons_self) false).bind_eq fun code => .ok rfl
    | _ =>
      exact .error (h.reported (fun _ => .violation (.loopInitializer _)) position none)

omit h in
/-- Statements of a list, the code of each of them given. -/
theorem stmts_of_each {body : List Stmt}
    (ih : ∀ s ∈ body, Alike F Eq (Lower.stmt env scope false s)
      (Lower.stmt env' scope false (s.relabel m))) :
    Alike F Eq (Lower.stmts env scope body)
      (Lower.stmts env' scope (body.map (Stmt.relabel m))) := by
  induction body with
  | nil => exact .ok rfl
  | cons s ss ihs =>
    rw [List.forall_mem_cons] at ih
    rw [List.map_cons, Lower.stmts, Lower.stmts]
    exact ih.1.bind_eq fun first => (ihs ih.2).bind_eq fun rest => .ok rfl

omit h in
theorem elseBranch_of_each {else_ : Option Stmt}
    (ih : ∀ s ∈ else_, Alike F Eq (Lower.stmt env scope true s)
      (Lower.stmt env' scope true (s.relabel m))) :
    Alike F Eq (Lower.elseBranch env scope else_)
      (Lower.elseBranch env' scope (else_.map (Stmt.relabel m))) := by
  cases else_ with
  | none =>
    rw [Option.map_none, Lower.elseBranch, Lower.elseBranch]
    exact .ok rfl
  | some s =>
    rw [Option.map_some, Lower.elseBranch_some, Lower.elseBranch_some, s.branch_relabel]
    exact (ih s rfl).bind_eq fun code => .ok rfl

section Cases

variable {cs : List SwitchCase} (labels : List Nat)
  (ih : ∀ c ∈ cs, ∀ s ∈ c.body,
    Alike F Eq (Lower.stmt env { scope with switchDepth := scope.switchDepth + 1 } false s)
      (Lower.stmt env' { scope with switchDepth := scope.switchDepth + 1 } false (s.relabel m)))

include ih

theorem explicitCases (hlabels : ∀ c ∈ cs, ∀ e, c.label = some e → e.Typed ok) :
    Alike F Eq (Lower.explicitCases env scope labels cs)
      (Lower.explicitCases env' scope labels (cs.map (SwitchCase.relabel m))) := by
  induction cs generalizing labels with
  | nil =>
    simp only [List.map_nil, Lower.explicitCases]
    exact .ok rfl
  | cons c cs ihs =>
    rw [List.forall_mem_cons] at ih hlabels
    obtain ⟨position, label, body⟩ := c
    simp only [List.map_cons, SwitchCase.relabel, Stmt.relabelAll_eq_map]
    cases labels with
    | nil =>
      simp only [Lower.explicitCases]
      exact .ok rfl
    | cons first following =>
      cases label with
      | none =>
        simp only [Option.map_none, Lower.explicitCases]
        exact ihs following ih.2 hlabels.2
      | some value =>
        simp only [Option.map_some, Lower.explicitCases, Lower.caseExit_relabel]
        refine (h.caseValue position (hlabels.1 value rfl)).bind_eq fun v => ?_
        refine ((stmts_of_each ih.1).locate (h.located position)).bind_eq fun code => ?_
        exact (ihs following ih.2 hlabels.2).bind_eq fun rest => .ok rfl

theorem defaultCases : Alike F Eq (Lower.defaultCases env scope labels cs)
    (Lower.defaultCases env' scope labels (cs.map (SwitchCase.relabel m))) := by
  induction cs generalizing labels with
  | nil =>
    simp only [List.map_nil, Lower.defaultCases]
    exact .ok rfl
  | cons c cs ihs =>
    rw [List.forall_mem_cons] at ih
    obtain ⟨position, label, body⟩ := c
    simp only [List.map_cons, SwitchCase.relabel, Stmt.relabelAll_eq_map]
    cases labels with
    | nil =>
      simp only [Lower.defaultCases]
      exact .ok rfl
    | cons first following =>
      cases label with
      | some value =>
        simp only [Option.map_some, Lower.defaultCases]
        exact ihs following ih.2
      | none =>
        simp only [Option.map_none, Lower.defaultCases, Lower.caseExit_relabel]
        refine ((stmts_of_each ih.1).locate (h.located position)).bind_eq fun code => ?_
        exact (ihs following ih.2).bind_eq fun rest => .ok rfl

end Cases

/-- Both runs give the same code for a statement, or both give none. -/
theorem stmt {s : Stmt} (hs : s.Typed ok) : ∀ (scope : Lower.Scope) (inBlock : Bool),
    Alike F Eq (Lower.stmt env scope inBlock s) (Lower.stmt env' scope inBlock (s.relabel m)) := by
  induction hs with
  | @mk s exprs vars labels children ih =>
    intro scope inBlock
    cases s with
    | compound position body =>
      have hbody := stmts_of_each fun t ht => ih t ht scope false
      rw [Stmt.relabel, Stmt.relabelAll_eq_map, Lower.stmt, Lower.stmt]
      split
      · exact hbody
      · exact (hbody.bind_eq fun code => .ok rfl).locate (h.located position)
    | ifElse position cond then_ else_ =>
      rw [Stmt.relabel, Stmt.relabelOption_eq_map, Lower.stmt, Lower.stmt]
      refine Alike.locate ?_ (h.located position)
      refine (h.condition (exprs cond List.mem_cons_self)).bind_eq fun test => ?_
      refine (ih then_ List.mem_cons_self scope true).bind_eq fun body => ?_
      refine (elseBranch_of_each fun t ht => ?_).bind_eq fun rest => .ok rfl
      exact ih t (List.mem_cons_of_mem _ (Option.mem_toList.mpr ht)) scope true
    | whileLoop position cond body =>
      rw [Stmt.relabel, Lower.stmt, Lower.stmt]
      refine Alike.locate ?_ (h.located position)
      refine (h.condition (exprs cond List.mem_cons_self)).bind_eq fun test => ?_
      exact (ih body List.mem_cons_self scope true).bind_eq fun code => .ok rfl
    | doLoop position body cond =>
      rw [Stmt.relabel, Lower.stmt, Lower.stmt]
      refine Alike.locate ?_ (h.located position)
      refine (ih body List.mem_cons_self scope true).bind_eq fun code => ?_
      exact (h.condition (exprs cond List.mem_cons_self)).bind_eq fun test => .ok rfl
    | forLoop position init cond inc body =>
      rw [Stmt.relabel, Stmt.relabelOption_eq_map, Lower.stmt, Lower.stmt]
      refine Alike.locate ?_ (h.located position)
      have hinit : ∀ t ∈ init, t.Typed ok := fun t ht =>
        children t (List.mem_append_left _ (Option.mem_toList.mpr ht))
      have hcond : ∀ e ∈ cond, e.Typed ok := fun e he =>
        exprs e (List.mem_append_left _ (Option.mem_toList.mpr he))
      have hinc : ∀ e ∈ inc, e.Typed ok := fun e he =>
        exprs e (List.mem_append_right _ (Option.mem_toList.mpr he))
      refine (h.loopStart position hinit).bind_eq fun start => ?_
      refine (onOption fun e he => h.condition (hcond e he)).bind_eq fun test => ?_
      refine (onOption fun e he => h.expr (hinc e he) false).bind_eq fun step => ?_
      refine (ih body ?_ scope true).bind_eq fun code => .ok rfl
      exact List.mem_append_right _ List.mem_cons_self
    | switch position cond cases =>
      have hcond : cond.Typed ok := exprs cond List.mem_cons_self
      have hbodies := fun c (hc : c ∈ cases) t (ht : t ∈ c.body) =>
        ih t (List.mem_flatMap.mpr ⟨c, hc, ht⟩)
          { scope with switchDepth := scope.switchDepth + 1 } false
      rw [Stmt.relabel, SwitchCase.relabelAll_eq_map, Lower.stmt, Lower.stmt,
        Lower.secondDefault?_relabel, Lower.caseLabels_relabel]
      refine Alike.locate ?_ (h.located position)
      cases Lower.secondDefault? cases with
      | some c =>
        obtain ⟨place, label, body⟩ := c
        exact .error (h.reported (fun _ => .violation .manyDefaults) place none)
      | none =>
        refine (h.expr hcond false).bind_eq fun subject => ?_
        refine (h.explicitCases _ hbodies labels).bind_eq fun explicit => ?_
        refine (h.defaultCases _ hbodies).bind_eq fun default => ?_
        rw [h.asReceiver hcond]
        exact .ok rfl
    | brk | cont | null =>
      rw [Stmt.relabel, Lower.stmt, Lower.stmt]
      exact .ok rfl
    | ret position value =>
      rw [Stmt.relabel, Lower.stmt, Lower.stmt]
      refine Alike.locate ?_ (h.located position)
      refine (onOption fun e he => ?_).bind_eq fun code => .ok rfl
      exact h.copied (exprs e (Option.mem_toList.mpr he))
    | decl position vs =>
      rw [Stmt.relabel, Lower.stmt, Lower.stmt]
      exact (h.localVariables vars).locate (h.located position)
    | expr position value =>
      rw [Stmt.relabel, Lower.stmt, Lower.stmt, isListEnd_relabel]
      refine Alike.locate ?_ (h.located position)
      split
      · exact .ok rfl
      · exact (h.expr (exprs value List.mem_cons_self) false).bind_eq fun code => .ok rfl

theorem stmts {body : List Stmt} (hbody : ∀ s ∈ body, s.Typed ok) :
    Alike F Eq (Lower.stmts env scope body)
      (Lower.stmts env' scope (body.map (Stmt.relabel m))) :=
  stmts_of_each fun s hs => h.stmt (hbody s hs) scope false

end Statements

section Units

theorem paramsFrom {index : Nat} {ps : List Param} (hps : ∀ p ∈ ps, ok p.type) :
    Alike F Eq (Lower.paramsFrom env index ps)
      (Lower.paramsFrom env' index (ps.map (Param.relabel m))) := by
  induction ps generalizing index with
  | nil => exact .ok rfl
  | cons p ps ih =>
    rw [List.forall_mem_cons] at hps
    refine ((h.mapType p.type hps.1).locate (h.located p.position)).bind_eq fun type => ?_
    exact (ih hps.2).bind_eq fun rest => .ok rfl

theorem params {ps : List Param} (hps : ∀ p ∈ ps, ok p.type) (variadic : Bool) :
    Alike F Eq (Lower.params env ps variadic)
      (Lower.params env' (ps.map (Param.relabel m)) variadic) :=
  (h.paramsFrom hps).bind_eq fun _ => .ok rfl

theorem defaultArguments {ps : List Param} (hps : ∀ p ∈ ps, ok p.type) :
    Alike F Eq (Lower.defaultArguments env ps)
      (Lower.defaultArguments env' (ps.map (Param.relabel m))) := by
  induction ps with
  | nil => exact .ok rfl
  | cons p ps ih =>
    rw [List.forall_mem_cons] at hps
    refine ((h.defaultValue hps.1).locate (h.located p.position)).bind_eq fun value => ?_
    exact (ih hps.2).bind_eq fun rest => .ok rfl

theorem function {name : String} {d : FuncDecl} {body : List Stmt} (hd : d.Typed ok)
    (hbody : d.body = some body) :
    Alike F Eq (Lower.function env name d body)
      (Lower.function env' name (d.relabel m) (body.map (Stmt.relabel m))) := by
  refine (h.mapType d.result hd.result).bind_eq fun result => ?_
  refine (h.params hd.params d.variadic).bind_eq fun params => ?_
  exact (h.stmts (hd.body body hbody)).bind_eq fun code => .ok rfl

theorem method {d : MethodDecl} {body : List Stmt} (hd : d.Typed ok) (hbody : d.body = some body) :
    Alike F Eq (Lower.method env d body)
      (Lower.method env' (d.relabel m) (body.map (Stmt.relabel m))) := by
  refine (h.mapType d.result hd.result).bind_eq fun result => ?_
  refine (h.params hd.params false).bind_eq fun params => ?_
  exact (h.stmts (hd.body body hbody)).bind_eq fun code => .ok rfl

theorem methods {ms : List (MethodDecl × List Stmt)}
    (hms : ∀ q ∈ ms, q.1.Typed ok ∧ q.1.body = some q.2) :
    Alike F Eq (Lower.methods env ms) (Lower.methods env'
      (ms.map fun q => (q.1.relabel m, q.2.map (Stmt.relabel m)))) := by
  induction ms with
  | nil => exact .ok rfl
  | cons q ms ih =>
    rw [List.forall_mem_cons] at hms
    refine ((h.method hms.1.1 hms.1.2).locate (h.located q.1.position)).bind_eq fun first => ?_
    exact (ih hms.2).bind_eq fun rest => .ok rfl

theorem global {d : VarDecl} (hd : d.Typed ok) :
    Alike F Eq (Lower.global env d) (Lower.global env' (d.relabel m)) := by
  refine (h.mapType d.type hd.type).bind_eq fun type => ?_
  dsimp only [VarDecl.relabel]
  cases hinit : d.init with
  | none => exact (h.defaultValue hd.type).bind_eq fun value => .ok rfl
  | some init => exact (h.expr (hd.init init hinit) false).bind_eq fun value => .ok rfl

theorem item {i : Lower.Item} {ds : List Decl} (hds : ∀ d ∈ ds, d.Typed ok) (hi : i.Planned ds) :
    Alike F Eq (Lower.item env i) (Lower.item env' (i.relabel m)) := by
  cases i with
  | function d body =>
    obtain ⟨hmem, hbody⟩ := hi
    have hd : d.Typed ok := hds _ hmem
    refine Alike.locate ?_ (h.located d.position)
    by_cases hentry : d.entry = true
    · have hentry' : (d.relabel m).entry = true := hentry
      rw [if_pos hentry, if_pos hentry']
      refine (h.function hd hbody).bind_eq fun inner => ?_
      exact (h.defaultArguments hd.params).bind_eq fun args => .ok rfl
    · have hentry' : ¬(d.relabel m).entry = true := hentry
      rw [if_neg hentry, if_neg hentry']
      exact (h.function hd hbody).bind_eq fun f => .ok rfl
  | «variable» d => exact (h.global (hds _ hi)).locate (h.located d.position)
  | «class» owner ms =>
    refine (h.methods fun q hq => ?_).bind_eq fun fs => .ok rfl
    obtain ⟨hmem, -, hbody⟩ := hi.2 q hq
    exact ⟨hds _ hmem, hbody⟩

theorem items {is : List Lower.Item} {ds : List Decl} (hds : ∀ d ∈ ds, d.Typed ok)
    (his : ∀ i ∈ is, i.Planned ds) :
    Alike F Eq (Lower.items env is) (Lower.items env' (is.map (Lower.Item.relabel m))) := by
  induction is with
  | nil => exact .ok rfl
  | cons i is ih =>
    rw [List.forall_mem_cons] at his
    exact (h.item hds his.1).bind_eq fun first => (ih his.2).bind_eq fun rest => .ok rfl

/-- Both runs give the same text for a unit, or both fail. -/
theorem generate {u : SourceUnit} (hu : ∀ d ∈ u.decls, d.Typed ok) (package : String)
    (cancelled : Bool) : Alike F Eq (Lower.generate env package cancelled (some u))
      (Lower.generate env' package cancelled (some (u.relabel m))) := by
  have hplan : Lower.plan (u.relabel m).decls = (Lower.plan u.decls).map (Lower.Item.relabel m) :=
    Lower.planFrom_relabel [] u.decls
  have hitems := h.items hu (Lower.planned_of_mem_plan u.decls)
  unfold Lower.generate Lower.unit
  dsimp only
  rw [hplan, List.isEmpty_map]
  split
  · exact .error (h.same _)
  · exact (hitems.bind_eq fun items => .ok rfl).bind_eq fun file => .ok rfl

end Units

end Agrees

end DartLowering
