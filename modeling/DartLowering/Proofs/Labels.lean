import DartLowering.Proofs.Containment
import DartLowering.Proofs.EmissionFailures
import DartLowering.Proofs.RelabelledUnits

/-!
Relabellings that keep every type: only positions and the marks of explicit conversions are
replaced. Tables that answer all questions about types alike agree under each of them, and nothing
is asked of the types in a unit.
-/
namespace DartLowering

open Result

section Syntax

variable {ok : CType → Prop} (hok : ∀ t, ok t)

include hok

theorem Expr.typed (e : Expr) : e.Typed ok := by
  induction e using Expr.childInduction with
  | step e ih => exact ⟨fun t _ => hok t, ih⟩

theorem VarDecl.typed (v : VarDecl) : v.Typed ok := ⟨hok v.type, fun e _ => e.typed hok⟩

theorem Stmt.typed (s : Stmt) : s.Typed ok := by
  induction s using Stmt.childInduction with
  | step s ih =>
    exact ⟨fun e _ => e.typed hok, fun v _ => v.typed hok, fun c _ e _ => e.typed hok, ih⟩

theorem Decl.typed (d : Decl) : d.Typed ok := by
  cases d with
  | func d | method d => exact ⟨fun p _ => hok p.type, hok d.result, fun body _ s _ => s.typed hok⟩
  | var d => exact d.typed hok

end Syntax

section Unchanged

def unchanged : Relabelling := ⟨id, id, id⟩

theorem map_eq_self {α : Type} {f : α → α} {xs : List α} (h : ∀ x ∈ xs, f x = x) : xs.map f = xs :=
  (List.map_congr_left h).trans (List.map_id' xs)

theorem optionMap_eq_self {α : Type} {f : α → α} {x? : Option α} (h : ∀ x ∈ x?, f x = x) :
    x?.map f = x? := by
  cases x? with
  | none => rfl
  | some x => exact congrArg some (h x rfl)

theorem ExprInfo.relabel_unchanged (info : ExprInfo) : info.relabel unchanged = info := by
  obtain ⟨position, type, constant⟩ := info
  simp only [ExprInfo.relabel, unchanged, Option.map_id, id_eq]

theorem Expr.relabel_unchanged (e : Expr) : e.relabel unchanged = e := by
  induction e using Expr.childInduction with
  | step e ih =>
    cases e with
    | absent => rfl
    | int | float | string | ref => rw [Expr.relabel, ExprInfo.relabel_unchanged]
    | sizeOf info arg =>
      rw [Expr.relabel, info.relabel_unchanged]
      rfl
    | cast info kind operand isExplicit =>
      rw [Expr.relabel, info.relabel_unchanged, ih operand List.mem_cons_self]
      rfl
    | unary | member | listNext | binary | subscript | conditional =>
      simp only [Expr.children, List.forall_mem_cons] at ih
      simp only [Expr.relabel, ExprInfo.relabel_unchanged, ih]
    | call info callee args variadic builtin =>
      rw [Expr.children, List.forall_mem_cons] at ih
      rw [Expr.relabel, info.relabel_unchanged, relabelAll_eq_map, ih.1, map_eq_self ih.2]
    | message info receiver selector args =>
      rw [Expr.children, List.forall_mem_cons] at ih
      rw [Expr.relabel, info.relabel_unchanged, relabelAll_eq_map, ih.1, map_eq_self ih.2]
    | classMessage info className selector args =>
      rw [Expr.children] at ih
      rw [Expr.relabel, info.relabel_unchanged, relabelAll_eq_map, map_eq_self ih]

theorem VarDecl.relabel_unchanged (v : VarDecl) : v.relabel unchanged = v := by
  rw [VarDecl.relabel, optionMap_eq_self fun e _ => e.relabel_unchanged]
  rfl

theorem Stmt.relabel_unchanged (s : Stmt) : s.relabel unchanged = s := by
  have hoption : ∀ e? : Option Expr, e?.map (Expr.relabel unchanged) = e? :=
    fun e? => optionMap_eq_self fun e _ => e.relabel_unchanged
  induction s using Stmt.childInduction with
  | step s ih =>
    cases s with
    | brk | cont | null => rfl
    | expr position value =>
      rw [Stmt.relabel, value.relabel_unchanged]
      rfl
    | ret position value =>
      rw [Stmt.relabel, hoption]
      rfl
    | decl position vars =>
      rw [Stmt.relabel, map_eq_self fun v _ => v.relabel_unchanged]
      rfl
    | compound position body =>
      rw [Stmt.children] at ih
      rw [Stmt.relabel, Stmt.relabelAll_eq_map, map_eq_self ih]
      rfl
    | whileLoop position cond body =>
      rw [Stmt.relabel, cond.relabel_unchanged, ih body List.mem_cons_self]
      rfl
    | doLoop position body cond =>
      rw [Stmt.relabel, cond.relabel_unchanged, ih body List.mem_cons_self]
      rfl
    | ifElse position cond then_ else_ =>
      have helse : else_.map (Stmt.relabel unchanged) = else_ :=
        optionMap_eq_self fun t ht => ih t (List.mem_cons_of_mem _ (Option.mem_toList.mpr ht))
      rw [Stmt.relabel, Stmt.relabelOption_eq_map, cond.relabel_unchanged, helse,
        ih then_ List.mem_cons_self]
      rfl
    | forLoop position init cond inc body =>
      have hinit : init.map (Stmt.relabel unchanged) = init :=
        optionMap_eq_self fun t ht => ih t (List.mem_append_left _ (Option.mem_toList.mpr ht))
      rw [Stmt.relabel, Stmt.relabelOption_eq_map, hinit, hoption, hoption,
        ih body (List.mem_append_right _ List.mem_cons_self)]
      rfl
    | switch position cond cases =>
      have hcase : ∀ c ∈ cases, SwitchCase.relabel unchanged c = c := by
        intro c hc
        obtain ⟨place, label, body⟩ := c
        have hbody : body.map (Stmt.relabel unchanged) = body :=
          map_eq_self fun t ht => ih t (List.mem_flatMap.mpr ⟨_, hc, ht⟩)
        rw [SwitchCase.relabel, Stmt.relabelAll_eq_map, hbody, hoption]
        rfl
      rw [Stmt.relabel, SwitchCase.relabelAll_eq_map, cond.relabel_unchanged, map_eq_self hcase]
      rfl

theorem Decl.relabel_unchanged (d : Decl) : d.relabel unchanged = d := by
  have hparams : ∀ ps : List Param, ps.map (Param.relabel unchanged) = ps :=
    fun ps => map_eq_self fun _ _ => rfl
  have hbody : ∀ body? : Option (List Stmt), body?.map (Stmt.relabelAll unchanged) = body? := by
    intro body?
    refine optionMap_eq_self fun body _ => ?_
    rw [Stmt.relabelAll_eq_map, map_eq_self fun s _ => s.relabel_unchanged]
  cases d with
  | func d =>
    rw [Decl.relabel, FuncDecl.relabel, hparams, hbody]
    rfl
  | method d =>
    rw [Decl.relabel, MethodDecl.relabel, hparams, hbody]
    rfl
  | var d => rw [Decl.relabel, d.relabel_unchanged]

theorem SourceUnit.relabel_unchanged (u : SourceUnit) : u.relabel unchanged = u := by
  rw [SourceUnit.relabel, map_eq_self fun d _ => d.relabel_unchanged]

end Unchanged

namespace TypeEnv

/-- Both tables answer every question about types in the same way. -/
structure Same (env env' : TypeEnv) : Prop where
  passThrough : env'.passThrough = env.passThrough
  listRecord : env'.listRecord = env.listRecord
  find : ∀ tag, env'.records.find tag = env.records.find tag
  layoutOf : ∀ tag, env'.layoutOf tag = env.layoutOf tag

namespace Same

theorem refl (env : TypeEnv) : env.Same env := ⟨rfl, rfl, fun _ => rfl, fun _ => rfl⟩

variable {env env' : TypeEnv} (h : env.Same env')

include h

theorem isPassThrough (t : CType) : env'.isPassThrough t = env.isPassThrough t := by
  cases t with
  | record | «alias» => simp only [TypeEnv.isPassThrough, h.passThrough]
  | _ => rfl

theorem isListRecord (t : CType) : env'.isListRecord t = env.isListRecord t := by
  unfold TypeEnv.isListRecord
  rw [h.listRecord]

theorem mapType : ∀ t : CType, env'.mapType t = env.mapType t
  | .void | .scalar _ | .pointer _ | .functionPointer _ _ _ | .object _ | .function _ _ _ => rfl
  | .array elem length isVariable => by rw [TypeEnv.mapType, TypeEnv.mapType, h.isListRecord]
  | .record tag => by rw [TypeEnv.mapType, TypeEnv.mapType, h.isPassThrough]
  | .alias name t => by
    rw [TypeEnv.mapType, TypeEnv.mapType, h.isPassThrough, h.isPassThrough, mapType t]

theorem storageKind : ∀ t : CType, env'.storageKind t = env.storageKind t
  | .void | .scalar _ | .pointer _ | .functionPointer _ _ _ | .object _ | .function _ _ _
  | .array _ _ _ => rfl
  | .record tag => by rw [TypeEnv.storageKind, TypeEnv.storageKind, h.isPassThrough]
  | .alias name t => by
    rw [TypeEnv.storageKind, TypeEnv.storageKind, h.isPassThrough, h.isPassThrough, storageKind t]

theorem sizeOf : ∀ t : CType, env'.sizeOf t = env.sizeOf t
  | .void | .scalar _ | .pointer _ | .functionPointer _ _ _ | .object _ | .function _ _ _ => rfl
  | .array elem length isVariable => by
    rw [TypeEnv.sizeOf.eq_def env', TypeEnv.sizeOf.eq_def env]
    dsimp only
    rw [sizeOf elem]
  | .record tag => by rw [TypeEnv.sizeOf, TypeEnv.sizeOf, h.layoutOf]
  | .alias name t => sizeOf t

theorem extent (t : CType) : env'.extent t = env.extent t :=
  t.extent_congr fun tag _ => h.layoutOf tag

/-- Such tables agree under every relabelling that keeps types, where `F` relates failures that
differ in their places only. -/
theorem agrees {m : Relabelling} {F : Failure → Failure → Prop} (hm : m.type = id)
    (same : ∀ f, F f f) (located : ∀ p f g, F f g → F (f.locate p) (g.locate (m.place p)))
    (moved : ∀ c p, F (.report c p none) (.report c (m.place p) none)) :
    Agrees m (fun _ => True) F env env' where
  structural := by
    constructor
    · intro t ht
      rw [hm]
      cases t with
      | functionPointer | function => simp only [CType.mapParts, List.map_id, id_eq]
      | _ => rfl
    · intro name t
      rw [hm]
      rfl
  same := same
  located := located
  reported cause p t := by
    rw [hm, Option.map_id]
    exact moved _ p
  ok_unalias _ _ := trivial
  ok_pointee _ _ := trivial
  mapType t _ := by
    rw [hm, id_eq, h.mapType]
    exact .refl same _
  storageKind t _ := by
    rw [hm, id_eq, h.storageKind]
    exact .refl same _
  sizeOf t _ := by
    rw [hm, id_eq, h.sizeOf]
    exact .refl same _
  extent t _ := by rw [hm, id_eq, h.extent]
  passThrough t _ := by rw [hm, id_eq, h.isPassThrough]
  field tag name := by
    have hfield : Field.relabel m = id := by
      funext f
      rw [Field.relabel, hm]
      rfl
    rw [h.find, hfield, Option.map_id]
    rfl
  ok_field _ _ _ _ := trivial
  layout tag := by
    rw [h.layoutOf]
    exact (Alike.refl same _).imp fun l l' hl name => by rw [hl]

theorem agrees_unchanged : Agrees unchanged (fun _ => True) Eq env env' :=
  h.agrees rfl (fun _ => rfl) (fun p _ _ hfg => congrArg (Failure.locate p) hfg) fun _ _ => rfl

theorem constant? (e : Expr) : env'.constant? e = env.constant? e := by
  have hconstant := h.agrees_unchanged.constant (e.typed fun _ => trivial)
  rwa [e.relabel_unchanged] at hconstant

theorem generate (package : String) (cancelled : Bool) (u : Option SourceUnit) :
    Lower.generate env' package cancelled u = Lower.generate env package cancelled u := by
  cases u with
  | none => rfl
  | some u =>
    have htyped : ∀ d ∈ u.decls, d.Typed fun _ => True :=
      fun d _ => d.typed fun _ => trivial
    have halike := h.agrees_unchanged.generate htyped package cancelled
    rw [u.relabel_unchanged] at halike
    exact halike.eq.symm

end Same

end TypeEnv

end DartLowering
