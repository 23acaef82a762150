import DartLowering.Emit.Unit
import DartLowering.Proofs.UpheldLayouts
import DartLowering.Proofs.WritingLaws

/-!
How writing fails. What `Admits` says of emission holds of the writing that asks for layouts as it
goes, over any table and from any layouts of the table that were kept: each piece of it keeps
layouts of the table only, and fails only with what is admitted.
-/
namespace DartLowering

open Result

namespace Writing

variable {α : Type} {env : TypeEnv} {P : Failure → Prop} {Q : α → Prop}

/-- The writing yields values with `Q` only and keeps layouts of the table only. -/
abbrev Upholds (env : TypeEnv) (P : Failure → Prop) (Q : α → Prop) (m : Writing α) : Prop :=
  Run.Upholds (fun d => d.layouts.Computed env) P Q m

abbrev Keeps (env : TypeEnv) (P : Failure → Prop) (m : Writing α) : Prop :=
  Run.Keeps (fun d => d.layouts.Computed env) P m

theorem upholds_ask {m : Lookup α} (hm : Lookup.Upholds env P Q m) : Upholds env P Q (ask m) := by
  intro d hd r d' h
  obtain ⟨⟨outcome, layouts⟩, hrun, hr⟩ := Option.map_eq_some_iff.mp h
  cases hr
  exact hm d.layouts hd _ layouts hrun

theorem keeps_ask {m : Lookup α} (hm : Lookup.Upholds env P Q m) : Keeps env P (ask m) :=
  .of (upholds_ask hm)

theorem keeps_print (s : String) : Keeps env P (print s) := by
  intro d hd r d' h
  cases h
  exact ⟨hd, failsOnly_ok _, yields_ok trivial⟩

theorem keeps_newline : Keeps env P newline := by
  intro d hd r d' h
  cases h
  exact ⟨hd, failsOnly_ok _, yields_ok trivial⟩

theorem keeps_line (s : String) : Keeps env P (line s) :=
  (keeps_print s).then_ fun _ => keeps_newline

theorem keeps_deeper {m : Writing Unit} (hm : Keeps env P m) : Keeps env P (deeper m) := by
  intro d hd r d' h
  obtain ⟨⟨outcome, d''⟩, hrun, hr⟩ := Option.map_eq_some_iff.mp h
  cases hr
  exact hm { d with writer := d.writer.deeper } hd _ d'' hrun

theorem keeps_comma (i : Nat) : Keeps env P (comma i) := by
  unfold comma
  split
  · exact keeps_print _
  · exact .pure ()

end Writing

namespace AdmitsLookups

open Emit Writing

variable {P : Failure → Prop} {env : TypeEnv} (h : AdmitsLookups P env) {scope : Lower.Scope}
  {e : Expr} {m : Writing Unit}

/-- Keeping layouts of the table is a law, for texts of any characters. -/
def law : LineLaw env P fun _ => true where
  Holds := Upholds env P
  admits := h.toAdmits
  lines _ _ := rfl
  result := .ofResult
  brokenOff := .brokenOff
  bind := .bind
  locate position hm := hm.locate h.located position
  text _ := keeps_print _
  constant e := keeps_ask (h.lookupConstant e)
  size t := keeps_ask (h.lookupSize t)
  layout tag := (upholds_ask (h.lookupLayout tag)).imp fun l hl field f position hf hnone =>
    h.unplaced tag field f l position hf hl hnone
  newline := keeps_newline
  deeper := keeps_deeper

include h

theorem locate_keeps {p : Position} {α : Type} {m : Writing α} (hm : Keeps env P m) :
    Keeps env P (m.locate p) :=
  h.law.locate p hm

theorem receiver_keeps (hm : Keeps env P m) : Keeps env P (receiver env e m) :=
  receiver_holds (L := h.law.toTextLaw) hm

theorem access_keeps (position : Position) (t : Option CType) (field : String) :
    Keeps env P (access env position t field) :=
  .of (access_holds h.law.toLaw position t field)

theorem expr_keeps (e : Expr) (peel : Bool) : Keeps env P (expr env scope peel e) :=
  expr_holds h.law.toTextLaw (fun _ _ => rfl) e.spelled_any peel

theorem defaultValue_keeps (t : CType) : Keeps env P (Emit.defaultValue env t) :=
  defaultValue_holds h.law.toTextLaw fun _ _ _ _ => rfl

section Units

theorem paramsFrom_keeps (i : Nat) (ps : List Param) :
    Keeps env P (Emit.paramsFrom env scope i ps) := by
  induction ps generalizing i with
  | nil => exact .pure ()
  | cons p ps ih =>
    refine (keeps_comma i).then_ fun _ => ?_
    have hdeclared : Keeps env P
        (declaration env scope (Lower.paramName p.name i) p.type none .noInit) :=
      declaration_holds h.law.toTextLaw (fun _ _ => rfl)
        (VarDecl.spelled_any ⟨{}, _, p.type, none⟩) _
    exact (h.locate_keeps hdeclared).then_ fun _ => ih (i + 1)

theorem function_keeps (outer : Lower.Scope) (name : String) (ps : List Param) (variadic : Bool)
    (body : List Stmt) : Keeps env P (Emit.function env outer scope name ps variadic body) := by
  have hbody : Lines h.law false (stmts env scope body) :=
    stmts_lines (fun _ _ => rfl) fun s _ => s.spelled_any
  have hparams : Keeps env P (Emit.params env outer ps variadic) := by
    refine (h.paramsFrom_keeps 0 ps).then_ fun _ => ?_
    split
    · exact (keeps_comma _).then_ fun _ => keeps_print _
    · exact .pure ()
  refine (keeps_print _).then_ fun _ => hparams.then_ fun _ => (keeps_print _).then_ fun _ => ?_
  exact block_holds hbody.always

theorem defaultArgumentsFrom_keeps (i : Nat) (ps : List Param) :
    Keeps env P (defaultArgumentsFrom env i ps) := by
  induction ps generalizing i with
  | nil => exact .pure ()
  | cons p ps ih =>
    refine (keeps_comma i).then_ fun _ => ?_
    exact (h.locate_keeps (h.defaultValue_keeps p.type)).then_ fun _ => ih (i + 1)

theorem entryPoint_keeps (d : FuncDecl) (body : List Stmt) :
    Keeps env P (entryPoint env d body) := by
  have hnone : Keeps env P (noVarArgs d) := by
    unfold noVarArgs
    split
    · exact (keeps_comma _).then_ fun _ => keeps_print _
    · exact .pure ()
  refine (Run.Keeps.ofResult (h.mapType d.result)).then_ fun result => ?_
  refine (keeps_line _).then_ fun _ => (keeps_deeper ?_).then_ fun _ => keeps_line _
  refine (keeps_print _).then_ fun _ => ?_
  refine (h.function_keeps {} Lower.entryInner d.params d.variadic body).then_ fun _ => ?_
  refine keeps_newline.then_ fun _ => (keeps_print _).then_ fun _ => ?_
  refine (h.defaultArgumentsFrom_keeps 0 d.params).then_ fun _ => ?_
  exact hnone.then_ fun _ => keeps_line _

theorem funcDecl_keeps (d : FuncDecl) (body : List Stmt) : Keeps env P (funcDecl env d body) := by
  unfold funcDecl
  split
  · exact h.entryPoint_keeps d body
  · refine (Run.Keeps.ofResult (h.mapType d.result)).then_ fun result => ?_
    refine (keeps_print _).then_ fun _ => ?_
    exact (h.function_keeps {} _ d.params d.variadic body).then_ fun _ => keeps_newline

theorem method_keeps (d : MethodDecl) (body : List Stmt) :
    Keeps env P (Emit.method env d body) := by
  refine (Run.Keeps.ofResult (h.mapType d.result)).then_ fun result => ?_
  refine (keeps_print _).then_ fun _ => (keeps_print _).then_ fun _ => ?_
  exact (h.function_keeps {} _ d.params false body).then_ fun _ => keeps_newline

omit h in
theorem emptyLine_keeps (i : Nat) : Keeps env P (emptyLine i) := by
  unfold emptyLine
  split
  · exact keeps_newline
  · exact .pure ()

theorem methodsFrom_keeps (i : Nat) (ms : List (MethodDecl × List Stmt)) :
    Keeps env P (methodsFrom env i ms) := by
  induction ms generalizing i with
  | nil => exact .pure ()
  | cons q ms ih =>
    refine (emptyLine_keeps i).then_ fun _ => ?_
    exact (h.locate_keeps (h.method_keeps q.1 q.2)).then_ fun _ => ih (i + 1)

theorem global_keeps (d : VarDecl) : Keeps env P (Emit.global env d) := by
  have hvalue : Keeps env P (globalValue env d) := by
    unfold globalValue
    split
    · exact h.expr_keeps _ false
    · exact h.defaultValue_keeps d.type
  refine (Run.Keeps.ofResult (h.mapType d.type)).then_ fun type => ?_
  exact (keeps_print _).then_ fun _ => hvalue.then_ fun _ => keeps_line _

theorem item_keeps (i : Lower.Item) : Keeps env P (Emit.item env i) := by
  cases i with
  | function d body => exact h.locate_keeps (h.funcDecl_keeps d body)
  | «variable» d => exact h.locate_keeps (h.global_keeps d)
  | «class» owner ms =>
    refine (keeps_line _).then_ fun _ => ?_
    exact (keeps_deeper (h.methodsFrom_keeps 0 ms)).then_ fun _ => keeps_line _

theorem itemsFrom_keeps (cancelled : Bool) (i : Nat) (is : List Lower.Item) :
    Keeps env P (itemsFrom env cancelled i is) := by
  induction is generalizing i with
  | nil => exact .pure ()
  | cons it is ih =>
    unfold itemsFrom
    split
    · exact .fail (h.plain _)
    · refine (emptyLine_keeps i).then_ fun _ => ?_
      exact (h.item_keeps it).then_ fun _ => ih (i + 1)

theorem file_keeps (package : String) (cancelled : Bool) (u : SourceUnit) :
    Keeps env P (file env package cancelled u) := by
  have himports : ∀ uris, Keeps env P (importLines uris) := by
    intro uris
    induction uris with
    | nil => exact .pure ()
    | cons uri uris ih => exact (keeps_line _).then_ fun _ => ih
  refine (keeps_line _).then_ fun _ => (himports _).then_ fun _ => keeps_newline.then_ fun _ => ?_
  exact h.itemsFrom_keeps cancelled 0 _

/-- A run over a unit keeps layouts of the table only, and what it fails with is admitted. -/
theorem generate_keeps (package : String) (cancelled : Bool) (u : Option SourceUnit) :
    Run.Keeps (LayoutCache.Computed env) P (Emit.generate env package cancelled u) := by
  cases u with
  | none => exact .fail (h.reported _ _ rfl)
  | some u =>
    intro layouts hlayouts r layouts' hrun
    obtain ⟨⟨outcome, d⟩, hfile, hr⟩ := Option.map_eq_some_iff.mp hrun
    cases hr
    obtain ⟨hd, hfails, -⟩ := h.file_keeps package cancelled u { layouts } hlayouts outcome d hfile
    refine ⟨hd, fun f hf => hfails f ?_, fun _ _ => trivial⟩
    cases outcome with
    | ok => cases hf
    | error g =>
      cases hf
      rfl

end Units

end AdmitsLookups

end DartLowering
