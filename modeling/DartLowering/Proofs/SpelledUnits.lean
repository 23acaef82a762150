import DartLowering.Proofs.Spelling

/-!
The names in statements and declarations, and in what they are lowered to. The code of a statement
is spelled as the statement is, by induction on the statements inside it; an item is spelled as the
declarations it is planned from.
-/
namespace DartLowering

open Text

def Declarator.Spelled (p : Char → Bool) (d : Declarator) : Prop :=
  Over p d.name ∧ d.value.Spelled p

def LoopStart.Spelled (p : Char → Bool) : LoopStart → Prop
  | .nothing => True
  | .evaluate value => value.Spelled p
  | .declare type vars => Over p type ∧ ∀ v ∈ vars, v.Spelled p

mutual

def CodeStmt.Spelled (p : Char → Bool) : CodeStmt → Prop
  | .evaluate value => value.Spelled p
  | .declare type var => Over p type ∧ var.Spelled p
  | .ret value => ∀ c ∈ value, c.Spelled p
  | .brk | .cont | .empty => True
  | .contAt label => Over p label
  | .block body => CodeStmt.AllSpelled p body
  | .ifElse cond body rest => cond.Spelled p ∧ CodeStmt.AllSpelled p body ∧ rest.Spelled p
  | .whileLoop cond body => cond.Spelled p ∧ CodeStmt.AllSpelled p body
  | .doLoop body cond => CodeStmt.AllSpelled p body ∧ cond.Spelled p
  | .forLoop start cond step body =>
      start.Spelled p ∧ (∀ c ∈ cond, c.Spelled p) ∧ (∀ c ∈ step, c.Spelled p) ∧
        CodeStmt.AllSpelled p body
  | .switch subject cases => subject.Spelled p ∧ CodeCase.AllSpelled p cases

def CodeStmt.AllSpelled (p : Char → Bool) : List CodeStmt → Prop
  | [] => True
  | s :: ss => s.Spelled p ∧ CodeStmt.AllSpelled p ss

def ElseBranch.Spelled (p : Char → Bool) : ElseBranch → Prop
  | .none => True
  | .block body => CodeStmt.AllSpelled p body
  | .elseIf cond body rest => cond.Spelled p ∧ CodeStmt.AllSpelled p body ∧ rest.Spelled p

def CodeCase.Spelled (p : Char → Bool) : CodeCase → Prop
  | .mk label _ body => Over p label ∧ CodeStmt.AllSpelled p body

def CodeCase.AllSpelled (p : Char → Bool) : List CodeCase → Prop
  | [] => True
  | c :: cs => c.Spelled p ∧ CodeCase.AllSpelled p cs

end

theorem CodeStmt.allSpelled_iff {p : Char → Bool} {ss : List CodeStmt} :
    CodeStmt.AllSpelled p ss ↔ ∀ s ∈ ss, s.Spelled p := by
  induction ss with
  | nil => simp [CodeStmt.AllSpelled]
  | cons s ss ih => rw [CodeStmt.AllSpelled, ih, List.forall_mem_cons]

theorem CodeCase.allSpelled_iff {p : Char → Bool} {cs : List CodeCase} :
    CodeCase.AllSpelled p cs ↔ ∀ c ∈ cs, c.Spelled p := by
  induction cs with
  | nil => simp [CodeCase.AllSpelled]
  | cons c cs ih => rw [CodeCase.AllSpelled, ih, List.forall_mem_cons]

structure CodeFunction.Spelled (p : Char → Bool) (f : CodeFunction) : Prop where
  result : Over p f.result
  name : Over p f.name
  params : ∀ q ∈ f.params, Over p q.1 ∧ Over p q.2
  body : ∀ s ∈ f.body, s.Spelled p

def CodeItem.Spelled (p : Char → Bool) : CodeItem → Prop
  | .function f => f.Spelled p
  | .main inner args => inner.Spelled p ∧ ∀ c ∈ args, c.Spelled p
  | .class name base methods => Over p name ∧ Over p base ∧ ∀ f ∈ methods, f.Spelled p
  | .variable type var => Over p type ∧ var.Spelled p

/-- The name of a variable and the class of its type. -/
structure VarDecl.Spelled (p : Char → Bool) (v : VarDecl) : Prop where
  name : Over p v.name
  type : ∀ c, v.type.className? = some c → Over p c
  init : ∀ e, v.init = some e → e.Spelled p

inductive Stmt.Spelled (p : Char → Bool) : Stmt → Prop
  | mk {s : Stmt} (exprs : ∀ e ∈ s.exprs, e.Spelled p) (vars : ∀ v ∈ s.vars, v.Spelled p)
      (children : ∀ t ∈ s.children, t.Spelled p) : s.Spelled p

/-- The names of parameters and the classes of their types. -/
def Param.Spelled (p : Char → Bool) (q : Param) : Prop :=
  Over p q.name ∧ ∀ c, q.type.className? = some c → Over p c

structure FuncDecl.Spelled (p : Char → Bool) (d : FuncDecl) : Prop where
  name : Over p d.name
  params : ∀ q ∈ d.params, q.Spelled p
  result : ∀ c, d.result.className? = some c → Over p c
  body : ∀ body, d.body = some body → ∀ s ∈ body, s.Spelled p

structure MethodDecl.Spelled (p : Char → Bool) (d : MethodDecl) : Prop where
  owner : Over p d.owner
  selector : Over p d.selector
  params : ∀ q ∈ d.params, q.Spelled p
  result : ∀ c, d.result.className? = some c → Over p c
  body : ∀ body, d.body = some body → ∀ s ∈ body, s.Spelled p

/-- Every name in the declaration is made of characters that satisfy `p`. -/
def Decl.Spelled (p : Char → Bool) : Decl → Prop
  | .func d => d.Spelled p
  | .method d => d.Spelled p
  | .var d => d.Spelled p

namespace Stmt

theorem size_children {s t : Stmt} (h : t ∈ s.children) : SizeOf.sizeOf t < SizeOf.sizeOf s := by
  have hoption : ∀ o : Option Stmt, t ∈ o.toList → SizeOf.sizeOf t < SizeOf.sizeOf o := by
    intro o ho
    rw [Option.mem_toList.mp ho, Option.some.sizeOf_spec]
    omega
  cases s with
  | brk | cont | null | ret | decl | expr => cases h
  | compound position body =>
    have hlt := List.sizeOf_lt_of_mem (show t ∈ body from h)
    rw [compound.sizeOf_spec]
    omega
  | whileLoop | doLoop =>
    obtain rfl := List.mem_singleton.mp h
    simp only [whileLoop.sizeOf_spec, doLoop.sizeOf_spec]
    omega
  | ifElse position cond then_ else_ =>
    rw [ifElse.sizeOf_spec]
    rcases List.mem_cons.mp h with rfl | h
    · omega
    · have hlt := hoption else_ h
      omega
  | forLoop position init cond inc body =>
    rw [forLoop.sizeOf_spec]
    rcases List.mem_append.mp h with h | h
    · have hlt := hoption init h
      omega
    · obtain rfl := List.mem_singleton.mp h
      omega
  | switch position cond cases =>
    obtain ⟨c, hc, ht⟩ := List.mem_flatMap.mp h
    obtain ⟨place, label, body⟩ := c
    have hcase := List.sizeOf_lt_of_mem hc
    have hbody := List.sizeOf_lt_of_mem (show t ∈ body from ht)
    rw [SwitchCase.mk.sizeOf_spec] at hcase
    rw [switch.sizeOf_spec]
    omega

/-- Induction over statements whose hypothesis covers every statement directly inside. -/
theorem childInduction {motive : Stmt → Prop}
    (step : ∀ s, (∀ t ∈ s.children, motive t) → motive s) (s : Stmt) : motive s :=
  step s fun t _ => childInduction step t
termination_by SizeOf.sizeOf s
decreasing_by exact size_children ‹_›

end Stmt

namespace Stmt.Spelled

variable {p : Char → Bool} {s t : Stmt} (h : s.Spelled p)

include h

theorem expr {e : Expr} (he : e ∈ s.exprs) : e.Spelled p := by
  cases h with
  | mk exprs _ _ => exact exprs e he

theorem var {v : VarDecl} (hv : v ∈ s.vars) : v.Spelled p := by
  cases h with
  | mk _ vars _ => exact vars v hv

theorem child (ht : t ∈ s.children) : t.Spelled p := by
  cases h with
  | mk _ _ children => exact children t ht

end Stmt.Spelled

/-! Every name is made of some characters. -/

theorem Expr.spelled_any (e : Expr) : e.Spelled fun _ => true := by
  induction e using Expr.childInduction with
  | step e ih => exact ⟨fun s _ c _ => rfl, ih⟩

theorem VarDecl.spelled_any (v : VarDecl) : v.Spelled fun _ => true :=
  ⟨fun _ _ => rfl, fun _ _ _ _ => rfl, fun e _ => e.spelled_any⟩

theorem Stmt.spelled_any (s : Stmt) : s.Spelled fun _ => true := by
  induction s using Stmt.childInduction with
  | step s ih => exact ⟨fun e _ => e.spelled_any, fun v _ => v.spelled_any, ih⟩

theorem Decl.spelled_any (d : Decl) : d.Spelled fun _ => true := by
  have hover : ∀ s : String, Over (fun _ => true) s := fun _ _ _ => rfl
  have hbody : ∀ {body? : Option (List Stmt)} body, body? = some body → ∀ s ∈ body, s.Spelled _ :=
    fun _ _ s _ => s.spelled_any
  cases d with
  | func d => exact ⟨hover _, fun q _ => ⟨hover _, fun c _ => hover c⟩, fun c _ => hover c, hbody⟩
  | method d =>
    exact ⟨hover _, hover _, fun q _ => ⟨hover _, fun c _ => hover c⟩, fun c _ => hover c, hbody⟩
  | var d => exact d.spelled_any

namespace Lower

variable {p : Char → Bool} {out : List CodeStmt}

theorem caseExit_spelled (hp : AdmitsWords p) (depth : Nat) (following : List Nat)
    (body : List Stmt) : ∀ s ∈ caseExit depth following body, s.Spelled p := by
  unfold caseExit
  split
  · exact List.forall_mem_nil _
  · split
    · exact List.forall_mem_singleton.mpr trivial
    · exact List.forall_mem_singleton.mpr (switchLabel_over hp depth _)

theorem case_spelled (hp : AdmitsWords p) {depth label : Nat} {following : List Nat}
    {body : List Stmt} (hcode : ∀ c ∈ out, c.Spelled p) (selector : Selector) :
    (CodeCase.mk (switchLabel depth label) selector (out ++ caseExit depth following body)).Spelled
      p :=
  ⟨switchLabel_over hp _ _, CodeStmt.allSpelled_iff.mpr
    (List.forall_mem_append.mpr ⟨hcode, caseExit_spelled hp _ _ _⟩)⟩

theorem branch_spelled (s : Stmt) (h : ∀ c ∈ out, c.Spelled p) : (s.branch out).Spelled p := by
  unfold Stmt.branch
  split
  · split
    · exact h _ List.mem_cons_self
    · exact CodeStmt.allSpelled_iff.mpr h
  · exact CodeStmt.allSpelled_iff.mpr h

/-- What an item is planned from is spelled as `p` says. -/
def Item.Spelled (p : Char → Bool) : Item → Prop
  | .function d body => d.Spelled p ∧ d.body = some body
  | .variable d => d.Spelled p
  | .class owner ms => Over p owner ∧ ∀ m ∈ ms, m.1.Spelled p ∧ m.1.body = some m.2

theorem spelled_of_planned {i : Item} {ds : List Decl} (hds : ∀ d ∈ ds, d.Spelled p)
    (hi : i.Planned ds) : i.Spelled p := by
  cases i with
  | function d body => exact ⟨hds _ hi.1, hi.2⟩
  | «variable» d => exact hds _ hi
  | «class» owner ms =>
    obtain ⟨hne, hms⟩ := hi
    have hspelled : ∀ m ∈ ms, m.1.Spelled p := fun m hm => hds _ (hms m hm).1
    obtain ⟨m, hm⟩ := List.exists_mem_of_ne_nil ms hne
    have howner := (hspelled m hm).owner
    rw [(hms m hm).2.1] at howner
    exact ⟨howner, fun m hm => ⟨hspelled m hm, (hms m hm).2.2⟩⟩

end Lower

/-- The imports of a file are spelled as the package is. -/
theorem imports_over {p : Char → Bool} (hp : AdmitsWords p) (hcolon : p ':' = true)
    (hslash : p '/' = true) {package : String} (h : Over p package) :
    ∀ uri ∈ Package.imports package, Over p uri := by
  intro uri huri
  obtain ⟨m, hm, rfl⟩ := List.mem_map.mp huri
  have hmodules : (Package.modules.all fun m => m.toList.all fun c => isWord c || c == '/') =
      true := by
    decide
  have hmodule : Over p m := by
    intro c hc
    have hchar := List.all_eq_true.mp (List.all_eq_true.mp hmodules m hm) c hc
    rcases Bool.or_eq_true_iff.mp hchar with hword | hequal
    · exact hp c hword
    · rw [beq_iff_eq.mp hequal]
      exact hslash
  have hscheme : Over p "package:" := by
    refine over_append (s := "package") (t := ":") |>.mpr ⟨over_word hp rfl, ?_⟩
    exact List.forall_mem_singleton.mpr hcolon
  have hpackage : Over p (if package = "" then Package.default else package) := by
    split
    · exact over_word hp rfl
    · exact h
  simp only [over_append]
  exact ⟨⟨⟨hscheme, hpackage⟩, List.forall_mem_singleton.mpr hslash⟩, hmodule⟩

end DartLowering
