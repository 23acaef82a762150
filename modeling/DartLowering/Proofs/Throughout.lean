import DartLowering.Proofs.Supported

/-!
What holds throughout a tree. `Expr.Throughout` says that every node of an expression satisfies a
predicate; in statements and declarations a second one is about the types that are declared. A tree
is complete when no node of its expressions is missing.
-/
namespace DartLowering

/-- The types that a type is directly made of. -/
def CType.components : CType → List CType
  | .pointer t | .array t _ _ | .alias _ t => [t]
  | .functionPointer params result _ | .function params result _ => result :: params
  | .void | .scalar _ | .record _ | .object _ => []

/-- The type and all that it is made of satisfy `P`. -/
inductive CType.Throughout (P : CType → Prop) : CType → Prop
  | mk {t : CType} (own : P t) (components : ∀ u ∈ t.components, u.Throughout P) : t.Throughout P

namespace CType.Throughout

variable {P Q : CType → Prop} {t u : CType}

theorem component (h : t.Throughout P) (hu : u ∈ t.components) : u.Throughout P := by
  cases h with
  | mk _ components => exact components u hu

theorem imp (hPQ : ∀ t, P t → Q t) (h : t.Throughout P) : t.Throughout Q := by
  induction h with
  | mk own _ ih => exact .mk (hPQ _ own) ih

theorem unalias (h : t.Throughout P) : t.unalias.Throughout P := by
  induction h with
  | @mk t own components ih =>
    cases t with
    | «alias» name underlying => exact ih underlying (List.mem_singleton.mpr rfl)
    | _ => exact .mk own components

end CType.Throughout

/-- Every node of the expression satisfies `P`. -/
inductive Expr.Throughout (P : Expr → Prop) : Expr → Prop
  | mk {e : Expr} (own : P e) (children : ∀ x ∈ e.children, x.Throughout P) : e.Throughout P

namespace Expr.Throughout

variable {P Q : Expr → Prop} {e x : Expr}

theorem own (h : e.Throughout P) : P e := by
  cases h with
  | mk own _ => exact own

theorem child (h : e.Throughout P) (hx : x ∈ e.children) : x.Throughout P := by
  cases h with
  | mk _ children => exact children x hx

theorem imp (hPQ : ∀ x, P x → Q x) (h : e.Throughout P) : e.Throughout Q := by
  induction h with
  | mk own _ ih => exact .mk (hPQ _ own) ih

/-- What holds throughout an expression holds throughout each of its nodes. -/
theorem nested (h : e.Throughout P) : e.Throughout fun x => x.Throughout P := by
  induction h with
  | mk own children ih => exact .mk (.mk own children) ih

end Expr.Throughout

abbrev Expr.Complete (e : Expr) : Prop := e.Throughout (· ≠ .absent)

/-- `P` holds of every node of the expressions in the statement, the labels of cases among them, and
`T` of the types of the variables that it declares. -/
inductive Stmt.Throughout (P : Expr → Prop) (T : CType → Prop) : Stmt → Prop
  | mk {s : Stmt} (exprs : ∀ e ∈ s.exprs, e.Throughout P)
      (labels : ∀ c ∈ s.cases, ∀ label, c.label = some label → label.Throughout P)
      (vars : ∀ v ∈ s.vars, T v.type) (children : ∀ t ∈ s.children, t.Throughout P T) :
      s.Throughout P T

namespace Stmt.Throughout

variable {P Q : Expr → Prop} {T U : CType → Prop} {s t : Stmt}

theorem expr (h : s.Throughout P T) {e : Expr} (he : e ∈ s.exprs) : e.Throughout P := by
  cases h with
  | mk exprs _ _ _ => exact exprs e he

theorem child (h : s.Throughout P T) (ht : t ∈ s.children) : t.Throughout P T := by
  cases h with
  | mk _ _ _ children => exact children t ht

theorem imp (hPQ : ∀ e : Expr, e.Throughout P → e.Throughout Q) (hTU : ∀ t, T t → U t)
    (h : s.Throughout P T) : s.Throughout Q U := by
  induction h with
  | mk exprs labels vars _ ih =>
    refine .mk ?_ ?_ ?_ ih
    · intro e he
      exact hPQ e (exprs e he)
    · intro c hc label hlabel
      exact hPQ label (labels c hc label hlabel)
    · intro v hv
      exact hTU _ (vars v hv)

/-- A statement without cases and variables of its own. -/
theorem plain (hcases : s.cases = []) (hvars : s.vars = []) (exprs : ∀ e ∈ s.exprs, e.Throughout P)
    (children : ∀ t ∈ s.children, t.Throughout P T) : s.Throughout P T := by
  refine .mk exprs ?_ ?_ children
  · intro c hc
    rw [hcases] at hc
    cases hc
  · intro v hv
    rw [hvars] at hv
    cases hv

theorem contained (h : s.Throughout P T) (ht : s.Contains t) : t.Throughout P T := by
  induction ht with
  | self => exact h
  | inside hchild _ ih => exact ih (h.child hchild)

end Stmt.Throughout

/-- `P` holds of every node of the expressions in the declaration, and `T` of every type that it
declares. -/
def Decl.Throughout (P : Expr → Prop) (T : CType → Prop) : Decl → Prop
  | .func d => T d.result ∧ (∀ p ∈ d.params, T p.type) ∧
      ∀ body, d.body = some body → ∀ s ∈ body, s.Throughout P T
  | .method d => T d.result ∧ (∀ p ∈ d.params, T p.type) ∧
      ∀ body, d.body = some body → ∀ s ∈ body, s.Throughout P T
  | .var d => T d.type ∧ ∀ init, d.init = some init → init.Throughout P

theorem Decl.Throughout.imp {P Q : Expr → Prop} {T U : CType → Prop}
    (hPQ : ∀ e : Expr, e.Throughout P → e.Throughout Q) (hTU : ∀ t, T t → U t) {d : Decl}
    (h : d.Throughout P T) : d.Throughout Q U := by
  cases d with
  | func d | method d =>
    obtain ⟨hresult, hparams, hbody⟩ := h
    refine ⟨hTU _ hresult, fun p hp => hTU _ (hparams p hp), ?_⟩
    intro body hsome s hs
    exact (hbody body hsome s hs).imp hPQ hTU
  | var d => exact ⟨hTU _ h.1, fun init hinit => hPQ init (h.2 init hinit)⟩

abbrev Stmt.Complete (s : Stmt) : Prop := s.Throughout (· ≠ .absent) fun _ => True

abbrev Decl.Complete (d : Decl) : Prop := d.Throughout (· ≠ .absent) fun _ => True

def SourceUnit.Complete (u : SourceUnit) : Prop := ∀ d ∈ u.decls, d.Complete

end DartLowering
