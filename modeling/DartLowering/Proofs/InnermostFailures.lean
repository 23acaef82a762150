import DartLowering.Proofs.Courses
import DartLowering.Proofs.Places
import DartLowering.Proofs.RunFailures
import DartLowering.Proofs.Throughout
import Mathlib.Logic.Relation

/-!
Where expressions are blamed. A node makes its reports at its own place or without one, and a report
that has a place keeps it. So where all nodes have places, a failure is reported at the innermost
node that fails: the children that this node turned to succeeded, and the nodes around it pass the
failure on as it is.
-/
namespace DartLowering

open Result

namespace Failure

/-- The first report of the chain, if there is one, stands at `p` or has no place. -/
def ComesFrom (p : Position) (f : Failure) : Prop :=
  ∀ cause q origin, f.report? = some (cause, q, origin) → q = p ∨ q.isValid = false

theorem comesFrom_of_none {p : Position} {f : Failure} (h : f.report? = none) : f.ComesFrom p := by
  intro cause q origin hq
  rw [h] at hq
  cases hq

theorem comesFrom_report (c : Cause) (p : Position) : (report c p none).ComesFrom p := by
  intro cause q origin hq
  cases hq
  exact .inl rfl

theorem comesFrom_of (c : Cause) (p : Position) : (Failure.of c).ComesFrom p := by
  intro cause q origin hq
  cases hq
  exact .inr rfl

/-- A failure that has its place is passed on as it is. -/
theorem Placed.locate {f : Failure} (h : f.Placed) (p : Position) : f.locate p = f := by
  unfold Failure.locate
  split
  · rename_i cause q origin hq
    rw [h cause q origin hq, Bool.not_true, Bool.and_false, if_neg Bool.false_ne_true]
  · rfl

/-- A failure of the node at `p` is reported there. -/
theorem ComesFrom.place {f : Failure} {p q : Position} {cause : Cause} {origin : Option Failure}
    (h : f.ComesFrom p) (hp : p.isValid = true)
    (hq : (f.locate p).report? = some (cause, q, origin)) : q = p := by
  rw [report?_locate] at hq
  obtain ⟨⟨_, own, _⟩, hreport, hplace⟩ := Option.map_eq_some_iff.mp hq
  cases hplace
  rcases h _ own _ hreport with rfl | hinvalid
  · exact ite_self own
  · rw [hp, hinvalid]
    rfl

end Failure

namespace TypeEnv

variable (env : TypeEnv) (p : Position)

theorem layoutWithin_comesFrom (depth : Nat) (tag : RecordTag) :
    FailsOnly (Failure.ComesFrom p) (env.layoutWithin depth tag) := by
  induction depth generalizing tag with
  | zero => exact failsOnly_error.mpr (Failure.comesFrom_of_none rfl)
  | succ depth ih =>
    rw [layoutWithin]
    split
    · exact failsOnly_ok _
    · refine FailsOnly.bind ?_ fun slots f hf => ?_
      · exact Record.slots_failsOnly (fun c _ => Failure.comesFrom_of c p) (fun _ _ h => h) _
          fun f _ tag _ => ih tag
      · obtain ⟨-, s, -, fault, -, rfl⟩ := Record.layout_eq_error hf
        exact Failure.comesFrom_of_none rfl

theorem admitsOwn_comesFrom : AdmitsOwn (Failure.ComesFrom p) env p where
  reported c _ := Failure.comesFrom_of c p
  placed c _ := Failure.comesFrom_report c p
  layout tag := env.layoutWithin_comesFrom p _ tag
  unplaced _ _ _ _ _ _ _ := Failure.comesFrom_report _ p

end TypeEnv

namespace Expr

variable {e x : Expr}

theorem Throughout.of_below {P : Expr → Prop} (h : e.Throughout P) (hx : x.Below e) :
    x.Throughout P :=
  hx.inherits (fun h hx => h.child hx) h

theorem sub?_append (e : Expr) (path rest : List Nat) :
    e.sub? (path ++ rest) = (e.sub? path).bind fun x => x.sub? rest := by
  induction path generalizing e with
  | nil => rfl
  | cons i path ih => simp only [List.cons_append, sub?, ih, Option.bind_assoc]

end Expr

namespace Lower

variable {env : TypeEnv} {scope : Scope} {e x : Expr} {f : Failure}

/-- The emission of `e` turns to `x`. -/
def TurnsTo (env : TypeEnv) (scope : Scope) (e x : Expr) : Prop :=
  x ∈ (course env scope e).attempted (expr env scope false)

def PassesOn (env : TypeEnv) (scope : Scope) (f : Failure) (e x : Expr) : Prop :=
  TurnsTo env scope e x ∧ expr env scope false x = .error f

theorem course_comesFrom (env : TypeEnv) (scope : Scope) (e : Expr) : (course env scope e).Bounded
    (fun x => x.Below e) (Failure.ComesFrom e.position) (Code.Spelled fun _ => true) :=
  course_bounded (env.admitsOwn_comesFrom e.position) (fun _ _ => rfl) (fun _ _ => rfl)
    e.spelled_any

theorem expr_spelled_any (x : Expr) :
    Yields (Code.Spelled fun _ => true) (expr env scope false x) :=
  expr_yields (fun _ _ => rfl) (fun _ _ => rfl) x.spelled_any false

theorem TurnsTo.below (h : TurnsTo env scope e x) : x.Below e :=
  (course_comesFrom env scope e).of_attempted (S := fun x => x.Below e) expr_spelled_any h

theorem expr_placed (he : e.position.isValid = true) :
    FailsOnly Failure.Placed (expr env scope false e) := by
  rw [expr_eq_run]
  exact Result.locate_placed he _

/-- A node fails as a child that it turned to, or by itself after all of them succeeded. -/
theorem expr_failed (he : e.Throughout fun x => x.position.isValid = true)
    (hfailed : expr env scope false e = .error f) :
    (∃ x, PassesOn env scope f e x) ∨
      (∀ cause p origin, f.report? = some (cause, p, origin) → p = e.position) ∧
        ∀ x, TurnsTo env scope e x → ∃ code, expr env scope false x = .ok code := by
  rw [expr_eq_run] at hfailed
  obtain ⟨g, hg, rfl⟩ := locate_eq_error.mp hfailed
  rcases (course_comesFrom env scope e).failed expr_spelled_any hg with ⟨x, hx, hxfailed⟩ |
    ⟨hown, hall⟩
  · have hxplaced := (he.of_below (TurnsTo.below hx)).own
    rw [(expr_placed hxplaced g hxfailed).locate]
    exact .inl ⟨x, hx, hxfailed⟩
  · exact .inr ⟨fun cause p origin hp => hown.place he.own hp, hall⟩

/-- A failure of an expression whose nodes all have places, none of them missing, is reported at a
node that fails with it after all the children that it turned to succeeded. Emission came to this
node through nodes that pass the failure on as it is. -/
theorem failures_are_innermost {cause : Cause} {p : Position} {origin : Option Failure}
    (hplaced : e.Throughout fun x => x.position.isValid = true)
    (hfailed : expr env scope false e = .error f) (hreport : f.report? = some (cause, p, origin)) :
    ∃ blamed, Relation.ReflTransGen (PassesOn env scope f) e blamed ∧
      (∃ path, e.sub? path = some blamed) ∧ blamed.position = p ∧
        expr env scope false blamed = .error f ∧
          ∀ x, TurnsTo env scope blamed x → ∃ code, expr env scope false x = .ok code := by
  induction e using Expr.belowInduction with
  | step e ih =>
    rcases expr_failed hplaced hfailed with ⟨x, hx⟩ | ⟨hplace, hall⟩
    · have hbelow := hx.1.below
      obtain ⟨blamed, hchain, ⟨rest, hrest⟩, hblamed⟩ := ih x hbelow (hplaced.of_below hbelow) hx.2
      obtain ⟨i, path, hpath⟩ := hbelow
      refine ⟨blamed, .head hx hchain, ⟨i :: path ++ rest, ?_⟩, hblamed⟩
      rw [Expr.sub?_append, hpath]
      exact hrest
    · exact ⟨e, .refl, ⟨[], rfl⟩, (hplace cause p origin hreport).symm, hfailed, hall⟩

/-- A sum of a name and the next item of a list, read as a function, which is no type of values. -/
def functionRead : Expr :=
  let value : Option CType := some (.function [] .void false)
  .binary ⟨⟨"u.m", 3, 1⟩, value, none⟩ .add (.ref ⟨⟨"u.m", 3, 1⟩, value, none⟩ "x" .var)
    (.cast ⟨⟨"u.m", 3, 5⟩, value, none⟩ .noOp
      (.listNext ⟨⟨"u.m", 3, 9⟩, value, none⟩
        (.cast ⟨⟨"u.m", 3, 20⟩, none, none⟩ .lvalueToRvalue
          (.ref ⟨⟨"u.m", 3, 20⟩, none, none⟩ "list" .var) false)) false)

theorem functionRead_placed : functionRead.Throughout fun x => x.position.isValid = true := by
  have hname : ∀ info name kind, info.position.isValid = true →
      (Expr.ref info name kind).Throughout fun x => x.position.isValid = true :=
    fun info name kind h => .mk h fun x hx => absurd hx List.not_mem_nil
  refine .mk rfl (List.forall_mem_cons.mpr ⟨hname _ _ _ rfl, List.forall_mem_singleton.mpr ?_⟩)
  refine .mk rfl (List.forall_mem_singleton.mpr (.mk rfl (List.forall_mem_singleton.mpr ?_)))
  exact .mk rfl (List.forall_mem_singleton.mpr (hname _ _ _ rfl))

/-- The read is blamed, and not the conversion or the sum around it. -/
theorem function_read_is_blamed :
    let env : TypeEnv := .ofMarkers "" "" []
    let f : Failure := .unsupportedAt ⟨"u.m", 3, 9⟩ .functionValue
    expr env {} false functionRead = .error f ∧
      ∃ blamed, Relation.ReflTransGen (PassesOn env {} f) functionRead blamed ∧
        (∃ path, functionRead.sub? path = some blamed) ∧ blamed.position = ⟨"u.m", 3, 9⟩ ∧
          expr env {} false blamed = .error f ∧
            ∀ x, TurnsTo env {} blamed x → ∃ code, expr env {} false x = .ok code :=
  ⟨rfl, failures_are_innermost functionRead_placed rfl rfl⟩

end Lower

end DartLowering
