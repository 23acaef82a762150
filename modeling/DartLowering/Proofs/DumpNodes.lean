import DartLowering.Proofs.DecodedTrees
import DartLowering.Proofs.DetachedDumps

/-!
The nodes of a dump and the trees that are read from them. `Child` leads from a node to those that
are read on the way; reading succeeds at a node only where it succeeds at all of these, and what
stands directly inside a tree was read from them. So every expression of a unit was read from a node
of its dump, and every node for an expression in a dump that is accepted can be read.
-/
namespace DartLowering

open Result

/-- The statements of a function or method, and the first value of a variable. -/
def Decl.body? : Decl → Option (List Stmt)
  | .func d => d.body
  | .method d => d.body
  | .var _ => none

def Decl.init? : Decl → Option Expr
  | .var v => v.init
  | .func _ | .method _ => none

theorem Decl.throughout_iff {P : Expr → Prop} {d : Decl} :
    d.Throughout P (fun _ => True) ↔
      (∀ body, d.body? = some body → ∀ s ∈ body, s.Throughout P fun _ => True) ∧
        ∀ e, d.init? = some e → e.Throughout P := by
  cases d <;> simp [Decl.Throughout, Decl.body?, Decl.init?]

namespace Dump

deriving instance DecidableEq for Role

/-- What stands where a node has children in the role `target`. -/
def Role.nodes (role target : Role) (node : Json) : List (Option Json) :=
  ((role.required node ++ role.optional node).filter (·.2 = target)).map (fun c => get? c.1 node) ++
    ((role.lists node).filter (·.2 = target)).flatMap fun c => itemsAt c.1 node

/-- A node of this role can have children of the other. -/
def Role.leads : Role → Role → Bool
  | .expr, .expr | .expr, .type | .var, .expr | .var, .type => true
  | .stmt, .expr | .stmt, .stmt | .stmt, .var | .stmt, .arm => true
  | .block, .stmt | .arm, .expr | .arm, .stmt => true
  | .decl, .block | .decl, .expr | .decl, .type | .decl, .param => true
  | .type, .type | .param, .type | .field, .type | .record, .field => true
  | _, _ => false

theorem Role.leads_table (role : Role) (node : Json) :
    (∀ c ∈ role.required node ++ role.optional node, role.leads c.2 = true) ∧
      ∀ c ∈ role.lists node, role.leads c.2 = true := by
  simp only [List.forall_mem_append]
  refine ⟨⟨?_, ?_⟩, ?_⟩
  · cases role with
    | type | expr | stmt | decl | arm => rw [Role.required]; split <;> decide
    | _ => rw [Role.required]; decide
  · cases role with
    | expr | stmt | decl => rw [Role.optional]; split <;> decide
    | _ => rw [Role.optional]; decide
  · cases role with
    | type | expr | stmt | decl => rw [Role.lists]; split <;> decide
    | _ => rw [Role.lists]; decide

theorem Role.leads_of_nodes {role target : Role} {node : Json} {child : Option Json}
    (h : child ∈ role.nodes target node) : role.leads target = true := by
  rcases List.mem_append.mp h with h | h
  · obtain ⟨c, hc, -⟩ := List.mem_map.mp h
    obtain ⟨hc, heq⟩ := List.mem_filter.mp hc
    rw [← of_decide_eq_true heq]
    exact (role.leads_table node).1 c hc
  · obtain ⟨c, hc, -⟩ := List.mem_flatMap.mp h
    obtain ⟨hc, heq⟩ := List.mem_filter.mp hc
    rw [← of_decide_eq_true heq]
    exact (role.leads_table node).2 c hc

/-- The second node is read on the way through the first. -/
def Child (a b : Role × Json) : Prop := some b.2 ∈ a.1.nodes b.1 a.2

/-- The second node is the first or stands somewhere below it. -/
abbrev Below : Role × Json → Role × Json → Prop := Relation.ReflTransGen Child

section Tally

variable {α : Type} {f : Option Json → String → Result α} {as bs : List (Option Json)}
  {xs ys : List α} {place : String}

/-- The nodes that are there can be read, and `xs` is what they are read as. -/
structure Tally (f : Option Json → String → Result α) (as : List (Option Json)) (xs : List α) :
    Prop where
  readable : ∀ n, some n ∈ as → ∃ place x, f (some n) place = .ok x
  sourced : ∀ x ∈ xs, ∃ n, some n ∈ as ∧ ∃ place, f (some n) place = .ok x

theorem Tally.nil : Tally f [] [] := by
  refine ⟨fun n hn => ?_, List.forall_mem_nil _⟩
  cases hn

theorem Tally.append (h : Tally f as xs) (h' : Tally f bs ys) : Tally f (as ++ bs) (xs ++ ys) := by
  constructor
  · intro n hn
    rcases List.mem_append.mp hn with hn | hn
    · exact h.readable n hn
    · exact h'.readable n hn
  · intro x hx
    rcases List.mem_append.mp hx with hx | hx
    · obtain ⟨n, hn, hread⟩ := h.sourced x hx
      exact ⟨n, List.mem_append_left _ hn, hread⟩
    · obtain ⟨n, hn, hread⟩ := h'.sourced x hx
      exact ⟨n, List.mem_append_right _ hn, hread⟩

theorem Tally.perm (h : Tally f as xs) (hperm : xs.Perm ys) : Tally f as ys :=
  ⟨h.readable, fun x hx => h.sourced x (hperm.mem_iff.mpr hx)⟩

theorem tally_some {node : Json} {x : α} (h : f (some node) place = .ok x) :
    Tally f [some node] [x] := by
  constructor
  · intro n hn
    cases List.mem_singleton.mp hn
    exact ⟨place, x, h⟩
  · intro y hy
    cases List.mem_singleton.mp hy
    exact ⟨node, List.mem_singleton_self _, place, h⟩

theorem tally_none : Tally f [none] [] := by
  refine ⟨fun n hn => ?_, List.forall_mem_nil _⟩
  cases List.mem_singleton.mp hn

/-- Nothing is read where nothing stands. -/
def NeedsNode (f : Option Json → String → Result α) : Prop := ∀ place x, f none place ≠ .ok x

variable (hf : NeedsNode f)

include hf

theorem tally_one {a : Option Json} {x : α} (h : f a place = .ok x) : Tally f [a] [x] := by
  cases a with
  | none => exact (hf place x h).elim
  | some node => exact tally_some h

omit hf in
theorem tally_optional {a : Option Json} {o : Option α} (h : Reading.optional f a place = .ok o) :
    Tally f [a] o.toList := by
  cases a with
  | none =>
    cases h
    exact tally_none
  | some node =>
    obtain ⟨x, hx, ho⟩ := Result.bind_eq_ok.mp h
    cases ho
    exact tally_some hx

theorem tally_indexed {index : Nat} (h : indexed f place index as = .ok xs) : Tally f as xs := by
  induction as generalizing index xs with
  | nil =>
    cases h
    exact .nil
  | cons a as ih =>
    obtain ⟨x, hx, h⟩ := Result.bind_eq_ok.mp h
    obtain ⟨rest, hrest, h⟩ := Result.bind_eq_ok.mp h
    cases h
    exact (tally_one hf hx).append (ih hrest)

end Tally

namespace Reading

attribute [local simp] Role.nodes Role.required Role.optional Role.lists

variable (r : Reading)

theorem expr_needsNode (fuel : Nat) : NeedsNode (r.expr fuel) := by
  intro place x h
  cases fuel <;> cases h

theorem stmt_needsNode (fuel : Nat) : NeedsNode (r.stmt fuel) := by
  intro place x h
  cases fuel <;> cases h

theorem varDecl_needsNode (fuel : Nat) : NeedsNode (r.varDecl fuel) := by
  intro place x h
  cases h

theorem switchCase_needsNode (fuel : Nat) (stmt : Option Json → String → Result Stmt) :
    NeedsNode (r.switchCase fuel stmt) := by
  intro place x h
  cases h

theorem decl_needsNode (fuel : Nat) : NeedsNode (r.decl fuel) := by
  intro place x h
  cases h

section Exprs

variable {r} {fuel : Nat} {node : Json} {place : String}

def TalliesExpr (r : Reading) (fuel : Nat) (node : Json) (e : Expr) : Prop :=
  Tally (r.expr fuel) (Role.expr.nodes .expr node) e.children

theorem recorded_tallies {e : Expr} (h : r.TalliesExpr fuel node e) :
    Yields (r.TalliesExpr fuel node) (Except.ok e >>= r.record node place) := by
  intro e' he'
  rw [Result.ok_bind] at he'
  unfold Reading.record at he'
  split at he'
  · cases he'
    exact h
  · split at he'
    · cases he'
      unfold TalliesExpr
      rw [Expr.children_withConstant]
      exact h
    · cases he'

/-- The nodes of a kind that has these children. -/
theorem tallies_of_nodes {as : List (Option Json)} {e : Expr}
    (hnodes : Role.expr.nodes .expr node = as) (h : Tally (r.expr fuel) as e.children) :
    Yields (r.TalliesExpr fuel node) (Except.ok e >>= r.record node place) := by
  refine recorded_tallies ?_
  unfold TalliesExpr
  rw [hnodes]
  exact h

variable {a b : Option Json} {as : List (Option Json)} {p q : String}

/-- Nodes with one operand. -/
theorem operand_tallies {build : Expr → Expr} (hnodes : Role.expr.nodes .expr node = [a])
    (hchildren : ∀ x, (build x).children = [x]) : Yields (r.TalliesExpr fuel node)
      (r.expr fuel a p >>= fun x => Except.ok (build x) >>= r.record node place) := by
  refine (yields_self _).bind fun x hx => tallies_of_nodes hnodes ?_
  rw [hchildren]
  exact tally_one (r.expr_needsNode fuel) hx

/-- Nodes with two operands. -/
theorem operands_tally {build : Expr → Expr → Expr} (hnodes : Role.expr.nodes .expr node = [a, b])
    (hchildren : ∀ x y, (build x y).children = [x, y]) : Yields (r.TalliesExpr fuel node)
      (r.expr fuel a p >>= fun x => r.expr fuel b q >>= fun y =>
        Except.ok (build x y) >>= r.record node place) := by
  refine (yields_self _).bind fun x hx => (yields_self _).bind fun y hy => ?_
  refine tallies_of_nodes hnodes ?_
  rw [hchildren]
  exact (tally_one (r.expr_needsNode fuel) hx).append (tally_one (r.expr_needsNode fuel) hy)

/-- Nodes with an operand and arguments. -/
theorem arguments_tally {build : Expr → List Expr → Expr}
    (hnodes : Role.expr.nodes .expr node = a :: as)
    (hchildren : ∀ x xs, (build x xs).children = x :: xs) : Yields (r.TalliesExpr fuel node)
      (r.expr fuel a p >>= fun x => indexed (r.expr fuel) q 0 as >>= fun xs =>
        Except.ok (build x xs) >>= r.record node place) := by
  refine (yields_self _).bind fun x hx => (yields_self _).bind fun xs hxs => ?_
  refine tallies_of_nodes hnodes ?_
  rw [hchildren]
  exact (tally_one (r.expr_needsNode fuel) hx).append (tally_indexed (r.expr_needsNode fuel) hxs)

end Exprs

theorem expr_tallies (fuel : Nat) (node : Json) (place : String) :
    Yields (r.TalliesExpr fuel node) (r.expr (fuel + 1) (some node) place) := by
  have hexpr := r.expr_needsNode fuel
  have hfault : ∀ f : Failure, Yields (r.TalliesExpr fuel node)
      (Except.error f >>= r.record node place) := fun f => yields_error f
  rw [Reading.expr]
  refine (yields_self _).bind fun type _ => ?_
  dsimp only
  split
  next hint =>
    split
    · exact tallies_of_nodes (by simp [hint]) .nil
    · exact hfault _
  next hfloat =>
    have hnodes : Role.expr.nodes .expr node = [] := by
      simp [hfloat]
    split
    · split
      · exact tallies_of_nodes hnodes .nil
      · exact hfault _
    · exact tallies_of_nodes hnodes .nil
    · exact hfault _
  next hstring =>
    refine (yields_self _).bind fun bytes _ => (yields_self _).bind fun _ _ => ?_
    exact tallies_of_nodes (by simp [hstring]) .nil
  next hname =>
    split
    · exact tallies_of_nodes (by simp [hname]) .nil
    · exact hfault _
  next hbinary =>
    split
    · exact hfault _
    · exact operands_tally (by simp [hbinary]) fun _ _ => rfl
  next hunary =>
    split
    · exact hfault _
    · exact operand_tallies (by simp [hunary]) fun _ => rfl
  next hcall =>
    split
    · exact hfault _
    · exact arguments_tally (by simp [hcall]) fun _ _ => rfl
  next hmember => exact operand_tallies (by simp [hmember]) fun _ => rfl
  next hsubscript => exact operands_tally (by simp [hsubscript]) fun _ _ => rfl
  next hcast =>
    split
    · exact hfault _
    · exact operand_tallies (by simp [hcast]) fun _ => rfl
  next hsizeof =>
    refine (yields_self _).bind fun arg _ => ?_
    exact tallies_of_nodes (by simp [hsizeof]) .nil
  next hlist => exact operand_tallies (by simp [hlist]) fun _ => rfl
  next hconditional =>
    refine (yields_self _).bind fun cond hcond => (yields_self _).bind fun then_ hthen => ?_
    refine (yields_self _).bind fun else_ helse => ?_
    exact tallies_of_nodes (by simp [hconditional])
      ((tally_one hexpr hcond).append ((tally_one hexpr hthen).append (tally_one hexpr helse)))
  next hmessage =>
    split
    next receiver hreceiver => exact arguments_tally (by simp [hmessage]) fun _ _ => rfl
    next hreceiver =>
      split
      · exact hfault _
      · refine (yields_self _).bind fun args hargs => ?_
        have hnothing : Tally (r.expr fuel) [get? "receiver" node] [] := by
          rw [hreceiver]
          exact tally_none
        exact tallies_of_nodes (by simp [hmessage]) (hnothing.append (tally_indexed hexpr hargs))
  · exact hfault _

section Stmts

variable {r} {fuel : Nat} {node : Json}

/-- The expressions, statements, variables and cases that stand directly in the statement are those
of the node. -/
structure TalliesStmt (r : Reading) (fuel : Nat) (node : Json) (s : Stmt) : Prop where
  exprs : ∃ es, Tally (r.expr fuel) (Role.stmt.nodes .expr node) es ∧
    s.exprs = es ++ s.vars.filterMap VarDecl.init
  children : ∃ ss, Tally (r.stmt fuel) (Role.stmt.nodes .stmt node) ss ∧
    s.children = ss ++ s.cases.flatMap SwitchCase.body
  vars : Tally (r.varDecl fuel) (Role.stmt.nodes .var node) s.vars
  cases : Tally (r.switchCase fuel (r.stmt fuel)) (Role.stmt.nodes .arm node) s.cases

/-- The nodes of a kind that has these children. -/
theorem tallies_stmt {s : Stmt} {es : List Expr} {ss : List Stmt} {as bs cs ds : List (Option Json)}
    (hnodes : Role.stmt.nodes .expr node = as ∧ Role.stmt.nodes .stmt node = bs ∧
      Role.stmt.nodes .var node = cs ∧ Role.stmt.nodes .arm node = ds)
    (hes : Tally (r.expr fuel) as es) (hexprs : s.exprs = es ++ s.vars.filterMap VarDecl.init)
    (hss : Tally (r.stmt fuel) bs ss)
    (hchildren : s.children = ss ++ s.cases.flatMap SwitchCase.body)
    (hvars : Tally (r.varDecl fuel) cs s.vars)
    (hcases : Tally (r.switchCase fuel (r.stmt fuel)) ds s.cases) :
    Yields (r.TalliesStmt fuel node) (.ok s) := by
  obtain ⟨rfl, rfl, rfl, rfl⟩ := hnodes
  exact yields_ok ⟨⟨es, hes, hexprs⟩, ⟨ss, hss, hchildren⟩, hvars, hcases⟩

/-- A statement without variables and cases. -/
theorem tallies_plain {s : Stmt} {as bs : List (Option Json)} (hvars : s.vars = [])
    (hcases : s.cases = [])
    (hnodes : Role.stmt.nodes .expr node = as ∧ Role.stmt.nodes .stmt node = bs ∧
      Role.stmt.nodes .var node = [] ∧ Role.stmt.nodes .arm node = [])
    (hexprs : Tally (r.expr fuel) as s.exprs) (hstmts : Tally (r.stmt fuel) bs s.children) :
    Yields (r.TalliesStmt fuel node) (.ok s) := by
  refine tallies_stmt hnodes hexprs ?_ hstmts ?_ (hvars ▸ .nil) (hcases ▸ .nil)
  · rw [hvars, List.filterMap_nil, List.append_nil]
  · rw [hcases, List.flatMap_nil, List.append_nil]

end Stmts

theorem stmt_tallies (fuel : Nat) (node : Json) (place : String) :
    Yields (r.TalliesStmt fuel node) (r.stmt (fuel + 1) (some node) place) := by
  have hexpr := r.expr_needsNode fuel
  have hstmt := r.stmt_needsNode fuel
  rw [Reading.stmt]
  dsimp only
  split
  next hcompound =>
    refine (yields_self _).bind fun body hbody => ?_
    exact tallies_plain rfl rfl (by simp [hcompound])
      .nil (tally_indexed hstmt hbody)
  next hif =>
    refine (yields_self _).bind fun cond hcond => (yields_self _).bind fun then_ hthen => ?_
    refine (yields_self _).bind fun else_ helse => ?_
    exact tallies_plain rfl rfl (by simp [hif])
      (tally_one hexpr hcond) ((tally_one hstmt hthen).append (tally_optional helse))
  next hwhile =>
    refine (yields_self _).bind fun cond hcond => (yields_self _).bind fun body hbody => ?_
    exact tallies_plain rfl rfl (by simp [hwhile]) (tally_one hexpr hcond) (tally_one hstmt hbody)
  next hdo =>
    refine (yields_self _).bind fun body hbody => (yields_self _).bind fun cond hcond => ?_
    exact tallies_plain rfl rfl (by simp [hdo]) (tally_one hexpr hcond) (tally_one hstmt hbody)
  next hfor =>
    refine (yields_self _).bind fun init hinit => (yields_self _).bind fun cond hcond => ?_
    refine (yields_self _).bind fun inc hinc => (yields_self _).bind fun body hbody => ?_
    -- the table names the body before what the loop starts with
    have hinner :=
      ((tally_one hstmt hbody).append (tally_optional hinit)).perm List.perm_append_comm
    exact tallies_plain rfl rfl (by simp [hfor])
      ((tally_optional hcond).append (tally_optional hinc)) hinner
  next hswitch =>
    refine (yields_self _).bind fun cond hcond => (yields_self _).bind fun cases hcases => ?_
    exact tallies_stmt (by simp [hswitch]) (tally_one hexpr hcond) rfl .nil rfl .nil
      (tally_indexed (r.switchCase_needsNode fuel _) hcases)
  next hbreak =>
    exact tallies_plain rfl rfl (by simp [hbreak]) .nil .nil
  next hcontinue =>
    exact tallies_plain rfl rfl (by simp [hcontinue]) .nil .nil
  next hnull =>
    exact tallies_plain rfl rfl (by simp [hnull]) .nil .nil
  next hreturn =>
    refine (yields_self _).bind fun value hvalue => ?_
    exact tallies_plain rfl rfl (by simp [hreturn]) (tally_optional hvalue) .nil
  next hdecl =>
    refine (yields_self _).bind fun vars hvars => ?_
    exact tallies_stmt (by simp [hdecl]) .nil rfl .nil rfl
      (tally_indexed (r.varDecl_needsNode fuel) hvars) .nil
  next hexpression =>
    refine (yields_self _).bind fun value hvalue => ?_
    exact tallies_plain rfl rfl (by simp [hexpression]) (tally_one hexpr hvalue) .nil
  · exact yields_error _

theorem varDecl_tallies (fuel : Nat) (node : Json) (place : String) :
    Yields (fun v => Tally (r.expr fuel) (Role.var.nodes .expr node) v.init.toList)
      (r.varDecl fuel (some node) place) := by
  rw [Reading.varDecl]
  split
  · exact yields_error _
  · refine (yields_self _).bind fun type _ => (yields_self _).bind fun init hinit => ?_
    exact yields_ok (tally_optional hinit)

theorem switchCase_tallies (fuel : Nat) (node : Json) (place : String) :
    Yields (fun c => Tally (r.expr fuel) (Role.arm.nodes .expr node) c.label.toList ∧
      Tally (r.stmt fuel) (Role.arm.nodes .stmt node) c.body)
      (r.switchCase fuel (r.stmt fuel) (some node) place) := by
  have hstmts : Role.arm.nodes .stmt node = itemsAt "stmts" node := by
    by_cases hdefault : flagAt "default" node = true
    · simp [hdefault]
    · simp [hdefault]
  have hrest : ∀ label : Option Expr,
      Tally (r.expr fuel) (Role.arm.nodes .expr node) label.toList →
      Yields (fun c => Tally (r.expr fuel) (Role.arm.nodes .expr node) c.label.toList ∧
        Tally (r.stmt fuel) (Role.arm.nodes .stmt node) c.body) (do
          let body ← indexed (r.stmt fuel) (place ++ ".stmts") 0 (itemsAt "stmts" node)
          .ok (SwitchCase.mk (r.position node) label body)) := by
    intro label hlabel
    refine (yields_self _).bind fun body hbody => yields_ok ⟨hlabel, ?_⟩
    rw [hstmts]
    exact tally_indexed (r.stmt_needsNode fuel) hbody
  rw [Reading.switchCase]
  split
  next hdefault =>
    have hnodes : Role.arm.nodes .expr node = [] := by
      simp [hdefault]
    refine hrest none ?_
    rw [hnodes]
    exact .nil
  next hlabelled =>
    have hnodes : Role.arm.nodes .expr node = [get? "label" node] := by
      simp [hlabelled]
    refine (yields_self _).bind fun label hlabel => hrest (some label) ?_
    rw [hnodes]
    exact tally_one (r.expr_needsNode fuel) hlabel

/-- The statement that a body is read as. -/
def compound (fuel : Nat) (node : Option Json) (place : String) : Result (List Stmt) := do
  let s ← r.stmt fuel node place
  match s with
  | .compound _ body => .ok body
  | _ => r.malformed place .bodyNotCompound

theorem body_tally {fuel : Nat} {node : Option Json} {place : String}
    {body? : Option (List Stmt × Position)} (h : r.body fuel node place = .ok body?) :
    Tally (r.compound fuel) [node] (body?.map (·.1)).toList := by
  cases node with
  | none =>
    cases h
    exact tally_none
  | some node =>
    obtain ⟨s, hs, h⟩ := Result.bind_eq_ok.mp h
    split at h
    next position body =>
      cases h
      have hbody : r.compound fuel (some node) place = .ok body := by
        unfold compound
        rw [hs]
        rfl
      exact tally_some hbody
    · cases h

/-- The body and the first value of the declaration are those of the node. -/
structure TalliesDecl (r : Reading) (fuel : Nat) (node : Json) (d : Decl) : Prop where
  body : Tally (r.compound fuel) (Role.decl.nodes .block node) d.body?.toList
  init : Tally (r.expr fuel) (Role.decl.nodes .expr node) d.init?.toList

/-- A declaration with a body, such as a function or method. -/
theorem tallies_body {r : Reading} {fuel : Nat} {node : Json} {place : String} {d : Decl}
    {body? : Option (List Stmt × Position)}
    (hnodes : Role.decl.nodes .block node = [get? "body" node] ∧ Role.decl.nodes .expr node = [])
    (hbody : r.body fuel (get? "body" node) place = .ok body?) (hd : d.body? = body?.map (·.1))
    (hinit : d.init? = none) : Yields (r.TalliesDecl fuel node) (.ok d) := by
  refine yields_ok ⟨?_, ?_⟩
  · rw [hnodes.1, hd]
    exact r.body_tally hbody
  · rw [hnodes.2, hinit]
    exact .nil

theorem decl_tallies (fuel : Nat) (node : Json) (place : String) :
    Yields (r.TalliesDecl fuel node) (r.decl fuel (some node) place) := by
  rw [Reading.decl]
  split
  next hfunction =>
    refine (yields_self _).bind fun params _ => (yields_self _).bind fun result _ => ?_
    refine (yields_self _).bind fun body hbody => ?_
    exact tallies_body (by simp [hfunction]) hbody rfl rfl
  next hmethod =>
    refine (yields_self _).bind fun params _ => (yields_self _).bind fun result _ => ?_
    refine (yields_self _).bind fun body hbody => ?_
    split
    · exact yields_error _
    · exact tallies_body (by simp [hmethod]) hbody rfl rfl
  next hvar =>
    refine (r.varDecl_tallies fuel node place).bind fun v hv => ?_
    have hnodes : Role.decl.nodes .block node = [] ∧
        Role.decl.nodes .expr node = Role.var.nodes .expr node := by
      simp [hvar]
    refine yields_ok ⟨?_, ?_⟩
    · rw [hnodes.1]
      exact .nil
    · rw [hnodes.2]
      exact hv
  · exact yields_error _

section Stems

variable {r} {role target : Role} {fuel : Nat} {node n : Json} {place : String} {e : Expr}

/-- The expression was read from a node below `a`. -/
def Stems (r : Reading) (a : Role × Json) (e : Expr) : Prop :=
  ∃ n, Below a (.expr, n) ∧ ∃ fuel place, r.expr fuel (some n) place = .ok e

theorem Stems.above (hn : some n ∈ role.nodes target node) (h : r.Stems (target, n) e) :
    r.Stems (role, node) e := by
  obtain ⟨m, hm, hread⟩ := h
  have hchild : Child (role, node) (target, n) := hn
  exact ⟨m, .head hchild hm, hread⟩

theorem expr_stems (h : r.expr fuel (some node) place = .ok e) :
    e.Throughout (r.Stems (.expr, node)) := by
  induction fuel generalizing node place e with
  | zero => cases h
  | succ fuel ih =>
    refine .mk ⟨node, .refl, fuel + 1, place, h⟩ fun x hx => ?_
    obtain ⟨n, hn, place', hread⟩ := (r.expr_tallies fuel node place e h).sourced x hx
    exact (ih hread).imp fun _ => Stems.above hn

/-- What was read from the expressions of a node stems from the node. -/
theorem stems_of_tally {es : List Expr} (h : Tally (r.expr fuel) (role.nodes .expr node) es)
    (he : e ∈ es) : e.Throughout (r.Stems (role, node)) := by
  obtain ⟨n, hn, place, hread⟩ := h.sourced e he
  exact (expr_stems hread).imp fun _ => Stems.above hn

theorem stmt_stems {s : Stmt} (h : r.stmt fuel (some node) place = .ok s) :
    s.Throughout (r.Stems (.stmt, node)) fun _ => True := by
  induction fuel generalizing node place s with
  | zero => cases h
  | succ fuel ih =>
    have hup : ∀ {target : Role} {n : Json} {x : Expr}, some n ∈ Role.stmt.nodes target node →
        x.Throughout (r.Stems (target, n)) → x.Throughout (r.Stems (.stmt, node)) :=
      fun hn hx => hx.imp fun _ => Stems.above hn
    obtain ⟨⟨es, hes, hexprs⟩, ⟨ss, hss, hchildren⟩, hvars, hcases⟩ :=
      r.stmt_tallies fuel node place s h
    refine .mk ?_ ?_ (fun _ _ => trivial) ?_
    · intro e he
      rw [hexprs] at he
      rcases List.mem_append.mp he with he | he
      · exact stems_of_tally hes he
      · obtain ⟨v, hv, hinit⟩ := List.mem_filterMap.mp he
        obtain ⟨n, hn, place', hread⟩ := hvars.sourced v hv
        have hvalue := r.varDecl_tallies fuel n place' v hread
        exact hup hn (stems_of_tally hvalue (Option.mem_toList.mpr hinit))
    · intro c hc label hlabel
      obtain ⟨n, hn, place', hread⟩ := hcases.sourced c hc
      have hlabels := (r.switchCase_tallies fuel n place' c hread).1
      exact hup hn (stems_of_tally hlabels (Option.mem_toList.mpr hlabel))
    · intro t ht
      rw [hchildren] at ht
      rcases List.mem_append.mp ht with ht | ht
      · obtain ⟨n, hn, place', hread⟩ := hss.sourced t ht
        exact (ih hread).imp (fun _ => hup hn) fun _ => id
      · obtain ⟨c, hc, ht⟩ := List.mem_flatMap.mp ht
        obtain ⟨n, hn, place', hread⟩ := hcases.sourced c hc
        obtain ⟨m, hm, place'', hread'⟩ :=
          (r.switchCase_tallies fuel n place' c hread).2.sourced t ht
        exact (ih hread').imp (fun _ hx => hup hn (hx.imp fun _ => Stems.above hm)) fun _ => id

theorem compound_eq_ok {body : List Stmt} (h : r.compound fuel (some node) place = .ok body) :
    ∃ position, r.stmt fuel (some node) place = .ok (.compound position body) := by
  obtain ⟨s, hs, h⟩ := Result.bind_eq_ok.mp h
  split at h
  next position body' =>
    cases h
    exact ⟨position, hs⟩
  · cases h

/-- A compound has the same children as a body. -/
theorem nodes_compound (hkind : textAt "kind" node = "compound") (target : Role) :
    Role.stmt.nodes target node = Role.block.nodes target node := by
  simp [hkind]

theorem Stems.block (hkind : textAt "kind" node = "compound") (h : r.Stems (.stmt, node) e) :
    r.Stems (.block, node) e := by
  obtain ⟨n, hn, hread⟩ := h
  rcases Relation.ReflTransGen.cases_head hn with heq | ⟨b, hb, hrest⟩
  · cases heq
  · refine ⟨n, .head ?_ hrest, hread⟩
    unfold Child at hb ⊢
    rw [← nodes_compound hkind]
    exact hb

theorem decl_stems {d : Decl} (h : r.decl fuel (some node) place = .ok d) :
    d.Throughout (r.Stems (.decl, node)) fun _ => True := by
  obtain ⟨hbody, hinit⟩ := r.decl_tallies fuel node place d h
  refine Decl.throughout_iff.mpr ⟨?_, ?_⟩
  · intro body hsome s hs
    obtain ⟨n, hn, place', hread⟩ := hbody.sourced body (Option.mem_toList.mpr hsome)
    obtain ⟨position, hcompound⟩ := compound_eq_ok hread
    have hkind := r.kind_of_compound hcompound
    have hstems := (stmt_stems hcompound).child (t := s) hs
    exact hstems.imp (fun e he => he.imp fun _ hx => (hx.block hkind).above hn) fun _ => id
  · intro e he
    exact stems_of_tally hinit (Option.mem_toList.mpr he)

end Stems

section Accepts

variable {r} {a b : Role × Json}

/-- The node can be read in its role, as far as expressions may stand below it. -/
def Accepts (r : Reading) : Role × Json → Prop
  | (.expr, n) => ∃ fuel place e, r.expr fuel (some n) place = .ok e
  | (.stmt, n) => ∃ fuel place s, r.stmt fuel (some n) place = .ok s
  | (.block, n) => ∃ fuel place body, r.compound fuel (some n) place = .ok body
  | (.var, n) => ∃ fuel place v, r.varDecl fuel (some n) place = .ok v
  | (.arm, n) => ∃ fuel place c, r.switchCase fuel (r.stmt fuel) (some n) place = .ok c
  | (.decl, n) => ∃ fuel place d, r.decl fuel (some n) place = .ok d
  | (.type, _) | (.param, _) | (.field, _) | (.record, _) => True

/-- A node that can be read has children that can be read. -/
theorem accepts_child (hab : Child a b) (ha : r.Accepts a) : r.Accepts b := by
  obtain ⟨role, node⟩ := a
  obtain ⟨target, n⟩ := b
  have hn : some n ∈ role.nodes target node := hab
  have hleads := Role.leads_of_nodes hn
  cases role with
  | expr =>
    obtain ⟨fuel, place, e, hread⟩ := ha
    cases fuel with
    | zero => cases hread
    | succ fuel =>
      cases target with
      | expr =>
        exact ⟨fuel, (r.expr_tallies fuel node place e hread).readable n hn⟩
      | type => trivial
      | _ => cases hleads
  | stmt =>
    obtain ⟨fuel, place, s, hread⟩ := ha
    cases fuel with
    | zero => cases hread
    | succ fuel =>
      obtain ⟨⟨es, hes, -⟩, ⟨ss, hss, -⟩, hvars, hcases⟩ := r.stmt_tallies fuel node place s hread
      cases target with
      | expr => exact ⟨fuel, hes.readable n hn⟩
      | stmt => exact ⟨fuel, hss.readable n hn⟩
      | var => exact ⟨fuel, hvars.readable n hn⟩
      | arm => exact ⟨fuel, hcases.readable n hn⟩
      | _ => cases hleads
  | block =>
    obtain ⟨fuel, place, body, hread⟩ := ha
    obtain ⟨position, hcompound⟩ := compound_eq_ok hread
    cases fuel with
    | zero => cases hcompound
    | succ fuel =>
      rw [← nodes_compound (r.kind_of_compound hcompound)] at hn
      obtain ⟨-, ⟨ss, hss, -⟩, -, -⟩ := r.stmt_tallies fuel node place _ hcompound
      cases target with
      | stmt => exact ⟨fuel, hss.readable n hn⟩
      | _ => cases hleads
  | arm =>
    obtain ⟨fuel, place, c, hread⟩ := ha
    obtain ⟨hlabel, hbody⟩ := r.switchCase_tallies fuel node place c hread
    cases target with
    | expr => exact ⟨fuel, hlabel.readable n hn⟩
    | stmt => exact ⟨fuel, hbody.readable n hn⟩
    | _ => cases hleads
  | var =>
    obtain ⟨fuel, place, v, hread⟩ := ha
    cases target with
    | expr =>
      exact ⟨fuel, (r.varDecl_tallies fuel node place v hread).readable n hn⟩
    | type => trivial
    | _ => cases hleads
  | decl =>
    obtain ⟨fuel, place, d, hread⟩ := ha
    obtain ⟨hbody, hinit⟩ := r.decl_tallies fuel node place d hread
    cases target with
    | block => exact ⟨fuel, hbody.readable n hn⟩
    | expr => exact ⟨fuel, hinit.readable n hn⟩
    | type | param => trivial
    | _ => cases hleads
  | type | param | field | record =>
    cases target with
    | type | field => trivial
    | _ => cases hleads

theorem accepts_below (hab : Below a b) (ha : r.Accepts a) : r.Accepts b := by
  induction hab with
  | refl => exact ha
  | tail _ hchild ih => exact accepts_child hchild ih

end Accepts

end Reading

/-- A node that an expression of the dump is read from. -/
def ExprNode (dump n : Json) : Prop :=
  ∃ d, some d ∈ itemsAt "decls" dump ∧ Below (.decl, d) (.expr, n)

/-- The expressions of a unit are what the nodes of its dump are read as, and all of these can be
read. -/
theorem resolve_nodes {path : String} {markers : Markers} {dump : Json} {loaded : Loaded}
    (h : resolve path markers dump = .ok loaded) :
    (∀ d ∈ loaded.unit.decls, d.Throughout (fun e => ∃ n, ExprNode dump n ∧
      ∃ fuel place, (readingOf path dump).expr fuel (some n) place = .ok e) fun _ => True) ∧
    ∀ n, ExprNode dump n → ∃ fuel place e,
      (readingOf path dump).expr fuel (some n) place = .ok e := by
  rw [resolve_eq] at h
  split at h
  · cases h
  · obtain ⟨records, -, h⟩ := Result.bind_eq_ok.mp h
    obtain ⟨decls, hdecls, h⟩ := Result.bind_eq_ok.mp h
    cases h
    have htally := tally_indexed ((readingOf path dump).decl_needsNode _) hdecls
    refine ⟨?_, ?_⟩
    · intro d hd
      obtain ⟨node, hnode, place, hread⟩ := htally.sourced d hd
      refine (Reading.decl_stems hread).imp (fun e he => he.imp ?_) fun _ => id
      rintro x ⟨n, hn, hx⟩
      exact ⟨n, ⟨node, hnode, hn⟩, hx⟩
    · rintro n ⟨node, hnode, hn⟩
      obtain ⟨place, d, hread⟩ := htally.readable node hnode
      exact Reading.accepts_below hn ⟨_, place, d, hread⟩

end Dump

end DartLowering
