import DartLowering.Proofs.EmissionFailures
import DartLowering.Proofs.SplitTexts
import DartLowering.Proofs.Supported
import Mathlib.Data.List.Range

/-!
The labels of nested switches. A label tells the depth of its switch and the number of its case, so
no two cases of a switch share one and no case shares one with a switch around it. An emitted case
goes on at the label of another case of its switch, wherever switches stand: the statements that
name or carry labels are those that the switches of the source become, and at the same places.
-/
namespace DartLowering

/-- `s` is one of the statements or stands inside one of them, where `parts` gives what stands
directly inside a statement. -/
inductive Amid {σ : Type} (parts : σ → List σ) : List σ → σ → Prop
  | here {ss : List σ} {s : σ} (hs : s ∈ ss) : Amid parts ss s
  | inside {ss : List σ} {t s : σ} (ht : t ∈ ss) (hs : Amid parts (parts t) s) : Amid parts ss s

/-- Switches inside one another, the outermost first, each given by its cases. -/
inductive Nest {σ γ : Type} (parts : σ → List σ) (cases? : σ → Option (List γ))
    (body : γ → List σ) : List σ → List (List γ) → Prop
  | one {ss : List σ} {s : σ} {cs : List γ} (hs : Amid parts ss s) (hcases : cases? s = some cs) :
      Nest parts cases? body ss [cs]
  | more {ss : List σ} {s : σ} {cs : List γ} {c : γ} {chain : List (List γ)}
      (hs : Amid parts ss s) (hcases : cases? s = some cs) (hc : c ∈ cs)
      (hrest : Nest parts cases? body (body c) chain) : Nest parts cases? body ss (cs :: chain)

section Amid

variable {σ : Type} {parts : σ → List σ} {ss tt : List σ} {s t : σ}

theorem amid_iff : Amid parts ss s ↔ ∃ t ∈ ss, s = t ∨ Amid parts (parts t) s := by
  constructor
  · rintro (hs | ⟨ht, hs⟩)
    · exact ⟨s, hs, .inl rfl⟩
    · exact ⟨_, ht, .inr hs⟩
  · rintro ⟨t, ht, rfl | hs⟩
    · exact .here ht
    · exact .inside ht hs

theorem amid_nil : ¬ Amid parts [] s := by
  rw [amid_iff]
  rintro ⟨t, ht, -⟩
  cases ht

theorem amid_singleton : Amid parts [t] s ↔ s = t ∨ Amid parts (parts t) s := by
  rw [amid_iff]
  simp

theorem amid_leaf (ht : parts t = []) : Amid parts [t] s ↔ s = t := by
  rw [amid_singleton, ht, or_iff_left amid_nil]

theorem amid_append : Amid parts (ss ++ tt) s ↔ Amid parts ss s ∨ Amid parts tt s := by
  rw [amid_iff, amid_iff, amid_iff]
  simp only [List.mem_append, or_and_right, exists_or]

variable {γ : Type} {cases? : σ → Option (List γ)} {body : γ → List σ} {chain : List (List γ)}

theorem Nest.append (h : Nest parts cases? body ss chain) (tt : List σ) :
    Nest parts cases? body (ss ++ tt) chain := by
  cases h with
  | one hs hcases => exact .one (amid_append.mpr (.inl hs)) hcases
  | more hs hcases hc hrest => exact .more (amid_append.mpr (.inl hs)) hcases hc hrest

end Amid

namespace Stmt

/-- The statements directly inside a statement, those of the cases of a switch apart. -/
def parts : Stmt → List Stmt
  | .switch _ _ _ => []
  | s => s.children

def cases? : Stmt → Option (List SwitchCase)
  | .switch _ _ cases => some cases
  | _ => none

/-- No other statements stand inside. -/
def isPlain : Stmt → Bool
  | .brk _ | .cont _ | .null _ | .ret _ _ | .decl _ _ | .expr _ _ => true
  | _ => false

/-- Switches inside one another among statements of the source. -/
abbrev Nest := DartLowering.Nest Stmt.parts Stmt.cases? SwitchCase.body

end Stmt

/-- The statements of all branches. -/
def ElseBranch.parts : ElseBranch → List CodeStmt
  | .none => []
  | .block body => body
  | .elseIf _ body rest => body ++ rest.parts

namespace CodeStmt

/-- The statements directly inside an emitted statement, those of the cases of a switch apart. -/
def parts : CodeStmt → List CodeStmt
  | .block body | .whileLoop _ body | .doLoop body _ | .forLoop _ _ _ body => body
  | .ifElse _ body rest => body ++ rest.parts
  | _ => []

def cases? : CodeStmt → Option (List CodeCase)
  | .switch _ cases => some cases
  | _ => none

/-- Switches inside one another among emitted statements. -/
abbrev Nest := DartLowering.Nest CodeStmt.parts CodeStmt.cases? CodeCase.body

/-- The statement carries labels or names one. -/
def isMark : CodeStmt → Bool
  | .switch _ _ | .contAt _ => true
  | _ => false

theorem amid_wrapped {t x : CodeStmt} (ht : t.isMark = false) (hx : x.isMark = true) :
    Amid parts [t] x ↔ Amid parts t.parts x := by
  rw [amid_singleton]
  refine or_iff_right ?_
  rintro rfl
  rw [ht] at hx
  cases hx

end CodeStmt

namespace Lower

open CodeStmt (isMark)

variable {env : TypeEnv} {scope : Scope} {s : Stmt} {x : CodeStmt} {inBlock : Bool}
  {out : List CodeStmt}

/-- The statement `x` stands in the code of `s`. -/
def Places (env : TypeEnv) (scope : Scope) (s : Stmt) (x : CodeStmt) : Prop :=
  ∃ out, stmt env scope true s = .ok out ∧ Amid CodeStmt.parts out x

section Places

/-- In a block a statement has the same code, without the braces around a compound. -/
theorem stmt_inBlock (h : stmt env scope inBlock s = .ok out) :
    ∃ code, stmt env scope true s = .ok code ∧ (out = code ∨ out = [.block code]) := by
  cases inBlock with
  | true => exact ⟨out, h, .inl rfl⟩
  | false =>
    cases s with
    | compound position body =>
      simp only [stmt, Bool.false_eq_true, if_false, Result.locate_eq_ok, Result.bind_eq_ok,
        Except.ok.injEq] at h
      obtain ⟨code, hcode, rfl⟩ := h
      exact ⟨code, by simpa only [stmt, if_true] using hcode, .inr rfl⟩
    | _ => exact ⟨out, by simpa only [stmt] using h, .inl rfl⟩

theorem inBlock_ok (h : ∃ out, stmt env scope inBlock s = .ok out) :
    ∃ code, stmt env scope true s = .ok code := by
  obtain ⟨out, hout⟩ := h
  obtain ⟨code, hcode, -⟩ := stmt_inBlock hout
  exact ⟨code, hcode⟩

theorem places_of_stmt (h : stmt env scope true s = .ok out) :
    Places env scope s x ↔ Amid CodeStmt.parts out x := by
  constructor
  · rintro ⟨out', hout, hx⟩
    rw [h] at hout
    cases hout
    exact hx
  · exact fun hx => ⟨out, h, hx⟩

variable (hx : x.isMark = true)

include hx

theorem places_iff (h : stmt env scope inBlock s = .ok out) :
    Places env scope s x ↔ Amid CodeStmt.parts out x := by
  obtain ⟨code, hcode, rfl | rfl⟩ := stmt_inBlock h
  · exact places_of_stmt hcode
  · rw [places_of_stmt hcode, CodeStmt.amid_wrapped rfl hx]
    rfl

theorem stmts_places {body : List Stmt} {code : List CodeStmt}
    (h : stmts env scope body = .ok code) :
    Amid CodeStmt.parts code x ↔ ∃ s ∈ body, Places env scope s x := by
  induction body generalizing code with
  | nil =>
    simp only [stmts, Except.ok.injEq] at h
    simp [← h, amid_nil]
  | cons s ss ih =>
    simp only [stmts, Result.bind_eq_ok, Except.ok.injEq] at h
    obtain ⟨first, hfirst, rest, hrest, rfl⟩ := h
    rw [amid_append, ih hrest, ← places_iff hx hfirst]
    simp

/-- What follows else holds what the code of its statement holds. -/
theorem branch_parts (h : stmt env scope true s = .ok out) :
    Amid CodeStmt.parts (s.branch out).parts x ↔ Amid CodeStmt.parts out x := by
  cases s with
  | ifElse position cond then_ else_ =>
    simp only [stmt, Result.locate_eq_ok, Result.bind_eq_ok, Except.ok.injEq] at h
    obtain ⟨test, -, body, -, rest, -, rfl⟩ := h
    exact (CodeStmt.amid_wrapped (t := .ifElse test body rest) rfl hx).symm
  | _ => rfl

theorem elseBranch_places {else_ : Option Stmt} {rest : ElseBranch}
    (h : elseBranch env scope else_ = .ok rest) :
    Amid CodeStmt.parts rest.parts x ↔ ∃ t ∈ else_.toList, Places env scope t x := by
  cases else_ with
  | none =>
    simp only [elseBranch, Except.ok.injEq] at h
    simp [← h, ElseBranch.parts, amid_nil]
  | some t =>
    rw [elseBranch_some] at h
    obtain ⟨code, hcode, h⟩ := Result.bind_eq_ok.mp h
    cases h
    rw [branch_parts hx hcode, ← places_of_stmt hcode]
    simp

theorem localVariables_unmarked {vs : List VarDecl} (h : localVariables env scope vs = .ok out) :
    ¬ Amid CodeStmt.parts out x := by
  induction vs generalizing out with
  | nil =>
    cases h
    exact amid_nil
  | cons v vs ih =>
    simp only [localVariables, Result.bind_eq_ok, Except.ok.injEq] at h
    obtain ⟨var, -, rest, hrest, rfl⟩ := h
    rw [← List.singleton_append, amid_append, CodeStmt.amid_wrapped rfl hx]
    exact not_or.mpr ⟨amid_nil, ih hrest⟩

/-- Statements without others inside them become statements without labels. -/
theorem plain_unmarked (hs : s.isPlain = true) (h : stmt env scope inBlock s = .ok out) :
    ¬ Amid CodeStmt.parts out x := by
  have hone : ∀ t : CodeStmt, t.isMark = false → t.parts = [] → ¬ Amid CodeStmt.parts [t] x := by
    intro t ht hparts
    rw [CodeStmt.amid_wrapped ht hx, hparts]
    exact amid_nil
  cases s with
  | brk | cont | null =>
    simp only [stmt, Except.ok.injEq] at h
    exact h ▸ hone _ rfl rfl
  | ret position value =>
    simp only [stmt, Result.locate_eq_ok, Result.bind_eq_ok, Except.ok.injEq] at h
    obtain ⟨code, -, rfl⟩ := h
    exact hone _ rfl rfl
  | decl position vs =>
    rw [stmt, Result.locate_eq_ok] at h
    exact localVariables_unmarked hx h
  | expr position value =>
    rw [stmt, Result.locate_eq_ok] at h
    split at h
    · cases h
      exact amid_nil
    · obtain ⟨code, -, h⟩ := Result.bind_eq_ok.mp h
      cases h
      exact hone _ rfl rfl
  | _ => cases hs

theorem loopStart_unmarked {position : Position} {init : Option Stmt} {start : LoopStart}
    (h : loopStart env scope position init = .ok start) :
    ∀ t ∈ init.toList, ¬ Places env scope t x := by
  cases init with
  | none => simp
  | some t =>
    refine List.forall_mem_singleton.mpr ?_
    rintro ⟨out, hout, hplaced⟩
    have hplain : t.isPlain = true := by
      cases t with
      | decl | expr => rfl
      | _ => cases h
    exact plain_unmarked hx hplain hout hplaced

omit hx in
/-- Outside of switches, what stands inside a statement has code as well, and labels are carried and
named in that code. -/
theorem places_parts (hs : s.cases? = none) (h : stmt env scope true s = .ok out) :
    (∀ t ∈ s.parts, ∃ code, stmt env scope true t = .ok code) ∧
      ∀ x : CodeStmt, x.isMark = true →
        (Places env scope s x ↔ ∃ t ∈ s.parts, Places env scope t x) := by
  have hplain : s.isPlain = true → s.parts = [] →
      (∀ t ∈ s.parts, ∃ code, stmt env scope true t = .ok code) ∧
        ∀ x : CodeStmt, x.isMark = true →
          (Amid CodeStmt.parts out x ↔ ∃ t ∈ s.parts, Places env scope t x) := by
    intro hplain hparts
    rw [hparts]
    exact ⟨List.forall_mem_nil _, fun x hx =>
      ⟨fun hx' => absurd hx' (plain_unmarked hx hplain h), by simp⟩⟩
  simp only [places_of_stmt h]
  cases s with
  | compound position body =>
    simp only [stmt, if_true] at h
    exact ⟨fun t ht => inBlock_ok (stmts_mem h t ht), fun x hx => stmts_places hx h⟩
  | ifElse position cond then_ else_ =>
    simp only [stmt, Result.locate_eq_ok, Result.bind_eq_ok, Except.ok.injEq] at h
    obtain ⟨test, -, body, hbody, rest, hrest, rfl⟩ := h
    refine ⟨List.forall_mem_cons.mpr ⟨⟨body, hbody⟩, elseBranch_mem hrest⟩, fun x hx => ?_⟩
    rw [CodeStmt.amid_wrapped rfl hx, CodeStmt.parts, amid_append, elseBranch_places hx hrest,
      ← places_of_stmt hbody]
    simp [Stmt.parts, Stmt.children]
  | whileLoop position cond inner =>
    simp only [stmt, Result.locate_eq_ok, Result.bind_eq_ok, Except.ok.injEq] at h
    obtain ⟨test, -, body, hbody, rfl⟩ := h
    refine ⟨List.forall_mem_singleton.mpr ⟨body, hbody⟩, fun x hx => ?_⟩
    rw [CodeStmt.amid_wrapped rfl hx, CodeStmt.parts, ← places_of_stmt hbody]
    simp [Stmt.parts, Stmt.children]
  | doLoop position inner cond =>
    simp only [stmt, Result.locate_eq_ok, Result.bind_eq_ok, Except.ok.injEq] at h
    obtain ⟨body, hbody, test, -, rfl⟩ := h
    refine ⟨List.forall_mem_singleton.mpr ⟨body, hbody⟩, fun x hx => ?_⟩
    rw [CodeStmt.amid_wrapped rfl hx, CodeStmt.parts, ← places_of_stmt hbody]
    simp [Stmt.parts, Stmt.children]
  | forLoop position init cond inc inner =>
    simp only [stmt, Result.locate_eq_ok, Result.bind_eq_ok, Except.ok.injEq] at h
    obtain ⟨start, hstart, test, -, step, -, body, hbody, rfl⟩ := h
    constructor
    · refine List.forall_mem_append.mpr ⟨?_, List.forall_mem_singleton.mpr ⟨body, hbody⟩⟩
      cases init with
      | none => simp
      | some init => exact List.forall_mem_singleton.mpr (inBlock_ok (loopStart_eq_ok hstart).1)
    · intro x hx
      have hinit := loopStart_unmarked hx hstart
      rw [CodeStmt.amid_wrapped rfl hx, CodeStmt.parts, ← places_of_stmt hbody]
      simp only [Stmt.parts, Stmt.children, List.mem_append, List.mem_singleton, or_and_right,
        exists_or, exists_eq_left]
      refine (or_iff_right ?_).symm
      rintro ⟨t, ht, hplaced⟩
      exact hinit t ht hplaced
  | switch position cond cases => cases hs
  | _ => exact hplain rfl rfl

end Places

section Switches

open Fallthrough (Lowered emittedOrder)

/-- A switch and the emitted cases that it becomes. -/
structure Becomes (env : TypeEnv) (scope : Scope) (cs : List SwitchCase) (ds : List CodeCase) :
    Prop where
  oneDefault : (cs.filter SwitchCase.isDefault).length ≤ 1
  lowered : ∃ inOrder, Lowered env scope (caseLabels cs) cs inOrder ∧ ds = emittedOrder inOrder

theorem stmt_switch (h : stmt env scope inBlock s = .ok out) {cs : List SwitchCase}
    (hs : s.cases? = some cs) :
    ∃ subject ds, out = [.switch subject ds] ∧ Becomes env scope cs ds := by
  cases s with
  | switch position cond cases =>
    cases hs
    obtain ⟨hdefault, code, ds, -, hds, rfl⟩ := Fallthrough.stmt_switch_eq_ok.mp h
    exact ⟨_, _, rfl, hdefault, ds, hds, rfl⟩
  | _ => cases hs

/-- What carries or names labels in the code of a statement is a switch, and it is the code of a
switch in the statement. -/
theorem switch_of_places (hx : x.isMark = true) (h : Places env scope s x) :
    ∃ t cs subject ds, Amid Stmt.parts [s] t ∧ t.cases? = some cs ∧ x = .switch subject ds ∧
      Becomes env scope cs ds := by
  induction s using Stmt.childInduction with
  | step s ih =>
    obtain ⟨out, hout, hplaced⟩ := h
    cases hs : s.cases? with
    | some cs =>
      obtain ⟨subject, ds, rfl, hbecomes⟩ := stmt_switch hout hs
      exact ⟨s, cs, subject, ds, .here List.mem_cons_self, hs, (amid_leaf rfl).mp hplaced, hbecomes⟩
    | none =>
      obtain ⟨t, ht, hplaced⟩ := ((places_parts hs hout).2 x hx).mp ⟨out, hout, hplaced⟩
      have hchild : t ∈ s.children := by
        cases s with
        | switch => cases hs
        | _ => exact ht
      obtain ⟨u, cs, subject, ds, hu, hcases, rfl, hbecomes⟩ := ih t hchild hplaced
      refine ⟨u, cs, subject, ds, .inside List.mem_cons_self ?_, hcases, rfl, hbecomes⟩
      rcases amid_singleton.mp hu with rfl | hu
      · exact .here ht
      · exact .inside ht hu

/-- The code of a switch stands where the switch stands. -/
theorem places_switch {ss : List Stmt} {t : Stmt} {cs : List SwitchCase}
    (ht : Amid Stmt.parts ss t) (hcases : t.cases? = some cs)
    (hss : ∀ s ∈ ss, ∃ out, stmt env scope true s = .ok out) :
    ∃ s ∈ ss, ∃ subject ds, Places env scope s (.switch subject ds) ∧ Becomes env scope cs ds := by
  induction ht with
  | @here ss s hs =>
    obtain ⟨out, hout⟩ := hss s hs
    obtain ⟨subject, ds, rfl, hbecomes⟩ := stmt_switch hout hcases
    exact ⟨s, hs, subject, ds, ⟨_, hout, .here List.mem_cons_self⟩, hbecomes⟩
  | @inside ss t s ht hs ih =>
    obtain ⟨out, hout⟩ := hss t ht
    have hplain : t.cases? = none := by
      cases t with
      | switch => exact absurd hs amid_nil
      | _ => rfl
    obtain ⟨hparts, hplaces⟩ := places_parts hplain hout
    obtain ⟨u, hu, subject, ds, hplaced, hbecomes⟩ := ih hcases hparts
    exact ⟨t, ht, subject, ds, (hplaces _ rfl).mpr ⟨u, hu, hplaced⟩, hbecomes⟩

/-- Code goes on at no label outside of its own switches. -/
theorem no_exit {body : List Stmt} {code : List CodeStmt} (h : stmts env scope body = .ok code)
    (label : String) : ¬ Amid CodeStmt.parts code (.contAt label) := by
  intro hexit
  obtain ⟨s, -, hplaced⟩ := (stmts_places rfl h).mp hexit
  obtain ⟨-, -, subject, ds, -, -, heq, -⟩ := switch_of_places rfl hplaced
  cases heq

end Switches

section Nests

open Fallthrough (Lowered Renders emittedOrder emittedOrder_perm)

/-- Nested switches and the nested emitted switches that they become. -/
inductive Emitted (env : TypeEnv) : Scope → List (List SwitchCase) → List (List CodeCase) → Prop
  | nil {scope : Scope} : Emitted env scope [] []
  | cons {scope : Scope} {cs : List SwitchCase} {ds : List CodeCase}
      {chain : List (List SwitchCase)} {emitted : List (List CodeCase)}
      (hcases : Becomes env scope cs ds)
      (hrest : Emitted env { scope with switchDepth := scope.switchDepth + 1 } chain emitted) :
      Emitted env scope (cs :: chain) (ds :: emitted)

theorem renders_of_lowered {labels : List Nat} {cs : List SwitchCase} {ds : List CodeCase}
    (h : Lowered env scope labels cs ds) :
    (∀ c ∈ cs, ∃ d ∈ ds, Renders env scope c d) ∧ ∀ d ∈ ds, ∃ c ∈ cs, Renders env scope c d := by
  induction h with
  | nil => exact ⟨List.forall_mem_nil _, List.forall_mem_nil _⟩
  | @cons label labels c cs ds s code hselector hbody hrest ih =>
    have hfirst := (@Lowered.cons _ _ label labels c cs ds s code hselector hbody hrest).renders
    refine ⟨List.forall_mem_cons.mpr ⟨⟨_, List.mem_cons_self, hfirst⟩, fun c hc => ?_⟩,
      List.forall_mem_cons.mpr ⟨⟨_, List.mem_cons_self, hfirst⟩, fun d hd => ?_⟩⟩
    · obtain ⟨d, hd, hrenders⟩ := ih.1 c hc
      exact ⟨d, List.mem_cons_of_mem _ hd, hrenders⟩
    · obtain ⟨c, hc, hrenders⟩ := ih.2 d hd
      exact ⟨c, List.mem_cons_of_mem _ hc, hrenders⟩

section Becomes

variable {cs : List SwitchCase} {ds : List CodeCase} (h : Becomes env scope cs ds)

include h

theorem Becomes.renders_case {c : SwitchCase} (hc : c ∈ cs) : ∃ d ∈ ds, Renders env scope c d := by
  obtain ⟨inOrder, hlowered, rfl⟩ := h.lowered
  obtain ⟨d, hd, hrenders⟩ := (renders_of_lowered hlowered).1 c hc
  exact ⟨d, (emittedOrder_perm inOrder).mem_iff.mpr hd, hrenders⟩

theorem Becomes.case_rendered {d : CodeCase} (hd : d ∈ ds) : ∃ c ∈ cs, Renders env scope c d := by
  obtain ⟨inOrder, hlowered, rfl⟩ := h.lowered
  exact (renders_of_lowered hlowered).2 d ((emittedOrder_perm inOrder).mem_iff.mp hd)

end Becomes

/-- Every nest of switches in a body becomes one in its code. -/
theorem nest_emitted {body : List Stmt} {chain : List (List SwitchCase)}
    (hchain : Stmt.Nest body chain) :
    ∀ {scope : Scope} {code : List CodeStmt}, stmts env scope body = .ok code →
      ∃ emitted, CodeStmt.Nest code emitted ∧ Emitted env scope chain emitted := by
  have hplaced : ∀ {scope : Scope} {body : List Stmt} {code : List CodeStmt} {s : Stmt}
      {cs : List SwitchCase}, stmts env scope body = .ok code → Amid Stmt.parts body s →
      s.cases? = some cs →
        ∃ subject ds, Amid CodeStmt.parts code (.switch subject ds) ∧ Becomes env scope cs ds := by
    intro scope body code s cs h hs hcases
    have hbody : ∀ t ∈ body, ∃ out, stmt env scope true t = .ok out := fun t ht =>
      inBlock_ok (stmts_mem h t ht)
    obtain ⟨t, ht, subject, ds, hplaced, hbecomes⟩ := places_switch hs hcases hbody
    exact ⟨subject, ds, (stmts_places rfl h).mpr ⟨t, ht, hplaced⟩, hbecomes⟩
  induction hchain with
  | one hs hcases =>
    intro scope code h
    obtain ⟨subject, ds, hamid, hbecomes⟩ := hplaced h hs hcases
    exact ⟨[ds], .one hamid rfl, .cons hbecomes .nil⟩
  | more hs hcases hc _ ih =>
    intro scope code h
    obtain ⟨subject, ds, hamid, hbecomes⟩ := hplaced h hs hcases
    obtain ⟨d, hd, hrenders⟩ := hbecomes.renders_case hc
    obtain ⟨inner, exit, hinner, hbody, -⟩ := hrenders.body
    obtain ⟨emitted, hnest, hemitted⟩ := ih hinner
    exact ⟨ds :: emitted, .more hamid rfl hd (hbody ▸ hnest.append exit), .cons hbecomes hemitted⟩

/-- Every nest of switches in the code of a body comes from one in the body. At the end of the code
an exit may stand. -/
theorem nest_source {all : List CodeStmt} {emitted : List (List CodeCase)}
    (hnest : CodeStmt.Nest all emitted) :
    ∀ {scope : Scope} {body : List Stmt} {code exit : List CodeStmt}, all = code ++ exit →
      (∀ s, Amid CodeStmt.parts exit s → s.cases? = none) → stmts env scope body = .ok code →
        ∃ chain, Stmt.Nest body chain ∧ Emitted env scope chain emitted := by
  have hsource : ∀ {scope : Scope} {body : List Stmt} {code exit : List CodeStmt} {x : CodeStmt}
      {ds : List CodeCase}, (∀ s, Amid CodeStmt.parts exit s → s.cases? = none) →
      stmts env scope body = .ok code → Amid CodeStmt.parts (code ++ exit) x → x.cases? = some ds →
        ∃ s cs, Amid Stmt.parts body s ∧ s.cases? = some cs ∧ Becomes env scope cs ds := by
    intro scope body code exit x ds hexit h hx hcases
    cases x with
    | switch subject cases =>
      cases hcases
      rcases amid_append.mp hx with hx | hx
      · obtain ⟨t, ht, hplaced⟩ := (stmts_places rfl h).mp hx
        obtain ⟨s, cs, _, _, hs, hcs, heq, hbecomes⟩ := switch_of_places rfl hplaced
        cases heq
        rcases amid_singleton.mp hs with rfl | hs
        · exact ⟨s, cs, .here ht, hcs, hbecomes⟩
        · exact ⟨s, cs, .inside ht hs, hcs, hbecomes⟩
      · exact absurd (hexit _ hx) (by simp [CodeStmt.cases?])
    | _ => cases hcases
  induction hnest with
  | one hx hcases =>
    intro scope body code exit hall hexit h
    subst hall
    obtain ⟨s, cs, hs, hcs, hbecomes⟩ := hsource hexit h hx hcases
    exact ⟨[cs], .one hs hcs, .cons hbecomes .nil⟩
  | more hx hcases hd _ ih =>
    intro scope body code exit hall hexit h
    subst hall
    obtain ⟨s, cs, hs, hcs, hbecomes⟩ := hsource hexit h hx hcases
    obtain ⟨c, hc, hrenders⟩ := hbecomes.case_rendered hd
    obtain ⟨inner, innerExit, hinner, hbody, hplain⟩ := hrenders.body
    have hplain : ∀ s, Amid CodeStmt.parts innerExit s → s.cases? = none := by
      intro s hs
      rcases hplain with rfl | rfl | ⟨label, rfl⟩
      · exact absurd hs amid_nil
      · rw [(amid_leaf rfl).mp hs]
        rfl
      · rw [(amid_leaf rfl).mp hs]
        rfl
    obtain ⟨chain, hchain, hemitted⟩ := ih hbody hplain hinner
    exact ⟨cs :: chain, .more hs hcs hc hchain, .cons hbecomes hemitted⟩

theorem Emitted.getElem {chain : List (List SwitchCase)} {emitted : List (List CodeCase)}
    (h : Emitted env scope chain emitted) {i : Nat} {ds : List CodeCase}
    (hi : emitted[i]? = some ds) :
    ∃ cs, Becomes env { scope with switchDepth := scope.switchDepth + i } cs ds := by
  induction h generalizing i with
  | nil => cases hi
  | @cons scope cs _ _ _ hcases _ ih =>
    cases i with
    | zero =>
      cases hi
      exact ⟨cs, hcases⟩
    | succ i =>
      obtain ⟨cs, hbecomes⟩ := ih hi
      have hdepth : scope.switchDepth + 1 + i = scope.switchDepth + (i + 1) := by omega
      rw [hdepth] at hbecomes
      exact ⟨cs, hbecomes⟩

end Nests

section Labels

open Fallthrough (Lowered emittedOrder emittedOrder_perm)

variable {cs : List SwitchCase} {ds : List CodeCase}

theorem underscore_not_mem_decimalNat (n : Nat) : '_' ∉ (Text.decimalNat n).toList := by
  intro hmem
  rw [Text.decimalNat, String.toList_ofList] at hmem
  have hdigit := Nat.isDigit_of_mem_toDigits (by omega) (by omega) hmem
  cases hdigit

theorem split_numbers (m n : Nat) :
    Text.split '_' (Text.decimalNat m ++ "_" ++ Text.decimalNat n) =
      [Text.decimalNat m, Text.decimalNat n] := by
  have hcut := Text.split_append '_' (Text.decimalNat m) (Text.decimalNat n)
  rw [Text.split_of_not_mem (underscore_not_mem_decimalNat m),
    Text.split_of_not_mem (underscore_not_mem_decimalNat n)] at hcut
  exact hcut

/-- Only labels of inner switches hold an underscore. -/
theorem underscore_mem_switchLabel (depth k : Nat) :
    '_' ∈ (switchLabel depth k).toList ↔ depth ≠ 0 := by
  have hdigits := underscore_not_mem_decimalNat k
  by_cases hdepth : depth = 0
  · simp [switchLabel, hdepth, hdigits]
  · simp [switchLabel, hdepth]

/-- A label tells the depth of its switch. -/
theorem depth_of_switchLabel {depth depth' k k' : Nat}
    (h : switchLabel depth k = switchLabel depth' k') : depth = depth' := by
  have hboth := underscore_mem_switchLabel depth k
  rw [h, underscore_mem_switchLabel, not_iff_not] at hboth
  by_cases hdepth : depth = 0
  · rw [hdepth, hboth.mpr hdepth]
  · have hdepth' : depth' ≠ 0 := mt hboth.mp hdepth
    rw [switchLabel, switchLabel, if_neg hdepth, if_neg hdepth', String.append_assoc,
      String.append_assoc, String.append_assoc, String.append_assoc, String.append_right_inj,
      ← String.append_assoc, ← String.append_assoc] at h
    have hsplit := congrArg (Text.split '_') h
    rw [split_numbers, split_numbers] at hsplit
    exact Fallthrough.decimalNat_injective (List.cons.inj hsplit).1

theorem caseLabels_perm (h : (cs.filter SwitchCase.isDefault).length ≤ 1) :
    (caseLabels cs).Perm (List.range' 1 cs.length) := by
  have hlength : (caseLabels cs).length = cs.length := Fallthrough.labelsFrom_length ..
  have hcount : cs.length = cs.countP SwitchCase.isDefault + cs.countP (fun c => !c.isDefault) := by
    simpa using List.length_eq_countP_add_countP SwitchCase.isDefault (l := cs)
  have hsubset : caseLabels cs ⊆ List.range' 1 cs.length := by
    intro label hlabel
    rw [List.mem_range'_1]
    rcases Fallthrough.mem_labelsFrom hlabel with ⟨rfl, hdefault⟩ | hbounds
    · have hpos : 0 < cs.countP SwitchCase.isDefault :=
        List.countP_pos_iff.mpr (List.any_eq_true.mp hdefault)
      omega
    · omega
  refine (List.subperm_of_subset (Fallthrough.caseLabels_nodup h) hsubset).perm_of_length_le ?_
  rw [List.length_range', hlength]

/-- The labels of an emitted switch `depth` switches deep. -/
structure LabelledCases (depth : Nat) (ds : List CodeCase) : Prop where
  distinct : (ds.map CodeCase.label).Nodup
  /-- One label for each case, with the numbers from 1 on. -/
  numbered : (ds.map CodeCase.label).Perm ((List.range' 1 ds.length).map (switchLabel depth))
  /-- A case goes on at another case of the same switch. -/
  bound : ∀ d ∈ ds, ∀ label, Amid CodeStmt.parts d.body (.contAt label) →
    ∃ e ∈ ds, e.label = label ∧ label ≠ d.label

theorem exits_of_lowered {labels : List Nat} (h : Lowered env scope labels cs ds)
    (hlabels : labels.Nodup) :
    ∀ d ∈ ds, ∀ label, Amid CodeStmt.parts d.body (.contAt label) →
      ∃ e ∈ ds, e.label = label ∧ label ≠ d.label := by
  induction h with
  | nil => exact List.forall_mem_nil _
  | @cons number numbers c cs ds s code hselector hbody hrest ih =>
    rw [List.nodup_cons] at hlabels
    refine List.forall_mem_cons.mpr ⟨fun label hexit => ?_, fun d hd label hexit => ?_⟩
    · rcases amid_append.mp hexit with hexit | hexit
      · exact absurd hexit (no_exit hbody label)
      · unfold caseExit at hexit
        split at hexit
        · exact absurd hexit amid_nil
        · cases hrest with
          | nil => cases (amid_leaf rfl).mp hexit
          | @cons next =>
            cases (amid_leaf rfl).mp hexit
            refine ⟨_, List.mem_cons_of_mem _ List.mem_cons_self, rfl, fun heq => ?_⟩
            have hsame : next = number := Fallthrough.switchLabel_injective _ heq
            exact hlabels.1 (hsame ▸ List.mem_cons_self)
    · obtain ⟨e, he, hlabel⟩ := ih hlabels.2 d hd label hexit
      exact ⟨e, List.mem_cons_of_mem _ he, hlabel⟩

theorem Becomes.labelled (h : Becomes env scope cs ds) : LabelledCases scope.switchDepth ds := by
  obtain ⟨inOrder, hlowered, rfl⟩ := h.lowered
  have hperm := emittedOrder_perm inOrder
  have hnodup := Fallthrough.caseLabels_nodup h.oneDefault
  have hlabels := hlowered.labels_eq
  have hlength : inOrder.length = cs.length := by
    have hsame := congrArg List.length hlabels
    rwa [List.length_map, List.length_map, caseLabels, Fallthrough.labelsFrom_length] at hsame
  refine ⟨?_, ?_, fun d hd label hexit => ?_⟩
  · rw [(hperm.map _).nodup_iff, hlabels]
    exact hnodup.map (Fallthrough.switchLabel_injective _)
  · refine (hperm.map _).trans ?_
    rw [hlabels, hperm.length_eq, hlength]
    exact (caseLabels_perm h.oneDefault).map _
  · obtain ⟨e, he, hlabel⟩ := exits_of_lowered hlowered hnodup d (hperm.mem_iff.mp hd) label hexit
    exact ⟨e, hperm.mem_iff.mpr he, hlabel⟩

/-- Labels of switches at different depths differ. -/
theorem LabelledCases.label_ne {depth depth' : Nat} {es : List CodeCase} (hdepth : depth ≠ depth')
    (hds : LabelledCases depth ds) (hes : LabelledCases depth' es) :
    ∀ d ∈ ds, ∀ e ∈ es, d.label ≠ e.label := by
  intro d hd e he heq
  obtain ⟨k, -, hk⟩ := List.mem_map.mp (hds.numbered.mem_iff.mp (List.mem_map_of_mem hd))
  obtain ⟨l, -, hl⟩ := List.mem_map.mp (hes.numbered.mem_iff.mp (List.mem_map_of_mem he))
  rw [← hk, ← hl] at heq
  exact hdepth (depth_of_switchLabel heq)

/-- The emitted cases are selected as the cases of the source are, in some order. -/
def SameCases (env : TypeEnv) (cs : List SwitchCase) (ds : List CodeCase) : Prop :=
  (cs.map (SwitchCase.selector? env)).Perm ((ds.map CodeCase.selector).map some)

theorem Becomes.same (h : Becomes env scope cs ds) : SameCases env cs ds := by
  obtain ⟨inOrder, hlowered, rfl⟩ := h.lowered
  rw [SameCases, hlowered.selectors_eq]
  exact (((emittedOrder_perm inOrder).symm.map _).map _)

theorem Emitted.same {chain : List (List SwitchCase)} {emitted : List (List CodeCase)}
    (h : Emitted env scope chain emitted) : List.Forall₂ (SameCases env) chain emitted := by
  induction h with
  | nil => exact .nil
  | cons hcases _ ih => exact .cons hcases.same ih

/-- In the code of a body, each nest of switches of the body has its nest of emitted switches. The
labels of an emitted switch are pairwise distinct, number its cases from 1 on, and are the labels of
no switch around it. Code goes on at labels in cases only, and there at the label of another case of
the same switch. -/
theorem switch_labels_are_bound (env : TypeEnv) (scope : Scope) (body : List Stmt)
    (code : List CodeStmt) (h : stmts env scope body = .ok code) :
    (∀ chain, Stmt.Nest body chain →
        ∃ emitted, CodeStmt.Nest code emitted ∧ List.Forall₂ (SameCases env) chain emitted) ∧
      (∀ label, ¬ Amid CodeStmt.parts code (.contAt label)) ∧
      ∀ emitted, CodeStmt.Nest code emitted →
        emitted.Pairwise (fun outer inner => ∀ d ∈ outer, ∀ e ∈ inner, d.label ≠ e.label) ∧
          ∀ i ds, emitted[i]? = some ds → LabelledCases (scope.switchDepth + i) ds := by
  refine ⟨fun chain hchain => ?_, no_exit h, fun emitted hnest => ?_⟩
  · obtain ⟨emitted, hnest, hemitted⟩ := nest_emitted hchain h
    exact ⟨emitted, hnest, hemitted.same⟩
  · obtain ⟨chain, -, hemitted⟩ := nest_source hnest (List.append_nil code).symm
      (fun s hs => absurd hs amid_nil) h
    have hlabelled : ∀ i ds, emitted[i]? = some ds → LabelledCases (scope.switchDepth + i) ds := by
      intro i ds hi
      obtain ⟨cs, hbecomes⟩ := hemitted.getElem hi
      exact hbecomes.labelled
    refine ⟨List.pairwise_iff_getElem.mpr fun i j hi hj hlt => ?_, hlabelled⟩
    have hdepth : scope.switchDepth + i ≠ scope.switchDepth + j := by omega
    exact (hlabelled i _ (List.getElem?_eq_getElem hi)).label_ne hdepth
      (hlabelled j _ (List.getElem?_eq_getElem hj))

/-- A switch in a loop in a case of a switch, after the default. -/
def nestedSwitches : List Stmt :=
  let label (v : Int64) : Expr := .int { type := some (.scalar ⟨.int, 32, true⟩) } v
  [.switch {} (.ref {} "x" .var)
    [.mk {} none [],
      .mk {} (some (label 4)) [.whileLoop {} (.ref {} "y" .var)
        (.switch {} (.ref {} "y" .var) [.mk {} (some (label 7)) []])]]]

theorem nestedSwitches_labels_are_bound :
    ∃ code outer inner, stmts (.ofMarkers "" "" []) {} nestedSwitches = .ok code ∧
      CodeStmt.Nest code [outer, inner] ∧
      (outer.map CodeCase.label).Perm ["label1", "label2"] ∧
      inner.map CodeCase.label = ["label1_1"] ∧
      ∀ d ∈ outer, ∀ label, Amid CodeStmt.parts d.body (.contAt label) → label ≠ d.label := by
  have hok : (stmts (.ofMarkers "" "" []) {} nestedSwitches).toBool = true := by
    decide +kernel
  cases hcode : stmts (.ofMarkers "" "" []) {} nestedSwitches with
  | error f =>
    rw [hcode] at hok
    cases hok
  | ok code =>
    obtain ⟨hnests, -, hall⟩ := switch_labels_are_bound _ {} nestedSwitches code hcode
    have hsource : Stmt.Nest nestedSwitches [_, _] :=
      .more (.here List.mem_cons_self) rfl (List.mem_cons_of_mem _ List.mem_cons_self)
        (.one (.inside List.mem_cons_self (.here List.mem_cons_self)) rfl)
    obtain ⟨emitted, hnest, hsame⟩ := hnests _ hsource
    obtain ⟨-, hlabelled⟩ := hall emitted hnest
    cases hsame with
    | @cons _ outer _ _ houter hrest =>
      cases hrest with
      | @cons _ inner _ _ hinner hnil =>
        cases hnil
        have hlong : outer.length = 2 := by simpa using houter.length_eq.symm
        have hshort : inner.length = 1 := by simpa using hinner.length_eq.symm
        have hfirst := hlabelled 0 outer rfl
        have hsecond := hlabelled 1 inner rfl
        have hnumbered := hfirst.numbered
        have hnumber := hsecond.numbered
        rw [hlong] at hnumbered
        rw [hshort] at hnumber
        refine ⟨code, outer, inner, rfl, hnest, hnumbered, List.perm_singleton.mp hnumber, ?_⟩
        intro d hd label hexit
        obtain ⟨e, -, -, hne⟩ := hfirst.bound d hd label hexit
        exact hne

end Labels

end Lower

end DartLowering
