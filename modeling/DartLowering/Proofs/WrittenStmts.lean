import DartLowering.Emit.Stmt
import DartLowering.Proofs.EmissionFailures
import DartLowering.Proofs.WrittenExprs

/-!
Writing a statement line by line gives the lines of its code. A writer at the start of a line takes
whole lines (`Writer.add`); `Adds` says that a writing adds lines which depend on the level only. A
block is entered in the middle of a line and left in the middle of another one, so what stands
around it is written with it.
-/
namespace DartLowering

/-- Whole lines at the end of the text. -/
def Writer.add (w : Writer) (lines : List String) : Writer :=
  { w with text := w.text ++ unlines lines }

namespace Writer

variable {w : Writer} {s : String}

@[simp] theorem add_level (lines : List String) : (w.add lines).level = w.level := rfl

@[simp] theorem add_nil : w.add [] = w := by
  simp [add, unlines, String.join]

@[simp] theorem add_add (lines more : List String) :
    (w.add lines).add more = w.add (lines ++ more) := by
  simp [add, unlines, String.append_assoc]

/-- A line that is not empty stands at its level. -/
theorem print_newline (hw : w.atLineStart = true) (hs : s ≠ "") :
    (w.print s).newline = w.add [indented w.level s] := by
  simp [print, newline, add, unlines, indented, hs, hw, String.append_assoc]

theorem newline_eq (hw : w.atLineStart = true) : w.newline = w.add [""] := by
  simp [newline, add, unlines, hw]

/-- Lines that are added inside a block stay when it is left. -/
theorem deeper_add_shallower (lines : List String) : (w.deeper.add lines).shallower = w.add lines :=
  rfl

end Writer

namespace Writing

variable {β γ : Type} {env : TypeEnv} {m : Writing Unit} {r : Result β}
  {lines : Nat → β → List String} {w : Writer}

/-- At the start of a line, the writing fails as `r` does or adds the lines of its value. -/
def Adds (env : TypeEnv) (m : Writing Unit) (r : Result β) (lines : Nat → β → List String) : Prop :=
  ∀ w : Writer, w.atLineStart = true → Writes env w m r fun b => w.add (lines w.level b)

theorem Writes.line {s : String} {c : γ} {after : γ → Writer} (h : (w.print s).newline = after c) :
    Writes env w (Writing.line s) (.ok c) after :=
  .print_bind (.newline h)

theorem Writes.line_bind {s : String} {k : Unit → Writing Unit} {t : Result γ} {after : γ → Writer}
    (h : Writes env (w.print s).newline (k ()) t after) :
    Writes env w (Writing.line s >>= k) t after :=
  fun layouts hlayouts => h layouts hlayouts

namespace Adds

theorem fail (failure : Failure) : Adds env (Run.fail failure) (.error failure) lines :=
  fun _ _ => .fail failure

theorem locate (p : Position) (h : Adds env m r lines) :
    Adds env (m.locate p) (Result.locate p r) lines :=
  fun w hw => (h w hw).locate p

theorem line {s : String} {b : β} (hs : s ≠ "") (h : ∀ level, lines level b = [indented level s]) :
    Adds env (Writing.line s) (.ok b) lines := by
  intro w hw
  refine .line ?_
  rw [h, Writer.print_newline hw hs]

/-- What is written inside one more block. -/
theorem deeper (h : Adds env m r lines) :
    Adds env (Writing.deeper m) r fun level => lines (level + 1) :=
  fun w hw => (h w.deeper hw).deeper

/-- A block after the beginning `s` of a line. -/
theorem block (h : Adds env m r lines) (hw : w.atLineStart = true) (s : String) :
    Writes env (w.print s) (Emit.block m) r fun b =>
      (w.add (indented w.level (s ++ "\x7b") :: lines (w.level + 1) b)).print "\x7d" := by
  have hopen : ((w.print s).print "\x7b").newline = w.add [indented w.level (s ++ "\x7b")] := by
    rw [Writer.print_print, Writer.print_newline hw (by simp)]
  refine .line_bind ?_
  rw [hopen]
  refine (h.deeper (w.add _) hw).followed fun b _ => .print ?_
  rw [Writer.add_add, Writer.add_level, List.singleton_append]

end Adds

end Writing

theorem CodeStmt.linesOf_append (level : Nat) (ss ts : List CodeStmt) :
    CodeStmt.linesOf level (ss ++ ts) = CodeStmt.linesOf level ss ++ CodeStmt.linesOf level ts := by
  induction ss with
  | nil => rfl
  | cons s ss ih => rw [List.cons_append, linesOf, ih, linesOf, List.append_assoc]

theorem CodeCase.linesOf_append (level : Nat) (cs ds : List CodeCase) :
    CodeCase.linesOf level (cs ++ ds) = CodeCase.linesOf level cs ++ CodeCase.linesOf level ds := by
  induction cs with
  | nil => rfl
  | cons c cs ih => rw [List.cons_append, linesOf, ih, linesOf, List.append_assoc]

namespace Emit

open Writing
open Lower (Scope)

variable {env : TypeEnv} {scope : Scope}

section Pieces

theorem onOption_prints {α : Type} {f : α → Writing Unit} {g : α → Result Code} {o : Option α}
    (h : ∀ a, o = some a → Prints env (f a) (g a) Code.text) :
    Prints env (onOption f o) (Lower.onOption g o) optionText := by
  intro w
  cases o with
  | none => exact .pure rfl
  | some a => exact (h a rfl w).last fun code _ => rfl

variable (h : env.Settled) {v : VarDecl} {vs : List VarDecl}

include h

theorem condition_prints_code {e : Expr} (he : e.Complete) :
    Prints env (condition env e (expr env scope false e)) (Lower.condition env scope e) Code.text :=
  fun w => (condition_prints h he.own (expr_prints h he false) w).last fun _ _ => rfl

theorem copied_prints_code {e : Expr} (he : e.Complete) :
    Prints env (copied env e (expr env scope false e)) (Lower.copied env scope e) Code.text :=
  fun w => (copied_prints h he.own (expr_prints h he false) w).last fun _ _ => rfl

theorem defaultValue_prints (t : CType) :
    Prints env (defaultValue env t) (Lower.defaultValue env t) Code.text := by
  intro w
  refine .find_bind (.ofResult _) fun type _ => ?_
  have hchoice : ∀ owns : Bool, Writes env w
      (if owns then ask (env.lookupSize t) >>= fun size =>
        print (type ++ ".local(" ++ Text.decimal size ++ ")") else print (type ++ ".local()"))
      (if owns then env.sizeOf t >>= fun size => .ok (Lower.onClass type "local" [.int size])
        else .ok (Lower.onClass type "local" []))
      fun code => w.print code.text := by
    intro owns
    cases owns with
    | true =>
      refine .find_bind (.ask (h.lookupSize t)) fun size _ => .print ?_
      simp [Lower.onClass, Code.text, Code.texts, Lower.join_singleton, String.append_assoc]
    | false =>
      refine .print ?_
      simp [Lower.onClass, Code.text, Code.texts, Lower.join_nil, String.append_assoc]
  split
  · exact .print rfl
  · exact hchoice _

/-- A declaration with a value, after its type unless that is left out. -/
theorem declaration_prints (hinit : ∀ e, v.init = some e → e.Complete) {mode : DeclMode}
    (hmode : mode ≠ .noInit) :
    Prints env (declaration env scope v.name v.type v.init mode) (Lower.localVariable env scope v)
      fun p => (if mode = .noType then "" else p.1 ++ " ") ++ p.2.text := by
  intro w
  refine .find_bind (.ofResult _) fun type _ => .print_bind (.print_bind ?_)
  rw [if_neg hmode]
  refine .print_bind ?_
  cases hv : v.init with
  | some e =>
    refine (copied_prints_code h (hinit e hv) _).last fun value _ => ?_
    simp [Declarator.text, String.append_assoc]
  | none =>
    refine (defaultValue_prints h v.type _).last fun value _ => ?_
    simp [Declarator.text, String.append_assoc]

theorem localVariables_add (hinit : ∀ v ∈ vs, ∀ e, v.init = some e → e.Complete) :
    Adds env (localVariables env scope vs)
      (Lower.localVariables env scope vs) CodeStmt.linesOf := by
  induction vs with
  | nil => exact fun w hw => .pure Writer.add_nil.symm
  | cons v vs ih =>
    rw [List.forall_mem_cons] at hinit
    intro w hw
    refine ((declaration_prints h hinit.1 (by decide)).locate v.position w).bind fun p _ => ?_
    obtain ⟨type, var⟩ := p
    refine .line_bind ?_
    rw [Writer.print_print, Writer.print_newline hw (by simp)]
    refine (ih hinit.2 (w.add _) hw).last fun rest _ => ?_
    simp [CodeStmt.linesOf, CodeStmt.lines, String.append_assoc]

theorem moreDeclarators_print {first : String}
    (hinit : ∀ v ∈ vs, ∀ e, v.init = some e → e.Complete) :
    Prints env (moreDeclarators env scope first vs) (Lower.moreDeclarators env scope first vs)
      fun vars => listed 1 (vars.map Declarator.text) := by
  induction vs with
  | nil => exact fun w => .pure rfl
  | cons v vs ih =>
    rw [List.forall_mem_cons] at hinit
    intro w
    refine .find_bind ((Finds.ofResult _).locate v.position) fun type _ => ?_
    split
    · exact .fail _
    · refine .print_bind ?_
      refine ((declaration_prints h hinit.1 (by decide)).locate v.position _).bind fun p _ => ?_
      obtain ⟨_, var⟩ := p
      refine (ih hinit.2 _).last fun rest _ => ?_
      simp [listed, listed_succ, String.append_assoc]

omit h in
theorem localVariable_of_ok {p : String × Declarator}
    (hp : Lower.localVariable env scope v = .ok p) : env.mapType v.type = .ok p.1 := by
  obtain ⟨type, htype, hrest⟩ := Result.bind_eq_ok.mp hp
  rw [htype]
  cases hinit : v.init with
  | some | none =>
    rw [hinit] at hrest
    obtain ⟨value, -, hok⟩ := Result.bind_eq_ok.mp hrest
    cases hok
    rfl

omit h in
theorem localVariable_of_error {failure : Failure}
    (hfailure : env.mapType v.type = .error failure) :
    Lower.localVariable env scope v = .error failure := by
  unfold Lower.localVariable
  rw [hfailure]
  rfl

/-- The type of the first declarator is asked for once more than its code needs. -/
theorem declarators_print (hinit : ∀ u ∈ v :: vs, ∀ e, u.init = some e → e.Complete) :
    Prints env (declarators env scope (v :: vs))
      (do
        let (type, var) ← Result.locate v.position (Lower.localVariable env scope v)
        let rest ← Lower.moreDeclarators env scope type vs
        .ok (.declare type (var :: rest))) LoopStart.text := by
  rw [List.forall_mem_cons] at hinit
  intro w
  rw [declarators]
  cases hmap : env.mapType v.type with
  | error failure =>
    rw [localVariable_of_error hmap]
    exact .find_bind (f := fun _ => .error (failure.locate v.position))
      ((Finds.ofResult (.error failure)).locate v.position) fun a ha => nomatch ha
  | ok type =>
    refine .found_bind ((Finds.ofResult (.ok type)).locate v.position) ?_
    refine ((declaration_prints h hinit.1 (by decide)).locate v.position w).bind fun p hp => ?_
    have htype := localVariable_of_ok (Result.locate_eq_ok.mp hp)
    obtain ⟨type', var⟩ := p
    cases hmap.symm.trans htype
    refine (moreDeclarators_print h hinit.2 _).last fun rest _ => ?_
    have htext : (LoopStart.declare type' (var :: rest)).text =
        type' ++ " " ++ Text.join ", " ((var :: rest).map Declarator.text) := rfl
    rw [Writer.print_print, htext, ← listed_zero]
    simp [listed, String.append_assoc]

theorem loopStart_prints {position : Position} {init : Option Stmt}
    (hinit : ∀ s, init = some s → s.Complete) :
    Prints env (loopStart env scope position init) (Lower.loopStart env scope position init)
      LoopStart.text := by
  intro w
  cases init with
  | none => exact .pure rfl
  | some s =>
    have hs := hinit s rfl
    cases s with
    | decl p vs =>
      have hvars : ∀ v ∈ vs, ∀ e, v.init = some e → e.Complete :=
        fun v hv e he => hs.expr (List.mem_filterMap.mpr ⟨v, hv, he⟩)
      cases vs with
      | nil => exact .pure rfl
      | cons v vs => exact declarators_print h hvars w
    | expr p value =>
      have hvalue : value.Complete := hs.expr List.mem_cons_self
      exact (expr_prints h hvalue false w).last fun code _ => rfl
    | _ => exact .fail _

end Pieces

section Cases

/-- The statement is written as the lines of its code, in every scope. -/
def WrittenStmt (env : TypeEnv) (s : Stmt) : Prop :=
  ∀ scope inBlock, Adds env (stmt env scope inBlock s) (Lower.stmt env scope inBlock s)
    CodeStmt.linesOf

theorem stmts_add {ss : List Stmt} (hss : ∀ s ∈ ss, WrittenStmt env s) :
    Adds env (stmts env scope ss) (Lower.stmts env scope ss) CodeStmt.linesOf := by
  induction ss with
  | nil => exact fun w hw => .pure Writer.add_nil.symm
  | cons s ss ih =>
    rw [List.forall_mem_cons] at hss
    intro w hw
    rw [stmts_cons, Lower.stmts]
    refine (hss.1 scope false w hw).bind fun first _ => ?_
    refine (ih hss.2 (w.add _) hw).last fun rest _ => ?_
    rw [Writer.add_add, Writer.add_level, CodeStmt.linesOf_append]

/-- A case goes on at the label after it, or leaves the switch after the last one. -/
theorem caseExit_adds {depth : Nat} {body : List Stmt} (hlabels : 0 ∉ following) :
    Adds env
      (if Lower.endsInJump body then pure ()
        else if following.headD 0 ≠ 0 then
          line ("continue " ++ Lower.switchLabel depth (following.headD 0) ++ ";")
        else line "break;")
      (.ok (Lower.caseExit depth following body)) CodeStmt.linesOf := by
  unfold Lower.caseExit
  split
  · exact fun w hw => .pure Writer.add_nil.symm
  · cases following with
    | nil => exact .line (by decide) fun level => rfl
    | cons label rest =>
      have hlabel : label ≠ 0 := fun h => hlabels (h ▸ List.mem_cons_self)
      rw [List.headD_cons, if_pos hlabel]
      exact .line (by simp) fun level => rfl

theorem caseBody_adds {depth : Nat} {body : List Stmt} {m : Writing Unit}
    {r : Result (List CodeStmt)} (hm : Adds env m r CodeStmt.linesOf) (hlabels : 0 ∉ following) :
    Adds env (caseBody depth body (following.headD 0) m) r fun level code =>
      CodeStmt.linesOf (level + 1) (code ++ Lower.caseExit depth following body) := by
  have hinner : Adds env
      (m >>= fun _ => if Lower.endsInJump body then pure ()
        else if following.headD 0 ≠ 0 then
          line ("continue " ++ Lower.switchLabel depth (following.headD 0) ++ ";")
        else line "break;") r fun level code =>
      CodeStmt.linesOf level (code ++ Lower.caseExit depth following body) := by
    intro w hw
    refine (hm w hw).followed fun code _ => ?_
    refine (caseExit_adds hlabels (w.add _) hw).last (g := fun _ => code) ?_
    rintro _ ⟨⟩
    dsimp only
    rw [Writer.add_add, Writer.add_level, CodeStmt.linesOf_append]
  exact hinner.deeper

variable {labels : List Nat} {i : Nat} {following : List Nat} {cases : List SwitchCase}

theorem labelAt_finds {label : Nat} (h : labels.drop i = label :: following) :
    Finds env (labelAt labels i) (.ok label) := by
  apply Finds.require
  rw [← List.head?_drop, h, List.head?_cons]

theorem labelAfter_finds (env : TypeEnv) (labels : List Nat) (i : Nat) :
    Finds env (labelAfter labels i) (.ok ((labels.drop (i + 1)).headD 0)) := by
  unfold labelAfter
  split
  · rename_i hi
    rw [List.drop_eq_getElem_cons hi]
    exact labelAt_finds (List.drop_eq_getElem_cons hi)
  · rename_i hi
    rw [List.drop_eq_nil_of_le (by omega)]
    exact .pure 0

def WrittenCases (env : TypeEnv) (cases : List SwitchCase) : Prop :=
  ∀ c ∈ cases, ∀ s ∈ c.body, WrittenStmt env s

theorem explicitCases_add (h : env.Settled) (scope : Scope)
    (hlength : labels.length = i + cases.length) (hlabels : 0 ∉ labels)
    (hcases : WrittenCases env cases) :
    Adds env (explicitCases env scope labels i cases)
      (Lower.explicitCases env scope (labels.drop i) cases) CodeCase.linesOf := by
  induction cases generalizing i with
  | nil =>
    rw [List.drop_eq_nil_of_le (by simp at hlength; omega)]
    exact fun w hw => .pure Writer.add_nil.symm
  | cons c cs ih =>
    obtain ⟨position, label?, body⟩ := c
    obtain ⟨hbody, hrest⟩ := List.forall_mem_cons.mp hcases
    rw [List.length_cons] at hlength
    have hdrop := List.drop_eq_getElem_cons (show i < labels.length by omega)
    have hfollowing : 0 ∉ labels.drop (i + 1) := fun hmem => hlabels (List.mem_of_mem_drop hmem)
    have hmore := ih (i := i + 1) (by omega) hrest
    rw [hdrop, Lower.explicitCases.eq_def, explicitCases.eq_def]
    cases label? with
    | none => exact hmore
    | some value =>
      intro w hw
      refine .found_bind (constant_finds h value) ?_
      unfold Lower.caseValue
      dsimp only
      cases env.constant? value with
      | none => exact .fail _
      | some v =>
        have hline : ∀ label, label ++ ": case " ++ Text.decimal v ++ ":" =
            label ++ ": " ++ (Selector.value v).text := by
          simp [← String.toList_inj, Selector.text]
        refine .found_bind (labelAt_finds hdrop) (.line_bind ?_)
        rw [hline, Writer.print_newline hw (by simp)]
        refine .found_bind (labelAfter_finds env labels i) ?_
        refine ((caseBody_adds (stmts_add hbody) hfollowing).locate position (w.add _) hw).bind
          fun code _ => ?_
        refine (hmore ((w.add _).add _) hw).last fun rest _ => ?_
        simp [CodeCase.linesOf, CodeCase.lines]

theorem defaultCases_of_explicit {cs : List SwitchCase} (hcs : ∀ c ∈ cs, c.isDefault = false)
    (labels : List Nat) : Lower.defaultCases env scope labels cs = .ok [] := by
  induction cs generalizing labels with
  | nil =>
    cases labels with
    | nil | cons => rfl
  | cons c cs ih =>
    obtain ⟨position, label?, body⟩ := c
    rw [List.forall_mem_cons] at hcs
    cases labels with
    | nil => rfl
    | cons label following =>
      cases label? with
      | none => exact absurd hcs.1 (by simp [SwitchCase.isDefault, SwitchCase.label])
      | some value =>
        rw [Lower.defaultCases]
        exact ih hcs.2 following

theorem defaultCase_adds (scope : Scope) (hlength : labels.length = i + cases.length)
    (hlabels : 0 ∉ labels) (hnodup : labels.Nodup)
    (hone : (cases.filter SwitchCase.isDefault).length ≤ 1) (hcases : WrittenCases env cases) :
    Adds env (defaultCase env scope labels i cases)
      (Lower.defaultCases env scope (labels.drop i) cases) CodeCase.linesOf := by
  induction cases generalizing i with
  | nil =>
    rw [List.drop_eq_nil_of_le (by simp at hlength; omega)]
    exact fun w hw => .pure Writer.add_nil.symm
  | cons c cs ih =>
    obtain ⟨position, label?, body⟩ := c
    obtain ⟨hbody, hrest⟩ := List.forall_mem_cons.mp hcases
    rw [List.length_cons] at hlength
    have hdrop := List.drop_eq_getElem_cons (show i < labels.length by omega)
    have hfollowing : 0 ∉ labels.drop (i + 1) := fun hmem => hlabels (List.mem_of_mem_drop hmem)
    rw [hdrop]
    cases label? with
    | some value =>
      rw [Lower.defaultCases, defaultCase]
      exact ih (i := i + 1) (by omega) hone hrest
    | none =>
      have hexplicit : ∀ c ∈ cs, c.isDefault = false := by
        intro c hc
        by_contra hdefault
        have hmem : c ∈ cs.filter SwitchCase.isDefault :=
          List.mem_filter.mpr ⟨hc, Bool.not_eq_false _ ▸ hdefault⟩
        have hpos := List.length_pos_of_mem hmem
        have hcount : ((SwitchCase.mk position none body :: cs).filter
            SwitchCase.isDefault).length =
            (cs.filter SwitchCase.isDefault).length + 1 := rfl
        omega
      -- The label after this one is another one, so the case never goes on at itself.
      have hnext : (labels.drop (i + 1)).headD 0 ≠ labels[i] := by
        have hnew : labels[i] ∉ labels.drop (i + 1) :=
          (List.nodup_cons.mp (hdrop ▸ hnodup.sublist (List.drop_sublist i labels))).1
        intro hsame
        cases htail : labels.drop (i + 1) with
        | nil =>
          rw [htail, List.headD_nil] at hsame
          exact hlabels (hsame ▸ List.getElem_mem _)
        | cons label rest =>
          rw [htail, List.headD_cons] at hsame
          rw [htail, ← hsame] at hnew
          exact hnew List.mem_cons_self
      intro w hw
      rw [Lower.defaultCases, defaultCase, defaultCases_of_explicit hexplicit]
      refine .found_bind (labelAt_finds hdrop) (.found_bind (labelAfter_finds env labels i) ?_)
      rw [if_pos hnext]
      refine .line_bind ?_
      rw [Writer.print_newline hw (by simp)]
      simp only [Result.ok_bind]
      refine ((caseBody_adds (stmts_add hbody) hfollowing).locate position (w.add _) hw).last
        fun code _ => ?_
      simp [CodeCase.linesOf, CodeCase.lines, Selector.text, String.append_assoc]

/-- The labels of a switch count from one, and with one default at most no two are the same. -/
theorem caseLabels_zero (cases : List SwitchCase) : 0 ∉ Lower.caseLabels cases := by
  intro hzero
  rcases Fallthrough.mem_labelsFrom hzero with ⟨hlabel, -⟩ | ⟨hnext, -⟩
  · omega
  · omega

theorem switch_adds (h : env.Settled) {position : Position} {cond : Expr} {inBlock : Bool}
    (hcond : cond.Complete) (hcases : WrittenCases env cases) :
    Adds env (stmt env scope inBlock (.switch position cond cases))
      (Lower.stmt env scope inBlock (.switch position cond cases)) CodeStmt.linesOf := by
  rw [stmt, Lower.stmt]
  apply Adds.locate
  cases hsecond : Lower.secondDefault? cases with
  | some c => exact .fail _
  | none =>
    have hone : (cases.filter SwitchCase.isDefault).length ≤ 1 := by
      rwa [Lower.secondDefault?, List.getElem?_eq_none_iff] at hsecond
    have hlength : (Lower.caseLabels cases).length = 0 + cases.length := by
      rw [Nat.zero_add]
      exact Fallthrough.labelsFrom_length ..
    have hzero := caseLabels_zero cases
    have hexplicit := explicitCases_add h scope hlength hzero hcases
    have hdefault := defaultCase_adds scope hlength hzero (Fallthrough.caseLabels_nodup hone)
      hone hcases
    rw [List.drop_zero] at hexplicit hdefault
    have hboth : Adds env
        (explicitCases env scope (Lower.caseLabels cases) 0 cases >>= fun _ =>
          defaultCase env scope (Lower.caseLabels cases) 0 cases)
        (Lower.explicitCases env scope (Lower.caseLabels cases) cases >>= fun explicit =>
          Lower.defaultCases env scope (Lower.caseLabels cases) cases >>= fun default =>
            .ok (explicit ++ default)) CodeCase.linesOf := by
      intro w hw
      refine (hexplicit w hw).bind fun explicit _ => ?_
      refine (hdefault (w.add _) hw).last fun default _ => ?_
      rw [Writer.add_add, Writer.add_level, CodeCase.linesOf_append]
    intro w hw
    refine .print_bind ((receiver_prints h (expr_prints h hcond false) _).bind fun subject _ =>
      .line_bind ?_)
    have hsplit : ∀ g : List CodeCase → List CodeStmt,
        (Lower.explicitCases env scope (Lower.caseLabels cases) cases >>= fun explicit =>
          Lower.defaultCases env scope (Lower.caseLabels cases) cases >>= fun default =>
            (.ok (g (explicit ++ default)) : Result (List CodeStmt))) =
        ((Lower.explicitCases env scope (Lower.caseLabels cases) cases >>= fun explicit =>
          Lower.defaultCases env scope (Lower.caseLabels cases) cases >>= fun default =>
            .ok (explicit ++ default)) >>= fun cs => .ok (g cs)) := by
      intro g
      simp only [bind_assoc, Result.ok_bind]
    dsimp only
    rw [hsplit fun cs => [.switch (.invoke (Lower.asReceiver env cond subject) "intValue" []) cs],
      Writer.print_print, Writer.print_print, Writer.print_newline hw (by simp)]
    refine (hboth.deeper (w.add _) hw).bind fun cs _ => .line ?_
    rw [Writer.print_newline (by exact hw) (by decide)]
    simp [CodeStmt.linesOf, CodeStmt.lines, Code.text, Code.texts, Lower.join_nil,
      String.append_assoc]

end Cases

section Branches

/-- What follows the closing brace of a branch is written as its code. -/
def WrittenElse (env : TypeEnv) (else_ : Option Stmt) : Prop :=
  ∀ (scope : Scope) (w : Writer), w.atLineStart = true →
    Writes env (w.print "\x7d") (elseBranch env scope else_) (Lower.elseBranch env scope else_)
      fun rest => w.add (rest.lines w.level)

theorem writtenElse_none : WrittenElse env none := by
  intro scope w hw
  refine .newline ?_
  rw [Writer.print_newline hw (by decide)]
  rfl

/-- A statement that is no if stands in a block of its own after else. -/
theorem writtenElse_block {s : Stmt} (hs : WrittenStmt env s)
    (hblock : ∀ scope, elseBranch env scope (some s) =
      (do
        print " else "
        block (stmt env scope true s)
        newline))
    (hcode : ∀ scope, Lower.elseBranch env scope (some s) =
      (do
        let body ← Lower.stmt env scope true s
        .ok (.block body))) : WrittenElse env (some s) := by
  intro scope w hw
  rw [hblock, hcode]
  refine .print_bind ?_
  rw [Writer.print_print]
  refine ((hs scope true).block hw _).bind fun body _ => .newline ?_
  rw [Writer.print_newline (by exact hw) (by decide)]
  simp [ElseBranch.lines]

/-- An if after the beginning `before` of a line, with the branches that follow it. -/
theorem chain_writes (h : env.Settled) {cond : Expr} {then_ : Stmt} {else_ : Option Stmt} {γ : Type}
    {w : Writer} {after : γ → Writer} (hcond : cond.Complete) (hthen : WrittenStmt env then_)
    (helse : WrittenElse env else_) (hw : w.atLineStart = true) (before : String)
    {code : Code → List CodeStmt → ElseBranch → γ}
    (hcode : ∀ test body rest, after (code test body rest) =
      w.add (indented w.level (before ++ "if (" ++ test.text ++ ") \x7b") ::
        CodeStmt.linesOf (w.level + 1) body ++ rest.lines w.level)) :
    Writes env (w.print before)
      (do
        print "if ("
        condition env cond (expr env scope false cond)
        print ") "
        block (stmt env scope true then_)
        elseBranch env scope else_)
      (do
        let test ← Lower.condition env scope cond
        let body ← Lower.stmt env scope true then_
        let rest ← Lower.elseBranch env scope else_
        .ok (code test body rest)) after := by
  refine .print_bind ((condition_prints_code h hcond _).bind fun test _ => .print_bind ?_)
  simp only [Writer.print_print]
  refine ((hthen scope true).block hw _).bind fun body _ => ?_
  refine (helse scope (w.add _) hw).last fun rest _ => ?_
  rw [hcode, Writer.add_add, Writer.add_level]
  simp [String.append_assoc]

theorem ifElse_written (h : env.Settled) {position : Position} {cond : Expr} {then_ : Stmt}
    {else_ : Option Stmt} (hcond : cond.Complete) (hthen : WrittenStmt env then_)
    (helse : WrittenElse env else_) :
    WrittenStmt env (.ifElse position cond then_ else_) ∧
      WrittenElse env (some (.ifElse position cond then_ else_)) := by
  constructor
  · intro scope inBlock w hw
    rw [stmt, Lower.stmt, ← w.print_empty]
    refine .locate position (chain_writes h hcond hthen helse hw "" fun test body rest => ?_)
    simp [CodeStmt.linesOf, CodeStmt.lines]
  · intro scope w hw
    rw [elseBranch, Lower.elseBranch]
    refine .print_bind (.locate position ?_)
    rw [Writer.print_print]
    refine chain_writes h hcond hthen helse hw _ fun test body rest => ?_
    simp [ElseBranch.lines]

end Branches

section Loops

variable (h : env.Settled) {position : Position} {cond : Expr} {body : Stmt}

include h

theorem whileLoop_written (hcond : cond.Complete) (hbody : WrittenStmt env body) :
    WrittenStmt env (.whileLoop position cond body) := by
  intro scope inBlock w hw
  rw [stmt, Lower.stmt]
  refine .locate position (.print_bind ?_)
  refine (condition_prints_code h hcond _).bind fun test _ => .print_bind ?_
  simp only [Writer.print_print]
  refine ((hbody scope true).block hw _).bind fun code _ => .newline ?_
  rw [Writer.print_newline (by exact hw) (by decide)]
  simp [CodeStmt.linesOf, CodeStmt.lines, String.append_assoc]

theorem doLoop_written (hcond : cond.Complete) (hbody : WrittenStmt env body) :
    WrittenStmt env (.doLoop position body cond) := by
  intro scope inBlock w hw
  rw [stmt, Lower.stmt]
  refine .locate position (.print_bind ?_)
  refine ((hbody scope true).block hw _).bind fun code _ => .print_bind ?_
  refine (condition_prints_code h hcond _).bind fun test _ => .line ?_
  simp only [Writer.print_print]
  rw [Writer.print_newline (by exact hw) (by simp)]
  simp [CodeStmt.linesOf, CodeStmt.lines, String.append_assoc]

theorem forLoop_written {init : Option Stmt} {cond inc : Option Expr}
    (hinit : ∀ s, init = some s → s.Complete) (hcond : ∀ e, cond = some e → e.Complete)
    (hinc : ∀ e, inc = some e → e.Complete) (hbody : WrittenStmt env body) :
    WrittenStmt env (.forLoop position init cond inc body) := by
  intro scope inBlock w hw
  have htest : Prints env (onOption (fun e => condition env e (expr env scope false e)) cond)
      (Lower.onOption (Lower.condition env scope) cond) optionText :=
    onOption_prints fun e he => condition_prints_code h (hcond e he)
  have hstep : Prints env (onOption (expr env scope false) inc)
      (Lower.onOption (Lower.expr env scope false) inc) optionText :=
    onOption_prints fun e he => expr_prints h (hinc e he) false
  rw [stmt, Lower.stmt]
  refine .locate position (.print_bind ((loopStart_prints h hinit _).bind fun start _ => ?_))
  refine .print_bind ((htest _).bind fun test _ => .print_bind ((hstep _).bind fun step _ => ?_))
  refine .print_bind ?_
  simp only [Writer.print_print]
  refine ((hbody scope true).block hw _).bind fun code _ => .newline ?_
  rw [Writer.print_newline (by exact hw) (by decide)]
  simp [CodeStmt.linesOf, CodeStmt.lines, String.append_assoc]

end Loops

section Simple

variable {position : Position}

theorem compound_written {body : List Stmt} (hbody : ∀ s ∈ body, WrittenStmt env s) :
    WrittenStmt env (.compound position body) := by
  intro scope inBlock w hw
  rw [stmt_compound, Lower.stmt]
  split
  · exact stmts_add hbody w hw
  · rw [← w.print_empty]
    refine .locate position (((stmts_add hbody).block hw "").bind fun code _ => .newline ?_)
    rw [Writer.print_newline (by exact hw) (by decide)]
    simp [CodeStmt.linesOf, CodeStmt.lines]

variable (h : env.Settled)

include h

theorem ret_written {value : Option Expr} (hvalue : ∀ e, value = some e → e.Complete) :
    WrittenStmt env (.ret position value) := by
  intro scope inBlock w hw
  cases value with
  | none =>
    have hline : Adds env (line "return;") (.ok [.ret none]) CodeStmt.linesOf :=
      .line (by decide) fun level => rfl
    exact hline.locate position w hw
  | some e =>
    rw [stmt, Lower.stmt, Lower.onOption, bind_assoc]
    refine .locate position (.print_bind ?_)
    refine (copied_prints_code h (hvalue e rfl) _).bind fun code _ => .line ?_
    simp only [Writer.print_print]
    rw [Writer.print_newline hw (by simp)]
    simp [CodeStmt.linesOf, CodeStmt.lines]

theorem expr_written {value : Expr} (hvalue : value.Complete) :
    WrittenStmt env (.expr position value) := by
  intro scope inBlock w hw
  rw [stmt, Lower.stmt]
  refine .locate position ?_
  split
  · exact .pure Writer.add_nil.symm
  · refine (expr_prints h hvalue false w).bind fun code _ => .line ?_
    rw [Writer.print_print, Writer.print_newline hw (by simp)]
    rfl

end Simple

/-- Every complete statement is written as the lines of its code, also after else. -/
theorem stmt_written (h : env.Settled) (s : Stmt) (hs : s.Complete) :
    WrittenStmt env s ∧ WrittenElse env (some s) := by
  induction s using Stmt.childInduction with
  | step s ih =>
    have hchild : ∀ t ∈ s.children, WrittenStmt env t ∧ WrittenElse env (some t) :=
      fun t ht => ih t ht (hs.child ht)
    have hblock : ∀ {t : Stmt}, WrittenStmt env t → (∀ scope, elseBranch env scope (some t) = _) →
        (∀ scope, Lower.elseBranch env scope (some t) = _) →
        WrittenStmt env t ∧ WrittenElse env (some t) :=
      fun ht hwritten hcode => ⟨ht, writtenElse_block ht hwritten hcode⟩
    cases s with
    | ifElse position cond then_ else_ =>
      refine ifElse_written h (hs.expr List.mem_cons_self) (hchild then_ List.mem_cons_self).1 ?_
      cases else_ with
      | none => exact writtenElse_none
      | some t => exact (hchild t (by simp [Stmt.children])).2
    | compound position body =>
      exact hblock (compound_written fun t ht => (hchild t ht).1) (fun _ => rfl) fun _ => rfl
    | whileLoop position cond body =>
      exact hblock (whileLoop_written h (hs.expr List.mem_cons_self)
        (hchild body List.mem_cons_self).1) (fun _ => rfl) fun _ => rfl
    | doLoop position body cond =>
      exact hblock (doLoop_written h (hs.expr List.mem_cons_self)
        (hchild body List.mem_cons_self).1) (fun _ => rfl) fun _ => rfl
    | forLoop position init cond inc body =>
      refine hblock (forLoop_written h ?_ ?_ ?_ ?_) (fun _ => rfl) fun _ => rfl
      · intro t ht
        exact hs.child (by simp [Stmt.children, ht])
      · intro e he
        exact hs.expr (by simp [Stmt.exprs, he])
      · intro e he
        exact hs.expr (by simp [Stmt.exprs, he])
      · exact (hchild body (by simp [Stmt.children])).1
    | switch position cond cases =>
      refine hblock (fun scope inBlock => ?_) (fun _ => rfl) fun _ => rfl
      refine switch_adds h (hs.expr List.mem_cons_self) fun c hc t ht => ?_
      exact (hchild t (List.mem_flatMap.mpr ⟨c, hc, ht⟩)).1
    | brk | cont | null =>
      exact hblock (fun scope inBlock => .line (by decide) fun level => rfl) (fun _ => rfl)
        fun _ => rfl
    | ret position value =>
      refine hblock (ret_written h fun e he => ?_) (fun _ => rfl) fun _ => rfl
      exact hs.expr (by simp [Stmt.exprs, he])
    | decl position vars =>
      refine hblock (fun scope inBlock => ?_) (fun _ => rfl) fun _ => rfl
      refine .locate position (localVariables_add h fun v hv e he => ?_)
      exact hs.expr (List.mem_filterMap.mpr ⟨v, hv, he⟩)
    | expr position value =>
      exact hblock (expr_written h (hs.expr List.mem_cons_self)) (fun _ => rfl) fun _ => rfl

end Emit

end DartLowering
