import DartLowering.Proofs.EmissionFailures

/-!
Brackets in emitted text. `scan` reads a text together with the closing brackets that are due, the
innermost first, and fails at a closing bracket that is not the next one due. Each piece of code
leaves what is due as it was, so a file, which starts and ends with nothing due, is well nested.
A receiver is in addition atomic: a method call written after it applies to all of it.
-/
namespace DartLowering

namespace Text

def closer? : Char → Option Char
  | '(' => some ')'
  | '[' => some ']'
  | '\x7b' => some '\x7d'
  | _ => none

def isCloser (c : Char) : Bool := c = ')' || c = ']' || c = '\x7d'

def isBracket (c : Char) : Bool := (closer? c).isSome || isCloser c

def isPlain (c : Char) : Bool := !isBracket c

/-- The closing brackets that are due after some characters. -/
def scanFrom (due : List Char) : List Char → Option (List Char)
  | [] => some due
  | c :: cs =>
      match closer? c with
      | some d => scanFrom (d :: due) cs
      | none =>
          if isCloser c then
            match due with
            | [] => none
            | d :: rest => if c = d then scanFrom rest cs else none
          else scanFrom due cs

def scan (due : List Char) (s : String) : Option (List Char) := scanFrom due s.toList

/-- Every bracket is closed by its counterpart, the last one opened first. -/
def WellNested (s : String) : Prop := scan [] s = some []

instance (s : String) : Decidable (WellNested s) :=
  inferInstanceAs (Decidable (scan [] s = some []))

example : WellNested "f([a, () \x7b x; \x7d()])" ∧ ¬ WellNested "f([)]" := by decide

theorem scanFrom_append (due s t : List Char) :
    scanFrom due (s ++ t) = (scanFrom due s).bind fun due => scanFrom due t := by
  induction s generalizing due with
  | nil => rfl
  | cons c cs ih =>
    simp only [List.cons_append, scanFrom]
    split
    · exact ih _
    · split
      · split
        · rfl
        · split
          · exact ih _
          · rfl
      · exact ih due

theorem scan_append (due : List Char) (s t : String) :
    scan due (s ++ t) = (scan due s).bind fun due => scan due t := by
  unfold scan
  rw [String.toList_append, scanFrom_append]

theorem scanFrom_of_plain {cs : List Char} (h : ∀ c ∈ cs, isPlain c = true) (due : List Char) :
    scanFrom due cs = some due := by
  induction cs with
  | nil => rfl
  | cons c cs ih =>
    rw [List.forall_mem_cons] at h
    obtain ⟨hc, hcs⟩ := h
    simp only [isPlain, isBracket, Bool.not_or, Bool.and_eq_true, Bool.not_eq_true',
      Option.isSome_eq_false_iff, Option.isNone_iff_eq_none] at hc
    simp only [scanFrom, hc.1, hc.2, Bool.false_eq_true, if_false]
    exact ih hcs

theorem scan_of_over {s : String} (h : Over isPlain s) (due : List Char) : scan due s = some due :=
  scanFrom_of_plain h due

theorem admitsWords_isPlain : AdmitsWords isPlain := by
  intro c hc
  by_contra hbracket
  simp only [isPlain, isBracket, isCloser, Bool.not_eq_true', Bool.not_eq_false, Bool.or_eq_true,
    decide_eq_true_eq] at hbracket
  rcases hbracket with hopen | (rfl | rfl) | rfl
  · unfold closer? at hopen
    split at hopen
    · cases hc
    · cases hc
    · cases hc
    · cases hopen
  · cases hc
  · cases hc
  · cases hc

theorem scan_join {sep : String} (hsep : ∀ due, scan due sep = some due) {parts : List String}
    (hparts : ∀ s ∈ parts, ∀ due, scan due s = some due) (due : List Char) :
    scan due (join sep parts) = some due := by
  induction parts with
  | nil => rfl
  | cons s rest ih =>
    rw [List.forall_mem_cons] at hparts
    cases rest with
    | nil =>
      rw [Lower.join_singleton]
      exact hparts.1 due
    | cons t rest =>
      rw [Lower.join_cons_cons, scan_append, scan_append, hparts.1, Option.bind_some, hsep,
        Option.bind_some]
      exact ih hparts.2

end Text

open Text

theorem scan_decimal (v : Int64) (due : List Char) : scan due (decimal v) = some due :=
  scan_of_over ((decimal_word v).weaken admitsWords_isPlain) due

theorem scan_decimalNat (n : Nat) (due : List Char) : scan due (decimalNat n) = some due :=
  scan_of_over ((decimalNat_word n).weaken admitsWords_isPlain) due

namespace Code

mutual

/-- The text of an expression leaves what is due as it was. -/
theorem scan_text : ∀ c : Code, c.Spelled isPlain → ∀ due, scan due c.text = some due
  | .name text, h, due => scan_of_over h due
  | .int value, _, due => scan_decimal value due
  | .double text, h, due => scan_of_over h due
  | .paren inner, h, due => by
      simp only [text, scan_append, scan_text inner h]
      rfl
  | .property receiver field, h, due => by
      simp only [text, scan_append, scan_text receiver h.1, scan_of_over h.2, Option.bind_some]
      rfl
  | .invoke receiver method args, h, due => by
      simp only [text, scan_append, scan_text receiver h.1, scan_of_over h.2.1,
        scan_texts args h.2.2, Option.bind_some]
      rfl
  | .apply callee args, h, due => by
      simp only [text, scan_append, scan_text callee h.1, scan_texts args h.2, Option.bind_some]
      rfl
  | .list items, h, due => by
      simp only [text, scan_append, scan_texts items h]
      rfl
  | .bytes items, _, due => by
      have hbytes : ∀ due, scan due (join ", " (items.map decimalNat)) = some due :=
        scan_join (fun _ => rfl) fun s hs => by
          obtain ⟨n, -, rfl⟩ := List.mem_map.mp hs
          exact scan_decimalNat n
      simp only [text, scan_append, hbytes]
      rfl
  | .closure body, h, due => by
      simp only [text, scan_append, scan_text body h]
      rfl
  | .sequence first second, h, due => by
      simp only [text, scan_append, scan_text first h.1, scan_text second h.2]
      rfl
  | .bind value body, h, due => by
      simp only [text, scan_append, scan_text value h.1, scan_text body h.2]
      rfl
  | .nonZero value, h, due => by
      simp only [text, scan_append, scan_text value h, Option.bind_some]
      rfl
  | .choose cond then_ else_, h, due => by
      simp only [text, scan_append, scan_text cond h.1, scan_text then_ h.2.1,
        scan_text else_ h.2.2, Option.bind_some]
      rfl
  | .castTo value type, h, due => by
      simp only [text, scan_append, scan_text value h.1, scan_of_over h.2, Option.bind_some]
      rfl

theorem scan_texts : ∀ cs : List Code, AllSpelled isPlain cs →
    ∀ due, scan due (join ", " (texts cs)) = some due
  | [], _, due => rfl
  | [c], h, due => by
      rw [texts, texts, Lower.join_singleton]
      exact scan_text c h.1 due
  | c :: d :: cs, h, due => by
      rw [texts, texts, Lower.join_cons_cons, scan_append, scan_append, scan_text c h.1]
      exact scan_texts (d :: cs) h.2 due

end

end Code

theorem scan_indented (level : Nat) (line : String) (due : List Char) :
    scan due (indented level line) = scan due line := by
  have hspaces : Over isPlain (spaces (2 * level)) := by
    rw [spaces, over_ofList]
    intro c hc
    rw [List.eq_of_mem_replicate hc]
    rfl
  rw [indented, scan_append, scan_of_over hspaces, Option.bind_some]

/-- What is due after some lines. -/
def scanLines (due : List Char) (lines : List String) : Option (List Char) :=
  scan due (unlines lines)

theorem scanLines_cons (due : List Char) (line : String) (lines : List String) :
    scanLines due (line :: lines) = (scan due line).bind fun due => scanLines due lines := by
  have hunlines : unlines (line :: lines) = line ++ "\n" ++ unlines lines := by
    simp only [unlines, List.map_cons, String.join_cons]
  rw [scanLines, hunlines, scan_append, scan_append, Option.bind_assoc]
  rfl

theorem scanLines_append (due : List Char) (ls ms : List String) :
    scanLines due (ls ++ ms) = (scanLines due ls).bind fun due => scanLines due ms := by
  induction ls generalizing due with
  | nil => rfl
  | cons l ls ih => simp only [List.cons_append, scanLines_cons, ih, Option.bind_assoc]

theorem scan_declarator {d : Declarator} (h : d.Spelled isPlain) (due : List Char) :
    scan due d.text = some due := by
  simp only [Declarator.text, scan_append, scan_of_over h.1, d.value.scan_text h.2,
    Option.bind_some]
  rfl

theorem scan_loopStart {start : LoopStart} (h : start.Spelled isPlain) (due : List Char) :
    scan due start.text = some due := by
  cases start with
  | nothing => rfl
  | evaluate value => exact value.scan_text h due
  | declare type vars =>
    have hvars : ∀ due, scan due (join ", " (vars.map Declarator.text)) = some due :=
      scan_join (fun _ => rfl) fun s hs => by
        obtain ⟨v, hv, rfl⟩ := List.mem_map.mp hs
        exact scan_declarator (h.2 v hv)
    cases vars with
    | nil => rfl
    | cons v vs =>
      simp only [LoopStart.text, scan_append, scan_of_over h.1, hvars, Option.bind_some]
      rfl

theorem scan_optionText {code : Option Code} (h : ∀ c ∈ code, c.Spelled isPlain) (due : List Char) :
    scan due (optionText code) = some due := by
  cases code with
  | none => rfl
  | some c => exact c.scan_text (h c rfl) due

theorem scan_selector (selector : Selector) (due : List Char) :
    scan due selector.text = some due := by
  cases selector with
  | default => rfl
  | value v =>
    simp only [Selector.text, scan_append, scan_decimal]
    rfl

mutual

/-- The lines of a statement leave what is due as it was. -/
theorem CodeStmt.scan_lines (level : Nat) : ∀ s : CodeStmt, s.Spelled isPlain →
    ∀ due, scanLines due (s.lines level) = some due
  | .evaluate value, h, due => by
      simp only [CodeStmt.lines, scanLines_cons, scan_indented, scan_append, value.scan_text h,
        Option.bind_some]
      rfl
  | .declare type var, h, due => by
      simp only [CodeStmt.lines, scanLines_cons, scan_indented, scan_append, scan_of_over h.1,
        scan_declarator h.2, Option.bind_some]
      rfl
  | .ret none, _, due => by
      simp only [CodeStmt.lines, scanLines_cons, scan_indented]
      rfl
  | .ret (some value), h, due => by
      simp only [CodeStmt.lines, scanLines_cons, scan_indented, scan_append,
        value.scan_text (h value rfl)]
      rfl
  | .brk, _, due => by
      simp only [CodeStmt.lines, scanLines_cons, scan_indented]
      rfl
  | .cont, _, due => by
      simp only [CodeStmt.lines, scanLines_cons, scan_indented]
      rfl
  | .contAt label, h, due => by
      simp only [CodeStmt.lines, scanLines_cons, scan_indented, scan_append, scan_of_over h]
      rfl
  | .empty, _, due => by
      simp only [CodeStmt.lines, scanLines_cons, scan_indented]
      rfl
  | .block body, h, due => by
      simp only [CodeStmt.lines, scanLines_append, scanLines_cons, scan_indented,
        CodeStmt.scan_linesOf (level + 1) body h]
      rfl
  | .ifElse cond body rest, h, due => by
      simp only [CodeStmt.lines, scanLines_append, scanLines_cons, scan_indented, scan_append,
        cond.scan_text h.1, CodeStmt.scan_linesOf (level + 1) body h.2.1]
      exact rest.scan_lines level h.2.2 due
  | .whileLoop cond body, h, due => by
      simp only [CodeStmt.lines, scanLines_append, scanLines_cons, scan_indented, scan_append,
        cond.scan_text h.1, CodeStmt.scan_linesOf (level + 1) body h.2]
      rfl
  | .doLoop body cond, h, due => by
      simp only [CodeStmt.lines, scanLines_append, scanLines_cons, scan_indented, scan_append,
        cond.scan_text h.2, CodeStmt.scan_linesOf (level + 1) body h.1]
      rfl
  | .forLoop start cond step body, h, due => by
      simp only [CodeStmt.lines, scanLines_append, scanLines_cons, scan_indented, scan_append,
        scan_loopStart h.1, scan_optionText h.2.1, scan_optionText h.2.2.1,
        CodeStmt.scan_linesOf (level + 1) body h.2.2.2]
      rfl
  | .switch subject cases, h, due => by
      simp only [CodeStmt.lines, scanLines_append, scanLines_cons, scan_indented, scan_append,
        subject.scan_text h.1, CodeCase.scan_linesOf (level + 1) cases h.2]
      rfl

theorem CodeStmt.scan_linesOf (level : Nat) : ∀ ss : List CodeStmt, CodeStmt.AllSpelled isPlain ss →
    ∀ due, scanLines due (CodeStmt.linesOf level ss) = some due
  | [], _, due => rfl
  | s :: ss, h, due => by
      rw [CodeStmt.linesOf, scanLines_append, s.scan_lines level h.1, Option.bind_some]
      exact CodeStmt.scan_linesOf level ss h.2 due

/-- What follows a branch closes the brace that the branch opened. -/
theorem ElseBranch.scan_lines (level : Nat) : ∀ b : ElseBranch, b.Spelled isPlain →
    ∀ due, scanLines ('\x7d' :: due) (b.lines level) = some due
  | .none, _, due => by
      simp only [ElseBranch.lines, scanLines_cons, scan_indented]
      rfl
  | .block body, h, due => by
      simp only [ElseBranch.lines, scanLines_append, scanLines_cons, scan_indented,
        CodeStmt.scan_linesOf (level + 1) body h]
      rfl
  | .elseIf cond body rest, h, due => by
      simp only [ElseBranch.lines, scanLines_append, scanLines_cons, scan_indented, scan_append,
        cond.scan_text h.1, CodeStmt.scan_linesOf (level + 1) body h.2.1]
      exact rest.scan_lines level h.2.2 due

theorem CodeCase.scan_lines (level : Nat) : ∀ c : CodeCase, c.Spelled isPlain →
    ∀ due, scanLines due (c.lines level) = some due
  | .mk label selector body, h, due => by
      simp only [CodeCase.lines, scanLines_append, scanLines_cons, scan_indented, scan_append,
        scan_of_over h.1, scan_selector, CodeStmt.scan_linesOf (level + 1) body h.2,
        Option.bind_some]
      rfl

theorem CodeCase.scan_linesOf (level : Nat) : ∀ cs : List CodeCase, CodeCase.AllSpelled isPlain cs →
    ∀ due, scanLines due (CodeCase.linesOf level cs) = some due
  | [], _, due => rfl
  | c :: cs, h, due => by
      rw [CodeCase.linesOf, scanLines_append, c.scan_lines level h.1, Option.bind_some]
      exact CodeCase.scan_linesOf level cs h.2 due

end

theorem CodeFunction.scan_lines {f : CodeFunction} (h : f.Spelled isPlain) (level : Nat)
    (due : List Char) : scanLines due (f.lines level) = some due := by
  have hparams : ∀ due, scan due (join ", " (f.params.map fun q => q.1 ++ " " ++ q.2)) = some due :=
    scan_join (fun _ => rfl) fun s hs due => by
      obtain ⟨q, hq, rfl⟩ := List.mem_map.mp hs
      simp only [scan_append, scan_of_over (h.params q hq).1, scan_of_over (h.params q hq).2,
        Option.bind_some]
      rfl
  have hstatic : ∀ due, scan due (if f.isStatic then "static " else "") = some due := by
    intro due
    split <;> rfl
  have hbody := CodeStmt.scan_linesOf (level + 1) f.body (CodeStmt.allSpelled_iff.mpr h.body)
  simp only [CodeFunction.lines, scanLines_append, scanLines_cons, scan_indented, scan_append,
    hstatic, scan_of_over h.result, scan_of_over h.name, hparams, hbody, Option.bind_some]
  rfl

theorem scan_methodLines {fs : List CodeFunction} (h : ∀ f ∈ fs, f.Spelled isPlain) (level : Nat)
    (due : List Char) : scanLines due (methodLines level fs) = some due := by
  fun_induction methodLines level fs with
  | case1 => rfl
  | case2 f => exact CodeFunction.scan_lines (h f List.mem_cons_self) level due
  | case3 f g fs ih =>
    rw [List.forall_mem_cons] at h
    rw [scanLines_append, scanLines_append, CodeFunction.scan_lines h.1, Option.bind_some]
    exact ih h.2

theorem CodeItem.scan_lines {i : CodeItem} (h : i.Spelled isPlain) (due : List Char) :
    scanLines due i.lines = some due := by
  cases i with
  | function f => exact CodeFunction.scan_lines h 0 due
  | main inner args =>
    have hcall : ∀ due, scan due (Code.apply (.name inner.name) args).text = some due :=
      Code.scan_text _ ⟨h.1.name, Code.allSpelled_iff.mpr h.2⟩
    simp only [CodeItem.lines, scanLines_append, scanLines_cons, scan_indented, scan_append, hcall,
      CodeFunction.scan_lines h.1, Option.bind_some]
    rfl
  | «class» name base methods =>
    simp only [CodeItem.lines, scanLines_append, scanLines_cons, scan_append, scan_of_over h.1,
      scan_of_over h.2.1, scan_methodLines h.2.2]
    rfl
  | «variable» type var =>
    simp only [CodeItem.lines, scanLines_cons, scan_append, scan_of_over h.1, scan_declarator h.2,
      Option.bind_some]
    rfl

theorem scan_itemLines {is : List CodeItem} (h : ∀ i ∈ is, i.Spelled isPlain) (due : List Char) :
    scanLines due (itemLines is) = some due := by
  fun_induction itemLines is with
  | case1 => rfl
  | case2 i => exact CodeItem.scan_lines (h i List.mem_cons_self) due
  | case3 i j is ih =>
    rw [List.forall_mem_cons] at h
    rw [scanLines_append, scanLines_append, CodeItem.scan_lines h.1, Option.bind_some]
    exact ih h.2

theorem scanLines_of_plain {lines : List String} (h : ∀ l ∈ lines, ∀ due, scan due l = some due)
    (due : List Char) : scanLines due lines = some due := by
  induction lines with
  | nil => rfl
  | cons l ls ih =>
    rw [List.forall_mem_cons] at h
    rw [scanLines_cons, h.1, Option.bind_some]
    exact ih h.2

/-- A file starts and ends with no bracket open. -/
theorem CodeFile.wellNested {file : CodeFile} (hheader : Over isPlain file.header)
    (himports : ∀ uri ∈ file.imports, Over isPlain uri)
    (hitems : ∀ i ∈ file.items, i.Spelled isPlain) : WellNested file.text := by
  have hlines : ∀ due, scanLines due (file.imports.map fun uri => "import '" ++ uri ++ "';") =
      some due := by
    refine scanLines_of_plain fun l hl due => ?_
    obtain ⟨uri, huri, rfl⟩ := List.mem_map.mp hl
    simp only [scan_append, scan_of_over (himports uri huri)]
    rfl
  change scanLines [] file.lines = some []
  simp only [CodeFile.lines, scanLines_append, scanLines_cons, scan_of_over hheader, hlines,
    scan_itemLines hitems, Option.bind_some]
  rfl

theorem imports_plain {package : String} (h : Over isPlain package) :
    ∀ uri ∈ Package.imports package, Over isPlain uri :=
  imports_over admitsWords_isPlain rfl rfl h

namespace Lower

variable {env : TypeEnv} {scope : Scope} {e : Expr} {code : Code}

/-- A text for an expression to which a method call can be attached as a whole: the name that is
left of the expression without its transparent conversions, a wrapper made of a number, or a text
that its first and last character enclose. -/
inductive Atomic (scope : Scope) (e : Expr) : String → Prop
  | name {info : ExprInfo} {name : String} {kind : RefKind}
      (h : e.stripTransparent = .ref info name kind) :
      Atomic scope e (if kind = .self then scope.self else identifier name)
  | number {s : Scalar} {wrapper : String} (hwrapper : s.wrapper = .ok wrapper) (v : Int64) :
      Atomic scope e (wrapper ++ ".fromInt(" ++ decimal v ++ ")")
  | enclosed {inner : String} (h : WellNested inner) : Atomic scope e ("(" ++ inner ++ ")")

theorem Atomic.of_stripTransparent {operand : Expr} {text : String}
    (hstrip : e.stripTransparent = operand.stripTransparent) (h : Atomic scope operand text) :
    Atomic scope e text := by
  cases h with
  | name h => exact .name (hstrip.trans h)
  | number hwrapper v => exact .number hwrapper v
  | enclosed h => exact .enclosed h

theorem atomic_constant {info : ExprInfo} {v : Int64} (h : constantCode info v = .ok code) :
    Atomic scope e code.text := by
  unfold constantCode at h
  split at h
  · cases h
  · obtain ⟨wrapper, hwrapper, h⟩ := Result.bind_eq_ok.mp h
    cases h
    have hcalling : "." ++ "fromInt" ++ "(" = ".fromInt(" := rfl
    have htext : ∀ v, (onClass wrapper "fromInt" [.int v]).text =
        wrapper ++ ".fromInt(" ++ decimal v ++ ")" := by
      intro v
      simp only [onClass, Code.text, Code.texts, join_singleton, ← hcalling, String.append_assoc]
    rw [htext]
    exact .number hwrapper _

theorem atomic_paren {inner : Code} (h : inner.Spelled isPlain) :
    Atomic scope e (Code.paren inner).text := .enclosed (inner.scan_text h [])

theorem atomic_node (hself : Over isPlain scope.self) (he : e.Spelled isPlain)
    (hclosed : isClosed e = true) (h : expr env scope false e = .ok code) :
    Atomic scope e code.text := by
  have hspelled := expr_yields admitsWords_isPlain hself he _ _ h
  cases hc : env.constant? e with
  | some v => exact atomic_constant (expr_constant rfl hc h)
  | none =>
    cases e with
    | ref info name kind =>
      rw [expr, orConstant_eq_ok hc] at h
      cases h
      exact .name rfl
    | conditional info cond then_ else_ =>
      rw [expr, orConstant_eq_ok hc] at h
      simp only [Result.bind_eq_ok, Except.ok.injEq] at h
      obtain ⟨_, -, _, -, _, -, rfl⟩ := h
      exact atomic_paren hspelled
    | listNext info list =>
      rw [expr, orConstant_eq_ok hc] at h
      simp only [Result.bind_eq_ok, Except.ok.injEq] at h
      obtain ⟨_, -, _, -, rfl⟩ := h
      exact atomic_paren hspelled
    | _ => cases hclosed

/-- Conversions that leave the value alone pass on the code of their operand or are constants. -/
theorem atomic_stripped (hself : Over isPlain scope.self) (he : e.Spelled isPlain)
    (hclosed : isClosed e.stripTransparent = true) (h : expr env scope false e = .ok code) :
    Atomic scope e code.text := by
  fun_induction Expr.stripTransparent e generalizing code with
  | case1 info kind operand isExplicit hkind ih =>
    cases hc : env.constant? (.cast info kind operand isExplicit) with
    | some v => exact atomic_constant (expr_constant rfl hc h)
    | none =>
      have hkeep : castPlan env info kind operand = .ok .keep := by
        simp only [Bool.or_eq_true, decide_eq_true_eq] at hkind
        rcases hkind with rfl | rfl <;> rfl
      rw [expr, if_neg (by simp), orConstant_eq_ok hc, hkeep, Result.ok_bind] at h
      obtain ⟨inner, hinner, h⟩ := Result.bind_eq_ok.mp h
      cases h
      refine .of_stripTransparent ?_ (ih (he.child List.mem_cons_self) hclosed hinner)
      rw [Expr.stripTransparent, if_pos hkind]
  | case2 => cases hclosed
  | case3 => exact atomic_node hself he hclosed h

theorem atomic_receiver (hself : Over isPlain scope.self) (he : e.Spelled isPlain)
    (h : expr env scope false e = .ok code) : Atomic scope e (asReceiver env e code).text := by
  unfold asReceiver
  split
  · rename_i hbare
    rw [isBare_eq, Bool.or_eq_true] at hbare
    rcases hbare with hclosed | hconstant
    · exact atomic_stripped hself he hclosed h
    · obtain ⟨v, hc⟩ := Option.isSome_iff_exists.mp hconstant
      exact atomic_constant (expr_constant rfl hc h)
  · exact atomic_paren (expr_yields admitsWords_isPlain hself he _ _ h)

/-- Where no name has a bracket in it, the file of a unit is well nested, and whatever a method call
is written after is atomic, be it an expression or an argument list without its conversions. -/
theorem emitted_brackets_match (env : TypeEnv) {package : String} (hpackage : Over isPlain package)
    {u : SourceUnit} (hu : ∀ d ∈ u.decls, d.Spelled isPlain) :
    (∀ cancelled text, generate env package cancelled (some u) = .ok text → WellNested text) ∧
      ∀ (scope : Scope) (e : Expr) (code : Code), Over isPlain scope.self → e.Spelled isPlain →
        (expr env scope false e = .ok code → Atomic scope e (asReceiver env e code).text) ∧
        (expr env scope true e = .ok code →
          Atomic scope e.stripList (asReceiver env e.stripList code).text) := by
  refine ⟨fun cancelled text h => ?_, fun scope e code hself he => ⟨atomic_receiver hself he, ?_⟩⟩
  · obtain ⟨file, hfile, rfl⟩ := generate_eq_ok h
    have hitems := unit_spelled admitsWords_isPlain hu hfile
    obtain ⟨out, -, hfile⟩ := Result.bind_eq_ok.mp hfile
    cases hfile
    have hheader : Over isPlain header := over_of_all rfl
    exact CodeFile.wellNested hheader (imports_plain hpackage) hitems
  · intro h
    rw [expr_stripList] at h
    exact atomic_receiver hself (spelled_stripList he) h

/-- An object if it is there and else itself, which is sent a message with an argument list. -/
def redrawn : Expr :=
  let info : ExprInfo := { type := some (.object "Widget") }
  let w : Expr := .ref info "w" .parameter
  .message info (.conditional info w w w) "draw:in:" [w, .cast info .noOp w false]

def redraw : FuncDecl where
  name := "redraw"
  params := [⟨{}, "w", .object "Widget"⟩]
  result := .void
  body := some [.expr {} redrawn]
  variadic := false
  entry := false

theorem redrawn_spelled : redrawn.Spelled isPlain := by
  have hw : Expr.Spelled isPlain (.ref { type := some (.object "Widget") } "w" .parameter) :=
    ⟨by decide, List.forall_mem_nil _⟩
  refine ⟨by decide, List.forall_mem_cons.mpr ⟨⟨by decide, ?_⟩, ?_⟩⟩
  · simp only [Expr.children, List.forall_mem_cons]
    exact ⟨hw, hw, hw, fun _ h => absurd h List.not_mem_nil⟩
  · simp only [List.forall_mem_cons]
    exact ⟨hw, ⟨by decide, List.forall_mem_singleton.mpr hw⟩, fun _ h => absurd h List.not_mem_nil⟩

theorem redraw_spelled : redraw.Spelled isPlain where
  name := by decide
  params := List.forall_mem_singleton.mpr ⟨by decide, fun c hc => by cases hc; decide⟩
  result := fun c hc => by cases hc
  body := by
    intro body hbody
    cases hbody
    refine List.forall_mem_singleton.mpr ⟨?_, List.forall_mem_nil _, List.forall_mem_nil _⟩
    exact List.forall_mem_singleton.mpr redrawn_spelled

theorem redraw_brackets_match :
    (∃ text, generate ⟨"", "", [], []⟩ "" false (some ⟨"", "", [.func redraw]⟩) = .ok text ∧
      WellNested text) ∧
    ∃ code, expr ⟨"", "", [], []⟩ {} false redrawn = .ok code ∧
      Atomic {} redrawn (asReceiver ⟨"", "", [], []⟩ redrawn code).text := by
  obtain ⟨text, htext⟩ : ∃ text,
      generate ⟨"", "", [], []⟩ "" false (some ⟨"", "", [.func redraw]⟩) = .ok text := ⟨_, rfl⟩
  obtain ⟨code, hcode⟩ : ∃ code, expr ⟨"", "", [], []⟩ {} false redrawn = .ok code := ⟨_, rfl⟩
  have hu : ∀ d ∈ [Decl.func redraw], d.Spelled isPlain :=
    List.forall_mem_singleton.mpr redraw_spelled
  obtain ⟨hnested, hatomic⟩ := emitted_brackets_match ⟨"", "", [], []⟩
    (by decide : Over isPlain "") (u := ⟨"", "", [.func redraw]⟩) hu
  exact ⟨⟨text, htext, hnested false text htext⟩, code, hcode,
    (hatomic {} redrawn code (by decide) redrawn_spelled).1 hcode⟩

end Lower

end DartLowering
