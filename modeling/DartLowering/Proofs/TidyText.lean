import DartLowering.Proofs.EmissionFailures
import DartLowering.Proofs.NormalText

/-!
Emitted text is in normal form. A line is firm when it ends in a character other than a blank; every
line that emission writes is firm or empty, and the last one is firm. Nothing is left to the
normaliser there: no blanks to cut off, no empty lines to drop, and one line feed at the end.
-/
namespace DartLowering

namespace Text

/-- A line that ends in a character other than a blank. -/
structure Firm (s : String) : Prop where
  inLine : Over isInLine s
  last : s.toList.getLast?.any (fun c => !isBlank c) = true

def Tidy (lines : List String) : Prop := ∀ l ∈ lines, l = "" ∨ Firm l

variable {s t : String}

theorem admitsWords_isInLine : AdmitsWords isInLine := by
  intro c hc
  unfold isInLine
  by_cases hr : c = '\r'
  · subst hr
    cases hc
  by_cases hn : c = '\n'
  · subst hn
    cases hc
  simp [hr, hn]

/-- A text before the end of a firm line leaves it firm. -/
theorem Firm.append (hs : Over isInLine s) (ht : Firm t) : Firm (s ++ t) := by
  refine ⟨over_append.mpr ⟨hs, ht.inLine⟩, ?_⟩
  have hlast := ht.last
  rw [String.toList_append, List.getLast?_append]
  cases hc : t.toList.getLast? with
  | none =>
    rw [hc] at hlast
    cases hlast
  | some c =>
    rw [hc] at hlast
    exact hlast

theorem firm_of_all (hline : s.toList.all isInLine = true)
    (hlast : s.toList.getLast?.any (fun c => !isBlank c) = true) : Firm s :=
  ⟨over_of_all hline, hlast⟩

theorem Firm.ne_empty (h : Firm s) : s ≠ "" := by
  rintro rfl
  cases h.last

theorem dropTrailing_of_firm (h : Firm s) : dropTrailing isBlank s.toList = s.toList := by
  refine List.rdropWhile_eq_self_iff.mpr fun hne hblank => ?_
  have hlast := h.last
  rw [List.getLast?_eq_some_getLast hne, Option.any_some, hblank] at hlast
  cases hlast

/-- There are no blanks at the end of a firm or empty line. -/
theorem Tidy.dropTrailing {lines : List String} (h : Tidy lines) :
    lines.map (fun l => Text.dropTrailing isBlank l.toList) = lines.map String.toList := by
  refine List.map_congr_left fun l hl => ?_
  rcases h l hl with rfl | hfirm
  · rfl
  · exact dropTrailing_of_firm hfirm

theorem Tidy.inLine {lines : List String} (h : Tidy lines) : ∀ l ∈ lines, Over isInLine l := by
  intro l hl
  rcases h l hl with rfl | hfirm
  · exact over_of_all rfl
  · exact hfirm.inLine

section Normal

theorem toList_unlines (lines : List String) :
    (unlines lines).toList = (lines.map String.toList).flatMap (· ++ ['\n']) := by
  induction lines with
  | nil => rfl
  | cons l ls ih => simpa [unlines] using ih

/-- Empty lines at the end are dropped up to the last line that is not empty. -/
theorem dropEmptyTail_append {lines : List (List Char)} {last : List Char} (hlast : last ≠ [])
    (n : Nat) : dropEmptyTail (lines ++ [last] ++ List.replicate n []) = lines ++ [last] := by
  induction n with
  | zero =>
    rw [List.replicate_zero, List.append_nil]
    exact List.rdropWhile_concat_neg _ _ _ (by simpa using hlast)
  | succ n ih =>
    rw [List.replicate_succ', ← List.append_assoc]
    exact (List.rdropWhile_concat_pos _ _ _ rfl).trans ih

/-- The normaliser leaves tidy lines as they are, up to the last that is not empty. -/
theorem normalise_unlines {lines : List String} {last : String} (h : Tidy (lines ++ [last]))
    (hlast : last ≠ "") (n : Nat) :
    normalise false (unlines (lines ++ [last] ++ List.replicate n "")) =
      unlines (lines ++ [last]) := by
  have htidy : Tidy (lines ++ [last] ++ List.replicate n "") := by
    refine List.forall_mem_append.mpr ⟨h, fun l hl => ?_⟩
    exact .inl (List.eq_of_mem_replicate hl)
  have hempties : (List.replicate n "").map String.toList ++ [[]] = List.replicate (n + 1) [] := by
    rw [List.map_replicate, List.replicate_succ']
    rfl
  have hne : last.toList ≠ [] := fun hnil => hlast (String.toList_eq_nil_iff.mp hnil)
  have hlines : normalLines (unlines (lines ++ [last] ++ List.replicate n "")).toList =
      (lines ++ [last]).map String.toList := by
    rw [normalLines, pieces_unifyLineEnds, toList_unlines,
      cutLines_closed (.inr rfl) (List.forall_mem_map.mpr htidy.inLine), List.map_append,
      List.map_map]
    change dropEmptyTail
      (List.map (fun l : String => Text.dropTrailing isBlank l.toList) _ ++ [[]]) = _
    rw [htidy.dropTrailing, List.map_append, List.append_assoc, hempties, List.map_append]
    exact dropEmptyTail_append hne (n + 1)
  have hshown : shown ((lines ++ [last]).map String.toList) = _ := if_neg (by simp)
  rw [← String.toList_inj, normalise_toList, hlines, hshown, toList_unlines (lines ++ [last])]
  rfl

end Normal

end Text

open Text

section Lines

theorem spaces_inLine (n : Nat) : Over isInLine (spaces n) := by
  refine over_ofList.mpr fun c hc => ?_
  rw [List.eq_of_mem_replicate hc]
  rfl

theorem firm_indented {line : String} (h : Firm line) (level : Nat) : Firm (indented level line) :=
  Firm.append (spaces_inLine _) h

theorem over_decimal (v : Int64) : Over isInLine (decimal v) :=
  (decimal_word v).weaken admitsWords_isInLine

namespace Code

mutual

/-- The text of an expression stays in one line. -/
theorem text_inLine : ∀ c : Code, c.Spelled isInLine → Over isInLine c.text
  | .name _, h | .double _, h => h
  | .int value, _ => over_decimal value
  | .paren inner, h => by
      simp only [text, over_append]
      exact ⟨⟨over_of_all rfl, text_inLine inner h⟩, over_of_all rfl⟩
  | .property receiver field, h => by
      simp only [text, over_append]
      exact ⟨⟨text_inLine receiver h.1, over_of_all rfl⟩, h.2⟩
  | .invoke receiver method args, h => by
      simp only [text, over_append]
      exact ⟨⟨⟨⟨⟨text_inLine receiver h.1, over_of_all rfl⟩, h.2.1⟩, over_of_all rfl⟩,
        over_join (over_of_all rfl) (texts_inLine args h.2.2)⟩, over_of_all rfl⟩
  | .apply callee args, h => by
      simp only [text, over_append]
      exact ⟨⟨⟨text_inLine callee h.1, over_of_all rfl⟩,
        over_join (over_of_all rfl) (texts_inLine args h.2)⟩, over_of_all rfl⟩
  | .list items, h => by
      simp only [text, over_append]
      exact ⟨⟨over_of_all rfl, over_join (over_of_all rfl) (texts_inLine items h)⟩, over_of_all rfl⟩
  | .bytes items, _ => by
      have hbytes : ∀ s ∈ items.map decimalNat, Over isInLine s := by
        intro s hs
        obtain ⟨n, -, rfl⟩ := List.mem_map.mp hs
        exact (decimalNat_word n).weaken admitsWords_isInLine
      simp only [text, over_append]
      exact ⟨⟨over_of_all rfl, over_join (over_of_all rfl) hbytes⟩, over_of_all rfl⟩
  | .closure body, h => by
      simp only [text, over_append]
      exact ⟨over_of_all rfl, text_inLine body h⟩
  | .sequence first second, h => by
      simp only [text, over_append]
      exact ⟨⟨⟨⟨over_of_all rfl, text_inLine first h.1⟩, over_of_all rfl⟩, text_inLine second h.2⟩,
        over_of_all rfl⟩
  | .bind value body, h => by
      simp only [text, over_append]
      exact ⟨⟨⟨⟨⟨⟨over_of_all rfl, over_of_all rfl⟩, over_of_all rfl⟩, text_inLine value h.1⟩,
        over_of_all rfl⟩, text_inLine body h.2⟩, over_of_all rfl⟩
  | .nonZero value, h => by
      simp only [text, over_append]
      exact ⟨text_inLine value h, over_of_all rfl⟩
  | .choose cond then_ else_, h => by
      simp only [text, over_append]
      exact ⟨⟨⟨⟨text_inLine cond h.1, over_of_all rfl⟩, text_inLine then_ h.2.1⟩, over_of_all rfl⟩,
        text_inLine else_ h.2.2⟩
  | .castTo value type, h => by
      simp only [text, over_append]
      exact ⟨⟨text_inLine value h.1, over_of_all rfl⟩, h.2⟩

theorem texts_inLine : ∀ cs : List Code, AllSpelled isInLine cs → ∀ s ∈ texts cs, Over isInLine s
  | [], _ => List.forall_mem_nil _
  | c :: cs, h => List.forall_mem_cons.mpr ⟨text_inLine c h.1, texts_inLine cs h.2⟩

end

end Code

theorem Declarator.text_inLine {d : Declarator} (h : d.Spelled isInLine) :
    Over isInLine d.text := by
  simp only [Declarator.text, over_append]
  exact ⟨⟨h.1, over_of_all rfl⟩, d.value.text_inLine h.2⟩

theorem LoopStart.text_inLine {start : LoopStart} (h : start.Spelled isInLine) :
    Over isInLine start.text := by
  cases start with
  | nothing => exact over_of_all rfl
  | evaluate value => exact value.text_inLine h
  | declare type vars =>
    cases vars with
    | nil => exact over_of_all rfl
    | cons v vs =>
      have hvars : ∀ s ∈ (v :: vs).map Declarator.text, Over isInLine s := by
        intro s hs
        obtain ⟨w, hw, rfl⟩ := List.mem_map.mp hs
        exact Declarator.text_inLine (h.2 w hw)
      simp only [LoopStart.text, over_append]
      exact ⟨⟨h.1, over_of_all rfl⟩, over_join (over_of_all rfl) hvars⟩

theorem optionText_inLine {code : Option Code} (h : ∀ c ∈ code, c.Spelled isInLine) :
    Over isInLine (optionText code) := by
  cases code with
  | none => exact over_of_all rfl
  | some c => exact c.text_inLine (h c rfl)

theorem Selector.text_firm (selector : Selector) : Firm selector.text := by
  cases selector with
  | default => exact firm_of_all rfl rfl
  | value v =>
    refine Firm.append ?_ (firm_of_all rfl rfl)
    exact over_append.mpr ⟨over_of_all rfl, over_decimal v⟩

/-- A line that closes with a bracket or a semicolon is firm, whatever stands before. -/
theorem firm_closed {before close : String} (h : Over isInLine before)
    (hline : close.toList.all isInLine = true)
    (hlast : close.toList.getLast?.any (fun c => !isBlank c) = true) (level : Nat) :
    Firm (indented level (before ++ close)) :=
  firm_indented (Firm.append h (firm_of_all hline hlast)) level

theorem firm_fixed {line : String} (hline : line.toList.all isInLine = true)
    (hlast : line.toList.getLast?.any (fun c => !isBlank c) = true) (level : Nat) :
    Firm (indented level line) :=
  firm_indented (firm_of_all hline hlast) level

mutual

/-- Every line of a statement is firm. -/
theorem CodeStmt.lines_firm (level : Nat) : ∀ s : CodeStmt, s.Spelled isInLine →
    ∀ l ∈ s.lines level, Firm l
  | .evaluate value, h =>
      List.forall_mem_singleton.mpr (firm_closed (value.text_inLine h) rfl rfl level)
  | .declare type var, h => by
      refine List.forall_mem_singleton.mpr (firm_closed ?_ rfl rfl level)
      simp only [over_append]
      exact ⟨⟨h.1, over_of_all rfl⟩, Declarator.text_inLine h.2⟩
  | .ret none, _ => List.forall_mem_singleton.mpr (firm_fixed rfl rfl level)
  | .ret (some value), h => by
      refine List.forall_mem_singleton.mpr (firm_closed ?_ rfl rfl level)
      exact over_append.mpr ⟨over_of_all rfl, value.text_inLine (h value rfl)⟩
  | .brk, _ | .cont, _ | .empty, _ => List.forall_mem_singleton.mpr (firm_fixed rfl rfl level)
  | .contAt label, h => by
      refine List.forall_mem_singleton.mpr (firm_closed ?_ rfl rfl level)
      exact over_append.mpr ⟨over_of_all rfl, h⟩
  | .block body, h => by
      simp only [CodeStmt.lines, List.forall_mem_append, List.forall_mem_singleton]
      exact ⟨⟨firm_fixed rfl rfl level, CodeStmt.linesOf_firm (level + 1) body h⟩,
        firm_fixed rfl rfl level⟩
  | .ifElse cond body rest, h => by
      simp only [CodeStmt.lines, List.forall_mem_append, List.forall_mem_singleton]
      refine ⟨⟨firm_closed ?_ rfl rfl level, CodeStmt.linesOf_firm (level + 1) body h.2.1⟩,
        rest.lines_firm level h.2.2⟩
      exact over_append.mpr ⟨over_of_all rfl, cond.text_inLine h.1⟩
  | .whileLoop cond body, h => by
      simp only [CodeStmt.lines, List.forall_mem_append, List.forall_mem_singleton]
      refine ⟨⟨firm_closed ?_ rfl rfl level, CodeStmt.linesOf_firm (level + 1) body h.2⟩,
        firm_fixed rfl rfl level⟩
      exact over_append.mpr ⟨over_of_all rfl, cond.text_inLine h.1⟩
  | .doLoop body cond, h => by
      simp only [CodeStmt.lines, List.forall_mem_append, List.forall_mem_singleton]
      refine ⟨⟨firm_fixed rfl rfl level, CodeStmt.linesOf_firm (level + 1) body h.1⟩,
        firm_closed ?_ rfl rfl level⟩
      exact over_append.mpr ⟨over_of_all rfl, cond.text_inLine h.2⟩
  | .forLoop start cond step body, h => by
      simp only [CodeStmt.lines, List.forall_mem_append, List.forall_mem_singleton]
      refine ⟨⟨firm_closed ?_ rfl rfl level, CodeStmt.linesOf_firm (level + 1) body h.2.2.2⟩,
        firm_fixed rfl rfl level⟩
      simp only [over_append]
      exact ⟨⟨⟨⟨⟨over_of_all rfl, LoopStart.text_inLine h.1⟩, over_of_all rfl⟩,
        optionText_inLine h.2.1⟩, over_of_all rfl⟩, optionText_inLine h.2.2.1⟩
  | .switch subject cases, h => by
      simp only [CodeStmt.lines, List.forall_mem_append, List.forall_mem_singleton]
      refine ⟨⟨firm_closed ?_ rfl rfl level, CodeCase.linesOf_firm (level + 1) cases h.2⟩,
        firm_fixed rfl rfl level⟩
      exact over_append.mpr ⟨over_of_all rfl, subject.text_inLine h.1⟩

theorem CodeStmt.linesOf_firm (level : Nat) :
    ∀ ss : List CodeStmt, CodeStmt.AllSpelled isInLine ss → ∀ l ∈ CodeStmt.linesOf level ss, Firm l
  | [], _ => List.forall_mem_nil _
  | s :: ss, h =>
      List.forall_mem_append.mpr ⟨s.lines_firm level h.1, CodeStmt.linesOf_firm level ss h.2⟩

theorem ElseBranch.lines_firm (level : Nat) : ∀ b : ElseBranch, b.Spelled isInLine →
    ∀ l ∈ b.lines level, Firm l
  | .none, _ => List.forall_mem_singleton.mpr (firm_fixed rfl rfl level)
  | .block body, h => by
      simp only [ElseBranch.lines, List.forall_mem_append, List.forall_mem_singleton]
      exact ⟨⟨firm_fixed rfl rfl level, CodeStmt.linesOf_firm (level + 1) body h⟩,
        firm_fixed rfl rfl level⟩
  | .elseIf cond body rest, h => by
      simp only [ElseBranch.lines, List.forall_mem_append, List.forall_mem_singleton]
      refine ⟨⟨firm_closed ?_ rfl rfl level, CodeStmt.linesOf_firm (level + 1) body h.2.1⟩,
        rest.lines_firm level h.2.2⟩
      exact over_append.mpr ⟨over_of_all rfl, cond.text_inLine h.1⟩

theorem CodeCase.lines_firm (level : Nat) : ∀ c : CodeCase, c.Spelled isInLine →
    ∀ l ∈ c.lines level, Firm l
  | .mk label selector body, h => by
      simp only [CodeCase.lines, List.forall_mem_append, List.forall_mem_singleton]
      refine ⟨firm_indented (Firm.append ?_ selector.text_firm) level,
        CodeStmt.linesOf_firm (level + 1) body h.2⟩
      exact over_append.mpr ⟨h.1, over_of_all rfl⟩

theorem CodeCase.linesOf_firm (level : Nat) :
    ∀ cs : List CodeCase, CodeCase.AllSpelled isInLine cs → ∀ l ∈ CodeCase.linesOf level cs, Firm l
  | [], _ => List.forall_mem_nil _
  | c :: cs, h =>
      List.forall_mem_append.mpr ⟨c.lines_firm level h.1, CodeCase.linesOf_firm level cs h.2⟩

end

theorem CodeFunction.lines_firm {f : CodeFunction} (h : f.Spelled isInLine) (level : Nat) :
    ∀ l ∈ f.lines level, Firm l := by
  have hparams : ∀ s ∈ f.params.map fun q => q.1 ++ " " ++ q.2, Over isInLine s := by
    intro s hs
    obtain ⟨q, hq, rfl⟩ := List.mem_map.mp hs
    simp only [over_append]
    exact ⟨⟨(h.params q hq).1, over_of_all rfl⟩, (h.params q hq).2⟩
  have hstatic : Over isInLine (if f.isStatic then "static " else "") := by
    split <;> exact over_of_all rfl
  simp only [CodeFunction.lines, List.forall_mem_append, List.forall_mem_singleton]
  refine ⟨⟨firm_closed ?_ rfl rfl level,
    CodeStmt.linesOf_firm (level + 1) f.body (CodeStmt.allSpelled_iff.mpr h.body)⟩,
    firm_fixed rfl rfl level⟩
  simp only [over_append]
  exact ⟨⟨⟨⟨⟨hstatic, h.result⟩, over_of_all rfl⟩, h.name⟩, over_of_all rfl⟩,
    over_join (over_of_all rfl) hparams⟩

theorem tidy_of_firm {lines : List String} (h : ∀ l ∈ lines, Firm l) : Tidy lines :=
  fun l hl => .inr (h l hl)

theorem Text.Tidy.append {ls ms : List String} (hls : Tidy ls) (hms : Tidy ms) : Tidy (ls ++ ms) :=
  List.forall_mem_append.mpr ⟨hls, hms⟩

theorem tidy_empty : Tidy [""] := List.forall_mem_singleton.mpr (.inl rfl)

/-- Empty lines stand only between methods. -/
theorem methodLines_tidy {fs : List CodeFunction} (h : ∀ f ∈ fs, f.Spelled isInLine) (level : Nat) :
    Tidy (methodLines level fs) := by
  fun_induction methodLines level fs with
  | case1 => exact List.forall_mem_nil _
  | case2 f => exact tidy_of_firm (CodeFunction.lines_firm (h f List.mem_cons_self) level)
  | case3 f g fs ih =>
    rw [List.forall_mem_cons] at h
    exact ((tidy_of_firm (CodeFunction.lines_firm h.1 level)).append tidy_empty).append (ih h.2)

/-- The lines are tidy, and the last one is firm. -/
def EndsFirm (lines : List String) : Prop := ∃ ls last, lines = ls ++ [last] ∧ Tidy ls ∧ Firm last

theorem EndsFirm.after {ls ms : List String} (hls : Tidy ls) (hms : EndsFirm ms) :
    EndsFirm (ls ++ ms) := by
  obtain ⟨ms, last, rfl, htidy, hlast⟩ := hms
  exact ⟨ls ++ ms, last, (List.append_assoc _ _ _).symm, hls.append htidy, hlast⟩

theorem endsFirm_singleton {last : String} (h : Firm last) : EndsFirm [last] :=
  ⟨[], last, rfl, List.forall_mem_nil _, h⟩

theorem endsFirm_of_firm {lines : List String} (hne : lines ≠ []) (h : ∀ l ∈ lines, Firm l) :
    EndsFirm lines := by
  obtain hnil | ⟨ls, last, rfl⟩ := List.eq_nil_or_concat' lines
  · exact absurd hnil hne
  · rw [List.forall_mem_append, List.forall_mem_singleton] at h
    exact ⟨ls, last, rfl, tidy_of_firm h.1, h.2⟩

theorem EndsFirm.tidy {lines : List String} (h : EndsFirm lines) : Tidy lines := by
  obtain ⟨ls, last, rfl, htidy, hlast⟩ := h
  exact htidy.append (List.forall_mem_singleton.mpr (.inr hlast))

/-- An item ends in the line that closes it. -/
theorem CodeItem.lines_endFirm {i : CodeItem} (h : i.Spelled isInLine) : EndsFirm i.lines := by
  have hclose : Firm "\x7d" := firm_of_all rfl rfl
  cases i with
  | function f =>
    refine EndsFirm.after (fun l hl => .inr ?_) (endsFirm_singleton (firm_fixed rfl rfl 0))
    exact CodeFunction.lines_firm h 0 l (List.mem_append_left _ hl)
  | main inner args =>
    have hstart : Firm "void main() \x7b" := firm_of_all rfl rfl
    have htext : Over isInLine (Code.apply (.name inner.name) args).text :=
      Code.text_inLine _ ⟨h.1.name, Code.allSpelled_iff.mpr h.2⟩
    have hcall : Firm (indented 1 (Code.apply (.name inner.name) args).text ++ ";") :=
      Firm.append (over_append.mpr ⟨spaces_inLine _, htext⟩) (firm_of_all rfl rfl)
    have hlines : ∀ l ∈ ["void main() \x7b"] ++ inner.lines 1 ++
        [indented 1 (Code.apply (.name inner.name) args).text ++ ";"], Firm l := by
      simp only [List.forall_mem_append, List.forall_mem_singleton]
      exact ⟨⟨hstart, CodeFunction.lines_firm h.1 1⟩, hcall⟩
    refine ⟨_, _, ?_, tidy_of_firm hlines, hclose⟩
    rw [CodeItem.lines, List.append_assoc _ [_] [_]]
    rfl
  | «class» name base methods =>
    obtain ⟨hname, hbase, hmethods⟩ := h
    have hstart : Firm ("class " ++ name ++ " extends " ++ base ++ " \x7b") := by
      refine Firm.append ?_ (firm_of_all rfl rfl)
      simp only [over_append]
      exact ⟨⟨⟨over_of_all rfl, hname⟩, over_of_all rfl⟩, hbase⟩
    refine EndsFirm.after ?_ (endsFirm_singleton hclose)
    exact (tidy_of_firm (List.forall_mem_singleton.mpr hstart)).append (methodLines_tidy hmethods 1)
  | «variable» type var =>
    refine endsFirm_singleton (Firm.append ?_ (firm_of_all rfl rfl))
    simp only [over_append]
    exact ⟨⟨h.1, over_of_all rfl⟩, Declarator.text_inLine h.2⟩

/-- Empty lines stand only between items. -/
theorem itemLines_endFirm {is : List CodeItem} (hne : is ≠ []) (h : ∀ i ∈ is, i.Spelled isInLine) :
    EndsFirm (itemLines is) := by
  fun_induction itemLines is with
  | case1 => exact absurd rfl hne
  | case2 i => exact CodeItem.lines_endFirm (h i List.mem_cons_self)
  | case3 i j is ih =>
    rw [List.forall_mem_cons] at h
    refine EndsFirm.after ?_ (ih (List.cons_ne_nil j is) h.2)
    exact (CodeItem.lines_endFirm h.1).tidy.append tidy_empty

/-- The fixed lines at the start of a file. -/
def CodeFile.preamble (file : CodeFile) : List String :=
  [file.header] ++ file.imports.map fun uri => "import '" ++ uri ++ "';"

theorem CodeFile.preamble_firm {file : CodeFile} (hheader : Firm file.header)
    (himports : ∀ uri ∈ file.imports, Over isInLine uri) : ∀ l ∈ file.preamble, Firm l := by
  refine List.forall_mem_append.mpr ⟨List.forall_mem_singleton.mpr hheader, fun l hl => ?_⟩
  obtain ⟨uri, huri, rfl⟩ := List.mem_map.mp hl
  exact Firm.append (over_append.mpr ⟨over_of_all rfl, himports uri huri⟩) (firm_of_all rfl rfl)

end Lines

section Files

variable {lines : List String}

/-- The normaliser leaves lines alone that end in a firm one. -/
theorem EndsFirm.normalise (h : EndsFirm lines) :
    normalise false (unlines lines) = unlines lines := by
  obtain ⟨ls, last, rfl, htidy, hlast⟩ := h
  have hall : Tidy (ls ++ [last]) := htidy.append (List.forall_mem_singleton.mpr (.inr hlast))
  simpa using normalise_unlines hall hlast.ne_empty 0

/-- An empty line at the end is dropped. -/
theorem EndsFirm.normalise_empty (h : EndsFirm lines) :
    Text.normalise false (unlines (lines ++ [""])) ≠ unlines (lines ++ [""]) := by
  obtain ⟨ls, last, rfl, htidy, hlast⟩ := h
  have hall : Tidy (ls ++ [last]) := htidy.append (List.forall_mem_singleton.mpr (.inr hlast))
  have hdropped := normalise_unlines hall hlast.ne_empty 1
  rw [List.replicate_one] at hdropped
  rw [hdropped]
  intro heq
  have hlength := congrArg String.length heq
  simp [unlines] at hlength

theorem trimRight_of_tidy (h : Tidy lines) : ∀ l ∈ lines, trimRight l = l := by
  intro l hl
  rcases h l hl with rfl | hfirm
  · rfl
  · rw [trimRight, dropTrailing_of_firm hfirm, String.ofList_toList]

namespace Lower

variable {env : TypeEnv} {package text : String} {cancelled : Bool} {u : SourceUnit}

theorem items_ne_nil {is : List Item} {out : List CodeItem} (h : items env is = .ok out)
    (hne : is ≠ []) : out ≠ [] := by
  cases is with
  | nil => exact absurd rfl hne
  | cons i is =>
    simp only [items, Result.bind_eq_ok, Except.ok.injEq] at h
    obtain ⟨first, -, rest, -, rfl⟩ := h
    exact List.cons_ne_nil _ _

/-- Where no name has a line end in it, no line of generated text ends in a blank, and the text ends
in one line feed unless there is nothing after the imports. So the normaliser changes it exactly
when no item was planned. -/
theorem generated_text_is_normal (hpackage : Over isInLine package)
    (hu : ∀ d ∈ u.decls, d.Spelled isInLine)
    (h : generate env package cancelled (some u) = .ok text) :
    (normalise false text = text ↔ plan u.decls ≠ []) ∧
      ∃ lines, text = unlines lines ∧ (∀ l ∈ lines, Over isInLine l ∧ trimRight l = l) ∧
        (plan u.decls ≠ [] → ∃ l, lines.getLast? = some l ∧ l ≠ "") := by
  obtain ⟨file, hfile, rfl⟩ := generate_eq_ok h
  have hspelled := unit_spelled admitsWords_isInLine hu hfile
  obtain ⟨out, hout, hfile⟩ := Result.bind_eq_ok.mp hfile
  cases hfile
  have hheader : Firm header := firm_of_all rfl rfl
  have himports := imports_over admitsWords_isInLine rfl rfl hpackage
  have hstart : EndsFirm (CodeFile.preamble ⟨header, Package.imports package, out⟩) :=
    endsFirm_of_firm (List.cons_ne_nil _ _) (CodeFile.preamble_firm hheader himports)
  have hclean : ∀ {lines : List String}, Tidy lines →
      ∀ l ∈ lines, Over isInLine l ∧ trimRight l = l :=
    fun htidy l hl => ⟨htidy.inLine l hl, trimRight_of_tidy htidy l hl⟩
  by_cases hplan : plan u.decls = []
  · rw [hplan] at hout
    cases hout
    have hlines : CodeFile.lines ⟨header, Package.imports package, []⟩ =
        CodeFile.preamble ⟨header, Package.imports package, []⟩ ++ [""] := List.append_nil _
    refine ⟨⟨fun hnormal => ?_, fun hne => absurd hplan hne⟩, _, rfl, ?_,
      fun hne => absurd hplan hne⟩
    · rw [CodeFile.text, hlines] at hnormal
      exact absurd hnormal hstart.normalise_empty
    · rw [hlines]
      exact hclean (hstart.tidy.append tidy_empty)
  · have hlines : EndsFirm (CodeFile.lines ⟨header, Package.imports package, out⟩) :=
      EndsFirm.after (hstart.tidy.append tidy_empty)
        (itemLines_endFirm (items_ne_nil hout hplan) hspelled)
    refine ⟨⟨fun _ => hplan, fun _ => hlines.normalise⟩, _, rfl, hclean hlines.tidy, fun _ => ?_⟩
    obtain ⟨ls, last, heq, -, hlast⟩ := hlines
    rw [heq, List.getLast?_concat]
    exact ⟨last, rfl, hlast.ne_empty⟩

/-- A function with a loop that has neither clauses nor a body. -/
def idle : FuncDecl where
  name := "idle"
  params := []
  result := .void
  body := some [.forLoop {} none none none (.compound {} [])]
  variadic := false
  entry := false

theorem idle_spelled : idle.Spelled isInLine where
  name := by decide
  params := List.forall_mem_nil _
  result := fun c hc => by cases hc
  body := by
    intro body hbody
    cases hbody
    refine List.forall_mem_singleton.mpr ⟨List.forall_mem_nil _, List.forall_mem_nil _, ?_⟩
    refine List.forall_mem_singleton.mpr ⟨List.forall_mem_nil _, List.forall_mem_nil _, ?_⟩
    exact List.forall_mem_nil _

def ticks : VarDecl := { name := "ticks", type := .scalar ⟨.int, 32, true⟩ }

theorem ticks_spelled : ticks.Spelled isInLine where
  name := by decide
  type := fun c hc => by cases hc
  init := fun e he => by cases he

theorem idle_text_is_normal :
    ∃ text, generate ⟨"", "", [], []⟩ "" false (some ⟨"", "", [.func idle, .var ticks]⟩) =
      .ok text ∧ normalise false text = text := by
  obtain ⟨text, htext⟩ : ∃ text, generate ⟨"", "", [], []⟩ "" false
      (some ⟨"", "", [.func idle, .var ticks]⟩) = .ok text := ⟨_, rfl⟩
  have hu : ∀ d ∈ [Decl.func idle, Decl.var ticks], d.Spelled isInLine := by
    simp only [List.forall_mem_cons]
    exact ⟨idle_spelled, ticks_spelled, List.forall_mem_nil _⟩
  have hplan : plan [.func idle, .var ticks] ≠ [] := List.cons_ne_nil _ _
  have hnormal := generated_text_is_normal (by decide : Over isInLine "") hu htext
  exact ⟨text, htext, hnormal.1.mpr hplan⟩

end Lower

end Files

end DartLowering
