import DartLowering.Proofs.InlineWritings
import DartLowering.Proofs.SplitTexts

/-!
Statements inside blocks. What is written for statements does not depend on the place where they
stand: inside more blocks it is the same text, with two blanks more for every block in front of each
line that is not empty. A writer is moved when everything that it holds stands further in, and
statements written by a moved writer are the moved statements.
-/
namespace DartLowering

open Text Result

namespace Text

/-- `n` blanks in front of every line that is not empty. -/
def shifted (n : Nat) (s : String) : String :=
  join "\n" ((split '\n' s).map fun l => if l = "" then "" else spaces n ++ l)

def isOnLine (c : Char) : Bool := c ≠ '\n'

theorem admitsLines_isOnLine : AdmitsLines isOnLine := fun _ hc => decide_eq_true hc

theorem not_mem_of_over {s : String} (h : Over isOnLine s) : '\n' ∉ s.toList :=
  fun hmem => of_decide_eq_true (h _ hmem) rfl

theorem join_split (sep : Char) (s : String) : join (String.singleton sep) (split sep s) = s := by
  have hjoined : ∀ ps : List (List Char), join (String.singleton sep) (ps.map String.ofList) =
      String.ofList (joined [sep] ps) := by
    intro ps
    induction ps with
    | nil => rfl
    | cons p ps ih =>
      cases ps with
      | nil => simp [join, joined]
      | cons q qs =>
        rw [List.map_cons, List.map_cons, join_cons, ← List.map_cons, ih, joined]
        simp [← String.toList_inj]
  rw [split, hjoined, joined_pieces, String.ofList_toList]

section Shifted

variable {n : Nat} {s t : String}

theorem spaces_add (m n : Nat) : spaces (m + n) = spaces m ++ spaces n := by
  rw [spaces, List.replicate_add, String.ofList_append]
  rfl

theorem spaces_onLine (n : Nat) : Over isOnLine (spaces n) := by
  refine over_ofList.mpr fun c hc => ?_
  rw [List.eq_of_mem_replicate hc]
  rfl

@[simp] theorem shifted_empty (n : Nat) : shifted n "" = "" := rfl

theorem shifted_zero (s : String) : shifted 0 s = s := by
  have hline : ∀ l : String, (if l = "" then "" else spaces 0 ++ l) = l := by
    intro l
    split
    · exact (‹l = ""›).symm
    · exact String.empty_append
  rw [shifted, List.map_congr_left fun l _ => hline l, List.map_id']
  exact join_split '\n' s

theorem shifted_line (hs : Over isOnLine s) :
    shifted n s = if s = "" then "" else spaces n ++ s := by
  rw [shifted, split_of_not_mem (not_mem_of_over hs), List.map_singleton]
  exact String.intercalate_singleton

theorem shifted_append (n : Nat) (s t : String) :
    shifted n (s ++ "\n" ++ t) = shifted n s ++ "\n" ++ shifted n t := by
  have hsplit : split '\n' (s ++ "\n" ++ t) = split '\n' s ++ split '\n' t := split_append '\n' s t
  rw [shifted, hsplit, List.map_append]
  exact String.intercalate_append_of_ne_nil (mt List.map_eq_nil_iff.mp (split_ne_nil _ s))
    (mt List.map_eq_nil_iff.mp (split_ne_nil _ t))

end Shifted

/-- The text ends in the line `l`. -/
def LastLine (s l : String) : Prop := Over isOnLine l ∧ (s = l ∨ ∃ lines, s = lines ++ "\n" ++ l)

namespace LastLine

variable {s l t : String} (h : LastLine s l)

include h

theorem append (ht : Over isOnLine t) : LastLine (s ++ t) (l ++ t) := by
  refine ⟨over_append.mpr ⟨h.1, ht⟩, ?_⟩
  rcases h.2 with rfl | ⟨lines, rfl⟩
  · exact .inl rfl
  · exact .inr ⟨lines, String.append_assoc⟩

omit h in
theorem newline (s : String) : LastLine (s ++ "\n") "" :=
  ⟨List.forall_mem_nil _, .inr ⟨s, String.append_empty.symm⟩⟩

/-- The first characters of a line bring its blanks with them. -/
theorem shifted_append (ht : Over isOnLine t) (hne : t ≠ "") (n : Nat) :
    shifted n (s ++ t) = shifted n s ++ (if l = "" then spaces n else "") ++ t := by
  have hline : shifted n (l ++ t) = shifted n l ++ (if l = "" then spaces n else "") ++ t := by
    have hlt : l ++ t ≠ "" := fun hlt => hne (String.append_eq_empty_iff.mp hlt).2
    rw [shifted_line (over_append.mpr ⟨h.1, ht⟩), if_neg hlt, shifted_line h.1]
    split
    · rename_i hl
      rw [hl, String.empty_append, String.empty_append]
    · rw [String.append_empty, String.append_assoc]
  rcases h.2 with rfl | ⟨lines, rfl⟩
  · exact hline
  · rw [String.append_assoc, Text.shifted_append, Text.shifted_append, hline]
    simp only [String.append_assoc]

end LastLine

end Text

namespace Writer

variable {w : Writer} {s : String}

/-- The writer knows whether the last line is empty. -/
def Coherent (w : Writer) : Prop := ∃ l, LastLine w.text l ∧ (w.atLineStart = true ↔ l = "")

/-- What the writer holds, `level` blocks further in and after `text`. -/
def moved (text : String) (level : Nat) (w : Writer) : Writer :=
  { text := text ++ shifted (2 * level) w.text
    level := level + w.level
    atLineStart := w.atLineStart }

theorem moved_zero (w : Writer) : w.moved "" 0 = w := by
  rw [moved, Nat.mul_zero, shifted_zero, String.empty_append, Nat.zero_add]

theorem coherent_blank (level : Nat) : Coherent { level } :=
  ⟨"", ⟨List.forall_mem_nil _, .inl rfl⟩, by simp⟩

theorem Coherent.print (hw : w.Coherent) (hs : Over isOnLine s) : (w.print s).Coherent := by
  obtain ⟨l, hlast, hstart⟩ := hw
  unfold Writer.print
  split
  · exact ⟨l, hlast, hstart⟩
  · rename_i hne
    have hmargin : Over isOnLine (if w.atLineStart then spaces (2 * w.level) else "") := by
      split
      · exact spaces_onLine _
      · exact List.forall_mem_nil _
    refine ⟨_, (hlast.append hmargin).append hs, ?_⟩
    simp [hne]

theorem Coherent.newline (w : Writer) : w.newline.Coherent :=
  ⟨"", .newline w.text, by simp [Writer.newline]⟩

theorem moved_print (hw : w.Coherent) (hs : Over isOnLine s) (text : String) (level : Nat) :
    (w.moved text level).print s = (w.print s).moved text level := by
  obtain ⟨l, hlast, hstart⟩ := hw
  by_cases hne : s = ""
  · rw [hne, print_empty, print_empty]
  cases hw : w.atLineStart with
  | true =>
    have hl : l = "" := hstart.mp hw
    have hmargin : Over isOnLine (spaces (2 * w.level) ++ s) :=
      over_append.mpr ⟨spaces_onLine _, hs⟩
    have hshift := hlast.shifted_append hmargin
      (fun h => hne (String.append_eq_empty_iff.mp h).2) (2 * level)
    rw [if_pos hl] at hshift
    simp [Writer.print, moved, hne, hw, String.append_assoc, hshift, Nat.mul_add, spaces_add]
  | false =>
    have hl : l ≠ "" := fun hl => by simp [hstart.mpr hl] at hw
    have hshift := hlast.shifted_append hs hne (2 * level)
    rw [if_neg hl, String.append_empty] at hshift
    simp [Writer.print, moved, hne, hw, String.append_assoc, hshift]

theorem moved_newline (w : Writer) (text : String) (level : Nat) :
    (w.moved text level).newline = w.newline.moved text level := by
  have hshift := Text.shifted_append (2 * level) w.text ""
  rw [String.append_empty, shifted_empty, String.append_empty] at hshift
  rw [Writer.newline, Writer.newline, moved, moved, hshift, String.append_assoc]

theorem moved_deeper (w : Writer) (text : String) (level : Nat) :
    (w.moved text level).deeper = w.deeper.moved text level := rfl

/-- A writer inside its own blocks leaves those first. -/
theorem moved_shallower (hw : 0 < w.level) (text : String) (level : Nat) :
    (w.moved text level).shallower = w.shallower.moved text level := by
  rw [Writer.shallower, Writer.shallower, moved, moved, Nat.add_sub_assoc hw]

end Writer

namespace Writing

variable {α β : Type}

/-- A writing that a moved writer makes as it stands, moved. Whatever it comes to, the writer ends
at the level it started from. -/
def Shifts (m : Writing α) : Prop :=
  ∀ (w : Writer) layouts, w.Coherent →
    (∀ text level, m ⟨w.moved text level, layouts⟩ = none) ∨
      ∃ (r : Result α) (w' : Writer) (layouts' : LayoutCache), w'.Coherent ∧ w'.level = w.level ∧
        ∀ text level, m ⟨w.moved text level, layouts⟩ = some (r, ⟨w'.moved text level, layouts'⟩)

namespace Shifts

variable {m : Writing α} {k : α → Writing β} {n : Writing Unit}

/-- What is written inside a line is written at the margin of the line. -/
theorem offered {Q : α → Prop} (hm : Offers isOnLine Q m) :
    Shifts m ∧ ∀ d a d', m d = some (.ok a, d') → Q a := by
  constructor
  · intro w layouts hw
    rcases hm layouts with hnone | ⟨r, s, layouts', hs, -, hrun⟩
    · exact .inl fun text level => hnone _
    · refine .inr ⟨r, w.print s, layouts', hw.print hs, ?_, fun text level => ?_⟩
      · unfold Writer.print
        split <;> rfl
      · rw [hrun, Writer.moved_print hw hs]
  · intro d a d' hok
    rcases hm d.layouts with hnone | ⟨r, s, layouts', -, hr, hrun⟩
    · cases (hnone d.writer).symm.trans hok
    · obtain ⟨heq, -⟩ := Prod.mk.inj (Option.some.inj ((hrun d.writer).symm.trans hok))
      exact hr a heq

theorem bind (hm : Shifts m) (hk : ∀ d a d', m d = some (.ok a, d') → Shifts (k a)) :
    Shifts (m >>= k) := by
  intro w layouts hw
  rcases hm w layouts hw with hnone | ⟨r, w', layouts', hw', hlevel, hrun⟩
  · left
    intro text level
    simp only [Bind.bind, hnone text level]
  · cases r with
    | error f =>
      exact .inr ⟨.error f, w', layouts', hw', hlevel, fun text level =>
        Run.bind_of_error (hrun text level)⟩
    | ok a =>
      rcases hk _ a _ (hrun "" 0) w' layouts' hw' with
        hnone | ⟨r, w'', layouts'', hw'', hlevel', hrest⟩
      · exact .inl fun text level => (Run.bind_of_ok (hrun text level)).trans (hnone text level)
      · refine .inr ⟨r, w'', layouts'', hw'', hlevel'.trans hlevel, fun text level => ?_⟩
        rw [Run.bind_of_ok (hrun text level), hrest]

theorem locate (hm : Shifts m) (position : Position) : Shifts (m.locate position) := by
  intro w layouts hw
  rcases hm w layouts hw with hnone | ⟨r, w', layouts', hw', hlevel, hrun⟩
  · left
    intro text level
    rw [Run.locate, hnone text level]
    rfl
  · exact .inr ⟨_, w', layouts', hw', hlevel, fun text level => Run.locate_of (hrun text level)⟩

theorem newline : Shifts newline := fun w layouts _ =>
  .inr ⟨.ok (), w.newline, layouts, .newline w, rfl, fun text level => by
    rw [Writing.newline, Writer.moved_newline]⟩

theorem deeper (hn : Shifts n) : Shifts (deeper n) := by
  intro w layouts hw
  rcases hn w.deeper layouts hw with hnone | ⟨r, w', layouts', hw', hlevel, hrun⟩
  · left
    intro text level
    simp only [Writing.deeper, Writer.moved_deeper, hnone text level, Option.map_none]
  · refine .inr ⟨r, w'.shallower, layouts', hw', congrArg Nat.pred hlevel, fun text level => ?_⟩
    have hpos : 0 < w'.level := hlevel ▸ Nat.succ_pos w.level
    simp only [Writing.deeper, Writer.moved_deeper, hrun text level, Option.map_some,
      Writer.moved_shallower hpos]

end Shifts

/-- Everything is written moved by a moved writer. -/
def LineLaw.shifting (env : TypeEnv) : LineLaw env (fun _ => True) isOnLine where
  Holds Q m := Shifts m ∧ ∀ d a d', m d = some (.ok a, d') → Q a
  admits := (Law.offering env isOnLine).admits
  lines := admitsLines_isOnLine
  result _ hr := Shifts.offered (.ofResult hr)
  brokenOff := Shifts.offered (Law.offering env isOnLine).brokenOff
  bind hm hk := by
    refine ⟨hm.1.bind fun d a d' hrun => (hk a (hm.2 d a d' hrun)).1, fun d b d' hrun => ?_⟩
    obtain ⟨a, d₁, hfirst, hrest⟩ := Run.bind_eq_ok hrun
    exact (hk a (hm.2 d a d₁ hfirst)).2 d₁ b d' hrest
  locate position hm := ⟨hm.1.locate position, fun d a d' hrun => hm.2 d a d' (locate_iff.mp hrun)⟩
  text hs := Shifts.offered (Inline.print hs)
  constant _ := Shifts.offered (.ask _ fun _ => trivial)
  size _ := Shifts.offered (.ask _ fun _ => trivial)
  layout _ := Shifts.offered (.ask _ fun _ _ _ _ _ _ => trivial)
  newline := ⟨.newline, fun _ _ _ _ => trivial⟩
  deeper hm := ⟨hm.1.deeper, fun _ _ _ _ => trivial⟩

end Writing

namespace Emit

open Writing

/-- Statements written from the start of a line inside `level` blocks end as they do outside of all
blocks. They add the text that they are there, `level` blocks further in, and leave the writer at
the level it had, at the start of a line if they succeed. -/
theorem stmts_moved (env : TypeEnv) (scope : Lower.Scope) (hself : Over isOnLine scope.self)
    (body : List Stmt) (hbody : ∀ s ∈ body, s.Spelled isOnLine) (text : String) (level : Nat)
    (layouts : LayoutCache) :
    stmts env scope body ⟨⟨text, level, true⟩, layouts⟩ =
        (stmts env scope body { layouts }).map (fun (r, d) =>
          (r, ⟨⟨text ++ shifted (2 * level) d.writer.text, level, d.writer.atLineStart⟩,
            d.layouts⟩)) ∧
      ∀ d, stmts env scope body { layouts } = some (.ok (), d) → d.writer.atLineStart = true := by
  obtain ⟨⟨hshifts, -⟩, hcloses⟩ := stmts_lines (L := .shifting env) hself hbody
  refine ⟨?_, fun d hrun => hcloses _ d hrun fun _ => rfl⟩
  have hmoved : (⟨text, level, true⟩ : Writer) = ({} : Writer).moved text level := by
    rw [Writer.moved, shifted_empty, String.append_empty]
    rfl
  rcases hshifts {} layouts (Writer.coherent_blank 0) with hnone | ⟨r, w, layouts', -, hlevel, hrun⟩
  · have hblank := hnone "" 0
    rw [Writer.moved_zero] at hblank
    rw [hmoved, hnone, hblank]
    rfl
  · have hblank := hrun "" 0
    rw [Writer.moved_zero, Writer.moved_zero] at hblank
    rw [hmoved, hrun, hblank, Option.map_some, Writer.moved, hlevel]
    rfl

/-- Counts down to zero or to the last one. -/
def countdown : List Stmt :=
  [.whileLoop {} (.ref {} "n" .var) (.compound {}
    [.ifElse {} (.ref {} "last" .var) (.brk {}) none,
      .expr {} (.unary {} .postDec (.ref {} "n" .var))])]

theorem spelled_countdown : ∀ s ∈ countdown, s.Spelled isOnLine := by
  have href : ∀ name, Over isOnLine name → (Expr.ref {} name .var).Spelled isOnLine :=
    fun name hname => ⟨List.forall_mem_singleton.mpr hname, List.forall_mem_nil _⟩
  have hn := href "n" (over_of_all rfl)
  have hbrk : (Stmt.brk {}).Spelled isOnLine :=
    ⟨List.forall_mem_nil _, List.forall_mem_nil _, List.forall_mem_nil _⟩
  have hbranch : (Stmt.ifElse {} (.ref {} "last" .var) (.brk {}) none).Spelled isOnLine :=
    ⟨List.forall_mem_singleton.mpr (href "last" (over_of_all rfl)), List.forall_mem_nil _,
      List.forall_mem_singleton.mpr hbrk⟩
  have hstep : (Stmt.expr {} (.unary {} .postDec (.ref {} "n" .var))).Spelled isOnLine :=
    ⟨List.forall_mem_singleton.mpr ⟨List.forall_mem_nil _, List.forall_mem_singleton.mpr hn⟩,
      List.forall_mem_nil _, List.forall_mem_nil _⟩
  refine List.forall_mem_singleton.mpr
    ⟨List.forall_mem_singleton.mpr hn, List.forall_mem_nil _, List.forall_mem_singleton.mpr ?_⟩
  exact ⟨List.forall_mem_nil _, List.forall_mem_nil _,
    List.forall_mem_cons.mpr ⟨hbranch, List.forall_mem_singleton.mpr hstep⟩⟩

/-- The loop inside two blocks. -/
theorem countdown_moved :
    (∀ s ∈ countdown, s.Spelled isOnLine) ∧
      (stmts (.ofMarkers "" "" []) {} countdown ⟨⟨"do \x7b\n", 2, true⟩, []⟩).map
          (fun outcome => (outcome.2.writer.text, outcome.2.writer.level)) =
        some ("do \x7b\n    while (n.intValue() != 0) \x7b\n      if (last.intValue() != 0) " ++
          "\x7b\n        break;\n      \x7d\n      n.postdec();\n    \x7d\n", 2) := by
  refine ⟨spelled_countdown, ?_⟩
  rw [(stmts_moved _ {} (over_of_all rfl) countdown spelled_countdown _ 2 []).1]
  decide +kernel

end Emit

end DartLowering
