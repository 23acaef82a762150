import DartLowering.Diagnostic.Text
import DartLowering.Proofs.DiagnosticRuns
import DartLowering.Proofs.DirectoryAccess
import DartLowering.Proofs.SplitTexts
import DartLowering.Target.Code
import Mathlib.Data.List.Range
import Mathlib.Tactic.Linarith

/-!
The source lines that a diagnostic shows. They are those up to two lines before and after its place,
each is printed with its number, and a caret is printed below the line of the place and nowhere
else. The caret stands at the column as long as line numbers have at most four digits, and printing
fails where it would stand behind more blanks than can be repeated.
-/
namespace DartLowering

namespace Diagnostic

/-- A row of a printed context: a source line with its number, or the caret. -/
inductive Row
  | source (number : Nat) (line : String)
  | caret
  deriving DecidableEq

namespace Row

/-- What stands before a source line. -/
def label (number : Nat) : String := Text.padLeft 4 (Text.decimalNat number) ++ " | "

def text (column : Nat) : Row → String
  | .source number line => label number ++ line
  | .caret => Text.spaces (6 + column) ++ "^"

def source? : Row → Option (Nat × String)
  | .source number line => some (number, line)
  | .caret => none

end Row

/-- The lines from `number` on, and the caret below line `marked`. -/
def rows (marked number : Nat) : List String → List Row
  | [] => []
  | line :: lines =>
      .source number line ::
        ((if number = marked then [.caret] else []) ++ rows marked (number + 1) lines)

/-- The numbers of the lines that are shown around `line`, among `count`. -/
def firstShown (line : Nat) : Nat := max 1 (line - 2)

def lastShown (line count : Nat) : Nat := min count (line + 2)

def shownLines (lines : List String) (line : Nat) : List String :=
  (lines.take (lastShown line lines.length)).drop (firstShown line - 1)

section Rows

theorem rows_append (marked number : Nat) (before after : List String) :
    rows marked number (before ++ after) =
      rows marked number before ++ rows marked (number + before.length) after := by
  induction before generalizing number with
  | nil => rfl
  | cons line before ih =>
    rw [List.cons_append, rows, rows, ih, List.cons_append, List.append_assoc, List.length_cons,
      Nat.add_assoc, Nat.add_comm 1]

theorem rows_sources (marked number : Nat) (lines : List String) :
    (rows marked number lines).filterMap Row.source? =
      (List.range' number lines.length).zip lines := by
  induction lines generalizing number with
  | nil => rfl
  | cons line lines ih =>
    have hmark : (if number = marked then [Row.caret] else []).filterMap Row.source? = [] := by
      split <;> rfl
    rw [rows, List.filterMap_cons, List.filterMap_append, hmark, ih]
    rfl

theorem rows_carets (marked number : Nat) (lines : List String) :
    (rows marked number lines).count .caret =
      if number ≤ marked ∧ marked < number + lines.length then 1 else 0 := by
  induction lines generalizing number with
  | nil => exact (if_neg (by rw [List.length_nil]; omega)).symm
  | cons line lines ih =>
    have hmark : (if number = marked then [Row.caret] else []).count .caret =
        if number = marked then 1 else 0 := by
      split <;> rfl
    rw [rows, List.count_cons_of_ne (by simp), List.count_append, hmark, ih, List.length_cons]
    split_ifs <;> omega

end Rows

section Printing

theorem repeated_natCast {count : Int64} {n : Nat} (h : count.toInt = n) (c : Char) :
    repeated c count =
      if n ≤ 2 ^ 48 then .ok (String.ofList (List.replicate n c)) else .error .crash := by
  have hneg : ¬ count < 0 := by
    rw [Int64.lt_iff_toInt_lt, h]
    exact Int.not_lt.mpr (Int.natCast_nonneg n)
  have hlong : longestRun < count ↔ ¬ n ≤ 2 ^ 48 := by
    rw [Int64.lt_iff_toInt_lt, h]
    change (281474976710656 : Int) < n ↔ _
    omega
  rw [repeated, h, Int.toNat_natCast]
  by_cases hn : n ≤ 2 ^ 48
  · rw [if_pos hn, if_neg (by simpa [hneg, hlong] using hn)]
  · rw [if_neg hn, if_pos (by simpa [hneg, hlong] using hn)]

variable {p : Position} {line column : Nat} (hline : p.line.toInt = line)
  (hcolumn : p.column.toInt = column) (hword : column + 6 < 2 ^ 63)

include hcolumn hword in
theorem caretLine_point : caretLine (.point p) =
    if column + 6 ≤ 2 ^ 48 then .ok (Row.caret.text column ++ "\n") else .error .crash := by
  have hcount : (6 + p.column).toInt = ((6 + column : Nat) : Int) := by
    rw [Int64.toInt_add, hcolumn]
    exact Int.bmod_eq_of_le (by simp; omega) (by simp; omega)
  have hwidth : width (.point p) = 1 := by
    simp [width, Span.point]
  rw [caretLine, hwidth, Span.point, repeated_natCast hcount, repeated_natCast (n := 1) rfl,
    Nat.add_comm column]
  split
  · rfl
  · rfl

include hline hcolumn hword in
/-- The rows of the lines are printed, unless one of them is a caret behind too many blanks. -/
theorem contextText_point {number : Int64} {k : Nat} (hnumber : number.toInt = k)
    {lines : List String} (hlines : k + lines.length < 2 ^ 63) :
    contextText (.point p) number lines =
      if (k ≤ line ∧ line < k + lines.length) ∧ 2 ^ 48 < column + 6 then .error .crash
      else .ok (unlines ((rows line k lines).map (Row.text column))) := by
  induction lines generalizing number k with
  | nil => exact (if_neg (by rw [List.length_nil]; omega)).symm
  | cons l lines ih =>
    rw [List.length_cons] at hlines ⊢
    have hnext : (number + 1).toInt = ((k + 1 : Nat) : Int) := by
      rw [Int64.toInt_add, hnumber]
      exact Int.bmod_eq_of_le (by simp; omega) (by simp; omega)
    have hlabel : Text.decimal number = Text.decimalNat k := by
      rw [Text.decimal, hnumber]
      rfl
    have hmarked : number = (Span.point p).start.line ↔ k = line := by
      rw [← Int64.toInt_inj, hnumber]
      change (k : Int) = p.line.toInt ↔ _
      rw [hline]
      omega
    rw [contextText, hlabel, ih hnext (by omega), rows]
    by_cases hk : k = line
    · -- The caret stands below this line, and the lines after it have none.
      have hbelow : ¬ ((k + 1 ≤ line ∧ line < k + 1 + lines.length) ∧ 2 ^ 48 < column + 6) := by
        omega
      rw [if_pos (hmarked.mpr hk), if_pos hk, caretLine_point hcolumn hword, if_neg hbelow]
      by_cases hshort : column + 6 ≤ 2 ^ 48
      · rw [if_pos hshort, if_neg (by omega)]
        refine congrArg Except.ok ?_
        simp [unlines, Row.text, Row.label, String.append_assoc]
      · rw [if_neg hshort, if_pos (by omega)]
        rfl
    · have hlater : ((k + 1 ≤ line ∧ line < k + 1 + lines.length) ∧ 2 ^ 48 < column + 6) ↔
          ((k ≤ line ∧ line < k + (lines.length + 1)) ∧ 2 ^ 48 < column + 6) := by omega
      rw [if_neg (mt hmarked.mp hk), if_neg hk, if_congr hlater rfl rfl]
      split
      · rfl
      · refine congrArg Except.ok ?_
        simp [unlines, Row.text, Row.label, String.append_assoc]

end Printing

section Window

theorem shownLines_eq_nil_iff {lines : List String} {line : Nat} :
    shownLines lines line = [] ↔ lastShown line lines.length < firstShown line := by
  rw [shownLines, List.drop_eq_nil_iff, List.length_take]
  unfold firstShown lastShown
  omega

theorem window_point {p : Position} {line : Nat} (hline : p.line.toInt = line) (hvalid : 0 < line)
    {lines : List String} (hlines : lines.length + 4 < 2 ^ 63) :
    window lines (.point p) = .ok (shownLines lines line,
      if shownLines lines line = [] then 0 else Int64.ofNat (firstShown line)) := by
  have hword := Int64.toInt_lt p.line
  have hstop : (if (Span.point p).stop.line < (Span.point p).start.line
      then (Span.point p).start.line else (Span.point p).stop.line) = p.line := ite_self _
  have hsub : (p.line - 2).toInt = (line : Int) - 2 := by
    rw [Int64.toInt_sub, hline]
    exact Int.bmod_eq_of_le (by simp; omega) (by simp; omega)
  -- The end of the window wraps around only where the window lies beyond the file.
  have hadd : (p.line + 2).toInt =
      if line + 2 < 2 ^ 63 then (line : Int) + 2 else line + 2 - 2 ^ 64 := by
    rw [Int64.toInt_add, hline, show (2 : Int64).toInt = 2 from rfl, Int.bmod_def]
    omega
  have hlast := toInt_min (Int64.ofNat lines.length) (p.line + 2)
  have hfirst : (max 1 (p.line - 2)).toInt = firstShown line := by
    rw [toInt_max, hsub, show (1 : Int64).toInt = 1 from rfl, firstShown]
    omega
  have hempty : shownLines lines line = [] ↔ _ := shownLines_eq_nil_iff
  have hpos : 0 < firstShown line := Nat.lt_of_lt_of_le Nat.one_pos (Nat.le_max_left _ _)
  rw [hadd, Int64.toInt_ofNat_of_lt (by omega)] at hlast
  rw [window_eq lines (.point p) rfl rfl, hstop, show (Span.point p).start = p from rfl]
  generalize max 1 (p.line - 2) = first at hfirst ⊢
  generalize min (Int64.ofNat lines.length) (p.line + 2) = last at hlast ⊢
  have hends : last.toInt = lastShown line lines.length ∨
      last.toInt < 0 ∧ lastShown line lines.length < firstShown line := by
    unfold lastShown firstShown
    omega
  refine congrArg Except.ok ?_
  split
  · rename_i hlt
    rw [Int64.lt_iff_toInt_lt, hfirst] at hlt
    rw [hempty.mpr (by omega), if_pos rfl]
  · rename_i hle
    rw [Int64.lt_iff_toInt_lt, hfirst] at hle
    have hbefore : (first - 1).toInt = firstShown line - 1 := by
      rw [Int64.toInt_sub, hfirst]
      exact Int.bmod_eq_of_le (by simp; omega) (by simp; omega)
    have hword := Int64.toInt_lt first
    have hdrop : (first - 1).toInt.toNat = firstShown line - 1 := by omega
    have htake : last.toInt.toNat = lastShown line lines.length := by omega
    rw [if_neg (mt hempty.mp (by omega)), hdrop, htake, shownLines, Prod.mk.injEq,
      ← Int64.toInt_inj, hfirst, Int64.toInt_ofNat_of_lt (by omega)]
    exact ⟨rfl, rfl⟩

theorem length_shownLines (lines : List String) (line : Nat) :
    (shownLines lines line).length = lastShown line lines.length + 1 - firstShown line := by
  rw [shownLines, List.length_drop, List.length_take]
  unfold lastShown firstShown
  omega

end Window

section Completed

variable (log : DiagnosticLog) (d : Diagnostic)

@[simp] theorem completed_span : (log.completed d).span = d.span := by
  obtain ⟨_, _, _, _, hframe⟩ := log.completed_frame d
  rw [hframe]

@[simp] theorem completed_file : (log.completed d).file = d.file := by
  obtain ⟨_, _, _, _, hframe⟩ := log.completed_frame d
  rw [hframe]

theorem completed_window {lines : List String} (hplaced : d.isPlaced = true)
    (hlines : log.lines? d.file = some lines) :
    window lines d.span = .ok ((log.completed d).context, (log.completed d).firstLine) := by
  rw [DiagnosticLog.completed, DiagnosticLog.complete, hlines, withContext, if_pos hplaced,
    window_eq lines d.span rfl rfl]
  rfl

theorem completed_context (h : d.isPlaced = false ∨ log.lines? d.file = none) :
    (log.completed d).context = d.context := by
  unfold DiagnosticLog.completed DiagnosticLog.complete withContext
  split
  · rename_i lines hlines
    rw [if_neg (by simpa [hlines] using h)]
    rfl
  · rfl

theorem span_ofFailure (f : Failure) : (ofFailure f).span = .point (ofFailure f).span.start := by
  unfold ofFailure
  split <;> rfl

theorem context_ofFailure (f : Failure) : (ofFailure f).context = [] := by
  unfold ofFailure
  split <;> rfl

end Completed

def line (d : Diagnostic) : Nat := d.span.start.line.toNatClampNeg

def column (d : Diagnostic) : Nat := d.span.start.column.toNatClampNeg

/-- The rows of the lines around the place of the diagnostic. -/
def shownRows (lines : List String) (d : Diagnostic) : List Row :=
  rows d.line (firstShown d.line) (shownLines lines d.line)

/-- The diagnostic shows a window of the lines: its context are the lines numbered from `firstShown`
to `lastShown`, each printed after its number, with one caret where the line of the place is in the
file. Printing fails only if there is a caret and it is behind more blanks than can be repeated. -/
structure ShowsWindow (coloured : Bool) (lines : List String) (d : Diagnostic) : Prop where
  context : d.context = shownLines lines d.line
  firstLine : d.firstLine.toInt = if d.context = [] then 0 else (firstShown d.line : Int)
  printed : d.text coloured = if d.line ≤ lines.length ∧ 2 ^ 48 < d.column + 6 then .error .crash
    else .ok (d.headline coloured ++ d.placeLine ++
      unlines ((shownRows lines d).map (Row.text d.column)) ++ d.adviceText)
  numbered : (shownRows lines d).filterMap Row.source? =
    (List.range' (firstShown d.line) d.context.length).zip d.context
  carets : (shownRows lines d).count .caret = if d.line ≤ lines.length then 1 else 0

section Shown

variable {log : DiagnosticLog} {d : Diagnostic} {lines : List String}

@[simp] theorem completed_line : (log.completed d).line = d.line := by
  simp [line]

@[simp] theorem completed_column : (log.completed d).column = d.column := by
  simp [column]

@[simp] theorem completed_rows : shownRows lines (log.completed d) = shownRows lines d := by
  simp [shownRows]

@[simp] theorem completed_isPlaced : (log.completed d).isPlaced = d.isPlaced := by
  simp [isPlaced]

theorem isPlaced_pos (h : d.isPlaced = true) :
    d.span.start.line.toInt = d.line ∧ d.span.start.column.toInt = d.column ∧ 0 < d.line ∧
      0 < d.column := by
  simp only [isPlaced, Position.isValid, Bool.and_eq_true, decide_eq_true_eq,
    Int64.lt_iff_toInt_lt] at h
  have hline : 0 < d.span.start.line.toInt := h.2.1
  have hcolumn : 0 < d.span.start.column.toInt := h.2.2
  unfold line column Int64.toNatClampNeg
  omega

variable (hspan : d.span = .point d.span.start) (hplaced : d.isPlaced = true)
  (hlines : log.lines? d.file = some lines) (hcount : lines.length + 4 < 2 ^ 63)
include hspan hplaced hlines hcount

theorem window_completed : (log.completed d).context = shownLines lines d.line ∧
    (log.completed d).firstLine =
      if shownLines lines d.line = [] then 0 else Int64.ofNat (firstShown d.line) := by
  obtain ⟨hline, -, hpos, -⟩ := isPlaced_pos hplaced
  have hwindow := completed_window log d hplaced hlines
  rw [hspan, window_point hline hpos hcount] at hwindow
  obtain ⟨hcontext, hfirst⟩ := Prod.mk.inj (Except.ok.inj hwindow)
  exact ⟨hcontext.symm, hfirst.symm⟩

theorem text_completed (hword : d.column + 6 < 2 ^ 63) (coloured : Bool) :
    (log.completed d).text coloured =
      if d.line ≤ lines.length ∧ 2 ^ 48 < d.column + 6 then .error .crash
      else .ok ((log.completed d).headline coloured ++ (log.completed d).placeLine ++
        unlines ((shownRows lines d).map (Row.text d.column)) ++ (log.completed d).adviceText) := by
  obtain ⟨hline, hcol, hpos, -⟩ := isPlaced_pos hplaced
  obtain ⟨hcontext, hfirst⟩ := window_completed hspan hplaced hlines hcount
  have hlength := length_shownLines lines d.line
  have hmarked : (firstShown d.line ≤ d.line ∧
      d.line < firstShown d.line + (shownLines lines d.line).length) ↔ d.line ≤ lines.length := by
    rw [hlength]
    unfold firstShown lastShown
    omega
  have hrows : contextText (.point d.span.start) (log.completed d).firstLine
      (shownLines lines d.line) =
      if d.line ≤ lines.length ∧ 2 ^ 48 < d.column + 6 then .error .crash
      else .ok (unlines ((shownRows lines d).map (Row.text d.column))) := by
    unfold shownRows
    by_cases hempty : shownLines lines d.line = []
    · rw [hempty, List.length_nil] at hmarked
      rw [hempty, if_neg (by omega)]
      rfl
    · have hshown := mt shownLines_eq_nil_iff.mpr hempty
      have hlast : lastShown d.line lines.length ≤ lines.length := Nat.min_le_left _ _
      rw [hfirst, if_neg hempty,
        contextText_point hline hcol hword (Int64.toInt_ofNat_of_lt (by omega)) (by omega),
        if_congr (and_congr_left' hmarked) rfl rfl]
  rw [text, completed_span, hspan, hcontext, hrows]
  split
  · rfl
  · rfl

end Shown

section Marked

theorem shownRows_marked {lines : List String} {d : Diagnostic} {l : String} (hpos : 0 < d.line)
    (hl : lines[d.line - 1]? = some l) :
    ∃ before after, shownRows lines d = before ++ .source d.line l :: .caret :: after := by
  have hbound := (List.getElem?_eq_some_iff.mp hl).1
  have hfirst : firstShown d.line ≤ d.line := by
    unfold firstShown
    omega
  have hindex : (shownLines lines d.line)[d.line - firstShown d.line]? = some l := by
    rw [shownLines, List.getElem?_drop, List.getElem?_take_of_lt]
    · rw [← hl]
      congr 1
      unfold firstShown
      omega
    · unfold firstShown lastShown
      omega
  obtain ⟨hlt, hget⟩ := List.getElem?_eq_some_iff.mp hindex
  have hsplit := (List.take_append_drop (d.line - firstShown d.line) (shownLines lines d.line)).symm
  rw [List.drop_eq_getElem_cons hlt, hget] at hsplit
  rw [shownRows, hsplit, rows_append, rows, List.length_take_of_le hlt.le,
    Nat.add_sub_cancel' hfirst, if_pos rfl]
  exact ⟨_, _, rfl⟩

theorem length_label (number : Nat) :
    (Row.label number).length = max 4 (Nat.toDigits 10 number).length + 3 := by
  have hbar : " | ".length = 3 := rfl
  simp only [Row.label, Text.padLeft, Text.spaces, Text.decimalNat, String.length_append,
    String.length_ofList, List.length_replicate, hbar]
  omega

theorem idxOf_caret (column : Nat) : (Row.caret.text column).toList.idxOf '^' = 6 + column := by
  have hblanks : '^' ∉ List.replicate (6 + column) ' ' := by
    simp
  simp [Row.text, Text.spaces, List.idxOf_append_of_notMem hblanks]

theorem placeLine_closed {d : Diagnostic} (h : d.isPlaced = true) :
    ∃ place, d.placeLine = place ++ "\n" := by
  have hfile : d.file ≠ "" := by
    simpa using (Bool.and_eq_true_iff.mp h).1
  unfold placeLine
  rw [if_neg hfile]
  exact ⟨_, rfl⟩

end Marked

end Diagnostic

namespace DiagnosticLog

open Diagnostic

def NoFiles (disk : Directory) : Prop := ∀ path, ∃ e, disk.read path = .error e

theorem noFiles_empty : NoFiles {} := by
  intro path
  cases hread : Directory.read {} path with
  | error e => exact ⟨e, rfl⟩
  | ok content =>
    obtain ⟨-, hfind⟩ := Directory.read_eq_ok.mp hread
    unfold Directory.find? at hfind
    split at hfind
    · cases hfind
    · cases hfind

theorem lines?_addSource (log : DiagnosticLog) (file text : String) :
    (log.addSource file text).lines? file =
    some ((Text.pieces '\n' (Text.unifyPairs text.toList)).map String.ofList) := by
  simp [lines?, addSource]

variable {disk : Directory} {log : DiagnosticLog} {f : Failure}

/-- A file whose lines are known is not read again. -/
theorem informed_of_lines {d : Diagnostic} {lines : List String}
    (h : log.lines? d.file = some lines) : log.informed disk d = log := by
  obtain ⟨source, hfind, -⟩ := Option.bind_eq_some_iff.mp h
  have hfile : source.1 = d.file := by
    simpa using List.find?_some hfind
  have hknows : log.knows d.file = true :=
    List.any_eq_true.mpr ⟨source, List.mem_of_find?_eq_some hfind, decide_eq_true hfile⟩
  unfold informed
  rw [hknows, Bool.not_true, Bool.and_false]
  rfl

/-- Nothing is learnt of source files where none can be read. -/
theorem lines?_informed (hdisk : NoFiles disk) (d : Diagnostic) :
    (log.informed disk d).lines? d.file = log.lines? d.file := by
  unfold informed
  split
  · rename_i hlook
    have hunknown : log.sources.find? (fun s => s.1 = d.file) = none := by
      rw [List.find?_eq_none]
      simpa [knows] using (Bool.and_eq_true_iff.mp hlook).2
    obtain ⟨e, he⟩ := hdisk d.file
    rw [he]
    simp [lines?, addUnreadable, hunknown]
  · rfl

/-- The log takes a failure without breaking off, when it knows the same lines once it looked. -/
theorem perform_addFailure (hroom : log.isFull = false)
    (hlines : (log.informed disk (.ofFailure f)).lines? (ofFailure f).file =
      log.lines? (ofFailure f).file) :
    ((LogStep.addFailure f).perform disk log).1 = .nothing ∧
      ((LogStep.addFailure f).perform disk log).2.entries =
        log.entries ++ [log.completed (.ofFailure f)] := by
  have htaken : log.turnsAway (.ofFailure f) = false := by
    rw [turnsAway, hroom, Bool.and_false]
  have hsame : (log.informed disk (.ofFailure f)).completed (.ofFailure f) =
      log.completed (.ofFailure f) := by
    unfold completed complete
    rw [hlines]
  have hperform : (LogStep.addFailure f).perform disk log = LogStep.outcome log _ :=
    congrArg (LogStep.outcome log) (log.record_eq disk (.ofFailure f))
  obtain ⟨sources, hframe⟩ := log.informed_frame disk (.ofFailure f)
  rw [hperform, htaken, hsame, hframe]
  exact ⟨rfl, rfl⟩

section Windows

variable (log f)

/-- An error is added without breaking off. It has the window around its place where that is in a
known file, and no context elsewhere. -/
theorem error_shows_window (hdisk : NoFiles disk) (hroom : log.isFull = false) (coloured : Bool)
    (hcolumn : (ofFailure f).span.start.column.toInt + 6 < 2 ^ 63)
    (hcount : ∀ lines, log.lines? (ofFailure f).file = some lines → lines.length + 4 < 2 ^ 63) :
    ((LogStep.addFailure f).perform disk log).1 = .nothing ∧
    ∃ d, ((LogStep.addFailure f).perform disk log).2.entries = log.entries ++ [d] ∧
      d.file = (ofFailure f).file ∧ d.span = (ofFailure f).span ∧
      (∀ lines, d.isPlaced = true → log.lines? d.file = some lines → ShowsWindow coloured lines d) ∧
      (d.isPlaced = false ∨ log.lines? d.file = none → d.context = [] ∧
        d.text coloured = .ok (d.headline coloured ++ d.placeLine ++ d.adviceText)) := by
  have hspan := span_ofFailure f
  obtain ⟨hreply, hentries⟩ := perform_addFailure hroom (lines?_informed hdisk (.ofFailure f))
  refine ⟨hreply, _, hentries, completed_file _ _, completed_span _ _, ?_, ?_⟩
  · intro lines hplaced hlines
    rw [completed_isPlaced] at hplaced
    rw [completed_file] at hlines
    have hlength := hcount lines hlines
    obtain ⟨hline, hcol, hpos, -⟩ := isPlaced_pos hplaced
    obtain ⟨hcontext, hfirst⟩ := window_completed hspan hplaced hlines hlength
    constructor
    · rw [hcontext, completed_line]
    · rw [hfirst, hcontext, completed_line]
      have hword := Int64.toInt_lt (ofFailure f).span.start.line
      split
      · rfl
      · refine Int64.toInt_ofNat_of_lt ?_
        unfold firstShown
        omega
    · rw [completed_line, completed_column, completed_rows]
      exact text_completed hspan hplaced hlines hlength (by omega) coloured
    · rw [completed_rows, shownRows, rows_sources, hcontext, completed_line]
    · rw [completed_rows, shownRows, rows_carets, length_shownLines, completed_line]
      refine if_congr ?_ rfl rfl
      unfold firstShown lastShown
      omega
  · intro h
    rw [completed_isPlaced, completed_file] at h
    have hcontext := (completed_context log _ h).trans (context_ofFailure f)
    refine ⟨hcontext, ?_⟩
    rw [text, hcontext]
    exact congrArg (fun s => Except.ok (s ++ _)) (String.append_empty)

end Windows

/-- The window is cut off at both ends of a file of three lines. -/
theorem three_lines_shown : ∃ log d,
    (LogStep.addFailure (.report .variableLengthArray ⟨"a.c", 2, 5⟩ none)).perform {}
      (({} : DiagnosticLog).addSource "a.c" "int n;\nint a[n];\n") = (.nothing, log) ∧
    log.entries = [d] ∧ ShowsWindow false ["int n;", "int a[n];", ""] d := by
  have hlines : (({} : DiagnosticLog).addSource "a.c" "int n;\nint a[n];\n").lines? "a.c" =
      some ["int n;", "int a[n];", ""] := by decide +kernel
  obtain ⟨hreply, d, hentries, hfile, hspan, hshown, -⟩ :=
    error_shows_window (({} : DiagnosticLog).addSource "a.c" "int n;\nint a[n];\n")
      (.report .variableLengthArray ⟨"a.c", 2, 5⟩ none) noFiles_empty rfl false (by decide)
      fun lines h => by
        obtain rfl := Option.some.inj (hlines.symm.trans h)
        decide
  refine ⟨_, d, Prod.ext hreply rfl, hentries, hshown _ ?_ ?_⟩
  · rw [isPlaced, hfile, hspan]
    decide
  · rw [hfile]
    exact hlines

/-- A caret behind more blanks than can be repeated is not printed. -/
theorem distant_caret_fails : ∃ d, ((LogStep.addFailure
      (.report .variableLengthArray ⟨"a.c", 1, 4611686018427387904⟩ none)).perform
        {} (({} : DiagnosticLog).addSource "a.c" "x")).2.entries = [d] ∧
      d.text false = .error .crash := by
  refine ⟨_, (perform_addFailure rfl (lines?_informed noFiles_empty _)).2, ?_⟩
  rfl

section Carets

variable (log f)

/-- The row of the line that an error is in is followed by that of the caret, which stands at the
error's column exactly when the number of the line has at most four digits. -/
theorem caret_at_column_iff (disk : Directory) (hroom : log.isFull = false)
    {lines : List String} {l : String} (hplaced : (ofFailure f).isPlaced = true)
    (hlines : log.lines? (ofFailure f).file = some lines)
    (hl : lines[(ofFailure f).line - 1]? = some l) (hcount : lines.length + 4 < 2 ^ 63)
    (hcolumn : (ofFailure f).column + 6 ≤ 2 ^ 48) :
    ∃ d head before after advice,
      ((LogStep.addFailure f).perform disk log).2.entries = log.entries ++ [d] ∧
      d.text false = .ok (head ++ "\n" ++ unlines (before ++ [Row.label (ofFailure f).line ++ l,
        Row.caret.text (ofFailure f).column] ++ after) ++ advice) ∧
      ((Row.caret.text (ofFailure f).column).toList.idxOf '^' =
        (Row.label (ofFailure f).line).length + ((ofFailure f).column - 1) ↔
        (ofFailure f).line < 10000) := by
  obtain ⟨-, -, hpos, hcol⟩ := isPlaced_pos hplaced
  obtain ⟨before, after, hrows⟩ := shownRows_marked hpos hl
  have hmarked : (log.completed (ofFailure f)).isPlaced = true := completed_isPlaced.trans hplaced
  obtain ⟨place, hplace⟩ := placeLine_closed hmarked
  have htext := text_completed (span_ofFailure f) hplaced hlines hcount (by omega) false
  have hlist : (before ++ .source (ofFailure f).line l :: .caret :: after).map
      (Row.text (ofFailure f).column) =
      before.map (Row.text (ofFailure f).column) ++
        [Row.label (ofFailure f).line ++ l, Row.caret.text (ofFailure f).column] ++
        after.map (Row.text (ofFailure f).column) := by
    rw [List.map_append, List.append_assoc]
    rfl
  rw [if_neg (by omega), hrows, hlist, hplace, ← String.append_assoc] at htext
  have hknown : (log.informed disk (.ofFailure f)).lines? (ofFailure f).file =
      log.lines? (ofFailure f).file := by
    rw [informed_of_lines hlines]
  refine ⟨_, _, _, _, _, (perform_addFailure hroom hknown).2, htext, ?_⟩
  have hdigits : (Nat.toDigits 10 (ofFailure f).line).length ≤ 4 ↔ _ :=
    Nat.length_toDigits_le_iff (by decide) (by decide)
  rw [idxOf_caret, length_label]
  omega

end Carets

/-- The caret of an error in the last of two lines. -/
theorem caret_below_second_line : ∃ d head before after advice,
    ((LogStep.addFailure (.report .variableLengthArray ⟨"a.c", 2, 5⟩ none)).perform {}
      (({} : DiagnosticLog).addSource "a.c" "int n;\nint a[n];")).2.entries = [d] ∧
    d.text false = .ok (head ++ "\n" ++
      unlines (before ++ ["   2 | " ++ "int a[n];", "           ^"] ++ after) ++ advice) ∧
    "           ^".toList.idxOf '^' = "   2 | ".length + (5 - 1) := by
  have hlines : (({} : DiagnosticLog).addSource "a.c" "int n;\nint a[n];").lines? "a.c" =
      some ["int n;", "int a[n];"] := by decide +kernel
  obtain ⟨d, head, before, after, advice, hentries, htext, hcaret⟩ :=
    caret_at_column_iff (({} : DiagnosticLog).addSource "a.c" "int n;\nint a[n];")
      (.report .variableLengthArray ⟨"a.c", 2, 5⟩ none) {} rfl (by decide) hlines rfl (by decide)
      (by decide)
  exact ⟨d, head, before, after, advice, hentries, htext, hcaret.mpr (by decide)⟩

section LastLine

variable (n : Nat)

/-- A text with `n` empty lines before its last one. -/
def lateText : String := String.ofList (List.replicate n '\n' ++ ['x'])

theorem pieces_lateText :
    Text.pieces '\n' (List.replicate n '\n' ++ ['x']) = List.replicate n [] ++ [['x']] := by
  induction n with
  | zero => rfl
  | succ n ih =>
    rw [List.replicate_succ, List.cons_append, Text.pieces_cons_sep, ih]
    rfl

theorem lines?_lateText (log : DiagnosticLog) (file : String) :
    (log.addSource file (lateText n)).lines? file = some (List.replicate n "" ++ ["x"]) := by
  rw [lines?_addSource, lateText, String.toList_ofList, Text.unifyPairs_of_no_return,
    pieces_lateText, List.map_append, List.map_replicate]
  · rfl
  · intro c hc
    rcases List.mem_append.mp hc with hc | hc
    · rw [List.eq_of_mem_replicate hc]
      decide
    · rw [List.mem_singleton.mp hc]
      decide

theorem shownLines_last (h : 2 ≤ n) :
    shownLines (List.replicate n "" ++ ["x"]) (n + 1) = ["", "", "x"] := by
  have hlast : (List.replicate n "" ++ ["x"]).length ≤ lastShown (n + 1) (n + 1) := by
    simp [lastShown]
  have hfirst : firstShown (n + 1) - 1 = n - 2 := by
    unfold firstShown
    omega
  rw [shownLines, List.length_append, List.length_replicate, List.length_singleton,
    List.take_of_length_le hlast, hfirst, List.drop_append_of_le_length (by simp),
    List.drop_replicate, Nat.sub_sub_self h]
  rfl

end LastLine

/-- In line 10000 the caret of the first column stands before the first character. -/
theorem caret_left_of_column : ∃ d,
    ((LogStep.addFailure (.report .variableLengthArray ⟨"a.c", 10000, 1⟩ none)).perform {}
      (({} : DiagnosticLog).addSource "a.c" (lateText 9999))).2.entries = [d] ∧
    d.text false = .ok (d.headline false ++ d.placeLine ++
      unlines ["9998 | ", "9999 | ", "10000 | x", "       ^"] ++ d.adviceText) ∧
    "10000 | x".toList.idxOf 'x' = 8 ∧ "       ^".toList.idxOf '^' = 7 := by
  have hcount : (List.replicate 9999 "" ++ ["x"]).length + 4 < 2 ^ 63 := by
    rw [List.length_append, List.length_replicate, List.length_singleton]
    decide
  refine ⟨_, (perform_addFailure rfl (lines?_informed noFiles_empty _)).2, ?_, by decide, by decide⟩
  rw [text_completed (span_ofFailure _) (by decide) (lines?_lateText 9999 {} "a.c") hcount
    (by decide), if_neg fun h => absurd h.2 (by decide), shownRows]
  have hline : (ofFailure (.report .variableLengthArray ⟨"a.c", 10000, 1⟩ none)).line =
      9999 + 1 := rfl
  rw [hline, shownLines_last 9999 (by decide)]
  rfl

end DiagnosticLog

end DartLowering
