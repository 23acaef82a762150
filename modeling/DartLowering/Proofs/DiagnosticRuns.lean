import DartLowering.Command.Run
import DartLowering.Source.Directory
import Mathlib.Algebra.BigOperators.Group.List.Lemmas
import Mathlib.Algebra.GroupWithZero.Nat
import Mathlib.Data.List.Induction
import Mathlib.Data.List.Nodup
import Mathlib.Data.Prod.Lex
import Mathlib.Data.String.Basic

/-!
Runs of operations on a log of diagnostics that begins empty. The counters are the numbers of errors
and warnings among the entries, and the entries are what the run added less the errors that came
when as many as the limit of that moment were there. Only sorting changes their order, and the
summary counts each of them once.
-/
namespace DartLowering

/-- One operation on a log. -/
inductive LogStep
  | setLimit (limit : Int)
  | addSource (file text : String)
  | add (d : Diagnostic)
  | addFailure (f : Failure)
  | sort
  | format (coloured : Bool) (d : Diagnostic)
  | summary
  | list

inductive LogReply
  | nothing
  | text (text : Result String)
  | entries (entries : List Diagnostic)
  /-- The operation was broken off. -/
  | broken (failure : Failure)

namespace LogStep

/-- The answer to an addition and the log after it, which is the one before where it is broken
off. -/
def outcome (log : DiagnosticLog) : Result DiagnosticLog → LogReply × DiagnosticLog
  | .ok log => (.nothing, log)
  | .error failure => (.broken failure, log)

/-- The answer to an operation and the log after it. Source files that nobody made known are looked
for in `disk`. -/
def perform (disk : Directory) (log : DiagnosticLog) : LogStep → LogReply × DiagnosticLog
  | .setLimit limit => (.nothing, log.setLimit limit)
  | .addSource file text => (.nothing, log.addSource file text)
  | .add d => outcome log ((Command.record Directory.files log d).run disk).1
  | .addFailure f => outcome log ((Command.recordFailure Directory.files log f).run disk).1
  | .sort => (.nothing, log.sort)
  | .format coloured d => (.text (d.text coloured), log)
  | .summary => (.text (.ok log.summary), log)
  | .list => (.entries log.entries, log)

def added? : LogStep → Option Diagnostic
  | .add d => some d
  | .addFailure f => some (.ofFailure f)
  | _ => none

def limit? : LogStep → Option Int
  | .setLimit limit => some limit
  | _ => none

end LogStep

namespace Diagnostic

/-- File, line, column and severity, compared in this order. -/
def rank (d : Diagnostic) : String ×ₗ Int ×ₗ Int ×ₗ Int :=
  toLex (d.file, toLex (d.span.start.line.toInt,
    toLex (d.span.start.column.toInt, d.severity.code.toInt)))

theorem before_iff {d e : Diagnostic} : d.before e = true ↔ d.rank < e.rank := by
  simp only [rank, Prod.Lex.toLex_lt_toLex, before]
  by_cases hfile : d.file = e.file
  · by_cases hline : d.span.start.line = e.span.start.line
    · by_cases hcolumn : d.span.start.column = e.span.start.column
      · simp [hfile, hline, hcolumn, Int64.lt_iff_toInt_lt]
      · have hne : d.span.start.column.toInt ≠ e.span.start.column.toInt :=
          fun h => hcolumn (Int64.toInt_inj.mp h)
        simp [hfile, hline, hcolumn, hne, Int64.lt_iff_toInt_lt]
    · have hne : d.span.start.line.toInt ≠ e.span.start.line.toInt :=
        fun h => hline (Int64.toInt_inj.mp h)
      simp [hfile, hline, hne, Int64.lt_iff_toInt_lt]
  · simp [hfile]

theorem not_before_iff {d e : Diagnostic} : (!e.before d) = true ↔ d.rank ≤ e.rank := by
  rw [Bool.not_eq_true', ← not_lt, ← before_iff, Bool.not_eq_true]

section Window

theorem toInt_max (a b : Int64) : (max a b).toInt = max a.toInt b.toInt := by
  rw [show max a b = if a ≤ b then b else a from rfl]
  split <;> rename_i h <;> rw [Int64.le_iff_toInt_le] at h <;> omega

theorem toInt_min (a b : Int64) : (min a b).toInt = min a.toInt b.toInt := by
  rw [show min a b = if a ≤ b then a else b from rfl]
  split <;> rename_i h <;> rw [Int64.le_iff_toInt_le] at h <;> omega

/-- The window around a place is never out of range, whatever the place and the lines. -/
theorem window_eq (lines : List String) (span : Span) {first last : Int64}
    (hfirst : first = max 1 (span.start.line - 2))
    (hlast : last = min (Int64.ofNat lines.length)
      ((if span.stop.line < span.start.line then span.start.line else span.stop.line) + 2)) :
    window lines span = .ok (if last < first then ([], 0) else
      ((lines.take last.toInt.toNat).drop (first - 1).toInt.toNat, first)) := by
  change (if min _ _ < max _ _ then _ else slice lines (max _ _ - 1) (min _ _) >>= _) = _
  rw [← hfirst, ← hlast]
  by_cases hempty : last < first
  · rw [if_pos hempty, if_pos hempty]
  · have hone : 1 ≤ first.toInt := by
      rw [hfirst, toInt_max]
      exact le_max_left _ _
    have hcount : last.toInt ≤ lines.length := by
      rw [hlast, toInt_min, Int64.toInt_ofNat', Int.bmod_def, show Int64.size = 2 ^ 64 from rfl]
      omega
    have hbefore : (first - 1).toInt = first.toInt - 1 := by
      have hword := Int64.toInt_lt first
      rw [Int64.toInt_sub]
      exact Int.bmod_eq_of_le (by simp; omega) (by simp; omega)
    have hrange : 0 ≤ first - 1 ∧ first - 1 ≤ last ∧ last.toInt ≤ lines.length := by
      rw [Int64.lt_iff_toInt_lt] at hempty
      rw [Int64.le_iff_toInt_le, Int64.le_iff_toInt_le, hbefore]
      exact ⟨Int.sub_nonneg_of_le hone, by omega, hcount⟩
    rw [if_neg hempty, if_neg hempty, slice, if_pos hrange]
    rfl

end Window

end Diagnostic

namespace DiagnosticLog

section Completing

variable (log : DiagnosticLog) (d : Diagnostic)

/-- Only the context and the advice change. -/
theorem complete_frame : ∃ context firstLine explanation fixes,
    log.complete d = .ok { d with context, firstLine, explanation, fixes } := by
  unfold complete Diagnostic.withContext
  split
  · split
    · rw [Diagnostic.window_eq _ _ rfl rfl]
      exact ⟨_, _, _, _, rfl⟩
    · exact ⟨_, _, _, _, rfl⟩
  · exact ⟨_, _, _, _, rfl⟩

/-- The diagnostic with the context and the advice that it gets. -/
def completed : Diagnostic := (log.complete d).toOption.getD d

theorem complete_eq : log.complete d = .ok (log.completed d) := by
  obtain ⟨_, _, _, _, hframe⟩ := log.complete_frame d
  rw [completed, hframe]
  rfl

theorem completed_frame : ∃ context firstLine explanation fixes,
    log.completed d = { d with context, firstLine, explanation, fixes } := by
  obtain ⟨_, _, _, _, hframe⟩ := log.complete_frame d
  exact ⟨_, _, _, _, Except.ok.inj ((log.complete_eq d).symm.trans hframe)⟩

end Completing

section Sorting

/-- `sorted` holds the same diagnostics in order, and those of one rank as they stood before. -/
structure SortedFrom (entries sorted : List Diagnostic) : Prop where
  perm : sorted.Perm entries
  ordered : sorted.Pairwise fun d e => d.rank ≤ e.rank
  ties : ∀ rank, sorted.filter (·.rank = rank) = entries.filter (·.rank = rank)

theorem sort_sortedFrom (log : DiagnosticLog) : SortedFrom log.entries log.sort.entries := by
  have htrans : ∀ a b c : Diagnostic, (!b.before a) = true → (!c.before b) = true →
      (!c.before a) = true := by
    intro a b c hab hbc
    rw [Diagnostic.not_before_iff] at *
    exact hab.trans hbc
  have htotal : ∀ a b : Diagnostic, (!b.before a || !a.before b) = true := by
    intro a b
    rw [Bool.or_eq_true, Diagnostic.not_before_iff, Diagnostic.not_before_iff]
    exact le_total _ _
  have hperm : log.sort.entries.Perm log.entries := List.mergeSort_perm _ _
  refine ⟨hperm, ?_, ?_⟩
  · exact (List.pairwise_mergeSort htrans htotal log.entries).imp Diagnostic.not_before_iff.mp
  · -- Diagnostics of one rank are a sorted part of the log, and sorting keeps such a part together.
    intro rank
    have hsorted : (log.entries.filter (·.rank = rank)).Pairwise
        fun d e => (!e.before d) = true := by
      apply List.pairwise_of_forall_mem_list
      intro d hd e he
      have hd := (List.mem_filter.mp hd).2
      have he := (List.mem_filter.mp he).2
      rw [decide_eq_true_eq] at hd he
      rw [Diagnostic.not_before_iff, hd, he]
    have hsub : (log.entries.filter (·.rank = rank)).Sublist log.sort.entries :=
      List.sublist_mergeSort htrans htotal hsorted List.filter_sublist
    have hkept := hsub.filter (·.rank = rank)
    rw [List.filter_filter] at hkept
    simp only [Bool.and_self] at hkept
    exact (hkept.eq_of_length (hperm.filter _).length_eq.symm).symm

end Sorting

section Counting

variable {log : DiagnosticLog}

def held (log : DiagnosticLog) (severity : Severity) : Nat :=
  log.entries.countP fun d => d.severity = severity

/-- The counters tell how many errors and warnings there are. -/
structure Counted (log : DiagnosticLog) : Prop where
  errors : log.errors = log.held .error
  warnings : log.warnings = log.held .warning

theorem Counted.sort (h : log.Counted) : log.sort.Counted where
  errors := h.errors.trans ((sort_sortedFrom log).perm.countP_eq _).symm
  warnings := h.warnings.trans ((sort_sortedFrom log).perm.countP_eq _).symm

/-- A diagnostic is turned away when it is an error and there are as many as the limit. -/
def Refuses (log : DiagnosticLog) (d : Diagnostic) : Prop :=
  d.severity = .error ∧ log.limit ≤ log.held .error

instance (log : DiagnosticLog) (d : Diagnostic) : Decidable (log.Refuses d) :=
  inferInstanceAs (Decidable (_ ∧ _))

theorem Counted.turnsAway_iff (h : log.Counted) {d : Diagnostic} :
    log.turnsAway d = true ↔ log.Refuses d := by
  rw [turnsAway, isFull, h.errors, Bool.and_eq_true, decide_eq_true_eq, decide_eq_true_eq]
  rfl

theorem Counted.append (h : log.Counted) (d : Diagnostic) : (log.append d).Counted := by
  have hheld : ∀ severity, (log.append d).held severity =
      log.held severity + if d.severity = severity then 1 else 0 := by
    intro severity
    simp [held, DiagnosticLog.append, List.countP_append, List.countP_singleton]
  constructor
  · rw [hheld, ← h.errors]
    rfl
  · rw [hheld, ← h.warnings]
    rfl

end Counting

section Reading

variable (disk : Directory)

/-- The log with what can be read of the source file that a diagnostic points at. -/
def informed (log : DiagnosticLog) (d : Diagnostic) : DiagnosticLog :=
  if d.isPlaced && !log.knows d.file then
    match disk.read d.file with
    | .ok text => log.addSource d.file text
    | .error _ => log.addUnreadable d.file
  else log

/-- Only what is known of source files changes. -/
theorem informed_frame (log : DiagnosticLog) (d : Diagnostic) :
    ∃ sources, log.informed disk d = { log with sources } := by
  unfold informed
  split
  · split
    · exact ⟨_, rfl⟩
    · exact ⟨_, rfl⟩
  · exact ⟨_, rfl⟩

/-- A diagnostic that is not turned away becomes an entry once its file was looked for. -/
theorem record_eq (log : DiagnosticLog) (d : Diagnostic) :
    ((Command.record Directory.files log d).run disk).1 = .ok (if log.turnsAway d then log
      else (log.informed disk d).append ((log.informed disk d).completed d)) := by
  have henter : ∀ log : DiagnosticLog, log.enter d = .ok (log.append (log.completed d)) := by
    intro log
    rw [enter, complete_eq]
    rfl
  unfold Command.record informed
  by_cases haway : log.turnsAway d = true
  · rw [if_pos haway, if_pos haway]
    rfl
  · rw [if_neg haway, if_neg haway]
    by_cases hlook : (d.isPlaced && !log.knows d.file) = true
    · rw [if_pos hlook, if_pos hlook, Directory.run_read_bind]
      cases disk.read d.file with
      | ok | error => exact henter _
    · rw [if_neg hlook, if_neg hlook]
      exact henter log

theorem Counted.informed {log : DiagnosticLog} (h : log.Counted) (d : Diagnostic) :
    (log.informed disk d).Counted := by
  obtain ⟨sources, hframe⟩ := log.informed_frame disk d
  rw [hframe]
  exact ⟨h.errors, h.warnings⟩

end Reading

section Runs

variable (disk : Directory) {log : DiagnosticLog}

def after (steps : List LogStep) : DiagnosticLog :=
  steps.foldl (fun log step => (step.perform disk log).2) {}

theorem after_concat (steps : List LogStep) (step : LogStep) :
    after disk (steps ++ [step]) = (step.perform disk (after disk steps)).2 := by
  simp [after]

/-- The limit that was set last, or that of an empty log. -/
def limitAfter (steps : List LogStep) : Int :=
  (steps.filterMap LogStep.limit?).getLast?.getD ({} : DiagnosticLog).limit

/-- What operation number `n` leaves in the log: the diagnostic it adds, unless that is an error and
as many errors as the limit allows are there already. -/
def taken? (steps : List LogStep) (n : Nat) : Option Diagnostic :=
  (steps[n]?.bind LogStep.added?).bind fun d =>
    let log := after disk (steps.take n)
    if d.severity = .error ∧ limitAfter (steps.take n) ≤ log.held .error then none
    else some ((log.informed disk d).completed d)

/-- The log holds what the operations left in it, and counts it rightly. -/
structure Keeps (steps : List LogStep) (log : DiagnosticLog) : Prop extends Counted log where
  limit : log.limit = limitAfter steps
  entries : log.entries.Perm ((List.range steps.length).filterMap (taken? disk steps))

variable {disk}

/-- Everything that an operation can do to a log. -/
theorem perform_cases (step : LogStep) (log : DiagnosticLog) :
    (∃ d, step.added? = some d ∧ step.limit? = none ∧
        step.perform disk log = (.nothing, if log.turnsAway d then log
          else (log.informed disk d).append ((log.informed disk d).completed d))) ∨
      (step = .sort ∧ (step.perform disk log).2 = log.sort) ∨
      (step.added? = none ∧ ∃ limit sources, limit = step.limit?.getD log.limit ∧
        (step.perform disk log).2 = { log with limit, sources }) := by
  cases step with
  | setLimit | addSource | format | summary | list => exact .inr (.inr ⟨rfl, _, _, rfl, rfl⟩)
  | add d => exact .inl ⟨d, rfl, rfl, congrArg (LogStep.outcome log) (log.record_eq disk d)⟩
  | addFailure f =>
    exact .inl ⟨.ofFailure f, rfl, rfl,
      congrArg (LogStep.outcome log) (log.record_eq disk (.ofFailure f))⟩
  | sort => exact .inr (.inl ⟨rfl, rfl⟩)

variable (disk) in
def leaves? (log : DiagnosticLog) (step : LogStep) : Option Diagnostic :=
  step.added?.bind fun d =>
    if log.Refuses d then none else some ((log.informed disk d).completed d)

theorem Counted.perform (h : log.Counted) (step : LogStep) : (step.perform disk log).2.Counted := by
  rcases perform_cases step log with ⟨d, -, -, hlog⟩ | ⟨rfl, -⟩ | ⟨-, limit, sources, -, hlog⟩
  · rw [hlog]
    dsimp only
    split
    · exact h
    · exact (h.informed disk d).append _
  · exact h.sort
  · rw [hlog]
    exact ⟨h.errors, h.warnings⟩

theorem entries_perform (hcounted : log.Counted) (step : LogStep) :
    (step.perform disk log).2.entries.Perm (log.entries ++ (log.leaves? disk step).toList) := by
  rcases perform_cases step log with ⟨d, hadded, -, hlog⟩ | ⟨rfl, -⟩ | ⟨hadded, _, _, -, hlog⟩
  · rw [hlog, leaves?, hadded, Option.bind_some, if_congr hcounted.turnsAway_iff rfl rfl]
    by_cases hrefused : log.Refuses d
    · rw [if_pos hrefused, if_pos hrefused]
      simp
    · obtain ⟨sources, hframe⟩ := log.informed_frame disk d
      rw [if_neg hrefused, if_neg hrefused, hframe]
      exact .refl _
  · have hnone : (log.leaves? disk .sort).toList = [] := rfl
    rw [hnone, List.append_nil]
    exact (sort_sortedFrom log).perm
  · rw [hlog, leaves?, hadded]
    simp

theorem limit_perform (log : DiagnosticLog) (step : LogStep) :
    (step.perform disk log).2.limit = step.limit?.getD log.limit := by
  rcases perform_cases step log with ⟨d, -, hlimit, hlog⟩ | ⟨rfl, -⟩ | ⟨-, limit, _, hlimit, hlog⟩
  · obtain ⟨sources, hframe⟩ := log.informed_frame disk d
    rw [hlog, hlimit, hframe]
    dsimp only
    split
    · rfl
    · rfl
  · rfl
  · rw [hlog, hlimit]

theorem limitAfter_concat (steps : List LogStep) (step : LogStep) :
    limitAfter (steps ++ [step]) = step.limit?.getD (limitAfter steps) := by
  unfold limitAfter
  cases hlimit : step.limit? with
  | none | some => simp [hlimit]

theorem taken?_append (steps more : List LogStep) {n : Nat} (hn : n < steps.length) :
    taken? disk (steps ++ more) n = taken? disk steps n := by
  unfold taken?
  rw [List.getElem?_append_left hn, List.take_append_of_le_length hn.le]

theorem filterMap_taken?_concat (steps : List LogStep) (step : LogStep) :
    (List.range (steps ++ [step]).length).filterMap (taken? disk (steps ++ [step])) =
      (List.range steps.length).filterMap (taken? disk steps) ++
        (taken? disk (steps ++ [step]) steps.length).toList := by
  rw [List.length_append, List.length_singleton, List.range_succ, List.filterMap_append]
  have hbefore : ∀ n ∈ List.range steps.length,
      taken? disk (steps ++ [step]) n = taken? disk steps n :=
    fun n hn => taken?_append steps [step] (List.mem_range.mp hn)
  rw [List.filterMap_congr hbefore]
  cases h : taken? disk (steps ++ [step]) steps.length with
  | none | some => simp [h]

theorem taken?_last {steps : List LogStep} (hlimit : (after disk steps).limit = limitAfter steps)
    (step : LogStep) :
    taken? disk (steps ++ [step]) steps.length = (after disk steps).leaves? disk step := by
  unfold taken? leaves? Refuses
  rw [List.getElem?_concat_length, List.take_left, ← hlimit, Option.bind_some]
  rfl

/-- What one operation keeps. -/
theorem Keeps.perform {steps : List LogStep} (h : Keeps disk steps (after disk steps))
    (step : LogStep) : Keeps disk (steps ++ [step]) (after disk (steps ++ [step])) := by
  rw [after_concat]
  refine ⟨h.toCounted.perform step, ?_, ?_⟩
  · rw [limit_perform, h.limit, limitAfter_concat]
  · rw [filterMap_taken?_concat, taken?_last h.limit]
    exact (entries_perform h.toCounted step).trans (h.entries.append_right _)

variable (disk) in
/-- What every run keeps, by induction on the operations from the last one on. -/
theorem after_keeps (steps : List LogStep) : Keeps disk steps (after disk steps) := by
  induction steps using List.reverseRecOn with
  | nil => exact ⟨⟨rfl, rfl⟩, rfl, .refl _⟩
  | append_singleton steps step ih => exact ih.perform step

end Runs

section Summary

theorem nodup_eraseDups {α : Type} [BEq α] [LawfulBEq α] (l : List α) : l.eraseDups.Nodup := by
  induction hn : l.length using Nat.strong_induction_on generalizing l with
  | h n ih =>
    cases l with
    | nil => exact List.nodup_nil
    | cons a l =>
      have hshorter : (l.filter fun b => !b == a).length < n :=
        hn ▸ Nat.lt_succ_of_le (List.length_filter_le _ _)
      rw [List.eraseDups_cons, List.nodup_cons]
      refine ⟨?_, ih _ hshorter _ rfl⟩
      rw [List.mem_eraseDups, List.mem_filter]
      simp

/-- The categories of the entries with their numbers, as the summary lists them. -/
def breakdown (log : DiagnosticLog) : List (String × Nat) :=
  log.categories.map fun c => (c, log.countOf c)

/-- The numbers of a summary add up. -/
theorem sum_breakdown (log : DiagnosticLog) :
    (log.breakdown.map (·.2)).sum = log.entries.length := by
  have hcategories : log.categories.Perm (log.entries.map (·.category)).dedup := by
    refine (List.perm_ext_iff_of_nodup (nodup_eraseDups _) (List.nodup_dedup _)).mpr ?_
    intro c
    rw [List.mem_eraseDups, List.mem_mergeSort, List.mem_dedup]
  have hcount : ∀ c, log.countOf c = (log.entries.map (·.category)).count c := by
    intro c
    rw [countOf, List.count, List.countP_map]
    rfl
  calc (log.breakdown.map (·.2)).sum
      = (log.categories.map fun c => (log.entries.map (·.category)).count c).sum := by
        rw [breakdown, List.map_map]
        exact congrArg List.sum (List.map_congr_left fun c _ => hcount c)
    _ = ((log.entries.map (·.category)).dedup.map fun c =>
          (log.entries.map (·.category)).count c).sum := (hcategories.map _).sum_eq
    _ = log.entries.length := by rw [List.sum_map_count_dedup_eq_length, List.length_map]

/-- The summary of a log that is not empty, with a line for each category. -/
theorem summary_eq {log : DiagnosticLog} (h : log.entries ≠ []) :
    log.summary = "Found " ++ Text.decimalNat log.errors ++ " error(s) and " ++
      Text.decimalNat log.warnings ++ " warning(s).\n\nBreakdown by category:" ++
      String.join (log.breakdown.map fun row =>
        "\n  " ++ Text.lowerCase row.1 ++ ": " ++ Text.decimalNat row.2) := by
  have hsome : ¬log.entries.isEmpty = true := by
    rw [List.isEmpty_iff]
    exact h
  unfold summary breakdown
  rw [if_neg hsome, List.map_map]
  rfl

end Summary

/-- Whatever operations a log has seen, its counters are the numbers of errors and warnings in it,
and it holds what was added less the errors that came when the limit in force was reached. No
addition is broken off. Operations other than additions and sorting leave the entries as they are,
sorting puts them in order and keeps equal ones as they stood, and the numbers that the summary
prints add up to the number of entries. -/
theorem bookkeeping_is_exact (disk : Directory) (steps : List LogStep) :
    Keeps disk steps (after disk steps) ∧
      (∀ step : LogStep, step.added? ≠ none →
        (step.perform disk (after disk steps)).1 = .nothing) ∧
      (∀ step : LogStep, step.added? = none → step ≠ .sort →
        (step.perform disk (after disk steps)).2.entries = (after disk steps).entries) ∧
      SortedFrom (after disk steps).entries
        (LogStep.sort.perform disk (after disk steps)).2.entries ∧
      ∃ rows : List (String × Nat),
        (rows.map (·.1)).Nodup ∧
        (∀ row ∈ rows, row.2 = (after disk steps).entries.countP fun d => d.category = row.1) ∧
        (rows.map (·.2)).sum = (after disk steps).entries.length ∧
        (LogStep.summary.perform disk (after disk steps)).1 = .text (.ok
          (if (after disk steps).entries = [] then "No diagnostics."
          else "Found " ++ Text.decimalNat (after disk steps).errors ++ " error(s) and " ++
            Text.decimalNat (after disk steps).warnings ++
            " warning(s).\n\nBreakdown by category:" ++
            String.join (rows.map fun row =>
              "\n  " ++ Text.lowerCase row.1 ++ ": " ++ Text.decimalNat row.2))) := by
  refine ⟨after_keeps disk steps, ?_, ?_, sort_sortedFrom _, (after disk steps).breakdown, ?_, ?_,
    sum_breakdown _, ?_⟩
  · intro step hadded
    rcases perform_cases step (after disk steps) with ⟨d, -, -, hlog⟩ | ⟨rfl, -⟩ | ⟨hnone, -⟩
    · rw [hlog]
    · exact absurd rfl hadded
    · exact absurd hnone hadded
  · intro step hadded hsort
    rcases perform_cases step (after disk steps) with ⟨d, hsome, -⟩ | ⟨heq, -⟩ |
      ⟨-, limit, sources, -, hlog⟩
    · rw [hadded] at hsome
      cases hsome
    · exact absurd heq hsort
    · rw [hlog]
  · have hkeys : (after disk steps).breakdown.map (·.1) = (after disk steps).categories := by
      rw [breakdown, List.map_map]
      exact List.map_id _
    rw [hkeys]
    exact nodup_eraseDups _
  · intro row hrow
    obtain ⟨c, -, rfl⟩ := List.mem_map.mp hrow
    rfl
  · by_cases hempty : (after disk steps).entries = []
    · rw [if_pos hempty, LogStep.perform, summary, hempty]
      rfl
    · rw [if_neg hempty, LogStep.perform, summary_eq hempty]

/-- Two errors and a warning under a limit of one error. -/
def capped : List LogStep :=
  [.setLimit 1, .add { file := "b.c" }, .add { file := "a.c" },
    .add { severity := .warning, file := "a.c" }, .sort]

theorem bookkeeping_is_exact_capped :
    LogStep.list.added? = none ∧ LogStep.list ≠ .sort ∧
      (LogStep.list.perform {} (after {} capped)).2.entries = (after {} capped).entries ∧
      (after {} capped).held .error = 1 ∧ (after {} capped).held .warning = 1 := by
  have hlist : LogStep.list ≠ .sort := by
    intro h
    cases h
  obtain ⟨hkeeps, -, hsame, -⟩ := bookkeeping_is_exact {} capped
  exact ⟨rfl, hlist, hsame .list rfl hlist, hkeeps.errors.symm, hkeeps.warnings.symm⟩

end DiagnosticLog

end DartLowering
