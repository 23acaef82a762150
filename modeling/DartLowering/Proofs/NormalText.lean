import DartLowering.Proofs.SplitTexts
import DartLowering.Text.Normal
import Mathlib.Data.List.DropRight
import Mathlib.Data.List.Forall2

/-!
The normal form of a text as a canonical form. Its lines are those of the text, whichever way each
of them ends there, without the blanks at their ends and the empty lines at the end; each is closed
by the same separator. The normal form of a normal form is itself.
-/
namespace DartLowering.Text

/-- The lines of a text, each of which may end in a pair, a carriage return or a line feed. -/
def cutLines : List Char → List (List Char)
  | [] => [[]]
  | '\r' :: '\n' :: cs => [] :: cutLines cs
  | c :: cs => if c = '\r' ∨ c = '\n' then [] :: cutLines cs else (cutLines cs).modifyHead (c :: ·)

/-- `kept` is the line without the spaces and tabs at its end. -/
def Trimmed (line kept : List Char) : Prop :=
  ∃ blanks, line = kept ++ blanks ∧ (∀ c ∈ blanks, c = ' ' ∨ c = '\t') ∧
    ∀ c ∈ kept.getLast?, c ≠ ' ' ∧ c ≠ '\t'

/-- `kept` are the lines of a text, trimmed and without the empty ones at the end. -/
structure KeepsLines (cs : List Char) (kept : List (List Char)) : Prop where
  trimmed : ∃ n, List.Forall₂ Trimmed (cutLines cs) (kept ++ List.replicate n [])
  last : kept.getLast? ≠ some []

/-- The lines that a normal form shows: an empty one where there are none. -/
def shown (kept : List (List Char)) : List (List Char) := if kept = [] then [[]] else kept

theorem shown_ne_nil (kept : List (List Char)) : shown kept ≠ [] := by
  unfold shown
  split
  · exact List.cons_ne_nil _ _
  · assumption

section Lines

theorem pieces_unifyLineEnds (cs : List Char) : pieces '\n' (unifyLineEnds cs) = cutLines cs := by
  fun_induction cutLines cs with
  | case1 => rfl
  | case2 cs ih =>
    rw [← ih]
    exact pieces_cons_sep '\n' _
  | case3 c cs hpair hend ih =>
    have hunify : unifyLineEnds (c :: cs) = '\n' :: unifyLineEnds cs := by
      rw [unifyLineEnds, unifyPairs]
      · rcases hend with rfl | rfl <;> rfl
      · exact hpair
    rw [hunify, pieces_cons_sep, ih]
  | case4 c cs hpair hend ih =>
    have hunify : unifyLineEnds (c :: cs) = c :: unifyLineEnds cs := by
      rw [unifyLineEnds, unifyPairs, List.map_cons, if_neg (not_or.mp hend).1]
      · rfl
      · exact hpair
    obtain ⟨p, ps, hcs, hpieces⟩ := pieces_cons (not_or.mp hend).2 (unifyLineEnds cs)
    rw [hunify, hpieces, ← ih, hcs]
    rfl

def isInLine (c : Char) : Bool := c ≠ '\r' && c ≠ '\n'

theorem isInLine_iff {c : Char} : isInLine c = true ↔ c ≠ '\r' ∧ c ≠ '\n' := by
  simp [isInLine]

theorem cutLines_inLine {cs line : List Char} (h : line ∈ cutLines cs) :
    ∀ c ∈ line, isInLine c := by
  rw [← pieces_unifyLineEnds] at h
  intro c hc
  rw [isInLine_iff]
  constructor
  · rintro rfl
    obtain ⟨d, -, hd⟩ := List.mem_map.mp (mem_of_mem_pieces h hc)
    split at hd
    · exact absurd hd (by decide)
    · rename_i hne
      exact hne hd
  · rintro rfl
    exact not_mem_of_mem_pieces h hc

/-- The two separators of normal forms. -/
def IsSeparator (sep : List Char) : Prop := sep = ['\r', '\n'] ∨ sep = ['\n']

theorem cutLines_append {sep line : List Char} (hsep : IsSeparator sep) (h : ∀ c ∈ line, isInLine c)
    (cs : List Char) : cutLines (line ++ (sep ++ cs)) = line :: cutLines cs := by
  induction line with
  | nil => rcases hsep with rfl | rfl <;> rfl
  | cons c line ih =>
    obtain ⟨hc, hline⟩ := List.forall_mem_cons.mp h
    rw [isInLine_iff] at hc
    rw [List.cons_append, cutLines, ih hline, if_neg (not_or.mpr hc)]
    · rfl
    · rintro rest rfl -
      exact hc.1 rfl

theorem cutLines_closed {sep : List Char} (hsep : IsSeparator sep) {lines : List (List Char)}
    (h : ∀ line ∈ lines, ∀ c ∈ line, isInLine c) :
    cutLines (lines.flatMap (· ++ sep)) = lines ++ [[]] := by
  induction lines with
  | nil => rfl
  | cons line lines ih =>
    obtain ⟨hline, hlines⟩ := List.forall_mem_cons.mp h
    rw [List.flatMap_cons, List.append_assoc, cutLines_append hsep hline, ih hlines]
    rfl

end Lines

section Kept

theorem normalLines_eq (cs : List Char) :
    normalLines cs = ((cutLines cs).map (List.rdropWhile isBlank)).rdropWhile List.isEmpty := by
  rw [normalLines, pieces_unifyLineEnds]
  rfl

/-- Dropping from the end leaves a list that does not end in what is dropped. -/
theorem getLast?_rdropWhile {α : Type} {p : α → Bool} {l : List α} {a : α}
    (h : (l.rdropWhile p).getLast? = some a) : p a = false := by
  have hne : l.rdropWhile p ≠ [] := by
    rintro hnil
    rw [hnil] at h
    cases h
  rw [List.getLast?_eq_some_getLast hne, Option.some.injEq] at h
  rw [← h, Bool.eq_false_iff]
  exact List.rdropWhile_last_not p l hne

theorem isBlank_iff {c : Char} : isBlank c = true ↔ c = ' ' ∨ c = '\t' := by
  simp [isBlank]

theorem trimmed_rdropWhile (line : List Char) : Trimmed line (line.rdropWhile isBlank) := by
  refine ⟨line.rtakeWhile isBlank, List.rdropWhile_append_rtakeWhile.symm, ?_, ?_⟩
  · intro c hc
    exact isBlank_iff.mp (List.mem_rtakeWhile_imp hc)
  · intro c hc
    exact not_or.mp (mt isBlank_iff.mpr (Bool.eq_false_iff.mp (getLast?_rdropWhile hc)))

theorem keepsLines_normalLines (cs : List Char) : KeepsLines cs (normalLines cs) := by
  rw [normalLines_eq]
  constructor
  · generalize hall : (cutLines cs).map (List.rdropWhile isBlank) = all
    refine ⟨(all.rtakeWhile List.isEmpty).length, ?_⟩
    have hempty : all.rtakeWhile List.isEmpty = List.replicate _ [] :=
      List.eq_replicate_of_mem fun line hline => List.isEmpty_iff.mp (List.mem_rtakeWhile_imp hline)
    rw [← hempty, List.rdropWhile_append_rtakeWhile, ← hall, List.forall₂_map_right_iff,
      List.forall₂_same]
    exact fun line _ => trimmed_rdropWhile line
  · intro h
    exact Bool.noConfusion (getLast?_rdropWhile h)

theorem isInLine_normalLines (cs : List Char) :
    ∀ line ∈ normalLines cs, ∀ c ∈ line, isInLine c := by
  rw [normalLines_eq]
  intro line hline
  obtain ⟨whole, hwhole, rfl⟩ := List.mem_map.mp ((List.rdropWhile_prefix _ _).subset hline)
  intro c hc
  exact cutLines_inLine hwhole c ((List.rdropWhile_prefix _ _).subset hc)

end Kept

section Closed

theorem hasPair_iff {cs : List Char} : hasPair cs = true ↔ ['\r', '\n'] <:+: cs := by
  fun_induction hasPair cs with
  | case1 => simp
  | case2 cs => exact iff_of_true rfl ⟨[], cs, rfl⟩
  | case3 c cs hpair ih =>
    rw [ih, List.infix_cons_iff]
    refine ⟨.inr, fun h => h.resolve_left ?_⟩
    rintro ⟨rest, hrest⟩
    cases hrest
    exact hpair _ rfl rfl

theorem isSeparator_separator (preserve : Bool) (cs : List Char) :
    IsSeparator (separator preserve cs) := by
  unfold separator
  split
  · exact .inl rfl
  · exact .inr rfl

theorem separator_eq_pair_iff {preserve : Bool} {cs : List Char} :
    separator preserve cs = ['\r', '\n'] ↔ preserve = true ∧ ['\r', '\n'] <:+: cs := by
  rw [← hasPair_iff, ← Bool.and_eq_true_iff, separator]
  split
  · rename_i h
    exact iff_of_true rfl h
  · rename_i h
    exact iff_of_false (by decide) h

theorem joined_closed (sep : List Char) (lines : List (List Char)) :
    joined sep lines ++ sep = (shown lines).flatMap (· ++ sep) := by
  unfold shown
  fun_induction joined sep lines with
  | case1 => simp
  | case2 line => simp
  | case3 line next lines ih => simpa using ih

theorem normalise_toList (preserve : Bool) (text : String) : (normalise preserve text).toList =
    (shown (normalLines text.toList)).flatMap (· ++ separator preserve text.toList) := by
  rw [← joined_closed]
  exact String.toList_ofList

theorem shown_inLine (cs : List Char) :
    ∀ line ∈ shown (normalLines cs), ∀ c ∈ line, isInLine c := by
  unfold shown
  split
  · simp
  · exact isInLine_normalLines cs

theorem cutLines_normalise (preserve : Bool) (text : String) :
    cutLines (normalise preserve text).toList = shown (normalLines text.toList) ++ [[]] := by
  rw [normalise_toList]
  exact cutLines_closed (isSeparator_separator _ _) (shown_inLine _)

/-- The lines of a normal form are trimmed already, and only the empty ones at its end are
dropped. -/
theorem normalLines_normalise (preserve : Bool) (text : String) :
    normalLines (normalise preserve text).toList = normalLines text.toList := by
  have htrimmed : (normalLines text.toList).map (List.rdropWhile isBlank) =
      normalLines text.toList := by
    refine (List.map_congr_left fun line hline => ?_).trans (List.map_id' _)
    rw [normalLines_eq] at hline
    obtain ⟨whole, -, rfl⟩ := List.mem_map.mp ((List.rdropWhile_prefix _ _).subset hline)
    exact List.rdropWhile_idempotent _ _
  have hdrop : (normalLines text.toList).rdropWhile List.isEmpty = normalLines text.toList := by
    rw [normalLines_eq]
    exact List.rdropWhile_idempotent _ _
  rw [normalLines_eq (normalise preserve text).toList, cutLines_normalise, List.map_append,
    List.map_singleton]
  change List.rdropWhile List.isEmpty (_ ++ [[]]) = _
  rw [List.rdropWhile_concat_pos _ _ _ rfl]
  unfold shown
  split
  · rename_i hnone
    rw [hnone]
    rfl
  · rw [htrimmed, hdrop]

/-- A normal form holds a pair exactly when its separator is one. -/
theorem separator_normalise (preserve : Bool) (text : String) :
    separator preserve (normalise preserve text).toList = separator preserve text.toList := by
  by_cases hsep : separator preserve text.toList = ['\r', '\n']
  · obtain ⟨line, lines, hshown⟩ :=
      List.exists_cons_of_ne_nil (shown_ne_nil (normalLines text.toList))
    rw [hsep, separator_eq_pair_iff]
    refine ⟨(separator_eq_pair_iff.mp hsep).1, line, lines.flatMap (· ++ ['\r', '\n']), ?_⟩
    rw [normalise_toList, hshown, hsep, List.flatMap_cons]
  · have hfeed := (isSeparator_separator preserve text.toList).resolve_left hsep
    rw [hfeed]
    refine (isSeparator_separator _ _).resolve_left fun hpair => ?_
    have hmem := (separator_eq_pair_iff.mp hpair).2.subset List.mem_cons_self
    rw [normalise_toList, hfeed] at hmem
    obtain ⟨line, hline, hc⟩ := List.mem_flatMap.mp hmem
    rcases List.mem_append.mp hc with hc | hc
    · exact (isInLine_iff.mp (shown_inLine _ line hline _ hc)).1 rfl
    · exact absurd hc (by decide)

end Closed

/-- The normal form has the lines of the text, trimmed, up to the last that is not empty. It closes
each by one separator, which is the pair exactly when pairs are to be kept and the text has one, and
it is its own normal form. -/
theorem normalise_is_canonical (preserve : Bool) (text : String) :
    ∃ kept sep, KeepsLines text.toList kept ∧ IsSeparator sep ∧
      (sep = ['\r', '\n'] ↔ preserve = true ∧ ['\r', '\n'] <:+: text.toList) ∧
      (normalise preserve text).toList = (shown kept).flatMap (· ++ sep) ∧
      cutLines (normalise preserve text).toList = shown kept ++ [[]] ∧
      normalise preserve (normalise preserve text) = normalise preserve text := by
  refine ⟨normalLines text.toList, separator preserve text.toList, keepsLines_normalLines _,
    isSeparator_separator _ _, separator_eq_pair_iff, normalise_toList _ _,
    cutLines_normalise _ _, ?_⟩
  rw [← String.toList_inj, normalise_toList, normalLines_normalise, separator_normalise,
    normalise_toList]

end DartLowering.Text
