import DartLowering.Command.Run
import DartLowering.Proofs.Destinations
import DartLowering.Proofs.NormalText
import DartLowering.Proofs.Patch
import DartLowering.Proofs.Result

/-!
What a run shows of a change and what it writes. Writing compares whole texts and showing compares
lines, so a file is shown to differ only if it is rewritten, and a file that is rewritten without
being shown has the lines of the output with other line ends.
-/
namespace DartLowering

namespace Text

section Normal

/-- A text without carriage returns, whose last line is closed once. -/
structure Closed (text : String) : Prop where
  closed : ∃ body : List Char, text.toList = body ++ ['\n'] ∧ body.getLast? ≠ some '\n'
  noReturn : '\r' ∉ text.toList

theorem closed_normalise (text : String) : Closed (normalise false text) := by
  have htext : (normalise false text).toList =
      (shown (normalLines text.toList)).flatMap (· ++ ['\n']) := normalise_toList false text
  have hline := shown_inLine text.toList
  constructor
  · obtain hnone | ⟨lines, last, hlines⟩ := List.eq_nil_or_concat' (normalLines text.toList)
    · refine ⟨[], ?_, Option.some_ne_none _ |>.symm⟩
      rw [htext, hnone]
      rfl
    · have hne : last ≠ [] := by
        rintro rfl
        exact (keepsLines_normalLines text.toList).last (by rw [hlines, List.getLast?_concat])
      have hshown : shown (normalLines text.toList) = lines ++ [last] := by
        rw [shown, hlines, if_neg (List.append_ne_nil_of_right_ne_nil _ (List.cons_ne_nil _ _))]
      rw [hshown] at htext hline
      refine ⟨lines.flatMap (· ++ ['\n']) ++ last, ?_, ?_⟩
      · rw [htext, List.flatMap_append, List.flatMap_singleton, List.append_assoc]
      · rw [List.getLast?_append_of_ne_nil _ hne]
        intro hend
        exact (isInLine_iff.mp (hline last (by simp) _ (List.mem_of_getLast? hend))).2 rfl
  · rw [htext]
    intro hmem
    obtain ⟨line, hmem, hc⟩ := List.mem_flatMap.mp hmem
    rcases List.mem_append.mp hc with hc | hc
    · exact (isInLine_iff.mp (hline line hmem _ hc)).1 rfl
    · exact absurd hc (by decide)

end Normal

section Lines

/-- The text with a line feed for every pair of carriage return and line feed. -/
def withoutPairs (text : String) : String := String.ofList (unifyPairs text.toList)

theorem unifyPairs_append {body : List Char} (h : '\r' ∉ body) (cs : List Char) :
    unifyPairs (body ++ cs) = body ++ unifyPairs cs := by
  induction body with
  | nil => rfl
  | cons c body ih =>
    obtain ⟨hc, hbody⟩ := not_or.mp (mt List.mem_cons.mpr h)
    rw [List.cons_append, unifyPairs, ih hbody, List.cons_append]
    rintro rest rfl -
    exact hc rfl

theorem withoutSuffix_concat (c d : Char) (front : List Char) :
    withoutSuffix [c] (front ++ [d]) = if d = c then front else front ++ [d] := by
  have hsuffix : [c].isSuffixOf (front ++ [d]) = true ↔ d = c := by
    rw [List.isSuffixOf_iff_suffix]
    constructor
    · rintro ⟨before, hbefore⟩
      exact (List.singleton_inj.mp (List.append_inj' hbefore rfl).2).symm
    · rintro rfl
      exact List.suffix_append front [d]
  unfold withoutSuffix
  by_cases hd : d = c
  · rw [if_pos (hsuffix.mpr hd), if_pos hd]
    simp
  · rw [if_neg (mt hsuffix.mp hd), if_neg hd]

theorem withoutSuffix_eq_iff {c : Char} {cs body : List Char} (hbody : body.getLast? ≠ some c) :
    withoutSuffix [c] cs = body ↔ cs = body ++ [c] ∨ cs = body := by
  rcases List.eq_nil_or_concat cs with rfl | ⟨front, last, rfl⟩
  · have hnone : withoutSuffix [c] [] = [] := if_neg (by simp)
    simp [hnone]
  · rw [List.concat_eq_append, withoutSuffix_concat]
    by_cases hlast : last = c
    · subst hlast
      have hother : front ++ [last] ≠ body := by
        rintro rfl
        exact hbody List.getLast?_concat
      simp [hother]
    · have hother : front ++ [last] ≠ body ++ [c] := by
        intro heq
        exact hlast (List.singleton_inj.mp (List.append_inj' heq rfl).2)
      simp [hlast, hother]

theorem pieces_inj {sep : Char} {cs ds : List Char} : pieces sep cs = pieces sep ds ↔ cs = ds := by
  constructor
  · intro h
    rw [← joined_pieces sep cs, h, joined_pieces]
  · rintro rfl
    rfl

/-- A text has the lines of a closed one when it is that text with other line ends, or without the
last of them. -/
theorem textLines_eq_iff {old out : String} (hout : Closed out) :
    Diff.textLines old = Diff.textLines out ↔
      old ≠ "" ∧ (withoutPairs old = out ∨ withoutPairs old ++ "\n" = out) := by
  obtain ⟨⟨body, hbody, hlast⟩, hreturn⟩ := hout
  have hsome : out ≠ "" := by
    rintro rfl
    exact absurd hbody (by simp)
  have hnotReturn : ∀ c ∈ out.toList, c ≠ '\r' := by
    rintro c hc rfl
    exact hreturn hc
  have hlines : Diff.textLines out = (pieces '\n' body).map String.ofList := by
    rw [Diff.textLines, if_neg hsome, unifyPairs_of_no_return hnotReturn, hbody,
      withoutSuffix_concat, if_pos rfl]
  by_cases hempty : old = ""
  · have hnone : Diff.textLines old = [] := if_pos hempty
    rw [hnone, hlines]
    refine iff_of_false ?_ fun h => h.1 hempty
    exact fun h => pieces_ne_nil '\n' body (List.map_eq_nil_iff.mp h.symm)
  · have hold : Diff.textLines old =
        (pieces '\n' (withoutSuffix ['\n'] (unifyPairs old.toList))).map String.ofList :=
      if_neg hempty
    have hpairs : (withoutPairs old).toList = unifyPairs old.toList := String.toList_ofList
    have hclosed : withoutPairs old = out ↔ unifyPairs old.toList = body ++ ['\n'] := by
      rw [← String.toList_inj, hpairs, hbody]
    have hopen : withoutPairs old ++ "\n" = out ↔ unifyPairs old.toList = body := by
      rw [← String.toList_inj, String.toList_append, hpairs, hbody]
      exact List.append_left_inj ['\n']
    rw [hold, hlines, List.map_inj_right fun _ _ => String.ofList_injective, pieces_inj,
      withoutSuffix_eq_iff hlast, hclosed, hopen]
    exact (and_iff_right hempty).symm

end Lines

end Text

theorem Diff.unified_eq_empty {oldName newName old new : String} :
    unified oldName newName old new = "" ↔ textLines old = textLines new := by
  have hcompared : ∀ text, comparedLines false text = textLines text := fun text => List.map_id _
  have hany : (Changes.between {} old new).any = false ↔ textLines old = textLines new := by
    rw [any_between, hcompared, hcompared]
  rw [← hany, unified, Changes.text]
  cases (Changes.between {} old new).any with
  | false => simp
  | true => simp [String.join_cons]

namespace Command

open Directory

section Runs

variable {p : Plan} {d : Directory} {input path text old content : String}

theorem closed_of_emission (h : (p.emission input text).output = .ok content) :
    Text.Closed content := by
  unfold Plan.emission Job.run at h
  cases hload : Dump.ofText input p.config.markers text with
  | error failure =>
    rw [hload] at h
    cases h
  | ok loaded =>
    rw [hload] at h
    obtain ⟨raw, -, hraw⟩ := Result.bind_eq_ok.mp h
    rw [← Except.ok.inj hraw]
    exact Text.closed_normalise raw

theorem run_diffOutput (hold : d.read path = .ok old) :
    (diffOutput Directory.files path content).run d =
      (.ok (Diff.unified ("a/" ++ path) ("b/" ++ path) old content), d) := by
  rw [diffOutput, run_read_bind, hold]
  rfl

/-- A file that is there is replaced unless it has the content already. -/
theorem run_writeOutput (hname : EndsInName path) (hold : d.read path = .ok old)
    (content : String) :
    ∃ e, (writeOutput Directory.files path content).run d = (.ok (), e) ∧
      e.read path = .ok content ∧ (e = d ↔ old = content) := by
  rw [writeOutput, run_read_bind, hold]
  dsimp only
  by_cases hequal : old = content
  · subst hequal
    rw [if_pos rfl]
    exact ⟨d, rfl, hold, iff_of_true rfl rfl⟩
  · rw [if_neg hequal, storeOutput]
    obtain ⟨hreaches, hfile⟩ := read_eq_ok.mp hold
    obtain ⟨hmade, hsame⟩ := (frontOf_directory path).makeDirectory hreaches
    rw [run_makeDirectory_bind, hmade]
    generalize (d.makeDirectory (Path.directory path)).2 = made at hsame
    have hfree : made.find? (place path) ≠ some .folder := by
      rw [hsame, hfile]
      exact fun heq => by cases heq
    have hwrite : made.write path content = .ok (made.put (place path) (.file content)) :=
      (write_eq_ok hname).mpr ⟨hreaches.mono fun q hq => (hsame q).trans hq, hfree, rfl⟩
    have hread := read_of_write hname hwrite
    refine ⟨_, ?_, hread, iff_of_false ?_ hequal⟩
    · dsimp only
      rw [run_write_bind, run_attempt_of_ok hwrite]
      rfl
    · intro heq
      rw [heq, hold] at hread
      exact hequal (Except.ok.inj hread)

variable {standardInput : String}

/-- A unit that is lowered is delivered, and tells more than its delivery does. -/
theorem run_unit (hinput : input ≠ "-") (hread : d.read input = .ok text)
    (hout : (p.emission input text).output = .ok content) :
    ∃ told, (p.unit Directory.files standardInput input).run d =
      ({ ((p.deliver Directory.files input content).run d).1 with notices := told },
        ((p.deliver Directory.files input content).run d).2) := by
  rw [Plan.unit, if_neg hinput, run_read_bind, hread]
  dsimp only
  rw [Plan.finish]
  simp only [hout]
  exact ⟨_, rfl⟩

theorem run_deliver_diff (hinput : input ≠ "-") (hdiff : p.diff = true)
    (hold : d.read (p.destination input) = .ok old) :
    (p.deliver Directory.files input content).run d =
      ({ output := Diff.unified ("a/" ++ p.destination input) ("b/" ++ p.destination input) old
          content }, d) := by
  rw [Plan.deliver]
  simp only [if_neg hinput, hdiff, if_true]
  rw [StateT.run_bind, run_diffOutput hold]
  rfl

theorem run_deliver_write {e : Directory} (hinput : input ≠ "-") (hdiff : p.diff = false)
    (hwrite : (writeOutput Directory.files (p.destination input) content).run d = (.ok (), e)) :
    ∃ told, (p.deliver Directory.files input content).run d = ({ notices := told }, e) := by
  rw [Plan.deliver]
  simp only [if_neg hinput, hdiff, Bool.false_eq_true, if_false]
  rw [StateT.run_bind, hwrite]
  exact ⟨_, rfl⟩

end Runs

/-- The plan that shows what would change instead of writing it. -/
def Plan.showing (p : Plan) : Plan := { p with diff := true }

def Plan.writing (p : Plan) : Plan := { p with diff := false }

section Agreement

variable {p : Plan} {d : Directory} {input text old out : String} (hinput : input ≠ "-")
  (hread : d.read input = .ok text) (hout : (p.emission input text).output = .ok out)
  (hold : d.read (p.destination input) = .ok old) (standardInput : String)

include hinput hread hout hold

/-- Showing changes nothing and shows nothing when the lines are the same. -/
theorem run_showing :
    ∃ shown, (p.showing.unit Directory.files standardInput input).run d = (shown, d) ∧
    shown.failure = none ∧ (shown.output = "" ↔ Diff.textLines old = Diff.textLines out) := by
  have hshown : d.read (p.showing.destination input) = .ok old := hold
  obtain ⟨told, hunit⟩ := run_unit (p := p.showing) hinput hread hout
  rw [run_deliver_diff hinput rfl hshown] at hunit
  exact ⟨_, hunit, rfl, Diff.unified_eq_empty⟩

/-- Writing makes the output the content of the file, which is left alone when it is already. -/
theorem run_writing :
    ∃ written e, (p.writing.unit Directory.files standardInput input).run d = (written, e) ∧
    written.failure = none ∧ e.read (p.destination input) = .ok out ∧ (e = d ↔ old = out) := by
  obtain ⟨e, hwrite, hnew, hkept⟩ :=
    run_writeOutput (endsInName_outputPath input p.config.outputDirectory) hold out
  obtain ⟨told, hdeliver⟩ := run_deliver_write (p := p.writing) hinput rfl hwrite
  obtain ⟨all, hunit⟩ := run_unit (p := p.writing) hinput hread hout
  rw [hdeliver] at hunit
  exact ⟨_, e, hunit, rfl, hnew, hkept⟩

end Agreement

/-- Where the output is there already, writing leaves the file alone exactly when its content is the
output, and nothing is shown exactly when its content is the output up to line ends: pairs count as
line feeds, and the last line may stay open. So what is shown is written, and what is left alone is
not shown. -/
theorem shown_iff_lines_differ {p : Plan} {d : Directory} {input text old out : String}
    (hinput : input ≠ "-")
    (hread : d.read input = .ok text) (hout : (p.emission input text).output = .ok out)
    (hold : d.read (p.destination input) = .ok old) (standardInput : String) :
    ∃ shown written e, (p.showing.unit Directory.files standardInput input).run d = (shown, d) ∧
      (p.writing.unit Directory.files standardInput input).run d = (written, e) ∧
      shown.failure = none ∧ written.failure = none ∧ e.read (p.destination input) = .ok out ∧
      (e = d ↔ old = out) ∧ (e = d → shown.output = "") ∧
      (shown.output = "" ↔
        old ≠ "" ∧ (Text.withoutPairs old = out ∨ Text.withoutPairs old ++ "\n" = out)) := by
  obtain ⟨shown, hshow, hshown, hlines⟩ := run_showing hinput hread hout hold standardInput
  obtain ⟨written, e, hwrite, hwritten, hnew, hkept⟩ :=
    run_writing hinput hread hout hold standardInput
  refine ⟨shown, written, e, hshow, hwrite, hshown, hwritten, hnew, hkept, ?_, ?_⟩
  · intro heq
    rw [hlines, hkept.mp heq]
  · rw [hlines, Text.textLines_eq_iff (closed_of_emission hout)]

/-- A plan with the settings that are there by default. -/
def Plan.plain : Plan := ⟨{ jobs := 1 }, false, false, false⟩

def Plan.lowers (p : Plan) (input text : String) : Bool :=
  match (p.emission input text).output with
  | .ok _ => true
  | .error _ => false

theorem Plan.exists_of_lowers {p : Plan} {input text : String} (h : p.lowers input text = true) :
    ∃ out, (p.emission input text).output = .ok out := by
  unfold Plan.lowers at h
  cases hout : (p.emission input text).output with
  | error failure =>
    rw [hout] at h
    cases h
  | ok out => exact ⟨out, rfl⟩

/-- A directory with a dump and an output of it. -/
def stored (dump old : String) : Directory := ⟨[(["u.json"], .file dump), (["u.dart"], .file old)]⟩

def variableDump : String :=
  "\x7b\"decls\":[\x7b\"kind\":\"var\",\"name\":\"x\"," ++
    "\"type\":\x7b\"kind\":\"scalar\",\"scalar\":\"int\"\x7d\x7d]\x7d"

theorem variableDump_lowers : Plan.plain.lowers "u.json" variableDump = true := by
  decide +kernel

/-- An output with one line more on top is shown, and written anew. -/
theorem added_line_is_shown : ∃ out old shown written e,
    (Plan.plain.emission "u.json" variableDump).output = .ok out ∧ old = "// edited\n" ++ out ∧
    (Plan.plain.showing.unit Directory.files "" "u.json").run (stored variableDump old) =
      (shown, stored variableDump old) ∧
    (Plan.plain.writing.unit Directory.files "" "u.json").run (stored variableDump old) =
      (written, e) ∧
    e.read "u.dart" = .ok out ∧ e ≠ stored variableDump old ∧ shown.output ≠ "" := by
  obtain ⟨out, hout⟩ := Plan.exists_of_lowers variableDump_lowers
  obtain ⟨old, holdText⟩ : ∃ old, old = "// edited\n" ++ out := ⟨_, rfl⟩
  have hinput : "u.json" ≠ "-" := by decide
  have hread : (stored variableDump old).read "u.json" = .ok variableDump := rfl
  have hold : (stored variableDump old).read (Plan.plain.destination "u.json") = .ok old := rfl
  obtain ⟨shown, written, e, hshow, hwrite, -, -, hnew, hkept, -, hempty⟩ :=
    shown_iff_lines_differ hinput hread hout hold ""
  have hlength : out.length < old.length := by
    rw [holdText, String.length_append]
    exact Nat.lt_add_of_pos_left (by decide)
  have hpairs : Text.withoutPairs old = old := by
    rw [Text.withoutPairs, Text.unifyPairs_of_no_return, String.ofList_toList]
    intro c hc
    rw [holdText, String.toList_append] at hc
    rcases List.mem_append.mp hc with hc | hc
    · have hplain : '\r' ∉ "// edited\n".toList := by decide
      exact fun heq => hplain (heq ▸ hc)
    · exact fun heq => (closed_of_emission hout).noReturn (heq ▸ hc)
  refine ⟨out, old, shown, written, e, hout, holdText, hshow, hwrite, hnew, fun heq => ?_,
    fun heq => ?_⟩
  · rw [hkept.mp heq] at hlength
    exact lt_irrefl _ hlength
  · rw [hempty, hpairs] at heq
    rcases heq.2 with heq | heq
    · rw [heq] at hlength
      exact lt_irrefl _ hlength
    · rw [← heq, String.length_append] at hlength
      omega

theorem empty_unit_lowers : Plan.plain.lowers "u.json" "\x7b\x7d" = true := by
  decide +kernel

/-- An output whose last line is closed by a pair is written and not shown. -/
theorem paired_line_is_not_shown : ∃ out old shown written e,
    (Plan.plain.emission "u.json" "\x7b\x7d").output = .ok out ∧
    old = String.ofList (out.toList.dropLast ++ ['\r', '\n']) ∧
    (Plan.plain.showing.unit Directory.files "" "u.json").run (stored "\x7b\x7d" old) =
      (shown, stored "\x7b\x7d" old) ∧
    (Plan.plain.writing.unit Directory.files "" "u.json").run (stored "\x7b\x7d" old) =
      (written, e) ∧
    e ≠ stored "\x7b\x7d" old ∧ old ≠ out ∧ shown.output = "" := by
  obtain ⟨out, hout⟩ := Plan.exists_of_lowers empty_unit_lowers
  obtain ⟨old, holdText⟩ : ∃ old, old = String.ofList (out.toList.dropLast ++ ['\r', '\n']) :=
    ⟨_, rfl⟩
  have hclosed := closed_of_emission hout
  have hinput : "u.json" ≠ "-" := by decide
  have hread : (stored "\x7b\x7d" old).read "u.json" = .ok "\x7b\x7d" := rfl
  have hold : (stored "\x7b\x7d" old).read (Plan.plain.destination "u.json") = .ok old := rfl
  obtain ⟨shown, hshow, -, hlines⟩ := run_showing hinput hread hout hold ""
  obtain ⟨written, e, hwrite, -, -, hkept⟩ := run_writing hinput hread hout hold ""
  have hdiffer : old ≠ out := by
    intro heq
    refine hclosed.noReturn ?_
    rw [← heq, holdText]
    simp
  have hsame : Diff.textLines old = Diff.textLines out := by
    obtain ⟨body, hbody, -⟩ := hclosed.closed
    have hreturn : '\r' ∉ body := fun hmem => hclosed.noReturn (hbody ▸ List.mem_append_left _ hmem)
    rw [hbody, List.dropLast_concat] at holdText
    refine (Text.textLines_eq_iff hclosed).mpr ⟨?_, .inl ?_⟩
    · rw [holdText]
      simp
    · rw [← String.toList_inj, Text.withoutPairs, holdText, String.toList_ofList,
        String.toList_ofList, Text.unifyPairs_append hreturn, hbody]
      rfl
  exact ⟨out, old, shown, written, e, hout, holdText, hshow, hwrite,
    fun heq => hdiffer (hkept.mp heq), hdiffer, hlines.mpr hsame⟩

end Command

end DartLowering
