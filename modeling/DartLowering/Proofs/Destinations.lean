import DartLowering.Command.Job
import DartLowering.Proofs.MadeDirectories

/-!
Where output goes. A destination ends in a name of its own: the input's last name with another
ending, next to the input or in the output directory.
-/
namespace DartLowering.Command

open DartLowering.Path Directory

section Names

/-- What stands before the last name of a path: nothing, or something that ends in a slash. -/
def IsLead (lead : String) : Prop := lead = "" ∨ ∃ before, lead = before ++ "/"

variable {lead : String}

theorem exists_lead (path : String) :
    ∃ lead last : String, IsLead lead ∧ path = lead ++ last ∧ '/' ∉ last.toList := by
  rcases cut_last path with h | ⟨before, last, rfl, hlast⟩
  · exact ⟨"", path, .inl rfl, String.empty_append.symm, h⟩
  · exact ⟨before ++ "/", last, .inr ⟨before, rfl⟩, rfl, hlast⟩

theorem IsLead.split (h : IsLead lead) :
    ∃ names, ∀ last : String, '/' ∉ last.toList →
      Text.split '/' (lead ++ last) = names ++ [last] := by
  rcases h with rfl | ⟨before, rfl⟩
  · refine ⟨[], fun last hlast => ?_⟩
    rw [String.empty_append, Text.split_of_not_mem hlast, List.nil_append]
  · refine ⟨Text.split '/' before, fun last hlast => ?_⟩
    rw [← Text.split_of_not_mem hlast]
    exact Text.split_append '/' before last

theorem IsLead.isRooted (h : IsLead lead) {last : String} (hlast : '/' ∉ last.toList) :
    isRooted (lead ++ last) = isRooted lead := by
  rcases h with rfl | ⟨before, rfl⟩
  · rw [String.empty_append, isRooted_of_not_mem hlast]
    rfl
  · exact isRooted_append (by simp) last

theorem IsLead.lastElement (h : IsLead lead) {last : List Char} (hlast : '/' ∉ last) :
    lastElement (lead.toList ++ last) = last := by
  have htake : ∀ c ∈ last.reverse, decide (c ≠ '/') = true :=
    ne_of_not_mem (mt List.mem_reverse.mp hlast)
  rw [Path.lastElement, List.reverse_append, List.takeWhile_append_of_pos htake]
  rcases h with rfl | ⟨before, rfl⟩
  · simp
  · simp

/-- The extension ends the last element. -/
theorem extension_suffix (path : String) : (extension path).toList <:+ lastElement path.toList := by
  unfold extension
  by_cases hdot : (lastElement path.toList).contains '.' = true
  · have hmem : '.' ∈ (lastElement path.toList).reverse := by simpa using hdot
    obtain ⟨after, before, hcut, hafter⟩ := List.eq_append_cons_of_mem hmem
    have htake : (lastElement path.toList).reverse.takeWhile (· ≠ '.') = after := by
      rw [hcut, List.takeWhile_append_of_pos (ne_of_not_mem hafter)]
      simp
    have hwhole := congrArg List.reverse hcut
    rw [List.reverse_reverse, List.reverse_append, List.reverse_cons, List.append_assoc] at hwhole
    rw [if_pos hdot, String.toList_ofList, htake, hwhole]
    exact List.suffix_append before.reverse ('.' :: after.reverse)
  · rw [if_neg hdot]
    exact List.nil_suffix

theorem withoutSuffix_append (cs suffix : List Char) :
    Text.withoutSuffix suffix (cs ++ suffix) = cs := by
  have hsuffix : suffix.isSuffixOf (cs ++ suffix) = true :=
    List.isSuffixOf_iff_suffix.mpr (List.suffix_append cs suffix)
  rw [Text.withoutSuffix, if_pos hsuffix]
  simp

/-- The name of an output has the lead of its input. -/
theorem withoutExtension_eq (hlead : IsLead lead) {last : String} (hlast : '/' ∉ last.toList) :
    ∃ stem : String, '/' ∉ stem.toList ∧
      withoutExtension (lead ++ last) (lead ++ last) = lead ++ stem := by
  have helement : lastElement (lead ++ last).toList = last.toList := by
    rw [String.toList_append, hlead.lastElement hlast]
  obtain ⟨stem, hstem⟩ := extension_suffix (lead ++ last)
  rw [helement] at hstem
  refine ⟨String.ofList stem, ?_, ?_⟩
  · rw [String.toList_ofList]
    exact fun hmem => hlast (hstem ▸ List.mem_append_left _ hmem)
  · have hchars : (lead ++ last).toList =
        (lead.toList ++ stem) ++ (extension (lead ++ last)).toList := by
      rw [String.toList_append, ← hstem, List.append_assoc]
    rw [withoutExtension, hchars, withoutSuffix_append, ← String.toList_inj]
    simp

/-- A name that a file can have: no slash, and not the name of a directory itself. -/
structure Proper (name : String) : Prop where
  slash : '/' ∉ name.toList
  nonempty : name ≠ ""
  dot : name ≠ "."
  up : name ≠ ".."

theorem proper_dart {stem : String} (h : '/' ∉ stem.toList) : Proper (stem ++ ".dart") := by
  have hshort : ∀ s : String, s.toList.length < 5 → stem ++ ".dart" ≠ s := by
    rintro s hs rfl
    rw [String.toList_append, List.length_append] at hs
    exact absurd hs (by simp)
  refine ⟨?_, hshort "" (by decide), hshort "." (by decide), hshort ".." (by decide)⟩
  rw [String.toList_append, List.mem_append, not_or]
  exact ⟨h, by decide⟩

theorem base_dart (hlead : IsLead lead) {stem : String} (h : '/' ∉ stem.toList) :
    base (lead ++ (stem ++ ".dart")) = stem ++ ".dart" := by
  have hproper := proper_dart h
  have hdrop : Text.dropTrailing (· = '/') (lead ++ (stem ++ ".dart")).toList =
      lead.toList ++ (stem ++ ".dart").toList := by
    simp [Text.dropTrailing]
  have hname : lastElement (lead.toList ++ (stem ++ ".dart").toList) = (stem ++ ".dart").toList :=
    hlead.lastElement hproper.slash
  rw [base, if_neg (by simp [hproper.nonempty]), hdrop, hname]
  simp

end Names

section Places

variable {input directory : String}

/-- Without an output directory the output stands next to its input. -/
theorem outputPath_beside (input : String) : ∃ names last name, Proper name ∧
    Text.split '/' input = names ++ [last] ∧
      Text.split '/' (outputPath input "") = names ++ [name] ∧
      isRooted (outputPath input "") = isRooted input := by
  obtain ⟨lead, last, hlead, rfl, hlast⟩ := exists_lead input
  obtain ⟨names, hsplit⟩ := hlead.split
  obtain ⟨stem, hstem, hwithout⟩ := withoutExtension_eq hlead hlast
  have hproper := proper_dart hstem
  have hpath : outputPath (lead ++ last) "" = lead ++ (stem ++ ".dart") := by
    rw [outputPath, if_pos rfl, hwithout, String.append_assoc]
  refine ⟨names, last, stem ++ ".dart", hproper, hsplit last hlast, ?_, ?_⟩
  · rw [hpath, hsplit _ hproper.slash]
  · rw [hpath, hlead.isRooted hproper.slash, hlead.isRooted hlast]

/-- With an output directory the output is one more element behind those of the directory. -/
theorem outputPath_inside (hdirectory : directory ≠ "") (input : String) : ∃ name, Proper name ∧
    Stacked (isRooted directory) (elements directory ++ [name]).reverse ∧
      outputPath input directory = spelled (isRooted directory) (elements directory ++ [name]) := by
  obtain ⟨lead, last, hlead, rfl, hlast⟩ := exists_lead input
  obtain ⟨stem, hstem, hwithout⟩ := withoutExtension_eq hlead hlast
  have hproper := proper_dart hstem
  have hpath : outputPath (lead ++ last) directory =
      clean (directory ++ "/" ++ (stem ++ ".dart")) := by
    rw [outputPath, if_neg hdirectory, hwithout, String.append_assoc, base_dart hlead hstem, join,
      if_neg (by simpa using hdirectory)]
  have hrooted : isRooted (directory ++ "/" ++ (stem ++ ".dart")) = isRooted directory := by
    rw [String.append_assoc]
    exact isRooted_append hdirectory _
  have helements :=
    elements_append hdirectory hproper.slash ⟨hproper.nonempty, hproper.dot, hproper.up⟩
  have hstacked := stacked_elements (directory ++ "/" ++ (stem ++ ".dart"))
  rw [hrooted, helements] at hstacked
  refine ⟨stem ++ ".dart", hproper, hstacked, ?_⟩
  rcases clean_cases (directory ++ "/" ++ (stem ++ ".dart")) with hclean | ⟨-, hnone, -⟩
  · rw [hpath, hclean, hrooted, helements]
  · rw [helements] at hnone
    exact absurd hnone (by simp)

theorem endsInName_outputPath (input directory : String) :
    EndsInName (outputPath input directory) := by
  by_cases hdirectory : directory = ""
  · subst hdirectory
    obtain ⟨names, -, name, hproper, -, hsplit, -⟩ := outputPath_beside input
    exact ⟨names, name, hsplit, hproper.nonempty, hproper.dot, hproper.up⟩
  · obtain ⟨name, hproper, hstacked, hpath⟩ := outputPath_inside hdirectory input
    refine ⟨(if isRooted directory then [""] else []) ++ elements directory, name, ?_,
      hproper.nonempty, hproper.dot, hproper.up⟩
    rw [hpath, hstacked.split_spelled (by simp), List.append_assoc]

/-- Next to an input the directory of the output is the one that the input stands in. -/
theorem frontOf_outputPath (input : String) :
    FrontOf (Path.directory (outputPath input "")) input := by
  obtain ⟨names, last, name, -, hinput, houtput, hrooted⟩ := outputPath_beside input
  have hfront := frontOf_directory (outputPath input "")
  refine ⟨hfront.sameRoot.trans hrooted, ?_⟩
  rw [hfront.named, hrooted, hinput, houtput, List.dropLast_concat, List.dropLast_concat]

/-- The output stands directly in the output directory. -/
theorem place_outputPath (hdirectory : directory ≠ "") (input : String) :
    ∃ name, place (outputPath input directory) = place directory ++ [name] := by
  obtain ⟨name, -, hstacked, hpath⟩ := outputPath_inside hdirectory input
  refine ⟨name, ?_⟩
  rw [hpath, place_spelled hstacked, place, List.append_assoc]

theorem makeDirectory_outputPath (hdirectory : directory ≠ "") (input : String) (d : Directory) :
    d.makeDirectory (Path.directory (outputPath input directory)) = d.makeDirectory directory := by
  obtain ⟨name, -, hstacked, hpath⟩ := outputPath_inside hdirectory input
  have hfront := frontOf_directory (outputPath input directory)
  have hrooted : isRooted (Path.directory (outputPath input directory)) = isRooted directory := by
    rw [hfront.sameRoot, hpath, hstacked.isRooted_spelled]
  have helements : elements (Path.directory (outputPath input directory)) = elements directory := by
    rw [hfront.named, hpath, hstacked.isRooted_spelled, hstacked.split_spelled (by simp),
      ← List.append_assoc, List.dropLast_concat, (stacked_elements directory).foldl_elements,
      List.reverse_reverse]
  rw [makeDirectory, makeDirectory, hrooted, helements]

end Places

end DartLowering.Command
