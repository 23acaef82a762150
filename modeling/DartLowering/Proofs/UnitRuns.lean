import DartLowering.Proofs.Destinations
import DartLowering.Proofs.UnitSteps

/-!
Units that work on one directory. The directories that a unit makes are the same for all units and
in all states, and every file it writes is its own output; so which units deliver is settled by the
directory they begin with. When outputs that go to one place are equal, every order leaves each of
them as the content of its file.
-/
namespace DartLowering.Command

open Directory

/-- The directory once the output directory is made in it. -/
def Plan.prepared (p : Plan) (d : Directory) : Directory :=
  (d.makeDirectory p.config.outputDirectory).2

/-- The input can be read and is lowered to `content`. -/
def Plan.Lowers (p : Plan) (d : Directory) (input content : String) : Prop :=
  ∃ text, d.read input = .ok text ∧ (p.emission input text).output = .ok content

/-- The file of the input's output can be written once the output directory is there. -/
structure Plan.Fits (p : Plan) (d : Directory) (input : String) : Prop where
  reaches : (p.prepared d).Reaches (p.destination input)
  free : (p.prepared d).find? (place (p.destination input)) ≠ some .folder

/-- The input is lowered to `content`, which can be written. -/
structure Plan.Lands (p : Plan) (d : Directory) (input content : String) : Prop where
  lowers : p.Lowers d input content
  fits : p.Fits d input

section Prepared

variable {p : Plan} {d : Directory} {input content content' : String} {q : Place}

theorem Plan.Lowers.unique (h : p.Lowers d input content) (h' : p.Lowers d input content') :
    content = content' := by
  obtain ⟨text, hread, hout⟩ := h
  obtain ⟨text', hread', hout'⟩ := h'
  rw [hread] at hread'
  cases hread'
  rw [hout] at hout'
  exact Except.ok.inj hout'

theorem mem_way {path : String} (h : q ∈ (d.way path).1) :
    q <+: place path ∧ d.isFile q = false := by
  obtain ⟨es, hes, rfl, hfile⟩ := mem_extent h
  exact ⟨(List.prefix_append_right_inj _).mpr hes, hfile⟩

theorem find?_prepared (p : Plan) (d : Directory) (q : Place) : (p.prepared d).find? q =
    if q ∈ (d.way p.config.outputDirectory).1 then some .folder else d.find? q :=
  (makeDirectory_eq d p.config.outputDirectory).2 q

/-- What is there stays there. -/
theorem prepared_of_some (p : Plan) {entry : Entry} (h : d.find? q = some entry) :
    (p.prepared d).find? q = some entry := by
  rw [find?_prepared]
  split
  · rename_i hq
    cases entry with
    | folder => rfl
    | file content => exact absurd (isFile_iff.mpr ⟨content, h⟩) (by simp [(mem_way hq).2])
  · exact h

theorem place_destination (hdirectory : p.config.outputDirectory ≠ "") (input : String) :
    ∃ name, place (p.destination input) = place p.config.outputDirectory ++ [name] :=
  place_outputPath hdirectory input

/-- No output stands on the way to the output directory. -/
theorem not_prefix_destination (hdirectory : p.config.outputDirectory ≠ "") (input : String) :
    ¬place (p.destination input) <+: place p.config.outputDirectory := by
  obtain ⟨name, hplace⟩ := place_destination hdirectory input
  intro h
  have hlength := h.length_le
  rw [hplace, List.length_append, List.length_singleton] at hlength
  omega

/-- Where an output can be reached, everything is there that is made for it. -/
theorem keepsFolders_of_reaches {e : Directory} (hkeeps : KeepsFolders d e)
    (hreaches : e.Reaches (p.destination input)) : KeepsFolders (p.prepared d) e := by
  intro q hq
  rw [find?_prepared] at hq
  split at hq
  · rename_i hway
    obtain ⟨hqplace, -⟩ := mem_way hway
    by_cases hdirectory : p.config.outputDirectory = ""
    · rw [hdirectory] at hway
      cases hway
    · obtain ⟨name, hplace⟩ := place_destination hdirectory input
      refine hreaches.grounded q ?_ ?_
      · rw [hplace]
        exact hqplace.trans (List.prefix_append _ _)
      · rintro rfl
        exact not_prefix_destination hdirectory input hqplace
  · exact hkeeps q hq

/-- Where an output fits, the output directory can be made. -/
theorem Plan.Fits.makeDirectory (h : p.Fits d input) :
    (d.makeDirectory p.config.outputDirectory).1 = .ok () := by
  by_cases hdirectory : p.config.outputDirectory = ""
  · rw [hdirectory]
    rfl
  · have hway : (d.way (Path.directory (p.destination input))).2 = none := by
      refine (frontOf_directory (p.destination input)).way h.reaches fun q hfile => ?_
      obtain ⟨content, hfind⟩ := isFile_iff.mp hfile
      rw [prepared_of_some p hfind]
      exact fun heq => by cases heq
    have hmake := (makeDirectory_eq d (Path.directory (p.destination input))).1
    rw [hway, Option.elim_none] at hmake
    rwa [Plan.destination, makeDirectory_outputPath hdirectory] at hmake

end Prepared

/-- What can have become of the directory `d₀` while the units of `inputs` are at work: directories
that are there were there or are made for a unit, and a file has the content it had or that of an
output. -/
structure Sound (p : Plan) (d₀ : Directory) (inputs : List String) (d : Directory) : Prop where
  keeps : KeepsFolders d₀ d
  folders : ∀ q, d.find? q = some .folder → d₀.find? q = some .folder ∨
    (p.prepared d₀).find? q = some .folder ∧ ∃ b ∈ inputs, ∃ content, p.Lowers d₀ b content
  files : ∀ q content, d.find? q = some (.file content) → d₀.find? q = some (.file content) ∨
    ∃ b ∈ inputs, p.Lands d₀ b content ∧ place (p.destination b) = q
  stays : ∀ q, d₀.isFile q = true → d.isFile q = true

/-- What an operation of the unit of `b` can do. -/
structure Moves (p : Plan) (d₀ : Directory) (b : String) (d e : Directory) : Prop where
  keeps : KeepsFolders d e
  folders : ∀ q, e.find? q = some .folder → d.find? q = some .folder ∨
    (p.prepared d₀).find? q = some .folder ∧ ∃ content, p.Lowers d₀ b content
  files : ∀ q content, e.find? q = some (.file content) → d.find? q = some (.file content) ∨
    p.Lands d₀ b content ∧ place (p.destination b) = q
  stays : ∀ q content, d.find? q = some (.file content) → e.find? q = some (.file content) ∨
    place (p.destination b) = q ∧ ∃ content', p.Lands d₀ b content' ∧
      e.find? q = some (.file content')

section Moving

variable {p : Plan} {d₀ d e : Directory} {inputs : List String} {b text content : String}
  {q : Place}

theorem sound_self (p : Plan) (d₀ : Directory) (inputs : List String) : Sound p d₀ inputs d₀ where
  keeps _ hq := hq
  folders _ hq := .inl hq
  files _ _ hq := .inl hq
  stays _ hq := hq

theorem Sound.move (h : Sound p d₀ inputs d) (hb : b ∈ inputs) (hmoves : Moves p d₀ b d e) :
    Sound p d₀ inputs e where
  keeps q hq := hmoves.keeps q (h.keeps q hq)
  folders q hq := by
    rcases hmoves.folders q hq with hq | ⟨hq, hlowers⟩
    · exact h.folders q hq
    · exact .inr ⟨hq, b, hb, hlowers⟩
  files q content hq := by
    rcases hmoves.files q content hq with hq | ⟨hlands, hplace⟩
    · exact h.files q content hq
    · exact .inr ⟨b, hb, hlands, hplace⟩
  stays q hq := by
    obtain ⟨content, hfind⟩ := isFile_iff.mp (h.stays q hq)
    rcases hmoves.stays q content hfind with hsame | ⟨-, content', -, hnew⟩
    · exact isFile_iff.mpr ⟨content, hsame⟩
    · exact isFile_iff.mpr ⟨content', hnew⟩

theorem Sound.bounded (h : Sound p d₀ inputs d) : KeepsFolders d (p.prepared d₀) := by
  intro q hq
  rcases h.folders q hq with hq | ⟨hq, -⟩
  · exact prepared_of_some p hq
  · exact hq

theorem moves_self (p : Plan) (d₀ : Directory) (b : String) (d : Directory) : Moves p d₀ b d d where
  keeps _ hq := hq
  folders _ hq := .inl hq
  files _ _ hq := .inl hq
  stays _ _ hq := .inl hq

/-- On the way to the output directory there are the files that were there. -/
theorem Sound.isFile_eq (h : Sound p d₀ inputs d) (hdirectory : p.config.outputDirectory ≠ "")
    (hq : q <+: place p.config.outputDirectory) : d.isFile q = d₀.isFile q := by
  rw [Bool.eq_iff_iff]
  constructor
  · intro hfile
    obtain ⟨content, hfind⟩ := isFile_iff.mp hfile
    rcases h.files q content hfind with hold | ⟨b, -, -, rfl⟩
    · exact isFile_iff.mpr ⟨content, hold⟩
    · exact absurd hq (not_prefix_destination hdirectory b)
  · exact h.stays q

/-- Making the directory of an output does the same in every state. -/
theorem Sound.makeDirectory (h : Sound p d₀ inputs d) (hread : d₀.read b = .ok text) :
    (d.makeDirectory (Path.directory (p.destination b))).1 =
      (d₀.makeDirectory p.config.outputDirectory).1 ∧
      ∀ q, (d.makeDirectory (Path.directory (p.destination b))).2.find? q =
        if q ∈ (d₀.way p.config.outputDirectory).1 then some .folder else d.find? q := by
  by_cases hdirectory : p.config.outputDirectory = ""
  · have hreaches := (read_eq_ok.mp hread).1.mono h.keeps
    rw [Plan.destination, hdirectory]
    exact (frontOf_outputPath b).makeDirectory hreaches
  · have hway : d.way p.config.outputDirectory = d₀.way p.config.outputDirectory :=
      extent_congr fun q hq => h.isFile_eq hdirectory hq
    obtain ⟨hresult, heffect⟩ := makeDirectory_eq d p.config.outputDirectory
    rw [Plan.destination, makeDirectory_outputPath hdirectory, (makeDirectory_eq d₀ _).1, ← hway]
    exact ⟨hresult, heffect⟩

theorem Sound.not_file_of_way (h : Sound p d₀ inputs d)
    (hq : q ∈ (d₀.way p.config.outputDirectory).1) : d.isFile q = false := by
  obtain ⟨hplace, hfile⟩ := mem_way hq
  by_cases hdirectory : p.config.outputDirectory = ""
  · rw [hdirectory] at hq
    cases hq
  · rw [h.isFile_eq hdirectory hplace, hfile]

/-- Making the directory of an output adds what belongs to the output directory and nothing else. -/
theorem Sound.moves_makeDirectory (h : Sound p d₀ inputs d) (hlowers : p.Lowers d₀ b content)
    (hfind : ∀ q,
      e.find? q = if q ∈ (d₀.way p.config.outputDirectory).1 then some .folder else d.find? q) :
    Moves p d₀ b d e ∧ KeepsFolders (p.prepared d₀) e := by
  refine ⟨⟨?_, ?_, ?_, ?_⟩, ?_⟩
  · intro q hq
    rw [hfind, hq, ite_self]
  · intro q hq
    by_cases hway : q ∈ (d₀.way p.config.outputDirectory).1
    · exact .inr ⟨by rw [find?_prepared, if_pos hway], content, hlowers⟩
    · rw [hfind, if_neg hway] at hq
      exact .inl hq
  · intro q content hq
    by_cases hway : q ∈ (d₀.way p.config.outputDirectory).1
    · rw [hfind, if_pos hway] at hq
      cases hq
    · rw [hfind, if_neg hway] at hq
      exact .inl hq
  · intro q content hq
    have hway : q ∉ (d₀.way p.config.outputDirectory).1 := by
      intro hway
      have hfile := isFile_iff.mpr ⟨content, hq⟩
      rw [h.not_file_of_way hway] at hfile
      cases hfile
    rw [hfind, if_neg hway]
    exact .inl hq
  · intro q hq
    rw [find?_prepared] at hq
    rw [hfind]
    by_cases hway : q ∈ (d₀.way p.config.outputDirectory).1
    · rw [if_pos hway]
    · rw [if_neg hway] at hq ⊢
      exact h.keeps q hq

theorem endsInName_destination (p : Plan) (input : String) : EndsInName (p.destination input) :=
  endsInName_outputPath input p.config.outputDirectory

/-- A state in which everything is made admits exactly the outputs that fit. -/
theorem Sound.write_iff (h : Sound p d₀ inputs d) (hkeeps : KeepsFolders (p.prepared d₀) d) :
    d.write (p.destination b) content = .ok e ↔
      p.Fits d₀ b ∧ e = d.put (place (p.destination b)) (.file content) := by
  have hsame : ∀ q, d.find? q = some .folder ↔ (p.prepared d₀).find? q = some .folder :=
    fun q => ⟨h.bounded q, hkeeps q⟩
  rw [write_eq_ok (endsInName_destination p b)]
  constructor
  · rintro ⟨hreaches, hfree, he⟩
    exact ⟨⟨hreaches.mono h.bounded, mt (hsame _).mpr hfree⟩, he⟩
  · rintro ⟨⟨hreaches, hfree⟩, he⟩
    exact ⟨hreaches.mono hkeeps, mt (hsame _).mp hfree, he⟩

/-- Writing an output changes its own place alone. -/
theorem moves_put (hlands : p.Lands d₀ b content)
    (hfree : d.find? (place (p.destination b)) ≠ some .folder) :
    Moves p d₀ b d (d.put (place (p.destination b)) (.file content)) := by
  have hput := find?_put_file hfree content
  refine ⟨keepsFolders_put hfree, ?_, ?_, ?_⟩
  · intro q hq
    rw [hput] at hq
    split at hq
    · cases hq
    · exact .inl hq
  · intro q content' hq
    rw [hput] at hq
    split at hq
    · rename_i hplace
      cases hq
      exact .inr ⟨hlands, hplace.symm⟩
    · exact .inl hq
  · intro q content' hq
    rw [hput]
    split
    · rename_i hplace
      exact .inr ⟨hplace.symm, content, hlands, rfl⟩
    · exact .inl hq

end Moving

/-- The file of the output holds the output of some unit that goes to the same place. -/
def Holds (p : Plan) (d₀ : Directory) (inputs : List String) (d : Directory)
    (input : String) : Prop :=
  ∃ b ∈ inputs, ∃ content, p.Lands d₀ b content ∧
    place (p.destination b) = place (p.destination input) ∧
    d.find? (place (p.destination input)) = some (.file content)

/-- How far the unit of `a` has come in the state `d`. -/
inductive Progress (p : Plan) (d₀ : Directory) (inputs : List String) (a : String) (d : Directory) :
    Program UnitOutcome → Prop
  | reading (h : ∀ content, d.find? (place a) = some (.file content) ↔
      d₀.find? (place a) = some (.file content)) : Progress p d₀ inputs a d (p.reading a)
  | comparing {text content : String} (hread : d₀.read a = .ok text)
      (hout : (p.emission a text).output = .ok content) :
      Progress p d₀ inputs a d (comparing (p.destination a) content (p.conclusion a text))
  | making {text content : String} (hread : d₀.read a = .ok text)
      (hout : (p.emission a text).output = .ok content) :
      Progress p d₀ inputs a d (making (p.destination a) content (p.conclusion a text))
  | storing {text content : String} (hread : d₀.read a = .ok text)
      (hout : (p.emission a text).output = .ok content) (hkeeps : KeepsFolders (p.prepared d₀) d) :
      Progress p d₀ inputs a d (storing (p.destination a) content (p.conclusion a text))
  | failed {outcome : UnitOutcome} (hfailure : outcome.failure ≠ none)
      (hlost : ∀ content, ¬p.Lands d₀ a content)
      (hkeeps : ∀ content, p.Lowers d₀ a content → KeepsFolders (p.prepared d₀) d) :
      Progress p d₀ inputs a d (.done outcome)
  | delivered {outcome : UnitOutcome} {content : String} (hfailure : outcome.failure = none)
      (hlands : p.Lands d₀ a content) (hkeeps : KeepsFolders (p.prepared d₀) d)
      (hholds : Holds p d₀ inputs d a) : Progress p d₀ inputs a d (.done outcome)

section Stepping

variable {p : Plan} {d₀ d e : Directory} {inputs : List String} {a b : String}
  {program : Program UnitOutcome} {content text : String}

/-- An operation of another unit leaves a unit as far as it was. -/
theorem Progress.frame (h : Progress p d₀ inputs a d program) (hmoves : Moves p d₀ b d e)
    (hb : b ∈ inputs) (hapart : place a ≠ place (p.destination b)) :
    Progress p d₀ inputs a e program := by
  have hkept : KeepsFolders (p.prepared d₀) d → KeepsFolders (p.prepared d₀) e :=
    fun hkeeps q hq => hmoves.keeps q (hkeeps q hq)
  cases h with
  | reading h =>
    refine .reading fun content => ?_
    rw [← h content]
    constructor
    · intro hfile
      rcases hmoves.files _ content hfile with hsame | ⟨-, hplace⟩
      · exact hsame
      · exact absurd hplace.symm hapart
    · intro hfile
      rcases hmoves.stays _ content hfile with hsame | ⟨hplace, -⟩
      · exact hsame
      · exact absurd hplace.symm hapart
  | comparing hread hout => exact .comparing hread hout
  | making hread hout => exact .making hread hout
  | storing hread hout hkeeps => exact .storing hread hout (hkept hkeeps)
  | failed hfailure hlost hkeeps =>
    exact .failed hfailure hlost fun content hlowers => hkept (hkeeps content hlowers)
  | delivered hfailure hlands hkeeps hholds =>
    refine .delivered hfailure hlands (hkept hkeeps) ?_
    obtain ⟨b', hb', content, hlands', hplace', hfile⟩ := hholds
    rcases hmoves.stays _ content hfile with hsame | ⟨hplace, content', hnew, hfile'⟩
    · exact ⟨b', hb', content, hlands', hplace', hsame⟩
    · exact ⟨b, hb, content', hnew, hplace, hfile'⟩

/-- Until it is read, an input is read as it was at the beginning. -/
theorem Sound.read_iff (hsound : Sound p d₀ inputs d)
    (h : ∀ content, d.find? (place a) = some (.file content) ↔
      d₀.find? (place a) = some (.file content))
    (hlate : ∀ text, (p.prepared d₀).read a = .ok text → d₀.read a = .ok text) (text : String) :
    d.read a = .ok text ↔ d₀.read a = .ok text := by
  constructor
  · intro hread
    obtain ⟨hreaches, hfile⟩ := read_eq_ok.mp hread
    refine hlate text (read_eq_ok.mpr ⟨hreaches.mono hsound.bounded, ?_⟩)
    exact prepared_of_some p ((h text).mp hfile)
  · intro hread
    obtain ⟨hreaches, hfile⟩ := read_eq_ok.mp hread
    exact read_eq_ok.mpr ⟨hreaches.mono hsound.keeps, (h text).mpr hfile⟩

/-- Where an output is there already, it could have been written. -/
theorem Sound.fits_of_read (hsound : Sound p d₀ inputs d)
    (hread : d.read (p.destination a) = .ok content) : p.Fits d₀ a := by
  obtain ⟨hreaches, hfile⟩ := read_eq_ok.mp hread
  refine ⟨hreaches.mono hsound.bounded, ?_⟩
  rcases hsound.files _ content hfile with hold | ⟨b, -, hlands, hplace⟩
  · rw [prepared_of_some p hold]
    exact fun heq => by cases heq
  · rw [← hplace]
    exact hlands.fits.free

theorem failure_conclusion_error (p : Plan) (input text : String) (failure : Failure) :
    (p.conclusion input text (.error failure)).failure ≠ none := Option.some_ne_none failure

/-- A unit whose input is read goes on as the text asks for, whatever the state. -/
theorem progress_lowering (hread : d₀.read a = .ok text) :
    Progress p d₀ inputs a d (p.lowering a text) := by
  unfold Plan.lowering
  cases hout : (p.emission a text).output with
  | error failure =>
    have hlost : ∀ content, ¬p.Lowers d₀ a content := by
      rintro content ⟨text', hread', hout'⟩
      rw [hread] at hread'
      cases hread'
      rw [hout] at hout'
      cases hout'
    exact .failed (Option.some_ne_none failure) (fun content h => hlost content h.lowers)
      fun content h => absurd h (hlost content)
  | ok content => exact .comparing hread hout

/-- Whether the input can be read is settled at the beginning. -/
theorem Sound.step_reading (hsound : Sound p d₀ inputs d)
    (h : ∀ content, d.find? (place a) = some (.file content) ↔
      d₀.find? (place a) = some (.file content))
    (hlate : ∀ text, (p.prepared d₀).read a = .ok text → d₀.read a = .ok text) :
    ((p.reading a).step d).2 = d ∧ Progress p d₀ inputs a d ((p.reading a).step d).1 := by
  have hiff := hsound.read_iff h hlate
  rw [Plan.reading, Program.step_read]
  refine ⟨rfl, ?_⟩
  cases hread : d.read a with
  | error e =>
    have hlost : ∀ content, ¬p.Lowers d₀ a content := by
      rintro content ⟨text, hread₀, -⟩
      rw [(hiff text).mpr hread₀] at hread
      cases hread
    exact .failed (Option.some_ne_none _) (fun content h => hlost content h.lowers)
      fun content h => absurd h (hlost content)
  | ok text => exact progress_lowering ((hiff text).mp hread)

/-- An output that is there already is delivered, and any other is to be stored. -/
theorem Sound.step_comparing (hsound : Sound p d₀ inputs d) (ha : a ∈ inputs)
    (hread : d₀.read a = .ok text) (hout : (p.emission a text).output = .ok content) :
    ((comparing (p.destination a) content (p.conclusion a text)).step d).2 = d ∧
      Progress p d₀ inputs a d
        ((comparing (p.destination a) content (p.conclusion a text)).step d).1 := by
  rw [Command.comparing, Program.step_read]
  refine ⟨rfl, ?_⟩
  cases hold : d.read (p.destination a) with
  | error e => exact .making hread hout
  | ok old =>
    by_cases hsame : old = content
    · subst hsame
      obtain ⟨hreaches, hfile⟩ := read_eq_ok.mp hold
      have hlands : p.Lands d₀ a old := ⟨⟨text, hread, hout⟩, hsound.fits_of_read hold⟩
      simp only [if_true]
      exact .delivered rfl hlands (keepsFolders_of_reaches hsound.keeps hreaches)
        ⟨a, ha, old, hlands, rfl, hfile⟩
    · simp only [if_neg hsame]
      exact .making hread hout

/-- Where the directory cannot be made, the output has no place. -/
theorem Sound.step_making (hsound : Sound p d₀ inputs d) (hread : d₀.read a = .ok text)
    (hout : (p.emission a text).output = .ok content)
    (hstep : (making (p.destination a) content (p.conclusion a text)).step d = (program, e)) :
    Moves p d₀ a d e ∧ Progress p d₀ inputs a e program := by
  obtain ⟨hresult, hfind⟩ := hsound.makeDirectory (b := a) hread
  rw [Command.making, Program.step_makeDirectory, hresult, Prod.mk.injEq] at hstep
  obtain ⟨rfl, rfl⟩ := hstep
  obtain ⟨hmoves, hkeeps⟩ := hsound.moves_makeDirectory ⟨text, hread, hout⟩ hfind
  refine ⟨hmoves, ?_⟩
  cases hmade : (d₀.makeDirectory p.config.outputDirectory).1 with
  | error error =>
    refine .failed (failure_conclusion_error p a text _) (fun content hlands => ?_)
      fun _ _ => hkeeps
    rw [hlands.fits.makeDirectory] at hmade
    cases hmade
  | ok u => exact .storing hread hout hkeeps

/-- Once everything is made, an output is stored exactly when it fits. -/
theorem Sound.step_storing (hsound : Sound p d₀ inputs d) (ha : a ∈ inputs)
    (hread : d₀.read a = .ok text) (hout : (p.emission a text).output = .ok content)
    (hkeeps : KeepsFolders (p.prepared d₀) d)
    (hstep : (storing (p.destination a) content (p.conclusion a text)).step d = (program, e)) :
    Moves p d₀ a d e ∧ Progress p d₀ inputs a e program := by
  rw [Command.storing] at hstep
  cases hwrite : d.write (p.destination a) content with
  | error error =>
    rw [Program.step_write_of_error _ hwrite, Prod.mk.injEq] at hstep
    obtain ⟨rfl, rfl⟩ := hstep
    refine ⟨moves_self p d₀ a d,
      .failed (failure_conclusion_error p a text _) (fun content' hlands => ?_) fun _ _ => hkeeps⟩
    rw [(hsound.write_iff hkeeps).mpr ⟨hlands.fits, rfl⟩] at hwrite
    cases hwrite
  | ok stored =>
    rw [Program.step_write_of_ok _ hwrite, Prod.mk.injEq] at hstep
    obtain ⟨rfl, rfl⟩ := hstep
    obtain ⟨hfits, rfl⟩ := (hsound.write_iff hkeeps).mp hwrite
    have hlands : p.Lands d₀ a content := ⟨⟨text, hread, hout⟩, hfits⟩
    have hfree : d.find? (place (p.destination a)) ≠ some .folder :=
      mt (hsound.bounded _) hfits.free
    have hmoves := moves_put hlands hfree
    refine ⟨hmoves, .delivered rfl hlands (fun q hq => hmoves.keeps q (hkeeps q hq))
      ⟨a, ha, content, hlands, rfl, ?_⟩⟩
    rw [find?_put_file hfree, if_pos rfl]

/-- An operation of a unit takes it further. -/
theorem Progress.step (h : Progress p d₀ inputs a d program) (hsound : Sound p d₀ inputs d)
    (ha : a ∈ inputs) (hlate : ∀ text, (p.prepared d₀).read a = .ok text → d₀.read a = .ok text) :
    Moves p d₀ a d (program.step d).2 ∧
      Progress p d₀ inputs a (program.step d).2 (program.step d).1 := by
  cases h with
  | reading h =>
    obtain ⟨hstays, hprogress⟩ := hsound.step_reading h hlate
    rw [hstays]
    exact ⟨moves_self p d₀ a d, hprogress⟩
  | comparing hread hout =>
    obtain ⟨hstays, hprogress⟩ := hsound.step_comparing ha hread hout
    rw [hstays]
    exact ⟨moves_self p d₀ a d, hprogress⟩
  | making hread hout => exact hsound.step_making hread hout (Prod.eta _).symm
  | storing hread hout hkeeps => exact hsound.step_storing ha hread hout hkeeps (Prod.eta _).symm
  | failed hfailure hlost hkeeps => exact ⟨moves_self p d₀ a d, .failed hfailure hlost hkeeps⟩
  | delivered hfailure hlands hkeeps hholds =>
    exact ⟨moves_self p d₀ a d, .delivered hfailure hlands hkeeps hholds⟩

end Stepping

end DartLowering.Command
