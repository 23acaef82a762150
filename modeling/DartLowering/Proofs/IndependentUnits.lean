import DartLowering.Proofs.UnitRuns
import Mathlib.Data.List.Nodup

/-!
Whether the units of a run disturb each other. The units perform their file operations in any order;
an invariant says how far each has come, and at the end which of them have delivered is the same in
every order. So the units are undisturbed exactly when outputs that go to one place are equal, and
two inputs of one name lose an output when they share an output directory.
-/
namespace DartLowering.Command

open Directory

/-- The units before their first operation. -/
def Plan.start (p : Plan) (d : Directory) (inputs : List String) : Stage UnitOutcome :=
  ⟨d, inputs.map (p.unit Program.files "")⟩

/-- Different inputs of which none is the output of another one, and none can be read only because
the output directory is made. -/
structure Plan.Separate (p : Plan) (d : Directory) (inputs : List String) : Prop where
  named : "-" ∉ inputs
  distinct : inputs.Nodup
  apart : ∀ a ∈ inputs, ∀ b ∈ inputs, a ≠ b → place a ≠ place (p.destination b)
  steady : ∀ a ∈ inputs, ∀ text, (p.prepared d).read a = .ok text → d.read a = .ok text

/-- The unit on its own lowers its input to `content` and ends without a failure. -/
def Plan.Delivers (p : Plan) (d : Directory) (input content : String) : Prop :=
  p.Lowers d input content ∧ ((p.unit Directory.files "" input).run d).1.failure = none

/-- In every order, each unit that ends without a failure has its own output as the content of its
file, and all files are as the units leave them when they run one after another. -/
structure Plan.Undisturbed (p : Plan) (d : Directory) (inputs : List String) : Prop where
  own : ∀ order outcomes, ((p.start d inputs).play order).Finished outcomes →
    ∀ input outcome, (input, outcome) ∈ inputs.zip outcomes → outcome.failure = none →
      ∃ content, p.Lowers d input content ∧
        ((p.start d inputs).play order).directory.read (p.destination input) = .ok content
  settled : ∀ order outcomes, ((p.start d inputs).play order).Finished outcomes →
    ∀ path, ((p.start d inputs).play order).directory.read path =
      ((p.units Directory.files "" inputs).run d).2.read path

/-- How far the units have come. -/
structure Along (p : Plan) (d₀ : Directory) (inputs : List String) (s : Stage UnitOutcome) :
    Prop where
  sound : Sound p d₀ inputs s.directory
  progress : ∀ i : Nat, ∀ a program, inputs[i]? = some a → s.programs[i]? = some program →
    Progress p d₀ inputs a s.directory program
  length : s.programs.length = inputs.length

section Orders

variable {p : Plan} {d : Directory} {inputs : List String} {a b content content' : String}
  {s t : Stage UnitOutcome} {outcomes others : List UnitOutcome}

theorem Plan.Separate.single (h : p.Separate d inputs) (ha : a ∈ inputs) : p.Separate d [a] where
  named := by
    rw [List.mem_singleton]
    rintro rfl
    exact h.named ha
  distinct := List.nodup_singleton a
  apart := by
    intro b hb c hc hne
    rw [List.mem_singleton] at hb hc
    exact absurd (hb.trans hc.symm) hne
  steady := by
    intro b hb
    rw [List.mem_singleton] at hb
    rw [hb]
    exact h.steady a ha

theorem along_start (hdiff : p.diff = false) (h : p.Separate d inputs) :
    Along p d inputs (p.start d inputs) where
  sound := sound_self p d inputs
  length := List.length_map _
  progress := by
    intro i a program ha hprogram
    have hinput : a ≠ "-" := by
      rintro rfl
      exact h.named (List.mem_of_getElem? ha)
    rw [Plan.start, List.getElem?_map, ha, Option.map_some, unit_program hdiff hinput] at hprogram
    cases hprogram
    exact .reading fun content => Iff.rfl

/-- The unit that performs an operation comes further, and the others stay where they are. -/
theorem Along.advance (hs : Along p d inputs s) (h : p.Separate d inputs) (i : Nat) :
    Along p d inputs (s.advance i) := by
  unfold Stage.advance
  cases hprogram : s.programs[i]? with
  | none => exact hs
  | some program =>
    have hi : i < inputs.length := by
      rw [← hs.length]
      exact (List.getElem?_eq_some_iff.mp hprogram).1
    obtain ⟨b, hb⟩ : ∃ b, inputs[i]? = some b := ⟨_, List.getElem?_eq_getElem hi⟩
    have hmem : b ∈ inputs := List.mem_of_getElem? hb
    obtain ⟨hmoves, hprogress⟩ :=
      (hs.progress i b program hb hprogram).step hs.sound hmem (h.steady b hmem)
    refine ⟨hs.sound.move hmem hmoves, ?_, ?_⟩
    · intro j a other ha hother
      simp only [List.getElem?_set] at hother
      by_cases hij : i = j
      · subst hij
        rw [hb] at ha
        cases ha
        rw [if_pos rfl] at hother
        split at hother
        · cases hother
          exact hprogress
        · cases hother
      · rw [if_neg hij] at hother
        have hne : a ≠ b := by
          rintro rfl
          exact hij ((List.getElem?_inj hi h.distinct).mp (hb.trans ha.symm))
        exact (hs.progress j a other ha hother).frame hmoves hmem
          (h.apart a (List.mem_of_getElem? ha) b hmem hne)
    · rw [List.length_set]
      exact hs.length

/-- The invariant holds in every order. -/
theorem along_play (hdiff : p.diff = false) (h : p.Separate d inputs) (order : List Nat) :
    Along p d inputs ((p.start d inputs).play order) :=
  Stage.play_induction (along_start hdiff h) (fun _ i hs => hs.advance h i) order

/-- Running the units one after another is one of the orders. -/
theorem exists_order_units (h : "-" ∉ inputs) (p : Plan) (d : Directory) :
    ∃ order outcomes, ((p.start d inputs).play order).Finished outcomes ∧
      ((p.start d inputs).play order).directory =
        ((p.units Directory.files "" inputs).run d).2 := by
  obtain ⟨order, hplay⟩ := Stage.exists_order_runAll (inputs.map (p.unit Program.files "")) d
  refine ⟨order, ((Program.runAll (inputs.map (p.unit Program.files ""))).run d).1, ?_, ?_⟩
  · rw [Plan.start, hplay, Stage.Finished]
  · rw [Plan.start, hplay, units_eq_runAll p "" h]

theorem Along.outcome (hs : Along p d inputs s) (hfinished : s.Finished outcomes)
    (ha : a ∈ inputs) : ∃ outcome, (a, outcome) ∈ inputs.zip outcomes := by
  obtain ⟨i, hi⟩ := List.mem_iff_getElem?.mp ha
  have hlength := hs.length
  rw [hfinished, List.length_map] at hlength
  have hbound := (List.getElem?_eq_some_iff.mp hi).1
  have houtcome : outcomes[i]? = some (outcomes.get ⟨i, by omega⟩) := List.getElem?_eq_getElem _
  exact ⟨_, List.mem_iff_getElem?.mpr ⟨i, List.getElem?_zip_eq_some.mpr ⟨hi, houtcome⟩⟩⟩

theorem Along.progress_done (hs : Along p d inputs s) (hfinished : s.Finished outcomes)
    {outcome : UnitOutcome}
    (h : (a, outcome) ∈ inputs.zip outcomes) :
    Progress p d inputs a s.directory (.done outcome) := by
  obtain ⟨i, hi⟩ := List.mem_iff_getElem?.mp h
  obtain ⟨ha, houtcome⟩ := List.getElem?_zip_eq_some.mp hi
  refine hs.progress i a _ ha ?_
  rw [hfinished, List.getElem?_map, houtcome, Option.map_some]

/-- A unit has come to its end by failing or by delivering. -/
theorem Progress.done_cases {e : Directory} {outcome : UnitOutcome}
    (h : Progress p d inputs a e (.done outcome)) :
    (outcome.failure ≠ none ∧ (∀ content, ¬p.Lands d a content) ∧
        ∀ content, p.Lowers d a content → KeepsFolders (p.prepared d) e) ∨
      (outcome.failure = none ∧ (∃ content, p.Lands d a content) ∧
        KeepsFolders (p.prepared d) e ∧ Holds p d inputs e a) := by
  generalize hprogram : Program.done outcome = program at h
  cases h with
  | reading | comparing | making | storing => cases hprogram
  | failed hfailure hlost hkeeps =>
    cases hprogram
    exact .inl ⟨hfailure, hlost, hkeeps⟩
  | delivered hfailure hlands hkeeps hholds =>
    cases hprogram
    exact .inr ⟨hfailure, ⟨_, hlands⟩, hkeeps, hholds⟩

theorem Progress.failure_eq_none_iff {e : Directory} {outcome : UnitOutcome}
    (h : Progress p d inputs a e (.done outcome)) :
    outcome.failure = none ↔ ∃ content, p.Lands d a content := by
  rcases h.done_cases with ⟨hfailure, hlost, -⟩ | ⟨hfailure, hlands, -⟩
  · exact ⟨fun heq => absurd heq hfailure, fun ⟨content, hlands⟩ => absurd hlands (hlost content)⟩
  · exact ⟨fun _ => hlands, fun _ => hfailure⟩

/-- At the end everything is made that a lowered unit asks for. -/
theorem Along.keepsFolders (hs : Along p d inputs s) (hfinished : s.Finished outcomes)
    (ha : a ∈ inputs) (hlowers : p.Lowers d a content) :
    KeepsFolders (p.prepared d) s.directory := by
  obtain ⟨outcome, hmem⟩ := hs.outcome hfinished ha
  rcases (hs.progress_done hfinished hmem).done_cases with ⟨-, -, hkeeps⟩ | ⟨-, -, hkeeps, -⟩
  · exact hkeeps content hlowers
  · exact hkeeps

/-- At the end the place of an output that lands holds an output that lands there. -/
theorem Along.holds (hs : Along p d inputs s) (hfinished : s.Finished outcomes) (ha : a ∈ inputs)
    (hlands : p.Lands d a content) : Holds p d inputs s.directory a := by
  obtain ⟨outcome, hmem⟩ := hs.outcome hfinished ha
  rcases (hs.progress_done hfinished hmem).done_cases with ⟨-, hlost, -⟩ | ⟨-, -, -, hholds⟩
  · exact absurd hlands (hlost content)
  · exact hholds

/-- Delivering is settled by the directory that the unit begins with. -/
theorem delivers_iff (hdiff : p.diff = false) (h : p.Separate d inputs) (ha : a ∈ inputs) :
    p.Delivers d a content ↔ p.Lands d a content := by
  obtain ⟨order, hplay⟩ := Stage.exists_order_run (p.unit Program.files "" a) [] [] d
  have hs := along_play hdiff (h.single ha) order
  rw [List.nil_append, List.nil_append, run_unit_program] at hplay
  rw [Plan.start, List.map_cons, List.map_nil, hplay] at hs
  have hiff := (hs.progress 0 a _ rfl rfl).failure_eq_none_iff
  constructor
  · rintro ⟨hlowers, hfailure⟩
    obtain ⟨content', hlands⟩ := hiff.mp hfailure
    rwa [hlowers.unique hlands.lowers]
  · intro hlands
    exact ⟨hlands.lowers, hiff.mpr ⟨content, hlands⟩⟩

def Plan.Agree (p : Plan) (d : Directory) (inputs : List String) : Prop :=
  ∀ a ∈ inputs, ∀ b ∈ inputs, ∀ x y, p.Lands d a x → p.Lands d b y →
    place (p.destination a) = place (p.destination b) → x = y

theorem Along.find?_of_lands (hs : Along p d inputs s) (hfinished : s.Finished outcomes)
    (hagree : p.Agree d inputs) (ha : a ∈ inputs) (hlands : p.Lands d a content) :
    s.directory.find? (place (p.destination a)) = some (.file content) := by
  obtain ⟨b, hb, content', hlands', hplace, hfile⟩ := hs.holds hfinished ha hlands
  rwa [hagree a ha b hb content content' hlands hlands' hplace.symm]

theorem Along.read_of_lands (hs : Along p d inputs s) (hfinished : s.Finished outcomes)
    (hagree : p.Agree d inputs) (ha : a ∈ inputs) (hlands : p.Lands d a content) :
    s.directory.read (p.destination a) = .ok content := by
  have hkeeps := hs.keepsFolders hfinished ha hlands.lowers
  exact read_eq_ok.mpr
    ⟨hlands.fits.reaches.mono hkeeps, hs.find?_of_lands hfinished hagree ha hlands⟩

/-- What one order leaves, every order leaves. -/
theorem Along.find?_mono (hs : Along p d inputs s) (hfinished : s.Finished outcomes)
    (ht : Along p d inputs t)
    (hothers : t.Finished others) (hagree : p.Agree d inputs) {q : Place} {entry : Entry}
    (h : s.directory.find? q = some entry) : t.directory.find? q = some entry := by
  cases entry with
  | folder =>
    rcases hs.sound.folders q h with hold | ⟨hmade, b, hb, content, hlowers⟩
    · exact ht.sound.keeps q hold
    · exact ht.keepsFolders hothers hb hlowers q hmade
  | file content =>
    rcases hs.sound.files q content h with hold | ⟨b, hb, hlands, rfl⟩
    · -- a file that no unit has replaced in one order is not replaced by other content in another
      obtain ⟨content', hfile⟩ := isFile_iff.mp (ht.sound.stays q (isFile_iff.mpr ⟨content, hold⟩))
      rcases ht.sound.files q content' hfile with hold' | ⟨b, hb, hlands, rfl⟩
      · rw [hfile, ← hold', hold]
      · rw [hs.find?_of_lands hfinished hagree hb hlands] at h
        rwa [← h]
    · exact ht.find?_of_lands hothers hagree hb hlands

theorem Along.read_eq (hs : Along p d inputs s) (hfinished : s.Finished outcomes)
    (ht : Along p d inputs t)
    (hothers : t.Finished others) (hagree : p.Agree d inputs) (path : String) :
    s.directory.read path = t.directory.read path := by
  refine read_congr (fun q => Option.ext fun entry => ⟨?_, ?_⟩) path
  · exact hs.find?_mono hfinished ht hothers hagree
  · exact ht.find?_mono hothers hs hfinished hagree

theorem Plan.Agree.undisturbed (hagree : p.Agree d inputs) (hdiff : p.diff = false)
    (h : p.Separate d inputs) : p.Undisturbed d inputs where
  own := by
    intro order outcomes hfinished a outcome hmem hfailure
    have hs := along_play hdiff h order
    obtain ⟨content, hlands⟩ := (hs.progress_done hfinished hmem).failure_eq_none_iff.mp hfailure
    exact ⟨content, hlands.lowers,
      hs.read_of_lands hfinished hagree (List.of_mem_zip hmem).1 hlands⟩
  settled := by
    intro order outcomes hfinished path
    obtain ⟨sequence, others, hothers, hdirectory⟩ := exists_order_units h.named p d
    rw [← hdirectory]
    exact (along_play hdiff h order).read_eq hfinished (along_play hdiff h sequence) hothers
      hagree path

/-- Two outputs at one place cannot both be kept there. -/
theorem Plan.Undisturbed.agree (hundisturbed : p.Undisturbed d inputs) (hdiff : p.diff = false)
    (h : p.Separate d inputs) : p.Agree d inputs := by
  obtain ⟨order, outcomes, hfinished, -⟩ := exists_order_units h.named p d
  have hs := along_play hdiff h order
  have hfile : ∀ a ∈ inputs, ∀ x, p.Lands d a x →
      ((p.start d inputs).play order).directory.find? (place (p.destination a)) =
        some (.file x) := by
    intro a ha x hlands
    obtain ⟨outcome, hmem⟩ := hs.outcome hfinished ha
    have hfailure := (hs.progress_done hfinished hmem).failure_eq_none_iff.mpr ⟨x, hlands⟩
    obtain ⟨content, hlowers, hread⟩ :=
      hundisturbed.own order outcomes hfinished a outcome hmem hfailure
    rw [hlands.lowers.unique hlowers]
    exact (read_eq_ok.mp hread).2
  intro a ha b hb x y hx hy hplace
  have heq := (hfile a ha x hx).symm.trans ((congrArg _ hplace).trans (hfile b hb y hy))
  cases heq
  rfl

end Orders

/-- Units are undisturbed exactly when outputs that are delivered to one place are equal. -/
theorem undisturbed_iff_outputs_agree {p : Plan} {d : Directory} {inputs : List String}
    (hdiff : p.diff = false) (h : p.Separate d inputs) :
    p.Undisturbed d inputs ↔ ∀ a ∈ inputs, ∀ b ∈ inputs, ∀ x y, p.Delivers d a x →
      p.Delivers d b y → place (p.destination a) = place (p.destination b) → x = y := by
  constructor
  · intro hundisturbed a ha b hb x y hx hy
    rw [delivers_iff hdiff h ha] at hx
    rw [delivers_iff hdiff h hb] at hy
    exact hundisturbed.agree hdiff h a ha b hb x y hx hy
  · intro hagree
    refine Plan.Agree.undisturbed (fun a ha b hb x y hx hy => ?_) hdiff h
    exact hagree a ha b hb x y ((delivers_iff hdiff h ha).mpr hx) ((delivers_iff hdiff h hb).mpr hy)

theorem Plan.Fits.of_write {p : Plan} {d e : Directory} {input : String} (content : String)
    (h : (p.prepared d).write (p.destination input) content = .ok e) : p.Fits d input := by
  obtain ⟨hreaches, hfree, -⟩ := (write_eq_ok (endsInName_destination p input)).mp h
  exact ⟨hreaches, hfree⟩

/-- Inputs that are there can be read with the output directory and without it. -/
theorem Plan.Separate.of_reads {p : Plan} {d : Directory} {inputs : List String}
    (hnamed : "-" ∉ inputs) (hdistinct : inputs.Nodup)
    (hapart : ∀ a ∈ inputs, ∀ b ∈ inputs, a ≠ b → place a ≠ place (p.destination b))
    (hread : ∀ a ∈ inputs, ∃ text, d.read a = .ok text) : p.Separate d inputs where
  named := hnamed
  distinct := hdistinct
  apart := hapart
  steady := by
    intro a ha text htext
    obtain ⟨text', hread⟩ := hread a ha
    obtain ⟨-, hfile⟩ := read_eq_ok.mp hread
    have hsame := (read_eq_ok.mp htext).2
    rw [prepared_of_some p hfile] at hsame
    cases hsame
    exact hread

/-- A plan that gathers the outputs in a directory. -/
def Plan.gathering : Plan := ⟨{ jobs := 1, outputDirectory := "out" }, false, false, false⟩

def oneVariable : String :=
  "\x7b\"decls\":[\x7b\"kind\":\"var\",\"name\":\"x\"," ++
    "\"type\":\x7b\"kind\":\"scalar\",\"scalar\":\"int\"\x7d\x7d]\x7d"

/-- An empty dump and another one in two directories. -/
def twoUnits (name : String) : Directory :=
  ⟨[(["x"], .folder), (["x", "a.json"], .file "\x7b\x7d"), (["y"], .folder),
    (["y", name], .file oneVariable)]⟩

/-- Inputs of different names are undisturbed in an output directory that they make. -/
theorem different_names_are_undisturbed :
    Plan.gathering.Separate (twoUnits "b.json") ["x/a.json", "y/b.json"] ∧
      Plan.gathering.Undisturbed (twoUnits "b.json") ["x/a.json", "y/b.json"] := by
  have hseparate : Plan.gathering.Separate (twoUnits "b.json") ["x/a.json", "y/b.json"] := by
    refine .of_reads (by decide) (by decide) (by decide) fun a ha => ?_
    rcases List.mem_pair.mp ha with rfl | rfl
    · exact ⟨_, rfl⟩
    · exact ⟨_, rfl⟩
  have hplaces : ∀ a ∈ ["x/a.json", "y/b.json"], ∀ b ∈ ["x/a.json", "y/b.json"],
      place (Plan.gathering.destination a) = place (Plan.gathering.destination b) → a = b := by
    decide +kernel
  refine ⟨hseparate, (undisturbed_iff_outputs_agree rfl hseparate).mpr ?_⟩
  intro a ha b hb x y hx hy hplace
  cases hplaces a ha b hb hplace
  exact hx.1.unique hy.1

/-- The units are lowered, and not to the same output. -/
def Plan.lowersApart (p : Plan) (a b first second : String) : Bool :=
  match (p.emission a first).output, (p.emission b second).output with
  | .ok x, .ok y => x != y
  | _, _ => false

theorem Plan.exists_of_lowersApart {p : Plan} {a b first second : String}
    (h : p.lowersApart a b first second = true) :
    ∃ x y, (p.emission a first).output = .ok x ∧ (p.emission b second).output = .ok y ∧ x ≠ y := by
  unfold Plan.lowersApart at h
  cases hx : (p.emission a first).output with
  | error failure =>
    rw [hx] at h
    cases h
  | ok x =>
    cases hy : (p.emission b second).output with
    | error failure =>
      rw [hx, hy] at h
      cases h
    | ok y =>
      rw [hx, hy] at h
      exact ⟨x, y, rfl, rfl, bne_iff_ne.mp h⟩

/-- Inputs of one name lose an output when the outputs are gathered in one directory. -/
theorem namesakes_are_disturbed :
    Plan.gathering.Separate (twoUnits "a.json") ["x/a.json", "y/a.json"] ∧
      ¬Plan.gathering.Undisturbed (twoUnits "a.json") ["x/a.json", "y/a.json"] := by
  have hseparate : Plan.gathering.Separate (twoUnits "a.json") ["x/a.json", "y/a.json"] := by
    refine .of_reads (by decide) (by decide) (by decide) fun a ha => ?_
    rcases List.mem_pair.mp ha with rfl | rfl
    · exact ⟨_, rfl⟩
    · exact ⟨_, rfl⟩
  have hapart : Plan.gathering.lowersApart "x/a.json" "y/a.json" "\x7b\x7d" oneVariable = true := by
    decide +kernel
  obtain ⟨x, y, hx, hy, hne⟩ := Plan.exists_of_lowersApart hapart
  have hfits : ∀ a ∈ ["x/a.json", "y/a.json"], Plan.gathering.Fits (twoUnits "a.json") a := by
    intro a ha
    rcases List.mem_pair.mp ha with rfl | rfl
    · exact .of_write "" rfl
    · exact .of_write "" rfl
  have hplace : place (Plan.gathering.destination "x/a.json") =
      place (Plan.gathering.destination "y/a.json") := by
    decide +kernel
  refine ⟨hseparate, fun hundisturbed => hne ?_⟩
  exact hundisturbed.agree rfl hseparate "x/a.json" (by decide) "y/a.json" (by decide) x y
    ⟨⟨_, rfl, hx⟩, hfits _ (by decide)⟩ ⟨⟨_, rfl, hy⟩, hfits _ (by decide)⟩ hplace

end DartLowering.Command
