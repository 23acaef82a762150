import DartLowering.Command.Config
import DartLowering.Proofs.DirectoryAccess
import DartLowering.Proofs.WrittenJson

/-!
Settings that are saved and loaded. The file names every setting, so nothing of the defaults is
left, and every setting is read as it was written.
-/
namespace DartLowering.Command.Config

theorem readsBack_members (c : Config) : ∀ m ∈ c.members, Json.ReadsBack m.2 := by
  intro m hm
  simp only [members, List.mem_cons, List.not_mem_nil, or_false] at hm
  rcases hm with rfl | rfl | rfl | rfl | rfl | rfl | rfl | rfl
  · exact Json.readsBack_bool _
  · exact Json.readsBack_bool _
  · exact Json.readsBack_ofText _
  · exact Json.readsBack_ofText _
  · exact Json.readsBack_ofText _
  · exact Json.readsBack_ofWord _
  · exact Json.readsBack_ofText _
  · exact Json.readsBack_ofText _

/-- The keys are their own folded forms. -/
theorem foldKey_keys :
    ∀ key ∈ ["verbose", "debug", "output_dir", "runtime_package", "runtime_version", "jobs",
    "pass_through_type", "va_list_record"], Json.foldKey key = key := by
  decide

/-- The members of a file set everything. -/
theorem takeMembers_members (defaults c : Config) : defaults.takeMembers c.members = some c := by
  have hkeys := foldKey_keys
  simp only [List.forall_mem_cons] at hkeys
  simp only [members, takeMembers, takeMember, hkeys, readFlag, readText, readWord, Json.ofText,
    Json.ofWord, Json.readDecimal?_decimal, Option.map_some]

theorem ofText?_text (defaults c : Config) : defaults.ofText? c.text = some c := by
  obtain ⟨extent, hread⟩ := Json.readWhole_ofMembers c.readsBack_members
  rw [ofText?, text, members, hread]
  exact takeMembers_members defaults c

section Files

variable {d e : Directory} {path : String}

theorem run_save_of_write {c : Config} (h : d.write path c.text = .ok e) :
    (c.save Directory.files path).run d = (.ok (), e) := by
  rw [save, Directory.run_write_bind, Directory.run_attempt_of_ok h]
  rfl

theorem write_of_run_save {c : Config} (h : (c.save Directory.files path).run d = (.ok (), e)) :
    d.write path c.text = .ok e := by
  cases hwrite : d.write path c.text with
  | error fault =>
    rw [save, Directory.run_write_bind, Directory.run_attempt_of_error hwrite] at h
    cases h
  | ok e' =>
    rw [run_save_of_write hwrite] at h
    cases h
    rfl

theorem run_load_of_read {defaults c : Config} {text : String} (hpath : path ≠ "")
    (hread : d.read path = .ok text) (htext : defaults.ofText? text = some c) :
    (load Directory.files defaults path).run d = (.ok c, d) := by
  rw [load, if_neg hpath, Directory.run_read_bind, hread]
  simp only [htext]
  rfl

/-- Settings survive saving and loading, whatever the defaults are, and they can be saved wherever a
file can be made. -/
theorem load_of_save (c defaults : Config) (path : String) (d : Directory) :
    (∀ e, (c.save Directory.files path).run d = (.ok (), e) →
      (load Directory.files defaults path).run e = (.ok c, e)) ∧
    (∀ q, d.target path = .ok q → ∃ e, (c.save Directory.files path).run d = (.ok (), e)) := by
  constructor
  · intro e hsave
    have hwrite := write_of_run_save hsave
    have hname := Directory.endsInName_of_write hwrite
    exact run_load_of_read hname.ne_empty (Directory.read_of_write hname hwrite)
      (ofText?_text defaults c)
  · intro q htarget
    refine ⟨d.put q (.file c.text), run_save_of_write ?_⟩
    rw [Directory.write, htarget]

/-- Settings that need every kind of escape, and the least number of jobs there is. -/
def escaped : Config where
  verbose := true
  outputDirectory := "out\\\"q\""
  package := "<a>&\u2028\u2029"
  release := "\x00\t\n\x7f"
  jobs := Int64.minValue
  passThrough := "\u00e9\u20ac"
  listRecord := "\u2029😀"

theorem load_of_save_escaped : ∃ e, (escaped.save Directory.files "s.json").run {} = (.ok (), e) ∧
    (load Directory.files ⟨false, true, "d", "p", "r", 4, "t", "l"⟩ "s.json").run e =
      (.ok escaped, e) := by
  obtain ⟨hload, hsave⟩ :=
    load_of_save escaped ⟨false, true, "d", "p", "r", 4, "t", "l"⟩ "s.json" {}
  obtain ⟨e, hsaved⟩ := hsave ["s.json"] rfl
  exact ⟨e, hsaved, hload e hsaved⟩

end Files

end DartLowering.Command.Config
