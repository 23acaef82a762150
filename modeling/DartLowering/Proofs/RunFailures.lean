import DartLowering.Command.Job
import DartLowering.Proofs.DecodedTrees
import DartLowering.Proofs.EmissionFailures
import DartLowering.Proofs.Placement

/-!
How a run over a dump fails. Reading ends in a crash or in a report; emission ends in a report or in
the plain failure of a record that has a field of a negative size or of an alignment that is no
power of two. So a run that returns a failure returns one of the known categories, and the refused
fields are the only exceptions.
-/
namespace DartLowering

open Result

namespace Failure

/-- The failure that all wrapping words stand in front of. -/
def innermost : Failure → Failure
  | .wrapped _ inner => inner.innermost
  | f => f

/-- The chain holds a report of a category that runs return. -/
def Returned (f : Failure) : Prop := ∃ c, f.category? = some c ∧ c ∈ categories

theorem report?_of_innermost {text : String} : ∀ {f : Failure}, f.innermost = .plain text →
    f.report? = none ∧ f.isCrash = false
  | .wrapped _ inner, h => report?_of_innermost (f := inner) h
  | .plain _, _ => ⟨rfl, rfl⟩
  | .report _ _ _, h => by cases h
  | .crash, h => by cases h

theorem Returned.isCrash : ∀ {f : Failure}, f.Returned → f.isCrash = false
  | .wrapped _ inner, h => Returned.isCrash (f := inner) h
  | .report _ _ _, _ => rfl
  | .plain _, _ => rfl
  | .crash, ⟨_, hc, _⟩ => by cases hc

theorem returned_report {c : Cause} (hc : c.isReturned = true) (p : Position) :
    (report c p none).Returned :=
  ⟨c.category, rfl, List.contains_iff_mem.mp hc⟩

theorem category?_moveTo (p : Position) : ∀ f : Failure, (f.moveTo p).category? = f.category?
  | .wrapped _ inner => category?_moveTo p inner
  | .report _ _ _ | .plain _ | .crash => rfl

theorem category?_locate (p : Position) (f : Failure) : (f.locate p).category? = f.category? := by
  unfold locate
  split
  · split
    · exact category?_moveTo p f
    · rfl
  · rfl

end Failure

open Layout

/-- A record is refused only for a field, and only where its layout is computed. -/
theorem Record.layout_eq_error {r : Record} {slots : List Slot} {f : Failure}
    (h : r.layout slots = .error f) : r.reported = none ∧
      ∃ s ∈ slots, ∃ fault, checkSlot maxAlignment s = .error fault ∧ f = .plain fault.text := by
  have hchecked : ∀ {layout : List Slot → RecordLayout} {fault : LayoutFault},
      (checkSlots maxAlignment slots >>= fun slots => .ok (layout slots)) = .error fault →
        ∃ s ∈ slots, checkSlot maxAlignment s = .error fault := by
    intro layout fault hlayout
    cases hslots : checkSlots maxAlignment slots with
    | ok checked =>
      rw [hslots] at hlayout
      cases hlayout
    | error other =>
      rw [hslots] at hlayout
      cases hlayout
      exact checkSlots_eq_error hslots
  unfold Record.layout at h
  cases hreported : r.reported with
  | some e =>
    rw [hreported] at h
    cases h
  | none =>
    rw [hreported] at h
    dsimp only at h
    split at h
    · cases h
    · rename_i fault hfault
      cases h
      refine ⟨rfl, ?_⟩
      split at hfault
      · obtain ⟨s, hs, hslot⟩ := hchecked hfault
        exact ⟨s, hs, fault, hslot, rfl⟩
      · obtain ⟨s, hs, hslot⟩ := hchecked hfault
        exact ⟨s, hs, fault, hslot, rfl⟩

namespace TypeEnv

/-- The failure tells of a field that no record can have: without a layout from the dump, its size
is negative or its alignment no power of two. -/
def Refuses (env : TypeEnv) (f : Failure) : Prop :=
  ∃ tag slots s fault, (env.records.find tag).reported = none ∧
    Record.slots env.layoutOf (env.records.find tag).tag.name (env.records.find tag).fields =
      .ok slots ∧
    s ∈ slots ∧ checkSlot maxAlignment s = .error fault ∧ f.innermost = .plain fault.text

theorem Refuses.locate {env : TypeEnv} {f : Failure} (h : env.Refuses f) (p : Position) :
    f.locate p = f := by
  obtain ⟨tag, slots, s, fault, -, -, -, -, hplain⟩ := h
  rw [Failure.locate, (Failure.report?_of_innermost hplain).1]

theorem Refuses.not_returned {env : TypeEnv} {f : Failure} (h : env.Refuses f) :
    f.isCrash = false ∧ ¬ f.Returned := by
  obtain ⟨tag, slots, s, fault, -, -, -, -, hplain⟩ := h
  obtain ⟨hreport, hcrash⟩ := Failure.report?_of_innermost hplain
  refine ⟨hcrash, ?_⟩
  rintro ⟨c, hc, -⟩
  rw [Failure.category?, hreport] at hc
  cases hc

/-- Emission fails with reports and with refused fields. -/
theorem admits {env : TypeEnv} (hacyclic : env.records.Acyclic) :
    Admits (fun f => f.Returned ∨ env.Refuses f) env where
  located p f h := by
    rcases h with ⟨c, hc, hmem⟩ | hrefused
    · exact .inl ⟨c, (f.category?_locate p).trans hc, hmem⟩
    · exact .inr ((hrefused.locate p).symm ▸ hrefused)
  reported c p hc := .inl (Failure.returned_report (Cause.isReturned_of_isOrdinary hc) p)
  layout := by
    refine layoutOf_failsOnly hacyclic (fun c hc => ?_) ?_ ?_
    · exact .inl (Failure.returned_report (Cause.isReturned_of_isOrdinary hc) {})
    · intro words f h
      exact h
    · intro tag slots hslots f hf
      obtain ⟨hreported, s, hs, fault, hfault, rfl⟩ := Record.layout_eq_error hf
      exact .inr ⟨tag, slots, s, fault, hreported, hslots, hs, hfault, rfl⟩
  unplaced tag field f l p _ _ _ := .inl (Failure.returned_report rfl p)

end TypeEnv

namespace Command

/-- A run that was not stopped, over a dump that could be read and whose records do not hold
themselves, fails with a report of a returned category, except where a field was refused. -/
theorem Job.returned_iff_not_refused {job : Job} {text : String} {f : Failure}
    (hrun : job.cancelled = false)
    (hread : Dump.ofText job.source job.markers text ≠ .error .crash)
    (hacyclic : ∀ loaded, Dump.ofText job.source job.markers text = .ok loaded →
      loaded.env.records.Acyclic)
    (h : (job.run text).output = .error f) :
    f.isCrash = false ∧ (f.Returned ↔ ¬ ∃ loaded,
      Dump.ofText job.source job.markers text = .ok loaded ∧ loaded.env.Refuses f) := by
  rw [Job.run] at h
  cases hloaded : Dump.ofText job.source job.markers text with
  | error g =>
    rw [hloaded] at h hread
    cases h
    have hreports : Dump.Reports fun f => f = .crash ∨ f.Returned :=
      ⟨.inl rfl, fun c p hc => .inr (Failure.returned_report (Cause.isReturned_of_isOrdinary hc) p)⟩
    have hkind : f = .crash ∨ f.Returned :=
      hreports.ofText _ _ _ f hloaded
    rcases hkind with rfl | hreturned
    · exact absurd rfl hread
    · refine ⟨hreturned.isCrash, iff_of_true hreturned ?_⟩
      rintro ⟨loaded, hok, -⟩
      cases hok
  | ok loaded =>
    rw [hloaded] at h
    have hgenerate := (TypeEnv.admits (hacyclic loaded hloaded)).generate job.package
    rw [Job.finish, hrun] at h
    rcases ((hgenerate _).bind fun text => failsOnly_ok _) f h with hreturned | hrefused
    · refine ⟨hreturned.isCrash, iff_of_true hreturned ?_⟩
      rintro ⟨loaded', hok, hrefused⟩
      cases hok
      exact hrefused.not_returned.2 hreturned
    · obtain ⟨hcrash, hnot⟩ := hrefused.not_returned
      exact ⟨hcrash, iff_of_false hnot fun hno => hno ⟨loaded, rfl, hrefused⟩⟩

/-- A run over a dump with the usual names and packages. -/
def usualJob : Job := ⟨"in.json", {}, "", false⟩

/-- A variable of a struct with an integer of 24 bits, whose three bytes are no alignment. -/
def oddField : String :=
  "\x7b\"records\":\x7b\"r\":\x7b\"fields\":[\x7b\"name\":\"x\",\"type\":" ++
    "\x7b\"kind\":\"scalar\",\"scalar\":\"int\",\"bits\":24\x7d\x7d]\x7d\x7d," ++
    "\"decls\":[\x7b\"kind\":\"var\",\"type\":\x7b\"kind\":\"record\",\"name\":\"r\"\x7d\x7d]\x7d"

/-- The dump is read, no record in it holds another one, and the run fails without a category. -/
def Job.failsPlainly (job : Job) (text : String) : Bool :=
  match Dump.ofText job.source job.markers text with
  | .ok loaded =>
      loaded.env.records.all (fun r => r.fields.all fun f => f.type.held?.isNone) &&
        match (job.finish (.ok loaded)).output with
        | .error f => f.category?.isNone && !f.isCrash
        | .ok _ => false
  | .error _ => false

theorem failsPlainly_oddField : usualJob.failsPlainly oddField = true := by decide +kernel

theorem Job.failsPlainly_spec {job : Job} {text : String} (h : job.failsPlainly text = true) :
    ∃ loaded f, Dump.ofText job.source job.markers text = .ok loaded ∧
      loaded.env.records.Acyclic ∧ (job.run text).output = .error f ∧ f.category? = none ∧
      f.isCrash = false := by
  unfold failsPlainly at h
  rw [Job.run]
  cases hloaded : Dump.ofText job.source job.markers text with
  | error g =>
    rw [hloaded] at h
    cases h
  | ok loaded =>
    rw [hloaded] at h
    dsimp only at h
    rw [Bool.and_eq_true, List.all_eq_true] at h
    have hacyclic : loaded.env.records.Acyclic := by
      refine RecordTable.acyclic_of_rank (fun _ => 0) fun r hr f hf inner hheld => ?_
      have hnone := List.all_eq_true.mp (h.1 r hr) f hf
      rw [hheld] at hnone
      cases hnone
    cases hrun : (job.finish (.ok loaded)).output with
    | ok out =>
      rw [hrun] at h
      cases h.2
    | error f =>
      rw [hrun, Bool.and_eq_true, Option.isNone_iff_eq_none, Bool.not_eq_true'] at h
      exact ⟨loaded, f, rfl, hacyclic, rfl, h.2⟩

/-- The plain failure of a run over an odd field is one of the exceptions. -/
theorem returned_iff_not_refused_oddField :
    ∃ f, (usualJob.run oddField).output = .error f ∧ f.isCrash = false ∧
      (f.Returned ↔ ¬ ∃ loaded, Dump.ofText usualJob.source usualJob.markers oddField = .ok loaded ∧
        loaded.env.Refuses f) := by
  obtain ⟨loaded, f, hloaded, hacyclic, hf, -⟩ := Job.failsPlainly_spec failsPlainly_oddField
  refine ⟨f, hf, Job.returned_iff_not_refused rfl ?_ (fun loaded' hloaded' => ?_) hf⟩
  · rw [hloaded]
    intro hcrash
    cases hcrash
  · rw [hloaded] at hloaded'
    cases hloaded'
    exact hacyclic

/-- A run over a dump without nested records fails, and its failure has no category. -/
theorem uncategorised_oddField :
    ∃ loaded f, Dump.ofText usualJob.source usualJob.markers oddField = .ok loaded ∧
      loaded.env.records.Acyclic ∧ (usualJob.run oddField).output = .error f ∧
      f.category? = none ∧ f.isCrash = false :=
  Job.failsPlainly_spec failsPlainly_oddField

end Command

end DartLowering
