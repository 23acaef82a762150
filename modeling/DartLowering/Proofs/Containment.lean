import DartLowering.Layout.TypeEnv
import DartLowering.Proofs.Result
import Mathlib.Data.List.Nodup
import Mathlib.Logic.Relation

/-!
Records inside records. A record holds another one by value when a field has it as its type, under
type names and as the element of arrays; what a pointer refers to is not held. Where no record holds
itself, no way down through held records is longer than the table. The bound in `TypeEnv.layoutOf`
is then never reached: every layout is computed from those of the records that are held
(`layoutOf_eq`), and layouts that were kept are the computed ones (`rememberAll_layoutOf`).
-/
namespace DartLowering

open Layout Result

/-- The record that lies in the values of a type. -/
def CType.held? : CType → Option RecordTag
  | .record tag => some tag
  | .array elem _ _ => elem.held?
  | .alias _ underlying => underlying.held?
  | .void | .scalar _ | .pointer _ | .functionPointer _ _ _ | .function _ _ _ | .object _ => none

namespace RecordTable

variable {table : RecordTable} {outer inner other tag : RecordTag}

/-- A field of `outer` has `inner` inside it. -/
def Holds (table : RecordTable) (outer inner : RecordTag) : Prop :=
  ∃ f ∈ (table.find outer).fields, f.type.held? = some inner

/-- No record holds itself, neither directly nor through others. -/
def Acyclic (table : RecordTable) : Prop := ∀ tag, ¬ Relation.TransGen table.Holds tag tag

/-- A record of that name in the table, or else one without fields. -/
theorem find_cases (table : RecordTable) (tag : RecordTag) :
    table.find tag ∈ table ∧ (table.find tag).tag.name = tag.name ∨
      table.find tag = ⟨tag, [], none⟩ := by
  unfold find
  cases hr : List.find? (fun r => r.tag.name == tag.name) table with
  | none => exact .inr rfl
  | some r => exact .inl ⟨List.mem_of_find?_eq_some hr, by simpa using List.find?_some hr⟩

theorem find_find (table : RecordTable) (tag : RecordTag) :
    table.find (table.find tag).tag = table.find tag := by
  rcases table.find_cases tag with ⟨-, hname⟩ | hnone
  · unfold find at hname ⊢
    rw [hname]
    cases hr : List.find? (fun r => r.tag.name == tag.name) table with
    | none => rfl
    | some r => rfl
  · rw [hnone]
    exact hnone

theorem find_of_field {f : Field} (hf : f ∈ (table.find tag).fields) :
    table.find tag ∈ table ∧ (table.find tag).tag.name = tag.name := by
  rcases table.find_cases tag with hfound | hnone
  · exact hfound
  · rw [hnone] at hf
    cases hf

/-- Records are looked up by their names. -/
theorem fields_of_name (h : outer.name = other.name) :
    (table.find outer).fields = (table.find other).fields := by
  unfold find
  rw [h]
  cases List.find? (fun r => r.tag.name == other.name) table <;> rfl

theorem Holds.of_name (h : table.Holds outer inner) (hname : outer.name = other.name) :
    table.Holds other inner := by
  obtain ⟨f, hf, hheld⟩ := h
  exact ⟨f, fields_of_name hname ▸ hf, hheld⟩

/-- Records whose names can be ranked so that what they hold ranks lower. -/
theorem acyclic_of_rank (rank : String → Nat)
    (h : ∀ r ∈ table, ∀ f ∈ r.fields, ∀ inner, f.type.held? = some inner →
      rank inner.name < rank r.tag.name) : table.Acyclic := by
  have hstep : ∀ outer inner, table.Holds outer inner → rank inner.name < rank outer.name := by
    rintro outer inner ⟨f, hf, hheld⟩
    obtain ⟨hmem, hname⟩ := find_of_field hf
    have hlower := h _ hmem f hf inner hheld
    rwa [hname] at hlower
  have hrun : ∀ outer inner, Relation.TransGen table.Holds outer inner →
      rank inner.name < rank outer.name := by
    intro outer inner hreach
    induction hreach with
    | single hholds => exact hstep _ _ hholds
    | tail _ hholds ih => exact Nat.lt_trans (hstep _ _ hholds) ih
  intro tag hcycle
  exact Nat.lt_irrefl _ (hrun tag tag hcycle)

section Descent

variable {motive : Nat → RecordTag → Prop}
  (hstep : ∀ depth tag, (∀ inner, table.Holds tag inner → motive depth inner) →
    motive (depth + 1) tag)

include hstep

/-- A way down from records that were `passed`. They have names of their own in the table, so what
is left of the bound suffices for the rest of the way. -/
theorem Acyclic.descend_from (hacyclic : table.Acyclic) {depth : Nat} {passed : List String}
    (hnodup : passed.Nodup) (hnames : passed ⊆ table.map (·.tag.name))
    (hpassed : ∀ outer : RecordTag, outer.name ∈ passed → Relation.TransGen table.Holds outer tag)
    (hdepth : table.length < depth + passed.length) : motive depth tag := by
  induction depth generalizing passed tag with
  | zero =>
    have hlength := hnodup.length_le_of_subset hnames
    rw [List.length_map] at hlength
    omega
  | succ depth ih =>
    apply hstep
    intro inner hholds
    obtain ⟨f, hf, -⟩ := id hholds
    obtain ⟨hr, hname⟩ := find_of_field hf
    have hnew : tag.name ∉ passed := fun hmem => hacyclic tag (hpassed tag hmem)
    have hmem : tag.name ∈ table.map (·.tag.name) := List.mem_map.mpr ⟨_, hr, hname⟩
    refine ih (List.nodup_cons.mpr ⟨hnew, hnodup⟩) (List.cons_subset.mpr ⟨hmem, hnames⟩) ?_ ?_
    · intro outer houter
      rcases List.mem_cons.mp houter with hsame | hmem
      · exact .single (hholds.of_name hsame.symm)
      · exact .tail (hpassed outer hmem) hholds
    · rw [List.length_cons]
      omega

/-- What a step down carries over holds of every record at the bound of the table. -/
theorem Acyclic.descend (hacyclic : table.Acyclic) (tag : RecordTag) :
    motive (table.length + 1) tag := by
  refine hacyclic.descend_from hstep List.nodup_nil (List.nil_subset _) ?_ ?_
  · intro outer houter
    cases houter
  · rw [List.length_nil]
    omega

end Descent

/-- Induction along held records. -/
theorem Acyclic.induction (hacyclic : table.Acyclic) {motive : RecordTag → Prop}
    (hstep : ∀ tag, (∀ inner, table.Holds tag inner → motive inner) → motive tag)
    (tag : RecordTag) : motive tag :=
  hacyclic.descend (motive := fun _ => motive) (fun _ => hstep) tag

end RecordTable

section Congruence

variable {layoutOf layoutOf' : RecordTag → Result RecordLayout}

/-- The extent of a type depends on the record that it holds. -/
theorem CType.extent_congr :
    ∀ t : CType, (∀ tag, t.held? = some tag → layoutOf' tag = layoutOf tag) →
    t.extent layoutOf' = t.extent layoutOf
  | .scalar _, _ | .pointer _, _ | .functionPointer _ _ _, _ | .object _, _ | .void, _
  | .function _ _ _, _ => rfl
  | .alias _ t, h => t.extent_congr h
  | .record tag, h => by rw [CType.extent, CType.extent, h tag rfl]
  | .array elem length isVariable, h => by rw [CType.extent, CType.extent, elem.extent_congr h]

theorem Record.slots_congr (record : String) {fs : List Field}
    (h : ∀ f ∈ fs, ∀ tag, f.type.held? = some tag → layoutOf' tag = layoutOf tag) :
    Record.slots layoutOf' record fs = Record.slots layoutOf record fs := by
  induction fs with
  | nil => rfl
  | cons f fs ih =>
    rw [List.forall_mem_cons] at h
    have hslot : f.slot layoutOf' record = f.slot layoutOf record := by
      unfold Field.slot
      rw [f.type.extent_congr h.1]
    rw [Record.slots, Record.slots, hslot, ih h.2]

end Congruence

section Failures

/-- The categories of failures that a run over a dump returns. -/
def Failure.categories : List String := ["UNSUPPORTED", "INVARIANT", "DECODE", "CONFIG"]

def Cause.isReturned (c : Cause) : Bool := Failure.categories.contains c.category

/-- The cause is that the layout of a record lacks one of its fields. -/
def Cause.isUnplaced : Cause → Bool
  | .violation (.unplacedField _ _) => true
  | _ => false

/-- The cause is of such a category and may arise anywhere, not only where a field is looked up in a
layout. -/
def Cause.isOrdinary (c : Cause) : Bool := c.isReturned && !c.isUnplaced

theorem Cause.isReturned_of_isOrdinary {c : Cause} (h : c.isOrdinary = true) :
    c.isReturned = true :=
  (Bool.and_eq_true_iff.mp h).1

variable {P : Failure → Prop} {layoutOf : RecordTag → Result RecordLayout}
  (hreport : ∀ c : Cause, c.isOrdinary = true → P (.of c))

include hreport

/-- The extent of a type fails in ways of its own, or as the layout of the record that it holds. -/
theorem CType.extent_failsOnly : ∀ t : CType,
    (∀ tag, t.held? = some tag → FailsOnly P (layoutOf tag)) → FailsOnly P (t.extent layoutOf)
  | .scalar s, _ => by
    rw [CType.extent]
    split
    · exact failsOnly_error.mpr (hreport _ rfl)
    · exact failsOnly_ok _
  | .pointer _, _ | .functionPointer _ _ _, _ | .object _, _ => failsOnly_ok _
  | .void, _ | .function _ _ _, _ => failsOnly_error.mpr (hreport _ rfl)
  | .record tag, h => (h tag rfl).bind fun l => failsOnly_ok _
  | .alias _ t, h => t.extent_failsOnly h
  | .array elem length isVariable, h => by
    rw [CType.extent]
    split
    · exact failsOnly_error.mpr (hreport _ rfl)
    · refine (elem.extent_failsOnly h).bind fun e => ?_
      cases length with
      | none => exact failsOnly_ok _
      | some n =>
        dsimp only
        split
        · exact failsOnly_ok _
        · exact failsOnly_error.mpr (hreport _ rfl)

theorem Record.slots_failsOnly (hwrap : ∀ words f, P f → P (f.wrap words)) (record : String)
    {fs : List Field}
    (h : ∀ f ∈ fs, ∀ tag, f.type.held? = some tag → FailsOnly P (layoutOf tag)) :
    FailsOnly P (Record.slots layoutOf record fs) := by
  induction fs with
  | nil => exact failsOnly_ok _
  | cons f fs ih =>
    rw [List.forall_mem_cons] at h
    have hextent := f.type.extent_failsOnly hreport h.1
    have hslot : FailsOnly P (f.slot layoutOf record) := by
      unfold Field.slot
      cases he : f.type.extent layoutOf with
      | ok e => exact failsOnly_ok _
      | error failure => exact failsOnly_error.mpr (hwrap _ _ (hextent failure he))
    exact hslot.bind fun s => (ih h.2).bind fun ss => failsOnly_ok _

end Failures

namespace TypeEnv

variable {env : TypeEnv} (hacyclic : env.records.Acyclic)

include hacyclic

/-- A layout that was not kept is computed from those of the records that are held. -/
theorem layoutOf_eq {tag : RecordTag} (hknown : env.known? tag = none) :
    env.layoutOf tag =
      (Record.slots env.layoutOf (env.records.find tag).tag.name (env.records.find tag).fields >>=
        (env.records.find tag).layout) := by
  have hmore : env.layoutWithin (env.records.length + 1 + 1) tag = env.layoutOf tag := by
    refine hacyclic.descend (motive := fun depth tag =>
      env.layoutWithin (depth + 1) tag = env.layoutWithin depth tag) (fun depth tag ih => ?_) tag
    rw [layoutWithin, layoutWithin]
    cases env.known? tag with
    | some l => rfl
    | none =>
      dsimp only
      rw [Record.slots_congr _ fun f hf inner hheld => ih inner ⟨f, hf, hheld⟩]
  rw [← hmore, layoutWithin, hknown]
  rfl

/-- A layout fails as extents do, or because its record is refused. -/
theorem layoutOf_failsOnly {P : Failure → Prop}
    (hreport : ∀ c : Cause, c.isOrdinary = true → P (.of c))
    (hwrap : ∀ words f, P f → P (f.wrap words))
    (hrefused : ∀ tag slots,
      Record.slots env.layoutOf (env.records.find tag).tag.name (env.records.find tag).fields =
        .ok slots → FailsOnly P ((env.records.find tag).layout slots))
    (tag : RecordTag) : FailsOnly P (env.layoutOf tag) := by
  induction tag using hacyclic.induction with
  | hstep tag ih =>
    cases hknown : env.known? tag with
    | some l =>
      rw [layoutOf, layoutWithin, hknown]
      exact failsOnly_ok _
    | none =>
      rw [layoutOf_eq hacyclic hknown]
      refine failsOnly_bind.mpr ⟨?_, fun slots hslots => hrefused tag slots hslots⟩
      exact Record.slots_failsOnly hreport hwrap _ fun f hf inner hheld => ih inner ⟨f, hf, hheld⟩

omit hacyclic

def fresh (env : TypeEnv) : TypeEnv := { env with known := [] }

theorem records_of_fresh {env env' : TypeEnv} (h : env.fresh = env'.fresh) :
    env.records = env'.records :=
  calc
    env.records = env.fresh.records := rfl
    _ = env'.fresh.records := by rw [h]
    _ = env'.records := rfl

theorem markers_of_fresh {env env' : TypeEnv} (h : env.fresh = env'.fresh) :
    env.passThrough = env'.passThrough ∧ env.listRecord = env'.listRecord := by
  have hpass : env.fresh.passThrough = env'.fresh.passThrough := by rw [h]
  have hlist : env.fresh.listRecord = env'.fresh.listRecord := by rw [h]
  exact ⟨hpass, hlist⟩

def KeepsComputed (env : TypeEnv) : Prop :=
  ∀ tag l, env.known? tag = some l → env.fresh.layoutOf tag = .ok l

/-- Kept layouts do not show. -/
theorem KeepsComputed.layoutOf (h : env.KeepsComputed) (hacyclic : env.records.Acyclic)
    (tag : RecordTag) : env.layoutOf tag = env.fresh.layoutOf tag := by
  induction tag using hacyclic.induction with
  | hstep tag ih =>
    cases hknown : env.known? tag with
    | some l =>
      rw [h tag l hknown, TypeEnv.layoutOf, layoutWithin, hknown]
    | none =>
      have hfresh : env.fresh.records.Acyclic := hacyclic
      rw [layoutOf_eq hacyclic hknown, layoutOf_eq hfresh rfl]
      exact congrArg (· >>= _)
        (Record.slots_congr _ fun f hf inner hheld => ih inner ⟨f, hf, hheld⟩)

theorem remember_fresh (env : TypeEnv) (tag : RecordTag) :
    (env.remember tag).fresh = env.fresh := by
  unfold remember
  split <;> rfl

theorem KeepsComputed.remember (h : env.KeepsComputed) (hacyclic : env.records.Acyclic)
    (tag : RecordTag) : (env.remember tag).KeepsComputed := by
  have hlayout := h.layoutOf hacyclic tag
  unfold TypeEnv.remember
  cases hl : env.layoutOf tag with
  | error failure => exact h
  | ok l =>
    intro other l' hknown
    unfold TypeEnv.known? at hknown
    by_cases hother : tag = other
    · subst hother
      rw [List.find?_cons_of_pos (by simp)] at hknown
      cases hknown
      exact hlayout.symm.trans hl
    · rw [List.find?_cons_of_neg (by simpa using hother)] at hknown
      exact h other l' hknown

theorem KeepsComputed.foldl_remember (h : env.KeepsComputed) (hacyclic : env.records.Acyclic)
    (rs : List Record) :
    (rs.foldl (fun env r => env.remember r.tag) env).KeepsComputed ∧
      (rs.foldl (fun env r => env.remember r.tag) env).fresh = env.fresh := by
  induction rs generalizing env with
  | nil => exact ⟨h, rfl⟩
  | cons r rs ih =>
    have hfresh := env.remember_fresh r.tag
    have hrecords := records_of_fresh hfresh
    obtain ⟨hkeeps, hsame⟩ := ih (h.remember hacyclic r.tag) (hrecords ▸ hacyclic)
    exact ⟨hkeeps, hsame.trans hfresh⟩

theorem rememberAll_fresh (env : TypeEnv) : env.rememberAll.fresh = env.fresh := by
  have hfold : ∀ rs : List Record,
      (rs.foldl (fun env r => env.remember r.tag) env).fresh = env.fresh := by
    intro rs
    induction rs generalizing env with
    | nil => rfl
    | cons r rs ih => exact (ih (env.remember r.tag)).trans (env.remember_fresh r.tag)
  exact hfold env.records

/-- Keeping the layouts of all records changes none of them. -/
theorem rememberAll_layoutOf (hacyclic : env.records.Acyclic) (tag : RecordTag) :
    env.fresh.rememberAll.layoutOf tag = env.fresh.layoutOf tag := by
  have hnone : env.fresh.KeepsComputed := by
    intro other l hknown
    cases hknown
  obtain ⟨hkeeps, hfresh⟩ := hnone.foldl_remember hacyclic env.records
  have hrecords : env.fresh.rememberAll.records = env.records := records_of_fresh hfresh
  have hrun : env.fresh.rememberAll.records.Acyclic := hrecords ▸ hacyclic
  calc
    env.fresh.rememberAll.layoutOf tag = env.fresh.rememberAll.fresh.layoutOf tag :=
      KeepsComputed.layoutOf hkeeps hrun tag
    _ = env.fresh.layoutOf tag := congrArg (TypeEnv.layoutOf · tag) hfresh

end TypeEnv

end DartLowering
