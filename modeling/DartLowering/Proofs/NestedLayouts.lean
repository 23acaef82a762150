import DartLowering.Proofs.Containment
import DartLowering.Proofs.Placement

/-!
Computed layouts through any nesting. `CType.measure?` gives sizes and alignments in exact numbers,
and nothing for a type that no memory can be laid out for. In a `RecordTable.Regular` table no
record holds itself or has a reported layout, scalars have the widths of their kinds, and exact
sizes lie below 2^63. There `TypeEnv.extent` and `TypeEnv.layoutOf` give the words of the exact
numbers, or else report what the type is to blame for; and the layout of every record is
`RecordLayout.Sound`.
-/
namespace DartLowering

open Layout Result

section Exact

/-- Size and alignment of a type in exact numbers. -/
def CType.measure? (measureOf : RecordTag → Option Measure) : CType → Option Measure
  | .scalar s => some ⟨s.bits.toNatClampNeg / 8, s.bits.toNatClampNeg / 8⟩
  | .pointer _ | .functionPointer _ _ _ | .object _ => some ⟨8, 8⟩
  | .array elem length isVariable =>
      if isVariable then none
      else
        (elem.measure? measureOf).bind fun p =>
          match length with
          | none => some ⟨0, p.align⟩
          | some n =>
              if n < 0 ∨ p.size = 0 then none else some ⟨n.toNatClampNeg * p.size, p.align⟩
  | .record tag => measureOf tag
  | .alias _ underlying => underlying.measure? measureOf
  | .void | .function _ _ _ => none

def Record.measures? (measureOf : RecordTag → Option Measure) : List Field → Option (List Measure)
  | [] => some []
  | f :: fs =>
      (f.type.measure? measureOf).bind fun p =>
        (Record.measures? measureOf fs).map fun ps => p :: ps

def Record.measure (r : Record) (ps : List Measure) : Measure :=
  if r.tag.isUnion then unionMeasure ps else structMeasure ps

namespace RecordTable

/-- The measure of a record that nests at most `depth` records, itself included. -/
def measureWithin (table : RecordTable) : Nat → RecordTag → Option Measure
  | 0, _ => none
  | depth + 1, tag =>
      (Record.measures? (table.measureWithin depth) (table.find tag).fields).map
        (table.find tag).measure

def measureOf (table : RecordTable) (tag : RecordTag) : Option Measure :=
  table.measureWithin (table.length + 1) tag

end RecordTable

variable {measureOf measureOf' : RecordTag → Option Measure}

theorem CType.measure?_congr :
    ∀ t : CType, (∀ tag, t.held? = some tag → measureOf' tag = measureOf tag) →
    t.measure? measureOf' = t.measure? measureOf
  | .scalar _, _ | .pointer _, _ | .functionPointer _ _ _, _ | .object _, _ | .void, _
  | .function _ _ _, _ => rfl
  | .alias _ t, h => t.measure?_congr h
  | .record tag, h => h tag rfl
  | .array elem length isVariable, h => by
    rw [CType.measure?, CType.measure?, elem.measure?_congr h]

theorem Record.measures?_congr {fs : List Field}
    (h : ∀ f ∈ fs, ∀ tag, f.type.held? = some tag → measureOf' tag = measureOf tag) :
    Record.measures? measureOf' fs = Record.measures? measureOf fs := by
  induction fs with
  | nil => rfl
  | cons f fs ih =>
    rw [List.forall_mem_cons] at h
    rw [Record.measures?, Record.measures?, f.type.measure?_congr h.1, ih h.2]

theorem RecordTable.measureOf_eq {table : RecordTable} (hacyclic : table.Acyclic)
    (tag : RecordTag) : table.measureOf tag =
      (Record.measures? table.measureOf (table.find tag).fields).map (table.find tag).measure := by
  have hmore : table.measureWithin (table.length + 1 + 1) tag = table.measureOf tag := by
    refine hacyclic.descend (motive := fun depth tag =>
      table.measureWithin (depth + 1) tag = table.measureWithin depth tag)
        (fun depth tag ih => ?_) tag
    rw [measureWithin, measureWithin]
    rw [Record.measures?_congr fun f hf inner hheld => ih inner ⟨f, hf, hheld⟩]
  rw [← hmore, measureWithin]
  rfl

end Exact

section Assumptions

/-- Scalars in values of the type have the widths of their kinds. -/
def CType.Canonical : CType → Prop
  | .scalar s => s.kind.canonical?.map Scalar.bits = some s.bits
  | .array elem _ _ => elem.Canonical
  | .alias _ underlying => underlying.Canonical
  | _ => True

instance CType.decidableCanonical : (t : CType) → Decidable t.Canonical
  | .scalar s => inferInstanceAs (Decidable (s.kind.canonical?.map Scalar.bits = some s.bits))
  | .array elem _ _ => elem.decidableCanonical
  | .alias _ underlying => underlying.decidableCanonical
  | .void | .pointer _ | .functionPointer _ _ _ | .record _ | .function _ _ _ | .object _ =>
    .isTrue trivial

/-- The type itself, what its name stands for, and the elements of arrays. -/
def CType.parts : CType → List CType
  | .array elem length isVariable => .array elem length isVariable :: elem.parts
  | .alias name underlying => .alias name underlying :: underlying.parts
  | t => [t]

theorem CType.self_mem_parts (t : CType) : t ∈ t.parts := by
  cases t with
  | _ => exact List.mem_cons_self

/-- The exact sizes of the parts lie below 2^63. -/
def CType.Small (measureOf : RecordTag → Option Measure) (t : CType) : Prop :=
  ∀ u ∈ t.parts, ∀ p ∈ u.measure? measureOf, p.size < 2 ^ 63

instance (measureOf : RecordTag → Option Measure) (t : CType) : Decidable (t.Small measureOf) :=
  inferInstanceAs (Decidable (∀ u ∈ t.parts, ∀ p ∈ u.measure? measureOf, p.size < 2 ^ 63))

/-- Layouts are computed, and from exact sizes that a word can hold. -/
structure RecordTable.Regular (table : RecordTable) : Prop where
  acyclic : table.Acyclic
  unreported : ∀ r ∈ table, r.reported = none
  canonical : ∀ r ∈ table, ∀ f ∈ r.fields, f.type.Canonical
  small : ∀ r ∈ table, (CType.record r.tag).Small table.measureOf ∧
    ∀ f ∈ r.fields, f.type.Small table.measureOf

/-- What in a type, or in the fields of a record that it holds, stands against a layout. -/
inductive CType.Blames (table : RecordTable) : CType → Cause → Prop
  | variableLength (elem : CType) (length : Option Int64) :
      Blames table (.array elem length true) .variableLengthArray
  | void : Blames table .void (.unsupported (.storage CType.void.text))
  | function (params : List CType) (result : CType) (variadic : Bool) :
      Blames table (.function params result variadic)
        (.unsupported (.storage (CType.function params result variadic).text))
  | negative {n : Int64} (elem : CType) (hn : n < 0) :
      Blames table (.array elem (some n) false) (.violation (.arrayLayout (.negativeLength n)))
  | empty {elem : CType} {align : Nat} (n : Int64)
      (helem : elem.measure? table.measureOf = some ⟨0, align⟩) :
      Blames table (.array elem (some n) false) (.violation (.arrayLayout (.elementSize 0)))
  | element {elem : CType} {c : Cause} (length : Option Int64) (h : Blames table elem c) :
      Blames table (.array elem length false) c
  | named {t : CType} {c : Cause} (name : String) (h : Blames table t c) :
      Blames table (.alias name t) c
  | field {tag : RecordTag} {f : Field} {c : Cause} (hf : f ∈ (table.find tag).fields)
      (h : Blames table f.type c) : Blames table (.record tag) c

theorem CType.Blames.category {table : RecordTable} {t : CType} {c : Cause}
    (h : t.Blames table c) : c.category = "UNSUPPORTED" ∨ c.category = "INVARIANT" := by
  induction h with
  | variableLength | void | function => exact .inl rfl
  | negative | empty => exact .inr rfl
  | element _ _ ih | named _ _ ih | field _ _ ih => exact ih

end Assumptions

/-- Every field has the extent of its type, at a multiple of its alignment and inside the record;
those of a struct come one after the other. -/
structure Layout.RecordLayout.Sound (extent : CType → Result Extent) (r : Record)
    (l : RecordLayout) : Prop where
  fields : List.Forall₂ (fun f s => s.name = f.name ∧ extent f.type = .ok ⟨s.size, s.align⟩)
    r.fields l.fields
  aligned : ∀ s ∈ l.fields, s.align.toInt ∣ s.offset.toInt
  within : ∀ s ∈ l.fields, 0 ≤ s.offset.toInt ∧ s.offset.toInt + s.size.toInt ≤ l.size.toInt
  apart : r.tag.isUnion = false →
    l.fields.Pairwise fun s s' => s.offset.toInt + s.size.toInt ≤ s'.offset.toInt

/-- The failure reports what the type is to blame for. -/
def Failure.Blames (f : Failure) (table : RecordTable) (t : CType) : Prop :=
  ∃ c, f.report? = some (c, {}, none) ∧ t.Blames table c

/-- Exact numbers and their words, or neither. -/
inductive Measured (table : RecordTable) (t : CType) : Option Measure → Result Extent → Prop
  | placed {p : Measure} (h : p.Natural) :
      Measured table t (some p) (.ok ⟨Int64.ofNat p.size, Int64.ofNat p.align⟩)
  | refused {f : Failure} (h : f.Blames table t) : Measured table t none (.error f)

section Types

variable {table : RecordTable} {layoutOf : RecordTag → Result RecordLayout}

theorem measured_scalar {s : Scalar} (h : (CType.scalar s).Canonical) :
    Measured table (.scalar s) ((CType.scalar s).measure? table.measureOf)
      ((CType.scalar s).extent layoutOf) := by
  have hword : ∀ k ≤ 3, s.bits = Int64.ofNat (8 * 2 ^ k) →
      Measured table (.scalar s) ((CType.scalar s).measure? table.measureOf)
        ((CType.scalar s).extent layoutOf) := by
    intro k hk hbits
    rw [CType.measure?, CType.extent, hbits]
    have hnatural : Measure.Natural ⟨2 ^ k, 2 ^ k⟩ := ⟨⟨k, hk, rfl⟩, Nat.dvd_refl _⟩
    have hplaced : Measured table (.scalar s) (some ⟨2 ^ k, 2 ^ k⟩)
        (.ok ⟨Int64.ofNat (2 ^ k), Int64.ofNat (2 ^ k)⟩) := .placed hnatural
    interval_cases k <;> exact hplaced
  obtain ⟨kind, bits, signed⟩ := s
  cases kind with
  | bool | char | schar | uchar => exact hword 0 (by decide) (Option.some.inj h).symm
  | short | ushort => exact hword 1 (by decide) (Option.some.inj h).symm
  | int | uint | float => exact hword 2 (by decide) (Option.some.inj h).symm
  | long | ulong | longlong | ulonglong | double =>
    exact hword 3 (by decide) (Option.some.inj h).symm
  | unrecognised code => cases h

theorem ofNat_toNatClampNeg {n : Int64} (h : 0 ≤ n) : Int64.ofNat n.toNatClampNeg = n := by
  rw [← Int64.ofInt_eq_ofNat, ← Int64.toInt_eq_toNatClampNeg h, Int64.ofInt_toInt]

theorem measured_array {elem : CType}
    (hsmall : ∀ p ∈ elem.measure? table.measureOf, p.size < 2 ^ 63)
    (helem : Measured table elem (elem.measure? table.measureOf) (elem.extent layoutOf))
    (length : Option Int64) (isVariable : Bool) :
    Measured table (.array elem length isVariable)
      ((CType.array elem length isVariable).measure? table.measureOf)
      ((CType.array elem length isVariable).extent layoutOf) := by
  rw [CType.measure?, CType.extent]
  cases isVariable with
  | true => exact .refused ⟨_, rfl, .variableLength elem length⟩
  | false =>
    rw [if_neg Bool.false_ne_true, if_neg Bool.false_ne_true]
    generalize hm : elem.measure? table.measureOf = m at helem hsmall ⊢
    generalize elem.extent layoutOf = x at helem ⊢
    cases helem with
    | refused h =>
      obtain ⟨c, hreport, hblames⟩ := h
      exact .refused ⟨c, hreport, .element length hblames⟩
    | @placed p h =>
      rw [Option.bind_some, ok_bind]
      cases length with
      | none => exact .placed (p := ⟨0, p.align⟩) ⟨h.align, Nat.dvd_zero _⟩
      | some n =>
        dsimp only
        by_cases hn : n < 0
        · rw [if_pos (.inl hn), arrayLayout, if_pos hn]
          exact .refused ⟨_, rfl, .negative elem hn⟩
        · by_cases hzero : p.size = 0
          · rw [if_pos (.inr hzero), arrayLayout, if_neg hn, hzero, if_pos (by decide)]
            obtain ⟨size, align⟩ := p
            subst hzero
            exact .refused ⟨_, rfl, .empty n hm⟩
          · rw [if_neg (not_or.mpr ⟨hn, hzero⟩)]
            obtain ⟨hpos, hpower, -⟩ := h.align_word
            have hsize : 0 < Int64.ofNat p.size :=
              (Int64.ofNat_lt_iff_lt (by decide) (hsmall p rfl)).mpr (Nat.pos_of_ne_zero hzero)
            rw [arrayLayout, if_neg hn, if_neg (Int64.not_le.mpr hsize), if_neg hpos]
            dsimp only
            rw [if_pos hpower]
            have hwords : n * Int64.ofNat p.size = Int64.ofNat (n.toNatClampNeg * p.size) := by
              rw [Int64.ofNat_mul, ofNat_toNatClampNeg (Int64.not_lt.mp hn)]
            rw [hwords]
            exact .placed (p := ⟨n.toNatClampNeg * p.size, p.align⟩)
              ⟨h.align, Nat.dvd_mul_left_of_dvd h.dvd _⟩

theorem Measured.named {t : CType} {m : Option Measure} {x : Result Extent} (name : String)
    (h : Measured table t m x) : Measured table (.alias name t) m x := by
  cases h with
  | placed h => exact .placed h
  | refused h =>
    obtain ⟨c, hreport, hblames⟩ := h
    exact .refused ⟨c, hreport, .named name hblames⟩

theorem Measured.words {t : CType} {m : Option Measure} {e : Extent}
    (h : Measured table t m (.ok e)) (hsmall : ∀ p ∈ m, p.size < 2 ^ 63) :
    ∃ p, m = some p ∧ e.size.toInt = p.size ∧ e.align.toInt = p.align ∧ p.Natural := by
  cases h with
  | @placed p h =>
    have hsize : (Int64.ofNat p.size).toInt = p.size := Int64.toInt_ofNat_of_lt (hsmall p rfl)
    have halign : (Int64.ofNat p.align).toInt = p.align := Int64.toInt_ofNat_of_lt h.align_lt
    exact ⟨p, rfl, hsize, halign, h⟩

/-- A type is measured where the record that it holds is. -/
theorem CType.measured : ∀ t : CType, t.Canonical → t.Small table.measureOf →
    (∀ tag, t.held? = some tag →
      Measured table (.record tag) (table.measureOf tag) ((CType.record tag).extent layoutOf)) →
    Measured table t (t.measure? table.measureOf) (t.extent layoutOf)
  | .scalar _, hcanonical, _, _ => measured_scalar hcanonical
  | .pointer _, _, _, _ | .functionPointer _ _ _, _, _, _ | .object _, _, _, _ =>
    .placed (p := ⟨8, 8⟩) ⟨⟨3, by decide, rfl⟩, Nat.dvd_refl 8⟩
  | .void, _, _, _ => .refused ⟨_, rfl, .void⟩
  | .function params result variadic, _, _, _ =>
    .refused ⟨_, rfl, .function params result variadic⟩
  | .record tag, _, _, h => h tag rfl
  | .alias name t, hcanonical, hsmall, h =>
    have hparts : t.Small table.measureOf := fun u hu => hsmall u (List.mem_cons_of_mem _ hu)
    (t.measured hcanonical hparts h).named name
  | .array elem length isVariable, hcanonical, hsmall, h =>
    have hparts : elem.Small table.measureOf := fun u hu => hsmall u (List.mem_cons_of_mem _ hu)
    measured_array (hparts elem elem.self_mem_parts) (elem.measured hcanonical hparts h) length
      isVariable

end Types

section Records

variable {table : RecordTable} {layoutOf : RecordTag → Result RecordLayout}

/-- The fields of a record as slots, or the first of them that is refused. -/
theorem Record.slots_measured (record : String) {fs : List Field}
    (hfs : ∀ f ∈ fs,
      Measured table f.type (f.type.measure? table.measureOf) (f.type.extent layoutOf)) :
    (∃ ps slots, Record.measures? table.measureOf fs = some ps ∧
      Record.slots layoutOf record fs = .ok slots ∧ (∀ p ∈ ps, p.Natural) ∧
      List.Forall₂ Slot.Takes slots ps ∧
      List.Forall₂ (fun f s => s.name = f.name ∧ f.type.extent layoutOf = .ok ⟨s.size, s.align⟩)
        fs slots) ∨
    ∃ failure, Record.measures? table.measureOf fs = none ∧
      Record.slots layoutOf record fs = .error failure ∧
      ∃ f ∈ fs, failure.Blames table f.type := by
  induction fs with
  | nil => exact .inl ⟨[], [], rfl, rfl, List.forall_mem_nil _, .nil, .nil⟩
  | cons f fs ih =>
    rw [List.forall_mem_cons] at hfs
    rw [Record.measures?, Record.slots, Field.slot]
    have hf := hfs.1
    generalize f.type.measure? table.measureOf = m at hf ⊢
    generalize hx : f.type.extent layoutOf = x at hf ⊢
    cases hf with
    | refused h =>
      obtain ⟨c, hreport, hblames⟩ := h
      exact .inr ⟨_, rfl, rfl, f, List.mem_cons_self, c, hreport, hblames⟩
    | @placed p h =>
      rcases ih hfs.2 with
        ⟨ps, slots, hps, hslots, hnatural, htakes, hfields⟩ | ⟨failure, hps, hslots, g, hg, hblames⟩
      · rw [hps, hslots]
        refine .inl ⟨p :: ps, _, rfl, rfl, ?_, .cons ⟨rfl, rfl⟩ htakes, .cons ⟨rfl, hx⟩ hfields⟩
        exact List.forall_mem_cons.mpr ⟨h, hnatural⟩
      · rw [hps, hslots]
        exact .inr ⟨failure, rfl, rfl, g, List.mem_cons_of_mem f hg, hblames⟩

theorem Record.layout_placed {r : Record} {slots : List Slot} {ps : List Measure}
    (hreported : r.reported = none) (hslots : List.Forall₂ Slot.Takes slots ps)
    (hps : ∀ p ∈ ps, p.Natural) (hsize : (r.measure ps).size < 2 ^ 63) :
    (r.measure ps).Natural ∧ ∃ l, r.layout slots = .ok l ∧
      l.size = Int64.ofNat (r.measure ps).size ∧ l.align = Int64.ofNat (r.measure ps).align ∧
      Placed 0 (r.measure ps).size slots l.fields ∧
      (r.tag.isUnion = false →
        l.fields.Pairwise fun s s' => s.offset.toInt + s.size.toInt ≤ s'.offset.toInt) := by
  unfold Record.layout Record.measure at *
  rw [hreported]
  cases hunion : r.tag.isUnion with
  | true =>
    rw [hunion, if_pos rfl] at hsize
    obtain ⟨l, hl, hlsize, hlalign, hplaced⟩ := unionLayout_spec r.tag.name hslots hps hsize
    dsimp only
    rw [if_pos rfl, if_pos rfl, hl]
    exact ⟨unionMeasure_natural hps, l, rfl, hlsize, hlalign, hplaced, fun h => by cases h⟩
  | false =>
    rw [hunion, if_neg Bool.false_ne_true] at hsize
    obtain ⟨l, hl, hlsize, hlalign, hplaced, hapart⟩ :=
      structLayout_spec r.tag.name hslots hps hsize
    dsimp only
    rw [if_neg Bool.false_ne_true, if_neg Bool.false_ne_true, hl]
    exact ⟨structMeasure_natural hps, l, rfl, hlsize, hlalign, hplaced, fun _ => hapart⟩

end Records

section Tables

variable {env : TypeEnv} {tag : RecordTag} {m : Option Measure}

/-- A record with its exact numbers and a sound layout, or with neither. -/
inductive Arranged (env : TypeEnv) (tag : RecordTag) : Option Measure → Result RecordLayout → Prop
  | placed {p : Measure} {l : RecordLayout} (hnatural : p.Natural)
      (hsize : l.size = Int64.ofNat p.size) (halign : l.align = Int64.ofNat p.align)
      (hsound : l.Sound env.extent (env.records.find tag)) : Arranged env tag (some p) (.ok l)
  | refused {f : Failure} (h : f.Blames env.records (.record tag)) :
      Arranged env tag none (.error f)

theorem Arranged.measured (h : Arranged env tag m (env.layoutOf tag)) :
    Measured env.records (.record tag) m ((CType.record tag).extent env.layoutOf) := by
  rw [CType.extent]
  generalize env.layoutOf tag = r at h ⊢
  cases h with
  | refused h => exact .refused h
  | placed hnatural hsize halign hsound =>
    rw [ok_bind, hsize, halign]
    exact .placed hnatural

theorem Arranged.sound {l : RecordLayout} (h : Arranged env tag m (.ok l)) :
    l.Sound env.extent (env.records.find tag) := by
  cases h with
  | placed _ _ _ hsound => exact hsound

theorem Arranged.blames {f : Failure} (h : Arranged env tag m (.error f)) :
    f.Blames env.records (.record tag) := by
  cases h with
  | refused h => exact h

namespace RecordTable.Regular

variable {table : RecordTable} (h : table.Regular)

include h

theorem reported (tag : RecordTag) : (table.find tag).reported = none := by
  rcases table.find_cases tag with ⟨hmem, -⟩ | hnone
  · exact h.unreported _ hmem
  · rw [hnone]

theorem record_small (tag : RecordTag) : ∀ p ∈ table.measureOf tag, p.size < 2 ^ 63 := by
  rcases table.find_cases tag with ⟨hmem, -⟩ | hnone
  · have hsame : table.measureOf (table.find tag).tag = table.measureOf tag := by
      rw [measureOf_eq h.acyclic, measureOf_eq h.acyclic, table.find_find]
    rw [← hsame]
    exact (h.small _ hmem).1 _ (CType.self_mem_parts _)
  · intro p hp
    rw [measureOf_eq h.acyclic, hnone] at hp
    cases hp
    cases hunion : tag.isUnion with
    | false | true =>
      rw [Record.measure, hunion]
      decide

end RecordTable.Regular

/-- In a regular table every record is arranged, from the records that it holds upwards. -/
theorem TypeEnv.arranged (h : env.records.Regular) (hknown : ∀ tag, env.known? tag = none)
    (tag : RecordTag) : Arranged env tag (env.records.measureOf tag) (env.layoutOf tag) := by
  induction tag using h.acyclic.induction with
  | hstep tag ih =>
    have hfields : ∀ f ∈ (env.records.find tag).fields,
        Measured env.records f.type (f.type.measure? env.records.measureOf)
          (f.type.extent env.layoutOf) := by
      intro f hf
      obtain ⟨hmem, -⟩ := RecordTable.find_of_field hf
      exact f.type.measured (h.canonical _ hmem f hf) ((h.small _ hmem).2 f hf)
        fun inner hheld => (ih inner ⟨f, hf, hheld⟩).measured
    have hsmall := h.record_small tag
    rw [RecordTable.measureOf_eq h.acyclic] at hsmall ⊢
    rw [layoutOf_eq h.acyclic (hknown tag)]
    rcases Record.slots_measured (env.records.find tag).tag.name hfields with
      ⟨ps, slots, hps, hslots, hnatural, htakes, hextents⟩ | ⟨failure, hps, hslots, f, hf, hblames⟩
    · rw [hps] at hsmall
      have hsize : ((env.records.find tag).measure ps).size < 2 ^ 63 := hsmall _ rfl
      obtain ⟨hrecord, l, hl, hlsize, hlalign, hplaced, hapart⟩ :=
        Record.layout_placed (h.reported tag) htakes hnatural hsize
      have hstop : l.size.toInt = ((env.records.find tag).measure ps).size := by
        rw [hlsize, Int64.toInt_ofNat_of_lt hsize]
      rw [hps, hslots, ok_bind, hl]
      refine .placed hrecord hlsize hlalign
        ⟨hplaced.forall₂ (fun _ _ _ hfield => hfield) hextents, hplaced.aligned, ?_, hapart⟩
      rw [hstop]
      exact hplaced.within
    · obtain ⟨c, hreport, hcause⟩ := hblames
      rw [hps, hslots]
      exact .refused ⟨c, hreport, .field hf hcause⟩

/-- In a regular table sizes and alignments are the exact ones, the alignment being a power of two
up to eight that divides the size; layouts are sound, and a record without one has a field that is
to blame. -/
theorem computed_layouts_sound {table : RecordTable} (h : table.Regular)
    (passThrough listRecord : String) :
    let env := (TypeEnv.ofMarkers passThrough listRecord table).rememberAll
    (∀ t : CType, t.Canonical → t.Small table.measureOf → ∀ e, env.extent t = .ok e →
      ∃ p, t.measure? table.measureOf = some p ∧ e.size.toInt = p.size ∧ e.align.toInt = p.align ∧
        p.Natural) ∧
    (∀ tag l, env.layoutOf tag = .ok l → l.Sound env.extent (table.find tag)) ∧
    ∀ tag f, env.layoutOf tag = .error f → ∃ c, f.report? = some (c, {}, none) ∧
      (c.category = "UNSUPPORTED" ∨ c.category = "INVARIANT") ∧
      (CType.record tag).Blames table c := by
  intro env
  let plain := TypeEnv.ofMarkers passThrough listRecord table
  have hregular : plain.records.Regular := h
  have hlayout : env.layoutOf = plain.layoutOf :=
    funext fun tag => TypeEnv.rememberAll_layoutOf hregular.acyclic tag
  have hextent : env.extent = plain.extent := by
    funext t
    rw [TypeEnv.extent, TypeEnv.extent, hlayout]
  have harranged := TypeEnv.arranged hregular fun _ => rfl
  rw [hlayout, hextent]
  refine ⟨fun t hcanonical hsmall e he => ?_, fun tag l hl => ?_, fun tag f hf => ?_⟩
  · have hmeasured := t.measured hcanonical hsmall fun tag _ => (harranged tag).measured
    change t.extent plain.layoutOf = .ok e at he
    rw [he] at hmeasured
    exact hmeasured.words (hsmall t t.self_mem_parts)
  · have hrecord := harranged tag
    rw [hl] at hrecord
    exact hrecord.sound
  · have hrecord := harranged tag
    rw [hf] at hrecord
    obtain ⟨c, hreport, hblames⟩ := hrecord.blames
    exact ⟨c, hreport, hblames.category, hblames⟩

/-- A struct in an array in a union in a struct. -/
def framed : RecordTable :=
  let char : CType := .scalar ⟨.char, 8, true⟩
  let short : CType := .scalar ⟨.short, 16, true⟩
  [⟨⟨"cell", false⟩, [⟨"kind", char, 0⟩, ⟨"next", .pointer (.record ⟨"frame", false⟩), 0⟩], none⟩,
    ⟨⟨"body", true⟩,
      [⟨"cells", .array (.alias "cell_t" (.record ⟨"cell", false⟩)) (some 3) false, 0⟩,
        ⟨"raw", .array char (some 50) false, 0⟩], none⟩,
    ⟨⟨"frame", false⟩,
      [⟨"mark", short, 0⟩, ⟨"body", .record ⟨"body", true⟩, 0⟩, ⟨"end", char, 0⟩,
        ⟨"rest", .array short none false, 0⟩], none⟩]

theorem framed_regular : framed.Regular where
  acyclic := by
    refine RecordTable.acyclic_of_rank
      (fun name => if name = "frame" then 2 else if name = "body" then 1 else 0) ?_
    decide
  unreported := by decide
  canonical := by decide
  small := by decide

/-- The frame starts its body at the alignment of the pointers in it. -/
theorem computed_layouts_sound_framed :
    let env := (TypeEnv.ofMarkers "" "" framed).rememberAll
    framed.Regular ∧ ∃ l, env.layoutOf ⟨"frame", false⟩ = .ok l ∧
      l.fields.map (fun s => (s.offset, s.size)) = [(0, 2), (8, 56), (64, 1), (66, 0)] ∧
      l.size = 72 ∧ l.Sound env.extent (framed.find ⟨"frame", false⟩) := by
  intro env
  have hlayout : ∃ l, env.layoutOf ⟨"frame", false⟩ = .ok l ∧
      l.fields.map (fun s => (s.offset, s.size)) = [(0, 2), (8, 56), (64, 1), (66, 0)] ∧
      l.size = 72 := ⟨_, rfl, by decide +kernel, by decide +kernel⟩
  obtain ⟨l, hl, hfields, hsize⟩ := hlayout
  exact ⟨framed_regular, l, hl, hfields, hsize,
    (computed_layouts_sound framed_regular "" "").2.1 _ l hl⟩

end Tables

end DartLowering
