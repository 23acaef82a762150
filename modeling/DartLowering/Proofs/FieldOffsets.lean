import DartLowering.Proofs.TableOrder
import DartLowering.Proofs.TightLayouts

/-!
Which field a name stands for and where it lies. Fields of a record may share a name. A name stands
for the first of them, in the record as in its layout, since a layout has the fields of its record
in their order. The offset of a field is the reported one, or zero in a union, or else the first
multiple of its alignment after the fields ahead of it. Rounding up to a power of two commutes with
reducing numbers to words, so this needs no bound on the sizes.
-/
namespace DartLowering

open Layout Result

namespace Layout

section Placing

def Slot.measure (s : Slot) : Measure := ⟨s.size.toNatClampNeg, s.align.toNatClampNeg⟩

theorem ofNat_toNatClampNeg {v : Int64} (hv : 0 ≤ v.toInt) : Int64.ofNat v.toNatClampNeg = v := by
  rw [← Int64.ofInt_eq_ofNat, toNatClampNeg_eq hv, Int64.ofInt_toInt]

theorem Slot.Checked.takes {s : Slot} (h : s.Checked) : s.Takes s.measure :=
  ⟨(ofNat_toNatClampNeg h.size).symm, (ofNat_toNatClampNeg (Int.le_of_lt h.align_pos)).symm⟩

theorem Slot.Checked.alignUp {s : Slot} (h : s.Checked) (n : Nat) :
    Layout.alignUp (Int64.ofNat n) s.align = Int64.ofNat (roundUp n s.measure.align) := by
  obtain ⟨k, hk⟩ := h.align
  have hpow : s.measure.align = 2 ^ k := by
    have hnat : (s.measure.align : Int) = s.align.toInt :=
      toNatClampNeg_eq (Int.le_of_lt h.align_pos)
    rw [hk] at hnat
    exact_mod_cast hnat
  have hlt : 2 ^ k < 2 ^ 63 := by
    have hword := s.align.toInt_lt
    rw [hk] at hword
    exact_mod_cast hword
  rw [h.takes.2, hpow]
  exact alignUp_ofNat n ((Nat.pow_lt_pow_iff_right (by decide)).mp hlt)

/-- The word of the offset after some fields is that of the exact offset. -/
theorem placeFrom_stop {slots : List Slot} (hslots : ∀ s ∈ slots, s.Checked) (n : Nat) :
    (placeFrom (Int64.ofNat n) slots).2.2 = Int64.ofNat (endFrom n (slots.map Slot.measure)) := by
  induction slots generalizing n with
  | nil => rfl
  | cons s ss ih =>
    rw [List.forall_mem_cons] at hslots
    have hnext : Int64.ofNat (roundUp n s.measure.align) + s.size =
        Int64.ofNat (roundUp n s.measure.align + s.measure.size) := by
      rw [Int64.ofNat_add, ← hslots.1.takes.1]
    rw [List.map_cons, endFrom, ← ih hslots.2]
    simp only [placeFrom, hslots.1.alignUp, hnext]

/-- A field lies at the first multiple of its alignment after those ahead of it. -/
theorem placeFrom_append (start : Int64) (before : List Slot) (s : Slot) (after : List Slot) :
    ∃ rest, (placeFrom start (before ++ s :: after)).1 =
      (placeFrom start before).1 ++
        { s with offset := alignUp (placeFrom start before).2.2 s.align } :: rest := by
  induction before generalizing start with
  | nil => exact ⟨_, rfl⟩
  | cons b bs ih =>
    obtain ⟨rest, hrest⟩ := ih (alignUp start b.align + b.size)
    refine ⟨rest, ?_⟩
    simp only [List.cons_append, placeFrom, hrest]

theorem map_name_placeFrom (start : Int64) (slots : List Slot) :
    (placeFrom start slots).1.map Slot.name = slots.map Slot.name := by
  induction slots generalizing start with
  | nil => rfl
  | cons s ss ih => simp only [placeFrom, List.map_cons, ih]

/-- Fields are placed only if all of them were accepted. -/
theorem checkSlots_ok {limit : Int64} {slots checked : List Slot}
    (h : checkSlots limit slots = .ok checked) :
    (∀ s ∈ slots, (s.clamped limit).Checked) ∧ checked = slots.map (Slot.clamped limit) := by
  rcases checkSlots_cases limit slots with ⟨hslots, hok⟩ | ⟨-, fault, herror⟩
  · rw [hok] at h
    cases h
    exact ⟨hslots, rfl⟩
  · rw [herror] at h
    cases h

end Placing

/-- The offset of the first slot of a name. -/
theorem RecordLayout.offset?_of_append {l : RecordLayout} {placed rest : List Slot} {s : Slot}
    (hfields : l.fields = placed ++ s :: rest) (hfirst : ∀ p ∈ placed, p.name ≠ s.name) :
    l.offset? s.name = some s.offset := by
  have hnone : placed.find? (fun p => p.name == s.name) = none := by
    rw [List.find?_eq_none]
    intro p hp
    simpa using hfirst p hp
  rw [RecordLayout.offset?, hfields, List.find?_append, hnone, List.find?_cons_of_pos (by simp)]
  rfl

end Layout

/-- Size and alignment of a field as numbers, the alignment as far as targets support it. -/
def Extent.measure (e : Extent) : Measure :=
  ⟨e.size.toNatClampNeg, (clampAlignment maxAlignment e.align).toNatClampNeg⟩

/-- The first multiple of a field's alignment after the fields ahead of it. -/
def naturalOffset (ahead : List Extent) (e : Extent) : Nat :=
  roundUp (endFrom 0 (ahead.map Extent.measure)) e.measure.align

/-- Where a field lies, those ahead of it given: where the dump has it, at the start of a union, or
else at its natural offset. -/
def Record.offsetOf (r : Record) (ahead : List (Field × Extent)) (f : Field) (e : Extent) : Int64 :=
  match r.reported with
  | some _ => f.offset
  | none => if r.tag.isUnion then 0 else Int64.ofNat (naturalOffset (ahead.map Prod.snd) e)

/-- The field as a slot that is not yet placed, unless its offset is reported. -/
def Field.sized (p : Field × Extent) : Slot :=
  ⟨p.1.name, p.1.type.text, p.1.offset, p.2.size, p.2.align⟩

/-- The layout has the field at its place among the fields, with its name, type and size, at the
given offset. -/
def Layout.RecordLayout.HasAt (l : RecordLayout) (ahead : List (Field × Extent)) (f : Field)
    (e : Extent) (offset : Int64) : Prop :=
  ∃ placed s rest, l.fields = placed ++ s :: rest ∧
    placed.map Slot.name = ahead.map (fun p => p.1.name) ∧
    s.name = f.name ∧ s.type = f.type.text ∧ s.size = e.size ∧ s.offset = offset

section Fields

variable {ahead : List (Field × Extent)} {f : Field} {e : Extent} {rest : List Slot}
  {l : RecordLayout}

theorem Layout.structLayout_hasAt {name : String}
    (h : structLayout maxAlignment name (ahead.map Field.sized ++ Field.sized (f, e) :: rest) =
      .ok l) :
    l.HasAt ahead f e (Int64.ofNat (naturalOffset (ahead.map Prod.snd) e)) := by
  unfold structLayout at h
  cases hchecked : checkSlots maxAlignment
    (ahead.map Field.sized ++ Field.sized (f, e) :: rest) with
  | error fault =>
    rw [hchecked] at h
    cases h
  | ok checked =>
    rw [hchecked] at h
    cases h
    obtain ⟨haccepted, rfl⟩ := checkSlots_ok hchecked
    rw [List.forall_mem_append, List.forall_mem_cons] at haccepted
    -- the fields ahead as they are placed, with their numbers
    have hahead : ∀ s ∈ (ahead.map Field.sized).map (Slot.clamped maxAlignment), s.Checked := by
      rw [List.forall_mem_map]
      exact haccepted.1
    have hmeasures : ((ahead.map Field.sized).map (Slot.clamped maxAlignment)).map Slot.measure =
        (ahead.map Prod.snd).map Extent.measure := by
      rw [List.map_map, List.map_map, List.map_map]
      rfl
    have hstop := placeFrom_stop hahead 0
    rw [hmeasures] at hstop
    obtain ⟨after, hplaced⟩ := placeFrom_append 0
      ((ahead.map Field.sized).map (Slot.clamped maxAlignment))
      ((Field.sized (f, e)).clamped maxAlignment) (rest.map (Slot.clamped maxAlignment))
    rw [← List.map_cons, ← List.map_append] at hplaced
    refine ⟨_, _, after, hplaced, ?_, rfl, rfl, rfl, ?_⟩
    · rw [map_name_placeFrom, List.map_map, List.map_map]
      rfl
    · have hword : (0 : Int64) = Int64.ofNat 0 := rfl
      dsimp only
      rw [hword, hstop]
      exact haccepted.2.1.alignUp _

theorem Layout.unionLayout_hasAt {name : String}
    (h : unionLayout maxAlignment name (ahead.map Field.sized ++ Field.sized (f, e) :: rest) =
      .ok l) :
    l.HasAt ahead f e 0 := by
  unfold unionLayout at h
  cases hchecked : checkSlots maxAlignment
    (ahead.map Field.sized ++ Field.sized (f, e) :: rest) with
  | error fault =>
    rw [hchecked] at h
    cases h
  | ok checked =>
    rw [hchecked] at h
    cases h
    obtain ⟨-, rfl⟩ := checkSlots_ok hchecked
    unfold RecordLayout.HasAt
    simp only [List.map_append, List.map_cons]
    refine ⟨_, _, _, rfl, ?_, rfl, rfl, rfl, rfl⟩
    simp only [List.map_map]
    rfl

/-- A layout has the fields of its record in their order, each at its offset. -/
theorem Record.layout_hasAt {r : Record}
    (h : r.layout (ahead.map Field.sized ++ Field.sized (f, e) :: rest) = .ok l) :
    l.HasAt ahead f e (r.offsetOf ahead f e) := by
  unfold Record.layout at h
  unfold Record.offsetOf
  cases hreported : r.reported with
  | some extent =>
    rw [hreported] at h
    cases h
    refine ⟨_, _, rest, rfl, ?_, rfl, rfl, rfl, rfl⟩
    rw [List.map_map]
    rfl
  | none =>
    rw [hreported] at h
    dsimp only at h ⊢
    split at h
    · rename_i l' hcomputed
      cases h
      split at hcomputed
      · rename_i hunion
        rw [if_pos hunion]
        exact unionLayout_hasAt hcomputed
      · rename_i hunion
        rw [if_neg hunion]
        exact structLayout_hasAt hcomputed
    · cases h

/-- The slots of fields come from their sizes and alignments. -/
theorem Record.slots_eq_ok {layoutOf : RecordTag → Result RecordLayout} {record : String}
    {before after : List Field} {slots : List Slot}
    (h : Record.slots layoutOf record (before ++ f :: after) = .ok slots) :
    ∃ ahead e rest, before = ahead.map Prod.fst ∧
      (∀ p ∈ (f, e) :: ahead, p.1.type.extent layoutOf = .ok p.2) ∧
      slots = ahead.map Field.sized ++ Field.sized (f, e) :: rest := by
  have hslot : ∀ {g : Field} {s : Slot}, g.slot layoutOf record = .ok s →
      ∃ d, g.type.extent layoutOf = .ok d ∧ s = Field.sized (g, d) := by
    intro g s hg
    unfold Field.slot at hg
    split at hg
    · rename_i d hd
      cases hg
      exact ⟨d, hd, rfl⟩
    · cases hg
  induction before generalizing slots with
  | nil =>
    obtain ⟨s, hs, h⟩ := bind_eq_ok.mp h
    obtain ⟨rest, -, h⟩ := bind_eq_ok.mp h
    cases h
    obtain ⟨e, he, rfl⟩ := hslot hs
    exact ⟨[], e, rest, rfl, List.forall_mem_singleton.mpr he, rfl⟩
  | cons g before ih =>
    obtain ⟨s, hs, h⟩ := bind_eq_ok.mp h
    obtain ⟨ss, hss, h⟩ := bind_eq_ok.mp h
    cases h
    obtain ⟨d, hd, rfl⟩ := hslot hs
    obtain ⟨ahead, e, rest, rfl, hextents, rfl⟩ := ih hss
    rw [List.forall_mem_cons] at hextents
    refine ⟨(g, d) :: ahead, e, rest, rfl, ?_, rfl⟩
    exact List.forall_mem_cons.mpr ⟨hextents.1, List.forall_mem_cons.mpr ⟨hd, hextents.2⟩⟩

end Fields

namespace TypeEnv

variable {env : TypeEnv} {tag : RecordTag} {l : RecordLayout}

/-- `f` is the first field of its name in the record. `ahead` are the fields before it with their
sizes and alignments, and `e` are its own. -/
structure FirstField (env : TypeEnv) (r : Record) (ahead : List (Field × Extent)) (f : Field)
    (e : Extent) : Prop where
  fields : ∃ after, r.fields = ahead.map Prod.fst ++ f :: after
  first : ∀ p ∈ ahead, p.1.name ≠ f.name
  extents : ∀ p ∈ (f, e) :: ahead, p.1.type.extent env.layoutOf = .ok p.2

theorem keepsComputed_rememberAll (hnone : env.known = []) : env.rememberAll.KeepsComputed := by
  intro tag l hknown
  rw [env.rememberAll_fresh]
  exact ((known?_rememberAll hnone).mp hknown).2

/-- A layout comes from those of the records that are held, also where it was kept and whether or
not other records hold themselves. -/
theorem KeepsComputed.layoutOf_iff_slots (h : env.KeepsComputed) :
    env.layoutOf tag = .ok l ↔
      ∃ slots, Record.slots env.layoutOf (env.records.find tag).tag.name
          (env.records.find tag).fields = .ok slots ∧
        (env.records.find tag).layout slots = .ok l := by
  constructor
  · intro hl
    have hfresh := h.layoutOf_eq_ok.mp hl
    rw [TypeEnv.layoutOf, layoutWithin_of_not_known env.fresh_known] at hfresh
    obtain ⟨slots, hslots, hl⟩ := bind_eq_ok.mp hfresh
    refine ⟨slots, Record.slots_of_layouts (fun inner m hm => ?_) hslots, hl⟩
    exact h.layoutOf_eq_ok.mpr (layoutOf_of_layoutWithin env.fresh_known hm)
  · rintro ⟨slots, hslots, hl⟩
    have hheld := Record.slots_of_layouts (fun _ _ => h.layoutOf_eq_ok.mp) hslots
    have hdeeper : env.fresh.layoutWithin (env.records.length + 2) tag = .ok l := by
      rw [layoutWithin_of_not_known env.fresh_known]
      exact bind_eq_ok.mpr ⟨slots, hheld, hl⟩
    exact h.layoutOf_eq_ok.mpr (layoutOf_of_layoutWithin env.fresh_known hdeeper)

/-- The field that a record has under a name is the first of it, and the layout has it at its
offset. -/
theorem KeepsComputed.firstField (h : env.KeepsComputed) {name : String} {f : Field}
    (hf : (env.records.find tag).field? name = some f) (hl : env.layoutOf tag = .ok l) :
    f.name = name ∧ ∃ ahead e, env.FirstField (env.records.find tag) ahead f e ∧
      l.HasAt ahead f e ((env.records.find tag).offsetOf ahead f e) ∧
      l.offset? name = some ((env.records.find tag).offsetOf ahead f e) := by
  obtain ⟨hname, before, after, hfields, hbefore⟩ := List.find?_eq_some_iff_append.mp hf
  have hname : f.name = name := by simpa using hname
  subst hname
  obtain ⟨slots, hslots, hlayout⟩ := h.layoutOf_iff_slots.mp hl
  rw [hfields] at hslots
  obtain ⟨ahead, e, rest, rfl, hextents, rfl⟩ := Record.slots_eq_ok hslots
  have hfirst : ∀ p ∈ ahead, p.1.name ≠ f.name := by
    intro p hp
    simpa using hbefore p.1 (List.mem_map_of_mem hp)
  have hat := Record.layout_hasAt hlayout
  refine ⟨rfl, ahead, e, ⟨⟨after, hfields⟩, hfirst, hextents⟩, hat, ?_⟩
  obtain ⟨placed, s, others, hslotted, hnames, hs, -, -, hoffset⟩ := hat
  rw [← hs, ← hoffset]
  refine RecordLayout.offset?_of_append hslotted fun p hp => ?_
  have hmem : p.name ∈ ahead.map fun q => q.1.name := hnames ▸ List.mem_map_of_mem hp
  obtain ⟨q, hq, hsame⟩ := List.mem_map.mp hmem
  rw [hs, ← hsame]
  exact hfirst q hq

end TypeEnv

end DartLowering
