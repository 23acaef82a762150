import DartLowering.Proofs.Containment
import DartLowering.Proofs.RelabelledUnits

/-!
Type names are transparent. `CType.resolved` replaces every type name in a type by what it stands
for. A unit and its records with all types resolved have the same output as before, unless a type
name or a record is named like the pass-through marker, which is recognised by its name. Layouts
mention the texts of types, so the tables of the two runs are compared without them.
-/
namespace DartLowering

open Layout Result

mutual

/-- The type with every type name in it replaced by what it stands for. -/
def CType.resolved : CType → CType
  | .void => .void
  | .scalar s => .scalar s
  | .pointer pointee => .pointer pointee.resolved
  | .functionPointer params result variadic =>
      .functionPointer (CType.resolvedAll params) result.resolved variadic
  | .array elem length isVariable => .array elem.resolved length isVariable
  | .record tag => .record tag
  | .function params result variadic =>
      .function (CType.resolvedAll params) result.resolved variadic
  | .alias _ underlying => underlying.resolved
  | .object className => .object className

def CType.resolvedAll : List CType → List CType
  | [] => []
  | t :: ts => t.resolved :: CType.resolvedAll ts

end

theorem CType.resolvedAll_eq_map (ts : List CType) :
    CType.resolvedAll ts = ts.map CType.resolved := by
  induction ts with
  | nil => rfl
  | cons t ts ih => rw [CType.resolvedAll, ih, List.map_cons]

/-- No type name and no record in the type is named like the marker. What functions take and return
does not matter. -/
def CType.Unmarked (marker : String) : CType → Prop
  | .pointer t | .array t _ _ => t.Unmarked marker
  | .record tag => tag.name ≠ marker
  | .alias name t => name ≠ marker ∧ t.Unmarked marker
  | .void | .scalar _ | .functionPointer _ _ _ | .function _ _ _ | .object _ => True

instance CType.decidableUnmarked (marker : String) : ∀ t : CType, Decidable (t.Unmarked marker)
  | .pointer t | .array t _ _ => t.decidableUnmarked marker
  | .record tag => inferInstanceAs (Decidable (tag.name ≠ marker))
  | .alias name t =>
      have := t.decidableUnmarked marker
      inferInstanceAs (Decidable (name ≠ marker ∧ t.Unmarked marker))
  | .void | .scalar _ | .functionPointer _ _ _ | .function _ _ _ | .object _ => .isTrue trivial

theorem CType.Unmarked.unalias {marker : String} {t : CType} (h : t.Unmarked marker) :
    t.unalias.Unmarked marker := by
  fun_induction CType.unalias t with
  | case1 _ t ih => exact ih h.2
  | case2 => exact h

theorem CType.unmarked_resolved {marker : String} : ∀ t : CType, t.Unmarked marker →
    t.resolved.Unmarked marker
  | .pointer t, h | .array t _ _, h => t.unmarked_resolved h
  | .alias _ t, h => t.unmarked_resolved h.2
  | .record _, h => h
  | .void, _ | .scalar _, _ | .functionPointer _ _ _, _ | .function _ _ _, _
  | .object _, _ => trivial

theorem TypeEnv.isPassThrough_of_unmarked {env : TypeEnv} {t : CType}
    (h : t.Unmarked env.passThrough) : env.isPassThrough t = false := by
  cases t with
  | record tag => exact decide_eq_false h
  | «alias» name t => exact decide_eq_false h.1
  | _ => rfl

/-- Types are resolved; positions and conversions stay. -/
def resolving : Relabelling := ⟨CType.resolved, id, id⟩

theorem resolving_structural : resolving.Structural where
  parts t ht := by
    cases t with
    | «alias» name t => exact absurd ht (t.unalias_ne_alias name t)
    | functionPointer | function =>
      simp only [resolving, CType.resolved, CType.resolvedAll_eq_map, CType.mapParts]
    | _ => rfl
  aliased _ _ := rfl

theorem CType.isFunction_resolved (t : CType) : t.resolved.isFunction = t.isFunction := by
  have hshape := congrArg Option.isSome (resolving_structural.pointeeShape t)
  rwa [Option.isSome_map, Option.isSome_map] at hshape

def Record.resolved (r : Record) : Record :=
  { r with fields := r.fields.map (Field.relabel resolving) }

def SourceUnit.resolved (u : SourceUnit) : SourceUnit := u.relabel resolving

section Untyped

def Layout.Slot.untyped (s : Slot) : Slot := { s with type := "" }

def Layout.RecordLayout.untyped (l : RecordLayout) : RecordLayout :=
  { l with fields := l.fields.map Slot.untyped }

def Layout.ArrayLayout.untyped (l : ArrayLayout) : ArrayLayout := { l with elementType := "" }

theorem checkSlots_untyped (limit : Int64) (fs : List Slot) :
    checkSlots limit (fs.map Slot.untyped) =
      (checkSlots limit fs).map (List.map Slot.untyped) := by
  induction fs with
  | nil => rfl
  | cons f fs ih =>
    have hslot : checkSlot limit f.untyped = (checkSlot limit f).map Slot.untyped := by
      unfold checkSlot Slot.untyped
      split
      · rfl
      · dsimp only
        split <;> rfl
    rw [List.map_cons, checkSlots, checkSlots, ih, hslot]
    cases checkSlot limit f with
    | error fault => rfl
    | ok f => cases checkSlots limit fs <;> rfl

theorem placeFrom_untyped (offset : Int64) (fs : List Slot) :
    placeFrom offset (fs.map Slot.untyped) =
      ((placeFrom offset fs).1.map Slot.untyped, (placeFrom offset fs).2) := by
  induction fs generalizing offset with
  | nil => rfl
  | cons f fs ih =>
    simp only [List.map_cons, placeFrom, Slot.untyped] at ih ⊢
    rw [ih]

theorem strictest_untyped (fs : List Slot) : strictest (fs.map Slot.untyped) = strictest fs := by
  unfold strictest
  rw [List.foldl_map]
  rfl

theorem largest_untyped (fs : List Slot) : largest (fs.map Slot.untyped) = largest fs := by
  unfold largest
  rw [List.foldl_map]
  rfl

theorem structLayout_untyped (limit : Int64) (name : String) (fs : List Slot) :
    structLayout limit name (fs.map Slot.untyped) =
      (structLayout limit name fs).map RecordLayout.untyped := by
  unfold structLayout
  rw [checkSlots_untyped]
  cases checkSlots limit fs with
  | error fault => rfl
  | ok fs =>
    simp only [Except.map, bind, Except.bind, placeFrom_untyped, strictest_untyped,
      RecordLayout.untyped]

theorem unionLayout_untyped (limit : Int64) (name : String) (fs : List Slot) :
    unionLayout limit name (fs.map Slot.untyped) =
      (unionLayout limit name fs).map RecordLayout.untyped := by
  unfold unionLayout
  rw [checkSlots_untyped]
  cases checkSlots limit fs with
  | error fault => rfl
  | ok fs =>
    simp only [Except.map, bind, Except.bind, largest_untyped, strictest_untyped,
      RecordLayout.untyped, List.map_map]
    rfl

/-- A layout depends on the texts of types only in that it repeats them. -/
theorem Record.layout_untyped (r : Record) (slots : List Slot) :
    r.layout (slots.map Slot.untyped) = (r.layout slots).map RecordLayout.untyped := by
  unfold Record.layout
  cases r.reported with
  | some e => rfl
  | none =>
    dsimp only
    rw [unionLayout_untyped, structLayout_untyped, ← apply_ite (Except.map RecordLayout.untyped)]
    cases if r.tag.isUnion then unionLayout maxAlignment r.tag.name slots
      else structLayout maxAlignment r.tag.name slots <;> rfl

theorem arrayLayout_untyped (type : String) (size align length : Int64) :
    (arrayLayout type size align length).map ArrayLayout.untyped =
      arrayLayout "" size align length := by
  simp only [arrayLayout, apply_ite (Except.map _)]
  rfl

theorem offset?_untyped (l : RecordLayout) (name : String) :
    l.untyped.offset? name = l.offset? name := by
  unfold RecordLayout.offset? RecordLayout.untyped
  dsimp only
  rw [List.find?_map, Option.map_map]
  rfl

end Untyped

/-- Failures are not compared: they may mention the texts of types. -/
def AnyFailure (_ _ : Failure) : Prop := True

def SameLayout (l l' : RecordLayout) : Prop := l'.untyped = l.untyped

section Layouts

variable {layoutOf layoutOf' : RecordTag → Result RecordLayout}
  (hlayout : ∀ tag, Alike AnyFailure SameLayout (layoutOf tag) (layoutOf' tag))

include hlayout

theorem CType.extent_resolved : ∀ t : CType,
    Alike AnyFailure Eq (t.extent layoutOf) (t.resolved.extent layoutOf')
  | .void | .function _ _ _ => .error trivial
  | .scalar s => Alike.refl (fun _ => trivial) _
  | .pointer _ | .functionPointer _ _ _ | .object _ => .ok rfl
  | .alias _ underlying => underlying.extent_resolved
  | .record tag => by
    refine (hlayout tag).bind fun l l' hl => .ok ?_
    have hsize := congrArg RecordLayout.size hl
    have halign := congrArg RecordLayout.align hl
    exact congrArg₂ Extent.mk hsize.symm halign.symm
  | .array elem length isVariable => by
    rw [CType.resolved, CType.extent, CType.extent]
    split
    · exact .error trivial
    · refine elem.extent_resolved.bind_eq fun e => ?_
      cases length with
      | none => exact .ok rfl
      | some n =>
        have hsame := (arrayLayout_untyped elem.text e.size e.align n).trans
          (arrayLayout_untyped elem.resolved.text e.size e.align n).symm
        dsimp only
        generalize arrayLayout elem.text e.size e.align n = r at hsame ⊢
        generalize arrayLayout elem.resolved.text e.size e.align n = r' at hsame ⊢
        cases r with
        | error fault =>
          cases r' with
          | error fault' => exact .error trivial
          | ok l' => cases hsame
        | ok l =>
          cases r' with
          | error fault' => cases hsame
          | ok l' =>
            have hl : l.untyped = l'.untyped := Except.ok.inj hsame
            have hsize := congrArg ArrayLayout.size hl
            have halign := congrArg ArrayLayout.elementAlign hl
            exact .ok (congrArg₂ Extent.mk hsize halign)

theorem Record.slots_resolved (record : String) (fs : List Field) :
    Alike AnyFailure (fun ss ss' => ss'.map Slot.untyped = ss.map Slot.untyped)
      (Record.slots layoutOf record fs)
      (Record.slots layoutOf' record (fs.map (Field.relabel resolving))) := by
  induction fs with
  | nil => exact .ok rfl
  | cons f fs ih =>
    have hslot : Alike AnyFailure (fun s s' : Slot => s'.untyped = s.untyped)
        (f.slot layoutOf record) ((f.relabel resolving).slot layoutOf' record) := by
      have hextent := f.type.extent_resolved hlayout
      unfold Field.slot
      dsimp only [Field.relabel, resolving]
      generalize f.type.extent layoutOf = r at hextent ⊢
      generalize f.type.resolved.extent layoutOf' = r' at hextent ⊢
      cases hextent with
      | error => exact .error trivial
      | @ok e e' he =>
        rw [he]
        exact .ok rfl
    refine hslot.bind fun s s' hs => ih.bind fun ss ss' hss => .ok ?_
    rw [List.map_cons, List.map_cons, hs, hss]

end Layouts

theorem RecordTable.find_resolved (records : RecordTable) (tag : RecordTag) :
    RecordTable.find (records.map Record.resolved) tag = (records.find tag).resolved := by
  unfold RecordTable.find
  rw [List.find?_map]
  exact Option.getD_map Record.resolved ⟨tag, [], none⟩ _

/-- The second table is the first one for records whose types are resolved, and both have kept the
same layouts. -/
structure TypeEnv.Resolves (env env' : TypeEnv) : Prop where
  passThrough : env'.passThrough = env.passThrough
  listRecord : env'.listRecord = env.listRecord
  records : env'.records = env.records.map Record.resolved
  known : ∀ tag,
    (env'.known? tag).map RecordLayout.untyped = (env.known? tag).map RecordLayout.untyped

namespace TypeEnv.Resolves

variable {env env' : TypeEnv} (h : env.Resolves env')

include h

theorem layoutWithin (depth : Nat) (tag : RecordTag) :
    Alike AnyFailure SameLayout (env.layoutWithin depth tag) (env'.layoutWithin depth tag) := by
  induction depth generalizing tag with
  | zero => exact .error trivial
  | succ depth ih =>
    have hknown := h.known tag
    rw [TypeEnv.layoutWithin, TypeEnv.layoutWithin]
    cases hl : env.known? tag with
    | some l =>
      rw [hl, Option.map_some, Option.map_eq_some_iff] at hknown
      obtain ⟨l', hl', hsame⟩ := hknown
      rw [hl']
      exact .ok hsame
    | none =>
      rw [hl, Option.map_none, Option.map_eq_none_iff] at hknown
      rw [hknown, h.records, RecordTable.find_resolved]
      refine (Record.slots_resolved ih _ _).bind fun slots slots' hslots => ?_
      refine Alike.of_map_eq (fun _ => trivial) ?_
      rw [← Record.layout_untyped, ← Record.layout_untyped, hslots]
      rfl

theorem layoutOf (tag : RecordTag) :
    Alike AnyFailure SameLayout (env.layoutOf tag) (env'.layoutOf tag) := by
  unfold TypeEnv.layoutOf
  rw [h.records, List.length_map]
  exact h.layoutWithin _ tag

theorem remember (tag : RecordTag) : (env.remember tag).Resolves (env'.remember tag) := by
  have hlayout := h.layoutOf tag
  unfold TypeEnv.remember
  generalize env.layoutOf tag = r at hlayout ⊢
  generalize env'.layoutOf tag = r' at hlayout ⊢
  cases hlayout with
  | error => exact h
  | @ok l l' hl =>
    refine ⟨h.passThrough, h.listRecord, h.records, fun other => ?_⟩
    have hknown := h.known other
    unfold known? at hknown ⊢
    by_cases hother : tag = other
    · simpa [hother, SameLayout] using hl
    · simpa [hother] using hknown

theorem foldl_remember (records : List Record) :
    (records.foldl (fun env r => env.remember r.tag) env).Resolves
      (records.foldl (fun env r => env.remember r.tag) env') := by
  induction records generalizing env env' with
  | nil => exact h
  | cons r records ih => exact ih (h.remember r.tag)

theorem rememberAll : env.rememberAll.Resolves env'.rememberAll := by
  unfold TypeEnv.rememberAll
  rw [h.records, List.foldl_map]
  exact h.foldl_remember env.records

theorem isListRecord (t : CType) : env'.isListRecord t.resolved = env.isListRecord t := by
  have hrecord : t.resolved.record? = t.record? := resolving_structural.record? t
  unfold TypeEnv.isListRecord
  rw [hrecord, h.listRecord]

theorem mapType : ∀ t : CType, t.Unmarked env.passThrough →
    Alike AnyFailure Eq (env.mapType t) (env'.mapType t.resolved)
  | .void, _ | .functionPointer _ _ _, _ | .object _, _ => .ok rfl
  | .function _ _ _, _ => .error trivial
  | .scalar s, _ => Alike.refl (fun _ => trivial) s.wrapper
  | .pointer pointee, _ => by
    rw [CType.resolved, TypeEnv.mapType, TypeEnv.mapType, pointee.isFunction_resolved]
    exact .ok rfl
  | .array elem length isVariable, _ => by
    rw [CType.resolved, TypeEnv.mapType, TypeEnv.mapType, h.isListRecord]
    exact Alike.refl (fun _ => trivial) _
  | .record tag, _ => by
    rw [CType.resolved, TypeEnv.mapType, TypeEnv.mapType, isPassThrough, isPassThrough,
      h.passThrough]
    exact .ok rfl
  | .alias name t, ht => by
    have halias : env.isPassThrough (.alias name t) = false := isPassThrough_of_unmarked ht
    have hunder : env.isPassThrough t = false := isPassThrough_of_unmarked ht.2
    rw [CType.resolved, TypeEnv.mapType, halias, hunder]
    exact mapType t ht.2

theorem storageKind : ∀ t : CType, t.Unmarked env.passThrough →
    Alike AnyFailure Eq (env.storageKind t) (env'.storageKind t.resolved)
  | .void, _ | .function _ _ _, _ => .error trivial
  | .functionPointer _ _ _, _ | .object _, _ => .ok rfl
  | .scalar s, _ => Alike.refl (fun _ => trivial) (s.wrapper >>= fun _ => .ok s.stem)
  | .pointer pointee, _ => by
    rw [CType.resolved, TypeEnv.storageKind, TypeEnv.storageKind, pointee.isFunction_resolved]
    exact .ok rfl
  | .array elem length isVariable, _ => by
    rw [CType.resolved, TypeEnv.storageKind, TypeEnv.storageKind]
    exact Alike.refl (fun _ => trivial) _
  | .record tag, _ => by
    rw [CType.resolved, TypeEnv.storageKind, TypeEnv.storageKind, isPassThrough, isPassThrough,
      h.passThrough]
    exact Alike.refl (fun _ => trivial) _
  | .alias name t, ht => by
    have halias : env.isPassThrough (.alias name t) = false := isPassThrough_of_unmarked ht
    have hunder : env.isPassThrough t = false := isPassThrough_of_unmarked ht.2
    rw [CType.resolved, TypeEnv.storageKind, halias, hunder]
    exact storageKind t ht.2

theorem sizeOf : ∀ t : CType, Alike AnyFailure Eq (env.sizeOf t) (env'.sizeOf t.resolved)
  | .void | .pointer _ | .functionPointer _ _ _ | .object _ => .ok rfl
  | .function _ _ _ => .error trivial
  | .scalar s => by
    rw [CType.resolved, TypeEnv.sizeOf, TypeEnv.sizeOf]
    exact Alike.refl (fun _ => trivial) _
  | .alias _ t => sizeOf t
  | .record tag => by
    rw [CType.resolved, TypeEnv.sizeOf, TypeEnv.sizeOf]
    exact (h.layoutOf tag).bind fun l l' hl => .ok (congrArg RecordLayout.size hl).symm
  | .array elem length isVariable => by
    rw [CType.resolved, TypeEnv.sizeOf.eq_def env, TypeEnv.sizeOf.eq_def env']
    dsimp only
    split
    · exact .error trivial
    · cases length with
      | none => exact .error trivial
      | some n => exact (sizeOf elem).bind_eq fun size => .ok rfl

/-- The tables of the two runs agree on types without the marker. -/
theorem agrees (hfields : ∀ r ∈ env.records, ∀ f ∈ r.fields, f.type.Unmarked env.passThrough) :
    Agrees resolving (CType.Unmarked env.passThrough) AnyFailure env env' where
  structural := resolving_structural
  same _ := trivial
  located _ _ _ _ := trivial
  reported _ _ _ := trivial
  ok_unalias _ ht := ht.unalias
  ok_pointee _ ht := ht
  mapType := h.mapType
  storageKind := h.storageKind
  sizeOf t _ := h.sizeOf t
  extent t _ := by
    have hextent := (t.extent_resolved h.layoutOf).toOption_eq
    exact congrArg (Option.map Extent.size) hextent.symm
  passThrough t ht := by
    have hmarker : t.resolved.Unmarked env'.passThrough := h.passThrough ▸ t.unmarked_resolved ht
    exact (isPassThrough_of_unmarked hmarker).trans (isPassThrough_of_unmarked ht).symm
  field tag name := by
    rw [h.records, RecordTable.find_resolved]
    exact List.find?_map
  ok_field tag name f hf := by
    have hmem : f ∈ (env.records.find tag).fields := List.mem_of_find?_eq_some hf
    unfold RecordTable.find at hmem
    cases hr : List.find? (fun r => r.tag.name == tag.name) env.records with
    | none => simp [hr] at hmem
    | some r =>
      rw [hr] at hmem
      exact hfields r (List.mem_of_find?_eq_some hr) f hmem
  layout tag := (h.layoutOf tag).imp fun l l' hl name => by
    rw [← offset?_untyped l', hl, offset?_untyped]

end TypeEnv.Resolves

/-- Keeping layouts changes nothing else. -/
theorem TypeEnv.rememberAll_frame (env : TypeEnv) :
    env.rememberAll.passThrough = env.passThrough ∧ env.rememberAll.records = env.records := by
  have hfresh := env.rememberAll_fresh
  exact ⟨(markers_of_fresh hfresh).1, records_of_fresh hfresh⟩

namespace Lower

section Units

variable {passThrough listRecord : String} {records : RecordTable} {u : SourceUnit}

/-- Replacing type names by what they stand for, in a unit and in its records, changes neither
whether there is output nor the output. -/
theorem typedefs_are_transparent
    (hrecords : ∀ r ∈ records, ∀ f ∈ r.fields,
      f.type.Unmarked (TypeEnv.ofMarkers passThrough listRecord records).passThrough)
    (hu : ∀ d ∈ u.decls,
      d.Typed (CType.Unmarked (TypeEnv.ofMarkers passThrough listRecord records).passThrough))
    (package : String) (cancelled : Bool) :
    (generate (TypeEnv.ofMarkers passThrough listRecord (records.map Record.resolved)).rememberAll
        package cancelled (some u.resolved)).toOption =
      (generate (TypeEnv.ofMarkers passThrough listRecord records).rememberAll
        package cancelled (some u)).toOption := by
  have hfresh : (TypeEnv.ofMarkers passThrough listRecord records).Resolves
      (TypeEnv.ofMarkers passThrough listRecord (records.map Record.resolved)) :=
    ⟨rfl, rfl, rfl, fun _ => rfl⟩
  obtain ⟨hmarker, htable⟩ := (TypeEnv.ofMarkers passThrough listRecord records).rememberAll_frame
  have hagrees := hfresh.rememberAll.agrees (by rw [hmarker, htable]; exact hrecords)
  rw [hmarker] at hagrees
  exact (hagrees.generate hu package cancelled).toOption_eq.symm

end Units

/-- A list of words, whose types all have names. -/
def wordLists : RecordTable :=
  let link : CType := .alias "link" (.pointer (.alias "list" (.record ⟨"node", false⟩)))
  let word : CType := .alias "word" (.alias "u32" (.scalar ⟨.uint, 32, false⟩))
  [⟨⟨"node", false⟩, [⟨"next", link, 0⟩, ⟨"head", word, 0⟩], none⟩]

/-- A function that reads the first word of a list. -/
def readHead : FuncDecl :=
  let link : CType := .alias "link" (.pointer (.alias "list" (.record ⟨"node", false⟩)))
  let word : CType := .alias "word" (.alias "u32" (.scalar ⟨.uint, 32, false⟩))
  { name := "readHead"
    params := [⟨{}, "l", link⟩]
    result := word
    body := some [.ret {} (some (.member { type := some word }
      (.ref { type := some link } "l" .parameter) true "head"))]
    variadic := false
    entry := false }

theorem readHead_unmarked : readHead.Typed (CType.Unmarked TypeEnv.defaultPassThrough) where
  params := by decide
  result := by decide
  body := by
    intro body hbody
    cases hbody
    refine List.forall_mem_singleton.mpr
      ⟨?_, List.forall_mem_nil _, List.forall_mem_nil _, List.forall_mem_nil _⟩
    refine List.forall_mem_singleton.mpr ⟨by decide, List.forall_mem_singleton.mpr ?_⟩
    exact ⟨by decide, List.forall_mem_nil _⟩

theorem readHead_typedefs_are_transparent :
    ∃ text, generate (TypeEnv.ofMarkers "" "" wordLists).rememberAll "" false
        (some ⟨"", "", [.func readHead]⟩) = .ok text ∧
      (generate (TypeEnv.ofMarkers "" "" (wordLists.map Record.resolved)).rememberAll "" false
        (some (SourceUnit.resolved ⟨"", "", [.func readHead]⟩))).toOption = some text := by
  obtain ⟨text, htext⟩ : ∃ text, generate (TypeEnv.ofMarkers "" "" wordLists).rememberAll "" false
      (some ⟨"", "", [.func readHead]⟩) = .ok text := ⟨_, rfl⟩
  have hrecords : ∀ r ∈ wordLists, ∀ f ∈ r.fields,
      f.type.Unmarked TypeEnv.defaultPassThrough := by decide
  refine ⟨text, htext, (typedefs_are_transparent hrecords ?_ "" false).trans ?_⟩
  · exact List.forall_mem_singleton.mpr readHead_unmarked
  · rw [htext]
    rfl

end Lower

end DartLowering
