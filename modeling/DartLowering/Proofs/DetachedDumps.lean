import DartLowering.Dump.Resolve
import DartLowering.Proofs.Result

/-!
Dumps away from the texts they stand in. A value that was read remembers the text around it, of
which only its own characters are ever looked at. `Json.detached` keeps those and nothing else, so
values of different texts can be compared; a dump and its detached form are read alike.
-/
namespace DartLowering

namespace Json

/-- The extent of a text that holds the value alone. -/
def Extent.alone (e : Extent) : Extent := ⟨e.text.toList, []⟩

@[simp] theorem Extent.text_alone (e : Extent) : e.alone.text = e.text := by
  change String.ofList (e.text.toList.take (e.text.toList.length - 0)) = e.text
  rw [Nat.sub_zero, List.take_length, String.ofList_toList]

mutual

/-- The value in a text of its own, and so are its parts. -/
def detached : Json → Json
  | .null => .null
  | .bool value => .bool value
  | .number source => .number source
  | .string source value => .string source value
  | .array extent items => .array extent.alone (detachedItems items)
  | .object extent members => .object extent.alone (detachedMembers members)

def detachedItems : List Json → List Json
  | [] => []
  | j :: js => j.detached :: detachedItems js

def detachedMembers : List (String × Json) → List (String × Json)
  | [] => []
  | (key, value) :: ms => (key, value.detached) :: detachedMembers ms

end

@[simp] theorem detachedItems_eq_map (js : List Json) : detachedItems js = js.map detached := by
  induction js with
  | nil => rfl
  | cons j js ih => rw [detachedItems, ih, List.map_cons]

@[simp] theorem detachedMembers_eq_map (ms : List (String × Json)) :
    detachedMembers ms = ms.map fun m => (m.1, m.2.detached) := by
  induction ms with
  | nil => rfl
  | cons m ms ih => rw [detachedMembers, ih, List.map_cons]

@[simp] theorem source_detached (j : Json) : j.detached.source = j.source := by
  cases j <;> simp [detached, source]

def isNull : Json → Bool
  | .null => true
  | _ => false

theorem isNull_detached (j : Json) : j.detached.isNull = j.isNull := by
  cases j <;> rfl

end Json

namespace Dump

open Json

section Keys

variable (key : String) (node : Json)

theorem lookup_detached (ms : List (String × Json)) :
    lookup key (ms.map fun m => (m.1, m.2.detached)) = (lookup key ms).map detached := by
  unfold lookup
  rw [List.find?_map, Option.map_map, Option.map_map]
  rfl

@[simp] theorem get?_detached : get? key node.detached = (get? key node).map detached := by
  cases node with
  | object extent members => rw [detached, get?, detachedMembers_eq_map, lookup_detached, get?]
  | _ => rfl

@[simp] theorem textAt_detached : textAt key node.detached = textAt key node := by
  unfold textAt
  rw [get?_detached]
  cases get? key node with
  | none => rfl
  | some j => cases j <;> rfl

@[simp] theorem flagAt?_detached : flagAt? key node.detached = flagAt? key node := by
  unfold flagAt?
  rw [get?_detached]
  cases get? key node with
  | none => rfl
  | some j => cases j <;> rfl

@[simp] theorem flagAt_detached : flagAt key node.detached = flagAt key node := by
  rw [flagAt, flagAt?_detached, flagAt]

@[simp] theorem word?_detached : word? node.detached = word? node := by
  cases node <;> rfl

@[simp] theorem wordAt?_detached : wordAt? key node.detached = wordAt? key node := by
  rw [wordAt?, get?_detached, wordAt?]
  cases get? key node with
  | none => rfl
  | some j => exact word?_detached j

@[simp] theorem wordAt_detached : wordAt key node.detached = wordAt key node := by
  rw [wordAt, wordAt?_detached, wordAt]

theorem itemsOf_detached (j? : Option Json) :
    itemsOf (j?.map detached) = (itemsOf j?).map detached := by
  cases j? with
  | none => rfl
  | some j =>
    cases j with
    | array extent items => exact detachedItems_eq_map items
    | _ => rfl

@[simp] theorem itemsAt_detached :
    itemsAt key node.detached = (itemsAt key node).map (Option.map detached) := by
  unfold itemsAt
  rw [get?_detached, itemsOf_detached, List.map_map, List.map_map]
  refine List.map_congr_left fun j _ => ?_
  cases j <;> rfl

end Keys

namespace Reading

/-- The readings name the same records and write the same messages. -/
structure Same (r r' : Reading) : Prop where
  path : r'.path = r.path
  file : r'.file = r.file
  tag : ∀ name, r'.tag name = r.tag name

theorem Same.refl (r : Reading) : r.Same r := ⟨rfl, rfl, fun _ => rfl⟩

theorem indexed_detached {β : Type} {f g : Option Json → String → Result β}
    (h : ∀ node place, g (node.map detached) place = f node place) (place : String) (index : Nat)
    (nodes : List (Option Json)) :
    indexed g place index (nodes.map (Option.map detached)) = indexed f place index nodes := by
  induction nodes generalizing index with
  | nil => rfl
  | cons node nodes ih => rw [List.map_cons, indexed, indexed, h, ih]

theorem scalar_detached (canonical : Scalar) (node : Json) :
    scalar canonical node.detached = scalar canonical node := by
  simp only [scalar, wordAt_detached, flagAt?_detached]

theorem integerText_detached (value : Option Json) :
    integerText (value.map detached) = integerText value := by
  cases value with
  | none => rfl
  | some j =>
    cases j with
    | array extent items => exact extent.text_alone
    | object extent members => exact extent.text_alone
    | _ => rfl

theorem integer?_detached (value : Option Json) :
    integer? (value.map detached) = integer? value := by
  rw [integer?, integerText_detached, integer?]

theorem sourceText_detached (value : Option Json) :
    sourceText (value.map detached) = sourceText value := by
  cases value with
  | none => rfl
  | some j => exact source_detached j

variable {r r' : Reading} (h : r.Same r')

include h

namespace Same

theorem malformed {α : Type} (place : String) (fault : DumpFault) :
    (r'.malformed place fault : Result α) = r.malformed place fault := by
  rw [Reading.malformed, h.path, Reading.malformed]

theorem position (node : Json) : r'.position node.detached = r.position node := by
  unfold Reading.position
  rw [get?_detached, h.file]
  cases get? "pos" node with
  | none => rfl
  | some p => simp only [Option.map_some, wordAt_detached]

theorem type (fuel : Nat) (node : Option Json) (place : String) :
    r'.type fuel (node.map detached) place = r.type fuel node place := by
  induction fuel generalizing node place with
  | zero =>
    cases node with
    | none => exact h.malformed place _
    | some node => rfl
  | succ fuel ih =>
    cases node with
    | none => exact h.malformed place _
    | some node =>
      simp only [Option.map_some, Reading.type, textAt_detached, get?_detached, ih, h.malformed,
        scalar_detached, wordAt?_detached, flagAt_detached, itemsAt_detached,
        indexed_detached ih, h.tag]

theorem optionalType (fuel : Nat) (node : Option Json) (place : String) :
    r'.optionalType fuel (node.map detached) place = r.optionalType fuel node place := by
  cases node with
  | none => rfl
  | some node =>
    have htype := h.type fuel (some node) place
    rw [Option.map_some] at htype
    rw [Option.map_some, Reading.optionalType, Reading.optionalType, htype]

theorem bytesFrom (place : String) (index : Nat) (items : List Json) :
    r'.bytesFrom place index (items.map detached) = r.bytesFrom place index items := by
  induction items generalizing index with
  | nil => rfl
  | cons j js ih => simp only [List.map_cons, Reading.bytesFrom, word?_detached, h.malformed, ih]

theorem stringBytes (node : Json) (place : String) :
    r'.stringBytes node.detached place = r.stringBytes node place := by
  simp only [Reading.stringBytes, get?_detached, h.malformed]
  cases get? "bytes" node with
  | none =>
    cases get? "value" node with
    | none => rfl
    | some value => cases value <;> rfl
  | some bytes =>
    cases bytes with
    | array extent items =>
      rw [Option.map_some, detached, detachedItems_eq_map]
      exact h.bytesFrom place 0 items
    | _ =>
      cases get? "value" node with
      | none => rfl
      | some value => cases value <;> rfl

theorem checkLength (type : Option CType) (bytes : List UInt8) (place : String) :
    r'.checkLength type bytes place = r.checkLength type bytes place := by
  simp only [Reading.checkLength, h.malformed]

theorem record (node : Json) (place : String) (e : Expr) :
    r'.record node.detached place e = r.record node place e := by
  unfold Reading.record
  rw [get?_detached]
  cases get? "const" node with
  | none => rfl
  | some j =>
    have hvalue := integer?_detached (some j)
    rw [Option.map_some] at hvalue
    simp only [Option.map_some, hvalue, h.malformed, source_detached]

theorem expr (fuel : Nat) (node : Option Json) (place : String) :
    r'.expr fuel (node.map detached) place = r.expr fuel node place := by
  induction fuel generalizing node place with
  | zero =>
    cases node with
    | none => exact h.malformed place _
    | some node => rfl
  | succ fuel ih =>
    cases node with
    | none => exact h.malformed place _
    | some node =>
      simp only [Option.map_some, Reading.expr, textAt_detached, get?_detached, ih, h.malformed,
        flagAt_detached, itemsAt_detached, indexed_detached ih, h.position, h.optionalType, h.type,
        integer?_detached, sourceText_detached, h.stringBytes, h.checkLength, h.record]
      -- The value of a floating literal and the receiver of a message are also looked at directly.
      cases get? "receiver" node with
      | none | some =>
        cases get? "value" node with
        | none => rfl
        | some value => cases value <;> rfl

omit h in
theorem optional {α : Type} {f g : Option Json → String → Result α}
    (hfg : ∀ node place, g (node.map detached) place = f node place) (node : Option Json)
    (place : String) :
    Reading.optional g (node.map detached) place = Reading.optional f node place := by
  cases node with
  | none => rfl
  | some node =>
    have hnode := hfg (some node) place
    rw [Option.map_some] at hnode
    rw [Option.map_some, Reading.optional, Reading.optional, hnode]

theorem varDecl (fuel : Nat) (node : Option Json) (place : String) :
    r'.varDecl fuel (node.map detached) place = r.varDecl fuel node place := by
  cases node with
  | none => exact h.malformed place _
  | some node =>
    simp only [Option.map_some, Reading.varDecl, textAt_detached, get?_detached,
      h.malformed, h.type, optional (h.expr fuel), h.position]

theorem switchCase {f g : Option Json → String → Result Stmt}
    (hfg : ∀ node place, g (node.map detached) place = f node place) (fuel : Nat)
    (node : Option Json) (place : String) :
    r'.switchCase fuel g (node.map detached) place = r.switchCase fuel f node place := by
  cases node with
  | none => rfl
  | some node =>
    simp only [Option.map_some, Reading.switchCase, flagAt_detached, get?_detached,
      itemsAt_detached, h.expr, indexed_detached hfg, h.position]

theorem stmt (fuel : Nat) (node : Option Json) (place : String) :
    r'.stmt fuel (node.map detached) place = r.stmt fuel node place := by
  induction fuel generalizing node place with
  | zero =>
    cases node with
    | none => exact h.malformed place _
    | some node => rfl
  | succ fuel ih =>
    cases node with
    | none => exact h.malformed place _
    | some node =>
      simp only [Option.map_some, Reading.stmt, textAt_detached, get?_detached, ih, h.expr,
        itemsAt_detached, indexed_detached ih, indexed_detached (h.varDecl fuel),
        indexed_detached (h.switchCase ih fuel), optional ih, optional (h.expr fuel), h.position]

theorem param (fuel : Nat) (node : Option Json) (place : String) :
    r'.param fuel (node.map detached) place = r.param fuel node place := by
  cases node with
  | none => rfl
  | some node =>
    simp only [Option.map_some, Reading.param, get?_detached, h.type, h.position, textAt_detached]

theorem body (fuel : Nat) (node : Option Json) (place : String) :
    r'.body fuel (node.map detached) place = r.body fuel node place := by
  cases node with
  | none => rfl
  | some node =>
    have hstmt := h.stmt fuel (some node) place
    rw [Option.map_some] at hstmt
    simp only [Option.map_some, Reading.body, hstmt, h.malformed]

theorem decl (fuel : Nat) (node : Option Json) (place : String) :
    r'.decl fuel (node.map detached) place = r.decl fuel node place := by
  cases node with
  | none => exact h.malformed place _
  | some node =>
    have hvar := h.varDecl fuel (some node) place
    rw [Option.map_some] at hvar
    simp only [Option.map_some, Reading.decl, textAt_detached, get?_detached, itemsAt_detached,
      indexed_detached (h.param fuel), h.type, h.body, flagAt_detached, h.position,
      h.malformed, hvar]

theorem field (fuel : Nat) (node : Option Json) (place : String) :
    r'.field fuel (node.map detached) place = r.field fuel node place := by
  cases node with
  | none => rfl
  | some node =>
    simp only [Option.map_some, Reading.field, get?_detached, h.type, wordAt?_detached,
      textAt_detached]

theorem recordOf (fuel : Nat) (entry : String × Json) :
    r'.recordOf fuel (entry.1, entry.2.detached) = r.recordOf fuel entry := by
  simp only [Reading.recordOf, itemsAt_detached, indexed_detached (h.field fuel), wordAt_detached,
    wordAt?_detached, flagAt_detached]

end Same

end Reading

section Canonical

def detachedMember (m : String × Json) : String × Json := (m.1, m.2.detached)

theorem object_detached (ms : List (String × Json)) :
    (object ms).detached = object (ms.map detachedMember) := by
  rw [object, detached, detachedMembers_eq_map]
  rfl

theorem array_detached (js : List Json) : (array js).detached = array (js.map detached) := by
  rw [array, detached, detachedItems_eq_map]
  rfl

theorem membersOf_detached (j? : Option Json) :
    membersOf (j?.map detached) = (membersOf j?).map detachedMember := by
  cases j? with
  | none => rfl
  | some j =>
    cases j with
    | object extent members => exact detachedMembers_eq_map members
    | _ => rfl

theorem assign_cons (key : String) (value : Option Json) (m : String × Json)
    (ms : List (String × Json)) : assign key value (m :: ms) =
      if m.1 = key then value.toList.map (key, ·) ++ ms else m :: assign key value ms := by
  by_cases hkey : m.1 = key
  · cases value <;> simp [assign, hkey]
  · cases value <;> simp [assign, hkey]

theorem assign_detached (key : String) (value : Option Json) (ms : List (String × Json)) :
    assign key (value.map detached) (ms.map detachedMember) =
      (assign key value ms).map detachedMember := by
  induction ms with
  | nil => cases value <;> rfl
  | cons m ms ih =>
    have hname : (detachedMember m).1 = m.1 := rfl
    rw [List.map_cons, assign_cons, assign_cons, hname]
    split
    · cases value <;> rfl
    · rw [ih, List.map_cons]

theorem earlier_detached (key : String) (done : List (String × Json)) :
    earlier key (done.map detachedMember) = (earlier key done).map detached := by
  have hlookup : ∀ key, lookup key (done.map detachedMember) = (lookup key done).map detached :=
    fun key => lookup_detached key done
  unfold earlier
  rw [hlookup, hlookup]
  cases lookup key done with
  | none => rfl
  | some value =>
    cases value with
    | array extent items =>
      cases lookup (coveredKey key) done with
      | none => rfl
      | some more =>
        cases more with
        | array extent' more =>
          simp only [Option.map_some, detached, array_detached, detachedItems_eq_map,
            List.map_append]
        | _ => rfl
    | _ => rfl

theorem covered_detached (old new : Option Json) :
    covered (old.map detached) (new.map detached) = (covered old new).map detached := by
  cases old with
  | none => rfl
  | some old =>
    cases new with
    | none => cases old <;> rfl
    | some new =>
      cases old with
      | array extent old =>
        cases new with
        | array extent' new =>
          cases new with
          | nil => rfl
          | cons j js =>
            simp only [Option.map_some, detached, detachedItems_eq_map, List.map_cons, covered,
              List.length_map, List.length_cons]
            split
            · rfl
            · rw [Option.map_some, array_detached, List.map_drop]
        | _ => rfl
      | _ => rfl

theorem continued_detached (key : String) (value : Option Json) (done : List (String × Json)) :
    continued key (value.map detached) (done.map detachedMember) =
      (continued key value done).map detachedMember := by
  rw [continued, earlier_detached, covered_detached, assign_detached, assign_detached, continued]

mutual

theorem conform_detached (old : Option Json) : ∀ (shape : Shape) (j : Json),
    conform (old.map detached) shape j.detached = (conform old shape j).map (Option.map detached)
  | shape, .null => by
    cases shape with
    | flag nullable | word nullable => cases nullable <;> rfl
    | _ => rfl
  | shape, .bool value => by cases shape <;> rfl
  | shape, .number source => by
    cases shape with
    | word nullable =>
      rw [detached, conform, conform]
      split <;> rfl
    | _ => rfl
  | shape, .string source value => by cases shape <;> rfl
  | shape, .array extent items => by
    have hitems := fun item => conformItems_detached item (itemsOf old) items
    cases shape with
    | many item =>
      rw [detached, conform, conform, itemsOf_detached, detachedItems_eq_map, hitems,
        Option.map_map, Option.map_map]
      refine congrArg (Option.map · _) (funext fun js => ?_)
      exact congrArg some (array_detached js).symm
    | _ => rfl
  | shape, .object extent members => by
    have hmembers := fun kind => conformMembers_detached kind (membersOf old) members
    have hentries := fun kind => conformEntries_detached kind (membersOf old) members
    have hdetached : detachedMembers members = members.map detachedMember :=
      detachedMembers_eq_map members
    cases shape with
    | one kind =>
      rw [detached, conform, conform, membersOf_detached, hdetached, hmembers, Option.map_map,
        Option.map_map]
      refine congrArg (Option.map · _) (funext fun ms => ?_)
      exact congrArg some (object_detached ms).symm
    | table kind =>
      rw [detached, conform, conform, membersOf_detached, hdetached, hentries, Option.map_map,
        Option.map_map]
      refine congrArg (Option.map · _) (funext fun ms => ?_)
      exact congrArg some (object_detached ms).symm
    | _ => rfl

theorem conformMembers_detached (kind : Kind) (done : List (String × Json)) :
    ∀ ms : List (String × Json),
    conformMembers kind (done.map detachedMember) (ms.map detachedMember) =
      (conformMembers kind done ms).map (List.map detachedMember)
  | [] => rfl
  | (key, value) :: ms => by
    have hvalue := fun old shape => conform_detached old shape value
    have hrest := fun done => conformMembers_detached kind done ms
    rw [List.map_cons, detachedMember, conformMembers, conformMembers]
    cases kind.key? key with
    | none => rfl
    | some k =>
      obtain ⟨name, shape⟩ := k
      dsimp only
      rw [earlier_detached, hvalue]
      cases conform (earlier name done) shape value with
      | none => rfl
      | some v =>
        dsimp only [Option.map_some]
        rw [continued_detached, hrest]

theorem conformItems_detached (item : Shape) (old : List Json) : ∀ js : List Json,
    conformItems item (old.map detached) (js.map detached) =
      (conformItems item old js).map (List.map detached)
  | [] => rfl
  | j :: js => by
    have hvalue := conform_detached old.head? item j
    have hrest := conformItems_detached item old.tail js
    rw [List.map_cons, conformItems, conformItems, List.head?_map, hvalue]
    cases conform old.head? item j with
    | none => rfl
    | some v =>
      dsimp only [Option.map_some]
      rw [← List.map_tail, hrest, Option.map_map, Option.map_map]
      refine congrArg (Option.map · _) (funext fun vs => ?_)
      cases v <;> rfl

theorem conformEntries_detached (kind : Kind) (done : List (String × Json)) :
    ∀ ms : List (String × Json),
    conformEntries kind (done.map detachedMember) (ms.map detachedMember) =
      (conformEntries kind done ms).map (List.map detachedMember)
  | [] => rfl
  | (key, value) :: ms => by
    have hvalue := conform_detached none (.one kind) value
    have hrest := fun done => conformEntries_detached kind done ms
    rw [Option.map_none] at hvalue
    rw [List.map_cons, detachedMember, conformEntries, conformEntries, hvalue]
    cases conform none (.one kind) value with
    | none => rfl
    | some v =>
      dsimp only [Option.map_some]
      have hassigned := assign_detached key (some (v.getD .null)) done
      have hnull : (v.map detached).getD .null = (v.getD .null).detached := by
        cases v <;> rfl
      rw [hnull, ← hrest, ← hassigned]
      rfl

end

theorem canonical_detached (j : Json) : canonical j.detached = (canonical j).map detached := by
  have hconform := conform_detached none (.one .unit) j
  rw [Option.map_none] at hconform
  rw [canonical, canonical, hconform, Option.map_map, Option.map_map]
  refine congrArg (Option.map · _) (funext fun v => ?_)
  cases v <;> rfl

end Canonical

theorem Reading.records_detached (r : Reading) (fuel : Nat) (entries : List (String × Json)) :
    r.records fuel (entries.map detachedMember) = r.records fuel entries := by
  induction entries with
  | nil => rfl
  | cons entry entries ih =>
    rw [List.map_cons, records, records, ih]
    exact congrArg (· >>= _) ((Same.refl r).recordOf fuel entry)

section Units

def entriesOf (dump : Json) : List (String × Json) := membersOf (get? "records" dump)

/-- What a canonical dump says about its nodes. -/
def readingOf (path : String) (dump : Json) : Reading :=
  { path, file := textAt "file" dump
    tags := (entriesOf dump).map fun e => ⟨e.1, flagAt "union" e.2⟩ }

theorem resolve_eq (path : String) (markers : Markers) (dump : Json) :
    resolve path markers dump =
      (if (entriesOf dump).any fun e => e.2.isNull then .error .crash
      else do
        let records ← (readingOf path dump).records Json.maxNesting (entriesOf dump)
        let decls ←
          indexed ((readingOf path dump).decl Json.maxNesting) "decls" 0 (itemsAt "decls" dump)
        .ok ⟨⟨textAt "name" dump, textAt "file" dump, decls⟩,
          (TypeEnv.ofMarkers markers.passThrough markers.listRecord records).rememberAll⟩) := rfl

theorem entriesOf_detached (dump : Json) :
    entriesOf dump.detached = (entriesOf dump).map detachedMember := by
  rw [entriesOf, get?_detached, membersOf_detached, entriesOf]

theorem readingOf_detached (path : String) (dump : Json) :
    readingOf path dump.detached = readingOf path dump := by
  have htag : (fun e : String × Json => (⟨e.1, flagAt "union" e.2⟩ : RecordTag)) ∘ detachedMember =
      fun e => ⟨e.1, flagAt "union" e.2⟩ :=
    funext fun e => congrArg (RecordTag.mk e.1) (flagAt_detached "union" e.2)
  rw [readingOf, readingOf, entriesOf_detached, textAt_detached, List.map_map, htag]

theorem resolve_detached (path : String) (markers : Markers) (dump : Json) :
    resolve path markers dump.detached = resolve path markers dump := by
  have hnull : (fun e : String × Json => e.2.isNull) ∘ detachedMember = fun e => e.2.isNull := by
    funext e
    exact e.2.isNull_detached
  have hdecls :=
    Reading.indexed_detached ((Reading.Same.refl (readingOf path dump)).decl maxNesting)
  simp only [resolve_eq, entriesOf_detached, readingOf_detached, List.any_map, hnull,
    Reading.records_detached, itemsAt_detached, hdecls, textAt_detached]

/-- A dump is read as what it is when it stands alone. -/
theorem ofJson_detached (path : String) (markers : Markers) (j : Json) :
    ofJson path markers j.detached = ofJson path markers j := by
  rw [ofJson, ofJson, canonical_detached]
  cases canonical j with
  | none => rfl
  | some dump => exact resolve_detached path markers dump

end Units

end Dump

end DartLowering
