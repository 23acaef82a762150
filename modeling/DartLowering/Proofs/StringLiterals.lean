import DartLowering.Proofs.DumpNodes
import DartLowering.Proofs.PackedArguments
import DartLowering.Proofs.Patch

/-!
String literals from the dump to the emitted code. A node gives the numbers of a literal, one by one
or as a text in UTF-8; it is read only where all of them are bytes and the literal fits its type.
The code lists them with a zero at the end, directly and where the literal decays to a pointer, and
`readLiteral` reads the list back.
-/
namespace DartLowering

open Result

namespace Lower

/-- Numbers with commas between them, at most as many as given, and the text after them. -/
def readNumbers : Nat → List Char → Option (List Int × List Char)
  | 0, _ => none
  | most + 1, cs => do
      let (n, rest) ← Diff.readNumber cs
      match rest with
      | ',' :: ' ' :: rest => do
          let (ns, rest) ← readNumbers most rest
          some ((n : Int) :: ns, rest)
      | rest => some ([(n : Int)], rest)

/-- The list that a text begins with as the bytes of a pointer, and the text after them. -/
def readLiteral (text : String) : Option (List Int × String) := do
  let rest ← text.toList.dropPrefix? (Wrapper.pointer ++ ".fromBytes(<int>[").toList
  let (ns, rest) ← readNumbers rest.length rest
  let rest ← rest.dropPrefix? "])".toList
  some (ns, String.ofList rest)

section Reader

/-- A list is read up to a character that no number and no list goes on with. -/
theorem readNumbers_join {ns : List Nat} (hns : ns ≠ []) {most : Nat} (hmost : ns.length ≤ most)
    (rest : List Char) :
    readNumbers most ((Text.join ", " (ns.map Text.decimalNat)).toList ++ ']' :: rest) =
      some (ns.map Int.ofNat, ']' :: rest) := by
  induction ns generalizing most with
  | nil => exact absurd rfl hns
  | cons n ns ih =>
    obtain ⟨most, rfl⟩ : ∃ k, most = k + 1 := ⟨most - 1, by rw [List.length_cons] at hmost; omega⟩
    cases ns with
    | nil =>
      rw [List.map_singleton, Lower.join_singleton, readNumbers,
        Diff.readNumber_decimal n (by simp)]
      rfl
    | cons m ns =>
      have hrest := ih (List.cons_ne_nil m ns) (Nat.le_of_succ_le_succ hmost)
      rw [List.map_cons, List.map_cons, join_cons_cons, String.toList_append, String.toList_append,
        List.append_assoc, List.append_assoc, readNumbers,
        Diff.readNumber_decimal n (by simp)]
      rw [List.map_cons] at hrest
      simp [hrest]

/-- The list has an item for each byte and a zero, so it is no longer than its text. -/
theorem length_le_join (ns : List Nat) :
    ns.length ≤ (Text.join ", " (ns.map Text.decimalNat)).toList.length := by
  induction ns with
  | nil => exact Nat.zero_le _
  | cons n ns ih =>
    have hdigits : 0 < (Text.decimalNat n).toList.length := by
      rw [Text.decimalNat, String.toList_ofList]
      exact List.length_pos_iff.mpr Nat.toDigits_ne_nil
    cases ns with
    | nil =>
      rw [List.map_singleton, join_singleton, List.length_singleton]
      exact hdigits
    | cons m ns =>
      rw [List.map_cons, List.map_cons, join_cons_cons, String.toList_append, String.toList_append,
        List.length_append, List.length_append]
      rw [List.map_cons] at ih
      simp only [List.length_cons] at ih ⊢
      omega

theorem stringCode_text (bytes : List UInt8) : (stringCode bytes).text =
    Wrapper.pointer ++ ".fromBytes(<int>[" ++
      Text.join ", " ((bytes.map UInt8.toNat ++ [0]).map Text.decimalNat) ++ "])" := by
  simp [← String.toList_inj, stringCode, onClass, Code.text, Code.texts, join_singleton]

/-- The code of a literal is read back as its bytes and a zero. -/
theorem readLiteral_stringCode (bytes : List UInt8) (view : String) :
    readLiteral ((stringCode bytes).text ++ view) =
      some (bytes.map (fun b => (b.toNat : Int)) ++ [0], view) := by
  obtain ⟨ns, hns⟩ : ∃ ns, bytes.map UInt8.toNat ++ [0] = ns := ⟨_, rfl⟩
  have hne : ns ≠ [] := by simp [← hns]
  have htext : ((stringCode bytes).text ++ view).toList =
      (Wrapper.pointer ++ ".fromBytes(<int>[").toList ++
        ((Text.join ", " (ns.map Text.decimalNat)).toList ++ ']' :: ')' :: view.toList) := by
    rw [stringCode_text, hns]
    simp
  have hmost : ns.length ≤
      ((Text.join ", " (ns.map Text.decimalNat)).toList ++ ']' :: ')' :: view.toList).length := by
    rw [List.length_append]
    exact Nat.le_add_right_of_le (length_le_join ns)
  have hclose : (']' :: ')' :: view.toList).dropPrefix? "])".toList = some view.toList := by
    change ("])".toList ++ view.toList).dropPrefix? "])".toList = some view.toList
    exact List.dropPrefix?_append_of_beq _ (BEq.refl _)
  have hvalues : ns.map Int.ofNat = bytes.map (fun b => (b.toNat : Int)) ++ [0] := by
    simp [← hns]
  rw [readLiteral, htext, List.dropPrefix?_append_of_beq _ (BEq.refl _)]
  simp only [Option.bind_eq_bind, Option.bind_some, readNumbers_join hne hmost, hclose, hvalues,
    String.ofList_toList]

end Reader

end Lower

namespace Dump

variable {shape : Shape} {j : Json}

/-- The number that stands for a byte; a null counts as zero. -/
def byteValue (j : Json) : Int := ((word? j).getD 0).toInt

/-- The bytes of a text in UTF-8; a null is the empty text. -/
def textValues? : Option Json → Option (List Int)
  | some (.string _ value) => some (value.toUTF8.toList.map fun b => (b.toNat : Int))
  | some .null => some []
  | _ => none

/-- The numbers of a literal: those listed, or else the bytes of its text. -/
def literalValues? (node : Json) : Option (List Int) :=
  match get? "bytes" node with
  | some (.array _ items) => some (items.map byteValue)
  | _ => textValues? (get? "value" node)

def IsByte (v : Int) : Prop := 0 ≤ v ∧ v ≤ 255

instance (v : Int) : Decidable (IsByte v) := inferInstanceAs (Decidable (0 ≤ v ∧ v ≤ 255))

theorem isByte_toNat (b : UInt8) : IsByte b.toNat := by
  have hb := b.toNat_lt
  unfold IsByte
  omega

namespace Reading

variable (r : Reading) {items : List Json} {bytes : List UInt8} {place : String} {node : Json}
  {fuel : Nat}

theorem refused_iff (v : Int64) : (v < 0 || 0xff < v) = true ↔ ¬ IsByte v.toInt := by
  have hmax : (0xff : Int64).toInt = 255 := rfl
  have hzero : (0 : Int64).toInt = 0 := rfl
  rw [Bool.or_eq_true, decide_eq_true_iff, decide_eq_true_iff, Int64.lt_iff_toInt_lt,
    Int64.lt_iff_toInt_lt, hmax, hzero, IsByte]
  omega

theorem toNat_byte {v : Int} (h : IsByte v) : (v.toNat.toUInt8.toNat : Int) = v := by
  obtain ⟨hlow, hhigh⟩ := h
  rw [Nat.toUInt8, UInt8.toNat_ofNat', Nat.mod_eq_of_lt (by omega)]
  omega

theorem values_injective : Function.Injective (List.map fun b : UInt8 => (b.toNat : Int)) :=
  List.map_injective_iff.mpr fun _ _ h => UInt8.toNat_inj.mp (Int.ofNat_inj.mp h)

theorem exists_bytes {values : List Int} (h : ∀ v ∈ values, IsByte v) :
    ∃ bytes : List UInt8, values = bytes.map fun b => (b.toNat : Int) := by
  induction values with
  | nil => exact ⟨[], rfl⟩
  | cons v values ih =>
    obtain ⟨hv, hrest⟩ := List.forall_mem_cons.mp h
    obtain ⟨bytes, rfl⟩ := ih hrest
    exact ⟨v.toNat.toUInt8 :: bytes, by rw [List.map_cons, toNat_byte hv]⟩

theorem bytesFrom_of_bytes (h : items.map byteValue = bytes.map fun b => (b.toNat : Int))
    (place : String) (index : Nat) : r.bytesFrom place index items = .ok bytes := by
  induction items generalizing index bytes with
  | nil => rw [List.map_eq_nil_iff.mp h.symm, bytesFrom]
  | cons j js ih =>
    obtain ⟨b, rest, rfl, hb, hrest⟩ := List.map_eq_cons_iff.mp h.symm
    have hbyte : IsByte (byteValue j) := hb ▸ isByte_toNat b
    have hsame : ((word? j).getD 0).toInt.toNat.toUInt8 = b :=
      UInt8.toNat_inj.mp (Int.ofNat_inj.mp ((toNat_byte hbyte).trans hb.symm))
    rw [bytesFrom, if_neg fun hrefused => (refused_iff _).mp hrefused hbyte, ih hrest.symm, hsame]
    rfl

/-- The first number that is no byte is reported. -/
theorem bytesFrom_of_refused (h : ∃ v ∈ items.map byteValue, ¬ IsByte v) (place : String)
    (index : Nat) :
    ∃ i v, r.bytesFrom place index items = r.malformed place (.stringByte (index + i) v) ∧
      (items.map byteValue)[i]? = some v.toInt ∧ ¬ IsByte v.toInt ∧
      ∀ u ∈ (items.map byteValue).take i, IsByte u := by
  induction items generalizing index with
  | nil =>
    obtain ⟨v, hv, -⟩ := h
    cases hv
  | cons j js ih =>
    rw [bytesFrom]
    split
    next hrefused =>
      exact ⟨0, (word? j).getD 0, rfl, rfl, (refused_iff _).mp hrefused, List.forall_mem_nil _⟩
    next hbyte =>
      have hyes : IsByte (byteValue j) :=
        Decidable.not_not.mp fun h => hbyte ((refused_iff _).mpr h)
      obtain ⟨v, hv, hno⟩ := h
      rcases List.mem_cons.mp hv with rfl | hv
      · exact absurd hyes hno
      · obtain ⟨i, u, hrun, hi, hu, hbefore⟩ := ih ⟨v, hv, hno⟩ (index + 1)
        refine ⟨i + 1, u, ?_, hi, hu, List.forall_mem_cons.mpr ⟨hyes, hbefore⟩⟩
        rw [hrun, Nat.add_right_comm]
        rfl

theorem bytesFrom_eq_ok :
    r.bytesFrom place 0 items = .ok bytes ↔
      items.map byteValue = bytes.map fun b => (b.toNat : Int) := by
  refine ⟨fun h => ?_, fun h => r.bytesFrom_of_bytes h place 0⟩
  by_cases hbytes : ∃ v ∈ items.map byteValue, ¬ IsByte v
  · obtain ⟨i, v, hrun, -⟩ := r.bytesFrom_of_refused hbytes place 0
    rw [hrun] at h
    cases h
  · have hall : ∀ v ∈ items.map byteValue, IsByte v := by simpa using hbytes
    obtain ⟨bytes', hvalues⟩ := exists_bytes hall
    rw [r.bytesFrom_of_bytes hvalues] at h
    cases h
    exact hvalues

theorem stringBytes_eq_ok :
    r.stringBytes node place = .ok bytes ↔
      literalValues? node = some (bytes.map fun b => (b.toNat : Int)) := by
  unfold stringBytes
  split
  next extent items hlisted =>
    rw [r.bytesFrom_eq_ok, literalValues?, hlisted, Option.some.injEq]
  next hother =>
    have hvalues : literalValues? node = textValues? (get? "value" node) := by
      unfold literalValues?
      split
      next extent items hlisted => exact (hother extent items hlisted).elim
      · rfl
    rw [hvalues]
    split
    next source value htext =>
      rw [htext, textValues?, Except.ok.injEq, Option.some.injEq, values_injective.eq_iff]
    next hnull =>
      rw [hnull, textValues?, Except.ok.injEq, Option.some.injEq, eq_comm, eq_comm (a := []),
        List.map_eq_nil_iff]
    next hnoText hnoNull =>
      rw [textValues?.eq_3 _ hnoText hnoNull]
      simp [malformed]

/-- A literal is read from its type, its bytes and what is recorded for it. -/
theorem expr_string (hkind : textAt "kind" node = "string") :
    r.expr (fuel + 1) (some node) place = (do
      let type ← r.optionalType fuel (get? "type" node) (place ++ ".type")
      let bytes ← r.stringBytes node place
      r.checkLength type bytes place
      r.record node place (.string { position := r.position node, type } bytes)) := by
  rw [Reading.expr]
  simp only [hkind, Result.ok_bind]

/-- The literal that a node gives: its bytes, a type that it fits, and whether a constant is
recorded. -/
structure LiteralOf (r : Reading) (node : Json) (info : ExprInfo) (bytes : List UInt8) : Prop where
  kind : textAt "kind" node = "string"
  values : literalValues? node = some (bytes.map fun b => (b.toNat : Int))
  type : ∃ fuel place, r.optionalType fuel (get? "type" node) place = .ok info.type
  fits : ∀ t, info.type = some t → t.Fits bytes
  constant : info.constant = none ↔ get? "const" node = none

theorem literal_of_string {e : Expr} (hkind : textAt "kind" node = "string")
    (h : r.expr fuel (some node) place = .ok e) :
    ∃ info bytes, e = .string info bytes ∧ r.LiteralOf node info bytes := by
  cases fuel with
  | zero => cases h
  | succ fuel =>
    rw [r.expr_string hkind] at h
    obtain ⟨type, htype, h⟩ := Result.bind_eq_ok.mp h
    obtain ⟨bytes, hbytes, h⟩ := Result.bind_eq_ok.mp h
    obtain ⟨u, hlength, h⟩ := Result.bind_eq_ok.mp h
    have hvalues := r.stringBytes_eq_ok.mp hbytes
    have hfits := (r.checkLength_ends reports_any type bytes place).yields u hlength
    unfold Reading.record at h
    split at h
    next hconst =>
      cases h
      exact ⟨_, bytes, rfl, hkind, hvalues, ⟨fuel, _, htype⟩, hfits, by simp [hconst]⟩
    next j hconst =>
      split at h
      · cases h
        exact ⟨_, bytes, rfl, hkind, hvalues, ⟨fuel, _, htype⟩, hfits, by simp [hconst]⟩
      · cases h

/-- What is recorded for an expression makes no literal of it. -/
theorem record_ne_string {e : Expr} (he : ∀ info, e ≠ .string info bytes) (info : ExprInfo) :
    r.record node place e ≠ .ok (.string info bytes) := by
  intro h
  unfold Reading.record at h
  split at h
  · cases h
    exact he info rfl
  · split at h
    · cases e with
      | string info' bytes' =>
        cases h
        exact he info' rfl
      | _ => cases h
    · cases h

/-- Literals are read from the nodes of that kind only. -/
theorem kind_of_literal {info : ExprInfo}
    (h : r.expr fuel (some node) place = .ok (.string info bytes)) :
    textAt "kind" node = "string" := by
  cases fuel with
  | zero => cases h
  | succ fuel =>
    rw [Reading.expr] at h
    obtain ⟨type, -, h⟩ := Result.bind_eq_ok.mp h
    dsimp only at h
    by_contra hkind
    split at h
    case h_3 hstring => exact hkind hstring
    all_goals
      repeat' split at h
      all_goals simp [Result.bind_eq_ok, malformed, record_ne_string] at h

/-- A number that is no byte was listed, and the first such number is reported. -/
theorem stringBytes_of_refused {values : List Int} (hvalues : literalValues? node = some values)
    (h : ∃ v ∈ values, ¬ IsByte v) (place : String) :
    ∃ i v, r.stringBytes node place = r.malformed place (.stringByte i v) ∧
      values[i]? = some v.toInt ∧ ¬ IsByte v.toInt ∧ ∀ u ∈ values.take i, IsByte u := by
  unfold literalValues? at hvalues
  split at hvalues
  next extent items hlisted =>
    cases hvalues
    rw [stringBytes, hlisted]
    simpa only [Nat.zero_add] using r.bytesFrom_of_refused h place 0
  next hother =>
    obtain ⟨v, hv, hno⟩ := h
    unfold textValues? at hvalues
    split at hvalues
    · cases hvalues
      obtain ⟨b, -, rfl⟩ := List.mem_map.mp hv
      exact absurd (isByte_toNat b) hno
    · cases hvalues
      cases hv
    · cases hvalues

/-- The numbers are not all bytes, or there are not as many as the type has room for. -/
def Refused (type : Option CType) (values : List Int) : Prop :=
  (∃ v ∈ values, ¬ IsByte v) ∨
    ∃ t elem n isVariable, type = some t ∧ t.unalias = .array elem (some n) isVariable ∧
      Int64.ofNat values.length + 1 ≠ n

section Literals

variable {fuel : Nat} {node : Json} {place : String} {values : List Int} {type : Option CType}
  (hkind : textAt "kind" node = "string") (hvalues : literalValues? node = some values)
  (htype : r.optionalType fuel (get? "type" node) (place ++ ".type") = .ok type)

include hkind hvalues htype

/-- A literal whose type can be read is refused at its place, for its bytes or for its length. -/
theorem expr_of_refused (h : Refused type values) :
    ∃ fault, r.expr (fuel + 1) (some node) place = r.malformed place fault := by
  rw [r.expr_string hkind, htype, Result.ok_bind]
  by_cases hbytes : ∃ v ∈ values, ¬ IsByte v
  · obtain ⟨i, v, hrun, -⟩ := r.stringBytes_of_refused hvalues hbytes place
    exact ⟨_, by rw [hrun]; rfl⟩
  · obtain ⟨t, elem, n, isVariable, rfl, ht, hlength⟩ := h.resolve_left hbytes
    have hall : ∀ v ∈ values, IsByte v := by simpa using hbytes
    obtain ⟨bytes, rfl⟩ := exists_bytes hall
    rw [List.length_map] at hlength
    rw [r.stringBytes_eq_ok.mpr hvalues, Result.ok_bind, checkLength, Option.map_some, ht]
    dsimp only
    rw [if_neg hlength]
    exact ⟨_, rfl⟩

/-- Any other literal is read as it stands, with what is recorded for it. -/
theorem expr_of_not_refused (h : ¬ Refused type values) :
    ∃ bytes : List UInt8, values = bytes.map (fun b => (b.toNat : Int)) ∧
      r.expr (fuel + 1) (some node) place =
        r.record node place (.string { position := r.position node, type } bytes) := by
  obtain ⟨hbytes, hlength⟩ := not_or.mp h
  have hall : ∀ v ∈ values, IsByte v := by simpa using hbytes
  obtain ⟨bytes, rfl⟩ := exists_bytes hall
  refine ⟨bytes, rfl, ?_⟩
  have hfits : r.checkLength type bytes place = .ok () := by
    unfold checkLength
    split
    next elem n isVariable harray =>
      obtain ⟨t, rfl, ht⟩ := Option.map_eq_some_iff.mp harray
      rw [if_pos]
      by_contra hne
      exact hlength ⟨t, elem, n, isVariable, rfl, ht, by rwa [List.length_map]⟩
    · rfl
  rw [r.expr_string hkind, htype, Result.ok_bind, r.stringBytes_eq_ok.mpr hvalues, Result.ok_bind,
    hfits, Result.ok_bind]

end Literals

end Reading

/-- A number somewhere in the value does not fit the word that the shape asks for. -/
inductive Misfit : Shape → Json → Prop
  | word {nullable : Bool} {source : String} (h : Number.readDecimal? source = none) :
      Misfit (.word nullable) (.number source)
  | member {kind : Kind} {extent : Json.Extent} {members : List (String × Json)} {key name : String}
      {shape : Shape} {value : Json} (hvalue : (key, value) ∈ members)
      (hkey : kind.key? key = some (name, shape)) (h : Misfit shape value) :
      Misfit (.one kind) (.object extent members)
  | item {shape : Shape} {extent : Json.Extent} {items : List Json} {j : Json} (hj : j ∈ items)
      (h : Misfit shape j) : Misfit (.many shape) (.array extent items)

theorem conformMembers_of_member {kind : Kind} {members : List (String × Json)} {key name : String}
    {value : Json} (hvalue : (key, value) ∈ members) (hkey : kind.key? key = some (name, shape))
    (h : ∀ old, conform old shape value = none) (done : List (String × Json)) :
    conformMembers kind done members = none := by
  induction members generalizing done with
  | nil => cases hvalue
  | cons m members ih =>
    obtain ⟨key', value'⟩ := m
    rw [conformMembers]
    rcases List.mem_cons.mp hvalue with heq | hvalue
    · cases heq
      rw [hkey]
      dsimp only
      rw [h]
    · split
      · rfl
      · split
        · rfl
        · exact ih hvalue _

theorem conformItems_of_item {items : List Json} (hj : j ∈ items)
    (h : ∀ old, conform old shape j = none) (old : List Json) :
    conformItems shape old items = none := by
  induction items generalizing old with
  | nil => cases hj
  | cons j' items ih =>
    rw [conformItems]
    rcases List.mem_cons.mp hj with rfl | hj
    · rw [h]
    · split
      · rfl
      · rw [ih hj, Option.map_none]

theorem Misfit.conform (h : Misfit shape j) (old : Option Json) : conform old shape j = none := by
  induction h generalizing old with
  | word h =>
    rw [Dump.conform]
    rw [h]
  | member hvalue hkey _ ih =>
    rw [Dump.conform, conformMembers_of_member hvalue hkey ih, Option.map_none]
  | item hj _ ih => rw [Dump.conform, conformItems_of_item hj ih, Option.map_none]

/-- A dump with such a number is refused as a whole. -/
theorem ofText_of_misfit {path : String} {markers : Markers} {text : String} {rest : List Char}
    (hread : Json.readFirst text = some (j, rest)) (h : Misfit (.one .unit) j) :
    ofText path markers text = .error (.of (.unreadableDump path)) := by
  rw [ofText, hread]
  dsimp only
  rw [ofJson, canonical, h.conform none]
  rfl

end Dump

/-- The expression is the literal under conversions that leave it alone, or under a decay to a
pointer in between, and no constant is recorded on the way. -/
inductive Expr.Shows (literal : ExprInfo) (bytes : List UInt8) : (decays : Bool) → Expr → Prop
  | self (h : literal.constant = none) : Shows literal bytes false (.string literal bytes)
  | kept {decays : Bool} {info : ExprInfo} {kind : CastKind} {operand : Expr} (isExplicit : Bool)
      (hinfo : info.constant = none) (hkind : kind = .lvalueToRvalue ∨ kind = .noOp)
      (h : Shows literal bytes decays operand) :
      Shows literal bytes decays (.cast info kind operand isExplicit)
  | decay {info : ExprInfo} {operand : Expr} (isExplicit : Bool) (hinfo : info.constant = none)
      (h : Shows literal bytes false operand) :
      Shows literal bytes true (.cast info .arrayToPointerDecay operand isExplicit)

section Shows

variable {literal : ExprInfo} {bytes : List UInt8} {decays : Bool} {e : Expr}

theorem ExprInfo.value_none {info : ExprInfo} (h : info.constant = none) :
    (info.value fun _ => none) = none := by
  obtain ⟨position, type, constant⟩ := info
  cases h
  cases type with
  | none => rfl
  | some t => simp [ExprInfo.value]

theorem Expr.Shows.literal_satisfies (h : e.Shows literal bytes decays) {P : Expr → Prop}
    (he : e.Throughout P) : P (.string literal bytes) := by
  induction h with
  | self _ => exact he.own
  | kept _ _ _ _ ih => exact ih (he.child List.mem_cons_self)
  | decay _ _ _ ih => exact ih (he.child List.mem_cons_self)

theorem Expr.Shows.stripTransparent_eq (h : e.Shows literal bytes decays)
    (hdecays : decays = false) : e.stripTransparent = .string literal bytes := by
  induction h with
  | self _ => rfl
  | kept _ _ hkind _ ih =>
    rw [Expr.stripTransparent, if_pos (by rcases hkind with rfl | rfl <;> rfl)]
    exact ih hdecays
  | decay _ _ _ _ => cases hdecays

theorem ExprInfo.lookupValue_none {σ : Type} {info : ExprInfo} (h : info.constant = none) :
    info.lookupValue (pure none : Run σ (Option Int64)) = pure none := by
  rw [lookupValue_pure, value_none h]

/-- The expression is no constant, whether it is looked up or computed. -/
theorem Expr.Shows.constants (h : e.Shows literal bytes decays) (env : TypeEnv) :
    env.lookupConstant e = pure none ∧ env.constant? e = none := by
  induction h with
  | self h => exact ⟨ExprInfo.lookupValue_none h, ExprInfo.value_none h⟩
  | @kept _ info kind operand _ hinfo hkind _ ih =>
    rcases hkind with rfl | rfl
    · exact ⟨ExprInfo.lookupValue_none hinfo, ExprInfo.value_none hinfo⟩
    · change info.lookupValue (env.lookupConstant operand) = _ ∧
        (info.value fun _ => env.constant? operand) = none
      rw [ih.1, ih.2]
      exact ⟨ExprInfo.lookupValue_none hinfo, ExprInfo.value_none hinfo⟩
  | decay _ hinfo _ _ => exact ⟨ExprInfo.lookupValue_none hinfo, ExprInfo.value_none hinfo⟩

end Shows

namespace Lower

variable {env : TypeEnv} {scope : Scope} {literal : ExprInfo} {bytes : List UInt8} {decays : Bool}
  {e : Expr} {code : Code}

section Kept

variable {info : ExprInfo} {kind : CastKind} {operand : Expr} {isExplicit peel : Bool}

/-- A conversion that leaves its operand alone has the code of the operand. -/
theorem expr_kept_iff (hconstant : env.constant? (.cast info kind operand isExplicit) = none)
    (hkind : kind = .lvalueToRvalue ∨ kind = .noOp) :
    expr env scope peel (.cast info kind operand isExplicit) = .ok code ↔
      expr env scope peel operand = .ok code := by
  cases peel with
  | true =>
    rw [expr, if_pos (by rcases hkind with rfl | rfl <;> rfl)]
  | false =>
    have hplan : castPlan env info kind operand = .ok .keep := by
      rcases hkind with rfl | rfl <;> rfl
    rw [expr, if_neg (by simp), orConstant, hconstant, Result.locate_eq_ok, hplan, Result.ok_bind]
    simp [Result.bind_eq_ok, CastPlan.code]

end Kept

/-- A literal has its code, whatever leaves it alone. Where it decays, a view may follow. -/
theorem shows_code (h : e.Shows literal bytes decays) (peel : Bool) :
    (decays = false → expr env scope peel e = .ok (stringCode bytes)) ∧
      ∀ code, expr env scope peel e = .ok code → ∃ view,
        code.text = (stringCode bytes).text ++ view := by
  induction h with
  | self h =>
    have hcode : expr env scope peel (.string literal bytes) = .ok (stringCode bytes) := by
      rw [expr, orConstant, ((Expr.Shows.self h).constants env).2]
      rfl
    refine ⟨fun _ => hcode, fun code hrun => ⟨"", ?_⟩⟩
    rw [hcode] at hrun
    cases hrun
    exact String.append_empty.symm
  | kept isExplicit hinfo hkind h ih =>
    have hconstant := ((Expr.Shows.kept isExplicit hinfo hkind h).constants env).2
    simpa only [expr_kept_iff hconstant hkind] using ih
  | @decay info operand isExplicit hinfo h ih =>
    refine ⟨(fun hdecays => by cases hdecays), fun code hcode => ?_⟩
    cases peel with
    | true =>
      rw [expr, if_pos (by decide)] at hcode
      exact ih.2 code hcode
    | false =>
      have hliteral : literalBytes? operand = some bytes := by
        rw [literalBytes?, h.stripTransparent_eq rfl]
      rw [expr, if_neg (by simp), orConstant,
        ((Expr.Shows.decay isExplicit hinfo h).constants env).2, Result.locate_eq_ok] at hcode
      obtain ⟨plan, hplan, hcode⟩ := Result.bind_eq_ok.mp hcode
      obtain ⟨view, -, hplan⟩ := Result.bind_eq_ok.mp hplan
      rw [hliteral] at hplan
      cases hplan
      cases hcode
      exact ⟨_, viewed_text view _⟩

end Lower

namespace Emit

open Writing
open Lower (Scope)

variable {env : TypeEnv} {scope : Scope} {literal : ExprInfo} {bytes : List UInt8} {decays : Bool}
  {e : Expr} {d d' : Desk}

theorem orConstant_eq_ok {node : Writing Unit} (h : env.lookupConstant e = pure none) :
    orConstant env e node d = some (.ok (), d') ↔ node d = some (.ok (), d') := by
  have hnode : orConstant env e node = node.locate e.position := by
    rw [orConstant, constant, h]
    rfl
  rw [hnode, locate_iff]

theorem string_eq (bytes : List UInt8) : string bytes = print (Lower.stringCode bytes).text := by
  rw [Lower.stringCode_text]
  rfl

section Kept

variable {info : ExprInfo} {kind : CastKind} {operand : Expr} {isExplicit peel : Bool}

/-- A conversion that leaves its operand alone writes what the operand does. -/
theorem expr_kept_iff
    (hconstant : env.lookupConstant (.cast info kind operand isExplicit) = pure none)
    (hkind : kind = .lvalueToRvalue ∨ kind = .noOp) :
    expr env scope peel (.cast info kind operand isExplicit) d = some (.ok (), d') ↔
      expr env scope peel operand d = some (.ok (), d') := by
  cases peel with
  | true => rw [expr, if_pos (by rcases hkind with rfl | rfl <;> rfl)]
  | false =>
    have hcast : cast env info kind operand (expr env scope false operand) =
        expr env scope false operand := by
      rcases hkind with rfl | rfl <;> rfl
    rw [expr, if_neg (by simp), orConstant_eq_ok hconstant, hcast]

end Kept

/-- A literal is written, whatever leaves it alone. Where it decays, a view may be written after
it. -/
theorem shows_written (h : e.Shows literal bytes decays) (peel : Bool) (d : Desk) :
    (decays = false → expr env scope peel e d =
        some (.ok (), { d with writer := d.writer.print (Lower.stringCode bytes).text })) ∧
      ∀ d', expr env scope peel e d = some (.ok (), d') →
        ∃ view, d'.writer = d.writer.print ((Lower.stringCode bytes).text ++ view) := by
  induction h with
  | self h =>
    have hwritten : expr env scope peel (.string literal bytes) d =
        some (.ok (), { d with writer := d.writer.print (Lower.stringCode bytes).text }) := by
      rw [expr, orConstant_eq_ok ((Expr.Shows.self h).constants env).1, string_eq]
      rfl
    refine ⟨fun _ => hwritten, fun d' hrun => ⟨"", ?_⟩⟩
    rw [hwritten] at hrun
    cases hrun
    rw [String.append_empty]
  | kept isExplicit hinfo hkind h ih =>
    have hconstant := ((Expr.Shows.kept isExplicit hinfo hkind h).constants env).1
    simpa only [expr_kept_iff hconstant hkind] using ih
  | @decay info operand isExplicit hinfo h ih =>
    refine ⟨(fun hdecays => by cases hdecays), fun d' hrun => ?_⟩
    cases peel with
    | true =>
      rw [expr, if_pos (by decide)] at hrun
      exact ih.2 d' hrun
    | false =>
      have hliteral : Lower.literalBytes? operand = some bytes := by
        rw [Lower.literalBytes?, h.stripTransparent_eq rfl]
      rw [expr, if_neg (by simp), orConstant_eq_ok
        (((Expr.Shows.decay isExplicit hinfo h).constants env).1), cast] at hrun
      obtain ⟨view, d₁, hview, hrun⟩ := Run.bind_eq_ok hrun
      rw [hliteral] at hrun
      change (string bytes >>= fun _ => print view) d₁ = _ at hrun
      rw [string_eq] at hrun
      have hwriter : d₁.writer = d.writer := by
        have hoffers : Offers (fun _ => false) (Text.Over fun _ => true)
            (pointerView env info .arrayToPointerDecay) :=
          pointerView_holds (.offering env _) (fun _ _ => rfl) _
        rcases hoffers d.layouts with hnone | ⟨_, s, _, hs, -, hsilent⟩
        · rw [hnone d.writer] at hview
          cases hview
        · rw [hsilent d.writer] at hview
          cases hview
          have hempty : s = "" := by
            rw [← String.toList_eq_nil_iff]
            exact List.eq_nil_iff_forall_not_mem.mpr fun c hc => Bool.false_ne_true (hs c hc)
          rw [hempty, Writer.print_empty]
      cases hrun
      refine ⟨view, ?_⟩
      rw [← Writer.print_print, ← hwriter]

end Emit

/-- The emitted code of the expression begins with the list, and it is the whole code unless the
literal decays. -/
structure Expr.Lists (e : Expr) (decays : Bool) (values : List Int) : Prop where
  written : ∀ env scope peel d d', Emit.expr env scope peel e d = some (.ok (), d') →
    ∃ code view, d'.writer = d.writer.print code ∧ Lower.readLiteral code = some (values, view)
  lowered : ∀ env scope peel code, Lower.expr env scope peel e = .ok code →
    ∃ view, Lower.readLiteral code.text = some (values, view)
  direct : decays = false → ∃ code : Code, Lower.readLiteral code.text = some (values, "") ∧
    ∀ env scope peel, Lower.expr env scope peel e = .ok code ∧
      ∀ d, Emit.expr env scope peel e d =
        some (.ok (), { d with writer := d.writer.print code.text })

theorem Expr.Shows.lists {literal : ExprInfo} {bytes : List UInt8} {decays : Bool} {e : Expr}
    (h : e.Shows literal bytes decays) :
    e.Lists decays (bytes.map (fun b => (b.toNat : Int)) ++ [0]) := by
  refine ⟨?_, ?_, ?_⟩
  · intro env scope peel d d' hrun
    obtain ⟨view, hwriter⟩ := (Emit.shows_written h peel d).2 d' hrun
    exact ⟨_, view, hwriter, Lower.readLiteral_stringCode bytes view⟩
  · intro env scope peel code hcode
    obtain ⟨view, htext⟩ := (Lower.shows_code h peel).2 code hcode
    exact ⟨view, by rw [htext, Lower.readLiteral_stringCode]⟩
  · intro hdecays
    refine ⟨Lower.stringCode bytes, ?_, fun env scope peel => ?_⟩
    · rw [← Lower.readLiteral_stringCode bytes "", String.append_empty]
    · exact ⟨(Lower.shows_code h peel).1 hdecays, fun d => (Emit.shows_written h peel d).1 hdecays⟩

/-- An array of a fixed length has as many elements, as far as they can be counted in a word. -/
def CType.Counts (count : Nat) (t : CType) : Prop :=
  ∀ elem n isVariable, t.unalias = .array elem (some n) isVariable →
    n = Int64.ofNat count ∧ ((count : Int) ≤ Int64.maxValue.toInt → n.toInt = count)

theorem CType.Fits.counts {bytes : List UInt8} {t : CType} (h : t.Fits bytes) :
    t.Counts (bytes.length + 1) := by
  intro elem n isVariable ht
  obtain ⟨hword, hexact⟩ := h elem n isVariable ht
  refine ⟨?_, fun hcount => ?_⟩
  · rw [Int64.ofNat_add, ← hword]
    exact (Int64.sub_add_cancel n 1).symm
  · have hroom := hexact (by omega)
    omega

namespace Dump

/-- Every literal of an accepted dump is emitted as the list of its bytes and a zero, directly and
where it decays, and the list has as many items as its type. All literals of the dump are of bytes
and fit their types. Numbers that are no words make the whole dump unreadable. A literal whose type
cannot be read fails as that does; any other is malformed at its place if it has numbers that are no
bytes or another length than its type, and is read if not. -/
theorem string_literals_are_faithful (path : String) (markers : Markers) (text : String) :
    (∀ loaded, ofText path markers text = .ok loaded → ∃ j rest dump,
      Json.readFirst text = some (j, rest) ∧ canonical j = some dump ∧
      (∀ d ∈ loaded.unit.decls, d.Throughout (fun e => ∀ literal bytes decays,
        e.Shows literal bytes decays → ∃ node values, ExprNode dump node ∧
          (readingOf path dump).LiteralOf node literal bytes ∧ literalValues? node = some values ∧
          e.Lists decays (values ++ [0]) ∧ (∀ v ∈ values ++ [0], IsByte v) ∧
          ∀ t, literal.type = some t → t.Counts (values ++ [0]).length) fun _ => True) ∧
      ∀ node, ExprNode dump node → textAt "kind" node = "string" →
        ∃ literal bytes, (readingOf path dump).LiteralOf node literal bytes) ∧
    (∀ j rest, Json.readFirst text = some (j, rest) → Misfit (.one .unit) j →
      ∃ cause, ofText path markers text = .error (.of cause) ∧ cause.category = "DECODE") ∧
    ∀ (r : Reading) fuel node place values, textAt "kind" node = "string" →
      literalValues? node = some values →
      (∀ f, r.optionalType fuel (get? "type" node) (place ++ ".type") = .error f →
        r.expr (fuel + 1) (some node) place = .error f) ∧
      ∀ type, r.optionalType fuel (get? "type" node) (place ++ ".type") = .ok type →
        (Reading.Refused type values → ∃ fault,
          r.expr (fuel + 1) (some node) place = .error (.of (.malformedDump r.path place fault)) ∧
            (Cause.malformedDump r.path place fault).category = "DECODE") ∧
        (¬ Reading.Refused type values → ∃ bytes : List UInt8,
          values = bytes.map (fun b => (b.toNat : Int)) ∧
          r.expr (fuel + 1) (some node) place =
            r.record node place (.string { position := r.position node, type } bytes)) := by
  refine ⟨?_, ?_, ?_⟩
  · intro loaded h
    obtain ⟨⟨j, rest, dump, hread, hdump, -⟩, -⟩ := ofText_yields path markers text loaded h
    have hresolve : resolve path markers dump = .ok loaded := by
      rw [ofText, hread] at h
      dsimp only at h
      rwa [ofJson, hdump] at h
    obtain ⟨hunit, hnodes⟩ := resolve_nodes hresolve
    refine ⟨j, rest, dump, hread, hdump, fun d hd => ?_, fun node hnode hkind => ?_⟩
    · refine (hunit d hd).imp (fun e he => ?_) fun _ => id
      refine he.nested.imp fun x hx literal bytes decays hshows => ?_
      obtain ⟨node, hnode, fuel, place, hliteral⟩ := hshows.literal_satisfies hx
      have hkind := (readingOf path dump).kind_of_literal hliteral
      obtain ⟨_, _, heq, hof⟩ := (readingOf path dump).literal_of_string hkind hliteral
      cases heq
      refine ⟨node, _, hnode, hof, hof.values, hshows.lists, ?_, fun t ht => ?_⟩
      · intro v hv
        rcases List.mem_append.mp hv with hv | hv
        · obtain ⟨b, -, rfl⟩ := List.mem_map.mp hv
          exact isByte_toNat b
        · rw [List.mem_singleton.mp hv]
          decide
      · rw [List.length_append, List.length_map, List.length_singleton]
        exact (hof.fits t ht).counts
    · obtain ⟨fuel, place, e, hexpr⟩ := hnodes node hnode
      obtain ⟨literal, bytes, -, hof⟩ := (readingOf path dump).literal_of_string hkind hexpr
      exact ⟨literal, bytes, hof⟩
  · intro j rest hread hmisfit
    exact ⟨_, ofText_of_misfit hread hmisfit, rfl⟩
  · intro r fuel node place values hkind hvalues
    refine ⟨fun f hf => ?_, fun type htype => ⟨fun hrefused => ?_, ?_⟩⟩
    · rw [r.expr_string hkind, hf]
      rfl
    · obtain ⟨fault, hfault⟩ := r.expr_of_refused hkind hvalues htype hrefused
      exact ⟨fault, hfault, rfl⟩
    · exact r.expr_of_not_refused hkind hvalues htype

section Mixed

/-- The text of a dump with a pointer to a literal, whose bytes are listed beside another text,
under a conversion and a decay. -/
def mixedParts : List String :=
  ["\x7b\"decls\":[\x7b\"kind\":\"var\",", "\"type\":\x7b\"kind\":\"object\"\x7d,",
    "\"init\":\x7b\"kind\":\"cast\",", "\"cast\":\"ArrayToPointerDecay\",",
    "\"operand\":\x7b\"kind\":\"cast\",", "\"cast\":\"NoOp\",",
    "\"operand\":\x7b\"kind\":\"string\",", "\"value\":\"a\",\"bytes\":[195,0,255],",
    "\"type\":\x7b\"kind\":\"array\",\"len\":4,",
    "\"elem\":\x7b\"kind\":\"void\"\x7d\x7d\x7d\x7d\x7d\x7d]\x7d"]

/-- The dump is accepted and holds one variable, which starts as such a literal. -/
def holdsMixed (cs : List Char) : Bool :=
  match Json.readValue (2 * cs.length + 2) Json.maxNesting cs with
  | some (j, _) =>
      match ofJson "in.json" {} j with
      | .ok ⟨⟨_, _, [.var ⟨_, _, _, some (.cast outer .arrayToPointerDecay
          (.cast inner .noOp (.string literal bytes) _) _)⟩]⟩, _⟩ =>
          outer.constant.isNone && inner.constant.isNone && literal.constant.isNone &&
            bytes == [195, 0, 255]
      | _ => false
  | none => false

theorem mixed_held : holdsMixed (mixedParts.flatMap String.toList) = true := by
  decide +kernel

theorem exists_of_holdsMixed {cs : List Char} (h : holdsMixed cs = true) :
    ∃ loaded v e literal, ofText "in.json" {} (String.ofList cs) = .ok loaded ∧
      loaded.unit.decls = [.var v] ∧ v.init = some e ∧ e.Shows literal [195, 0, 255] true := by
  unfold holdsMixed at h
  split at h
  next j rest hread =>
    split at h
    next name file position varName type outer inner literal bytes inside outside env hloaded =>
      simp only [Bool.and_eq_true, Option.isNone_iff_eq_none, beq_iff_eq] at h
      obtain ⟨⟨⟨houter, hinner⟩, hliteral⟩, rfl⟩ := h
      have htext : ofText "in.json" {} (String.ofList cs) = ofJson "in.json" {} j := by
        rw [ofText, readFirst_ofList, hread]
      refine ⟨_, ⟨_, _, _, some _⟩, _, literal, htext.trans hloaded, rfl, rfl, ?_⟩
      exact .decay _ houter (.kept _ hinner (.inr rfl) (.self hliteral))
    · cases h
  · cases h

/-- A literal node with a number that is no byte. -/
def wideNode : Json :=
  object [("kind", .string "" "string"), ("bytes", array [.number "65", .number "256"])]

/-- The text of a dump with a number that is no word among the bytes of a node. -/
def overlongText : List Char :=
  "\x7b\"decls\":[\x7b\"bytes\":[9223372036854775808]\x7d]\x7d".toList

/-- The text is that of a dump with one node, where such a number stands. -/
def holdsOverlong (cs : List Char) : Bool :=
  match Json.readValue (2 * cs.length + 2) Json.maxNesting cs with
  | some (.object _ [(key, .array _ [.object _ [(inner, .array _ [.number source])]])], _) =>
      key == "decls" && inner == "bytes" && (Number.readDecimal? source).isNone
  | _ => false

theorem overlong_misfits : ∃ j rest, Json.readFirst (String.ofList overlongText) = some (j, rest) ∧
    Misfit (.one .unit) j := by
  have hheld : holdsOverlong overlongText = true := by decide +kernel
  unfold holdsOverlong at hheld
  split at hheld
  next extent key list node inner bytes source rest hread =>
    simp only [Bool.and_eq_true, Option.isNone_iff_eq_none, beq_iff_eq] at hheld
    obtain ⟨⟨rfl, rfl⟩, hsource⟩ := hheld
    have hdecls : Kind.unit.key? "decls" = some ("decls", nodes) := by decide +kernel
    have hbytes : Kind.node.key? "bytes" = some ("bytes", .many (.word false)) := by decide +kernel
    rw [readFirst_ofList]
    exact ⟨_, _, hread, .member List.mem_cons_self hdecls (.item List.mem_cons_self
      (.member List.mem_cons_self hbytes (.item List.mem_cons_self (.word hsource))))⟩
  · cases hheld

theorem mixed_literal_is_faithful :
    (∃ loaded v e,
      ofText "in.json" {} (String.ofList (mixedParts.flatMap String.toList)) = .ok loaded ∧
      loaded.unit.decls = [.var v] ∧ v.init = some e ∧ e.Lists true [195, 0, 255, 0]) ∧
    (∃ cause, ofText "in.json" {} (String.ofList overlongText) = .error (.of cause) ∧
      cause.category = "DECODE") ∧
    ∃ fault, (⟨"in.json", "", []⟩ : Reading).expr 1 (some wideNode) "init" =
      .error (.of (.malformedDump "in.json" "init" fault)) := by
  refine ⟨?_, ?_, ?_⟩
  · obtain ⟨loaded, v, e, literal, hloaded, hdecls, hinit, hshows⟩ :=
      exists_of_holdsMixed mixed_held
    obtain ⟨-, -, dump, -, -, hunit, -⟩ := (string_literals_are_faithful _ _ _).1 loaded hloaded
    have hvar := hunit (.var v) (by rw [hdecls]; exact List.mem_singleton_self _)
    obtain ⟨node, values, -, hof, hvalues, hlists, -⟩ :=
      (hvar.2 e hinit).own literal [195, 0, 255] true hshows
    rw [hof.values] at hvalues
    cases hvalues
    exact ⟨loaded, v, e, hloaded, hdecls, hinit, hlists⟩
  · obtain ⟨j, rest, hread, hmisfit⟩ := overlong_misfits
    exact (string_literals_are_faithful "in.json" {} _).2.1 j rest hread hmisfit
  · have hwide := ((string_literals_are_faithful "in.json" {} "").2.2 ⟨"in.json", "", []⟩ 0 wideNode
      "init" [65, 256] rfl (by decide)).2 none rfl
    obtain ⟨fault, hfault, -⟩ := hwide.1 (.inl ⟨256, by simp, by decide⟩)
    exact ⟨fault, hfault⟩

end Mixed

end Dump

end DartLowering
