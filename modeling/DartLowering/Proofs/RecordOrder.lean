import DartLowering.Proofs.DetachedDumps
import DartLowering.Proofs.Sessions
import DartLowering.Proofs.TableOrder
import DartLowering.Proofs.Typedefs

/-!
The order in which a dump lists its records. Entries are put into the table one after another, and a
field may name a record that comes later or never. As long as no name comes twice, the order shows
in nothing: `Linked` tables hold the same values under the same keys, and the types that are read,
the layouts and the text of the unit depend on no more than that.
-/
namespace DartLowering

open Layout Result

namespace Dump

section Lookup

variable {k key : String} {value : Option Json} {d : List (String × Json)}

theorem lookup_cons (m : String × Json) (ms : List (String × Json)) :
    lookup k (m :: ms) = if m.1 = k then some m.2 else lookup k ms := by
  by_cases hkey : m.1 = k
  · simp [lookup, hkey]
  · simp [lookup, hkey]

theorem lookup_eq_none (h : k ∉ d.map Prod.fst) : lookup k d = none := by
  induction d with
  | nil => rfl
  | cons m ms ih =>
    rw [List.map_cons, List.mem_cons, not_or] at h
    rw [lookup_cons, if_neg (Ne.symm h.1), ih h.2]

theorem mem_iff_lookup (h : (d.map Prod.fst).Nodup) (v : Json) :
    (k, v) ∈ d ↔ lookup k d = some v := by
  induction d with
  | nil => simp [lookup]
  | cons m ms ih =>
    obtain ⟨hfirst, hrest⟩ := List.nodup_cons.mp h
    rw [List.mem_cons, lookup_cons, ih hrest]
    by_cases hkey : m.1 = k
    · have hnone : lookup k ms = none := lookup_eq_none (hkey ▸ hfirst)
      rw [if_pos hkey, hnone]
      constructor
      · rintro (rfl | hmem)
        · rfl
        · cases hmem
      · intro hsome
        exact .inl (Prod.ext hkey.symm (Option.some.inj hsome).symm)
    · rw [if_neg hkey]
      exact or_iff_right fun heq => hkey (congrArg Prod.fst heq).symm

theorem lookup_assign (h : (d.map Prod.fst).Nodup) :
    lookup k (assign key value d) = if k = key then value else lookup k d := by
  induction d with
  | nil =>
    by_cases hk : k = key
    · cases value <;> simp [assign, lookup, hk]
    · cases value <;> simp [assign, lookup, hk, Ne.symm hk]
  | cons m ms ih =>
    obtain ⟨hfirst, hrest⟩ := List.nodup_cons.mp h
    rw [assign_cons]
    by_cases hm : m.1 = key
    · have hnone : lookup key ms = none := lookup_eq_none (hm ▸ hfirst)
      rw [if_pos hm, lookup_cons, hm]
      by_cases hk : k = key
      · cases value <;> simp [lookup_cons, hk, hnone]
      · cases value <;> simp [lookup_cons, hk, Ne.symm hk]
    · rw [if_neg hm, lookup_cons, lookup_cons, ih hrest]
      by_cases hk : k = key
      · rw [if_pos hk, if_pos hk, if_neg (hk ▸ hm)]
      · rw [if_neg hk, if_neg hk]

theorem mem_keys_assign (h : k ∈ (assign key value d).map Prod.fst) :
    k = key ∨ k ∈ d.map Prod.fst := by
  induction d with
  | nil => cases value <;> simp_all [assign]
  | cons m ms ih =>
    rw [assign_cons] at h
    rw [List.map_cons, List.mem_cons]
    by_cases hm : m.1 = key
    · cases value <;> simp_all
    · rw [if_neg hm, List.map_cons, List.mem_cons] at h
      rcases h with rfl | h
      · exact .inr (.inl rfl)
      · exact (ih h).imp_right .inr

theorem nodup_keys_assign (h : (d.map Prod.fst).Nodup) :
    ((assign key value d).map Prod.fst).Nodup := by
  induction d with
  | nil => cases value <;> simp [assign]
  | cons m ms ih =>
    obtain ⟨hfirst, hrest⟩ := List.nodup_cons.mp h
    rw [assign_cons]
    by_cases hm : m.1 = key
    · cases value <;> simp_all
    · rw [if_neg hm, List.map_cons, List.nodup_cons]
      exact ⟨fun hmem => (mem_keys_assign hmem).elim hm hfirst, ih hrest⟩

end Lookup

theorem rel_cases {α β : Type} {R : α → β → Prop} {o : Option α} {o' : Option β}
    (h : Option.Rel R o o') : o = none ∧ o' = none ∨ ∃ a b, o = some a ∧ o' = some b ∧ R a b := by
  cases h with
  | none => exact .inl ⟨rfl, rfl⟩
  | some h => exact .inr ⟨_, _, rfl, rfl, h⟩

section Linked

/-- Both have every key at most once, and under each key what `R` says. -/
structure Linked (R : String → Option Json → Option Json → Prop) (d d' : List (String × Json)) :
    Prop where
  nodup : (d.map Prod.fst).Nodup
  nodup' : (d'.map Prod.fst).Nodup
  lookup : ∀ key, R key (lookup key d) (lookup key d')

/-- The same entries, in any order. -/
abbrev SameEntries : List (String × Json) → List (String × Json) → Prop := Linked fun _ => Eq

variable {R : String → Option Json → Option Json → Prop} {d d' : List (String × Json)}

/-- The step of a linked pair: both are given a value. -/
theorem Linked.assign (h : Linked R d d') {key : String} {v v' : Option Json} (hv : R key v v') :
    Linked R (assign key v d) (assign key v' d') := by
  refine ⟨nodup_keys_assign h.nodup, nodup_keys_assign h.nodup', fun k => ?_⟩
  rw [lookup_assign h.nodup, lookup_assign h.nodup']
  by_cases hk : k = key
  · rw [if_pos hk, if_pos hk, hk]
    exact hv
  · rw [if_neg hk, if_neg hk]
    exact h.lookup k

theorem SameEntries.nil : SameEntries [] [] := ⟨List.nodup_nil, List.nodup_nil, fun _ => rfl⟩

theorem SameEntries.trans {e : List (String × Json)} (h : SameEntries d d')
    (h' : SameEntries d' e) : SameEntries d e :=
  ⟨h.nodup, h'.nodup', fun key => (h.lookup key).trans (h'.lookup key)⟩

theorem SameEntries.rel_trans {o o' o'' : Option (List (String × Json))}
    (h : Option.Rel SameEntries o o') (h' : Option.Rel SameEntries o' o'') :
    Option.Rel SameEntries o o'' := by
  cases h with
  | none => exact h'
  | some h =>
    cases h' with
    | some h' => exact .some (h.trans h')

theorem SameEntries.perm (h : SameEntries d d') : d.Perm d' := by
  refine (List.perm_ext_iff_of_nodup (h.nodup.of_map _) (h.nodup'.of_map _)).mpr fun m => ?_
  rw [mem_iff_lookup h.nodup, mem_iff_lookup h.nodup', h.lookup m.1]

/-- Entries under different names can be put in either way round. -/
theorem SameEntries.assign_swap (h : SameEntries d d') {a b : String} (hne : a ≠ b)
    (v w : Option Json) :
    SameEntries (Dump.assign a v (Dump.assign b w d)) (Dump.assign b w (Dump.assign a v d')) := by
  have hleft : ((Dump.assign b w d).map Prod.fst).Nodup := nodup_keys_assign h.nodup
  have hright : ((Dump.assign a v d').map Prod.fst).Nodup := nodup_keys_assign h.nodup'
  refine ⟨nodup_keys_assign hleft, nodup_keys_assign hright, fun k => ?_⟩
  rw [lookup_assign hleft, lookup_assign h.nodup, lookup_assign hright, lookup_assign h.nodup',
    h.lookup k]
  by_cases ha : k = a
  · rw [if_pos ha, if_pos ha, if_neg (ha ▸ hne)]
  · rw [if_neg ha, if_neg ha]

end Linked

section Entries

variable {kind : Kind} {done done' ms ms' : List (String × Json)}

theorem conformEntries_same (h : SameEntries done done') (ms : List (String × Json)) :
    Option.Rel SameEntries (conformEntries kind done ms) (conformEntries kind done' ms) := by
  induction ms generalizing done done' with
  | nil => exact .some h
  | cons m ms ih =>
    rw [conformEntries, conformEntries]
    cases conform none (.one kind) m.2 with
    | none => exact .none
    | some v => exact ih (h.assign rfl)

/-- The run over the entries of a table comes out the same in every order. -/
theorem conformEntries_perm (hperm : ms.Perm ms') (hnames : (ms.map Prod.fst).Nodup)
    (h : SameEntries done done') :
    Option.Rel SameEntries (conformEntries kind done ms) (conformEntries kind done' ms') := by
  induction hperm generalizing done done' with
  | nil => exact .some h
  | cons m _ ih =>
    rw [conformEntries, conformEntries]
    cases conform none (.one kind) m.2 with
    | none => exact .none
    | some v => exact ih (List.nodup_cons.mp hnames).2 (h.assign rfl)
  | swap a b ms =>
    have hne : a.1 ≠ b.1 := fun heq =>
      (List.nodup_cons.mp hnames).1 (List.mem_cons.mpr (.inl heq.symm))
    simp only [conformEntries]
    cases conform none (.one kind) a.2 with
    | none =>
      cases conform none (.one kind) b.2 with
      | none | some => exact .none
    | some v =>
      cases conform none (.one kind) b.2 with
      | none => exact .none
      | some w => exact conformEntries_same (h.assign_swap hne _ _) ms
  | trans hfirst _ ihfirst ihlast =>
    have hmiddle := ihfirst hnames h
    have hlast :=
      ihlast ((hfirst.map Prod.fst).nodup_iff.mp hnames) ⟨h.nodup', h.nodup', fun _ => rfl⟩
    exact SameEntries.rel_trans hmiddle hlast

end Entries

section Members

/-- No table, or the same entries in any order. -/
inductive SameTable : Option Json → Option Json → Prop
  | none : SameTable none none
  | some {es es' : List (String × Json)} (h : SameEntries es es') :
      SameTable (some (object es)) (some (object es'))

theorem SameTable.membersOf (h : SameTable o o') : SameEntries (membersOf o) (membersOf o') := by
  cases h with
  | none => exact .nil
  | some h => exact h

/-- Two dumps give the same members, except that their tables of records have orders of their
own. -/
def SameAt (key : String) (v v' : Option Json) : Prop :=
  if key = "records" then SameTable v v' else v = v'

variable {name key : String} {v v' : Option Json} {d d' : List (String × Json)} {o o' : Option Json}
  {shape : Shape}

theorem sameAt_records : SameAt "records" v v' ↔ SameTable v v' := Iff.rfl

theorem sameAt_other (hkey : key ≠ "records") : SameAt key v v' ↔ v = v' := by
  rw [SameAt, if_neg hkey]

theorem coveredKey_ne_records (name : String) : coveredKey name ≠ "records" := by
  intro h
  have hlast := congrArg (fun s => s.toList.getLast?) h
  simp [coveredKey] at hlast

theorem Linked.earlier (h : Linked SameAt d d') (name : String) :
    SameAt name (earlier name d) (earlier name d') := by
  have hvalue := h.lookup name
  have hcovered := (sameAt_other (coveredKey_ne_records name)).mp (h.lookup (coveredKey name))
  rw [Dump.earlier, Dump.earlier, hcovered]
  by_cases hname : name = "records"
  · subst hname
    revert hvalue
    rw [sameAt_records]
    generalize Dump.lookup "records" d = o, Dump.lookup "records" d' = o'
    intro hvalue
    cases hvalue with
    | none => exact .none
    | some hvalue => exact .some hvalue
  · rw [(sameAt_other hname).mp hvalue]
    exact (sameAt_other hname).mpr rfl

/-- Tables cover nothing. -/
theorem SameAt.covered_eq (ho : SameAt name o o') (hv : SameAt name v v') :
    covered o v = covered o' v' := by
  by_cases hname : name = "records"
  · subst hname
    cases sameAt_records.mp ho with
    | none | some => rfl
  · rw [(sameAt_other hname).mp ho, (sameAt_other hname).mp hv]

theorem Linked.continued (h : Linked SameAt d d') (hv : SameAt name v v') :
    Linked SameAt (continued name v d) (continued name v' d') := by
  refine (h.assign hv).assign ((sameAt_other (coveredKey_ne_records name)).mpr ?_)
  exact (h.earlier name).covered_eq hv

/-- The values under a key of a dump: if they are tables of records, their entries may stand in
another order. -/
inductive SameMember : String × Json → String × Json → Prop
  | same (m : String × Json) : SameMember m m
  | records {key : String} {e e' : Json.Extent} {entries entries' : List (String × Json)}
      (hkey : Json.foldKey key = "records") (hnames : (entries.map Prod.fst).Nodup)
      (hperm : entries.Perm entries') :
      SameMember (key, .object e entries) (key, .object e' entries')

/-- The dumps differ in the order of their records, of which no two have the same name. -/
inductive Reordered : Json → Json → Prop
  | unit {e e' : Json.Extent} {ms ms' : List (String × Json)} (h : List.Forall₂ SameMember ms ms') :
      Reordered (.object e ms) (.object e' ms')

theorem key?_eq_some {kind : Kind} (h : kind.key? key = some (name, shape)) :
    name = Json.foldKey key ∧ (name, shape) ∈ kind.keys := by
  have hfound : (name == Json.foldKey key) = true :=
    List.find?_some (p := fun k : String × Shape => k.1 == Json.foldKey key) h
  exact ⟨beq_iff_eq.mp hfound, List.mem_of_find?_eq_some h⟩

theorem shape_records (h : ("records", shape) ∈ Kind.unit.keys) : shape = .table .record := by
  simpa [Kind.keys] using h

theorem rel_object {es es' : Option (List (String × Json))} (h : Option.Rel SameEntries es es') :
    Option.Rel SameTable (es.map fun ms => some (object ms))
      (es'.map fun ms => some (object ms)) := by
  cases h with
  | none => exact .none
  | some h => exact .some (.some h)

theorem conform_table (ho : SameTable o o') (j : Json) :
    Option.Rel SameTable (conform o (.table .record) j) (conform o' (.table .record) j) := by
  cases j with
  | null =>
    rw [conform, conform]
    exact .some .none
  | object e entries =>
    rw [conform, conform]
    exact rel_object (conformEntries_same ho.membersOf entries)
  | _ =>
    simp only [conform]
    exact .none

theorem SameMember.key_eq {m m' : String × Json} (h : SameMember m m') : m'.1 = m.1 := by
  cases h with
  | same | records => rfl

/-- The step over the members of a dump. -/
theorem SameMember.conform {m m' : String × Json} (hm : SameMember m m')
    (hkey : Kind.unit.key? m.1 = some (name, shape)) (hv : SameAt name v v') :
    Option.Rel (SameAt name) (conform v shape m.2) (conform v' shape m'.2) := by
  obtain ⟨hname, hshape⟩ := key?_eq_some hkey
  cases hm with
  | same m =>
    by_cases hrecords : name = "records"
    · subst hrecords
      rw [shape_records hshape]
      exact conform_table hv m.2
    · rw [(sameAt_other hrecords).mp hv]
      cases Dump.conform v' shape m.2 with
      | none => exact .none
      | some w => exact .some ((sameAt_other hrecords).mpr rfl)
  | records hfold hnames hperm =>
    rw [hfold] at hname
    subst hname
    rw [shape_records hshape, Dump.conform, Dump.conform]
    exact rel_object (conformEntries_perm hperm hnames (sameAt_records.mp hv).membersOf)

/-- The run over the members of a dump. -/
theorem conformMembers_linked {ms ms' : List (String × Json)} (h : List.Forall₂ SameMember ms ms')
    (hd : Linked SameAt d d') :
    Option.Rel (Linked SameAt) (conformMembers .unit d ms) (conformMembers .unit d' ms') := by
  induction h generalizing d d' with
  | nil => exact .some hd
  | cons hm _ ih =>
    rw [conformMembers, conformMembers, hm.key_eq]
    cases hkey : Kind.unit.key? _ with
    | none => exact .none
    | some k =>
      dsimp only
      rcases rel_cases (hm.conform hkey (hd.earlier k.1)) with ⟨hc, hc'⟩ | ⟨v, v', hc, hc', hv⟩
      · rw [hc, hc']
        exact .none
      · rw [hc, hc']
        exact ih (hd.continued hv)

end Members

section Readings

variable {r r' : Reading} {entries entries' : List (String × Json)}

theorem Reading.Same.records (h : r.Same r') (fuel : Nat) (entries : List (String × Json)) :
    r'.records fuel entries = r.records fuel entries := by
  induction entries with
  | nil => rfl
  | cons e es ih =>
    have hfirst : r'.recordOf fuel e = r.recordOf fuel e :=
      ((Reading.Same.refl r').recordOf fuel e).symm.trans (h.recordOf fuel e)
    rw [Reading.records, Reading.records, hfirst, ih]

theorem Reading.Same.decl_eq (h : r.Same r') (fuel : Nat) : r'.decl fuel = r.decl fuel := by
  funext node place
  exact ((Reading.Same.refl r').decl fuel node place).symm.trans (h.decl fuel node place)

/-- Records are read one by one, whatever stands before and after them. -/
theorem Reading.records_perm (r : Reading) (fuel : Nat) (hperm : entries.Perm entries') :
    Alike AnyFailure List.Perm (r.records fuel entries) (r.records fuel entries') := by
  have hrefl : ∀ e, Alike AnyFailure Eq (r.recordOf fuel e) (r.recordOf fuel e) :=
    fun e => .refl (fun _ => trivial) _
  induction hperm with
  | nil => exact .ok .nil
  | cons e _ ih =>
    exact (hrefl e).bind_eq fun first => ih.bind fun rest rest' hrest => .ok (hrest.cons first)
  | swap a b es =>
    simp only [Reading.records]
    cases r.recordOf fuel a with
    | error f =>
      cases r.recordOf fuel b with
      | error | ok => exact .error trivial
    | ok x =>
      cases r.recordOf fuel b with
      | error g => exact .error trivial
      | ok y =>
        cases r.records fuel es with
        | error g => exact .error trivial
        | ok rest => exact .ok (.swap x y rest)
  | trans _ _ ihfirst ihlast =>
    exact ihfirst.trans (fun _ _ _ _ _ => trivial) (fun _ _ _ => .trans) ihlast

end Readings

namespace Loaded

/-- The same unit with the same records, and no question, nor any number of them one after another,
tells the two apart. -/
structure Interchangeable (l l' : Loaded) : Prop where
  unit : l'.unit = l.unit
  records : l.env.records.Perm l'.env.records
  find : ∀ tag, l'.env.records.find tag = l.env.records.find tag
  answer : ∀ q, l'.answer q = l.answer q
  -- Layouts are kept on the way, so a session may not go round in a record that holds itself.
  session : l.env.records.Acyclic → ∀ qs, ∃ replies layouts layouts',
    l.session qs [] = some (.ok replies, layouts) ∧ l'.session qs [] = some (.ok replies, layouts')

theorem answer_of_same {u : SourceUnit} {env env' : TypeEnv} (h : env.Same env') (q : Question) :
    answer ⟨u, env'⟩ q = answer ⟨u, env⟩ q := by
  cases q with
  | layout tag => rw [answer, answer, h.layoutOf]
  | size t => rw [answer, answer, funext h.sizeOf]
  | wrapper t => rw [answer, answer, funext h.mapType]
  | storageKind t => rw [answer, answer, funext h.storageKind]
  | constant e => rw [answer, answer, h.constant?]
  | text package cancelled => rw [answer, answer, h.generate]

theorem interchangeable_of_shuffled {u : SourceUnit} {env env' : TypeEnv} (h : env.Shuffled env')
    (hu : u.Complete) : Interchangeable ⟨u, env.rememberAll⟩ ⟨u, env'.rememberAll⟩ := by
  have hrecords := TypeEnv.records_of_fresh env.rememberAll_fresh
  have hrecords' := TypeEnv.records_of_fresh env'.rememberAll_fresh
  have hanswer : answer ⟨u, env'.rememberAll⟩ = answer ⟨u, env.rememberAll⟩ :=
    funext (answer_of_same h.same)
  refine ⟨rfl, ?_, h.same.find, fun q => congrFun hanswer q, fun hacyclic qs => ?_⟩
  · rw [hrecords, hrecords']
    exact h.perm
  · have hleft : env.records.Acyclic := hrecords ▸ hacyclic
    obtain ⟨layouts, hsession, -⟩ := session_answers (l := ⟨u, env.rememberAll⟩)
      (TypeEnv.rememberAll_settled h.none hleft) hu qs [] (LayoutCache.computed_nil _)
    obtain ⟨layouts', hsession', -⟩ := session_answers (l := ⟨u, env'.rememberAll⟩)
      (TypeEnv.rememberAll_settled h.none' (h.acyclic hleft)) hu qs [] (LayoutCache.computed_nil _)
    exact ⟨_, layouts, layouts', hsession, hanswer ▸ hsession'⟩

end Loaded

section Units

variable {d d' : List (String × Json)} (h : Linked SameAt d d') (path : String) (markers : Markers)

include h

theorem Linked.entries : SameEntries (entriesOf (object d)) (entriesOf (object d')) :=
  (sameAt_records.mp (h.lookup "records")).membersOf

theorem Linked.get?_eq {key : String} (hkey : key ≠ "records") :
    get? key (object d') = get? key (object d) :=
  ((sameAt_other hkey).mp (h.lookup key)).symm

theorem Linked.textAt_eq {key : String} (hkey : key ≠ "records") :
    textAt key (object d') = textAt key (object d) := by
  rw [textAt, textAt, h.get?_eq hkey]

/-- A name leads to the same tag, also one that no record has. -/
theorem Linked.same_reading : (readingOf path (object d)).Same (readingOf path (object d')) := by
  refine ⟨rfl, h.textAt_eq (by decide), fun name => ?_⟩
  have hperm := h.entries.perm.map fun e : String × Json => (⟨e.1, flagAt "union" e.2⟩ : RecordTag)
  have hnames : (((entriesOf (object d)).map fun e =>
      (⟨e.1, flagAt "union" e.2⟩ : RecordTag)).map RecordTag.name).Nodup := by
    rw [List.map_map]
    exact h.entries.nodup
  unfold Reading.tag
  exact congrArg (Option.getD · _) (find?_of_perm RecordTag.name hperm hnames name)

theorem Linked.records_alike : Alike AnyFailure
    (fun table table' : List Record => table.Perm table' ∧ (table.map (·.tag.name)).Nodup)
    ((readingOf path (object d)).records Json.maxNesting (entriesOf (object d)))
    ((readingOf path (object d')).records Json.maxNesting (entriesOf (object d'))) := by
  have hyields := ((readingOf path (object d)).records_ends reports_any Json.maxNesting
    (entriesOf (object d))).yields
  rw [(h.same_reading path).records]
  refine ((Reading.records_perm _ _ h.entries.perm).and_yields hyields).imp
    fun table table' ht => ?_
  obtain ⟨hperm, -, htags, -⟩ := ht
  have hnames : table.map (·.tag.name) = (entriesOf (object d)).map Prod.fst :=
    calc
      table.map (·.tag.name) = (table.map Record.tag).map RecordTag.name := List.map_map.symm
      _ = (entriesOf (object d)).map Prod.fst := by rw [htags, List.map_map]; rfl
  exact ⟨hperm, hnames ▸ h.entries.nodup⟩

theorem Linked.resolve_shuffled : Alike AnyFailure
    (fun l l' => l'.unit = l.unit ∧ ∃ env env' : TypeEnv, env.Shuffled env' ∧
      l.env = env.rememberAll ∧ l'.env = env'.rememberAll)
    (resolve path markers (object d)) (resolve path markers (object d')) := by
  have hnull : ((entriesOf (object d')).any fun e => e.2.isNull) =
      (entriesOf (object d)).any fun e => e.2.isNull := h.entries.perm.any_eq.symm
  have hdecls : itemsAt "decls" (object d') = itemsAt "decls" (object d) := by
    rw [itemsAt, itemsAt, h.get?_eq (by decide)]
  have hname : textAt "name" (object d') = textAt "name" (object d) := h.textAt_eq (by decide)
  have hfile : textAt "file" (object d') = textAt "file" (object d) := h.textAt_eq (by decide)
  rw [resolve_eq, resolve_eq, hnull, hdecls, (h.same_reading path).decl_eq, hname, hfile]
  by_cases hany : ((entriesOf (object d)).any fun e => e.2.isNull) = true
  · rw [if_pos hany, if_pos hany]
    exact .error trivial
  · rw [if_neg hany, if_neg hany]
    refine (h.records_alike path).bind fun table table' ht => ?_
    refine (Alike.refl (fun _ => trivial) _).bind_eq fun decls => ?_
    have hshuffled : (TypeEnv.ofMarkers markers.passThrough markers.listRecord table).Shuffled
        (TypeEnv.ofMarkers markers.passThrough markers.listRecord table') :=
      ⟨rfl, rfl, ht.1, ht.2, rfl, rfl⟩
    exact .ok ⟨rfl, _, _, hshuffled, rfl, rfl⟩

theorem Linked.resolve_alike : Alike AnyFailure Loaded.Interchangeable
    (resolve path markers (object d)) (resolve path markers (object d')) := by
  have hcomplete : Yields (fun l => l.unit.Complete) (resolve path markers (object d)) :=
    fun l hl => ((resolve_ends reports_any path markers _).yields l hl).2.complete
  refine ((h.resolve_shuffled path markers).and_yields hcomplete).imp fun l l' hl => ?_
  obtain ⟨⟨hunit, env, env', hshuffled, henv, henv'⟩, hl⟩ := hl
  obtain ⟨u, _⟩ := l
  obtain ⟨u', _⟩ := l'
  cases hunit
  cases henv
  cases henv'
  exact Loaded.interchangeable_of_shuffled hshuffled hl

end Units

theorem Reordered.canonical {j j' : Json} (h : Reordered j j') :
    Option.Rel (fun dump dump' => ∃ d d', dump = object d ∧ dump' = object d' ∧ Linked SameAt d d')
      (canonical j) (canonical j') := by
  cases h with
  | unit h =>
    have hempty : Linked SameAt [] [] :=
      ⟨List.nodup_nil, List.nodup_nil, fun key => by
        by_cases hkey : key = "records"
        · rw [hkey]
          exact .none
        · exact (sameAt_other hkey).mpr rfl⟩
    rw [Dump.canonical, Dump.canonical, conform, conform]
    dsimp only [membersOf]
    rcases rel_cases (conformMembers_linked h hempty) with ⟨hc, hc'⟩ | ⟨d, d', hc, hc', hd⟩
    · rw [hc, hc']
      exact .none
    · rw [hc, hc']
      exact .some ⟨d, d', rfl, rfl, hd⟩

/-- A dump and the same dump with its records in another order are both accepted or both refused. If
they are accepted, they give the same declarations, the same records and the same answers, whichever
records name each other, themselves or others that are not there. The values are compared apart from
the texts they stand in, which are in different order themselves. -/
theorem record_order_invisible {j j' : Json} (h : Reordered j.detached j'.detached) (path : String)
    (markers : Markers) :
    Alike AnyFailure Loaded.Interchangeable (ofJson path markers j) (ofJson path markers j') ∧
      ∀ text text' rest rest', Json.readFirst text = some (j, rest) →
        Json.readFirst text' = some (j', rest') →
        Alike AnyFailure Loaded.Interchangeable (ofText path markers text)
          (ofText path markers text') := by
  have halike : Alike AnyFailure Loaded.Interchangeable (ofJson path markers j)
      (ofJson path markers j') := by
    rw [← ofJson_detached path markers j, ← ofJson_detached path markers j', ofJson, ofJson]
    rcases rel_cases h.canonical with ⟨hc, hc'⟩ | ⟨_, _, hc, hc', d, d', rfl, rfl, hd⟩
    · rw [hc, hc']
      exact .error trivial
    · rw [hc, hc']
      exact hd.resolve_alike path markers
  refine ⟨halike, fun text text' rest rest' htext htext' => ?_⟩
  rw [ofText, ofText, htext, htext']
  exact halike

section Rings

def word (text : String) : Json := .string ("\"" ++ text ++ "\"") text

/-- The type of a record of that name, or of a pointer to one. -/
def recordType (name : String) : Json := object [("kind", word "record"), ("name", word name)]

def pointerType (name : String) : Json :=
  object [("kind", word "pointer"), ("pointee", recordType name)]

def fieldOf (name : String) (type : Json) : Json := object [("name", word name), ("type", type)]

/-- A ring that holds a cell and points to itself, and to a record that is not there. -/
def ring : String × Json :=
  ("ring", object [("fields", array [fieldOf "first" (recordType "cell"),
    fieldOf "next" (pointerType "ring"), fieldOf "owner" (pointerType "ghost")])])

def cell : String × Json :=
  ("cell", object [("fields", array [fieldOf "ring" (pointerType "ring")])])

/-- A unit with a variable that is a ring. -/
def ringDump (records : List (String × Json)) : Json :=
  object [("records", object records),
    ("decls",
      array [object [("kind", word "var"), ("name", word "top"), ("type", recordType "ring")]])]

/-- A ring and its cells, in either order. -/
theorem ring_order_invisible : ∃ l l' : Loaded,
    ofJson "in.json" {} (ringDump [ring, cell]) = .ok l ∧
    ofJson "in.json" {} (ringDump [cell, ring]) = .ok l' ∧ l.Interchangeable l' := by
  have hreordered : Reordered (ringDump [ring, cell]).detached (ringDump [cell, ring]).detached :=
    .unit (.cons (.records rfl (by decide) (.swap _ _ _)) (.cons (.same _) .nil))
  obtain ⟨halike, -⟩ := record_order_invisible hreordered "in.json" {}
  have hleft : ∃ l, ofJson "in.json" {} (ringDump [ring, cell]) = .ok l := ⟨_, rfl⟩
  obtain ⟨l, hl⟩ := hleft
  rw [hl] at halike
  cases hr : ofJson "in.json" {} (ringDump [cell, ring]) with
  | ok l' =>
    rw [hr] at halike
    cases halike with
    | ok h => exact ⟨l, l', hl, rfl, h⟩
  | error f =>
    rw [hr] at halike
    cases halike

end Rings

end Dump

end DartLowering
