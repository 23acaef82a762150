import DartLowering.Proofs.Labels

/-!
The order of the records in a table. A record is found by its name, and its layout is computed from
what is found, so the order shows in neither. It does not show in the layouts that are kept either:
whether records that hold themselves are around or not, a layout that is found at any depth is found
within the bound of the table (`layoutOf_of_layoutWithin`), and so no kept layout gives a record one
that it would not have anyway.
-/
namespace DartLowering

open Layout Result

section Held

variable {layoutOf : RecordTag → Result RecordLayout}

/-- A type that has an extent holds a record that has a layout. -/
theorem CType.layout_of_extent {tag : RecordTag} : ∀ {t : CType} {e : Extent},
    t.extent layoutOf = .ok e → t.held? = some tag → ∃ l, layoutOf tag = .ok l
  | .alias _ t, e, h, hheld => layout_of_extent (t := t) h hheld
  | .record _, e, h, hheld => by
    cases hheld
    obtain ⟨l, hl, -⟩ := bind_eq_ok.mp h
    exact ⟨l, hl⟩
  | .array elem length isVariable, e, h, hheld => by
    rw [CType.extent] at h
    split at h
    · cases h
    · obtain ⟨inner, hinner, -⟩ := bind_eq_ok.mp h
      exact layout_of_extent hinner hheld

theorem Record.layout_of_slots {record : String} {fs : List Field} {slots : List Slot}
    (h : Record.slots layoutOf record fs = .ok slots) :
    ∀ f ∈ fs, ∀ tag, f.type.held? = some tag → ∃ l, layoutOf tag = .ok l := by
  induction fs generalizing slots with
  | nil => exact List.forall_mem_nil _
  | cons f fs ih =>
    obtain ⟨s, hs, h⟩ := bind_eq_ok.mp h
    obtain ⟨ss, hss, -⟩ := bind_eq_ok.mp h
    refine List.forall_mem_cons.mpr ⟨fun tag hheld => ?_, ih hss⟩
    unfold Field.slot at hs
    split at hs
    · rename_i e he
      exact CType.layout_of_extent he hheld
    · cases hs

/-- Slots stay when every layout that they were made from does. -/
theorem Record.slots_of_layouts {layoutOf' : RecordTag → Result RecordLayout}
    (h : ∀ tag l, layoutOf tag = .ok l → layoutOf' tag = .ok l) {record : String} {fs : List Field}
    {slots : List Slot} (hslots : Record.slots layoutOf record fs = .ok slots) :
    Record.slots layoutOf' record fs = .ok slots := by
  rw [← hslots]
  refine Record.slots_congr record fun f hf tag hheld => ?_
  obtain ⟨l, hl⟩ := Record.layout_of_slots hslots f hf tag hheld
  rw [hl, h tag l hl]

end Held

namespace RecordTable

variable {table table' : RecordTable} {outer other : RecordTag}

/-- A record with fields is the one of its name in the table. -/
theorem find_of_name (hname : other.name = outer.name) {f : Field}
    (hf : f ∈ (table.find outer).fields) : table.find other = table.find outer := by
  unfold find at hf ⊢
  rw [hname]
  cases hr : List.find? (fun r => r.tag.name == outer.name) table with
  | none =>
    rw [hr] at hf
    cases hf
  | some r => rfl

end RecordTable

/-- Where keys are not repeated, the order does not matter for looking one up. -/
theorem find?_of_perm {α : Type} (key : α → String) {xs ys : List α} (hperm : xs.Perm ys)
    (hkeys : (xs.map key).Nodup) (k : String) :
    ys.find? (fun x => key x == k) = xs.find? (fun x => key x == k) := by
  induction hperm with
  | nil => rfl
  | cons x _ ih =>
    rw [List.map_cons, List.nodup_cons] at hkeys
    rw [List.find?_cons, List.find?_cons, ih hkeys.2]
  | swap x y xs =>
    rw [List.map_cons, List.map_cons, List.nodup_cons, List.mem_cons, not_or] at hkeys
    simp only [List.find?_cons]
    by_cases hx : key x = k
    · have hy : key y ≠ k := fun hy => hkeys.1.1 (hy.trans hx.symm)
      rw [beq_iff_eq.mpr hx, beq_eq_false_iff_ne.mpr hy]
    · rw [beq_eq_false_iff_ne.mpr hx]
  | trans hxy _ ih ih' => exact (ih' ((hxy.map key).nodup_iff.mp hkeys)).trans (ih hkeys)

namespace TypeEnv

variable {env env' : TypeEnv} {depth : Nat} {tag : RecordTag} {l : RecordLayout}

/-- A layout that is found at some depth is found further down. -/
theorem layoutWithin_succ (h : env.layoutWithin depth tag = .ok l) :
    env.layoutWithin (depth + 1) tag = .ok l := by
  induction depth generalizing tag l with
  | zero => cases h
  | succ depth ih =>
    rw [layoutWithin] at h ⊢
    split at h
    · exact h
    · obtain ⟨slots, hslots, h⟩ := bind_eq_ok.mp h
      exact bind_eq_ok.mpr ⟨slots, Record.slots_of_layouts (fun _ _ => ih) hslots, h⟩

theorem layoutWithin_of_le {depth' : Nat} (h : env.layoutWithin depth tag = .ok l)
    (hle : depth ≤ depth') : env.layoutWithin depth' tag = .ok l := by
  induction hle with
  | refl => exact h
  | step _ ih => exact layoutWithin_succ ih

def Laid (env : TypeEnv) (depth : Nat) (tag : RecordTag) : Prop :=
  ∃ l, env.layoutWithin depth tag = .ok l

theorem Laid.mono {depth' : Nat} (h : env.Laid depth tag) (hle : depth ≤ depth') :
    env.Laid depth' tag := by
  obtain ⟨l, hl⟩ := h
  exact ⟨l, layoutWithin_of_le hl hle⟩

theorem layoutWithin_of_not_known (hnone : env.known = []) (depth : Nat) (tag : RecordTag) :
    env.layoutWithin (depth + 1) tag =
      (Record.slots (env.layoutWithin depth) (env.records.find tag).tag.name
        (env.records.find tag).fields >>= (env.records.find tag).layout) := by
  have hknown : env.known? tag = none := by rw [known?, hnone]; rfl
  rw [layoutWithin, hknown]

section Bound

variable (hnone : env.known = [])

include hnone

/-- A record that needs one level more than it is given holds one that does. -/
theorem exists_held_of_not_laid (h : env.Laid (depth + 2) tag) (hnot : ¬ env.Laid (depth + 1) tag) :
    ∃ inner, env.records.Holds tag inner ∧ env.Laid (depth + 1) inner ∧ ¬ env.Laid depth inner := by
  obtain ⟨l, hl⟩ := h
  rw [layoutWithin_of_not_known hnone] at hl
  obtain ⟨slots, hslots, -⟩ := bind_eq_ok.mp hl
  by_contra hall
  push Not at hall
  apply hnot
  refine ⟨l, ?_⟩
  rw [← hl, layoutWithin_of_not_known hnone]
  refine congrArg (· >>= _) (Record.slots_congr _ fun f hf inner hheld => ?_)
  obtain ⟨m, hm⟩ := hall inner ⟨f, hf, hheld⟩ (Record.layout_of_slots hslots f hf inner hheld)
  rw [hm, layoutWithin_succ hm]

/-- A record that needs `depth + 1` levels has a way down through `depth` records of the table, all
with names of their own, since each of them needs one level less than the one before. -/
theorem exists_way_down (h : env.Laid (depth + 1) tag) (hnot : ¬ env.Laid depth tag) :
    ∃ names : List String, names.length = depth ∧ names.Nodup ∧
      names ⊆ env.records.map (·.tag.name) ∧
      ∀ other : RecordTag, other.name ∈ names → env.Laid (depth + 1) other := by
  induction depth generalizing tag with
  | zero =>
    refine ⟨[], rfl, List.nodup_nil, List.nil_subset _, fun other hother => ?_⟩
    cases hother
  | succ depth ih =>
    obtain ⟨inner, ⟨f, hf, -⟩, hinner, hless⟩ := exists_held_of_not_laid hnone h hnot
    obtain ⟨names, hlength, hnodup, hsub, hlaid⟩ := ih hinner hless
    obtain ⟨hmem, hname⟩ := RecordTable.find_of_field hf
    have hnew : tag.name ∉ names := fun hold => hnot (hlaid tag hold)
    have htable : tag.name ∈ env.records.map (·.tag.name) := List.mem_map.mpr ⟨_, hmem, hname⟩
    refine ⟨tag.name :: names, by rw [List.length_cons, hlength],
      List.nodup_cons.mpr ⟨hnew, hnodup⟩,
      List.cons_subset.mpr ⟨htable, hsub⟩, fun other hother => ?_⟩
    rcases List.mem_cons.mp hother with hsame | hold
    · have hfind := RecordTable.find_of_name hsame hf
      obtain ⟨l, hl⟩ := h
      refine ⟨l, ?_⟩
      rw [layoutWithin_of_not_known hnone] at hl ⊢
      rw [hfind, hl]
    · exact (hlaid other hold).mono (by omega)

/-- The bound of the table suffices for every layout that there is. -/
theorem layoutOf_of_layoutWithin (h : env.layoutWithin depth tag = .ok l) :
    env.layoutOf tag = .ok l := by
  have hlaid : ∀ d, env.Laid d tag → env.Laid (env.records.length + 1) tag := by
    intro d
    induction d with
    | zero =>
      rintro ⟨m, hm⟩
      cases hm
    | succ d ih =>
      intro hd
      by_cases hless : env.Laid d tag
      · exact ih hless
      · obtain ⟨names, hlength, hnodup, hsub, -⟩ := exists_way_down hnone hd hless
        have hle := hnodup.length_le_of_subset hsub
        rw [List.length_map] at hle
        exact hd.mono (by omega)
  obtain ⟨m, hm⟩ := hlaid depth ⟨l, h⟩
  have hdeep := layoutWithin_of_le hm (Nat.le_add_left _ depth)
  rw [layoutWithin_of_le h (Nat.le_add_right _ _)] at hdeep
  rw [layoutOf, hm, hdeep]

end Bound

section Kept

theorem fresh_known (env : TypeEnv) : env.fresh.known = [] := rfl

/-- Kept layouts that are the computed ones give a layout to the records that have one, and to no
others. -/
theorem KeepsComputed.layoutOf_eq_ok (h : env.KeepsComputed) :
    env.layoutOf tag = .ok l ↔ env.fresh.layoutOf tag = .ok l := by
  constructor
  · suffices hall : ∀ depth tag l, env.layoutWithin depth tag = .ok l →
        env.fresh.layoutOf tag = .ok l from hall _ tag l
    intro depth
    induction depth with
    | zero =>
      intro tag l hl
      cases hl
    | succ depth ih =>
      intro tag l hl
      rw [layoutWithin] at hl
      split at hl
      · rename_i kept hknown
        cases hl
        exact h tag l hknown
      · obtain ⟨slots, hslots, hl⟩ := bind_eq_ok.mp hl
        have hdeeper : env.fresh.layoutWithin (env.records.length + 2) tag = .ok l := by
          rw [layoutWithin_of_not_known env.fresh_known]
          exact bind_eq_ok.mpr ⟨slots, Record.slots_of_layouts ih hslots, hl⟩
        exact layoutOf_of_layoutWithin env.fresh_known hdeeper
  · suffices hall : ∀ depth tag l, env.fresh.layoutWithin depth tag = .ok l →
        env.layoutWithin depth tag = .ok l from hall _ tag l
    intro depth
    induction depth with
    | zero =>
      intro tag l hl
      cases hl
    | succ depth ih =>
      intro tag l hl
      rw [layoutWithin]
      split
      · rename_i kept hknown
        rw [← h tag kept hknown, layoutOf_of_layoutWithin env.fresh_known hl]
      · rw [layoutWithin_of_not_known env.fresh_known] at hl
        obtain ⟨slots, hslots, hl⟩ := bind_eq_ok.mp hl
        exact bind_eq_ok.mpr ⟨slots, Record.slots_of_layouts ih hslots, hl⟩

/-- What is kept after the layout of one more record was asked for. -/
theorem KeepsComputed.known?_remember (h : env.KeepsComputed) (asked : RecordTag) :
    (env.remember asked).known? tag = some l ↔
      env.known? tag = some l ∨ asked = tag ∧ env.fresh.layoutOf tag = .ok l := by
  unfold TypeEnv.remember
  cases hasked : env.layoutOf asked with
  | error failure =>
    have hno : ¬ (asked = tag ∧ env.fresh.layoutOf tag = .ok l) := by
      rintro ⟨rfl, hl⟩
      rw [h.layoutOf_eq_ok.mpr hl] at hasked
      cases hasked
    exact ⟨.inl, fun hor => hor.resolve_right hno⟩
  | ok found =>
    have hfresh := h.layoutOf_eq_ok.mp hasked
    dsimp only [known?]
    by_cases hsame : asked = tag
    · subst hsame
      rw [List.find?_cons_of_pos (by simp), hfresh]
      constructor
      · intro heq
        cases heq
        exact .inr ⟨rfl, rfl⟩
      · rintro (hknown | ⟨-, heq⟩)
        · rw [h asked l hknown] at hfresh
          cases hfresh
          rfl
        · cases heq
          rfl
    · rw [List.find?_cons_of_neg (by simpa using hsame)]
      exact ⟨.inl, fun hor => hor.resolve_right fun hand => hsame hand.1⟩

theorem KeepsComputed.of_remember (h : env.KeepsComputed) (asked : RecordTag) :
    (env.remember asked).KeepsComputed := by
  intro tag l hknown
  rw [env.remember_fresh]
  rcases h.known?_remember asked |>.mp hknown with hold | ⟨-, hnew⟩
  · exact h tag l hold
  · exact hnew

/-- What is kept after the layouts of some records were asked for, one after the other. -/
theorem KeepsComputed.known?_foldl (h : env.KeepsComputed) (rs : List Record) :
    (rs.foldl (fun env r => env.remember r.tag) env).known? tag = some l ↔
      env.known? tag = some l ∨ tag ∈ rs.map Record.tag ∧ env.fresh.layoutOf tag = .ok l := by
  induction rs generalizing env with
  | nil => simp
  | cons r rs ih =>
    rw [List.foldl_cons, ih (h.of_remember r.tag), env.remember_fresh, h.known?_remember,
      List.map_cons, List.mem_cons]
    tauto

theorem known?_rememberAll (hnone : env.known = []) :
    env.rememberAll.known? tag = some l ↔
      tag ∈ env.records.map Record.tag ∧ env.fresh.layoutOf tag = .ok l := by
  have hknown : ∀ tag, env.known? tag = none := fun tag => by rw [known?, hnone]; rfl
  have hkeeps : env.KeepsComputed := by
    intro tag l hl
    rw [hknown] at hl
    cases hl
  rw [rememberAll, hkeeps.known?_foldl, hknown]
  simp

end Kept

section Order

/-- Layouts depend on what is kept and on what is found. -/
theorem layoutWithin_congr (hknown : ∀ tag, env'.known? tag = env.known? tag)
    (hfind : ∀ tag, env'.records.find tag = env.records.find tag) (depth : Nat) :
    env'.layoutWithin depth = env.layoutWithin depth := by
  induction depth with
  | zero => rfl
  | succ depth ih =>
    funext tag
    rw [layoutWithin, layoutWithin, hknown, hfind, ih]

/-- The tables have the same records in any order, one for a name, and keep no layout yet. -/
structure Shuffled (env env' : TypeEnv) : Prop where
  passThrough : env'.passThrough = env.passThrough
  listRecord : env'.listRecord = env.listRecord
  perm : env.records.Perm env'.records
  names : (env.records.map (·.tag.name)).Nodup
  none : env.known = []
  none' : env'.known = []

namespace Shuffled

variable (h : env.Shuffled env')

include h

theorem find (tag : RecordTag) : env'.records.find tag = env.records.find tag := by
  unfold RecordTable.find
  rw [find?_of_perm (fun r : Record => r.tag.name) h.perm h.names]

theorem acyclic (hacyclic : env.records.Acyclic) : env'.records.Acyclic := by
  have hholds : env'.records.Holds = env.records.Holds := by
    funext outer inner
    rw [RecordTable.Holds, RecordTable.Holds, h.find]
  rw [RecordTable.Acyclic, hholds]
  exact hacyclic

theorem layoutOf_fresh (tag : RecordTag) : env'.fresh.layoutOf tag = env.fresh.layoutOf tag := by
  have hwithin : ∀ depth, env'.fresh.layoutWithin depth = env.fresh.layoutWithin depth :=
    layoutWithin_congr (fun _ => rfl) h.find
  change env'.fresh.layoutWithin (env'.records.length + 1) tag =
    env.fresh.layoutWithin (env.records.length + 1) tag
  rw [hwithin, h.perm.length_eq]

theorem known?_rememberAll (tag : RecordTag) :
    env'.rememberAll.known? tag = env.rememberAll.known? tag := by
  refine Option.ext fun l => ?_
  rw [TypeEnv.known?_rememberAll h.none', TypeEnv.known?_rememberAll h.none, h.layoutOf_fresh]
  exact and_congr_left' (h.perm.map Record.tag).mem_iff.symm

/-- The order in which layouts are computed and kept shows in no answer. -/
theorem same : env.rememberAll.Same env'.rememberAll := by
  obtain ⟨hpass, hlist⟩ := markers_of_fresh env.rememberAll_fresh
  obtain ⟨hpass', hlist'⟩ := markers_of_fresh env'.rememberAll_fresh
  have hrecords := records_of_fresh env.rememberAll_fresh
  have hrecords' := records_of_fresh env'.rememberAll_fresh
  have hfind : ∀ tag, env'.rememberAll.records.find tag = env.rememberAll.records.find tag := by
    intro tag
    rw [hrecords, hrecords', h.find]
  refine ⟨?_, ?_, hfind, fun tag => ?_⟩
  · rw [hpass, hpass', h.passThrough]
  · rw [hlist, hlist', h.listRecord]
  · rw [layoutOf, layoutOf, layoutWithin_congr h.known?_rememberAll hfind, hrecords, hrecords',
      h.perm.length_eq]

end Shuffled

end Order

end TypeEnv

end DartLowering
