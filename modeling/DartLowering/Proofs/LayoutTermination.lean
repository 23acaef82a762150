import DartLowering.Emit.Lookup
import DartLowering.Proofs.Containment

/-!
The recursion that finds layouts comes to an end. `LayoutTask.Returns` is that recursion as it is:
it knows no bound on how deep records may nest, and counts its calls. Every lookup with a bound that
is large enough gives the same answer and keeps the same layouts (`LayoutTask.Returns.lookup_eq`).
Where no record holds itself, a descent through the records that are held shows that every task
returns, whatever was kept before.
-/
namespace DartLowering

open Layout

/-- What the computation of a layout asks of itself. -/
inductive LayoutTask
  | layout (tag : RecordTag)
  | extent (t : CType)
  | slots (record : String) (fs : List Field)

abbrev LayoutTask.Answer : LayoutTask → Type
  | .layout _ => RecordLayout
  | .extent _ => Extent
  | .slots _ _ => List Slot

/-- The extent of the type asks for no other. -/
def CType.isOwn : CType → Bool
  | .array _ _ isVariable => isVariable
  | .record _ | .alias _ _ => false
  | .void | .scalar _ | .pointer _ | .functionPointer _ _ _ | .function _ _ _ | .object _ => true

/-- The extent of an array from that of its elements. -/
def CType.arrayExtent (elem : CType) (length : Option Int64) (e : Extent) : Result Extent :=
  match length with
  | none => .ok ⟨0, e.align⟩
  | some n =>
      match arrayLayout elem.text e.size e.align n with
      | .ok l => .ok ⟨l.size, l.elementAlign⟩
      | .error fault => .error (.violation (.arrayLayout fault))

namespace LayoutCache

def entry? (layouts : LayoutCache) (tag : RecordTag) : Option RecordLayout :=
  (List.find? (fun k => k.1 = tag) layouts).map (·.2)

def keeping (layouts : LayoutCache) (tag : RecordTag) : Result RecordLayout → LayoutCache
  | .ok l => (tag, l) :: layouts
  | .error _ => layouts

end LayoutCache

/-- The task that starts with the layouts in `before` is done after so many calls for layouts and
extents. -/
inductive LayoutTask.Returns (env : TypeEnv) :
    (q : LayoutTask) → (before : LayoutCache) → (calls : Nat) → Result q.Answer →
      (after : LayoutCache) → Prop
  | kept {tag : RecordTag} {c : LayoutCache} {l : RecordLayout} (hkept : c.entry? tag = some l) :
      Returns env (.layout tag) c 1 (.ok l) c
  | computed {tag : RecordTag} {c c' : LayoutCache} {n : Nat} {r : Result (List Slot)}
      (hnew : c.entry? tag = none)
      (hslots :
        Returns env (.slots (env.records.find tag).tag.name (env.records.find tag).fields) c
          n r c') :
      Returns env (.layout tag) c (n + 1) (r >>= (env.records.find tag).layout)
        (c'.keeping tag (r >>= (env.records.find tag).layout))
  | done {record : String} {c : LayoutCache} : Returns env (.slots record []) c 0 (.ok []) c
  | stopped {record : String} {f : Field} {fs : List Field} {c c' : LayoutCache} {n : Nat}
      {failure : Failure} (hf : Returns env (.extent f.type) c n (.error failure) c') :
      Returns env (.slots record (f :: fs)) c n
        (.error (failure.wrap ("field " ++ record ++ "." ++ f.name))) c'
  | field {record : String} {f : Field} {fs : List Field} {c c' c'' : LayoutCache} {n m : Nat}
      {e : Extent} {r : Result (List Slot)} (hf : Returns env (.extent f.type) c n (.ok e) c')
      (hrest : Returns env (.slots record fs) c' m r c'') :
      Returns env (.slots record (f :: fs)) c (n + m)
        (r >>= fun ss => .ok (⟨f.name, f.type.text, f.offset, e.size, e.align⟩ :: ss)) c''
  | own {t : CType} {c : LayoutCache} (h : t.isOwn = true) :
      Returns env (.extent t) c 1 (t.extent fun _ => .error .crash) c
  | record {tag : RecordTag} {c c' : LayoutCache} {n : Nat} {r : Result RecordLayout}
      (h : Returns env (.layout tag) c n r c') :
      Returns env (.extent (.record tag)) c (n + 1) (r >>= fun l => .ok ⟨l.size, l.align⟩) c'
  | named {name : String} {t : CType} {c c' : LayoutCache} {n : Nat} {r : Result Extent}
      (h : Returns env (.extent t) c n r c') : Returns env (.extent (.alias name t)) c (n + 1) r c'
  | elements {elem : CType} {length : Option Int64} {c c' : LayoutCache} {n : Nat}
      {r : Result Extent} (h : Returns env (.extent elem) c n r c') :
      Returns env (.extent (.array elem length false)) c (n + 1) (r >>= elem.arrayExtent length) c'

/-- The task within a bound on the records inside each other. -/
def LayoutTask.lookup (env : TypeEnv) (depth : Nat) : (q : LayoutTask) → Lookup q.Answer
  | .layout tag => env.lookupLayoutWithin depth tag
  | .extent t => t.lookupExtent (env.lookupLayoutWithin depth)
  | .slots record fs => Record.lookupSlots (env.lookupLayoutWithin depth) record fs

theorem Run.bind_ofResult {α β σ : Type} {m : Run σ α} {f : α → Result β} {s s' : σ} {r : Result α}
    (h : m s = some (r, s')) :
    (m >>= fun a => Run.ofResult (f a)) s = some (r >>= f, s') := by
  cases r with
  | ok a => exact Run.bind_of_ok h
  | error failure => exact Run.bind_of_error h

section Calls

variable {ask : RecordTag → Lookup RecordLayout} {c c' c'' : LayoutCache}

theorem CType.lookupExtent_own {t : CType} (h : t.isOwn = true) (c : LayoutCache) :
    t.lookupExtent ask c = some (t.extent fun _ => .error .crash, c) := by
  cases t with
  | record | «alias» => cases h
  | scalar s =>
    rw [CType.lookupExtent, CType.extent]
    split <;> rfl
  | array elem length isVariable =>
    cases isVariable with
    | true => rfl
    | false => cases h
  | _ => rfl

theorem CType.lookupExtent_elements {elem : CType} {length : Option Int64} {r : Result Extent}
    (h : elem.lookupExtent ask c = some (r, c')) :
    (CType.array elem length false).lookupExtent ask c =
      some (r >>= elem.arrayExtent length, c') := by
  have hbody : (CType.array elem length false).lookupExtent ask =
      elem.lookupExtent ask >>= fun e => Run.ofResult (elem.arrayExtent length e) := by
    rw [CType.lookupExtent, if_neg Bool.false_ne_true]
    refine congrArg (elem.lookupExtent ask >>= ·) (funext fun e => ?_)
    unfold arrayExtent
    cases length with
    | none => rfl
    | some n =>
      dsimp only
      cases arrayLayout elem.text e.size e.align n <;> rfl
  rw [hbody]
  exact Run.bind_ofResult h

theorem Record.lookupSlots_stopped {record : String} {f : Field} {fs : List Field}
    {failure : Failure} (hf : f.type.lookupExtent ask c = some (.error failure, c')) :
    Record.lookupSlots ask record (f :: fs) c =
      some (.error (failure.wrap ("field " ++ record ++ "." ++ f.name)), c') := by
  have hslot : f.lookupSlot ask record c =
      some (.error (failure.wrap ("field " ++ record ++ "." ++ f.name)), c') :=
    Run.bind_of_ok (Run.attempt_of hf)
  exact Run.bind_of_error hslot

theorem Record.lookupSlots_field {record : String} {f : Field} {fs : List Field} {e : Extent}
    {r : Result (List Slot)}
    (hf : f.type.lookupExtent ask c = some (.ok e, c'))
    (hrest : Record.lookupSlots ask record fs c' = some (r, c'')) :
    Record.lookupSlots ask record (f :: fs) c =
      some (r >>= fun ss => .ok (⟨f.name, f.type.text, f.offset, e.size, e.align⟩ :: ss), c'') := by
  have hslot : f.lookupSlot ask record c =
      some (.ok ⟨f.name, f.type.text, f.offset, e.size, e.align⟩, c') :=
    Run.bind_of_ok (Run.attempt_of hf)
  rw [Record.lookupSlots, Run.bind_of_ok hslot]
  exact Run.bind_ofResult hrest

variable {env : TypeEnv} {depth : Nat} {tag : RecordTag}

theorem TypeEnv.lookupLayoutWithin_kept {l : RecordLayout} (hkept : c.entry? tag = some l) :
    env.lookupLayoutWithin (depth + 1) tag c = some (.ok l, c) := by
  have hask : Lookup.kept? tag c = some (.ok (some l), c) := by rw [← hkept]; rfl
  rw [lookupLayoutWithin, Run.bind_of_ok hask]
  rfl

theorem TypeEnv.lookupLayoutWithin_computed {r : Result (List Slot)} (hnew : c.entry? tag = none)
    (hslots : Record.lookupSlots (env.lookupLayoutWithin depth) (env.records.find tag).tag.name
      (env.records.find tag).fields c = some (r, c')) :
    env.lookupLayoutWithin (depth + 1) tag c = some (r >>= (env.records.find tag).layout,
      c'.keeping tag (r >>= (env.records.find tag).layout)) := by
  have hask : Lookup.kept? tag c = some (.ok none, c) := by rw [← hnew]; rfl
  rw [lookupLayoutWithin, Run.bind_of_ok hask]
  dsimp only
  cases r with
  | error failure => exact Run.bind_of_error hslots
  | ok slots =>
    rw [Run.bind_of_ok hslots, Result.ok_bind]
    cases (env.records.find tag).layout slots <;> rfl

end Calls

variable {env : TypeEnv} {depth : Nat}

/-- A bound on the records inside each other does not show where it is at least the number of
calls. -/
theorem LayoutTask.Returns.lookup_eq {q : LayoutTask} {c c' : LayoutCache} {n : Nat}
    {r : Result q.Answer} (h : q.Returns env c n r c') :
    ∀ depth, n ≤ depth → q.lookup env depth c = some (r, c') := by
  induction h with
  | kept hkept =>
    intro depth hdepth
    obtain ⟨d, rfl⟩ := Nat.exists_eq_add_of_le' hdepth
    exact TypeEnv.lookupLayoutWithin_kept hkept
  | computed hnew _ ih =>
    intro depth hdepth
    cases depth with
    | zero => omega
    | succ depth => exact TypeEnv.lookupLayoutWithin_computed hnew (ih depth (by omega))
  | done => exact fun depth _ => rfl
  | stopped _ ih => exact fun depth hdepth => Record.lookupSlots_stopped (ih depth hdepth)
  | field _ _ ihf ihrest =>
    intro depth hdepth
    exact Record.lookupSlots_field (ihf depth (by omega)) (ihrest depth (by omega))
  | own h => exact fun depth _ => CType.lookupExtent_own h _
  | record _ ih => exact fun depth hdepth => Run.bind_ofResult (ih depth (by omega))
  | named _ ih => exact fun depth hdepth => ih depth (by omega)
  | elements _ ih => exact fun depth hdepth => CType.lookupExtent_elements (ih depth (by omega))

/-- The task returns, whatever was kept before it, and within the bound. -/
def LayoutTask.Done (env : TypeEnv) (depth : Nat) (q : LayoutTask) : Prop :=
  ∀ c, ∃ calls answer c', q.Returns env c calls answer c' ∧ q.lookup env depth c = some (answer, c')

/-- Two bounds within which a task is done give one answer. -/
theorem LayoutTask.exists_returns {q : LayoutTask} {least : Nat}
    (h : ∀ depth, least < depth → q.Done env depth) (kept : LayoutCache) :
    ∃ calls answer after, q.Returns env kept calls answer after ∧
      ∀ depth, least < depth → q.lookup env depth kept = some (answer, after) := by
  obtain ⟨n, r, c, hreturns, -⟩ := h _ (Nat.lt_succ_self least) kept
  refine ⟨n, r, c, hreturns, fun depth hdepth => ?_⟩
  obtain ⟨m, s, d, hother, hlookup⟩ := h depth hdepth kept
  -- both are what a bound gives that suffices for either
  have hfirst := hreturns.lookup_eq (n + m) (by omega)
  have hsecond := hother.lookup_eq (n + m) (by omega)
  rw [hlookup, ← hsecond, hfirst]

/-- The extent of a type returns where the layout of the record that it holds does. -/
theorem CType.extent_done : ∀ t : CType,
    (∀ tag, t.held? = some tag → (LayoutTask.layout tag).Done env depth) →
      (LayoutTask.extent t).Done env depth
  | .record tag, h => by
    intro c
    obtain ⟨n, r, c', hreturns, hlookup⟩ := h tag rfl c
    exact ⟨_, _, _, .record hreturns, Run.bind_ofResult hlookup⟩
  | .alias _ t, h => by
    intro c
    obtain ⟨n, r, c', hreturns, hlookup⟩ := t.extent_done h c
    exact ⟨_, _, _, .named hreturns, hlookup⟩
  | .array elem length false, h => by
    intro c
    obtain ⟨n, r, c', hreturns, hlookup⟩ := elem.extent_done h c
    exact ⟨_, _, _, .elements hreturns, CType.lookupExtent_elements hlookup⟩
  | .array _ _ true, _ | .void, _ | .scalar _, _ | .pointer _, _ | .functionPointer _ _ _, _
  | .function _ _ _, _ | .object _, _ => fun c => ⟨_, _, _, .own rfl, CType.lookupExtent_own rfl c⟩

theorem Record.slots_done (record : String) {fs : List Field}
    (h : ∀ f ∈ fs, (LayoutTask.extent f.type).Done env depth) :
    (LayoutTask.slots record fs).Done env depth := by
  induction fs with
  | nil => exact fun c => ⟨_, _, _, .done, rfl⟩
  | cons f fs ih =>
    rw [List.forall_mem_cons] at h
    intro c
    obtain ⟨n, r, c', hreturns, hlookup⟩ := h.1 c
    cases r with
    | error failure => exact ⟨_, _, _, .stopped hreturns, Record.lookupSlots_stopped hlookup⟩
    | ok e =>
      obtain ⟨m, rest, c'', hrest, hrestLookup⟩ := ih h.2 c'
      exact ⟨_, _, _, .field hreturns hrest, Record.lookupSlots_field hlookup hrestLookup⟩

theorem TypeEnv.layout_done_succ {tag : RecordTag}
    (h : ∀ inner, env.records.Holds tag inner → (LayoutTask.layout inner).Done env depth) :
    (LayoutTask.layout tag).Done env (depth + 1) := by
  intro c
  cases hfind : c.entry? tag with
  | some l => exact ⟨_, _, _, .kept hfind, lookupLayoutWithin_kept hfind⟩
  | none =>
    have hslots : (LayoutTask.slots (env.records.find tag).tag.name
        (env.records.find tag).fields).Done env depth :=
      Record.slots_done _ fun f hf => f.type.extent_done fun inner hheld => h inner ⟨f, hf, hheld⟩
    obtain ⟨n, r, c', hreturns, hlookup⟩ := hslots c
    exact ⟨_, _, _, .computed hfind hreturns, lookupLayoutWithin_computed hfind hlookup⟩

/-- Where no record holds itself, every layout returns within any bound above the number of
records. -/
theorem TypeEnv.layout_done (hacyclic : env.records.Acyclic) (hdepth : env.records.length < depth)
    (tag : RecordTag) : (LayoutTask.layout tag).Done env depth := by
  refine hacyclic.descend_from (motive := fun depth tag => (LayoutTask.layout tag).Done env depth)
    (fun depth tag ih => layout_done_succ ih) List.nodup_nil (List.nil_subset _) ?_ hdepth
  intro outer houter
  cases houter

/-- Where no record holds itself, the layout of every record and the extent of every type are found
after finitely many calls, whatever layouts were kept before. No bound on the records inside each
other shows as long as it is above the number of records. -/
theorem layouts_terminate (env : TypeEnv) (hacyclic : env.records.Acyclic) (kept : LayoutCache) :
    (∀ tag, ∃ calls answer after, (LayoutTask.layout tag).Returns env kept calls answer after ∧
      ∀ depth, env.records.length < depth →
        env.lookupLayoutWithin depth tag kept = some (answer, after)) ∧
    ∀ t, ∃ calls answer after, (LayoutTask.extent t).Returns env kept calls answer after ∧
      ∀ depth, env.records.length < depth →
        t.lookupExtent (env.lookupLayoutWithin depth) kept = some (answer, after) := by
  refine ⟨fun tag => ?_, fun t => ?_⟩
  · exact LayoutTask.exists_returns
      (fun depth hdepth => TypeEnv.layout_done hacyclic hdepth tag) kept
  · exact LayoutTask.exists_returns
      (fun depth hdepth => t.extent_done fun tag _ => TypeEnv.layout_done hacyclic hdepth tag) kept

/-- Nodes that point to their ring, and a ring of nodes that points to itself. -/
def ringOfNodes : RecordTable :=
  let char : CType := .scalar ⟨.char, 8, true⟩
  [⟨⟨"node", false⟩, [⟨"ring", .pointer (.record ⟨"ring", false⟩), 0⟩, ⟨"mark", char, 0⟩], none⟩,
    ⟨⟨"ring", false⟩,
      [⟨"nodes", .array (.alias "node_t" (.record ⟨"node", false⟩)) (some 3) false, 0⟩,
        ⟨"next", .pointer (.record ⟨"ring", false⟩), 0⟩], some ⟨64, 8⟩⟩]

/-- The layout of the ring, with a layout for its nodes that no computation gave. -/
theorem ring_layout_terminates :
    let env := TypeEnv.ofMarkers "" "" ringOfNodes
    let odd : RecordLayout :=
      { name := "node", isUnion := false, fields := [], size := 5, align := 1 }
    ringOfNodes.Acyclic ∧ ∃ calls l after,
      (LayoutTask.layout ⟨"ring", false⟩).Returns env [(⟨"node", false⟩, odd)] calls (.ok l) after ∧
      env.lookupLayout ⟨"ring", false⟩ [(⟨"node", false⟩, odd)] = some (.ok l, after) ∧
      l.fields.map (·.size) = [15, 8] ∧ l.size = 64 := by
  intro env odd
  have hacyclic : ringOfNodes.Acyclic := by
    refine RecordTable.acyclic_of_rank (fun name => if name = "ring" then 1 else 0) ?_
    decide
  obtain ⟨calls, answer, after, hreturns, hlookup⟩ :=
    (layouts_terminate env hacyclic [(⟨"node", false⟩, odd)]).1 ⟨"ring", false⟩
  have hfound := hlookup 3 (by decide)
  obtain ⟨l, after', hl, hsizes, hsize⟩ : ∃ l after',
      env.lookupLayoutWithin 3 ⟨"ring", false⟩ [(⟨"node", false⟩, odd)] = some (.ok l, after') ∧
        l.fields.map (·.size) = [15, 8] ∧ l.size = 64 :=
    ⟨_, _, by with_unfolding_all rfl, by decide +kernel, by decide +kernel⟩
  obtain ⟨rfl, rfl⟩ := Prod.mk.inj (Option.some.inj (hfound.symm.trans hl))
  exact ⟨hacyclic, calls, l, after, hreturns, hfound, hsizes, hsize⟩

end DartLowering
