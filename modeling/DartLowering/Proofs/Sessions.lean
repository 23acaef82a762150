import DartLowering.Proofs.DecodedTrees
import DartLowering.Proofs.WrittenUnits

/-!
Questions about one unit that come one after another. Each of them finds the layouts that were kept
by those before it, and none of them can tell: its answer is the one that it gets alone.
-/
namespace DartLowering

open Layout

/-- What can be asked about a unit. A type can be missing. -/
inductive Question
  | layout (tag : RecordTag)
  | size (type : Option CType)
  | wrapper (type : Option CType)
  | storageKind (type : Option CType)
  | constant (e : Expr)
  | text (package : String) (cancelled : Bool)

inductive Reply
  | layout (layout : RecordLayout)
  | size (size : Int64)
  | wrapper (name : String)
  | storageKind (name : String)
  | constant (value : Option Int64)
  | text (text : String)

/-- Only computed layouts are kept in a table that begins without any. -/
theorem TypeEnv.rememberAll_settled {env : TypeEnv} (hnone : env.known = [])
    (hacyclic : env.records.Acyclic) : env.rememberAll.Settled := by
  have hkeeps : env.KeepsComputed := by
    intro tag l hknown
    rw [TypeEnv.known?, hnone] at hknown
    cases hknown
  have hrecords := records_of_fresh env.rememberAll_fresh
  exact ⟨hrecords ▸ hacyclic, (hkeeps.foldl_remember hacyclic env.records).1⟩

namespace Dump

/-- The table of an accepted dump keeps the layouts of all its records. -/
theorem ofText_env {path : String} {markers : Markers} {text : String} {loaded : Loaded}
    (h : ofText path markers text = .ok loaded) :
    ∃ env : TypeEnv, env.known = [] ∧ loaded.env = env.rememberAll := by
  unfold ofText ofJson resolve at h
  split at h
  · split at h
    · dsimp only at h
      split at h
      · cases h
      · obtain ⟨records, -, h⟩ := Result.bind_eq_ok.mp h
        obtain ⟨decls, -, h⟩ := Result.bind_eq_ok.mp h
        cases h
        exact ⟨_, rfl, rfl⟩
    · cases h
  · cases h

namespace Loaded

/-- A question over the layouts that are kept. -/
def ask (l : Loaded) : Question → Lookup Reply
  | .layout tag => do
      let layout ← l.env.lookupLayout tag
      pure (.layout layout)
  | .size (some t) => do
      let size ← l.env.lookupSize t
      pure (.size size)
  | .size none => .fail (.violation .missingType)
  | .wrapper t => do
      let name ← Run.ofResult (TypeEnv.onType l.env.mapType t)
      pure (.wrapper name)
  | .storageKind t => do
      let name ← Run.ofResult (TypeEnv.onType l.env.storageKind t)
      pure (.storageKind name)
  | .constant e => do
      let value ← l.env.lookupConstant e
      pure (.constant value)
  | .text package cancelled => do
      let text ← Emit.generate l.env package cancelled (some l.unit)
      pure (.text text)

/-- The answer from the table alone. -/
def answer (l : Loaded) : Question → Result Reply
  | .layout tag => do
      let layout ← l.env.layoutOf tag
      .ok (.layout layout)
  | .size t => do
      let size ← TypeEnv.onType l.env.sizeOf t
      .ok (.size size)
  | .wrapper t => do
      let name ← TypeEnv.onType l.env.mapType t
      .ok (.wrapper name)
  | .storageKind t => do
      let name ← TypeEnv.onType l.env.storageKind t
      .ok (.storageKind name)
  | .constant e => .ok (.constant (l.env.constant? e))
  | .text package cancelled => do
      let text ← Lower.generate l.env package cancelled (some l.unit)
      .ok (.text text)

/-- The replies to questions that come one after another. A question that fails does not end the
session. -/
def session (l : Loaded) : List Question → Lookup (List (Result Reply))
  | [] => pure []
  | q :: qs => do
      let reply ← (l.ask q).attempt
      let replies ← l.session qs
      pure (reply :: replies)

variable {l : Loaded} (hsettled : l.env.Settled) (hcomplete : l.unit.Complete)

include hsettled hcomplete

/-- The step of a session: whatever was kept, the reply is the answer from the table. -/
theorem ask_answers (q : Question) : Lookup.Answers l.env (l.ask q) (l.answer q) := by
  cases q with
  | layout tag => exact (hsettled.lookupLayout tag).bind fun layout _ => .pure _
  | size t =>
    cases t with
    | none => exact .fail _
    | some t => exact (hsettled.lookupSize t).bind fun size _ => .pure _
  | wrapper | storageKind => exact (Lookup.Answers.ofResult _).bind fun name _ => .pure _
  | constant e => exact (hsettled.lookupConstant e).ok_bind (.pure _)
  | text package cancelled =>
    exact (Emit.generate_answers hsettled hcomplete package cancelled).bind fun text _ => .pure _

theorem session_answers (qs : List Question) :
    Lookup.Answers l.env (l.session qs) (.ok (qs.map l.answer)) := by
  induction qs with
  | nil => exact .pure _
  | cons q qs ih => exact (ask_answers hsettled hcomplete q).attempt_bind (ih.ok_bind (.pure _))

end Loaded

/-- An accepted dump whose records do not hold themselves is ready for questions. -/
theorem accepted_ready {path : String} {markers : Markers} {text : String} {loaded : Loaded}
    (h : ofText path markers text = .ok loaded) (hacyclic : loaded.env.records.Acyclic) :
    loaded.env.Settled ∧ loaded.unit.Complete := by
  obtain ⟨env, hnone, henv⟩ := ofText_env h
  have hrecords : loaded.env.records = env.records := by
    rw [henv]
    exact TypeEnv.records_of_fresh env.rememberAll_fresh
  rw [hrecords] at hacyclic
  have hformed := (ofText_yields _ _ _ _ h).2
  exact ⟨henv ▸ TypeEnv.rememberAll_settled hnone hacyclic, hformed.complete⟩

/-- However many questions came before, and in whatever order, a question gets the reply that it
gets over a unit that was never asked anything, which is the answer from the table; and all that is
kept are the layouts that would be computed anew. -/
theorem kept_layouts_invisible {path : String} {markers : Markers} {text : String} {loaded : Loaded}
    (h : ofText path markers text = .ok loaded) (hacyclic : loaded.env.records.Acyclic)
    (qs : List Question) :
    ∃ replies layouts, loaded.session qs [] = some (.ok replies, layouts) ∧
      List.Forall₂ (fun q reply => reply = loaded.answer q ∧
        ∃ kept, loaded.ask q [] = some (reply, kept)) qs replies ∧
      ∀ k ∈ layouts, loaded.env.fresh.layoutOf k.1 = .ok k.2 := by
  obtain ⟨hsettled, hcomplete⟩ := accepted_ready h hacyclic
  have hempty := LayoutCache.computed_nil loaded.env
  obtain ⟨layouts, hsession, hcomputed⟩ := loaded.session_answers hsettled hcomplete qs [] hempty
  refine ⟨_, layouts, hsession, ?_, ?_⟩
  · rw [List.forall₂_map_right_iff, List.forall₂_same]
    intro q _
    obtain ⟨kept, hask, -⟩ := Loaded.ask_answers hsettled hcomplete q [] hempty
    exact ⟨rfl, kept, hask⟩
  · intro k hk
    exact (hsettled.keeps.layoutOf hacyclic k.1).symm.trans (hcomputed k hk)

/-- The file of the sample, before and after the sizes of its records were asked for. -/
theorem kept_layouts_invisible_sample : ∃ loaded replies layouts,
    ofText "in.json" {} sample = .ok loaded ∧
    loaded.session [.text "" false, .layout ⟨"pair", false⟩, .size (some (.record ⟨"node", false⟩)),
      .text "" false] [] = some (.ok replies, layouts) ∧
    (∃ kept, loaded.ask (.text "" false) [] = some (loaded.answer (.text "" false), kept)) ∧
    replies.getLast? = some (loaded.answer (.text "" false)) := by
  obtain ⟨loaded, hloaded, hacyclic⟩ := sample_accepted
  obtain ⟨replies, layouts, hsession, hreplies, -⟩ := kept_layouts_invisible hloaded hacyclic
    [.text "" false, .layout ⟨"pair", false⟩, .size (some (.record ⟨"node", false⟩)),
      .text "" false]
  refine ⟨loaded, replies, layouts, hloaded, hsession, ?_, ?_⟩
  · cases hreplies with
    | cons hfirst _ => exact hfirst.1 ▸ hfirst.2
  · rcases hreplies with _ | ⟨_, _ | ⟨_, _ | ⟨_, _ | ⟨hlast, _ | _⟩⟩⟩⟩
    exact congrArg some hlast.1

end Dump

end DartLowering
