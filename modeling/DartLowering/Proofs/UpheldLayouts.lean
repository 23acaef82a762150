import DartLowering.Proofs.FieldOffsets
import DartLowering.Proofs.KeptLayouts
import DartLowering.Proofs.RunFailures

/-!
Questions over tables in which records may hold themselves. Such a question can be broken off, and
then it says nothing. One that has an outcome gives the answer of the table, whatever was kept
before it, and keeps only layouts of the table: `Run.Upholds` puts this in one statement, what the
state is like before and after, how the run may fail and what it may yield.
-/
namespace DartLowering

open Layout Result

/-- From a state with `I` the run comes to one with `I`, unless it is broken off. It fails with `P`
only and yields values with `Q` only. -/
def Run.Upholds {σ α : Type} (I : σ → Prop) (P : Failure → Prop) (Q : α → Prop)
    (m : Run σ α) : Prop :=
  ∀ s, I s → ∀ r s', m s = some (r, s') → I s' ∧ Result.FailsOnly P r ∧ Yields Q r

namespace Run.Upholds

variable {σ α β : Type} {I : σ → Prop} {P : Failure → Prop} {R Q : α → Prop} {S : β → Prop}
  {m : Run σ α} {k : α → Run σ β}

theorem ofResult {r : Result α} (hP : Result.FailsOnly P r) (hQ : Yields Q r) :
    Upholds I P Q (Run.ofResult r) := by
  intro s hs r' s' h
  cases h
  exact ⟨hs, hP, hQ⟩

theorem pure {a : α} (h : Q a) : Upholds I P Q (Pure.pure a) :=
  ofResult (failsOnly_ok a) (yields_ok h)

theorem fail {f : Failure} (h : P f) : Upholds I P Q (Run.fail f) :=
  ofResult (failsOnly_error.mpr h) (yields_error f)

theorem brokenOff : Upholds I P Q Run.brokenOff := by
  intro s _ r s' h
  cases h

theorem bind (hm : Upholds I P R m) (hk : ∀ a, R a → Upholds I P S (k a)) :
    Upholds I P S (m >>= k) := by
  intro s hs r s' h
  rcases bind_cases h with ⟨a, s₁, hfirst, hrest⟩ | ⟨f, hfirst, rfl⟩
  · obtain ⟨hs₁, -, hyields⟩ := hm s hs (.ok a) s₁ hfirst
    exact hk a (hyields a rfl) s₁ hs₁ r s' hrest
  · obtain ⟨hs', hfails, -⟩ := hm s hs (.error f) s' hfirst
    exact ⟨hs', failsOnly_error.mpr (hfails f rfl), yields_error f⟩

theorem imp (hm : Upholds I P R m) (h : ∀ a, R a → Q a) : Upholds I P Q m := by
  intro s hs r s' hrun
  obtain ⟨hs', hfails, hyields⟩ := hm s hs r s' hrun
  exact ⟨hs', hfails, fun a ha => h a (hyields a ha)⟩

/-- Going on with the outcome of a run, also where it fails. -/
theorem attempt_bind {k : Result α → Run σ β} (hm : Upholds I P R m)
    (hk : ∀ r, Result.FailsOnly P r → Yields R r → Upholds I P S (k r)) :
    Upholds I P S (m.attempt >>= k) := by
  have hattempt : Upholds I P (fun r => Result.FailsOnly P r ∧ Yields R r) m.attempt := by
    intro s hs r s' h
    obtain ⟨⟨outcome, s''⟩, hrun, hr⟩ := Option.map_eq_some_iff.mp h
    cases hr
    obtain ⟨hs', houtcome⟩ := hm s hs outcome s' hrun
    exact ⟨hs', failsOnly_ok _, yields_ok houtcome⟩
  exact hattempt.bind fun r hr => hk r hr.1 hr.2

theorem locate (hP : ∀ p f, P f → P (f.locate p)) (hm : Upholds I P Q m) (p : Position) :
    Upholds I P Q (m.locate p) := by
  intro s hs r s' h
  obtain ⟨⟨outcome, s''⟩, hrun, hr⟩ := Option.map_eq_some_iff.mp h
  cases hr
  obtain ⟨hs', hfails, hyields⟩ := hm s hs outcome s' hrun
  exact ⟨hs', hfails.locate (hP p), fun a ha => hyields a (locate_eq_ok.mp ha)⟩

end Run.Upholds

/-- Nothing is asked of the values. -/
abbrev Run.Keeps {σ α : Type} (I : σ → Prop) (P : Failure → Prop) (m : Run σ α) : Prop :=
  Run.Upholds I P (fun _ => True) m

namespace Run.Keeps

variable {σ α β : Type} {I : σ → Prop} {P : Failure → Prop} {m : Run σ α} {k : α → Run σ β}

theorem pure (a : α) : Keeps I P (Pure.pure a : Run σ α) := Upholds.pure trivial

theorem then_ (hm : Keeps I P m) (hk : ∀ a, Keeps I P (k a)) : Keeps I P (m >>= k) :=
  hm.bind fun a _ => hk a

theorem of {Q : α → Prop} (hm : Upholds I P Q m) : Keeps I P m := hm.imp fun _ _ => trivial

theorem ofResult {r : Result α} (h : Result.FailsOnly P r) : Keeps I P (Run.ofResult r : Run σ α) :=
  Upholds.ofResult h fun _ _ => trivial

end Run.Keeps

/-- `P` holds of what emission over the table may fail with, also of failures to look up a layout
where records hold themselves and of a run that was stopped. -/
structure AdmitsLookups (P : Failure → Prop) (env : TypeEnv) : Prop extends Admits P env where
  keeps : env.KeepsComputed
  wrapped : ∀ words f, P f → P (f.wrap words)
  plain : ∀ text, P (.plain text)

namespace Lookup

variable {α β : Type} {env : TypeEnv} {P : Failure → Prop} {Q : α → Prop} {S : β → Prop}

/-- The question keeps layouts of the table only. -/
abbrev Upholds (env : TypeEnv) (P : Failure → Prop) (Q : α → Prop) (m : Lookup α) : Prop :=
  Run.Upholds (LayoutCache.Computed env) P Q m

theorem upholds_keep {tag : RecordTag} {l : RecordLayout} (hl : env.layoutOf tag = .ok l) :
    Upholds env P (fun _ => True) (Lookup.keep tag l) := by
  intro layouts hlayouts r layouts' h
  cases h
  exact ⟨List.forall_mem_cons.mpr ⟨hl, hlayouts⟩, failsOnly_ok _, yields_ok trivial⟩

theorem upholds_kept? (tag : RecordTag) :
    Upholds env P (fun l? => ∀ l, l? = some l → env.layoutOf tag = .ok l) (Lookup.kept? tag) := by
  intro layouts hlayouts r layouts' h
  cases h
  refine ⟨hlayouts, failsOnly_ok _, yields_ok fun l hl => ?_⟩
  obtain ⟨entry, hentry, rfl⟩ := Option.map_eq_some_iff.mp hl
  have htag : entry.1 = tag := by simpa using List.find?_some hentry
  rw [← htag]
  exact hlayouts entry (List.mem_of_find?_eq_some hentry)

end Lookup

namespace AdmitsLookups

open Lookup (Upholds)

variable {P : Failure → Prop} {env : TypeEnv} (h : AdmitsLookups P env)

include h

section Layouts

variable {ask : RecordTag → Lookup RecordLayout}
  (hask : ∀ tag, Upholds env P (fun l => env.layoutOf tag = .ok l) (ask tag))

include hask

theorem lookupExtent_of_layouts : ∀ t : CType,
    Upholds env P (fun e => t.extent env.layoutOf = .ok e) (t.lookupExtent ask)
  | .scalar s => by
    rw [CType.lookupExtent, CType.extent]
    split
    · exact .fail (h.reported _ _ rfl)
    · exact .pure rfl
  | .pointer _ | .functionPointer _ _ _ | .object _ => .pure rfl
  | .void | .function _ _ _ => .fail (h.reported _ _ rfl)
  | .record tag => by
    refine (hask tag).bind fun l hl => .pure ?_
    rw [CType.extent, hl]
    rfl
  | .alias _ t => lookupExtent_of_layouts t
  | .array elem length isVariable => by
    rw [CType.lookupExtent, CType.extent]
    split
    · exact .fail (h.reported _ _ rfl)
    · refine (lookupExtent_of_layouts elem).bind fun e he => ?_
      rw [he]
      cases length with
      | none => exact .pure rfl
      | some n =>
        dsimp only
        cases harray : arrayLayout elem.text e.size e.align n with
        | ok l =>
          refine .pure ?_
          rw [ok_bind, harray]
        | error fault => exact .fail (h.reported _ _ rfl)

theorem lookupSlot (record : String) (f : Field) :
    Upholds env P (fun s => f.slot env.layoutOf record = .ok s) (f.lookupSlot ask record) := by
  refine (h.lookupExtent_of_layouts hask f.type).attempt_bind fun r hfails hyields => ?_
  cases r with
  | ok e =>
    refine .pure ?_
    rw [Field.slot, hyields e rfl]
  | error failure => exact .fail (h.wrapped _ _ (hfails failure rfl))

theorem lookupSlots (record : String) (fs : List Field) :
    Upholds env P (fun ss => Record.slots env.layoutOf record fs = .ok ss)
      (Record.lookupSlots ask record fs) := by
  induction fs with
  | nil => exact .pure rfl
  | cons f fs ih =>
    refine (h.lookupSlot hask record f).bind fun s hs => ih.bind fun ss hss => .pure ?_
    rw [Record.slots, hs, hss]
    rfl

end Layouts

/-- A layout that is found is the one of the table, at whatever depth and whatever was kept. -/
theorem lookupLayoutWithin (depth : Nat) (tag : RecordTag) :
    Upholds env P (fun l => env.layoutOf tag = .ok l) (env.lookupLayoutWithin depth tag) := by
  induction depth generalizing tag with
  | zero => exact .brokenOff
  | succ depth ih =>
    rw [TypeEnv.lookupLayoutWithin]
    refine (Lookup.upholds_kept? tag).bind fun l? hl? => ?_
    cases l? with
    | some l => exact .pure (hl? l rfl)
    | none =>
      dsimp only
      refine (h.lookupSlots ih _ _).bind fun slots hslots => ?_
      have hlayout : Upholds env P (fun l => (env.records.find tag).layout slots = .ok l)
          (Run.ofResult ((env.records.find tag).layout slots)) := by
        refine .ofResult (fun f hf => ?_) fun l hl => hl
        obtain ⟨-, s, -, fault, -, rfl⟩ := Record.layout_eq_error hf
        exact h.plain _
      refine hlayout.bind fun l hl => ?_
      have hfound := h.keeps.layoutOf_iff_slots.mpr ⟨slots, hslots, hl⟩
      exact (Lookup.upholds_keep hfound).bind fun _ _ => .pure hfound

theorem lookupLayout (tag : RecordTag) :
    Upholds env P (fun l => env.layoutOf tag = .ok l) (env.lookupLayout tag) :=
  h.lookupLayoutWithin _ tag

theorem lookupExtent (t : CType) :
    Upholds env P (fun e => env.extent t = .ok e) (t.lookupExtent env.lookupLayout) :=
  h.lookupExtent_of_layouts h.lookupLayout t

/-- A size that is found is the one of the table. -/
theorem lookupSize : ∀ t : CType,
    Upholds env P (fun n => env.sizeOf t = .ok n) (env.lookupSize t)
  | .scalar s => by
    rw [TypeEnv.lookupSize, TypeEnv.sizeOf]
    cases s.kind.bytes? with
    | some n => exact .pure rfl
    | none => exact .fail (h.reported _ _ rfl)
  | .pointer _ | .functionPointer _ _ _ | .object _ | .void => .pure rfl
  | .function _ _ _ => .fail (h.reported _ _ rfl)
  | .record tag => by
    refine (h.lookupLayout tag).bind fun l hl => .pure ?_
    rw [TypeEnv.sizeOf, hl]
    rfl
  | .alias _ t => lookupSize t
  | .array elem length isVariable => by
    cases length with
    | none =>
      rw [TypeEnv.lookupSize]
      split
      · exact .fail (h.reported _ _ rfl)
      · exact .fail (h.reported _ _ rfl)
    | some n =>
      rw [TypeEnv.lookupSize, TypeEnv.sizeOf]
      split
      · exact .fail (h.reported _ _ rfl)
      · refine (lookupSize elem).bind fun size hsize => .pure ?_
        rw [hsize]
        rfl

end AdmitsLookups

section Constants

variable {σ : Type} {I : σ → Prop} {P : Failure → Prop}

open Run (Keeps)

theorem Expr.present_keeps (e : Expr) : Keeps I P (e.present : Run σ Expr) := by
  cases e with
  | absent => exact .brokenOff
  | _ => exact .pure _

theorem ExprInfo.lookupValue_keeps (info : ExprInfo) {compute : Run σ (Option Int64)}
    (h : Keeps I P compute) : Keeps I P (info.lookupValue compute) := by
  unfold lookupValue
  split
  · exact .pure _
  · split
    · exact .pure _
    · split
      · exact .pure _
      · exact h.then_ fun v => .pure _

theorem BinaryOp.apply_keeps (unsigned : Bool) (l r : Int64) (op : BinaryOp) :
    Keeps I P (op.apply unsigned l r : Run σ (Option Int64)) := by
  have hdivided : ∀ f : Int64 → Int64 → Int64, Keeps I P (divided f l r : Run σ Int64) := by
    intro f
    unfold divided
    split
    · exact .brokenOff
    · exact .pure _
  cases op with
  | div | rem =>
    rw [apply]
    split
    · exact .pure _
    · exact (hdivided _).then_ fun q => .pure _
  | _ => exact .pure _

theorem foldOperands_keeps {op : BinaryOp} {lhs : Expr} {left right : Run σ (Option Int64)}
    (hleft : Keeps I P left) (hright : Keeps I P right) :
    Keeps I P (foldOperands op lhs left right) := by
  unfold foldOperands
  split
  · exact .pure _
  · refine hleft.then_ fun l? => ?_
    cases l? with
    | none => exact .pure _
    | some l =>
      dsimp only
      split
      · exact .pure _
      · split
        · exact .pure _
        · refine hright.then_ fun r? => ?_
          cases r? with
          | none => exact .pure _
          | some r =>
            dsimp only
            split
            · exact .pure _
            · exact lhs.present_keeps.then_ fun lhs => BinaryOp.apply_keeps _ l r op

theorem AdmitsLookups.lookupConstant {env : TypeEnv} (h : AdmitsLookups P env) (e : Expr) :
    Keeps (LayoutCache.Computed env) P (env.lookupConstant e) := by
  induction e using Expr.childInduction with
  | step e ih =>
    have hcompute : Keeps (LayoutCache.Computed env) P (e.info.lookupValue (pure none)) :=
      e.info.lookupValue_keeps (.pure none)
    cases e with
    | int info value => exact info.lookupValue_keeps (.pure _)
    | sizeOf info arg =>
      refine info.lookupValue_keeps ((h.lookupExtent arg).attempt_bind fun r _ _ => ?_)
      exact .pure trivial
    | cast info kind operand isExplicit =>
      have hoperand := ih operand (by simp [Expr.children])
      refine info.lookupValue_keeps ?_
      cases kind with
      | integralCast | noOp => exact hoperand
      | integralToBoolean => exact hoperand.then_ fun v => .pure _
      | _ => exact .pure _
    | unary info op operand =>
      have hoperand := ih operand (by simp [Expr.children])
      exact info.lookupValue_keeps (hoperand.then_ fun v => .pure _)
    | binary info op lhs rhs =>
      have hleft := ih lhs (by simp [Expr.children])
      have hright := ih rhs (by simp [Expr.children])
      exact info.lookupValue_keeps (foldOperands_keeps hleft hright)
    | conditional info cond then_ else_ =>
      have hcond := ih cond (by simp [Expr.children])
      have hthen := ih then_ (by simp [Expr.children])
      have helse := ih else_ (by simp [Expr.children])
      refine info.lookupValue_keeps (hcond.then_ fun c? => ?_)
      cases c? with
      | none => exact .pure _
      | some c =>
        dsimp only
        split
        · exact hthen
        · exact helse
    | _ => exact hcompute

end Constants

end DartLowering
