import DartLowering.Emit.Lookup
import DartLowering.Proofs.Containment
import DartLowering.Proofs.SubExpr

/-!
Questions over kept layouts. As long as every kept layout is the one that would be computed anew, a
question has one answer, whatever was kept before it: `Lookup.Answers` says so, and that what is
kept afterwards is computed as well. The answers of `lookupLayout`, `lookupSize` and
`lookupConstant` are those of `layoutOf`, `sizeOf` and `constant?`, which keep nothing.
-/
namespace DartLowering

open Layout

/-- No record holds itself, and the layouts in the table are the computed ones. -/
structure TypeEnv.Settled (env : TypeEnv) : Prop where
  acyclic : env.records.Acyclic
  keeps : env.KeepsComputed

/-- A layout comes from those of the records that are held, also where it was kept. -/
theorem TypeEnv.Settled.layoutOf_eq {env : TypeEnv} (h : env.Settled) (tag : RecordTag) :
    env.layoutOf tag =
      (Record.slots env.layoutOf (env.records.find tag).tag.name (env.records.find tag).fields >>=
        (env.records.find tag).layout) := by
  have hfresh : env.fresh.records.Acyclic := h.acyclic
  calc
    env.layoutOf tag = env.fresh.layoutOf tag := h.keeps.layoutOf h.acyclic tag
    _ = (Record.slots env.fresh.layoutOf (env.records.find tag).tag.name
          (env.records.find tag).fields >>= (env.records.find tag).layout) :=
      TypeEnv.layoutOf_eq hfresh rfl
    _ = _ := by
      refine congrArg (· >>= _) (Record.slots_congr _ fun f hf inner hheld => ?_)
      exact (h.keeps.layoutOf h.acyclic inner).symm

/-- Every kept layout is the one that the table gives. -/
def LayoutCache.Computed (env : TypeEnv) (layouts : LayoutCache) : Prop :=
  ∀ k ∈ layouts, env.layoutOf k.1 = .ok k.2

theorem LayoutCache.computed_nil (env : TypeEnv) : Computed env [] := by
  intro k hk
  cases hk

/-- The question is never broken off, its outcome is `r` whatever was kept, and only computed
layouts are kept by it. -/
def Lookup.Answers {α : Type} (env : TypeEnv) (m : Lookup α) (r : Result α) : Prop :=
  ∀ layouts : LayoutCache, layouts.Computed env →
    ∃ layouts' : LayoutCache, m layouts = some (r, layouts') ∧ layouts'.Computed env

namespace Lookup.Answers

variable {α β : Type} {env : TypeEnv} {m : Lookup α} {k : α → Lookup β} {r : Result α}
  {f : α → Result β}

theorem ofResult (r : Result α) : Answers env (Run.ofResult r) r :=
  fun layouts hlayouts => ⟨layouts, rfl, hlayouts⟩

theorem pure (a : α) : Answers env (Pure.pure a) (.ok a) := ofResult (.ok a)

theorem fail (failure : Failure) : Answers env (Run.fail failure : Lookup α) (.error failure) :=
  ofResult (.error failure)

theorem bind (h : Answers env m r) (hk : ∀ a, r = .ok a → Answers env (k a) (f a)) :
    Answers env (m >>= k) (r >>= f) := by
  intro layouts hlayouts
  obtain ⟨layouts', hm, hlayouts'⟩ := h layouts hlayouts
  cases r with
  | ok a =>
    obtain ⟨layouts'', hrest, hlayouts''⟩ := hk a rfl layouts' hlayouts'
    exact ⟨layouts'', (Run.bind_of_ok hm).trans hrest, hlayouts''⟩
  | error failure => exact ⟨layouts', Run.bind_of_error hm, hlayouts'⟩

theorem ok_bind {a : α} {s : Result β} (h : Answers env m (.ok a)) (hk : Answers env (k a) s) :
    Answers env (m >>= k) s :=
  bind (f := fun _ => s) h fun _ ha => Except.ok.inj ha ▸ hk

/-- Going on with the outcome of a question, also where it fails. -/
theorem attempt_bind {k : Result α → Lookup β} {s : Result β} (h : Answers env m r)
    (hk : Answers env (k r) s) : Answers env (m.attempt >>= k) s := by
  have hattempt : Answers env m.attempt (.ok r) := by
    intro layouts hlayouts
    obtain ⟨layouts', hm, hlayouts'⟩ := h layouts hlayouts
    exact ⟨layouts', Run.attempt_of hm, hlayouts'⟩
  exact hattempt.ok_bind hk

/-- A computed layout may be kept. -/
theorem keep {tag : RecordTag} {l : RecordLayout} (h : env.layoutOf tag = .ok l) :
    Answers env (Lookup.keep tag l) (.ok ()) := by
  intro layouts hlayouts
  refine ⟨(tag, l) :: layouts, rfl, ?_⟩
  intro k hk
  rcases List.mem_cons.mp hk with rfl | hk
  · exact h
  · exact hlayouts k hk

/-- A layout that is kept is the answer, and one that is not has to be found. -/
theorem kept {tag : RecordTag} {k : Option RecordLayout → Lookup RecordLayout}
    (hkept : ∀ l, k (some l) = Pure.pure l) (hnone : Answers env (k none) (env.layoutOf tag)) :
    Answers env (Lookup.kept? tag >>= k) (env.layoutOf tag) := by
  intro layouts hlayouts
  have hask : Lookup.kept? tag layouts =
      some (.ok ((layouts.find? fun k => k.1 = tag).map (·.2)), layouts) := rfl
  rw [Run.bind_of_ok hask]
  cases hfind : layouts.find? fun k => k.1 = tag with
  | none => exact hnone layouts hlayouts
  | some entry =>
    have htag : entry.1 = tag := by simpa using List.find?_some hfind
    have hentry := hlayouts entry (List.mem_of_find?_eq_some hfind)
    rw [htag] at hentry
    refine ⟨layouts, ?_, hlayouts⟩
    rw [Option.map_some, hkept, hentry]
    rfl

end Lookup.Answers

section Layouts

open Lookup (Answers)

variable {env : TypeEnv} {ask : RecordTag → Lookup RecordLayout}

/-- The extent of a type asks for the record that it holds. -/
theorem CType.lookupExtent_answers : ∀ t : CType,
    (∀ tag, t.held? = some tag → Answers env (ask tag) (env.layoutOf tag)) →
    Answers env (t.lookupExtent ask) (t.extent env.layoutOf)
  | .scalar s, _ => by
    rw [CType.lookupExtent, CType.extent]
    split
    · exact .fail _
    · exact .pure _
  | .pointer _, _ | .functionPointer _ _ _, _ | .object _, _ => .pure _
  | .void, _ | .function _ _ _, _ => .fail _
  | .record tag, h => (h tag rfl).bind fun l _ => .pure _
  | .alias _ t, h => t.lookupExtent_answers h
  | .array elem length isVariable, h => by
    rw [CType.lookupExtent, CType.extent]
    split
    · exact .fail _
    · refine (elem.lookupExtent_answers h).bind fun e _ => ?_
      cases length with
      | none => exact .pure _
      | some n =>
        dsimp only
        cases arrayLayout elem.text e.size e.align n with
        | ok l => exact .pure _
        | error fault => exact .fail _

theorem Field.lookupSlot_answers (record : String) {f : Field}
    (h : ∀ tag, f.type.held? = some tag → Answers env (ask tag) (env.layoutOf tag)) :
    Answers env (f.lookupSlot ask record) (f.slot env.layoutOf record) := by
  refine (f.type.lookupExtent_answers h).attempt_bind ?_
  unfold Field.slot
  cases f.type.extent env.layoutOf with
  | ok e => exact .pure _
  | error failure => exact .fail _

theorem Record.lookupSlots_answers (record : String) {fs : List Field}
    (h : ∀ f ∈ fs, ∀ tag, f.type.held? = some tag → Answers env (ask tag) (env.layoutOf tag)) :
    Answers env (Record.lookupSlots ask record fs) (Record.slots env.layoutOf record fs) := by
  induction fs with
  | nil => exact .pure _
  | cons f fs ih =>
    rw [List.forall_mem_cons] at h
    refine (Field.lookupSlot_answers record h.1).bind fun s _ => ?_
    exact (ih h.2).bind fun ss _ => .pure _

namespace TypeEnv.Settled

variable (h : env.Settled)

include h

/-- A layout is found within the bound, and kept once it is found. -/
theorem lookupLayout (tag : RecordTag) : Answers env (env.lookupLayout tag) (env.layoutOf tag) := by
  refine h.acyclic.descend (motive := fun depth tag =>
    Answers env (env.lookupLayoutWithin depth tag) (env.layoutOf tag)) (fun depth tag ih => ?_) tag
  rw [lookupLayoutWithin]
  refine .kept (fun l => rfl) ?_
  have hslots := Record.lookupSlots_answers (env.records.find tag).tag.name
    fun f hf inner hheld => ih inner ⟨f, hf, hheld⟩
  have hlayout := h.layoutOf_eq tag
  -- The layout is kept only where there is one, and then it is the one that the table gives.
  have hkeep : ∀ r : Result RecordLayout, r = env.layoutOf tag →
      Answers env (Run.ofResult r >>= fun l => Lookup.keep tag l >>= fun _ => Pure.pure l) r := by
    intro r hr
    nth_rewrite 2 [← Result.bind_ok r]
    refine (Answers.ofResult r).bind fun l hl => ?_
    exact (Answers.keep (hr ▸ hl)).bind fun _ _ => .pure l
  rw [hlayout]
  refine hslots.bind fun slots hok => hkeep _ ?_
  rw [hlayout, hok]
  rfl

theorem lookupExtent (t : CType) : Answers env (t.lookupExtent env.lookupLayout) (env.extent t) :=
  t.lookupExtent_answers fun tag _ => h.lookupLayout tag

theorem lookupSize : ∀ t : CType, Answers env (env.lookupSize t) (env.sizeOf t)
  | .scalar s => by
    rw [TypeEnv.lookupSize, TypeEnv.sizeOf]
    cases s.kind.bytes? with
    | some n => exact .pure _
    | none => exact .fail _
  | .pointer _ | .functionPointer _ _ _ | .object _ | .void => .pure _
  | .function _ _ _ => .fail _
  | .record tag => (h.lookupLayout tag).bind fun l _ => .pure _
  | .alias _ t => lookupSize t
  | .array elem length isVariable => by
    cases length with
    | none =>
      rw [TypeEnv.lookupSize, TypeEnv.sizeOf]
      split
      · exact .fail _
      · exact .fail _
    | some n =>
      rw [TypeEnv.lookupSize, TypeEnv.sizeOf]
      split
      · exact .fail _
      · exact (lookupSize elem).bind fun size _ => .pure _

end TypeEnv.Settled

end Layouts

section Constants

open Lookup (Answers)

variable {env : TypeEnv} {compute : Lookup (Option Int64)} {v : Option Int64}

theorem ExprInfo.lookupValue_answers (info : ExprInfo) (h : Answers env compute (.ok v)) :
    Answers env (info.lookupValue compute) (.ok (info.value fun _ => v)) := by
  unfold lookupValue value
  cases info.type with
  | none => exact .pure _
  | some t =>
    dsimp only
    split
    · exact .pure _
    · cases info.constant with
      | some c => exact .pure _
      | none => exact h.ok_bind (.pure _)

/-- Quotients are asked for only where the divisor is not zero. -/
theorem BinaryOp.apply_answers (unsigned : Bool) (l r : Int64) (op : BinaryOp) :
    Answers env (op.apply unsigned l r) (.ok (op.evaluate unsigned l r)) := by
  have hdivided : ∀ f : Int64 → Int64 → Int64, r ≠ 0 →
      Answers env (divided f l r) (.ok (f l r)) := by
    intro f hr
    rw [divided, if_neg hr]
    exact .pure _
  cases op with
  | div | rem =>
    rw [apply, evaluate]
    by_cases hr : r = 0
    · rw [if_pos hr, if_pos hr]
      exact .pure _
    · rw [if_neg hr, if_neg hr]
      refine (hdivided _ hr).ok_bind ?_
      split
      · exact .pure _
      · exact .pure _
  | _ => exact .pure _

/-- An operator that changes its operand has no value. -/
theorem BinaryOp.evaluate_of_isEffect {op : BinaryOp} (h : op.isEffect = true) (unsigned : Bool)
    (l r : Int64) : op.evaluate unsigned l r = none := by
  cases op <;> first | rfl | cases h

theorem foldBinary_of_isEffect {op : BinaryOp} (h : op.isEffect = true) (unsigned : Bool)
    (l r : Option Int64) : foldBinary op unsigned l (fun _ => r) = none := by
  unfold foldBinary
  cases l with
  | none => rfl
  | some l =>
    cases r with
    | none => cases op <;> first | rfl | cases h
    | some r =>
      have hvalue := BinaryOp.evaluate_of_isEffect h unsigned l r
      cases op <;> first | exact hvalue | cases h

/-- A missing operand has no value, so its type is never asked for. -/
theorem foldOperands_answers {op : BinaryOp} {lhs : Expr} {left right : Lookup (Option Int64)}
    {l r : Option Int64} (hleft : Answers env left (.ok l)) (hright : Answers env right (.ok r))
    (habsent : lhs = .absent → l = none) :
    Answers env (foldOperands op lhs left right)
      (.ok (foldBinary op (!lhs.isSigned) l fun _ => r)) := by
  unfold foldOperands
  split
  · rename_i heffect
    rw [foldBinary_of_isEffect heffect]
    exact .pure _
  · refine hleft.ok_bind ?_
    cases l with
    | none => exact .pure _
    | some l =>
      have hpresent : Answers env lhs.present (.ok lhs) := by
        cases lhs with
        | absent => cases habsent rfl
        | _ => exact .pure _
      cases op with
      | logicalAnd =>
        dsimp only [foldBinary]
        by_cases hl : l = 0
        · rw [if_pos ⟨rfl, hl⟩, if_pos hl]
          exact .pure _
        · have hor : ¬ (BinaryOp.logicalAnd = .logicalOr ∧ l ≠ 0) := by simp
          rw [if_neg fun hand => hl hand.2, if_neg hor, if_neg hl]
          refine hright.ok_bind ?_
          cases r with
          | none | some => exact .pure _
      | logicalOr =>
        dsimp only [foldBinary]
        have hand : ¬ (BinaryOp.logicalOr = .logicalAnd ∧ l = 0) := by simp
        by_cases hl : l ≠ 0
        · rw [if_neg hand, if_pos ⟨rfl, hl⟩, if_pos hl]
          exact .pure _
        · rw [if_neg hand, if_neg fun hor => hl hor.2, if_neg hl]
          refine hright.ok_bind ?_
          cases r with
          | none | some => exact .pure _
      | _ =>
        refine hright.ok_bind ?_
        cases r with
        | none => exact .pure _
        | some r => exact hpresent.ok_bind (BinaryOp.apply_answers _ l r _)

theorem TypeEnv.Settled.lookupConstant (h : env.Settled) (e : Expr) :
    Answers env (env.lookupConstant e) (.ok (env.constant? e)) := by
  induction e using Expr.childInduction with
  | step e ih =>
    have hcompute : Answers env (e.info.lookupValue (pure none))
        (.ok (e.info.value fun _ => none)) :=
      e.info.lookupValue_answers (.pure none)
    cases e with
    | int info value => exact info.lookupValue_answers (.pure _)
    | sizeOf info arg =>
      exact info.lookupValue_answers ((h.lookupExtent arg).attempt_bind (.pure _))
    | cast info kind operand isExplicit =>
      have hoperand := ih operand (by simp [Expr.children])
      refine info.lookupValue_answers ?_
      cases kind with
      | integralCast | noOp => exact hoperand
      | integralToBoolean => exact hoperand.ok_bind (.pure _)
      | _ => exact .pure _
    | unary info op operand =>
      have hoperand := ih operand (by simp [Expr.children])
      refine info.lookupValue_answers (hoperand.ok_bind ?_)
      cases env.constant? operand with
      | none | some => exact .pure _
    | binary info op lhs rhs =>
      have hleft := ih lhs (by simp [Expr.children])
      have hright := ih rhs (by simp [Expr.children])
      refine info.lookupValue_answers (foldOperands_answers hleft hright fun habsent => ?_)
      rw [habsent]
      rfl
    | conditional info cond then_ else_ =>
      have hcond := ih cond (by simp [Expr.children])
      have hthen := ih then_ (by simp [Expr.children])
      have helse := ih else_ (by simp [Expr.children])
      refine info.lookupValue_answers (hcond.ok_bind ?_)
      cases env.constant? cond with
      | none => exact .pure _
      | some c =>
        dsimp only
        split
        · exact hthen
        · exact helse
    | _ => exact hcompute

end Constants

end DartLowering
