import DartLowering.Proofs.Throughout
import DartLowering.Proofs.Writings

/-!
Writing an expression piece by piece gives the text of its code. For complete expressions over a
settled table, `Emit.expr` fails as `Lower.expr` does and otherwise adds the text of the code, from
any writer and whatever layouts were kept; it is never broken off.
-/
namespace DartLowering.Emit

open Writing
open Lower (Scope Access asReceiver asCondition asCopy isBare onClass viewText join_singleton
  join_cons_cons)

variable {env : TypeEnv} {scope : Scope}

section Leaves

theorem constantOf_prints (info : ExprInfo) (v : Int64) :
    Prints env (constantOf info v) (Lower.constantCode info v) Code.text := by
  intro w
  unfold constantOf Lower.constantCode
  cases info.type.bind CType.scalar? with
  | none => exact .fail _
  | some s =>
    refine .find_bind (.ofResult _) fun wrapper _ => .print ?_
    simp [onClass, Code.text, Code.texts, join_singleton, String.append_assoc]

theorem double_prints (info : ExprInfo) (x : Float) :
    Prints env (double info x) (.ok (Lower.floatCode info x)) Code.text := by
  apply Prints.print
  simp [Lower.floatCode, onClass, Code.text, Code.texts, join_singleton, String.append_assoc]

theorem string_prints (bytes : List UInt8) :
    Prints env (string bytes) (.ok (Lower.stringCode bytes)) Code.text := by
  apply Prints.print
  simp [← String.toList_inj, Lower.stringCode, onClass, Code.text, Code.texts, join_singleton]

end Leaves

section Uses

variable (h : env.Settled) {e : Expr} {m : Writing Unit} {r : Result Code}

include h

theorem constant_finds (e : Expr) : Finds env (constant env e) (.ok (env.constant? e)) :=
  .ask (h.lookupConstant e)

theorem bare_finds (e : Expr) : Finds env (bare env e) (.ok (isBare env e)) := by
  unfold bare isBare
  cases e.stripTransparent with
  | ref | conditional | listNext => exact .pure _
  | _ => exact (constant_finds h e).ok_bind (.pure _)

theorem receiver_prints (hm : Prints env m r Code.text) :
    Prints env (receiver env e m) r fun c => (asReceiver env e c).text := by
  intro w
  refine .found_bind (bare_finds h e) ?_
  by_cases hbare : isBare env e = true
  · have hcode : ∀ c, asReceiver env e c = c := fun c => if_pos hbare
    rw [if_pos hbare]
    simpa only [hcode] using hm w
  · have hcode : ∀ c, asReceiver env e c = .paren c := fun c => if_neg hbare
    rw [if_neg hbare]
    refine .print_bind ((hm _).followed fun c _ => .print ?_)
    simp [hcode, Code.text, String.append_assoc]

theorem condition_prints (he : e ≠ .absent) (hm : Prints env m r Code.text) :
    Prints env (condition env e m) r fun c => (asCondition env e c).text := by
  intro w
  refine (receiver_prints h hm w).followed fun c _ => ?_
  refine .found_bind (.present he) (.print ?_)
  unfold asCondition
  dsimp only
  split
  · simp [Code.text, Code.texts, Lower.join_nil, String.append_assoc]
  · simp [Code.text, Code.texts, Lower.join_nil, String.append_assoc]

theorem copied_prints (he : e ≠ .absent) (hm : Prints env m r Code.text) :
    Prints env (copied env e m) r fun c => (asCopy env e c).text := by
  intro w
  refine .found_bind (.present he) ?_
  by_cases hvalue : Lower.isValue env e.type = true
  · have hcode : ∀ c, asCopy env e c = .invoke (asReceiver env e c) "copy" [] :=
      fun c => if_pos hvalue
    rw [if_pos hvalue]
    refine (receiver_prints h hm w).followed fun c _ => .print ?_
    simp [hcode, Code.text, Code.texts, Lower.join_nil, String.append_assoc]
  · have hcode : ∀ c, asCopy env e c = c := fun c => if_neg hvalue
    rw [if_neg hvalue]
    simpa only [hcode] using hm w

theorem invoke_prints (hm : Prints env m r Code.text) {arg : Writing Unit} {s : Result Code}
    (harg : Prints env arg s Code.text) (method : String) :
    Prints env (invoke env e m method arg)
      (do
        let c ← r
        let a ← s
        .ok (.invoke (asReceiver env e c) method [a])) Code.text := by
  intro w
  refine (receiver_prints h hm w).bind fun c _ => .print_bind ?_
  refine (harg _).bind fun a _ => .print ?_
  simp [Code.text, Code.texts, join_singleton, String.append_assoc]

end Uses

section Nodes

variable (h : env.Settled) {info : ExprInfo} {peel : Bool} {r : Result Code} {m : Writing Unit}
  {operand : Expr}

theorem compound_prints {lhs : Expr} {method : String} {left right : Writing Unit} {l : Result Code}
    (hleft : Prints env left l Code.text) (hright : Prints env right r Code.text) :
    Prints env (compound scope lhs method left right)
      (match Lower.targetName? scope lhs with
        | some target => do
            let value ← r
            .ok (.invoke target "set" [.invoke target method [value]])
        | none => do
            let target ← l
            let value ← r
            let temporary := Code.name Code.temporary
            .ok (.bind target (.invoke temporary "set" [.invoke temporary method [value]])))
      Code.text := by
  intro w
  unfold compound
  cases Lower.targetName? scope lhs with
  | some target =>
    refine .print_bind ((hright _).bind fun value _ => .print ?_)
    simp [Code.text, Code.texts, join_singleton, String.append_assoc]
  | none =>
    refine .print_bind ((hleft _).bind fun target _ => ?_)
    refine .print_bind ((hright _).bind fun value _ => .print ?_)
    simp [Code.text, Code.texts, join_singleton, String.append_assoc]

include h

theorem orConstant_prints {e : Expr} {node : Unit → Result Code}
    (hnode : Prints env m (node ()) Code.text) :
    Prints env (orConstant env e m) (Lower.orConstant env e node) Code.text := by
  refine Prints.locate _ fun w => .found_bind (constant_finds h e) ?_
  cases env.constant? e with
  | some v => exact constantOf_prints e.info v w
  | none => exact hnode w

theorem binary_prints {op : BinaryOp} {lhs rhs : Expr}
    (hlhs : Prints env (expr env scope false lhs) (Lower.expr env scope false lhs) Code.text)
    (hrhs : Prints env (expr env scope false rhs) (Lower.expr env scope false rhs) Code.text) :
    Prints env (expr env scope peel (.binary info op lhs rhs))
      (Lower.expr env scope peel (.binary info op lhs rhs)) Code.text := by
  rw [expr, Lower.expr.eq_def]
  apply orConstant_prints h
  unfold binary
  cases op with
  | comma =>
    intro w
    refine .print_bind ((hlhs _).bind fun first _ => .print_bind ?_)
    refine (hrhs _).bind fun second _ => .print ?_
    simp [Code.text, String.append_assoc]
  | logicalAnd | logicalOr =>
    intro w
    refine (receiver_prints h hlhs w).bind fun left _ => .print_bind ?_
    refine (hrhs _).bind fun right _ => .print ?_
    simp only [Writer.print_print]
    apply Writer.print_congr
    simp [Code.text, Code.texts, join_singleton]
  | memberOfObject | memberOfPointer | unrecognised => exact .fail _
  | mulAssign | divAssign | remAssign | addAssign | subAssign | shlAssign | shrAssign | andAssign
  | xorAssign | orAssign => exact compound_prints hlhs hrhs
  | _ => exact invoke_prints h hlhs hrhs _

theorem unary_prints {op : UnaryOp}
    (hoperand : Prints env (expr env scope false operand)
    (Lower.expr env scope false operand) Code.text) :
    Prints env (expr env scope peel (.unary info op operand))
      (Lower.expr env scope peel (.unary info op operand)) Code.text := by
  have hmethod : ∀ method, Prints env
      (receiver env operand (expr env scope false operand) >>= fun _ =>
        print ("." ++ method ++ "()"))
      (Lower.expr env scope false operand >>= fun code =>
        .ok (.invoke (asReceiver env operand code) method [])) Code.text := by
    intro method w
    refine (receiver_prints h hoperand w).bind fun code _ => .print ?_
    simp [Code.text, Code.texts, Lower.join_nil, String.append_assoc]
  rw [expr, Lower.expr.eq_def]
  apply orConstant_prints h
  unfold unary
  cases op with
  | plus => exact hoperand
  | real | imag | unrecognised => exact .fail _
  | addressOf =>
    dsimp only
    cases Lower.functionName? operand with
    | some name =>
      apply Prints.print
      simp [Code.text, Code.texts, join_singleton, String.append_assoc]
    | none => exact hmethod _
  | _ => exact hmethod _

omit h in
theorem storageKind_ne_empty : ∀ {t : CType} {stem : String}, env.storageKind t = .ok stem →
    stem ≠ ""
  | .scalar s, stem, hstem => by
    obtain ⟨_, -, hok⟩ := Result.bind_eq_ok.mp hstem
    cases hok
    unfold Scalar.stem
    split
    · split <;> decide
    · split <;> simp
  | .pointer _, stem, hstem => by
    rw [TypeEnv.storageKind] at hstem
    cases hstem
    split <;> decide
  | .functionPointer _ _ _, stem, hstem | .object _, stem, hstem => by
    cases hstem
    decide
  | .array _ _ _, stem, hstem | .record _, stem, hstem => by
    rw [TypeEnv.storageKind] at hstem
    split at hstem
    · cases hstem
    · cases hstem
      decide
  | .alias _ t, stem, hstem => by
    rw [TypeEnv.storageKind] at hstem
    split at hstem
    · cases hstem
    · exact storageKind_ne_empty hstem

omit h in
theorem capitalised_finds {stem : String} (hstem : stem ≠ "") :
    Finds env (capitalised stem) (.ok (Lower.capitalised stem)) := by
  unfold capitalised Lower.capitalised
  cases hchars : stem.toList with
  | nil => exact absurd (String.toList_eq_nil_iff.mp hchars) hstem
  | cons c cs => exact (Finds.require rfl).ok_bind (.pure _)

theorem pointerView_finds (info : ExprInfo) (kind : CastKind) :
    Finds env (pointerView env info kind) ((Lower.pointerView env info kind).map viewText) := by
  have hsized : ∀ t : CType, Finds env
      (ask (env.lookupSize t) >>= fun size =>
        pure (".asCompositePointer(" ++ Text.decimal size ++ ")"))
      ((env.sizeOf t >>= fun size => .ok (some ("asCompositePointer", [Code.int size]))).map
        viewText) := by
    intro t
    refine (Finds.ask (h.lookupSize t)).bind_map fun size _ => ?_
    have htext : ".asCompositePointer(" ++ Text.decimal size ++ ")" =
        viewText (some ("asCompositePointer", [Code.int size])) := by
      simp [viewText, Lower.calling, Code.texts, Code.text, join_singleton]
    exact htext ▸ .pure _
  have hstemmed : ∀ t : CType, Finds env
      (do
        let stem ← Run.ofResult (env.storageKind t)
        let stem ← capitalised stem
        pure (".as" ++ stem ++ "Pointer()"))
      ((env.storageKind t >>= fun stem =>
        .ok (some ("as" ++ Lower.capitalised stem ++ "Pointer", []))).map viewText) := by
    intro t
    refine (Finds.ofResult _).bind_map fun stem hstem => ?_
    refine (capitalised_finds (storageKind_ne_empty hstem)).ok_bind ?_
    have htext : ".as" ++ Lower.capitalised stem ++ "Pointer()" =
        viewText (some ("as" ++ Lower.capitalised stem ++ "Pointer", [])) := by
      simp [← String.toList_inj, viewText, Lower.calling, Code.texts, Lower.join_nil]
    exact htext ▸ .pure _
  unfold pointerView Lower.pointerView
  cases htype : info.type with
  | none => exact .fail _
  | some t =>
    have hrefused : ∀ {f : Failure}, Finds env
        (if (some t).any env.isPassThrough then pure "" else .fail f)
        ((if (some t).any env.isPassThrough then Except.ok none else Except.error f).map
          viewText) := by
      intro f
      split
      · exact .pure _
      · exact .fail _
    dsimp only
    cases t.unalias with
    | object | functionPointer => exact .pure _
    | pointer pointee =>
      dsimp only
      cases pointee.unalias with
      | void | function => exact .pure _
      | array | record => exact hsized _
      | _ => exact hstemmed _
    | _ => exact hrefused

theorem size_finds (t? : Option CType) :
    Finds env (size env t?) (TypeEnv.onType env.sizeOf t?) := by
  cases t? with
  | none => exact .fail _
  | some t => exact .ask (h.lookupSize t)

theorem toUnion_prints (hpresent : operand ≠ .absent) (hm : Prints env m r Code.text) :
    Prints env (toUnion env info operand m)
      (Lower.unionSize env info operand >>= fun size => r >>= fun code =>
        .ok (.invoke (onClass Wrapper.composite "local" [.int size]) "set" [code])) Code.text := by
  intro w
  unfold toUnion Lower.unionSize
  cases info.type.bind CType.record? with
  | none => exact .fail _
  | some tag =>
    obtain ⟨name, isUnion⟩ := tag
    cases isUnion with
    | false => exact .fail _
    | true =>
      dsimp only
      rw [bind_assoc]
      refine .find_bind (size_finds h info.type) fun target _ => ?_
      refine .found_bind (.present hpresent) ?_
      rw [bind_assoc]
      refine .find_bind (size_finds h operand.type) fun source _ => ?_
      split
      · exact .fail _
      · refine .print_bind ((hm _).bind fun code _ => .print ?_)
        simp [onClass, Code.text, Code.texts, join_singleton, String.append_assoc]

/-- The plan of a conversion and its use are written in one go. -/
theorem cast_prints {kind : CastKind} (hpresent : operand ≠ .absent)
    (hm : Prints env m r Code.text) : Prints env (cast env info kind operand m)
      (Lower.castPlan env info kind operand >>= fun plan =>
        match plan with
        | .literal bytes view => .ok (Lower.viewed view (Lower.stringCode bytes))
        | plan => r >>= fun code => .ok (plan.code env operand code)) Code.text := by
  intro w
  cases kind with
  | lvalueToRvalue | noOp | toVoid => exact (hm w).last fun code _ => rfl
  | functionToPointerDecay =>
    refine .print_bind ((hm _).bind fun code _ => .print ?_)
    simp [Lower.CastPlan.code, Code.text, Code.texts, join_singleton, String.append_assoc]
  | integralToBoolean | floatingToBoolean | pointerToBoolean =>
    rw [Lower.castPlan, bind_assoc]
    refine .find_bind (.ofResult _) fun wrapper _ => .print_bind ?_
    refine (condition_prints h hpresent hm _).bind fun code _ => .print ?_
    have hone : Text.decimal 1 = "1" := by decide
    have hzero : Text.decimal 0 = "0" := by decide
    simp only [Writer.print_print]
    apply Writer.print_congr
    simp [Lower.CastPlan.code, onClass, Code.text, Code.texts, join_singleton, hone, hzero]
  | integralCast | integralToFloating | floatingToIntegral | floatingCast | pointerToIntegral =>
    rw [Lower.castPlan, bind_assoc]
    refine .find_bind (.ofResult _) fun stem _ => ?_
    refine (receiver_prints h hm w).bind fun code _ => .print ?_
    simp only [Writer.print_print]
    apply Writer.print_congr
    simp [Lower.CastPlan.code, Lower.viewed, Code.text, Code.texts, Lower.join_nil]
  | integralToPointer | nullToPointer =>
    rw [Lower.castPlan, bind_assoc]
    refine .find_map_bind (pointerView_finds h info _) fun view _ => ?_
    refine (receiver_prints h hm w).bind fun code _ => .print ?_
    simp [Lower.CastPlan.code, Lower.viewed_text, Code.text, Code.texts, Lower.join_nil,
      String.append_assoc]
  | arrayToPointerDecay =>
    rw [Lower.castPlan, bind_assoc]
    refine .find_map_bind (pointerView_finds h info _) fun view _ => ?_
    cases Lower.literalBytes? operand with
    | some bytes =>
      refine (string_prints bytes w).ok_bind (.print ?_)
      rw [Lower.viewed_text, Writer.print_print]
    | none =>
      refine (receiver_prints h hm w).bind fun code _ => .print ?_
      simp [Lower.CastPlan.code, Lower.viewed_text, Code.text, Code.texts, Lower.join_nil,
        String.append_assoc]
  | bitCast =>
    rw [Lower.castPlan, bind_assoc]
    refine .find_map_bind (pointerView_finds h info _) fun view _ => ?_
    cases view with
    | none => exact (hm w).last fun code _ => rfl
    | some view =>
      have hview : viewText (some view) ≠ "" := by simp [viewText, Lower.calling]
      rw [if_neg hview]
      refine (receiver_prints h hm w).bind fun code _ => .print ?_
      simp [Lower.CastPlan.code, Lower.viewed_text]
  | toUnion =>
    rw [Lower.castPlan, bind_assoc]
    exact toUnion_prints h hpresent hm w
  | unrecognised name => exact .fail _

omit h

/-- The type whose member is read. -/
def accessedType (position : Position) (base : Expr) (arrow : Bool) : Result (Option CType) :=
  if arrow then
    match base.type.bind CType.pointee? with
    | some t => .ok (some t)
    | none => .error (.violationAt position (.arrowOnNonPointer (typeText base.type)))
  else .ok base.type

theorem resolveMember_eq_bind (position : Position) (base : Expr) (arrow : Bool) (field : String) :
    Lower.resolveMember env position base arrow field =
      (accessedType position base arrow >>= fun t? =>
        Lower.recordMember env position t? field) := by
  rw [Lower.resolveMember_eq, accessedType]
  split
  · cases base.type.bind CType.pointee? <;> rfl
  · rfl

theorem memberType_finds {base : Expr} (hbase : base ≠ .absent) (position : Position)
    (arrow : Bool) :
    Finds env (memberType position base arrow) (accessedType position base arrow) := by
  refine (Finds.present hbase).ok_bind ?_
  unfold accessedType
  split
  · cases base.type.bind CType.pointee? with
    | none => exact .fail _
    | some t => exact .pure _
  · exact .pure _

include h

theorem access_finds (position : Position) (t? : Option CType) (field : String) :
    Finds env (access env position t? field) (Lower.recordMember env position t? field) := by
  unfold access Lower.recordMember
  cases t?.bind CType.record? with
  | none => exact .fail _
  | some tag =>
    dsimp only
    cases (env.records.find tag).field? field with
    | none => exact .fail _
    | some f =>
      refine (Finds.ask (h.lookupLayout tag)).bind fun layout _ => ?_
      cases layout.offset? field with
      | none => exact .fail _
      | some offset => exact (Finds.ofResult _).bind fun kind _ => .pure _

theorem member_prints {base : Expr} {arrow : Bool} {field : String} (hpresent : base ≠ .absent)
    (hbase : Prints env (expr env scope false base) (Lower.expr env scope false base) Code.text) :
    Prints env (expr env scope peel (.member info base arrow field))
      (Lower.expr env scope peel (.member info base arrow field)) Code.text := by
  refine orConstant_prints h fun w => ?_
  unfold member
  rw [resolveMember_eq_bind, bind_assoc]
  refine .find_bind (memberType_finds hpresent info.position arrow) fun t? _ => ?_
  refine .find_bind (access_finds h info.position t? field) fun access _ => ?_
  refine (receiver_prints h hbase w).bind fun code _ => .print_bind ?_
  unfold Lower.accessCode
  by_cases hkind : access.kind = "composite"
  · rw [if_pos hkind, if_pos hkind]
    refine .find_bind (.ask (h.lookupSize access.type)) fun size _ => .print ?_
    simp only [Writer.print_print]
    apply Writer.print_congr
    cases arrow <;> simp [Code.text, Code.texts, Lower.join_nil, join_singleton, join_cons_cons]
  · rw [if_neg hkind, if_neg hkind]
    refine .print ?_
    simp only [Writer.print_print]
    apply Writer.print_congr
    cases arrow <;> simp [Code.text, Code.texts, Lower.join_nil, join_singleton]

end Nodes

section Calls

variable {args : List Expr} {variadic : Bool}

theorem copies_eq_map (args : List Expr) :
    copies env scope args = args.map fun e => copied env e (expr env scope false e) := by
  induction args with
  | nil => rfl
  | cons e es ih => rw [copies, ih, List.map_cons]

theorem lower_copies_append (env : TypeEnv) (scope : Scope) (as bs : List Expr) :
    Lower.copies env scope (as ++ bs) =
      (do
        let codes ← Lower.copies env scope as
        let more ← Lower.copies env scope bs
        .ok (codes ++ more)) := by
  induction as with
  | nil =>
    rw [List.nil_append, Lower.copies]
    cases Lower.copies env scope bs <;> rfl
  | cons e es ih =>
    rw [List.cons_append, Lower.copies, ih, Lower.copies]
    simp only [bind_assoc, Result.ok_bind, List.cons_append]

/-- A call passes all its arguments, one by one or in a list. -/
theorem callShape_fixed {info : ExprInfo} {callee : Expr} {shape : Nat × Bool}
    (h : Lower.callShape info callee args variadic = .ok shape) :
    shape.1 ≤ args.length ∧ (shape.2 = false → shape.1 = args.length) := by
  unfold Lower.callShape at h
  dsimp only at h
  split at h
  · split at h
    · cases h
    · cases h
      exact ⟨Nat.le_refl _, fun _ => rfl⟩
  · split at h
    · cases h
    · rename_i hcount
      cases h
      simp only [Bool.or_eq_true, decide_eq_true_eq, Bool.and_eq_true, Bool.not_eq_true', not_or,
        Nat.not_lt] at hcount
      refine ⟨hcount.1, fun hv => ?_⟩
      by_contra hne
      exact hcount.2 ⟨hv, fun heq => hne heq.symm⟩

theorem texts_eq_map (cs : List Code) : Code.texts cs = cs.map Code.text := by
  induction cs with
  | nil => rfl
  | cons c cs ih => rw [Code.texts, ih, List.map_cons]

/-- Every expression is there and written as its code. -/
def Written (env : TypeEnv) (scope : Scope) (args : List Expr) : Prop :=
  ∀ e ∈ args, e ≠ .absent ∧ ∀ peel,
    Prints env (expr env scope peel e) (Lower.expr env scope peel e) Code.text

variable (h : env.Settled)

include h

theorem copies_print (hargs : Written env scope args) (i : Nat) :
    Prints env (separatedFrom i (copies env scope args)) (Lower.copies env scope args)
      fun codes => listed i (Code.texts codes) := by
  induction args generalizing i with
  | nil => exact fun w => .pure rfl
  | cons e es ih =>
    obtain ⟨⟨hpresent, hfirst⟩, hrest⟩ := List.forall_mem_cons.mp hargs
    intro w
    rw [copies, Lower.copies, separatedFrom, comma_eq]
    refine .print_bind ((copied_prints h hpresent (hfirst false) _).bind fun code _ => ?_)
    refine (ih hrest (i + 1) _).last fun codes _ => ?_
    simp [listed, Code.texts, String.append_assoc]

theorem arguments_print (hargs : Written env scope args) {fixed : Nat}
    (hfixed : fixed ≤ args.length) (hall : variadic = false → fixed = args.length) :
    Prints env (arguments (copies env scope args) fixed variadic) (Lower.copies env scope args)
      fun codes => Text.join ", " (Code.texts (Lower.packArguments fixed variadic codes)) := by
  have hitems : argumentsFrom (copies env scope args) 0 fixed =
      separatedFrom 0 (copies env scope (args.take fixed)) := by
    rw [argumentsFrom_eq (by rw [copies_eq_map, List.length_map]; omega), List.drop_zero,
      copies_eq_map, copies_eq_map, List.map_take]
  have hrest : Finds env (dropped (copies env scope args) fixed)
      (.ok (copies env scope (args.drop fixed))) := by
    rw [dropped, if_pos (by rw [copies_eq_map, List.length_map]; exact hfixed), copies_eq_map,
      copies_eq_map, List.map_drop]
    exact .pure _
  have hsplit := lower_copies_append env scope (args.take fixed) (args.drop fixed)
  rw [List.take_append_drop] at hsplit
  intro w
  rw [arguments, hitems, hsplit]
  refine (copies_print h (fun e he => hargs e (List.mem_of_mem_take he)) 0 w).bind
    fun codes hcodes => ?_
  have hlength : codes.length = fixed := by
    rw [Lower.copies_length hcodes, List.length_take, Nat.min_eq_left hfixed]
  have hpacked : ∀ more, Lower.packArguments fixed variadic (codes ++ more) =
      if variadic then codes ++ [.apply (.name Wrapper.varArgs) [.list more]] else codes := by
    intro more
    rw [Lower.packArguments, List.take_left' hlength, List.drop_left' hlength]
  cases variadic with
  | false =>
    have hnone : args.drop fixed = [] := List.drop_eq_nil_of_le (Nat.le_of_eq (hall rfl).symm)
    rw [hnone]
    refine .pure ?_
    dsimp only
    rw [hpacked, listed_zero]
    rfl
  | true =>
    rw [if_pos rfl, comma_eq]
    refine .print_bind (.print_bind (.found_bind hrest ?_))
    refine (copies_print h (fun e he => hargs e (List.mem_of_mem_drop he)) 0 _).bind
      fun more _ => .print ?_
    simp only [Writer.print_print]
    apply Writer.print_congr
    rw [hpacked, if_pos rfl, ← listed_zero]
    simp only [texts_eq_map, List.map_append, listed_append, List.length_map, hlength]
    simp [listed, listed_zero, texts_eq_map, Code.text, join_singleton]

theorem call_prints {info : ExprInfo} {callee : Expr} {peel : Bool} {builtin : Builtin}
    (hall : Written env scope (callee :: args)) :
    Prints env (expr env scope peel (.call info callee args variadic builtin))
      (Lower.expr env scope peel (.call info callee args variadic builtin)) Code.text := by
  obtain ⟨⟨hpresent, hcallee⟩, hargs⟩ := List.forall_mem_cons.mp hall
  rw [expr, Lower.expr.eq_def]
  apply orConstant_prints h
  intro w
  unfold call
  cases builtin with
  | listStart =>
    dsimp only
    split
    · exact .fail _
    · cases args with
      | nil => exact .fail _
      | cons list rest =>
        rw [if_neg (by simp), item_eq (m := expr env scope true list) rfl]
        refine .print_bind (((hargs list List.mem_cons_self).2 true _).bind fun code _ => .print ?_)
        simp [onClass, Code.text, Code.texts, join_singleton, join_cons_cons, String.append_assoc]
  | listCopy =>
    by_cases hcount : args.length = 2
    · obtain ⟨target, source, rfl⟩ := List.length_eq_two.mp hcount
      have htarget := (hargs target (by simp)).2 true
      have hsource := (hargs source (by simp)).2 true
      dsimp only
      rw [if_neg (by simp), item_eq (m := expr env scope true target) rfl,
        item_eq (m := expr env scope true source) rfl]
      refine .print_bind ((htarget _).bind fun t _ => .print_bind ?_)
      refine (hsource _).bind fun s _ => .print ?_
      simp [onClass, Code.text, Code.texts, join_singleton, join_cons_cons, String.append_assoc]
    · dsimp only
      rw [if_pos hcount]
      split
      · exact absurd rfl hcount
      · exact .fail _
  | listEnd => exact .print rfl
  | none =>
    have hshape : Finds env (callShape info callee args variadic)
        (Lower.callShape info callee args variadic) :=
          (Finds.present hpresent).ok_bind (.ofResult _)
    refine .find_bind hshape fun shape hok => ?_
    obtain ⟨hfixed, hrest⟩ := callShape_fixed hok
    have hwritten := arguments_print h hargs hfixed hrest
    cases callee.directCallee? with
    | some c =>
      refine .print_bind ((hwritten _).bind fun codes _ => .print ?_)
      simp [Code.text, String.append_assoc]
    | none =>
      refine .print_bind ((receiver_prints h (hcallee false) _).bind fun code _ => .print_bind ?_)
      refine (hwritten _).bind fun codes _ => .print ?_
      simp only [Writer.print_print]
      apply Writer.print_congr
      simp [Lower.indirectCall, onClass, Code.text, Code.texts, join_singleton, join_cons_cons]

end Calls

/-- A complete expression is written as its code. -/
theorem expr_prints (h : env.Settled) {e : Expr} (he : e.Complete) : ∀ peel,
    Prints env (expr env scope peel e) (Lower.expr env scope peel e) Code.text := by
  induction e using Expr.childInduction with
  | step e ih =>
    intro peel
    have hchild : ∀ x ∈ e.children, x ≠ .absent ∧ ∀ peel,
        Prints env (expr env scope peel x) (Lower.expr env scope peel x) Code.text :=
      fun x hx => ⟨(he.child hx).own, ih x hx (he.child hx)⟩
    cases e with
    | absent => exact absurd rfl he.own
    | int info value => exact orConstant_prints h (constantOf_prints info value)
    | float info value => exact orConstant_prints h (double_prints info value)
    | string info bytes => exact orConstant_prints h (string_prints bytes)
    | ref info name kind => exact orConstant_prints h (.print rfl)
    | binary info op lhs rhs =>
      exact binary_prints h ((hchild lhs (by simp [Expr.children])).2 false)
        ((hchild rhs (by simp [Expr.children])).2 false)
    | unary info op operand => exact unary_prints h ((hchild operand List.mem_cons_self).2 false)
    | call info callee args variadic builtin => exact call_prints h hchild
    | member info base arrow field =>
      obtain ⟨hpresent, hbase⟩ := hchild base List.mem_cons_self
      exact member_prints h hpresent (hbase false)
    | subscript info base index =>
      have hbase := (hchild base List.mem_cons_self).2 false
      have hindex := (hchild index (by simp [Expr.children])).2 false
      refine orConstant_prints h fun w => ?_
      refine (receiver_prints h hbase w).bind fun pointer _ => .print_bind ?_
      refine (hindex _).bind fun offset _ => .print ?_
      simp [Code.text, Code.texts, Lower.join_nil, join_singleton, String.append_assoc]
    | cast info kind operand isExplicit =>
      obtain ⟨hpresent, hoperand⟩ := hchild operand List.mem_cons_self
      rw [expr, Lower.expr.eq_def]
      dsimp only
      split
      · exact hoperand true
      · exact orConstant_prints h (cast_prints h hpresent (hoperand false))
    | sizeOf info arg =>
      refine orConstant_prints h fun w => ?_
      refine .find_bind (.ask (h.lookupSize arg)) fun size _ => .print ?_
      simp [onClass, Code.text, Code.texts, join_singleton, String.append_assoc]
    | listNext info list =>
      have hlist := (hchild list List.mem_cons_self).2 true
      refine orConstant_prints h fun w => ?_
      refine .find_bind (.ofResult _) fun type _ => .print_bind ?_
      refine (receiver_prints h hlist _).bind fun code _ => .print ?_
      simp [Code.text, Code.texts, Lower.join_nil, String.append_assoc]
    | conditional info cond then_ else_ =>
      obtain ⟨hpresent, hcond⟩ := hchild cond List.mem_cons_self
      have hthen := (hchild then_ (by simp [Expr.children])).2 false
      have helse := (hchild else_ (by simp [Expr.children])).2 false
      refine orConstant_prints h fun w => .print_bind ?_
      refine (condition_prints h hpresent (hcond false) _).bind fun test _ => .print_bind ?_
      refine (hthen _).bind fun yes _ => .print_bind ((helse _).bind fun no _ => .print ?_)
      simp [Code.text, String.append_assoc]
    | message info receiver selector args =>
      have hreceiver := (hchild receiver List.mem_cons_self).2 false
      have hargs := copies_print h (fun x hx => hchild x (List.mem_cons_of_mem _ hx)) 0
      refine orConstant_prints h fun w => ?_
      refine (receiver_prints h hreceiver w).bind fun target _ => .print_bind ?_
      refine (hargs _).bind fun codes _ => .print ?_
      simp [Code.text, listed_zero, String.append_assoc]
    | classMessage info className selector args =>
      have hargs := copies_print h hchild 0
      refine orConstant_prints h fun w => .print_bind (.print_bind ?_)
      refine (hargs _).bind fun codes _ => .print ?_
      simp [Code.text, listed_zero, String.append_assoc]

end DartLowering.Emit
