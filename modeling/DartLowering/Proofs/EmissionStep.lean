import DartLowering.Proofs.EmittedParts

/-!
One step of emission. Whatever the kind of a node, when it has code then the row of its parts makes
up the text of that code, and the row shows the children that are wanted, each in its place. What a
node does with its children is proved here once; properties of whole expressions follow by induction
along paths.
-/
namespace DartLowering.Lower

open DartLowering.Expr

section Absorbing

variable {e : Expr}

theorem absorbed_of_stripTransparent (h : e.stripTransparent.Absorbed) : e.Absorbed := by
  fun_induction stripTransparent e with
  | case1 info kind operand isExplicit hkind ih =>
    simp only [Bool.or_eq_true, decide_eq_true_eq] at hkind
    exact .cast info isExplicit (by tauto) (ih h)
  | case2 | case3 => exact h

theorem absorbed_of_targetName {scope : Scope} {target : Code}
    (h : targetName? scope e = some target) : e.Absorbed := by
  apply absorbed_of_stripTransparent
  unfold targetName? at h
  split at h
  · rename_i hstrip
    exact hstrip ▸ .ref _ _ _
  · cases h

theorem absorbed_of_literalBytes {bytes : List UInt8} (h : literalBytes? e = some bytes) :
    e.Absorbed := by
  apply absorbed_of_stripTransparent
  unfold literalBytes? at h
  split at h
  · rename_i hstrip
    exact hstrip ▸ .string _ _
  · cases h

theorem absorbed_of_calleeName {callee : ExprInfo × String × RefKind}
    (h : e.calleeName? = some callee) : e.Absorbed := by
  fun_induction calleeName? e with
  | case1 info kind operand isExplicit hkind ih =>
    simp only [Bool.or_eq_true, decide_eq_true_eq] at hkind
    exact .cast info isExplicit (by tauto) (ih h)
  | case2 | case4 => cases h
  | case3 info name kind => exact .ref info name kind

theorem absorbed_of_directCallee {callee : ExprInfo × String}
    (h : e.directCallee? = some callee) : e.Absorbed := by
  unfold directCallee? at h
  split at h
  · exact absorbed_of_calleeName ‹_›
  · cases h

theorem functionName_eq_some {name : String} (h : functionName? e = some name) :
    ∃ info kind, e = .ref info name kind := by
  unfold functionName? at h
  split at h
  · split at h
    · cases h
      exact ⟨_, _, rfl⟩
    · cases h
  · cases h

end Absorbing

section Emission

variable {env : TypeEnv} {scope : Scope} {info : ExprInfo} {code : Code} {wants : Nat → Bool}
  {e callee operand lhs rhs : Expr} {args : List Expr} {op : BinaryOp} {kind : CastKind}
  {variadic isExplicit peel : Bool} {method : String}

attribute [local simp] nodeParts planParts onClass calling Code.text Code.texts join_nil
  join_singleton join_cons_cons String.append_assoc

/-- What emission does at a node: the row of parts makes up the text and shows the children, and the
node writes something of its own unless it passes its operand on. -/
structure Emits (env : TypeEnv) (scope : Scope) (e : Expr) (ps : List Part) (text : String) :
    Prop where
  spells : Spells env scope e.children ps text
  shown : Shows e.wants 0 e.children (reached ps)
  writes : (∃ own, .own own ∈ ps) ∨ ps = [.visit 0 false] ∧ e.isEffect = false

/-- A node that writes a text of its own. -/
theorem emits_of {ps qs : List Part} {s text own : String} (hs : Spells env scope e.children ps s)
    (htext : text = s) (hqs : reached ps = qs) (hshown : Shows e.wants 0 e.children qs)
    (hown : .own own ∈ ps) : Emits env scope e ps text :=
  ⟨hs.of_eq htext, hqs ▸ hshown, .inl ⟨own, hown⟩⟩

theorem own_after {ps qs : List Part} {own : String} : .own own ∈ ps ++ .own own :: qs :=
  List.mem_append_right ps List.mem_cons_self

theorem shows_arguments (env : TypeEnv) (hwants : ∀ i, wants i = true) (i : Nat)
    (args : List Expr) : Shows wants i args ((argumentParts env i args).flatMap reached) := by
  induction args generalizing i with
  | nil => exact .nil i
  | cons x xs ih =>
    simp only [argumentParts, List.flatMap_cons, reached_copy, reached_visit, reached_nil]
    exact .visit false (hwants i) (ih (i + 1))

theorem shows_nothing {i : Nat} (hwants : ∀ j, i ≤ j → wants j = false) (xs : List Expr) :
    Shows wants i xs [] := by
  induction xs generalizing i with
  | nil => exact .nil i
  | cons x xs ih => exact .skip (hwants i (Nat.le_refl i)) (ih fun j hj => hwants j (by omega))

theorem emits_leaf (hchildren : e.children = []) (text : String) :
    Emits env scope e [.own text] text :=
  ⟨spells_own text, hchildren ▸ .nil 0, .inl ⟨_, List.mem_cons_self⟩⟩

theorem emits_invoking
    (h : (do
      let left ← expr env scope false lhs
      let right ← expr env scope false rhs
      .ok (.invoke (asReceiver env lhs left) method [right])) = (.ok code : Result Code)) :
    Emits env scope (.binary info op lhs rhs) (receiverParts env lhs (.visit 0 false) ++
      [.own (calling method), .visit 1 false, .own ")"]) code.text := by
  simp only [Result.bind_eq_ok, Except.ok.injEq] at h
  obtain ⟨left, hleft, right, hright, rfl⟩ := h
  have hlhs : Spells env scope [lhs, rhs] _ _ := (spells_visit (i := 0) rfl hleft).receiver lhs
  have hrhs : Spells env scope [lhs, rhs] _ _ := spells_visit (i := 1) rfl hright
  exact emits_of (hlhs.append ((spells_own _).cons (hrhs.cons (spells_own ")")))) (by simp)
    (by simp) (.visit false rfl (.visit false rfl (.nil 2))) own_after

theorem emits_compound
    (h : (match targetName? scope lhs with
      | some target => do
          let value ← expr env scope false rhs
          .ok (.invoke target "set" [.invoke target method [value]])
      | none => do
          let target ← expr env scope false lhs
          let value ← expr env scope false rhs
          let temporary := Code.name Code.temporary
          .ok (.bind target (.invoke temporary "set" [.invoke temporary method [value]]))) =
      (.ok code : Result Code)) :
    Emits env scope (.binary info op lhs rhs) (compoundParts scope method lhs) code.text := by
  unfold compoundParts
  cases htarget : targetName? scope lhs with
  | some target =>
    simp only [htarget, Result.bind_eq_ok, Except.ok.injEq] at h ⊢
    obtain ⟨value, hvalue, rfl⟩ := h
    have hrhs : Spells env scope [lhs, rhs] _ _ := spells_visit (i := 1) rfl hvalue
    exact emits_of ((spells_leaf _ _).cons ((spells_own _).cons ((spells_leaf _ _).cons
        ((spells_own _).cons (hrhs.cons (spells_own _)))))) (by simp) rfl
      (.leaf 1 target.text rfl (absorbed_of_targetName htarget) (.visit false rfl (.nil 2)))
      (List.mem_cons_of_mem _ List.mem_cons_self)
  | none =>
    simp only [htarget, Result.bind_eq_ok, Except.ok.injEq] at h ⊢
    obtain ⟨target, htarget, value, hvalue, rfl⟩ := h
    have hlhs : Spells env scope [lhs, rhs] _ _ := spells_visit (i := 0) rfl htarget
    have hrhs : Spells env scope [lhs, rhs] _ _ := spells_visit (i := 1) rfl hvalue
    exact emits_of
      ((spells_own _).cons (hlhs.cons ((spells_own _).cons (hrhs.cons (spells_own _)))))
      (by simp) rfl (.visit false rfl (.visit false rfl (.nil 2))) List.mem_cons_self

/-- Emission does so at a node that is no constant. -/
def Steps (env : TypeEnv) (scope : Scope) (peel : Bool) (e : Expr) : Prop :=
  ∀ code, env.constant? e = none → expr env scope peel e = .ok code →
    Emits env scope e (nodeParts env scope e) code.text

theorem emits_binary : Steps env scope peel (.binary info op lhs rhs) := by
  intro code hc h
  rw [expr.eq_def] at h
  replace h := (orConstant_eq_ok hc).mp h
  cases op with
  | comma =>
    simp only [Result.bind_eq_ok, Except.ok.injEq] at h
    obtain ⟨first, hfirst, second, hsecond, rfl⟩ := h
    have hlhs : Spells env scope [lhs, rhs] _ _ := spells_visit (i := 0) rfl hfirst
    have hrhs : Spells env scope [lhs, rhs] _ _ := spells_visit (i := 1) rfl hsecond
    exact emits_of
      ((spells_own _).cons (hlhs.cons ((spells_own _).cons (hrhs.cons (spells_own _)))))
      (by simp) rfl (.visit false rfl (.visit false rfl (.nil 2))) List.mem_cons_self
  | logicalAnd | logicalOr =>
    simp only [Result.bind_eq_ok, Except.ok.injEq] at h
    obtain ⟨left, hleft, right, hright, rfl⟩ := h
    have hlhs : Spells env scope [lhs, rhs] _ _ := (spells_visit (i := 0) rfl hleft).receiver lhs
    have hrhs : Spells env scope [lhs, rhs] _ _ := spells_visit (i := 1) rfl hright
    exact emits_of (hlhs.append ((spells_own _).cons (hrhs.cons (spells_own ")"))))
      (by simp [-String.reduceAppend]) (by simp [binaryParts])
      (.visit false rfl (.visit false rfl (.nil 2))) own_after
  | memberOfObject | memberOfPointer | unrecognised => cases h
  | mulAssign | divAssign | remAssign | addAssign | subAssign | shlAssign | shrAssign | andAssign
  | xorAssign | orAssign => exact emits_compound h
  | assign | mul | div | rem | add | sub | shl | shr | lt | gt | le | ge | eq | ne | bitAnd | bitXor
  | bitOr => exact emits_invoking h

theorem emits_unary {op : UnaryOp} : Steps env scope peel (.unary info op operand) := by
  intro code hc h
  have happly : ∀ method : String,
      (do
        let code ← expr env scope false operand
        .ok (.invoke (asReceiver env operand code) method [])) = (.ok code : Result Code) →
      Emits env scope (.unary info op operand)
        (receiverParts env operand (.visit 0 false) ++ [.own (calling method ++ ")")])
        code.text := by
    intro method h
    simp only [Result.bind_eq_ok, Except.ok.injEq] at h
    obtain ⟨code, hcode, rfl⟩ := h
    have hoperand : Spells env scope [operand] _ _ :=
      (spells_visit (i := 0) rfl hcode).receiver operand
    exact emits_of (hoperand.append (spells_own _)) (by simp) (by simp) (.visit false rfl (.nil 1))
      own_after
  rw [expr.eq_def] at h
  replace h := (orConstant_eq_ok hc).mp h
  cases op with
  | plus => exact ⟨spells_visit rfl h, .visit false rfl (.nil 1), .inr ⟨rfl, rfl⟩⟩
  | real | imag | unrecognised => cases h
  | addressOf =>
    unfold nodeParts unaryParts
    cases hname : functionName? operand with
    | some name =>
      obtain ⟨info, kind, rfl⟩ := functionName_eq_some hname
      simp only [hname, if_pos, Except.ok.injEq] at h ⊢
      subst h
      exact emits_of ((spells_own _).cons ((spells_leaf _ _).cons (spells_own _))) (by simp) rfl
        (.leaf 0 (identifier name) rfl (.ref info name kind) (.nil 1)) List.mem_cons_self
    | none =>
      simp only [hname, if_pos, unaryMethod?] at h ⊢
      exact happly _ h
  | preInc | preDec | postInc | postDec | dereference | minus | logicalNot | bitNot =>
    exact happly _ h

@[simp] theorem length_argumentParts (i : Nat) (args : List Expr) :
    (argumentParts env i args).length = args.length := by
  induction args generalizing i with
  | nil => rfl
  | cons x xs ih => simp [argumentParts, ih]

theorem callShape_all {shownVariadic : Bool} {fixed : Nat}
    (h : callShape info callee args variadic = .ok (fixed, shownVariadic))
    (hfixed : shownVariadic = false) : fixed = args.length := by
  unfold callShape at h
  dsimp only at h
  split at h
  · split at h
    · cases h
    · cases h
      rfl
  · split at h
    · cases h
    · rename_i hcount
      cases h
      simp only [hfixed, Bool.not_false, Bool.true_and, Bool.or_eq_true, decide_eq_true_eq,
        not_or, ne_eq, not_not] at hcount
      exact hcount.2.symm

theorem shows_packed (env : TypeEnv) (hwants : ∀ i, wants i = true) {shownVariadic : Bool}
    {fixed : Nat} (i : Nat) (h : callShape info callee args variadic = .ok (fixed, shownVariadic)) :
    Shows wants i args (reached (packParts fixed shownVariadic (argumentParts env i args))) := by
  rw [reached_pack fun hv => by rw [callShape_all h hv, length_argumentParts]]
  exact shows_arguments env hwants i args

theorem emits_call {builtin : Builtin} :
    Steps env scope peel (.call info callee args variadic builtin) := by
  intro code hc h
  rw [expr.eq_def] at h
  replace h := (orConstant_eq_ok hc).mp h
  rw [nodeParts]
  cases builtin with
  | listStart =>
    dsimp only at h
    split at h
    · cases h
    · cases args with
      | nil => cases h
      | cons list rest =>
        simp only [Result.bind_eq_ok, Except.ok.injEq] at h
        obtain ⟨code, hcode, rfl⟩ := h
        have hlist : Spells env scope (callee :: list :: rest) _ _ :=
          spells_visit (i := 1) rfl hcode
        have hrest : Shows (Expr.wants (.call info callee (list :: rest) variadic .listStart))
            2 rest [] := by
          refine shows_nothing (fun i hi => ?_) rest
          simp only [Expr.wants, beq_eq_false_iff_ne]
          omega
        exact emits_of ((spells_own _).cons (hlist.cons (spells_own _))) (by simp) rfl
          (.skip rfl (.visit true rfl hrest)) List.mem_cons_self
  | listCopy =>
    dsimp only at h
    split at h
    · rename_i target source
      simp only [Result.bind_eq_ok, Except.ok.injEq] at h
      obtain ⟨first, hfirst, second, hsecond, rfl⟩ := h
      have htarget : Spells env scope [callee, target, source] _ _ :=
        spells_visit (i := 1) rfl hfirst
      have hsource : Spells env scope [callee, target, source] _ _ :=
        spells_visit (i := 2) rfl hsecond
      exact emits_of ((spells_own _).cons (htarget.cons ((spells_own _).cons
          (hsource.cons (spells_own _))))) (by simp) rfl
        (.skip rfl (.visit true rfl (.visit true rfl (.nil 3)))) List.mem_cons_self
    · cases h
  | listEnd =>
    cases h
    exact ⟨spells_own _, shows_nothing (fun _ _ => rfl) _, .inl ⟨_, List.mem_cons_self⟩⟩
  | none =>
    simp only [Result.bind_eq_ok] at h
    obtain ⟨⟨fixed, shownVariadic⟩, hshape, h⟩ := h
    have hwants : ∀ i, Expr.wants (.call info callee args variadic .none) i = true := fun _ => rfl
    simp only [callParts, hshape]
    cases hdirect : callee.directCallee? with
    | some direct =>
      simp only [hdirect, Result.bind_eq_ok, Except.ok.injEq] at h ⊢
      obtain ⟨codes, hcodes, rfl⟩ := h
      have hargs := Spells.pack fixed shownVariadic
        (spells_arguments (i := 1) (rfl : (callee :: args).drop 1 = args) hcodes)
      exact emits_of ((spells_leaf _ _).cons ((spells_own _).cons (hargs.append (spells_own _))))
        (by simp) (by simp)
        (.leaf 0 (identifier direct.2) rfl (absorbed_of_directCallee hdirect)
          (shows_packed env hwants 1 hshape))
        (List.mem_cons_of_mem _ List.mem_cons_self)
    | none =>
      simp only [hdirect, Result.bind_eq_ok, Except.ok.injEq] at h ⊢
      obtain ⟨code, hcode, codes, hcodes, rfl⟩ := h
      have hcallee : Spells env scope (callee :: args) _ _ :=
        (spells_visit (i := 0) rfl hcode).receiver callee
      have hargs := Spells.pack fixed shownVariadic
        (spells_arguments (i := 1) (rfl : (callee :: args).drop 1 = args) hcodes)
      simp only [List.cons_append, List.append_assoc]
      exact emits_of ((spells_own _).cons (hcallee.append ((spells_own _).cons
          (hargs.append (spells_own _))))) (by simp [indirectCall, -String.reduceAppend]) (by simp)
        (.visit false rfl (shows_packed env hwants 1 hshape)) List.mem_cons_self

theorem emits_member {base : Expr} {arrow : Bool} {field : String} :
    Steps env scope peel (.member info base arrow field) := by
  intro code hc h
  rw [expr.eq_def] at h
  replace h := (orConstant_eq_ok hc).mp h
  simp only [Result.bind_eq_ok] at h
  obtain ⟨access, haccess, inner, hinner, hcode⟩ := h
  have hbase : Spells env scope [base] _ _ := (spells_visit (i := 0) rfl hinner).receiver base
  refine emits_of (hbase.append (spells_own _)) ?_ (by simp) (.visit false rfl (.nil 1)) own_after
  rw [accessCode_text hcode, accessText, haccess]
  cases arrow <;> simp

theorem emits_subscript {base index : Expr} :
    Steps env scope peel (.subscript info base index) := by
  intro code hc h
  rw [expr.eq_def] at h
  replace h := (orConstant_eq_ok hc).mp h
  simp only [Result.bind_eq_ok, Except.ok.injEq] at h
  obtain ⟨pointer, hpointer, offset, hoffset, rfl⟩ := h
  have hbase : Spells env scope [base, index] _ _ :=
    (spells_visit (i := 0) rfl hpointer).receiver base
  have hindex : Spells env scope [base, index] _ _ := spells_visit (i := 1) rfl hoffset
  exact emits_of (hbase.append ((spells_own _).cons (hindex.cons (spells_own _)))) (by simp)
    (by simp) (.visit false rfl (.visit false rfl (.nil 2))) own_after

theorem emits_conditional {cond then_ else_ : Expr} :
    Steps env scope peel (.conditional info cond then_ else_) := by
  intro code hc h
  rw [expr.eq_def] at h
  replace h := (orConstant_eq_ok hc).mp h
  simp only [Result.bind_eq_ok, Except.ok.injEq] at h
  obtain ⟨test, htest, yes, hyes, no, hno, rfl⟩ := h
  have hcond : Spells env scope [cond, then_, else_] _ _ :=
    (spells_visit (i := 0) rfl htest).condition cond
  have hthen : Spells env scope [cond, then_, else_] _ _ := spells_visit (i := 1) rfl hyes
  have helse : Spells env scope [cond, then_, else_] _ _ := spells_visit (i := 2) rfl hno
  exact emits_of ((spells_own _).cons (hcond.append ((spells_own _).cons (hthen.cons
      ((spells_own _).cons (helse.cons (spells_own _))))))) (by simp) (by simp)
    (.visit false rfl (.visit false rfl (.visit false rfl (.nil 3)))) List.mem_cons_self

theorem emits_listNext {list : Expr} : Steps env scope peel (.listNext info list) := by
  intro code hc h
  rw [expr.eq_def] at h
  replace h := (orConstant_eq_ok hc).mp h
  simp only [Result.bind_eq_ok, Except.ok.injEq] at h
  obtain ⟨type, htype, inner, hinner, rfl⟩ := h
  have hlist : Spells env scope [list] _ _ :=
    (spells_visit (i := 0) rfl hinner).receiver list.stripList
  exact emits_of ((spells_own _).cons (hlist.append (spells_own _)))
    (by simp [htype, Except.toOption]) (by simp) (.visit true rfl (.nil 1)) List.mem_cons_self

theorem emits_message {receiver : Expr} {selector : String} :
    Steps env scope peel (.message info receiver selector args) := by
  intro code hc h
  rw [expr.eq_def] at h
  replace h := (orConstant_eq_ok hc).mp h
  simp only [Result.bind_eq_ok, Except.ok.injEq] at h
  obtain ⟨target, htarget, codes, hcodes, rfl⟩ := h
  have hreceiver : Spells env scope (receiver :: args) _ _ :=
    (spells_visit (i := 0) rfl htarget).receiver receiver
  have hargs := Spells.comma
    (spells_arguments (i := 1) (rfl : (receiver :: args).drop 1 = args) hcodes)
  simp only [nodeParts, List.cons_append, List.append_assoc]
  exact emits_of (hreceiver.append ((spells_own _).cons (hargs.append (spells_own _))))
    (by simp) (by simp [reached_comma])
    (.visit false rfl (shows_arguments env (fun _ => rfl) 1 args)) own_after

theorem emits_classMessage {className selector : String} :
    Steps env scope peel (.classMessage info className selector args) := by
  intro code hc h
  rw [expr.eq_def] at h
  replace h := (orConstant_eq_ok hc).mp h
  simp only [Result.bind_eq_ok, Except.ok.injEq] at h
  obtain ⟨codes, hcodes, rfl⟩ := h
  have hargs := Spells.comma (spells_arguments (i := 0) (rfl : args.drop 0 = args) hcodes)
  exact emits_of ((spells_own _).cons (hargs.append (spells_own _))) (by simp)
    (by simp [reached_comma]) (shows_arguments env (fun _ => rfl) 0 args) List.mem_cons_self

theorem castPlan_literal {bytes : List UInt8} {view : Option (String × List Code)}
    (h : castPlan env info kind operand = .ok (.literal bytes view)) : operand.Absorbed := by
  unfold castPlan at h
  cases kind with
  | arrayToPointerDecay =>
    obtain ⟨_, _, h⟩ := Result.bind_eq_ok.mp h
    split at h
    · exact absorbed_of_literalBytes ‹_›
    · cases h
  | bitCast =>
    obtain ⟨_, _, h⟩ := Result.bind_eq_ok.mp h
    split at h <;> cases h
  | lvalueToRvalue | noOp | toVoid | functionToPointerDecay | unrecognised => cases h
  | _ =>
    obtain ⟨_, _, h⟩ := Result.bind_eq_ok.mp h
    cases h

/-- A conversion that is not a literal visits its operand once. -/
theorem emits_plan {plan : CastPlan} {inner : Code}
    (hplan : ∀ bytes view, plan ≠ .literal bytes view)
    (hinner : expr env scope false operand = .ok inner) :
    Emits env scope (.cast info kind operand isExplicit) (planParts env operand plan)
      (plan.code env operand inner).text := by
  have hoperand : Spells env scope [operand] _ _ := spells_visit (i := 0) rfl hinner
  have hone : Shows (Expr.wants (.cast info kind operand isExplicit)) 0 [operand]
      [.visit 0 false] := .visit false rfl (.nil 1)
  cases plan with
  | literal bytes view => exact absurd rfl (hplan bytes view)
  | keep => exact ⟨hoperand, hone, .inr ⟨rfl, rfl⟩⟩
  | functionPointer | union =>
    exact emits_of ((spells_own _).cons (hoperand.cons (spells_own _)))
      (by simp [CastPlan.code]) rfl
      hone List.mem_cons_self
  | toBoolean wrapper =>
    exact emits_of ((spells_own _).cons ((hoperand.condition operand).append (spells_own _)))
      (by simp [CastPlan.code]) (by simp) hone List.mem_cons_self
  | method | retype =>
    exact emits_of ((hoperand.receiver operand).append (spells_own _))
      (by simp [CastPlan.code, viewed_text]) (by simp) hone own_after

theorem emits_cast (hpeel : (peel && isPeeled (.cast info kind operand isExplicit)) = false) :
    Steps env scope peel (.cast info kind operand isExplicit) := by
  intro code hc h
  rw [expr, if_neg (by simpa [isPeeled] using hpeel), orConstant_eq_ok hc] at h
  obtain ⟨plan, hplan, h⟩ := Result.bind_eq_ok.mp h
  simp only [nodeParts, castParts, hplan]
  cases plan with
  | literal bytes view =>
    cases h
    exact emits_of ((spells_leaf _ _).cons (spells_own _)) (viewed_text view _) rfl
      (.leaf 0 _ rfl (castPlan_literal hplan) (.nil 1)) (List.mem_cons_of_mem _ List.mem_cons_self)
  | keep | functionPointer | toBoolean | method | retype | union =>
    obtain ⟨inner, hinner, hcode⟩ := Result.bind_eq_ok.mp h
    cases hcode
    refine emits_plan (fun bytes view hplan => ?_) hinner
    cases hplan

/-- One step of emission at a node that is no constant and not passed over. -/
theorem emits_node (hpeel : (peel && e.isPeeled) = false) : Steps env scope peel e := by
  intro code hc h
  cases e with
  | absent => cases h
  | int info value =>
    rw [expr, orConstant_eq_ok hc] at h
    have hown : Emits env scope (.int info value) _ _ := emits_leaf rfl code.text
    simpa only [nodeParts, resultText, h] using hown
  | float info value | string info value | ref info name kind =>
    rw [expr, orConstant_eq_ok hc] at h
    cases h
    exact emits_leaf rfl _
  | sizeOf info arg =>
    rw [expr, orConstant_eq_ok hc] at h
    obtain ⟨size, hsize, hcode⟩ := Result.bind_eq_ok.mp h
    cases hcode
    simp only [nodeParts, hsize]
    exact emits_leaf rfl _
  | binary info op lhs rhs => exact emits_binary code hc h
  | unary info op operand => exact emits_unary code hc h
  | call info callee args variadic builtin => exact emits_call code hc h
  | member info base arrow field => exact emits_member code hc h
  | subscript info base index => exact emits_subscript code hc h
  | cast info kind operand isExplicit => exact emits_cast hpeel code hc h
  | listNext info list => exact emits_listNext code hc h
  | conditional info cond then_ else_ => exact emits_conditional code hc h
  | message info receiver selector args => exact emits_message code hc h
  | classMessage info className selector args => exact emits_classMessage code hc h

/-- The emitted text is the row of parts. -/
theorem expr_spells (h : expr env scope peel e = .ok code) :
    Spells env scope e.children (parts env scope peel e) code.text := by
  unfold parts
  cases hpeel : peel && e.isPeeled with
  | true =>
    obtain ⟨info, kind, operand, isExplicit, rfl, hoperand⟩ := expr_peeled hpeel h
    exact spells_visit rfl hoperand
  | false =>
    cases hc : env.constant? e with
    | some v => simpa [resultText, expr_constant hpeel hc h] using spells_own code.text
    | none => exact (emits_node hpeel code hc h).spells

theorem parts_write (h : expr env scope peel e = .ok code) :
    (∃ own, .own own ∈ parts env scope peel e) ∨
      (∃ peel', .visit 0 peel' ∈ parts env scope peel e) ∧ e.isEffect = false := by
  unfold parts
  cases hpeel : peel && e.isPeeled with
  | true =>
    obtain ⟨info, kind, operand, isExplicit, rfl, -⟩ := expr_peeled hpeel h
    exact .inr ⟨⟨true, List.mem_singleton_self _⟩, rfl⟩
  | false =>
    cases hc : env.constant? e with
    | some v => exact .inl ⟨_, List.mem_singleton_self _⟩
    | none =>
      rcases (emits_node hpeel code hc h).writes with hown | ⟨hrow, hpure⟩
      · exact .inl hown
      · exact .inr ⟨⟨false, hrow ▸ List.mem_cons_self⟩, hpure⟩

/-- The row of a node that is no constant shows the children. -/
theorem parts_show (hc : env.constant? e = none) (h : expr env scope peel e = .ok code) :
    Shows e.wants 0 e.children (reached (parts env scope peel e)) := by
  unfold parts
  cases hpeel : peel && e.isPeeled with
  | true =>
    obtain ⟨info, kind, operand, isExplicit, rfl, -⟩ := expr_peeled hpeel h
    exact .visit true rfl (.nil 1)
  | false =>
    rw [hc]
    exact (emits_node hpeel code hc h).shown

theorem parts_find {x : Expr} {i : Nat} (hc : env.constant? e = none)
    (h : expr env scope peel e = .ok code) (hx : e.children[i]? = some x)
    (hwants : e.wants i = true) :
    (∃ peel' before after code', parts env scope peel e = before ++ .visit i peel' :: after ∧
        (∀ p ∈ before ++ after, p.child? ≠ some i) ∧ expr env scope peel' x = .ok code') ∨
      x.Absorbed ∧ ∃ text, .leaf (i :: x.bottom) text ∈ parts env scope peel e := by
  have hfind := (parts_show hc h).find hx (by simpa using hwants)
  rw [Nat.zero_add] at hfind
  rcases hfind with ⟨peel', before, after, hreached, hother⟩ | ⟨habsorbed, text, hmem⟩
  · obtain ⟨front, rest, hparts, rfl, hrest⟩ := List.filter_eq_append_iff.mp hreached
    obtain ⟨skipped, back, rfl, hskipped, -, rfl⟩ := List.filter_eq_cons_iff.mp hrest
    have hvisit : .visit i peel' ∈ parts env scope peel e := by simp [hparts]
    obtain ⟨y, code', hy, hcode'⟩ := (expr_spells h).2 i peel' hvisit
    obtain rfl : x = y := Option.some.inj (hx.symm.trans hy)
    refine .inl ⟨peel', front ++ skipped, back, code', by simp [hparts], fun p hp hchild => ?_,
      hcode'⟩
    simp only [List.append_assoc, List.mem_append] at hp
    rcases hp with hp | hp | hp
    · exact hother p (by simp [hp, hchild]) hchild
    · exact hskipped p hp (by simp [hchild])
    · exact hother p (by simp [hp, hchild]) hchild
  · exact .inr ⟨habsorbed, text, List.mem_of_mem_filter hmem⟩

end Emission

end DartLowering.Lower
