import DartLowering.Emit.Stmt
import DartLowering.Proofs.EmissionFailures
import DartLowering.Proofs.SpelledUnits

/-!
Properties of everything that is written for expressions and statements. A `Law` is a property of
writings and of the values they yield, together with the reasons why questions and failures have it
and why it is kept where writings are put together; a `TextLaw` holds of texts as well, and a
`LineLaw` of ends of lines and of blocks. What is written is followed here once: a property holds of
all of it as soon as it is a law.
-/
namespace DartLowering

open Text Result

namespace Text

def AdmitsLines (p : Char → Bool) : Prop := ∀ c, c ≠ '\n' → p c = true

namespace AdmitsLines

variable {p : Char → Bool} (hp : AdmitsLines p) {s : String}

include hp

theorem words : AdmitsWords p := by
  intro c hc
  apply hp
  rintro rfl
  cases hc

theorem text (h : s.toList.all (fun c => c ≠ '\n') = true) : Over p s :=
  fun c hc => hp c (of_decide_eq_true (List.all_eq_true.mp h c hc))

/-- A text between two others, such as the brackets of a call. -/
theorem between {left right : String} (hleft : left.toList.all (fun c => c ≠ '\n') = true)
    (hs : Over p s) (hright : right.toList.all (fun c => c ≠ '\n') = true) :
    Over p (left ++ s ++ right) :=
  over_append.mpr ⟨over_append.mpr ⟨hp.text hleft, hs⟩, hp.text hright⟩

theorem decimal (v : Int64) : Over p (decimal v) := (decimal_word v).weaken hp.words

theorem decimalNat (n : Nat) : Over p (decimalNat n) := (decimalNat_word n).weaken hp.words

end AdmitsLines

end Text

namespace Writing

/-- A property of writings and of the values they yield, over a table and for failures with `P`. A
layout that is found may lack a field only if the report of that has `P`. -/
structure Law (env : TypeEnv) (P : Failure → Prop) where
  Holds : {α : Type} → (α → Prop) → Writing α → Prop
  admits : Admits P env
  result : ∀ {α : Type} {Q : α → Prop} {r : Result α}, Result.FailsOnly P r → Yields Q r →
    Holds Q (Run.ofResult r)
  brokenOff : ∀ {α : Type} {Q : α → Prop}, Holds Q (Run.brokenOff : Writing α)
  bind : ∀ {α β : Type} {R : α → Prop} {S : β → Prop} {m : Writing α} {k : α → Writing β},
    Holds R m → (∀ a, R a → Holds S (k a)) → Holds S (m >>= k)
  locate : ∀ {α : Type} {Q : α → Prop} {m : Writing α} (position : Position),
    Holds Q m → Holds Q (m.locate position)
  constant : ∀ e, Holds (fun _ => True) (ask (env.lookupConstant e))
  size : ∀ t, Holds (fun _ => True) (ask (env.lookupSize t))
  layout : ∀ tag, Holds (fun l => ∀ field f position,
    (env.records.find tag).field? field = some f → l.offset? field = none →
      P (.report (.violation (.unplacedField tag.name field)) position none))
    (ask (env.lookupLayout tag))

variable {env : TypeEnv} {P : Failure → Prop} {p : Char → Bool}

namespace Law

variable {L : Law env P} {α β : Type} {R Q : α → Prop} {S : β → Prop} {m : Writing α}
  {k : α → Writing β}

/-- Nothing is asked of the values. -/
abbrev Always (L : Law env P) (m : Writing α) : Prop := L.Holds (fun _ => True) m

theorem Holds.bind (hm : L.Holds R m) (hk : ∀ a, R a → L.Holds S (k a)) : L.Holds S (m >>= k) :=
  L.bind hm hk

theorem Holds.then_ (hm : L.Holds R m) (hk : ∀ a, L.Holds S (k a)) : L.Holds S (m >>= k) :=
  L.bind hm fun a _ => hk a

theorem Holds.locate (hm : L.Holds Q m) (position : Position) : L.Holds Q (m.locate position) :=
  L.locate position hm

variable (L)

theorem pure {a : α} (h : Q a) : L.Holds Q (Pure.pure a) := L.result (failsOnly_ok a) (yields_ok h)

theorem done (a : α) : L.Always (Pure.pure a : Writing α) := L.pure trivial

theorem fail {f : Failure} (h : P f) : L.Holds Q (Run.fail f) :=
  L.result (failsOnly_error.mpr h) (yields_error f)

theorem refuse {c : Cause} {position : Position} (hc : c.isOrdinary = true) :
    L.Holds Q (Run.fail (.report c position none)) :=
  L.fail (L.admits.reported c position hc)

theorem require {a? : Option α} (h : ∀ a, a? = some a → Q a) : L.Holds Q (Run.require a?) := by
  cases a? with
  | none => exact L.brokenOff
  | some a => exact L.pure (h a rfl)

/-- Going on with a value that does not depend on the state. -/
theorem answer {r : Result α} (hr : Result.FailsOnly P r) (hk : ∀ a, r = .ok a → L.Holds S (k a)) :
    L.Holds S (Run.ofResult r >>= k) :=
  (L.result hr fun _ ha => ha).bind hk

theorem present (e : Expr) : L.Always (e.present : Writing Expr) := by
  cases e with
  | absent => exact L.brokenOff
  | _ => exact L.done _

end Law

/-- A law of texts over `p`. -/
structure TextLaw (env : TypeEnv) (P : Failure → Prop) (p : Char → Bool) extends Law env P where
  lines : AdmitsLines p
  text : ∀ {s : String}, Over p s → Holds (fun _ => True) (print s)

namespace TextLaw

variable (L : TextLaw env P p)

theorem word {s : String} (h : s.toList.all (fun c => c ≠ '\n') = true) : L.Always (print s) :=
  L.text (L.lines.text h)

theorem comma (i : Nat) : L.Always (comma i) := by
  unfold Writing.comma
  split
  · exact L.word rfl
  · exact L.done ()

section Lists

variable {L} {ms : List (Writing Unit)} (hms : ∀ m ∈ ms, L.Always m)

include hms

theorem separatedFrom (i : Nat) : L.Always (separatedFrom i ms) := by
  induction ms generalizing i with
  | nil => exact L.done ()
  | cons m ms ih =>
    rw [List.forall_mem_cons] at hms
    exact (L.comma i).then_ fun _ => hms.1.then_ fun _ => ih hms.2 (i + 1)

theorem item (i : Nat) : L.Always (item ms i) :=
  (L.require fun _ hm => hms _ (List.mem_of_getElem? hm)).bind fun _ hm => hm

theorem argumentsFrom (i count : Nat) : L.Always (argumentsFrom ms i count) := by
  induction count generalizing i with
  | zero => exact L.done ()
  | succ count ih =>
    exact (L.comma i).then_ fun _ => (item hms i).then_ fun _ => ih (i + 1)

theorem dropped (count : Nat) :
    L.Holds (fun rest => ∀ m ∈ rest, L.Always m) (dropped ms count) := by
  unfold Writing.dropped
  split
  · exact L.pure fun m hm => hms m (List.mem_of_mem_drop hm)
  · exact L.brokenOff

end Lists

end TextLaw

end Writing

namespace Emit

open Writing
open Lower (Scope)

theorem onType_eq_ok {α : Type} {f : CType → Result α} {t? : Option CType} {a : α}
    (h : TypeEnv.onType f t? = .ok a) : ∃ t, t? = some t ∧ f t = .ok a := by
  cases t? with
  | none => cases h
  | some t => exact ⟨t, rfl, h⟩

theorem refCode_over {p : Char → Bool} (hp : AdmitsLines p) {scope : Scope}
    (hself : Over p scope.self) {name : String} (hname : Over p name) (kind : RefKind) :
    Over p (Lower.refCode scope name kind).text := by
  unfold Lower.refCode
  split
  · exact hself
  · exact Lower.identifier_over hp.words hname

variable {env : TypeEnv} {P : Failure → Prop} {p : Char → Bool} {scope : Scope} {info : ExprInfo}
  {e : Expr} {m : Writing Unit}

section Questions

variable (L : Law env P)

theorem bare_holds (e : Expr) : L.Always (bare env e) := by
  unfold bare
  split
  · exact L.done _
  · exact L.done _
  · exact L.done _
  · exact (L.constant e).then_ fun v => L.done _

theorem access_holds (position : Position) (t : Option CType) (field : String) :
    L.Holds (fun access => Over isWord access.kind) (access env position t field) := by
  unfold access
  split
  · exact L.refuse rfl
  · rename_i tag _
    split
    · exact L.refuse rfl
    · rename_i f hf
      refine (L.layout tag).bind fun layout hlayout => ?_
      split
      · exact L.fail (hlayout field f position hf ‹_›)
      · refine L.answer (L.admits.storageKind f.type) fun kind hkind => ?_
        exact L.pure (TypeEnv.storageKind_word hkind)

theorem memberType_holds (position : Position) (base : Expr) (arrow : Bool) :
    L.Always (memberType position base arrow) := by
  refine (L.present base).then_ fun base => ?_
  split
  · split
    · exact L.done _
    · exact L.refuse rfl
  · exact L.done _

theorem capitalised_holds {stem : String} (hstem : Over isWord stem) :
    L.Holds (Over isWord) (capitalised stem) := by
  refine (L.require fun _ h => h).bind fun initial hinitial => L.pure ?_
  have hcons : stem.toList = initial :: stem.toList.tail :=
    (List.cons_head?_tail hinitial).symm
  rw [Over, hcons, List.forall_mem_cons] at hstem
  exact over_ofList.mpr (List.forall_mem_cons.mpr ⟨isWord_toUpper hstem.1, hstem.2⟩)

/-- A view is made of words, sizes and the brackets of a call. -/
theorem pointerView_holds {q : Char → Bool} (hq : AdmitsLines q) (kind : CastKind) :
    L.Holds (Over q) (pointerView env info kind) := by
  have hrefused : L.Holds (Over q)
      (if info.type.any env.isPassThrough then pure "" else
        .fail (.unsupportedAt info.position (.castToNonPointer kind.name (typeText info.type))) :
        Writing String) := by
    split
    · exact L.pure (hq.text rfl)
    · exact L.refuse rfl
  have hsized : ∀ t : CType, L.Holds (Over q) (do
      let size ← ask (env.lookupSize t)
      pure (".asCompositePointer(" ++ decimal size ++ ")")) := by
    exact fun t => (L.size t).then_ fun size => L.pure (hq.between rfl (hq.decimal size) rfl)
  unfold pointerView
  dsimp only
  split
  · exact hrefused
  · split
    · exact L.pure (hq.text rfl)
    · exact L.pure (hq.text rfl)
    · split
      · exact L.pure (hq.text rfl)
      · exact L.pure (hq.text rfl)
      · exact hsized _
      · exact hsized _
      · refine L.answer (L.admits.storageKind _) fun stem hstem => ?_
        refine (capitalised_holds L (TypeEnv.storageKind_word hstem)).bind fun stem hstem => ?_
        exact L.pure (hq.between rfl (hstem.weaken hq.words) rfl)
    · exact hrefused

theorem size_holds (t? : Option CType) : L.Always (size env t?) := by
  cases t? with
  | none => exact L.refuse rfl
  | some t => exact L.size t

end Questions

variable (L : TextLaw env P p)

theorem constantOf_holds (info : ExprInfo) (v : Int64) : L.Always (constantOf info v) := by
  unfold constantOf
  split
  · exact L.refuse rfl
  · refine L.answer (L.admits.wrapper _) fun wrapper hwrapper => L.text ?_
    have hname : Over p wrapper := (Scalar.wrapper_word hwrapper).weaken L.lines.words
    simp only [over_append]
    exact ⟨⟨⟨hname, L.lines.text rfl⟩, L.lines.decimal _⟩, L.lines.text rfl⟩

theorem double_holds (info : ExprInfo) (x : Float) : L.Always (double info x) := by
  refine L.text ?_
  have hliteral := (Lower.doubleLiteral_word x).weaken L.lines.words
  simp only [over_append]
  refine ⟨⟨⟨?_, L.lines.text rfl⟩, hliteral⟩, L.lines.text rfl⟩
  split
  · exact L.lines.text rfl
  · exact L.lines.text rfl

theorem string_holds (bytes : List UInt8) : L.Always (string bytes) := by
  refine L.text (L.lines.between rfl (over_join (L.lines.text rfl) fun t ht => ?_) rfl)
  obtain ⟨n, -, rfl⟩ := List.mem_map.mp ht
  exact L.lines.decimalNat n

variable {L}

theorem arguments_holds {args : List (Writing Unit)} (hargs : ∀ m ∈ args, L.Always m)
    (fixed : Nat) (variadic : Bool) : L.Always (arguments args fixed variadic) := by
  refine (TextLaw.argumentsFrom hargs 0 fixed).then_ fun _ => ?_
  split
  · refine (L.comma fixed).then_ fun _ => (L.word rfl).then_ fun _ => ?_
    refine (TextLaw.dropped hargs fixed).bind fun rest hrest => ?_
    exact (TextLaw.separatedFrom hrest 0).then_ fun _ => L.word rfl
  · exact L.done ()

section Uses

variable (hm : L.Always m)

include hm

theorem receiver_holds : L.Always (receiver env e m) := by
  refine (bare_holds L.toLaw e).then_ fun isBare => ?_
  split
  · exact hm
  · exact (L.word rfl).then_ fun _ => hm.then_ fun _ => L.word rfl

theorem condition_holds : L.Always (condition env e m) := by
  refine (receiver_holds hm).then_ fun _ => (L.present e).then_ fun x => L.text ?_
  split
  · exact L.lines.text rfl
  · exact L.lines.text rfl

theorem copied_holds : L.Always (copied env e m) := by
  refine (L.present e).then_ fun x => ?_
  split
  · exact (receiver_holds hm).then_ fun _ => L.word rfl
  · exact hm

theorem invoke_holds {method : String} (hmethod : Over isWord method) {arg : Writing Unit}
    (harg : L.Always arg) : L.Always (invoke env e m method arg) := by
  have hname := hmethod.weaken L.lines.words
  refine (receiver_holds hm).then_ fun _ => ?_
  refine (L.text (L.lines.between rfl hname rfl)).then_ fun _ => ?_
  exact harg.then_ fun _ => L.word rfl

theorem unary_holds (he : e.Spelled p) (op : UnaryOp) : L.Always (unary env info op e m) := by
  unfold unary
  split
  · exact hm
  · exact L.refuse rfl
  · exact L.refuse rfl
  · split
    · rename_i name hname
      split at hname
      · have hover := Lower.identifier_over L.lines.words (Lower.functionName_over he hname)
        exact L.text (L.lines.between rfl hover rfl)
      · cases hname
    · split
      · exact L.refuse rfl
      · rename_i method hmethod
        have hname := (Lower.unaryMethod_word hmethod).weaken L.lines.words
        exact (receiver_holds hm).then_ fun _ => L.text (L.lines.between rfl hname rfl)

theorem call_holds (he : e.Spelled p) {args : List Expr} {variadic : Bool} {builtin : Builtin}
    {copies lists : List (Writing Unit)} (hcopies : ∀ m ∈ copies, L.Always m)
    (hlists : ∀ m ∈ lists, L.Always m) :
    L.Always (call env scope info e args variadic builtin m copies lists) := by
  cases builtin with
  | listStart =>
    unfold call
    dsimp only
    split
    · exact L.refuse rfl
    · split
      · exact L.refuse rfl
      · exact (L.word rfl).then_ fun _ => (TextLaw.item hlists 0).then_ fun _ => L.word rfl
  | listCopy =>
    unfold call
    dsimp only
    split
    · exact L.refuse rfl
    · refine (L.word rfl).then_ fun _ => (TextLaw.item hlists 0).then_ fun _ => ?_
      exact (L.word rfl).then_ fun _ => (TextLaw.item hlists 1).then_ fun _ => L.word rfl
  | listEnd => exact L.word rfl
  | none =>
    have hshape : L.Always (callShape info e args variadic) := by
      refine (L.present e).then_ fun callee => ?_
      exact L.result (L.admits.callShape info callee args variadic) fun _ _ => trivial
    refine hshape.then_ fun shape => ?_
    obtain ⟨fixed, isVariadic⟩ := shape
    have harguments := arguments_holds hcopies fixed isVariadic
    dsimp only
    split
    · rename_i name hname
      have hover := Lower.identifier_over L.lines.words (Lower.directCallee_over he hname)
      refine (L.text (over_append.mpr ⟨hover, L.lines.text rfl⟩)).then_ fun _ => ?_
      exact harguments.then_ fun _ => L.word rfl
    · refine (L.word rfl).then_ fun _ => (receiver_holds hm).then_ fun _ => ?_
      exact (L.word rfl).then_ fun _ => harguments.then_ fun _ => L.word rfl

theorem member_holds (arrow : Bool) (field : String) :
    L.Always (member env info e arrow field m) := by
  have harrow : Over p (if arrow then ".dereference()" else "") := by
    split
    · exact L.lines.text rfl
    · exact L.lines.text rfl
  refine (memberType_holds L.toLaw info.position e arrow).then_ fun t => ?_
  refine (access_holds L.toLaw info.position t field).bind fun access haccess => ?_
  refine (receiver_holds hm).then_ fun _ => (L.text harrow).then_ fun _ => ?_
  have hoffset := L.lines.decimal access.offset
  split
  · refine (L.size _).then_ fun size => L.text ?_
    simp only [over_append]
    exact ⟨⟨⟨⟨L.lines.text rfl, hoffset⟩, L.lines.text rfl⟩, L.lines.decimal size⟩,
      L.lines.text rfl⟩
  · refine L.text ?_
    simp only [over_append]
    exact ⟨⟨⟨⟨L.lines.text rfl, haccess.weaken L.lines.words⟩, L.lines.text rfl⟩, hoffset⟩,
      L.lines.text rfl⟩

theorem toUnion_holds : L.Always (toUnion env info e m) := by
  unfold toUnion
  split
  · refine (size_holds L.toLaw info.type).then_ fun target => (L.present e).then_ fun operand => ?_
    refine (size_holds L.toLaw operand.type).then_ fun source => ?_
    split
    · exact L.refuse rfl
    · refine (L.text (L.lines.between rfl (L.lines.decimal target) rfl)).then_ fun _ => ?_
      exact hm.then_ fun _ => L.word rfl
  · exact L.refuse rfl

theorem cast_holds (hclass : ∀ c, info.type.bind CType.className? = some c → Over p c)
    (kind : CastKind) : L.Always (cast env info kind e m) := by
  have hreceiver : L.Always (receiver env e m) := receiver_holds hm
  cases kind with
  | lvalueToRvalue | noOp | toVoid => exact hm
  | functionToPointerDecay => exact (L.word rfl).then_ fun _ => hm.then_ fun _ => L.word rfl
  | integralToBoolean | floatingToBoolean | pointerToBoolean =>
    refine L.answer (L.admits.onType L.admits.mapType info.type) fun wrapper hwrapper => ?_
    obtain ⟨t, ht, hwrapper⟩ := onType_eq_ok hwrapper
    rw [ht] at hclass
    have hname := Lower.mapType_over L.lines.words hwrapper hclass
    refine (L.text (over_append.mpr ⟨hname, L.lines.text rfl⟩)).then_ fun _ => ?_
    exact (condition_holds hm).then_ fun _ => L.word rfl
  | integralCast | integralToFloating | floatingToIntegral | floatingCast | pointerToIntegral =>
    refine L.answer (L.admits.onType L.admits.storageKind info.type) fun stem hstem => ?_
    obtain ⟨t, ht, hstem⟩ := onType_eq_ok hstem
    refine hreceiver.then_ fun _ => L.text ?_
    exact L.lines.between rfl ((TypeEnv.storageKind_word hstem).weaken L.lines.words) rfl
  | integralToPointer | nullToPointer =>
    refine (pointerView_holds L.toLaw L.lines _).bind fun view hview => hreceiver.then_ fun _ => ?_
    exact L.text (over_append.mpr ⟨L.lines.text rfl, hview⟩)
  | arrayToPointerDecay =>
    refine (pointerView_holds L.toLaw L.lines _).bind fun view hview => ?_
    split
    · exact (string_holds L _).then_ fun _ => L.text hview
    · exact hreceiver.then_ fun _ => L.text (over_append.mpr ⟨L.lines.text rfl, hview⟩)
  | bitCast =>
    refine (pointerView_holds L.toLaw L.lines _).bind fun view hview => ?_
    split
    · exact hm
    · exact hreceiver.then_ fun _ => L.text hview
  | toUnion => exact toUnion_holds hm
  | unrecognised name => exact L.refuse rfl

theorem orConstant_holds (e : Expr) : L.Always (orConstant env e m) := by
  refine ((L.constant e).then_ fun v => ?_).locate _
  cases v with
  | none => exact hm
  | some v => exact constantOf_holds L e.info v

end Uses

section Operators

variable {lhs : Expr} {left right : Writing Unit} (hleft : L.Always left) (hright : L.Always right)
  (hself : Over p scope.self) (hlhs : lhs.Spelled p)

include hleft hright hself hlhs

theorem compound_holds {method : String} (hmethod : Over isWord method) :
    L.Always (compound scope lhs method left right) := by
  have hmethod := hmethod.weaken L.lines.words
  unfold compound
  split
  · rename_i target htarget
    have hname : Over p target.text := by
      have hstripped := Lower.spelled_stripTransparent hlhs
      unfold Lower.targetName? at htarget
      split at htarget
      · rename_i info name kind heq
        cases htarget
        rw [heq] at hstripped
        exact refCode_over L.lines hself (hstripped.own (by simp [Expr.names])) kind
      · cases htarget
    refine (L.text ?_).then_ fun _ => hright.then_ fun _ => L.word rfl
    simp only [over_append]
    exact ⟨⟨⟨⟨⟨hname, L.lines.text rfl⟩, hname⟩, L.lines.text rfl⟩, hmethod⟩, L.lines.text rfl⟩
  · have hset : Over p ("; return " ++ Code.temporary ++ ".set(" ++ Code.temporary ++ ".") :=
      L.lines.text rfl
    refine (L.word rfl).then_ fun _ => hleft.then_ fun _ => (L.text ?_).then_ fun _ =>
      hright.then_ fun _ => L.word rfl
    exact over_append.mpr ⟨over_append.mpr ⟨hset, hmethod⟩, L.lines.text rfl⟩

theorem binary_holds (op : BinaryOp) : L.Always (binary env scope info op lhs left right) := by
  have hlogical : ∀ {word : String}, Over p word → L.Always (do
      receiver env lhs left
      print word
      right
      print ")") := fun hword =>
    (receiver_holds hleft).then_ fun _ => (L.text hword).then_ fun _ =>
      hright.then_ fun _ => L.word rfl
  unfold binary
  split
  · refine (L.word rfl).then_ fun _ => hleft.then_ fun _ => ?_
    exact (L.word rfl).then_ fun _ => hright.then_ fun _ => L.word rfl
  · exact invoke_holds hleft (over_of_all rfl) hright
  · exact hlogical (L.lines.text rfl)
  · exact hlogical (L.lines.text rfl)
  · exact L.refuse rfl
  · exact L.refuse rfl
  · split
    · rename_i base _
      refine compound_holds hleft hright hself hlhs ?_
      cases hbase : Lower.binaryMethod? base with
      | none => exact over_of_all rfl
      | some method => exact Lower.binaryMethod_word hbase
    · split
      · exact L.refuse rfl
      · exact invoke_holds hleft (Lower.binaryMethod_word ‹_›) hright

end Operators

theorem copies_hold {args : List Expr} (ih : ∀ x ∈ args, L.Always (expr env scope false x)) :
    ∀ m ∈ copies env scope args, L.Always m := by
  induction args with
  | nil => exact List.forall_mem_nil _
  | cons x xs ihs =>
    rw [List.forall_mem_cons] at ih
    rw [copies, List.forall_mem_cons]
    exact ⟨copied_holds ih.1, ihs ih.2⟩

theorem lists_hold {args : List Expr} (ih : ∀ x ∈ args, L.Always (expr env scope true x)) :
    ∀ m ∈ lists env scope args, L.Always m := by
  induction args with
  | nil => exact List.forall_mem_nil _
  | cons x xs ihs =>
    rw [List.forall_mem_cons] at ih
    rw [lists, List.forall_mem_cons]
    exact ⟨ih.1, ihs ih.2⟩

variable (L) (hself : Over p scope.self)

include hself

/-- An expression whose names are over `p` is written by the law. -/
theorem expr_holds (he : e.Spelled p) : ∀ peel, L.Always (expr env scope peel e) := by
  induction e using Expr.childInduction with
  | step e ih =>
    intro peel
    have ih := fun x hx => ih x hx (he.child hx)
    cases e with
    | absent => exact L.refuse rfl
    | int info value => exact orConstant_holds (constantOf_holds L info value) _
    | float info value => exact orConstant_holds (double_holds L info value) _
    | string info bytes => exact orConstant_holds (string_holds L bytes) _
    | ref info name kind =>
      have hname := refCode_over L.lines hself (he.own (s := name) (by simp [Expr.names])) kind
      exact orConstant_holds (L.text hname) _
    | binary info op lhs rhs =>
      have hlhs := ih lhs (by simp [Expr.children]) false
      have hrhs := ih rhs (by simp [Expr.children]) false
      have hspelled := he.child (x := lhs) (by simp [Expr.children])
      exact orConstant_holds (binary_holds hlhs hrhs hself hspelled op) _
    | unary info op operand =>
      have hoperand := ih operand List.mem_cons_self false
      exact orConstant_holds (unary_holds hoperand (he.child List.mem_cons_self) op) _
    | call info callee args variadic builtin =>
      have hcallee := he.child (x := callee) List.mem_cons_self
      have hcopies := copies_hold fun x hx => ih x (List.mem_cons_of_mem callee hx) false
      have hlists := lists_hold fun x hx => ih x (List.mem_cons_of_mem callee hx) true
      have hcode := ih callee List.mem_cons_self false
      exact orConstant_holds (call_holds hcode hcallee hcopies hlists) _
    | member info base arrow field =>
      exact orConstant_holds (member_holds (ih base List.mem_cons_self false) arrow field) _
    | subscript info base index =>
      have hbase := ih base List.mem_cons_self false
      have hindex := ih index (by simp [Expr.children]) false
      refine orConstant_holds ((receiver_holds hbase).then_ fun _ => ?_) _
      exact (L.word rfl).then_ fun _ => hindex.then_ fun _ => L.word rfl
    | cast info kind operand isExplicit =>
      have hoperand := ih operand List.mem_cons_self
      have hclass : ∀ c, info.type.bind CType.className? = some c → Over p c :=
        fun c hc => he.own (by simp [Expr.names, Expr.type, Expr.info, hc])
      rw [expr]
      split
      · exact hoperand true
      · exact orConstant_holds (cast_holds (hoperand false) hclass kind) _
    | sizeOf info arg =>
      refine orConstant_holds ((L.size arg).then_ fun size => L.text ?_) _
      exact L.lines.between rfl (L.lines.decimal size) rfl
    | listNext info list =>
      have hlist := ih list List.mem_cons_self true
      have htypes := L.admits.onType L.admits.mapType info.type
      refine orConstant_holds (L.answer htypes fun type htype => ?_) _
      obtain ⟨t, ht, htype⟩ := onType_eq_ok htype
      have hclass : ∀ c, t.className? = some c → Over p c :=
        fun c hc => he.own (by simp [Expr.names, Expr.type, Expr.info, ht, hc])
      refine (L.word rfl).then_ fun _ => (receiver_holds hlist).then_ fun _ => L.text ?_
      exact L.lines.between rfl (Lower.mapType_over L.lines.words htype hclass) rfl
    | conditional info cond then_ else_ =>
      have hcond := ih cond List.mem_cons_self false
      have hthen := ih then_ (by simp [Expr.children]) false
      have helse := ih else_ (by simp [Expr.children]) false
      refine orConstant_holds ((L.word rfl).then_ fun _ => ?_) _
      refine (condition_holds hcond).then_ fun _ => (L.word rfl).then_ fun _ => ?_
      exact hthen.then_ fun _ => (L.word rfl).then_ fun _ => helse.then_ fun _ => L.word rfl
    | message info receiver selector args =>
      have hreceiver := ih receiver List.mem_cons_self false
      have hcopies := copies_hold fun x hx => ih x (List.mem_cons_of_mem receiver hx) false
      have hselector := Lower.selectorName_over L.lines.words
        (he.own (s := selector) (by simp [Expr.names]))
      refine orConstant_holds ((receiver_holds hreceiver).then_ fun _ => ?_) _
      refine (L.text (L.lines.between rfl hselector rfl)).then_ fun _ => ?_
      exact (TextLaw.separatedFrom hcopies 0).then_ fun _ => L.word rfl
    | classMessage info className selector args =>
      have hcopies := copies_hold fun x hx => ih x hx false
      have hselector := Lower.selectorName_over L.lines.words
        (he.own (s := selector) (by simp [Expr.names]))
      have hclass := Lower.identifier_over L.lines.words
        (he.own (s := className) (by simp [Expr.names]))
      refine orConstant_holds ((L.text hclass).then_ fun _ => ?_) _
      refine (L.text (L.lines.between rfl hselector rfl)).then_ fun _ => ?_
      exact (TextLaw.separatedFrom hcopies 0).then_ fun _ => L.word rfl

section Declarations

variable {v : VarDecl} {vs : List VarDecl}

omit hself in
theorem defaultValue_holds {t : CType} (hclass : ∀ c, t.className? = some c → Over p c) :
    L.Always (defaultValue env t) := by
  refine L.answer (L.admits.mapType t) fun type htype => ?_
  have hname := Lower.mapType_over L.lines.words htype hclass
  have hlocal : L.Always (print (type ++ ".local()")) :=
    L.text (over_append.mpr ⟨hname, L.lines.text rfl⟩)
  have hsized : L.Always (do
      let size ← ask (env.lookupSize t)
      print (type ++ ".local(" ++ decimal size ++ ")")) := by
    refine (L.size t).then_ fun size => L.text ?_
    simp only [over_append]
    exact ⟨⟨⟨hname, L.lines.text rfl⟩, L.lines.decimal size⟩, L.lines.text rfl⟩
  split
  · exact L.word rfl
  · dsimp only
    split
    all_goals
      split
      · exact hsized
      · exact hlocal

theorem declaration_holds (hv : v.Spelled p) (mode : DeclMode) :
    L.Always (declaration env scope v.name v.type v.init mode) := by
  refine L.answer (L.admits.mapType v.type) fun type htype => ?_
  have hname := Lower.mapType_over L.lines.words htype hv.type
  have htype : Over p (if mode = .noType then "" else type ++ " ") := by
    split
    · exact L.lines.text rfl
    · exact over_append.mpr ⟨hname, L.lines.text rfl⟩
  refine (L.text htype).then_ fun _ => ?_
  refine (L.text (Lower.identifier_over L.lines.words hv.name)).then_ fun _ => ?_
  split
  · exact L.done ()
  · refine (L.word rfl).then_ fun _ => ?_
    cases hinit : v.init with
    | some e => exact copied_holds (expr_holds L hself (hv.init e hinit) false)
    | none => exact defaultValue_holds L hv.type

theorem moreDeclarators_holds (hvs : ∀ v ∈ vs, v.Spelled p) (first : String) :
    L.Always (moreDeclarators env scope first vs) := by
  induction vs with
  | nil => exact L.done ()
  | cons v vs ih =>
    rw [List.forall_mem_cons] at hvs
    have htype : L.Always (Run.ofResult (env.mapType v.type) : Writing String) :=
      L.result (L.admits.mapType v.type) fun _ _ => trivial
    refine (htype.locate _).then_ fun type => ?_
    split
    · exact L.refuse rfl
    · refine (L.word rfl).then_ fun _ => ?_
      exact ((declaration_holds L hself hvs.1 .noType).locate _).then_ fun _ => ih hvs.2

theorem loopStart_holds {init : Option Stmt} (hinit : ∀ s ∈ init, s.Spelled p)
    (position : Position) : L.Always (loopStart env scope position init) := by
  cases init with
  | none => exact L.done ()
  | some s =>
    cases hinit s rfl with
    | mk exprs vars _ =>
      cases s with
      | expr _ value => exact expr_holds L hself (exprs value List.mem_cons_self) false
      | decl _ vs =>
        cases vs with
        | nil => exact L.done ()
        | cons v vs =>
          obtain ⟨hv, hvs⟩ := List.forall_mem_cons.mp vars
          have htype : L.Always (Run.ofResult (env.mapType v.type) : Writing String) :=
            L.result (L.admits.mapType v.type) fun _ _ => trivial
          refine (htype.locate _).then_ fun type => ?_
          refine ((declaration_holds L hself hv .full).locate _).then_ fun _ => ?_
          exact moreDeclarators_holds L hself hvs type
      | _ => exact L.refuse rfl

end Declarations

end Emit

namespace Writing

theorem locate_iff {α : Type} {m : Writing α} {position : Position} {a : α} {d d' : Desk} :
    m.locate position d = some (.ok a, d') ↔ m d = some (.ok a, d') := by
  rw [Run.locate, Option.map_eq_some_iff]
  constructor
  · rintro ⟨⟨r, d₁⟩, hrun, heq⟩
    obtain ⟨hr, rfl⟩ := Prod.mk.inj heq
    rw [hrun, Result.locate_eq_ok.mp hr]
  · intro hrun
    exact ⟨_, hrun, rfl⟩

/-- A law that ends of lines and blocks are written by as well. -/
structure LineLaw (env : TypeEnv) (P : Failure → Prop)
    (p : Char → Bool) extends TextLaw env P p where
  newline : Holds (fun _ => True) newline
  deeper : ∀ {m : Writing Unit}, Holds (fun _ => True) m → Holds (fun _ => True) (deeper m)

variable {env : TypeEnv} {P : Failure → Prop} {p : Char → Bool} {L : LineLaw env P p} {α : Type}
  {ends : Bool} {m n : Writing Unit} {l : Writing α} {k : α → Writing Unit}

theorem LineLaw.line (L : LineLaw env P p) {s : String} (hs : Over p s) : L.Always (line s) :=
  (L.text hs).then_ fun _ => L.newline

/-- A writing by the law that leaves no line open when it succeeds: in any case if `ends`, and
otherwise if none was open before. -/
structure Lines (L : LineLaw env P p) (ends : Bool) (m : Writing Unit) : Prop where
  always : L.Always m
  closes : ∀ d d', m d = some (.ok (), d') → (ends = false → d.writer.atLineStart = true) →
    d'.writer.atLineStart = true

namespace Lines

theorem closed (hm : Lines L ends m) : Lines L false m :=
  ⟨hm.always, fun d d' hrun hstart => hm.closes d d' hrun fun _ => hstart rfl⟩

theorem pure : Lines L false (Pure.pure ()) := by
  refine ⟨L.done (), fun d d' hrun hstart => ?_⟩
  cases hrun
  exact hstart rfl

theorem refuse {c : Cause} {position : Position} (hc : c.isOrdinary = true) :
    Lines L ends (Run.fail (.report c position none)) := by
  refine ⟨L.refuse hc, fun d d' hrun => ?_⟩
  cases hrun

theorem newline : Lines L true newline := by
  refine ⟨L.newline, fun d d' hrun _ => ?_⟩
  cases hrun
  rfl

/-- Whatever comes first, the line that is open after it is ended. -/
theorem after (hl : L.Always l) (hk : ∀ a, Lines L true (k a)) : Lines L true (l >>= k) := by
  refine ⟨hl.then_ fun a => (hk a).always, fun d d' hrun _ => ?_⟩
  obtain ⟨a, d₁, -, hrest⟩ := Run.bind_eq_ok hrun
  exact (hk a).closes d₁ d' hrest fun hends => by cases hends

theorem then_ (hm : Lines L ends m) (hn : Lines L false n) : Lines L ends (m >>= fun _ => n) := by
  refine ⟨hm.always.then_ fun _ => hn.always, fun d d' hrun hstart => ?_⟩
  obtain ⟨_, d₁, hfirst, hrest⟩ := Run.bind_eq_ok hrun
  exact hn.closes d₁ d' hrest fun _ => hm.closes d d₁ hfirst hstart

theorem locate (hm : Lines L ends m) (position : Position) : Lines L ends (m.locate position) :=
  ⟨hm.always.locate position, fun d d' hrun => hm.closes d d' (locate_iff.mp hrun)⟩

theorem print {s : String} (hs : s.toList.all (fun c => c ≠ '\n') = true) (hn : Lines L true n) :
    Lines L true (print s >>= fun _ => n) := after (L.word hs) fun _ => hn

theorem line {s : String} (hs : s.toList.all (fun c => c ≠ '\n') = true) : Lines L true (line s) :=
  after (L.word hs) fun _ => newline

end Lines

end Writing

/-- The statement is an if statement, which may go on after an else. -/
def Stmt.isBranch : Stmt → Bool
  | .ifElse _ _ _ _ => true
  | _ => false

namespace Emit

open Writing

variable {env : TypeEnv} {P : Failure → Prop} {p : Char → Bool} {L : LineLaw env P p}
  {scope : Lower.Scope} {m : Writing Unit} (hm : L.Always m)

section Pieces

theorem onOption_holds {α : Type} {f : α → Writing Unit} {a? : Option α}
    (hf : ∀ a ∈ a?, L.Always (f a)) : L.Always (onOption f a?) := by
  cases a? with
  | none => exact L.done ()
  | some a => exact hf a rfl

theorem labelAfter_holds (labels : List Nat) (i : Nat) : L.Always (labelAfter labels i) := by
  unfold labelAfter
  split
  · exact L.require fun _ _ => trivial
  · exact L.done _

include hm in
theorem block_holds : L.Always (block m) :=
  (L.line (L.lines.text rfl)).then_ fun _ => (L.deeper hm).then_ fun _ => L.word rfl

include hm in
theorem caseBody_holds (depth : Nat) (body : List Stmt) (target : Nat) :
    L.Always (caseBody depth body target m) := by
  refine L.deeper (hm.then_ fun _ => ?_)
  split
  · exact L.done ()
  · split
    · refine L.line (L.lines.between rfl ?_ rfl)
      exact Lower.switchLabel_over L.lines.words depth target
    · exact L.line (L.lines.text rfl)

theorem localVariables_lines (hself : Over p scope.self) {vs : List VarDecl}
    (hvs : ∀ v ∈ vs, v.Spelled p) : Lines L false (localVariables env scope vs) := by
  induction vs with
  | nil => exact .pure
  | cons v vs ih =>
    rw [List.forall_mem_cons] at hvs
    have hdeclared := declaration_holds L.toTextLaw hself hvs.1 .full
    refine Lines.closed (.after (hdeclared.locate _) fun _ => ?_)
    exact Lines.then_ (.line rfl) (ih hvs.2)

theorem stmts_lines_of_each {body : List Stmt}
    (ih : ∀ s ∈ body, Lines L false (stmt env scope false s)) :
    Lines L false (stmts env scope body) := by
  induction body with
  | nil =>
    rw [stmts]
    exact .pure
  | cons s ss ihs =>
    rw [List.forall_mem_cons] at ih
    rw [stmts]
    exact ih.1.then_ (ihs ih.2)

theorem elseBranch_lines_of_each {else_ : Option Stmt}
    (ih : ∀ s ∈ else_, Lines L s.isBranch (stmt env scope true s)) :
    Lines L true (elseBranch env scope else_) := by
  cases else_ with
  | none =>
    rw [elseBranch]
    exact .newline
  | some s =>
    have hs := ih s rfl
    cases s with
    | ifElse position cond then_ else_ =>
      rw [stmt] at hs
      rw [elseBranch]
      exact .print rfl hs
    | _ =>
      rw [elseBranch]
      · exact .print rfl (.after (block_holds hs.always) fun _ => .newline)
      · intro position cond then_ else_ hsame
        cases hsame

end Pieces

section Cases

variable {cs : List SwitchCase} (labels : List Nat) (i : Nat)
  (ih : ∀ c ∈ cs, ∀ s ∈ c.body,
    Lines L false (stmt env { scope with switchDepth := scope.switchDepth + 1 } false s))

include ih

theorem explicitCases_hold : L.Always (explicitCases env scope labels i cs) := by
  induction cs generalizing i with
  | nil =>
    rw [explicitCases]
    exact L.done ()
  | cons c cs ihs =>
    rw [List.forall_mem_cons] at ih
    obtain ⟨position, label, body⟩ := c
    cases label with
    | none =>
      rw [explicitCases]
      exact ihs (i + 1) ih.2
    | some value =>
      have hbody := caseBody_holds (stmts_lines_of_each ih.1).always scope.switchDepth body
      rw [explicitCases]
      refine (L.constant value).then_ fun v => ?_
      cases v with
      | none => exact L.refuse rfl
      | some v =>
        refine (L.require fun _ h => h).then_ fun label => (L.line ?_).then_ fun _ => ?_
        · have hlabel := Lower.switchLabel_over L.lines.words scope.switchDepth label
          simp only [over_append]
          exact ⟨⟨⟨hlabel, L.lines.text rfl⟩, L.lines.decimal v⟩, L.lines.text rfl⟩
        · refine (labelAfter_holds labels i).then_ fun target => ?_
          exact ((hbody target).locate _).then_ fun _ => ihs (i + 1) ih.2

theorem defaultCase_holds : L.Always (defaultCase env scope labels i cs) := by
  induction cs generalizing i with
  | nil =>
    rw [defaultCase]
    exact L.done ()
  | cons c cs ihs =>
    rw [List.forall_mem_cons] at ih
    obtain ⟨position, label, body⟩ := c
    cases label with
    | some value =>
      rw [defaultCase]
      exact ihs (i + 1) ih.2
    | none =>
      have hbody := caseBody_holds (stmts_lines_of_each ih.1).always scope.switchDepth body
      rw [defaultCase]
      refine (L.require fun _ h => h).then_ fun label =>
        (labelAfter_holds labels i).then_ fun next => ?_
      refine (L.line ?_).then_ fun _ => (hbody _).locate _
      have hlabel := Lower.switchLabel_over L.lines.words scope.switchDepth label
      exact over_append.mpr ⟨hlabel, L.lines.text rfl⟩

end Cases

section Kinds

variable {position : Position} {inBlock : Bool} {e : Expr} {body : Stmt}

theorem compound_lines {body : List Stmt} (hbody : Lines L false (stmts env scope body)) :
    Lines L false (stmt env scope inBlock (.compound position body)) := by
  rw [stmt]
  split
  · exact hbody
  · exact .closed (.locate (.after (block_holds hbody.always) fun _ => .newline) _)

theorem ret_lines {value : Option Expr}
    (hvalue : ∀ e ∈ value, L.Always (copied env e (expr env scope false e))) :
    Lines L false (stmt env scope inBlock (.ret position value)) := by
  cases value with
  | none =>
    rw [stmt]
    exact .closed (.locate (.line rfl) _)
  | some value =>
    rw [stmt]
    exact .closed (.locate (.print rfl (.after (hvalue value rfl) fun _ => .line rfl)) _)

theorem switch_lines {cases : List SwitchCase}
    (he : L.Always (receiver env e (expr env scope false e)))
    (hcases : ∀ c ∈ cases, ∀ s ∈ c.body,
      Lines L false (stmt env { scope with switchDepth := scope.switchDepth + 1 } false s)) :
    Lines L false (stmt env scope inBlock (.switch position e cases)) := by
  have hbodies := fun labels : List Nat =>
    (explicitCases_hold labels 0 hcases).then_ fun _ => defaultCase_holds labels 0 hcases
  rw [stmt]
  refine .locate ?_ _
  split
  · exact .refuse rfl
  · refine .closed (.print rfl (.after he fun _ => ?_))
    exact .then_ (.line rfl) (.closed (.after (L.deeper (hbodies _)) fun _ => .line rfl))

variable (hcondition : L.Always (condition env e (expr env scope false e)))
  (hbody : L.Always (block (stmt env scope true body)))

include hbody

section Conditions

include hcondition

theorem ifElse_lines {else_ : Option Stmt} (helse : Lines L true (elseBranch env scope else_)) :
    Lines L true (stmt env scope inBlock (.ifElse position e body else_)) := by
  rw [stmt]
  refine .locate (.print rfl (.after hcondition fun _ => ?_)) _
  exact .print rfl (.after hbody fun _ => helse)

theorem whileLoop_lines : Lines L false (stmt env scope inBlock (.whileLoop position e body)) := by
  rw [stmt]
  refine .closed (.locate (.print rfl (.after hcondition fun _ => ?_)) _)
  exact .print rfl (.after hbody fun _ => .newline)

theorem doLoop_lines : Lines L false (stmt env scope inBlock (.doLoop position body e)) := by
  rw [stmt]
  refine .closed (.locate (.print rfl (.after hbody fun _ => ?_)) _)
  exact .print rfl (.after hcondition fun _ => .line rfl)

end Conditions

theorem forLoop_lines {init : Option Stmt} {cond inc : Option Expr}
    (hstart : L.Always (loopStart env scope position init))
    (hcond : ∀ e ∈ cond, L.Always (condition env e (expr env scope false e)))
    (hinc : ∀ e ∈ inc, L.Always (expr env scope false e)) :
    Lines L false (stmt env scope inBlock (.forLoop position init cond inc body)) := by
  rw [stmt]
  refine .closed (.locate (.print rfl (.after hstart fun _ => ?_)) _)
  refine .print rfl (.after (onOption_holds hcond) fun _ => ?_)
  refine .print rfl (.after (onOption_holds hinc) fun _ => ?_)
  exact .print rfl (.after hbody fun _ => .newline)

end Kinds

/-- A statement whose names are over `p` is written by the law, as whole lines. -/
theorem stmt_lines {s : Stmt} (hs : s.Spelled p) : ∀ (scope : Lower.Scope) (inBlock : Bool),
    Over p scope.self → Lines L s.isBranch (stmt env scope inBlock s) := by
  induction s using Stmt.childInduction with
  | step s ih =>
    intro scope inBlock hself
    have ih := fun t ht => ih t ht (hs.child ht)
    have hexpr : ∀ e ∈ s.exprs, L.Always (expr env scope false e) :=
      fun e he => expr_holds L.toTextLaw hself (hs.expr he) false
    have hcondition : ∀ e ∈ s.exprs, L.Always (condition env e (expr env scope false e)) :=
      fun e he => condition_holds (hexpr e he)
    have hblock : ∀ t ∈ s.children, L.Always (block (stmt env scope true t)) :=
      fun t ht => block_holds (ih t ht scope true hself).always
    cases s with
    | compound position body =>
      exact compound_lines (stmts_lines_of_each fun t ht => (ih t ht scope false hself).closed)
    | ifElse position cond then_ else_ =>
      refine ifElse_lines (hcondition cond List.mem_cons_self) (hblock then_ List.mem_cons_self) ?_
      exact elseBranch_lines_of_each fun t ht =>
        ih t (List.mem_cons_of_mem _ (Option.mem_toList.mpr ht)) scope true hself
    | whileLoop position cond body =>
      exact whileLoop_lines (hcondition cond List.mem_cons_self) (hblock body List.mem_cons_self)
    | doLoop position body cond =>
      exact doLoop_lines (hcondition cond List.mem_cons_self) (hblock body List.mem_cons_self)
    | forLoop position init cond inc body =>
      refine forLoop_lines (hblock body (List.mem_append_right _ List.mem_cons_self)) ?_
        (fun e he => hcondition e (List.mem_append_left _ (Option.mem_toList.mpr he)))
        fun e he => hexpr e (List.mem_append_right _ (Option.mem_toList.mpr he))
      exact loopStart_holds L.toTextLaw hself
        (fun t ht => hs.child (List.mem_append_left _ (Option.mem_toList.mpr ht))) position
    | switch position cond cases =>
      refine switch_lines (receiver_holds (hexpr cond List.mem_cons_self)) fun c hc t ht => ?_
      exact (ih t (List.mem_flatMap.mpr ⟨c, hc, ht⟩)
        { scope with switchDepth := scope.switchDepth + 1 } false hself).closed
    | brk | cont | null =>
      rw [stmt]
      exact .closed (.line rfl)
    | ret position value =>
      exact ret_lines fun e he => copied_holds (hexpr e (Option.mem_toList.mpr he))
    | decl position vs =>
      rw [stmt]
      exact .locate (localVariables_lines hself fun v hv => hs.var hv) _
    | expr position value =>
      rw [stmt]
      refine .locate ?_ _
      split
      · exact .pure
      · exact .closed (.after (hexpr value List.mem_cons_self) fun _ => .line rfl)

theorem stmts_lines (hself : Over p scope.self) {body : List Stmt}
    (hbody : ∀ s ∈ body, s.Spelled p) : Lines L false (stmts env scope body) :=
  stmts_lines_of_each fun s hs => (stmt_lines (hbody s hs) scope false hself).closed

end Emit

end DartLowering
