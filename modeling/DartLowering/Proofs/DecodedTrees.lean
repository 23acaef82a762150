import DartLowering.Dump.Resolve
import DartLowering.Proofs.Containment
import DartLowering.Proofs.RelabelledRuns
import DartLowering.Proofs.Throughout

/-!
What a dump must hold to be accepted, and what the unit of an accepted dump is like. `Full` says of
a node that the children which its role and kind ask for are there, down to the leaves; the unit
that is read has no gaps, no pointers to functions, no string literals that do not fit their types,
and one record for each name.
-/
namespace DartLowering

open Result

variable {T : CType → Prop} {e : Expr}

/-- Functions are pointed to by function pointers only, and references to records satisfy `R`. -/
def CType.Formed (R : RecordTag → Prop) : CType → Prop
  | .pointer pointee => pointee.unalias.prototype? = none
  | .record tag => R tag
  | _ => True

theorem CType.Formed.imp {R S : RecordTag → Prop} (hRS : ∀ tag, R tag → S tag) {t : CType}
    (h : t.Formed R) : t.Formed S := by
  cases t with
  | record tag => exact hRS tag h
  | _ => exact h

/-- An array of a fixed length has room for the bytes and one more. -/
def CType.Fits (bytes : List UInt8) (t : CType) : Prop :=
  ∀ elem n isVariable, t.unalias = .array elem (some n) isVariable →
    n - 1 = Int64.ofNat bytes.length ∧
      ((bytes.length : Int) < Int64.maxValue.toInt → n.toInt - 1 = bytes.length)

/-- The node is there, its types satisfy `T`, a literal fits its type, and a message to a class
names the class. -/
def Expr.Formed (T : CType → Prop) (e : Expr) : Prop :=
  (∀ t ∈ e.types, T t) ∧
    match e with
    | .absent => False
    | .string info bytes => ∀ t, info.type = some t → t.Fits bytes
    | .classMessage _ className _ _ => className ≠ ""
    | _ => True

theorem Expr.Formed.imp {U : CType → Prop} (hTU : ∀ t, T t → U t) (h : e.Formed T) : e.Formed U :=
  ⟨fun t ht => hTU t (h.1 t ht), h.2⟩

theorem Expr.Formed.ne_absent (h : e.Formed T) : e ≠ .absent := by
  rintro rfl
  exact h.2

theorem Expr.Formed.withConstant (h : e.Formed T) (v : Int64) : (e.withConstant v).Formed T := by
  cases e <;> exact h

theorem Expr.children_withConstant (e : Expr) (v : Int64) :
    (e.withConstant v).children = e.children := by
  cases e <;> rfl

namespace Dump

/-- The roles that nodes play in a dump. -/
inductive Role
  | type | expr | stmt | block | var | decl | param | arm | field | record

namespace Role

def required (node : Json) : Role → List (String × Role)
  | .type =>
      match textAt "kind" node with
      | "pointer" | "fnptr" => [("pointee", .type)]
      | "array" => [("elem", .type)]
      | "function" => [("result", .type)]
      | "alias" => [("underlying", .type)]
      | _ => []
  | .expr =>
      match textAt "kind" node with
      | "binary" => [("lhs", .expr), ("rhs", .expr)]
      | "unary" | "cast" => [("operand", .expr)]
      | "call" => [("callee", .expr)]
      | "member" => [("base", .expr)]
      | "subscript" => [("base", .expr), ("index", .expr)]
      | "sizeof" => [("arg", .type)]
      | "va_arg" => [("list", .expr)]
      | "cond" => [("cond", .expr), ("then", .expr), ("else", .expr)]
      | _ => []
  | .stmt =>
      match textAt "kind" node with
      | "if" => [("cond", .expr), ("then", .stmt)]
      | "while" => [("cond", .expr), ("body", .stmt)]
      | "do" => [("body", .stmt), ("cond", .expr)]
      | "for" => [("body", .stmt)]
      | "switch" => [("cond", .expr)]
      | "expr" => [("expr", .expr)]
      | _ => []
  | .decl =>
      match textAt "kind" node with
      | "function" | "method" => [("result", .type)]
      | "var" => [("type", .type)]
      | _ => []
  | .arm => if flagAt "default" node then [] else [("label", .expr)]
  | .var | .param | .field => [("type", .type)]
  | .block | .record => []

def optional (node : Json) : Role → List (String × Role)
  | .expr =>
      match textAt "kind" node with
      | "message" => [("type", .type), ("receiver", .expr)]
      | _ => [("type", .type)]
  | .stmt =>
      match textAt "kind" node with
      | "if" => [("else", .stmt)]
      | "for" => [("init", .stmt), ("cond", .expr), ("inc", .expr)]
      | "return" => [("expr", .expr)]
      | _ => []
  | .decl =>
      match textAt "kind" node with
      | "function" | "method" => [("body", .block)]
      | "var" => [("init", .expr)]
      | _ => []
  | .var => [("init", .expr)]
  | .type | .arm | .param | .field | .block | .record => []

def lists (node : Json) : Role → List (String × Role)
  | .type =>
      match textAt "kind" node with
      | "function" => [("params", .type)]
      | _ => []
  | .expr =>
      match textAt "kind" node with
      | "call" | "message" => [("args", .expr)]
      | _ => []
  | .stmt =>
      match textAt "kind" node with
      | "compound" => [("stmts", .stmt)]
      | "switch" => [("cases", .arm)]
      | "decl" => [("vars", .var)]
      | _ => []
  | .decl =>
      match textAt "kind" node with
      | "function" | "method" => [("params", .param)]
      | _ => []
  | .block | .arm => [("stmts", .stmt)]
  | .record => [("fields", .field)]
  | .var | .param | .field => []

/-- What a node says about itself: bodies are compounds, a message has a receiver or a class, and a
method has an owner. -/
def Own (node : Json) : Role → Prop
  | .block => textAt "kind" node = "compound"
  | .var => textAt "kind" node = "var"
  | .expr => textAt "kind" node = "message" →
      (get? "receiver" node).isSome = true ∨ textAt "class" node ≠ ""
  | .decl => textAt "kind" node = "method" → textAt "owner" node ≠ ""
  | .type | .stmt | .param | .arm | .field | .record => True

end Role

/-- A node that has what its role asks for, down to the leaves. -/
inductive Full : Role → Json → Prop
  | mk {role : Role} {node : Json} (own : role.Own node)
      (required : ∀ c ∈ role.required node, (get? c.1 node).isSome = true)
      (listed : ∀ c ∈ role.lists node, none ∉ itemsAt c.1 node)
      (children : ∀ c ∈ role.required node ++ role.optional node, ∀ child,
        get? c.1 node = some child → Full c.2 child)
      (items : ∀ c ∈ role.lists node, ∀ child, some child ∈ itemsAt c.1 node → Full c.2 child) :
      Full role node

def Present (role : Role) (node : Option Json) : Prop := ∃ n, node = some n ∧ Full role n

/-- A node that may be missing. -/
def Allowed (role : Role) (node : Option Json) : Prop := ∀ n, node = some n → Full role n

theorem Present.allowed {role : Role} {node : Option Json} (h : Present role node) :
    Allowed role node := by
  obtain ⟨n, rfl, hfull⟩ := h
  intro m hm
  cases hm
  exact hfull

theorem allowed_none (role : Role) : Allowed role none := by
  intro n hn
  cases hn

/-- The node is as its role asks, and what it must or may have is full. -/
def Role.Filled (role : Role) (node : Json) : Prop :=
  role.Own node ∧ (∀ c ∈ role.required node, Present c.2 (get? c.1 node)) ∧
    (∀ c ∈ role.optional node, Allowed c.2 (get? c.1 node)) ∧
    ∀ c ∈ role.lists node, ∀ item ∈ itemsAt c.1 node, Present c.2 item

attribute [local simp] Role.Filled Role.Own Role.required Role.optional Role.lists

namespace Full

variable {role : Role} {node : Json}

theorem of_filled (h : role.Filled node) : Full role node := by
  obtain ⟨own, required, optional, lists⟩ := h
  refine .mk own ?_ ?_ ?_ ?_
  · intro c hc
    obtain ⟨child, hchild, -⟩ := required c hc
    rw [hchild, Option.isSome_some]
  · intro c hc hnone
    obtain ⟨child, hchild, -⟩ := lists c hc none hnone
    cases hchild
  · intro c hc child hchild
    rcases List.mem_append.mp hc with hc | hc
    · exact (required c hc).allowed child hchild
    · exact optional c hc child hchild
  · intro c hc child hchild
    exact (lists c hc _ hchild).allowed child rfl

/-- A node serves in another role that asks for the same children. -/
theorem recast {other : Role} (h : Full role node) (own : other.Own node)
    (hrequired : role.required node = other.required node)
    (hoptional : role.optional node = other.optional node)
    (hlists : role.lists node = other.lists node) : Full other node := by
  cases h with
  | mk _ required listed children items =>
    rw [hrequired] at required
    rw [hlists] at listed items
    rw [hrequired, hoptional] at children
    exact .mk own required listed children items

theorem block (h : Full .stmt node) (hkind : textAt "kind" node = "compound") :
    Full .block node :=
  h.recast hkind (by simp [hkind]) (by simp [hkind]) (by simp [hkind])

theorem decl (h : Full .var node) (hkind : textAt "kind" node = "var") : Full .decl node :=
  h.recast (by simp [hkind]) (by simp [hkind]) (by simp [hkind]) (by simp [hkind])

end Full

/-- `F` holds of crashes and of every report of a cause that runs return. -/
structure Reports (F : Failure → Prop) : Prop where
  crash : F .crash
  reported : ∀ (c : Cause) p, c.isOrdinary = true → F (.report c p none)

namespace Reports

variable {F : Failure → Prop} (hF : Reports F) {α : Type} {P : α → Prop}

include hF

theorem fault {c : Cause} {p : Position} (hc : c.isOrdinary = true) :
    Ends F P (.error (.report c p none)) :=
  ends_error (hF.reported c p hc)

theorem dead : Ends F P (.error .crash) := ends_error hF.crash

end Reports

/-- Nothing is asked of failures. -/
theorem reports_any : Reports fun _ => True := ⟨trivial, fun _ _ _ => trivial⟩

variable {F : Failure → Prop}

theorem indexed_ends {α β : Type} {Q : α → Prop} {P : β → Prop} {f : α → String → Result β}
    (hf : ∀ a place, Ends F (fun b => Q a ∧ P b) (f a place)) (place : String) (index : Nat)
    (as : List α) :
    Ends F (fun bs => (∀ a ∈ as, Q a) ∧ ∀ b ∈ bs, P b) (indexed f place index as) := by
  induction as generalizing index with
  | nil => exact ends_ok ⟨List.forall_mem_nil _, List.forall_mem_nil _⟩
  | cons a as ih =>
    refine (hf a _).bind fun b hb => (ih (index + 1)).bind fun bs hbs => ends_ok ?_
    exact ⟨List.forall_mem_cons.mpr ⟨hb.1, hbs.1⟩, List.forall_mem_cons.mpr ⟨hb.2, hbs.2⟩⟩

theorem optional_ends {α : Type} {role : Role} {P : α → Prop}
    {f : Option Json → String → Result α}
    (hf : ∀ node place, Ends F (fun a => Present role node ∧ P a) (f node place))
    (node : Option Json) (place : String) :
    Ends F (fun o => Allowed role node ∧ ∀ a ∈ o, P a) (Reading.optional f node place) := by
  cases node with
  | none =>
    refine ends_ok ⟨allowed_none role, ?_⟩
    intro a ha
    cases ha
  | some node =>
    refine (hf _ place).bind fun a ha => ends_ok ⟨ha.1.allowed, ?_⟩
    intro b hb
    cases hb
    exact ha.2

namespace Reading

variable (r : Reading) {node : Json}

theorem name_tag (name : String) : (r.tag name).name = name := by
  unfold Reading.tag
  cases hfind : r.tags.find? fun t => t.name == name with
  | none => rfl
  | some t => simpa using List.find?_some hfind

/-- The type and all that it is made of are as this reading forms types. -/
abbrev Typed (t : CType) : Prop := t.Throughout (CType.Formed fun tag => tag = r.tag tag.name)

/-- Every node of the expression is as this reading forms expressions. -/
abbrev Formed (e : Expr) : Prop := e.Throughout (Expr.Formed r.Typed)

variable {r}

theorem typed_functionPointer {pointee : CType} (h : r.Typed pointee) {p : Prototype}
    (hproto : pointee.unalias.prototype? = some p) :
    r.Typed (.functionPointer p.params p.result p.variadic) := by
  have hunalias := h.unalias
  cases ht : pointee.unalias with
  | function params result variadic =>
    rw [ht] at hproto hunalias
    cases hproto
    exact .mk trivial fun u hu => hunalias.component hu
  | _ =>
    rw [ht] at hproto
    cases hproto

theorem typed_pointerTo {pointee : CType} (h : r.Typed pointee) : r.Typed (pointerTo pointee) := by
  unfold pointerTo
  cases hproto : pointee.unalias.prototype? with
  | none =>
    refine .mk hproto fun u hu => ?_
    rw [List.mem_singleton.mp hu]
    exact h
  | some p => exact typed_functionPointer h hproto

variable (r) (hF : Reports F)

include hF

theorem type_ends (fuel : Nat) (node : Option Json) (place : String) :
    Ends F (fun t => Present .type node ∧ r.Typed t) (r.type fuel node place) := by
  induction fuel generalizing node place with
  | zero =>
    cases node with
    | none => exact hF.fault rfl
    | some node => exact hF.dead
  | succ fuel ih =>
    cases node with
    | none => exact hF.fault rfl
    | some node =>
      -- a node of any kind is done when its children are
      have hdone : ∀ {t : CType}, Role.type.Filled node → r.Typed t →
          Ends F (fun t => Present .type (some node) ∧ r.Typed t) (.ok t) :=
        fun hfilled ht => ends_ok ⟨⟨node, rfl, .of_filled hfilled⟩, ht⟩
      have hleaf : ∀ {t : CType}, t.components = [] →
          t.Formed (fun tag => tag = r.tag tag.name) → r.Typed t := by
        intro t hcomponents ht
        refine .mk ht fun u hu => ?_
        rw [hcomponents] at hu
        cases hu
      rw [Reading.type]
      split
      next hvoid => exact hdone (by simp [hvoid]) (hleaf rfl trivial)
      next hscalar =>
        split
        · exact hdone (by simp [hscalar]) (hleaf rfl trivial)
        · exact hF.fault rfl
      next hpointer =>
        refine (ih _ _).bind fun pointee hpointee => ?_
        exact hdone (by simp [hpointer, hpointee.1]) (typed_pointerTo hpointee.2)
      next hfnptr =>
        refine (ih _ _).bind fun pointee hpointee => ?_
        split
        next p hproto =>
          exact hdone (by simp [hfnptr, hpointee.1]) (typed_functionPointer hpointee.2 hproto)
        · exact hF.fault rfl
      next harray =>
        refine (ih _ _).bind fun elem helem => hdone (by simp [harray, helem.1]) ?_
        exact .mk trivial (by simpa [CType.components] using helem.2)
      next hrecord =>
        refine hdone (by simp [hrecord]) (hleaf rfl ?_)
        exact congrArg r.tag (r.name_tag _).symm
      next hfunction =>
        refine (ih _ _).bind fun result hresult => ?_
        refine (indexed_ends ih _ _ _).bind fun params hparams => ?_
        refine hdone (by simpa [hfunction, hresult.1] using hparams.1) ?_
        exact .mk trivial (List.forall_mem_cons.mpr ⟨hresult.2, hparams.2⟩)
      next halias =>
        refine (ih _ _).bind fun underlying hunderlying =>
          hdone (by simp [halias, hunderlying.1]) ?_
        exact .mk trivial (by simpa [CType.components] using hunderlying.2)
      next hobject => exact hdone (by simp [hobject]) (hleaf rfl trivial)
      · exact hF.fault rfl

/-- The type of an expression, in the list of the types that it mentions. -/
theorem optionalType_ends (fuel : Nat) (node : Option Json) (place : String) :
    Ends F (fun t? => Allowed .type node ∧ ∀ t ∈ t?.toList ++ [], r.Typed t)
      (r.optionalType fuel node place) := by
  have hoptional : Ends F (fun t? => Allowed .type node ∧ ∀ t ∈ t?, r.Typed t)
      (r.optionalType fuel node place) := by
    cases node with
    | none | some => exact optional_ends (r.type_ends hF fuel) _ place
  refine hoptional.imp fun t? ⟨hallowed, htype⟩ => ⟨hallowed, ?_⟩
  rw [List.append_nil]
  exact fun t ht => htype t (Option.mem_toList.mp ht)

omit hF in
theorem word_pred {k : Nat} {n : Int64} (h : Int64.ofNat k + 1 = n) :
    n - 1 = Int64.ofNat k ∧ ((k : Int) < Int64.maxValue.toInt → n.toInt - 1 = k) := by
  subst h
  refine ⟨Int64.add_sub_cancel _ _, fun hk => ?_⟩
  have hmax : Int64.maxValue.toInt = 9223372036854775807 := rfl
  have hone : (1 : Int64).toInt = 1 := rfl
  have hword : (Int64.ofNat k).toInt = k := Int64.toInt_ofNat_of_lt (by omega)
  have hsum : ((k : Int) + 1).bmod (2 ^ 64) = k + 1 := Int.bmod_eq_of_le (by omega) (by omega)
  rw [Int64.toInt_add, hword, hone, hsum, Int.add_sub_cancel]

theorem bytesFrom_ends (place : String) (index : Nat) (js : List Json) :
    Ends F (fun _ => True) (r.bytesFrom place index js) := by
  induction js generalizing index with
  | nil => exact ends_ok trivial
  | cons j js ih =>
    rw [Reading.bytesFrom]
    split
    · exact hF.fault rfl
    · exact (ih (index + 1)).bind fun rest _ => ends_ok trivial

theorem stringBytes_ends (node : Json) (place : String) :
    Ends F (fun _ => True) (r.stringBytes node place) := by
  unfold Reading.stringBytes
  split
  · exact r.bytesFrom_ends hF place 0 _
  · split
    · exact ends_ok trivial
    · exact ends_ok trivial
    · exact hF.fault rfl

theorem checkLength_ends (type : Option CType) (bytes : List UInt8) (place : String) :
    Ends F (fun _ => ∀ t, type = some t → t.Fits bytes) (r.checkLength type bytes place) := by
  unfold Reading.checkLength
  split
  next elem n isVariable harray =>
    split
    next hlength =>
      refine ends_ok ?_
      rintro t rfl elem' n' isVariable' ht
      rw [Option.map_some, ht] at harray
      cases harray
      exact word_pred hlength
    · exact hF.fault rfl
  next hother =>
    refine ends_ok ?_
    rintro t rfl elem n isVariable ht
    exact (hother elem n isVariable (congrArg some ht)).elim

theorem record_ends {place : String} {e : Expr} (h : r.Formed e) :
    Ends F r.Formed (r.record node place e) := by
  unfold Reading.record
  split
  · exact ends_ok h
  · split
    next v =>
      refine ends_ok (.mk (h.own.withConstant _) fun x hx => ?_)
      rw [Expr.children_withConstant] at hx
      exact h.child hx
    · exact hF.fault rfl

def ReadNode (node : Json) (e : Expr) : Prop := Present .expr (some node) ∧ r.Formed e

/-- Every kind of node goes on to the constant that is recorded for it. -/
theorem recorded {place : String} {e : Expr} (hfilled : Role.expr.Filled node) (he : r.Formed e) :
    Ends F (r.ReadNode node) (Except.ok e >>= r.record node place) :=
  (r.record_ends hF he).imp fun _ he => ⟨⟨node, rfl, .of_filled hfilled⟩, he⟩

section Families

variable {fuel : Nat} (ih : ∀ node place,
    Ends F (fun e => Present .expr node ∧ r.Formed e) (r.expr fuel node place))
  {place p q : String} {a b : Option Json} {as : List (Option Json)}

/-- Nodes without operands. -/
theorem leaf_ends {e : Expr} (hfilled : Role.expr.Filled node) (he : e.Formed r.Typed)
    (hchildren : e.children = []) :
    Ends F (r.ReadNode node) (Except.ok e >>= r.record node place) := by
  refine r.recorded hF hfilled (.mk he ?_)
  rw [hchildren]
  exact List.forall_mem_nil _

include ih

/-- Nodes with one operand. -/
theorem operand_ends {build : Expr → Expr} (hfilled : Present .expr a → Role.expr.Filled node)
    (hbuild : ∀ x, (build x).Formed r.Typed ∧ (build x).children = [x]) : Ends F (r.ReadNode node)
      (r.expr fuel a p >>= fun x => Except.ok (build x) >>= r.record node place) := by
  refine (ih _ _).bind fun x hx => r.recorded hF (hfilled hx.1) (.mk (hbuild x).1 ?_)
  rw [(hbuild x).2]
  exact List.forall_mem_singleton.mpr hx.2

/-- Nodes with two operands. -/
theorem operands_end {build : Expr → Expr → Expr}
    (hfilled : Present .expr a → Present .expr b → Role.expr.Filled node)
    (hbuild : ∀ x y, (build x y).Formed r.Typed ∧ (build x y).children = [x, y]) :
    Ends F (r.ReadNode node) (r.expr fuel a p >>= fun x => r.expr fuel b q >>= fun y =>
      Except.ok (build x y) >>= r.record node place) := by
  refine (ih _ _).bind fun x hx => (ih _ _).bind fun y hy => ?_
  refine r.recorded hF (hfilled hx.1 hy.1) (.mk (hbuild x y).1 ?_)
  rw [(hbuild x y).2]
  exact List.forall_mem_cons.mpr ⟨hx.2, List.forall_mem_singleton.mpr hy.2⟩

/-- Nodes with an operand and arguments. -/
theorem arguments_end {build : Expr → List Expr → Expr}
    (hfilled : Present .expr a → (∀ n ∈ as, Present .expr n) → Role.expr.Filled node)
    (hbuild : ∀ x xs, (build x xs).Formed r.Typed ∧ (build x xs).children = x :: xs) :
    Ends F (r.ReadNode node) (r.expr fuel a p >>= fun x => indexed (r.expr fuel) q 0 as >>=
      fun xs => Except.ok (build x xs) >>= r.record node place) := by
  refine (ih _ _).bind fun x hx => (indexed_ends ih _ _ _).bind fun xs hxs => ?_
  refine r.recorded hF (hfilled hx.1 hxs.1) (.mk (hbuild x xs).1 ?_)
  rw [(hbuild x xs).2]
  exact List.forall_mem_cons.mpr ⟨hx.2, hxs.2⟩

omit ih in
theorem fault_ends {c : Cause} (hc : c.isOrdinary = true) (position : Position) :
    Ends F (r.ReadNode node) (Except.error (.report c position none) >>= r.record node place) :=
  hF.fault hc

/-- A node that sends something goes to an operand or to a class. -/
theorem message_ends (hkind : textAt "kind" node = "message") :
    Ends F (r.ReadNode node) (r.expr (fuel + 1) (some node) place) := by
  rw [Reading.expr]
  refine (r.optionalType_ends hF fuel _ _).bind fun type ⟨hallowed, htypes⟩ => ?_
  simp only [hkind]
  split
  next receiver hreceiver =>
    refine r.arguments_end hF ih (fun htarget hargs => ?_) fun _ _ => ⟨⟨htypes, trivial⟩, rfl⟩
    have hpresent := htarget.allowed
    rw [hreceiver] at hpresent
    simpa [hkind, hallowed, hreceiver, hpresent] using hargs
  next hreceiver =>
    split
    · exact r.fault_ends hF rfl _
    next hclass =>
      refine (indexed_ends ih _ _ _).bind fun args hargs => ?_
      refine r.recorded hF ?_ (.mk ⟨htypes, hclass⟩ hargs.2)
      simpa [hkind, hallowed, hreceiver, hclass, allowed_none] using hargs.1

/-- What a node of each kind is read as, given what its children are read as. -/
theorem node_ends : Ends F (r.ReadNode node) (r.expr (fuel + 1) (some node) place) := by
  by_cases hmessage : textAt "kind" node = "message"
  · exact r.message_ends hF ih hmessage
  rw [Reading.expr]
  refine (r.optionalType_ends hF fuel _ _).bind fun type ⟨hallowed, htypes⟩ => ?_
  dsimp only
  split
  next hint =>
    split
    · exact r.leaf_ends hF (by simp [hint, hallowed]) ⟨htypes, trivial⟩ rfl
    · exact r.fault_ends hF rfl _
  next hfloat =>
    have hfilled : Role.expr.Filled node := by
      simp [hfloat, hallowed]
    split
    · split
      · exact r.leaf_ends hF hfilled ⟨htypes, trivial⟩ rfl
      · exact r.fault_ends hF rfl _
    · exact r.leaf_ends hF hfilled ⟨htypes, trivial⟩ rfl
    · exact r.fault_ends hF rfl _
  next hstring =>
    refine (r.stringBytes_ends hF node place).bind fun bytes _ => ?_
    refine (r.checkLength_ends hF type bytes place).bind fun _ hfits => ?_
    exact r.leaf_ends hF (by simp [hstring, hallowed]) ⟨htypes, hfits⟩ rfl
  next hname =>
    split
    · exact r.leaf_ends hF (by simp [hname, hallowed]) ⟨htypes, trivial⟩ rfl
    · exact r.fault_ends hF rfl _
  next hbinary =>
    split
    · exact r.fault_ends hF rfl _
    · exact r.operands_end hF ih (fun hlhs hrhs => by simp [hbinary, hallowed, hlhs, hrhs])
        fun _ _ => ⟨⟨htypes, trivial⟩, rfl⟩
  next hunary =>
    split
    · exact r.fault_ends hF rfl _
    · exact r.operand_ends hF ih (fun hoperand => by simp [hunary, hallowed, hoperand])
        fun _ => ⟨⟨htypes, trivial⟩, rfl⟩
  next hcall =>
    split
    · exact r.fault_ends hF rfl _
    · refine r.arguments_end hF ih (fun hcallee hargs => ?_) fun _ _ => ⟨⟨htypes, trivial⟩, rfl⟩
      simpa [hcall, hallowed, hcallee] using hargs
  next hmember =>
    exact r.operand_ends hF ih (fun hbase => by simp [hmember, hallowed, hbase])
      fun _ => ⟨⟨htypes, trivial⟩, rfl⟩
  next hsubscript =>
    exact r.operands_end hF ih (fun hbase hindex => by simp [hsubscript, hallowed, hbase, hindex])
      fun _ _ => ⟨⟨htypes, trivial⟩, rfl⟩
  next hcast =>
    split
    · exact r.fault_ends hF rfl _
    · exact r.operand_ends hF ih (fun hoperand => by simp [hcast, hallowed, hoperand])
        fun _ => ⟨⟨htypes, trivial⟩, rfl⟩
  next hsizeof =>
    refine (r.type_ends hF fuel _ _).bind fun arg harg => ?_
    refine r.leaf_ends hF (by simp [hsizeof, hallowed, harg.1]) ⟨?_, trivial⟩ rfl
    rw [List.append_nil] at htypes
    exact List.forall_mem_append.mpr ⟨htypes, List.forall_mem_singleton.mpr harg.2⟩
  next hlist =>
    exact r.operand_ends hF ih (fun hread => by simp [hlist, hallowed, hread])
      fun _ => ⟨⟨htypes, trivial⟩, rfl⟩
  next hconditional =>
    refine (ih _ _).bind fun cond hcond => (ih _ _).bind fun then_ hthen => ?_
    refine (ih _ _).bind fun else_ helse => ?_
    refine r.recorded hF (by simp [hconditional, hallowed, hcond.1, hthen.1, helse.1])
      (.mk ⟨htypes, trivial⟩ ?_)
    simp [Expr.children, hcond.2, hthen.2, helse.2]
  next hkind => exact absurd hkind hmessage
  · exact r.fault_ends hF rfl _

end Families

theorem expr_ends (fuel : Nat) (node : Option Json) (place : String) :
    Ends F (fun e => Present .expr node ∧ r.Formed e) (r.expr fuel node place) := by
  induction fuel generalizing node place with
  | zero =>
    cases node with
    | none => exact hF.fault rfl
    | some node => exact hF.dead
  | succ fuel ih =>
    cases node with
    | none => exact hF.fault rfl
    | some node => exact r.node_ends hF ih

/-- Every expression and every declared type in the statement is as this reading forms them. -/
abbrev FormedStmt (s : Stmt) : Prop := s.Throughout (Expr.Formed r.Typed) r.Typed

theorem varDecl_ends (fuel : Nat) (node : Option Json) (place : String) :
    Ends F (fun v => Present .var node ∧ r.Typed v.type ∧ ∀ e ∈ v.init, r.Formed e)
      (r.varDecl fuel node place) := by
  cases node with
  | none => exact hF.fault rfl
  | some node =>
    rw [Reading.varDecl]
    split
    · exact hF.fault rfl
    next hkind =>
      refine (r.type_ends hF fuel _ _).bind fun type htype => ?_
      refine (optional_ends (r.expr_ends hF fuel) _ _).bind fun init hinit => ?_
      refine ends_ok ⟨⟨node, rfl, .of_filled ?_⟩, htype.2, hinit.2⟩
      simp [Decidable.not_not.mp hkind, htype.1, hinit.1]

theorem switchCase_ends (fuel : Nat) {stmt : Option Json → String → Result Stmt}
    (hstmt : ∀ node place, Ends F (fun s => Present .stmt node ∧ r.FormedStmt s) (stmt node place))
    (node : Option Json) (place : String) :
    Ends F (fun c => Present .arm node ∧ (∀ e ∈ c.label, r.Formed e) ∧ ∀ s ∈ c.body, r.FormedStmt s)
      (r.switchCase fuel stmt node place) := by
  cases node with
  | none => exact hF.dead
  | some node =>
    have hrest : ∀ label : Option Expr,
        (∀ c ∈ Role.arm.required node, Present c.2 (get? c.1 node)) → (∀ e ∈ label, r.Formed e) →
        Ends F (fun c => Present .arm (some node) ∧ (∀ e ∈ c.label, r.Formed e) ∧
          ∀ s ∈ c.body, r.FormedStmt s) (do
            let body ← indexed stmt (place ++ ".stmts") 0 (itemsAt "stmts" node)
            .ok (SwitchCase.mk (r.position node) label body)) := by
      intro label hrequired hlabel
      refine (indexed_ends hstmt _ _ _).bind fun body hbody => ?_
      refine ends_ok ⟨⟨node, rfl, .of_filled ⟨trivial, hrequired, List.forall_mem_nil _, ?_⟩⟩,
        hlabel, hbody.2⟩
      exact List.forall_mem_singleton.mpr hbody.1
    rw [Reading.switchCase]
    split
    next hdefault =>
      refine hrest none (by simp [hdefault]) ?_
      intro e he
      cases he
    next hlabelled =>
      refine (r.expr_ends hF fuel _ _).bind fun label hlabel => ?_
      refine hrest (some label) (by simp [hlabelled, hlabel.1]) ?_
      intro e he
      cases he
      exact hlabel.2

omit hF in
theorem stmt_read {s : Stmt} (hfilled : Role.stmt.Filled node) (hs : r.FormedStmt s) :
    Ends F (fun s => Present .stmt (some node) ∧ r.FormedStmt s) (.ok s) :=
  ends_ok ⟨⟨node, rfl, .of_filled hfilled⟩, hs⟩

theorem stmt_ends (fuel : Nat) (node : Option Json) (place : String) :
    Ends F (fun s => Present .stmt node ∧ r.FormedStmt s) (r.stmt fuel node place) := by
  induction fuel generalizing node place with
  | zero =>
    cases node with
    | none => exact hF.fault rfl
    | some node => exact hF.dead
  | succ fuel ih =>
    cases node with
    | none => exact hF.fault rfl
    | some node =>
      have hexpr := r.expr_ends hF fuel
      have hexpr? := optional_ends hexpr
      have hstmt? := optional_ends ih
      have hcases := r.switchCase_ends hF fuel ih
      rw [Reading.stmt]
      dsimp only
      split
      next hcompound =>
        refine (indexed_ends ih _ _ _).bind fun body hbody => ?_
        exact r.stmt_read (by simpa [hcompound] using hbody.1)
          (.plain rfl rfl (List.forall_mem_nil _) hbody.2)
      next hif =>
        refine (hexpr _ _).bind fun cond hcond => (ih _ _).bind fun then_ hthen => ?_
        refine (hstmt? _ _).bind fun else_ helse => ?_
        refine r.stmt_read (by simp [hif, hcond.1, hthen.1, helse.1])
          (.plain rfl rfl (List.forall_mem_singleton.mpr hcond.2) ?_)
        exact List.forall_mem_cons.mpr ⟨hthen.2, fun t ht => helse.2 t (Option.mem_toList.mp ht)⟩
      next hwhile =>
        refine (hexpr _ _).bind fun cond hcond => (ih _ _).bind fun body hbody => ?_
        exact r.stmt_read (by simp [hwhile, hcond.1, hbody.1]) (.plain rfl rfl
          (List.forall_mem_singleton.mpr hcond.2) (List.forall_mem_singleton.mpr hbody.2))
      next hdo =>
        refine (ih _ _).bind fun body hbody => (hexpr _ _).bind fun cond hcond => ?_
        exact r.stmt_read (by simp [hdo, hcond.1, hbody.1]) (.plain rfl rfl
          (List.forall_mem_singleton.mpr hcond.2) (List.forall_mem_singleton.mpr hbody.2))
      next hfor =>
        refine (hstmt? _ _).bind fun init hinit => (hexpr? _ _).bind fun cond hcond => ?_
        refine (hexpr? _ _).bind fun inc hinc => (ih _ _).bind fun body hbody => ?_
        refine r.stmt_read (by simp [hfor, hinit.1, hcond.1, hinc.1, hbody.1])
          (.plain rfl rfl ?_ ?_)
        · refine List.forall_mem_append.mpr ⟨?_, ?_⟩
          · exact fun e he => hcond.2 e (Option.mem_toList.mp he)
          · exact fun e he => hinc.2 e (Option.mem_toList.mp he)
        · refine List.forall_mem_append.mpr ⟨?_, List.forall_mem_singleton.mpr hbody.2⟩
          exact fun t ht => hinit.2 t (Option.mem_toList.mp ht)
      next hswitch =>
        refine (hexpr _ _).bind fun cond hcond => ?_
        refine (indexed_ends hcases _ _ _).bind fun cases hcases => ?_
        refine r.stmt_read (by simpa [hswitch, hcond.1] using hcases.1)
          (.mk (List.forall_mem_singleton.mpr hcond.2) ?_ (List.forall_mem_nil _) ?_)
        · exact fun c hc label hlabel => (hcases.2 c hc).1 label hlabel
        · intro t ht
          obtain ⟨c, hc, ht⟩ := List.mem_flatMap.mp ht
          exact (hcases.2 c hc).2 t ht
      next hbreak =>
        exact r.stmt_read (by simp [hbreak])
          (.plain rfl rfl (List.forall_mem_nil _) (List.forall_mem_nil _))
      next hcontinue =>
        exact r.stmt_read (by simp [hcontinue])
          (.plain rfl rfl (List.forall_mem_nil _) (List.forall_mem_nil _))
      next hnull =>
        exact r.stmt_read (by simp [hnull])
          (.plain rfl rfl (List.forall_mem_nil _) (List.forall_mem_nil _))
      next hreturn =>
        refine (hexpr? _ _).bind fun value hvalue => ?_
        exact r.stmt_read (by simp [hreturn, hvalue.1])
          (.plain rfl rfl (fun e he => hvalue.2 e (Option.mem_toList.mp he))
            (List.forall_mem_nil _))
      next hdecl =>
        refine (indexed_ends (r.varDecl_ends hF fuel) _ _ _).bind fun vars hvars => ?_
        refine r.stmt_read (by simpa [hdecl] using hvars.1)
          (.mk ?_ (List.forall_mem_nil _) (fun v hv => (hvars.2 v hv).1) (List.forall_mem_nil _))
        intro e he
        obtain ⟨v, hv, he⟩ := List.mem_filterMap.mp he
        exact (hvars.2 v hv).2 e he
      next hexpression =>
        refine (hexpr _ _).bind fun value hvalue => ?_
        exact r.stmt_read (by simp [hexpression, hvalue.1])
          (.plain rfl rfl (List.forall_mem_singleton.mpr hvalue.2) (List.forall_mem_nil _))
      · exact hF.fault rfl

omit hF in
theorem kind_of_compound {fuel : Nat} {place : String} {position : Position} {body : List Stmt}
    (h : r.stmt fuel (some node) place = .ok (.compound position body)) :
    textAt "kind" node = "compound" := by
  cases fuel with
  | zero => cases h
  | succ fuel =>
    rw [Reading.stmt] at h
    dsimp only at h
    split at h
    next hkind => exact hkind
    all_goals simp [Result.bind_eq_ok] at h

theorem param_ends (fuel : Nat) (node : Option Json) (place : String) :
    Ends F (fun p => Present .param node ∧ r.Typed p.type) (r.param fuel node place) := by
  cases node with
  | none => exact hF.dead
  | some node =>
    refine (r.type_ends hF fuel _ _).bind fun type htype => ?_
    exact ends_ok ⟨⟨node, rfl, .of_filled (by simp [htype.1])⟩, htype.2⟩

theorem body_ends (fuel : Nat) (node : Option Json) (place : String) :
    Ends F (fun body? => Allowed .block node ∧
      ∀ body, body?.map (·.1) = some body → ∀ s ∈ body, r.FormedStmt s)
        (r.body fuel node place) := by
  cases node with
  | none =>
    refine ends_ok ⟨allowed_none _, ?_⟩
    intro body hbody
    cases hbody
  | some node =>
    refine (r.stmt_ends hF fuel _ _).self.bind fun s hs => ?_
    obtain ⟨⟨⟨n, hn, hfull⟩, hformed⟩, hs⟩ := hs
    cases hn
    split
    next position body =>
      refine ends_ok ⟨?_, ?_⟩
      · intro n hn
        cases hn
        exact hfull.block (r.kind_of_compound hs)
      · intro body' hbody' t ht
        cases hbody'
        exact hformed.child ht
    · exact hF.fault rfl

/-- Every expression and every declared type in the declaration is as this reading forms them, and a
method has an owner. -/
def FormedDecl (d : Decl) : Prop :=
  d.Throughout (Expr.Formed r.Typed) r.Typed ∧ ∀ m, d = .method m → m.owner ≠ ""

theorem decl_ends (fuel : Nat) (node : Option Json) (place : String) :
    Ends F (fun d => Present .decl node ∧ r.FormedDecl d) (r.decl fuel node place) := by
  cases node with
  | none => exact hF.fault rfl
  | some node =>
    have hparams := indexed_ends (r.param_ends hF fuel)
    have htype := r.type_ends hF fuel
    have hbody := r.body_ends hF fuel
    rw [Reading.decl]
    split
    next hfunction =>
      refine (hparams _ _ _).bind fun params hparams => (htype _ _).bind fun result hresult => ?_
      refine (hbody _ _).bind fun body hbody => ends_ok ⟨⟨node, rfl, ?_⟩, ?_, ?_⟩
      · exact .of_filled (by simpa [hfunction, hresult.1, hbody.1] using hparams.1)
      · exact ⟨hresult.2, hparams.2, hbody.2⟩
      · intro m hm
        cases hm
    next hmethod =>
      refine (hparams _ _ _).bind fun params hparams => (htype _ _).bind fun result hresult => ?_
      refine (hbody _ _).bind fun body hbody => ?_
      split
      · exact hF.fault rfl
      next howner =>
        refine ends_ok ⟨⟨node, rfl, ?_⟩, ?_, ?_⟩
        · exact .of_filled (by simpa [hmethod, howner, hresult.1, hbody.1] using hparams.1)
        · exact ⟨hresult.2, hparams.2, hbody.2⟩
        · intro m hm
          cases hm
          exact howner
    next hvar =>
      refine (r.varDecl_ends hF fuel _ _).bind fun v hv => ?_
      refine ends_ok ⟨⟨node, rfl, ?_⟩, hv.2, ?_⟩
      · exact (hv.1.allowed node rfl).decl hvar
      · intro m hm
        cases hm
    · exact hF.fault rfl

theorem field_ends (fuel : Nat) (node : Option Json) (place : String) :
    Ends F (fun f => Present .field node ∧ r.Typed f.1.type) (r.field fuel node place) := by
  cases node with
  | none => exact hF.dead
  | some node =>
    refine (r.type_ends hF fuel _ _).bind fun type htype => ?_
    exact ends_ok ⟨⟨node, rfl, .of_filled (by simp [htype.1])⟩, htype.2⟩

theorem recordOf_ends (fuel : Nat) (entry : String × Json) :
    Ends F (fun record => Full .record entry.2 ∧ record.tag = ⟨entry.1, flagAt "union" entry.2⟩ ∧
      ∀ f ∈ record.fields, r.Typed f.type) (r.recordOf fuel entry) := by
  refine (indexed_ends (r.field_ends hF fuel) _ _ _).bind fun fields hfields => ?_
  refine ends_ok ⟨?_, rfl, ?_⟩
  · exact .of_filled (by simpa using hfields.1)
  · intro f hf
    obtain ⟨g, hg, rfl⟩ := List.mem_map.mp hf
    exact hfields.2 g hg

/-- Records are read in their order in the dump. -/
theorem records_ends (fuel : Nat) (entries : List (String × Json)) :
    Ends F (fun records => (∀ e ∈ entries, Full .record e.2) ∧
      records.map Record.tag = entries.map (fun e => ⟨e.1, flagAt "union" e.2⟩) ∧
      ∀ record ∈ records, ∀ f ∈ record.fields, r.Typed f.type) (r.records fuel entries) := by
  induction entries with
  | nil => exact ends_ok ⟨List.forall_mem_nil _, rfl, List.forall_mem_nil _⟩
  | cons entry entries ih =>
    refine (r.recordOf_ends hF fuel entry).bind fun first hfirst => ih.bind fun rest hrest => ?_
    refine ends_ok ⟨List.forall_mem_cons.mpr ⟨hfirst.1, hrest.1⟩, ?_,
      List.forall_mem_cons.mpr ⟨hfirst.2.2, hrest.2.2⟩⟩
    rw [List.map_cons, List.map_cons, hfirst.2.1, hrest.2.1]

end Reading

/-- The records and declarations of the dump have what they must have. -/
def FullUnit (dump : Json) : Prop :=
  (∀ entry ∈ membersOf (get? "records" dump), Full .record entry.2) ∧
    ∀ item ∈ itemsAt "decls" dump, Present .decl item

end Dump

namespace RecordTable

def named (table : RecordTable) (name : String) : Record := table.find ⟨name, false⟩

/-- The reference leads to the record of its name, and is the tag of that record. -/
def Denotes (table : RecordTable) (tag : RecordTag) : Prop :=
  table.find tag = table.named tag.name ∧ (table.named tag.name).tag = tag

end RecordTable

namespace Dump

/-- The unit has no gaps, literals that fit their types, methods with owners, no pointers to
functions, and one record for each name. -/
structure Loaded.WellFormed (l : Loaded) : Prop where
  decls : ∀ d ∈ l.unit.decls, d.Throughout
    (Expr.Formed (CType.Throughout (CType.Formed l.env.records.Denotes)))
    (CType.Throughout (CType.Formed l.env.records.Denotes))
  owners : ∀ m, .method m ∈ l.unit.decls → m.owner ≠ ""
  fields : ∀ r ∈ l.env.records, ∀ f ∈ r.fields,
    f.type.Throughout (CType.Formed l.env.records.Denotes)

/-- Tags are found in the order in which records are. -/
theorem Reading.denotes {r : Reading} {table : RecordTable} (h : table.map Record.tag = r.tags)
    (name : String) : table.Denotes (r.tag name) := by
  have hname := r.name_tag name
  unfold RecordTable.Denotes RecordTable.named RecordTable.find
  rw [hname]
  unfold Reading.tag
  rw [← h, List.find?_map]
  have hsame : (fun t : RecordTag => t.name == name) ∘ Record.tag =
      fun r => r.tag.name == name := rfl
  rw [hsame]
  cases List.find? (fun r : Record => r.tag.name == name) table with
  | none | some => exact ⟨rfl, rfl⟩

/-- What was read with the tags of its table is well formed. -/
theorem Loaded.WellFormed.of_reading {r : Reading} {l : Loaded}
    (htags : l.env.records.map Record.tag = r.tags) (hdecls : ∀ d ∈ l.unit.decls, r.FormedDecl d)
    (hfields : ∀ record ∈ l.env.records, ∀ f ∈ record.fields, r.Typed f.type) : l.WellFormed := by
  have htyped : ∀ t, r.Typed t → t.Throughout (CType.Formed l.env.records.Denotes) := by
    intro t ht
    refine ht.imp fun u hu => hu.imp fun tag htag => ?_
    rw [htag]
    exact Reading.denotes htags _
  refine ⟨?_, ?_, ?_⟩
  · intro d hd
    exact (hdecls d hd).1.imp (fun e he => he.imp fun x hx => hx.imp htyped) htyped
  · intro m hm
    exact (hdecls _ hm).2 m rfl
  · intro record hrecord f hf
    exact htyped _ (hfields record hrecord f hf)

theorem resolve_ends (hF : Reports F) (path : String) (markers : Markers) (dump : Json) :
    Ends F (fun loaded => FullUnit dump ∧ loaded.WellFormed) (resolve path markers dump) := by
  unfold resolve
  dsimp only
  split
  · exact hF.dead
  · refine (Reading.records_ends _ hF _ _).bind fun records hrecords => ?_
    refine (indexed_ends (Reading.decl_ends _ hF _) _ _ _).bind fun decls hdecls => ?_
    have htable := TypeEnv.records_of_fresh
      (TypeEnv.ofMarkers markers.passThrough markers.listRecord records).rememberAll_fresh
    refine ends_ok ⟨⟨hrecords.1, hdecls.1⟩, .of_reading ?_ hdecls.2 ?_⟩
    · exact (congrArg (List.map Record.tag) htable).trans hrecords.2.1
    · intro record hrecord
      rw [htable] at hrecord
      exact hrecords.2.2 record hrecord

/-- The text starts with a full dump, and the unit is well formed. -/
abbrev ReadFrom (text : String) (loaded : Loaded) : Prop :=
  (∃ j rest dump, Json.readFirst text = some (j, rest) ∧ canonical j = some dump ∧ FullUnit dump) ∧
    loaded.WellFormed

/-- Reading a dump ends in a crash or in a report, or in a unit that is well formed. -/
theorem ofText_ends (hF : Reports F) (path : String) (markers : Markers) (text : String) :
    Ends F (ReadFrom text) (ofText path markers text) := by
  unfold ofText ofJson
  split
  next j rest hread =>
    split
    next dump hdump =>
      exact (resolve_ends hF path markers dump).imp fun loaded h =>
        ⟨⟨j, rest, dump, hread, hdump, h.1⟩, h.2⟩
    · exact hF.fault rfl
  · exact hF.fault rfl

theorem ofText_yields (path : String) (markers : Markers) (text : String) :
    Yields (ReadFrom text) (ofText path markers text) :=
  (ofText_ends reports_any path markers text).yields

theorem Reports.ofText (hF : Reports F) (path : String) (markers : Markers) (text : String) :
    FailsOnly F (Dump.ofText path markers text) :=
  (ofText_ends hF path markers text).fails

theorem Loaded.WellFormed.complete {l : Loaded} (h : l.WellFormed) : l.unit.Complete := by
  intro d hd
  exact (h.decls d hd).imp (fun e he => he.imp fun x hx => hx.ne_absent) fun _ _ => trivial

/-- A dump that is accepted has every child that its nodes must have. In its unit nothing is
missing, pointers to functions, literals, messages and methods are as they must be, and references
to records of the same name denote the same record. -/
theorem accepted_wellFormed {path : String} {markers : Markers} {text : String} {loaded : Loaded}
    (h : ofText path markers text = .ok loaded) :
    (∃ j rest dump, Json.readFirst text = some (j, rest) ∧ canonical j = some dump ∧
      FullUnit dump) ∧ loaded.unit.Complete ∧ loaded.WellFormed ∧
      ∀ a b, loaded.env.records.Denotes a → loaded.env.records.Denotes b → a.name = b.name →
        a = b ∧ loaded.env.records.find a = loaded.env.records.find b := by
  obtain ⟨hfull, hformed⟩ := ofText_yields path markers text loaded h
  refine ⟨hfull, hformed.complete, hformed, ?_⟩
  intro a b ha hb hname
  have hsame : a = b := by rw [← ha.2, ← hb.2, hname]
  exact ⟨hsame, congrArg loaded.env.records.find hsame⟩

theorem readFirst_ofList (cs : List Char) :
    Json.readFirst (String.ofList cs) = Json.readValue (2 * cs.length + 2) Json.maxNesting cs := by
  rw [Json.readFirst, String.toList_ofList]

/-- The dump is accepted, and its records hold only others of a lower rank. -/
def accepts (rank : String → Nat) (cs : List Char) : Bool :=
  match Json.readValue (2 * cs.length + 2) Json.maxNesting cs with
  | some (j, _) =>
      match ofJson "in.json" {} j with
      | .ok loaded => loaded.env.records.all fun r => r.fields.all fun f =>
          f.type.held?.all fun inner => rank inner.name < rank r.tag.name
      | .error _ => false
  | none => false

theorem accepts_spec {rank : String → Nat} {cs : List Char} (h : accepts rank cs = true) :
    ∃ loaded, ofText "in.json" {} (String.ofList cs) = .ok loaded ∧
      loaded.env.records.Acyclic := by
  unfold accepts at h
  cases hread : Json.readValue (2 * cs.length + 2) Json.maxNesting cs with
  | none =>
    rw [hread] at h
    cases h
  | some first =>
    rw [hread] at h
    dsimp only at h
    cases hloaded : ofJson "in.json" {} first.1 with
    | error f =>
      rw [hloaded] at h
      cases h
    | ok loaded =>
      rw [hloaded] at h
      refine ⟨loaded, ?_, RecordTable.acyclic_of_rank rank fun r hr f hf inner hheld => ?_⟩
      · unfold ofText
        rw [readFirst_ofList, hread]
        exact hloaded
      · have hlower := List.all_eq_true.mp (List.all_eq_true.mp h r hr) f hf
        rw [hheld] at hlower
        exact of_decide_eq_true hlower

/-- The text of a list whose nodes hold pairs, of a function with a switch, a method that sends a
message, and a string. -/
def sampleParts : List String :=
  ["\x7b\"records\":\x7b", "\"pair\":\x7b\x7d,", "\"node\":\x7b\"fields\":[",
    "\x7b\"name\":\"head\",\"type\":", "\x7b\"kind\":\"record\",", "\"name\":\"pair\"\x7d\x7d,",
    "\x7b\"name\":\"next\",\"type\":", "\x7b\"kind\":\"pointer\",\"pointee\":",
    "\x7b\"kind\":\"record\",", "\"name\":\"node\"\x7d\x7d\x7d]\x7d\x7d,",
    "\"decls\":[\x7b\"kind\":\"function\",", "\"result\":\x7b\"kind\":\"void\"\x7d,",
    "\"body\":\x7b\"kind\":\"compound\",", "\"stmts\":[", "\x7b\"kind\":\"switch\",\"cond\":",
    "\x7b\"kind\":\"sizeof\",\"arg\":", "\x7b\"kind\":\"record\",", "\"name\":\"node\"\x7d\x7d,",
    "\"cases\":[", "\x7b\"label\":\x7b\"kind\":\"int\",", "\"value\":1\x7d\x7d,",
    "\x7b\"default\":true\x7d]\x7d]\x7d\x7d,", "\x7b\"kind\":\"method\",\"owner\":\"A\",",
    "\"result\":\x7b\"kind\":\"void\"\x7d,", "\"body\":\x7b\"kind\":\"compound\",",
    "\"stmts\":[\x7b\"kind\":\"expr\",", "\"expr\":", "\x7b\"kind\":\"message\",",
    "\"class\":\"A\"\x7d\x7d]\x7d\x7d,", "\x7b\"kind\":\"var\",\"type\":",
    "\x7b\"kind\":\"object\"\x7d,", "\"init\":\x7b\"kind\":\"string\",",
    "\"value\":\"ab\",\"type\":", "\x7b\"kind\":\"array\",\"len\":3,",
    "\"elem\":\x7b\"kind\":\"void\"\x7d\x7d\x7d\x7d]\x7d"]

def sample : String := String.ofList (sampleParts.flatMap String.toList)

theorem sample_accepted : ∃ loaded, ofText "in.json" {} sample = .ok loaded ∧
    loaded.env.records.Acyclic := by
  have haccepts : accepts (fun name => if name = "node" then 1 else 0)
      (sampleParts.flatMap String.toList) = true := by
    decide +kernel
  exact accepts_spec haccepts

theorem accepted_wellFormed_sample : ∃ loaded, ofText "in.json" {} sample = .ok loaded ∧
    loaded.unit.Complete ∧ loaded.WellFormed := by
  obtain ⟨loaded, hloaded, -⟩ := sample_accepted
  obtain ⟨-, hcomplete, hformed, -⟩ := accepted_wellFormed hloaded
  exact ⟨loaded, hloaded, hcomplete, hformed⟩

end Dump

end DartLowering
