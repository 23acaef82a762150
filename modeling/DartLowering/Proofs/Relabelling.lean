import DartLowering.Proofs.Supported

/-!
Units that differ in labels only: the positions of their nodes, how their types are written and
which conversions are explicit. A `Relabelling` says how each label is replaced, and `relabel`
applies it throughout a piece of syntax. The shape of the syntax stays, so whatever looks at shapes
alone commutes with it.
-/
namespace DartLowering

/-- The number of parameters and whether more arguments may follow. -/
def Prototype.shape (p : Prototype) : Nat × Bool := (p.params.length, p.variadic)

structure Relabelling where
  type : CType → CType
  place : Position → Position
  explicit : Bool → Bool

/-- `f` of the types that a type is directly made of. -/
def CType.mapParts (f : CType → CType) : CType → CType
  | .pointer t => .pointer (f t)
  | .functionPointer params result variadic =>
      .functionPointer (params.map f) (f result) variadic
  | .array elem length isVariable => .array (f elem) length isVariable
  | .function params result variadic => .function (params.map f) (f result) variadic
  | .alias name t => .alias name (f t)
  | .void => .void
  | .scalar s => .scalar s
  | .record tag => .record tag
  | .object className => .object className

/-- Types are replaced in their parts; only a type name may become something else, which stands for
the same type. -/
structure Relabelling.Structural (m : Relabelling) : Prop where
  parts : ∀ t, t.unalias = t → m.type t = t.mapParts m.type
  aliased : ∀ name t, (m.type (.alias name t)).unalias = (m.type t).unalias

section Syntax

variable (m : Relabelling)

def ExprInfo.relabel (info : ExprInfo) : ExprInfo :=
  ⟨m.place info.position, info.type.map m.type, info.constant⟩

mutual

def Expr.relabel : Expr → Expr
  | .absent => .absent
  | .int info value => .int (info.relabel m) value
  | .float info value => .float (info.relabel m) value
  | .string info bytes => .string (info.relabel m) bytes
  | .ref info name kind => .ref (info.relabel m) name kind
  | .binary info op lhs rhs => .binary (info.relabel m) op lhs.relabel rhs.relabel
  | .unary info op operand => .unary (info.relabel m) op operand.relabel
  | .call info callee args variadic builtin =>
      .call (info.relabel m) callee.relabel (relabelAll args) variadic builtin
  | .member info base arrow field => .member (info.relabel m) base.relabel arrow field
  | .subscript info base index => .subscript (info.relabel m) base.relabel index.relabel
  | .cast info kind operand isExplicit =>
      .cast (info.relabel m) kind operand.relabel (m.explicit isExplicit)
  | .sizeOf info arg => .sizeOf (info.relabel m) (m.type arg)
  | .listNext info list => .listNext (info.relabel m) list.relabel
  | .conditional info cond then_ else_ =>
      .conditional (info.relabel m) cond.relabel then_.relabel else_.relabel
  | .message info receiver selector args =>
      .message (info.relabel m) receiver.relabel selector (relabelAll args)
  | .classMessage info className selector args =>
      .classMessage (info.relabel m) className selector (relabelAll args)

def Expr.relabelAll : List Expr → List Expr
  | [] => []
  | e :: es => e.relabel :: relabelAll es

end

def VarDecl.relabel (v : VarDecl) : VarDecl :=
  ⟨m.place v.position, v.name, m.type v.type, v.init.map (Expr.relabel m)⟩

mutual

def Stmt.relabel : Stmt → Stmt
  | .compound position body => .compound (m.place position) (Stmt.relabelAll body)
  | .ifElse position cond then_ else_ =>
      .ifElse (m.place position) (cond.relabel m) then_.relabel (Stmt.relabelOption else_)
  | .whileLoop position cond body => .whileLoop (m.place position) (cond.relabel m) body.relabel
  | .doLoop position body cond => .doLoop (m.place position) body.relabel (cond.relabel m)
  | .forLoop position init cond inc body =>
      .forLoop (m.place position) (Stmt.relabelOption init) (cond.map (Expr.relabel m))
        (inc.map (Expr.relabel m)) body.relabel
  | .switch position cond cases =>
      .switch (m.place position) (cond.relabel m) (SwitchCase.relabelAll cases)
  | .brk position => .brk (m.place position)
  | .cont position => .cont (m.place position)
  | .ret position value => .ret (m.place position) (value.map (Expr.relabel m))
  | .decl position vars => .decl (m.place position) (vars.map (VarDecl.relabel m))
  | .expr position value => .expr (m.place position) (value.relabel m)
  | .null position => .null (m.place position)

def Stmt.relabelAll : List Stmt → List Stmt
  | [] => []
  | s :: ss => s.relabel :: Stmt.relabelAll ss

def Stmt.relabelOption : Option Stmt → Option Stmt
  | none => none
  | some s => some s.relabel

def SwitchCase.relabel : SwitchCase → SwitchCase
  | .mk position label body =>
      .mk (m.place position) (label.map (Expr.relabel m)) (Stmt.relabelAll body)

def SwitchCase.relabelAll : List SwitchCase → List SwitchCase
  | [] => []
  | c :: cs => c.relabel :: SwitchCase.relabelAll cs

end

def Param.relabel (p : Param) : Param := ⟨m.place p.position, p.name, m.type p.type⟩

def FuncDecl.relabel (d : FuncDecl) : FuncDecl where
  position := m.place d.position
  name := d.name
  params := d.params.map (Param.relabel m)
  result := m.type d.result
  body := d.body.map (Stmt.relabelAll m)
  bodyPosition := m.place d.bodyPosition
  variadic := d.variadic
  entry := d.entry

def MethodDecl.relabel (d : MethodDecl) : MethodDecl where
  position := m.place d.position
  owner := d.owner
  selector := d.selector
  params := d.params.map (Param.relabel m)
  result := m.type d.result
  body := d.body.map (Stmt.relabelAll m)
  bodyPosition := m.place d.bodyPosition
  classMethod := d.classMethod

def Decl.relabel : Decl → Decl
  | .func d => .func (d.relabel m)
  | .method d => .method (d.relabel m)
  | .var d => .var (d.relabel m)

def SourceUnit.relabel (u : SourceUnit) : SourceUnit :=
  { u with decls := u.decls.map (Decl.relabel m) }

end Syntax

variable {m : Relabelling}

section Types

theorem CType.unalias_ne_alias (t : CType) (name : String) (u : CType) :
    t.unalias ≠ .alias name u := by
  fun_induction CType.unalias t with
  | case1 _ t ih => exact ih
  | case2 t halias => exact fun h => halias name u h

theorem CType.unalias_unalias (t : CType) : t.unalias.unalias = t.unalias := by
  cases h : t.unalias with
  | «alias» name u => exact absurd h (t.unalias_ne_alias name u)
  | _ => rfl

namespace Relabelling.Structural

variable (hm : m.Structural) (t : CType)

include hm

theorem type_unalias : m.type t.unalias = t.unalias.mapParts m.type :=
  hm.parts t.unalias t.unalias_unalias

/-- Looking through type names commutes with replacing types. -/
theorem unalias : (m.type t).unalias = t.unalias.mapParts m.type := by
  fun_induction CType.unalias t with
  | case1 name t ih => rw [hm.aliased, ih]
  | case2 t halias =>
    cases t with
    | «alias» name t => exact absurd rfl (halias name t)
    | _ => rw [hm.parts _ rfl]; rfl

theorem scalar? : (m.type t).scalar? = t.scalar? := by
  unfold CType.scalar?
  rw [hm.unalias]
  cases t.unalias <;> rfl

theorem isInteger : (m.type t).isInteger = t.isInteger := by
  unfold CType.isInteger
  rw [hm.scalar?]

theorem record? : (m.type t).record? = t.record? := by
  unfold CType.record?
  rw [hm.unalias]
  cases t.unalias <;> rfl

theorem pointee? : (m.type t).pointee? = t.pointee?.map m.type := by
  unfold CType.pointee?
  rw [hm.unalias]
  cases h : t.unalias with
  | functionPointer params result variadic =>
    rw [Option.map_some, hm.parts (.function params result variadic) rfl]
    rfl
  | _ => rfl

/-- How many arguments the prototype of a pointee takes and whether more may follow. -/
theorem pointeeShape : ((m.type t).unalias.prototype?).map Prototype.shape =
    t.unalias.prototype?.map Prototype.shape := by
  rw [hm.unalias]
  cases t.unalias with
  | function => simp only [CType.mapParts, CType.prototype?, Option.map_some, Prototype.shape,
      List.length_map]
  | _ => rfl

theorem callableShape :
    (m.type t).callable?.map Prototype.shape = t.callable?.map Prototype.shape := by
  unfold CType.callable?
  rw [hm.unalias]
  cases t.unalias with
  | pointer u => exact hm.pointeeShape u
  | functionPointer | function =>
    simp only [CType.mapParts, Option.map_some, Prototype.shape, List.length_map]
  | _ => rfl

end Relabelling.Structural

end Types

section Expressions

@[simp] theorem relabelAll_eq_map (es : List Expr) :
    Expr.relabelAll m es = es.map (Expr.relabel m) := by
  induction es with
  | nil => rfl
  | cons e es ih => rw [Expr.relabelAll, ih, List.map_cons]

@[simp] theorem type_relabel (e : Expr) : (e.relabel m).type = e.type.map m.type := by
  cases e <;> rfl

theorem bind_relabel {α : Type} {f : CType → Option α} (hf : ∀ t, f (m.type t) = f t)
    (t? : Option CType) : (t?.map m.type).bind f = t?.bind f := by
  cases t? with
  | none => rfl
  | some t => exact hf t

theorem scalar?_relabel (hm : m.Structural) (e : Expr) : (e.relabel m).scalar? = e.scalar? := by
  rw [Expr.scalar?, type_relabel]
  exact bind_relabel hm.scalar? e.type

theorem isSigned_relabel (hm : m.Structural) (e : Expr) : (e.relabel m).isSigned = e.isSigned := by
  rw [Expr.isSigned, scalar?_relabel hm, Expr.isSigned]

@[simp] theorem stripTransparent_relabel (e : Expr) :
    (e.relabel m).stripTransparent = e.stripTransparent.relabel m := by
  fun_induction Expr.stripTransparent e with
  | case1 info kind operand isExplicit hkind ih =>
    rw [Expr.relabel, Expr.stripTransparent, if_pos hkind]
    exact ih
  | case2 info kind operand isExplicit hkind =>
    rw [Expr.relabel, Expr.stripTransparent, if_neg hkind]
  | case3 e hcast =>
    cases e with
    | cast => exact absurd rfl (hcast _ _ _ _)
    | _ => rfl

@[simp] theorem stripList_relabel (e : Expr) :
    (e.relabel m).stripList = e.stripList.relabel m := by
  fun_induction Expr.stripList e with
  | case1 info kind operand isExplicit hkind ih =>
    rw [Expr.relabel, Expr.stripList, if_pos hkind]
    exact ih
  | case2 info kind operand isExplicit hkind =>
    rw [Expr.relabel, Expr.stripList, if_neg hkind]
  | case3 e hcast =>
    cases e with
    | cast => exact absurd rfl (hcast _ _ _ _)
    | _ => rfl

theorem calleeName?_relabel (e : Expr) : (e.relabel m).calleeName? =
    e.calleeName?.map fun c => (c.1.relabel m, c.2) := by
  fun_induction Expr.calleeName? e with
  | case1 info kind operand isExplicit hkind ih =>
    rw [Expr.relabel, Expr.calleeName?, if_pos hkind]
    exact ih
  | case2 info kind operand isExplicit hkind =>
    rw [Expr.relabel, Expr.calleeName?, if_neg hkind]
    rfl
  | case3 => rfl
  | case4 e hcast href =>
    cases e with
    | cast => exact absurd rfl (hcast _ _ _ _)
    | ref => exact absurd rfl (href _ _ _)
    | _ => rfl

theorem directCallee?_relabel (e : Expr) : (e.relabel m).directCallee? =
    e.directCallee?.map fun c => (c.1.relabel m, c.2) := by
  unfold Expr.directCallee?
  rw [calleeName?_relabel]
  cases e.calleeName? with
  | none => rfl
  | some c =>
    dsimp only [Option.map_some]
    split <;> rfl

@[simp] theorem isListEnd_relabel (e : Expr) : (e.relabel m).isListEnd = e.isListEnd := by
  fun_induction Expr.isListEnd e with
  | case1 info kind operand isExplicit ih => rw [Expr.relabel, Expr.isListEnd, ih]
  | case2 => rfl
  | case3 e hcast hcall =>
    cases e with
    | cast => exact absurd rfl (hcast _ _ _ _)
    | call => exact absurd rfl (hcall _ _ _ _ _)
    | _ => rfl

@[simp] theorem targetName?_relabel (scope : Lower.Scope) (e : Expr) :
    Lower.targetName? scope (e.relabel m) = Lower.targetName? scope e := by
  unfold Lower.targetName?
  rw [stripTransparent_relabel]
  cases e.stripTransparent <;> rfl

@[simp] theorem functionName?_relabel (e : Expr) :
    Lower.functionName? (e.relabel m) = Lower.functionName? e := by
  cases e <;> rfl

@[simp] theorem literalBytes?_relabel (e : Expr) :
    Lower.literalBytes? (e.relabel m) = Lower.literalBytes? e := by
  unfold Lower.literalBytes?
  rw [stripTransparent_relabel]
  cases e.stripTransparent <;> rfl

end Expressions

section Statements

@[simp] theorem Stmt.relabelAll_eq_map (ss : List Stmt) :
    Stmt.relabelAll m ss = ss.map (Stmt.relabel m) := by
  induction ss with
  | nil => rfl
  | cons s ss ih => rw [Stmt.relabelAll, ih, List.map_cons]

@[simp] theorem Stmt.relabelOption_eq_map (s? : Option Stmt) :
    Stmt.relabelOption m s? = s?.map (Stmt.relabel m) := by
  cases s? <;> rfl

@[simp] theorem SwitchCase.relabelAll_eq_map (cs : List SwitchCase) :
    SwitchCase.relabelAll m cs = cs.map (SwitchCase.relabel m) := by
  induction cs with
  | nil => rfl
  | cons c cs ih => rw [SwitchCase.relabelAll, ih, List.map_cons]

@[simp] theorem isDefault_relabel (c : SwitchCase) : (c.relabel m).isDefault = c.isDefault := by
  obtain ⟨position, label, body⟩ := c
  cases label <;> rfl

theorem FuncDecl.body_relabel (d : FuncDecl) :
    (d.relabel m).body = d.body.map (List.map (Stmt.relabel m)) := by
  simp only [FuncDecl.relabel, funext Stmt.relabelAll_eq_map]

theorem MethodDecl.body_relabel (d : MethodDecl) :
    (d.relabel m).body = d.body.map (List.map (Stmt.relabel m)) := by
  simp only [MethodDecl.relabel, funext Stmt.relabelAll_eq_map]

namespace Lower

theorem labelsFrom_relabel (total next : Nat) (cs : List SwitchCase) :
    labelsFrom total next (cs.map (SwitchCase.relabel m)) = labelsFrom total next cs := by
  induction cs generalizing next with
  | nil => rfl
  | cons c cs ih => rw [List.map_cons, labelsFrom, labelsFrom, isDefault_relabel, ih, ih]

theorem caseLabels_relabel (cs : List SwitchCase) :
    caseLabels (cs.map (SwitchCase.relabel m)) = caseLabels cs := by
  unfold caseLabels
  rw [labelsFrom_relabel, List.countP_map]
  congr 2
  funext c
  exact congrArg not (isDefault_relabel c)

theorem secondDefault?_relabel (cs : List SwitchCase) :
    secondDefault? (cs.map (SwitchCase.relabel m)) =
      (secondDefault? cs).map (SwitchCase.relabel m) := by
  unfold secondDefault?
  have hfilter : SwitchCase.isDefault ∘ SwitchCase.relabel m = SwitchCase.isDefault :=
    funext isDefault_relabel
  rw [List.filter_map, hfilter, List.getElem?_map]

theorem endsInJump_relabel (body : List Stmt) :
    endsInJump (body.map (Stmt.relabel m)) = endsInJump body := by
  unfold endsInJump
  rw [List.getLast?_map]
  cases body.getLast? with
  | none => rfl
  | some s => cases s <;> rfl

theorem caseExit_relabel (depth : Nat) (following : List Nat) (body : List Stmt) :
    caseExit depth following (body.map (Stmt.relabel m)) = caseExit depth following body := by
  unfold caseExit
  rw [endsInJump_relabel]

def Item.relabel (m : Relabelling) : Item → Item
  | .function d body => .function (d.relabel m) (body.map (Stmt.relabel m))
  | .variable d => .variable (d.relabel m)
  | .class owner ms =>
      .class owner (ms.map fun q => (q.1.relabel m, q.2.map (Stmt.relabel m)))

theorem methodsOf_relabel (owner : String) (ds : List Decl) :
    methodsOf owner (ds.map (Decl.relabel m)) =
      (methodsOf owner ds).map fun q => (q.1.relabel m, q.2.map (Stmt.relabel m)) := by
  induction ds with
  | nil => rfl
  | cons d ds ih =>
    cases d with
    | func | var => exact ih
    | method d =>
      rw [List.map_cons, Decl.relabel, methodsOf, methodsOf, d.body_relabel, ih]
      cases d.body with
      | none => rfl
      | some body =>
        dsimp only [Option.map_some]
        rw [apply_ite (List.map _), List.map_cons]
        rfl

theorem planFrom_relabel (seen : List String) (ds : List Decl) :
    planFrom seen (ds.map (Decl.relabel m)) = (planFrom seen ds).map (Item.relabel m) := by
  induction ds generalizing seen with
  | nil => rfl
  | cons d ds ih =>
    cases d with
    | var d => exact congrArg _ (ih seen)
    | func d =>
      rw [List.map_cons, Decl.relabel, planFrom, planFrom, d.body_relabel, ih]
      cases d.body <;> rfl
    | method d =>
      rw [List.map_cons, Decl.relabel, planFrom, planFrom, d.body_relabel]
      cases d.body with
      | none => exact ih seen
      | some body =>
        dsimp only [Option.map_some]
        rw [apply_ite (List.map _), List.map_cons, ← ih, ← ih, Item.relabel, List.map_cons,
          ← methodsOf_relabel]
        rfl

end Lower

end Statements

end DartLowering
