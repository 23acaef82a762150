import DartLowering.Lower.Expr
import DartLowering.Proofs.Result
import DartLowering.Proofs.SubExpr
import Mathlib.Data.List.Forall2

/-!
What the code of an expression is made of. The text that is emitted for a node is a row of parts:
texts of the node's own, the codes of children that are emitted in their turn, and names or literals
of children that are written without being emitted. `parts` lists them without looking into the
children's code. A row `Spells` a text when its parts make it up, and `Shows` the children when each
of them that is wanted stands in it once, in order.
-/
namespace DartLowering.Lower

open DartLowering.Expr

section Opening

variable {env : TypeEnv} {scope : Scope} {e : Expr} {peel : Bool} {code : Code}

theorem orConstant_eq_ok {node : Unit → Result Code}
    (hc : env.constant? e = none) : orConstant env e node = .ok code ↔ node () = .ok code := by
  simp only [orConstant, hc, Result.locate_eq_ok]

theorem expr_constant {v : Int64} (hpeel : (peel && e.isPeeled) = false)
    (hc : env.constant? e = some v) (h : expr env scope peel e = .ok code) :
    constantCode e.info v = .ok code := by
  have hor : ∀ node : Unit → Result Code, orConstant env e node = .ok code →
      constantCode e.info v = .ok code := by
    intro node hnode
    simpa only [orConstant, hc, Result.locate_eq_ok] using hnode
  rw [expr.eq_def] at h
  cases e with
  | absent => cases h
  | cast info kind operand isExplicit =>
    dsimp only at h
    rw [if_neg (by simpa [isPeeled] using hpeel)] at h
    exact hor _ h
  | _ => exact hor _ h

theorem expr_peeled (hpeel : (peel && e.isPeeled) = true)
    (h : expr env scope peel e = .ok code) :
    ∃ info kind operand isExplicit, e = .cast info kind operand isExplicit ∧
      expr env scope true operand = .ok code := by
  cases e with
  | cast info kind operand isExplicit =>
    rw [expr, if_pos (by simpa [isPeeled] using hpeel)] at h
    exact ⟨info, kind, operand, isExplicit, rfl, h⟩
  | _ => simp [isPeeled] at hpeel

theorem expr_of_not_peeled (h : e.isPeeled = false) :
    expr env scope peel e = expr env scope false e := by
  rw [expr.eq_def env scope peel, expr.eq_def env scope false]
  cases e with
  | cast info kind operand isExplicit =>
    simp only [isPeeled] at h
    simp only [h, Bool.and_false]
  | _ => rfl

/-- Passing over conversions comes to the code of what lies below them. -/
theorem expr_stripList : expr env scope true e = expr env scope false e.stripList := by
  fun_induction Expr.stripList e with
  | case1 info kind operand isExplicit hkind ih =>
    rw [expr, if_pos (by simpa using hkind)]
    exact ih
  | case2 info kind operand isExplicit hkind =>
    exact expr_of_not_peeled (by simpa [Expr.isPeeled] using hkind)
  | case3 e hcast =>
    cases e with
    | cast => exact absurd rfl (hcast _ _ _ _)
    | _ => exact expr_of_not_peeled rfl

/-- The code of such an expression is a name or stands in parentheses of its own. -/
def isClosed : Expr → Bool
  | .ref _ _ _ | .conditional _ _ _ _ | .listNext _ _ => true
  | _ => false

theorem isBare_eq : isBare env e = (isClosed e.stripTransparent || (env.constant? e).isSome) := by
  unfold isBare
  split
  · rename_i heq
    simp [heq, isClosed]
  · rename_i heq
    simp [heq, isClosed]
  · rename_i heq
    simp [heq, isClosed]
  · rename_i href hconditional hnext
    have hopen : isClosed e.stripTransparent = false := by
      unfold isClosed
      split
      · rename_i heq
        exact absurd heq (href _ _ _)
      · rename_i heq
        exact absurd heq (hconditional _ _ _ _)
      · rename_i heq
        exact absurd heq (hnext _ _)
      · rfl
    rw [hopen, Bool.false_or]

end Opening

/-- A part of the text that is emitted for a node. -/
inductive Part
  /-- A text of the node's own. -/
  | own (text : String)
  /-- The code of a child. -/
  | visit (child : Nat) (peel : Bool)
  /-- A name or literal at the bottom of a child, which is not emitted itself. -/
  | leaf (path : List Nat) (text : String)

def Part.child? : Part → Option Nat
  | .own _ => none
  | .visit child _ => some child
  | .leaf path _ => path.head?

def resultText : Result Code → String
  | .ok code => code.text
  | .error _ => ""

def calling (method : String) : String := "." ++ method ++ "("

/-- A child where a method call follows it. -/
def receiverParts (env : TypeEnv) (x : Expr) (child : Part) : List Part :=
  if isBare env x then [child] else [.own "(", child, .own ")"]

/-- A child as a test. -/
def conditionParts (env : TypeEnv) (x : Expr) (child : Part) : List Part :=
  let isFloat := x.scalar?.any fun s => s.kind.isFloat
  receiverParts env x child ++
    [.own (calling (if isFloat then "doubleValue" else "intValue") ++ ")" ++ " != 0")]

/-- A child as an argument. -/
def copyParts (env : TypeEnv) (x : Expr) (child : Part) : List Part :=
  if isValue env x.type then receiverParts env x child ++ [.own (calling "copy" ++ ")")]
  else [child]

/-- The arguments of a call, the first of them child `i`. -/
def argumentParts (env : TypeEnv) (i : Nat) : List Expr → List (List Part)
  | [] => []
  | x :: xs => copyParts env x (.visit i false) :: argumentParts env (i + 1) xs

def commaParts : List (List Part) → List Part
  | [] => []
  | [ps] => ps
  | ps :: qs :: rest => ps ++ .own ", " :: commaParts (qs :: rest)

/-- The first `fixed` arguments, and a list of the others for a variadic callee. -/
def packParts (fixed : Nat) (variadic : Bool) (args : List (List Part)) : List Part :=
  if variadic then
    commaParts (args.take fixed ++
      [.own (Wrapper.varArgs ++ "(" ++ "[") :: commaParts (args.drop fixed) ++ [.own ("]" ++ ")")]])
  else commaParts (args.take fixed)

/-- What a view adds after a pointer. -/
def viewText (view : Option (String × List Code)) : String :=
  match view with
  | none => ""
  | some (method, args) => calling method ++ Text.join ", " (Code.texts args) ++ ")"

/-- A compound assignment. A target that is a name is written twice, any other is evaluated once
into a temporary. -/
def compoundParts (scope : Scope) (method : String) (lhs : Expr) : List Part :=
  match targetName? scope lhs with
  | some target =>
      [.leaf (0 :: lhs.bottom) target.text, .own (calling "set"),
        .leaf (0 :: lhs.bottom) target.text, .own (calling method), .visit 1 false,
        .own (")" ++ ")")]
  | none =>
      [.own ("() \x7b var " ++ Code.temporary ++ " = "), .visit 0 false,
        .own ("; return " ++ Code.temporary ++ calling "set" ++ Code.temporary ++ calling method),
        .visit 1 false, .own (")" ++ ")" ++ "; \x7d()")]

def binaryParts (env : TypeEnv) (scope : Scope) (op : BinaryOp) (lhs : Expr) : List Part :=
  let invoking (method : String) : List Part :=
    receiverParts env lhs (.visit 0 false) ++ [.own (calling method), .visit 1 false, .own ")"]
  match op with
  | .comma =>
      [.own "() \x7b ", .visit 0 false, .own "; return ", .visit 1 false, .own "; \x7d()"]
  | .assign => invoking "set"
  | .logicalAnd | .logicalOr =>
      let method := if op = .logicalAnd then "and" else "or"
      receiverParts env lhs (.visit 0 false) ++
        [.own (calling method ++ "() => "), .visit 1 false, .own ")"]
  | .memberOfObject | .memberOfPointer => []
  | op =>
      match op.compoundBase?.bind binaryMethod? with
      | some method => compoundParts scope method lhs
      | none =>
          match binaryMethod? op with
          | none => []
          | some method => invoking method

def unaryParts (env : TypeEnv) (op : UnaryOp) (operand : Expr) : List Part :=
  match op with
  | .plus => [.visit 0 false]
  | .real | .imag => []
  | op =>
      match if op = .addressOf then functionName? operand else none with
      | some name =>
          [.own (Wrapper.functionPointer ++ "("), .leaf [0] (identifier name), .own ")"]
      | none =>
          match unaryMethod? op with
          | none => []
          | some method =>
              receiverParts env operand (.visit 0 false) ++ [.own (calling method ++ ")")]

def callParts (env : TypeEnv) (info : ExprInfo) (callee : Expr) (args : List Expr)
    (variadic : Bool) (builtin : Builtin) : List Part :=
  match builtin with
  | .listStart =>
      [.own (Wrapper.varArgs ++ calling "start"), .visit 1 true, .own (", " ++ varArgsParam ++ ")")]
  | .listCopy =>
      [.own (Wrapper.varArgs ++ calling "copy"), .visit 1 true, .own ", ", .visit 2 true, .own ")"]
  | .listEnd => [.own "null"]
  | .none =>
      match callShape info callee args variadic with
      | .error _ => []
      | .ok (fixed, variadic) =>
          match callee.directCallee? with
          | some (_, name) =>
              .leaf (0 :: callee.bottom) (identifier name) :: .own "(" ::
                packParts fixed variadic (argumentParts env 1 args) ++ [.own ")"]
          | none =>
              .own ("Function" ++ calling "apply") :: receiverParts env callee (.visit 0 false) ++
                .own ("." ++ "function" ++ ", " ++ "[") ::
                packParts fixed variadic (argumentParts env 1 args) ++ [.own ("]" ++ ")")]

/-- The text after the record in a member access. -/
def accessText (env : TypeEnv) (position : Position) (base : Expr) (arrow : Bool)
    (field : String) : String :=
  match resolveMember env position base arrow field with
  | .error _ => ""
  | .ok access =>
      (if arrow then calling "dereference" ++ ")" else "") ++
        resultText (accessCode env access (.name ""))

def planParts (env : TypeEnv) (operand : Expr) : CastPlan → List Part
  | .keep => [.visit 0 false]
  | .functionPointer => [.own (Wrapper.functionPointer ++ "("), .visit 0 false, .own ")"]
  | .toBoolean wrapper =>
      .own (wrapper ++ calling "fromInt") :: conditionParts env operand (.visit 0 false) ++
        [.own (" ? " ++ (Code.int 1).text ++ " : " ++ (Code.int 0).text ++ ")")]
  | .method name view =>
      receiverParts env operand (.visit 0 false) ++ [.own (calling name ++ ")" ++ viewText view)]
  | .retype view => receiverParts env operand (.visit 0 false) ++ [.own (viewText (some view))]
  | .literal bytes view =>
      [.leaf (0 :: operand.bottom) (stringCode bytes).text, .own (viewText view)]
  | .union size =>
      [.own ((onClass Wrapper.composite "local" [.int size]).text ++ calling "set"),
        .visit 0 false, .own ")"]

def castParts (env : TypeEnv) (info : ExprInfo) (kind : CastKind) (operand : Expr) : List Part :=
  match castPlan env info kind operand with
  | .error _ => []
  | .ok plan => planParts env operand plan

/-- The parts of a node that is no constant. -/
def nodeParts (env : TypeEnv) (scope : Scope) : Expr → List Part
  | .absent => []
  | .int info value => [.own (resultText (constantCode info value))]
  | .float info value => [.own (floatCode info value).text]
  | .string _ bytes => [.own (stringCode bytes).text]
  | .ref _ name kind => [.own (refCode scope name kind).text]
  | .binary _ op lhs _ => binaryParts env scope op lhs
  | .unary _ op operand => unaryParts env op operand
  | .call info callee args variadic builtin => callParts env info callee args variadic builtin
  | .member info base arrow field =>
      receiverParts env base (.visit 0 false) ++
        [.own (accessText env info.position base arrow field)]
  | .subscript _ base _ =>
      receiverParts env base (.visit 0 false) ++
        [.own (calling "add"), .visit 1 false, .own (")" ++ calling "dereference" ++ ")")]
  | .cast info kind operand _ => castParts env info kind operand
  | .sizeOf _ arg =>
      [.own (match env.sizeOf arg with
        | .ok size => (onClass Wrapper.uint64 "fromInt" [.int size]).text
        | .error _ => "")]
  | .listNext info list =>
      .own "(" :: receiverParts env list.stripList (.visit 0 true) ++
        [.own (calling "next" ++ ")" ++ " as " ++
          ((TypeEnv.onType env.mapType info.type).toOption.getD "") ++ ")")]
  | .conditional _ cond _ _ =>
      .own "(" :: conditionParts env cond (.visit 0 false) ++
        [.own " ? ", .visit 1 false, .own " : ", .visit 2 false, .own ")"]
  | .message _ receiver selector args =>
      receiverParts env receiver (.visit 0 false) ++ .own (calling (selectorName selector)) ::
        commaParts (argumentParts env 1 args) ++ [.own ")"]
  | .classMessage _ className selector args =>
      .own (identifier className ++ calling (selectorName selector)) ::
        commaParts (argumentParts env 0 args) ++ [.own ")"]

def parts (env : TypeEnv) (scope : Scope) (peel : Bool) (e : Expr) : List Part :=
  if peel && e.isPeeled then [.visit 0 true]
  else
    match env.constant? e with
    | some v => [.own (resultText (constantCode e.info v))]
    | none => nodeParts env scope e

section Spelling

variable {env : TypeEnv} {scope : Scope} {children : List Expr} {code : Code} {ps : List Part}
  {p : Part} {codes : List Code}

def Part.text (env : TypeEnv) (scope : Scope) (children : List Expr) : Part → String
  | .own text => text
  | .leaf _ text => text
  | .visit i peel =>
      match children[i]? with
      | some x => resultText (expr env scope peel x)
      | none => ""

def partsText (env : TypeEnv) (scope : Scope) (children : List Expr) : List Part → String
  | [] => ""
  | p :: ps => p.text env scope children ++ partsText env scope children ps

/-- A row of parts makes up a text, and every child it visits has code. -/
def Spells (env : TypeEnv) (scope : Scope) (children : List Expr) (ps : List Part)
    (text : String) : Prop :=
  text = partsText env scope children ps ∧
    ∀ i peel, .visit i peel ∈ ps →
      ∃ x code, children[i]? = some x ∧ expr env scope peel x = .ok code

theorem join_nil (sep : String) : Text.join sep [] = "" := rfl

theorem join_singleton (sep s : String) : Text.join sep [s] = s := by
  simp [Text.join]

theorem join_cons_cons (sep s t : String) (rest : List String) :
    Text.join sep (s :: t :: rest) = s ++ sep ++ Text.join sep (t :: rest) := by
  simp [Text.join, String.intercalate_cons_cons]

theorem spells_nil : Spells env scope children [] "" := ⟨rfl, by simp⟩

theorem spells_own (text : String) : Spells env scope children [.own text] text :=
  ⟨by simp [partsText, Part.text], by simp⟩

theorem spells_leaf (path : List Nat) (text : String) :
    Spells env scope children [.leaf path text] text :=
  ⟨by simp [partsText, Part.text], by simp⟩

theorem spells_visit {i : Nat} {peel : Bool} {x : Expr} (hx : children[i]? = some x)
    (hcode : expr env scope peel x = .ok code) :
    Spells env scope children [.visit i peel] code.text := by
  refine ⟨by simp [partsText, Part.text, hx, hcode, resultText], fun j peel' hmem => ?_⟩
  cases List.mem_singleton.mp hmem
  exact ⟨x, code, hx, hcode⟩

theorem partsText_append (ps qs : List Part) :
    partsText env scope children (ps ++ qs) =
      partsText env scope children ps ++ partsText env scope children qs := by
  induction ps with
  | nil => simp [partsText]
  | cons p ps ih => simp [partsText, ih, String.append_assoc]

theorem Spells.append {qs : List Part} {s t : String} (hs : Spells env scope children ps s)
    (ht : Spells env scope children qs t) : Spells env scope children (ps ++ qs) (s ++ t) := by
  refine ⟨by rw [partsText_append, ← hs.1, ← ht.1], fun i peel hmem => ?_⟩
  rcases List.mem_append.mp hmem with hmem | hmem
  · exact hs.2 i peel hmem
  · exact ht.2 i peel hmem

theorem Spells.cons {s t : String} (hs : Spells env scope children [p] s)
    (ht : Spells env scope children ps t) : Spells env scope children (p :: ps) (s ++ t) :=
  hs.append ht

theorem Spells.of_eq {s t : String} (h : Spells env scope children ps s) (hst : t = s) :
    Spells env scope children ps t :=
  hst ▸ h

theorem Spells.receiver (x : Expr) (h : Spells env scope children [p] code.text) :
    Spells env scope children (receiverParts env x p) (asReceiver env x code).text := by
  unfold receiverParts asReceiver
  split
  · exact h
  · refine ((spells_own "(").cons (h.cons (spells_own ")"))).of_eq ?_
    simp only [Code.text, String.append_assoc]

theorem Spells.condition (x : Expr) (h : Spells env scope children [p] code.text) :
    Spells env scope children (conditionParts env x p) (asCondition env x code).text := by
  refine ((h.receiver x).append (spells_own _)).of_eq ?_
  simp [asCondition, calling, Code.text, Code.texts, Text.join, String.append_assoc]

theorem Spells.copy (x : Expr) (h : Spells env scope children [p] code.text) :
    Spells env scope children (copyParts env x p) (asCopy env x code).text := by
  unfold copyParts asCopy
  split
  · refine ((h.receiver x).append (spells_own _)).of_eq ?_
    simp [calling, Code.text, Code.texts, Text.join, String.append_assoc]
  · exact h

theorem Spells.comma {args : List (List Part)}
    (h : List.Forall₂ (fun ps code => Spells env scope children ps code.text) args codes) :
    Spells env scope children (commaParts args) (Text.join ", " (Code.texts codes)) := by
  induction h with
  | nil => exact spells_nil
  | @cons ps code args codes hhead hrest ih =>
    cases hrest with
    | nil => exact hhead.of_eq (by simp [Code.texts, Text.join])
    | cons hnext hrest =>
      refine (hhead.append ((spells_own ", ").cons ih)).of_eq ?_
      simp only [Code.texts, join_cons_cons, String.append_assoc]

theorem spells_arguments {args : List Expr} {i : Nat} (hchildren : children.drop i = args)
    (hcodes : copies env scope args = .ok codes) :
    List.Forall₂ (fun ps code => Spells env scope children ps code.text)
      (argumentParts env i args) codes := by
  induction args generalizing i codes with
  | nil =>
    simp only [copies, Except.ok.injEq] at hcodes
    subst hcodes
    exact .nil
  | cons x xs ih =>
    simp only [copies, Result.bind_eq_ok, Except.ok.injEq] at hcodes
    obtain ⟨code, hcode, rest, hrest, rfl⟩ := hcodes
    have hx : children[i]? = some x := by
      rw [← List.head?_drop, hchildren]
      rfl
    have hdrop : children.drop (i + 1) = xs := by
      rw [← List.tail_drop, hchildren]
      rfl
    exact .cons ((spells_visit hx hcode).copy x) (ih hdrop hrest)

theorem Spells.pack {args : List (List Part)} (fixed : Nat) (variadic : Bool)
    (h : List.Forall₂ (fun ps code => Spells env scope children ps code.text) args codes) :
    Spells env scope children (packParts fixed variadic args)
      (Text.join ", " (Code.texts (packArguments fixed variadic codes))) := by
  have htake := List.forall₂_take fixed h
  have hdrop := List.forall₂_drop fixed h
  unfold packParts packArguments
  split
  · refine Spells.comma (List.rel_append htake (.cons ?_ .nil))
    refine ((spells_own _).cons ((Spells.comma hdrop).append (spells_own _))).of_eq ?_
    simp only [Code.text, Code.texts, join_singleton, String.append_assoc]
  · exact Spells.comma htake

theorem viewed_text (view : Option (String × List Code)) (code : Code) :
    (viewed view code).text = code.text ++ viewText view := by
  cases view with
  | none => simp [viewed, viewText]
  | some view => simp [viewed, viewText, calling, Code.text, String.append_assoc]

theorem accessCode_text {access : Access} {memory : Code}
    (h : accessCode env access memory = .ok code) :
    code.text = memory.text ++ resultText (accessCode env access (.name "")) := by
  unfold accessCode at h ⊢
  split at h
  · rename_i hkind
    obtain ⟨size, hsize, hcode⟩ := Result.bind_eq_ok.mp h
    cases hcode
    simp [hkind, hsize, resultText, Code.text, String.append_assoc]
  · rename_i hkind
    cases h
    simp [hkind, resultText, Code.text, String.append_assoc]

end Spelling

section Showing

def reached (ps : List Part) : List Part := ps.filter fun p => p.child?.isSome

/-- A row shows the children from number `i` on in order. One that is not wanted is left out; any
other is visited once, or a name or literal stands in its place. -/
inductive Shows (wants : Nat → Bool) : Nat → List Expr → List Part → Prop
  | nil (i : Nat) : Shows wants i [] []
  | skip {i : Nat} {x : Expr} {xs : List Expr} {ps : List Part} (hi : wants i = false)
      (h : Shows wants (i + 1) xs ps) : Shows wants i (x :: xs) ps
  | visit {i : Nat} {x : Expr} {xs : List Expr} {ps : List Part} (peel : Bool)
      (hi : wants i = true) (h : Shows wants (i + 1) xs ps) :
      Shows wants i (x :: xs) (.visit i peel :: ps)
  | leaf {i : Nat} {x : Expr} {xs : List Expr} {ps : List Part} (count : Nat) (text : String)
      (hi : wants i = true) (hx : x.Absorbed) (h : Shows wants (i + 1) xs ps) :
      Shows wants i (x :: xs) (List.replicate (count + 1) (.leaf (i :: x.bottom) text) ++ ps)

variable {env : TypeEnv} {ps qs : List Part}

@[simp] theorem reached_nil : reached [] = [] := rfl

@[simp] theorem reached_own (text : String) : reached (.own text :: ps) = reached ps := rfl

@[simp] theorem reached_visit (i : Nat) (peel : Bool) :
    reached (.visit i peel :: ps) = .visit i peel :: reached ps := rfl

@[simp] theorem reached_leaf (i : Nat) (path : List Nat) (text : String) :
    reached (.leaf (i :: path) text :: ps) = .leaf (i :: path) text :: reached ps := rfl

@[simp] theorem reached_append : reached (ps ++ qs) = reached ps ++ reached qs :=
  List.filter_append _ _

@[simp] theorem reached_receiver (x : Expr) (p : Part) :
    reached (receiverParts env x p) = reached [p] := by
  unfold receiverParts
  split
  · rfl
  · cases p <;> rfl

@[simp] theorem reached_condition (x : Expr) (p : Part) :
    reached (conditionParts env x p) = reached [p] := by
  simp [conditionParts]

@[simp] theorem reached_copy (x : Expr) (p : Part) :
    reached (copyParts env x p) = reached [p] := by
  unfold copyParts
  split
  · simp
  · rfl

theorem reached_comma (args : List (List Part)) :
    reached (commaParts args) = args.flatMap reached := by
  induction args with
  | nil => rfl
  | cons ps rest ih =>
    cases rest with
    | nil => simp [commaParts]
    | cons qs rest => simp only [commaParts, reached_append, reached_own, ih, List.flatMap_cons]

theorem reached_pack {fixed : Nat} {variadic : Bool} {args : List (List Part)}
    (h : variadic = false → fixed = args.length) :
    reached (packParts fixed variadic args) = args.flatMap reached := by
  unfold packParts
  cases variadic with
  | true =>
    rw [if_pos rfl, reached_comma, List.flatMap_append]
    simp only [List.cons_append, List.flatMap_cons, List.flatMap_nil, reached_own, reached_append,
      reached_nil, reached_comma, List.append_nil]
    rw [← List.flatMap_append, List.take_append_drop]
  | false => rw [if_neg (by simp), h rfl, List.take_length, reached_comma]

section Rows

variable {wants : Nat → Bool} {i : Nat} {xs : List Expr}

theorem Shows.wanted (h : Shows wants i xs ps) {p : Part} {j : Nat} (hp : p ∈ ps)
    (hj : p.child? = some j) : i ≤ j ∧ wants j = true := by
  induction h with
  | nil => cases hp
  | skip hi h ih =>
    obtain ⟨hle, hwants⟩ := ih hp
    exact ⟨by omega, hwants⟩
  | visit peel hi h ih =>
    rcases List.mem_cons.mp hp with rfl | hp
    · cases hj
      exact ⟨Nat.le_refl _, hi⟩
    · obtain ⟨hle, hwants⟩ := ih hp
      exact ⟨by omega, hwants⟩
  | leaf count text hi hx h ih =>
    rcases List.mem_append.mp hp with hp | hp
    · obtain rfl := List.eq_of_mem_replicate hp
      cases hj
      exact ⟨Nat.le_refl _, hi⟩
    · obtain ⟨hle, hwants⟩ := ih hp
      exact ⟨by omega, hwants⟩

/-- The first part stands for an earlier child, or both are one name written twice. -/
def Part.Precedes (p q : Part) : Prop :=
  ∀ i j, p.child? = some i → q.child? = some j →
    i < j ∨ ∃ path text, p = .leaf path text ∧ q = .leaf path text

theorem Shows.pairwise (h : Shows wants i xs ps) : ps.Pairwise Part.Precedes := by
  induction h with
  | nil => exact .nil
  | skip hi h ih => exact ih
  | visit peel hi h ih =>
    refine List.pairwise_cons.mpr ⟨fun q hq j k hj hk => ?_, ih⟩
    have hle := (h.wanted hq hk).1
    cases hj
    exact .inl (by omega)
  | leaf count text hi hx h ih =>
    refine List.pairwise_append.mpr ⟨?_, ih, fun p hp q hq j k hj hk => ?_⟩
    · exact List.pairwise_replicate.mpr (.inr fun _ _ _ _ => .inr ⟨_, text, rfl, rfl⟩)
    · have hle := (h.wanted hq hk).1
      obtain rfl := List.eq_of_mem_replicate hp
      cases hj
      exact .inl (by omega)

/-- A wanted child is visited in one place, or a name or literal stands for it. -/
theorem Shows.find (h : Shows wants i xs ps) {k : Nat} {x : Expr} (hx : xs[k]? = some x)
    (hwants : wants (i + k) = true) :
    (∃ peel before after, ps = before ++ .visit (i + k) peel :: after ∧
        ∀ p ∈ before ++ after, p.child? ≠ some (i + k)) ∨
      x.Absorbed ∧ ∃ text, .leaf ((i + k) :: x.bottom) text ∈ ps := by
  induction h generalizing k with
  | nil => cases hx
  | @skip i y xs ps hi h ih =>
    cases k with
    | zero => simp_all
    | succ k =>
      rw [show i + (k + 1) = i + 1 + k by omega] at hwants ⊢
      exact ih hx hwants
  | @visit i y xs ps peel hi h ih =>
    cases k with
    | zero =>
      refine .inl ⟨peel, [], ps, rfl, fun p hp hchild => ?_⟩
      have hle := (h.wanted hp hchild).1
      omega
    | succ k =>
      rw [show i + (k + 1) = i + 1 + k by omega] at hwants ⊢
      rcases ih hx hwants with ⟨peel', before, after, rfl, hother⟩ | ⟨habsorbed, text, hmem⟩
      · refine .inl ⟨peel', .visit i peel :: before, after, rfl, fun p hp hchild => ?_⟩
        rcases List.mem_cons.mp hp with rfl | hp
        · have heq := Option.some.inj hchild
          omega
        · exact hother p hp hchild
      · exact .inr ⟨habsorbed, text, List.mem_cons_of_mem _ hmem⟩
  | @leaf i y xs ps count text hi hy h ih =>
    cases k with
    | zero =>
      cases hx
      exact .inr ⟨hy, text, by simp⟩
    | succ k =>
      rw [show i + (k + 1) = i + 1 + k by omega] at hwants ⊢
      rcases ih hx hwants with ⟨peel', before, after, rfl, hother⟩ | ⟨habsorbed, text, hmem⟩
      · refine .inl ⟨peel', _ ++ before, after, (List.append_assoc _ _ _).symm,
          fun p hp hchild => ?_⟩
        rw [List.append_assoc] at hp
        rcases List.mem_append.mp hp with hp | hp
        · obtain rfl := List.eq_of_mem_replicate hp
          have heq := Option.some.inj hchild
          omega
        · exact hother p hp hchild
      · exact .inr ⟨habsorbed, text, List.mem_append_right _ hmem⟩

end Rows

end Showing

end DartLowering.Lower
