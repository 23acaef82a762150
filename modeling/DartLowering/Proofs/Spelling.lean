import DartLowering.Proofs.Supported

/-!
Where the characters of emitted names come from. What emission writes by itself, the names of
wrappers and accessors and the numbers, is made of word characters; all other names are taken from
the source. So a property of characters that word characters have and that holds throughout the
names of a unit holds throughout the names in its code: `Code.Spelled` and its relatives say so of
each piece of code, `Expr.Spelled` and its relatives of the source.
-/
namespace DartLowering

namespace Text

/-- The characters of names and numbers. -/
def isWord (c : Char) : Bool := c.isAlphanum || c = '_' || c = '.' || c = '+' || c = '-'

def Over (p : Char → Bool) (s : String) : Prop := ∀ c ∈ s.toList, p c = true

instance (p : Char → Bool) (s : String) : Decidable (Over p s) :=
  List.decidableBAll (fun c => p c = true) s.toList

/-- `p` holds of the characters that emission itself writes in names. -/
def AdmitsWords (p : Char → Bool) : Prop := ∀ c, isWord c = true → p c = true

variable {p : Char → Bool} {s t : String} {c : Char}

@[simp] theorem over_append : Over p (s ++ t) ↔ Over p s ∧ Over p t := by
  simp only [Over, String.toList_append, List.mem_append, or_imp, forall_and]

@[simp] theorem over_ofList {cs : List Char} :
    Over p (String.ofList cs) ↔ ∀ c ∈ cs, p c = true := by
  rw [Over, String.toList_ofList]

theorem over_of_all (h : s.toList.all p = true) : Over p s := List.all_eq_true.mp h

theorem over_join {sep : String} (hsep : Over p sep) {parts : List String}
    (h : ∀ s ∈ parts, Over p s) : Over p (join sep parts) := by
  induction parts with
  | nil => exact over_of_all rfl
  | cons s rest ih =>
    rw [List.forall_mem_cons] at h
    cases rest with
    | nil =>
      rw [Lower.join_singleton]
      exact h.1
    | cons t rest =>
      rw [Lower.join_cons_cons]
      exact over_append.mpr ⟨over_append.mpr ⟨h.1, hsep⟩, ih h.2⟩

theorem Over.weaken (h : Over isWord s) (hp : AdmitsWords p) : Over p s :=
  fun c hc => hp c (h c hc)

theorem over_word (hp : AdmitsWords p) (h : s.toList.all isWord = true) : Over p s :=
  (over_of_all h).weaken hp

theorem isWord_of_isDigit (h : c.isDigit = true) : isWord c = true := by
  simp [isWord, Char.isAlphanum, h]

theorem isWord_of_mem_toDigits {n : Nat} (h : c ∈ Nat.toDigits 10 n) : isWord c = true :=
  isWord_of_isDigit (Nat.isDigit_of_mem_toDigits (by omega) (by omega) h)

theorem decimalNat_word (n : Nat) : Over isWord (decimalNat n) :=
  over_ofList.mpr fun _ hc => isWord_of_mem_toDigits hc

theorem decimalInt_word (n : Int) : Over isWord (decimalInt n) := by
  cases n with
  | ofNat n => exact decimalNat_word n
  | negSucc n => exact over_append.mpr ⟨over_of_all rfl, decimalNat_word (n + 1)⟩

theorem decimal_word (v : Int64) : Over isWord (decimal v) := decimalInt_word v.toInt

theorem isUpper_toUpper (h : c.isLower = true) : c.toUpper.isUpper = true := by
  obtain ⟨hge, hle⟩ := Bool.and_eq_true_iff.mp h
  have hge := of_decide_eq_true hge
  have hle := of_decide_eq_true hle
  have hlow : 97 ≤ c.val.toNat := UInt32.le_iff_toNat_le.mp hge
  have hhigh : c.val.toNat ≤ 122 := UInt32.le_iff_toNat_le.mp hle
  have hupper : c.toUpper.val = c.val + ('A'.val - 'a'.val) := by
    delta Char.toUpper
    rw [dif_pos ⟨hge, hle⟩]
  have hoffset : ('A'.val - 'a'.val).toNat = 4294967264 := rfl
  have hshift : c.toUpper.val.toNat = c.val.toNat - 32 := by
    rw [hupper, UInt32.toNat_add, hoffset]
    omega
  have hfirst : 65 ≤ c.toUpper.val := by
    rw [UInt32.le_iff_toNat_le, hshift]
    change 65 ≤ c.val.toNat - 32
    omega
  have hlast : c.toUpper.val ≤ 90 := by
    rw [UInt32.le_iff_toNat_le, hshift]
    change c.val.toNat - 32 ≤ 90
    omega
  exact decide_eq_true ⟨hfirst, hlast⟩

theorem isWord_toUpper (h : isWord c = true) : isWord c.toUpper = true := by
  by_cases hlower : c.isLower = true
  · have halpha : c.toUpper.isAlpha = true :=
      Bool.or_eq_true_iff.mpr (.inl (isUpper_toUpper hlower))
    simp [isWord, Char.isAlphanum, halpha]
  · have hsame : c.toUpper = c := by
      apply dif_neg
      intro hbounds
      apply hlower
      exact Bool.and_eq_true_iff.mpr ⟨decide_eq_true hbounds.1, decide_eq_true hbounds.2⟩
    rw [hsame]
    exact h

end Text

namespace Number

open Text

theorem exponentText_word (e : Int) : Over isWord (exponentText e) := by
  unfold exponentText
  refine over_append.mpr ⟨over_append.mpr ⟨?_, ?_⟩, decimalNat_word _⟩
  · split <;> exact over_of_all rfl
  · split <;> exact over_of_all rfl

theorem finiteText_word (format : DoubleFormat) (b : Binary) :
    Over isWord (format.finiteText b) := by
  have hdigits : ∀ c ∈ Nat.toDigits 10 (shortest b).digits, isWord c = true :=
    fun c hc => isWord_of_mem_toDigits hc
  have hzeros : ∀ n, ∀ c ∈ List.replicate n '0', isWord c = true := by
    intro n c hc
    rw [List.eq_of_mem_replicate hc]
    rfl
  have hpoint : isWord '.' = true := rfl
  unfold DoubleFormat.finiteText
  split
  · exact over_of_all rfl
  · dsimp only
    generalize Nat.toDigits 10 (shortest b).digits = digits at hdigits
    split
    · split
      · exact over_of_all rfl
      · exact over_append.mpr ⟨over_ofList.mpr hdigits, exponentText_word _⟩
      · refine over_append.mpr ⟨over_ofList.mpr ?_, exponentText_word _⟩
        simp only [List.forall_mem_cons] at hdigits ⊢
        exact ⟨hdigits.1, hpoint, hdigits.2⟩
    · split
      · refine over_append.mpr ⟨over_of_all rfl, over_ofList.mpr ?_⟩
        exact List.forall_mem_append.mpr ⟨hzeros _, hdigits⟩
      · split
        · exact over_ofList.mpr (List.forall_mem_append.mpr ⟨hdigits, hzeros _⟩)
        · refine over_ofList.mpr (List.forall_mem_append.mpr ⟨?_, ?_⟩)
          · exact fun c hc => hdigits c (List.mem_of_mem_take hc)
          · exact List.forall_mem_cons.mpr ⟨hpoint, fun c hc => hdigits c (List.mem_of_mem_drop hc)⟩

theorem doubleText_word (x : Float) : Over isWord (doubleText x) := by
  unfold doubleText
  split
  · exact over_of_all rfl
  · split <;> exact over_of_all rfl
  · refine over_append.mpr ⟨?_, finiteText_word _ _⟩
    split <;> exact over_of_all rfl

end Number

open Text

/-- The class that a type names, conversions of names aside. -/
def CType.className? (t : CType) : Option String :=
  match t.unalias with
  | .object className => some className
  | _ => none

section Types

theorem Scalar.wrapper_word {s : Scalar} {name : String} (h : s.wrapper = .ok name) :
    Over isWord name := by
  have hinteger : ∀ {signed bits}, Wrapper.integer? signed bits = some name → Over isWord name := by
    intro signed bits hname
    unfold Wrapper.integer? at hname
    (repeat' split at hname) <;> cases hname <;> exact over_of_all rfl
  unfold Scalar.wrapper at h
  split at h
  · cases h
  · split at h
    · split at h
      · cases h
        exact over_of_all rfl
      · split at h
        · cases h
          exact over_of_all rfl
        · cases h
    · split at h
      · rename_i hname
        cases h
        exact hinteger hname
      · cases h

theorem Scalar.stem_word (s : Scalar) : Over isWord s.stem := by
  unfold Scalar.stem
  split
  · split <;> exact over_of_all rfl
  · refine over_append.mpr ⟨?_, decimal_word s.bits⟩
    split <;> exact over_of_all rfl

/-- The class of values of a type is a wrapper of the library or named by the type. -/
theorem TypeEnv.mapType_word_or_class {env : TypeEnv} {t : CType} {name : String}
    (h : env.mapType t = .ok name) : Over isWord name ∨ t.className? = some name := by
  fun_induction TypeEnv.mapType env t with
  | case1 | case4 | case8 => cases h; exact .inl (over_of_all rfl)
  | case2 s => exact .inl (Scalar.wrapper_word h)
  | case3 | case6 | case7 =>
    cases h
    left
    split <;> exact over_of_all rfl
  | case5 | case11 => cases h
  | case9 name underlying _ ih => exact ih h
  | case10 className =>
    cases h
    split
    · exact .inl (over_of_all rfl)
    · exact .inr rfl

theorem TypeEnv.storageKind_word {env : TypeEnv} {t : CType} {stem : String}
    (h : env.storageKind t = .ok stem) : Over isWord stem := by
  fun_induction TypeEnv.storageKind env t with
  | case1 s =>
    obtain ⟨_, -, h⟩ := Result.bind_eq_ok.mp h
    cases h
    exact Scalar.stem_word s
  | case2 pointee =>
    cases h
    split <;> exact over_of_all rfl
  | case3 | case4 | case6 | case8 => cases h; exact over_of_all rfl
  | case5 | case7 | case9 | case11 | case12 => cases h
  | case10 name underlying _ ih => exact ih h

end Types

/-- The names in an expression itself: what it refers to and the class of its type. -/
def Expr.names (e : Expr) : List String :=
  (e.type.bind CType.className?).toList ++
    match e with
    | .ref _ name _ => [name]
    | .message _ _ selector _ => [selector]
    | .classMessage _ className selector _ => [className, selector]
    | _ => []

/-- Every name in the expression is made of characters that satisfy `p`. -/
inductive Expr.Spelled (p : Char → Bool) : Expr → Prop
  | mk {e : Expr} (own : ∀ s ∈ e.names, Over p s) (children : ∀ x ∈ e.children, x.Spelled p) :
      e.Spelled p

theorem Expr.Spelled.own {p : Char → Bool} {e : Expr} (h : e.Spelled p) {s : String}
    (hs : s ∈ e.names) : Over p s := by
  cases h with
  | mk own _ => exact own s hs

theorem Expr.Spelled.child {p : Char → Bool} {e x : Expr} (h : e.Spelled p)
    (hx : x ∈ e.children) : x.Spelled p := by
  cases h with
  | mk _ children => exact children x hx

namespace Code

mutual

/-- Every name, number and class in the code is made of characters that satisfy `p`. -/
def Spelled (p : Char → Bool) : Code → Prop
  | .name text | .double text => Over p text
  | .int _ | .bytes _ => True
  | .paren inner | .closure inner | .nonZero inner => inner.Spelled p
  | .property receiver field => receiver.Spelled p ∧ Over p field
  | .invoke receiver method args => receiver.Spelled p ∧ Over p method ∧ AllSpelled p args
  | .apply callee args => callee.Spelled p ∧ AllSpelled p args
  | .list items => AllSpelled p items
  | .sequence first second | .bind first second => first.Spelled p ∧ second.Spelled p
  | .choose cond then_ else_ => cond.Spelled p ∧ then_.Spelled p ∧ else_.Spelled p
  | .castTo value type => value.Spelled p ∧ Over p type

def AllSpelled (p : Char → Bool) : List Code → Prop
  | [] => True
  | c :: cs => c.Spelled p ∧ AllSpelled p cs

end

theorem allSpelled_iff {p : Char → Bool} {cs : List Code} :
    AllSpelled p cs ↔ ∀ c ∈ cs, c.Spelled p := by
  induction cs with
  | nil => simp [AllSpelled]
  | cons c cs ih => rw [AllSpelled, ih, List.forall_mem_cons]

end Code

namespace Lower

open Result

variable {p : Char → Bool} {env : TypeEnv} {scope : Scope} {e : Expr} {code : Code}

section Names

variable {name : String}

theorem identifier_over (hp : AdmitsWords p) (h : Over p name) : Over p (identifier name) := by
  unfold identifier
  split
  · exact over_append.mpr ⟨h, over_word hp rfl⟩
  · exact h

theorem selectorName_over (hp : AdmitsWords p) {selector : String} (h : Over p selector) :
    Over p (selectorName selector) := by
  refine identifier_over hp (over_ofList.mpr ?_)
  intro c hc
  obtain ⟨d, hd, rfl⟩ := List.mem_map.mp hc
  have hmem : d ∈ selector.toList := by
    unfold withoutSuffix at hd
    split at hd
    · exact List.mem_of_mem_take hd
    · exact hd
  split
  · exact hp '_' rfl
  · exact h d hmem

theorem paramName_over (hp : AdmitsWords p) (h : Over p name) (index : Nat) :
    Over p (paramName name index) := by
  unfold paramName
  split
  · exact over_append.mpr ⟨over_word hp rfl, (decimalNat_word index).weaken hp⟩
  · exact identifier_over hp h

theorem switchLabel_over (hp : AdmitsWords p) (depth k : Nat) : Over p (switchLabel depth k) := by
  have hdecimal : ∀ n, Over p (decimalNat n) := fun n => (decimalNat_word n).weaken hp
  unfold switchLabel
  split
  · exact over_append.mpr ⟨over_word hp rfl, hdecimal k⟩
  · simp only [over_append]
    exact ⟨⟨⟨over_word hp rfl, hdecimal depth⟩, over_word hp rfl⟩, hdecimal k⟩

theorem doubleLiteral_word (x : Float) : Over isWord (doubleLiteral x) := by
  unfold doubleLiteral
  split
  · exact over_of_all rfl
  · split <;> exact over_of_all rfl
  · dsimp only
    split
    · exact Number.doubleText_word x
    · exact over_append.mpr ⟨Number.doubleText_word x, over_of_all rfl⟩

theorem capitalised_word {s : String} (h : Over isWord s) : Over isWord (capitalised s) := by
  unfold capitalised
  split
  · exact over_of_all rfl
  · rename_i c cs hs
    rw [Over, hs, List.forall_mem_cons] at h
    exact over_ofList.mpr (List.forall_mem_cons.mpr ⟨isWord_toUpper h.1, h.2⟩)

theorem mapType_over (hp : AdmitsWords p) {t : CType} (h : env.mapType t = .ok name)
    (hclass : ∀ c, t.className? = some c → Over p c) : Over p name := by
  rcases TypeEnv.mapType_word_or_class h with hword | hnamed
  · exact hword.weaken hp
  · exact hclass name hnamed

end Names

section Nodes

variable {info : ExprInfo} {name : String} {kind : CastKind}

theorem onClass_spelled {className method : String} {args : List Code} (hc : Over p className)
    (hm : Over p method) (hargs : Code.AllSpelled p args) :
    (onClass className method args).Spelled p := ⟨hc, hm, hargs⟩

@[simp] theorem asReceiver_spelled : (asReceiver env e code).Spelled p ↔ code.Spelled p := by
  unfold asReceiver
  split <;> rfl

theorem spelled_stripTransparent (h : e.Spelled p) : e.stripTransparent.Spelled p := by
  fun_induction Expr.stripTransparent e with
  | case1 info kind operand isExplicit _ ih => exact ih (h.child List.mem_cons_self)
  | case2 | case3 => exact h

theorem spelled_stripList (h : e.Spelled p) : e.stripList.Spelled p := by
  fun_induction Expr.stripList e with
  | case1 info kind operand isExplicit _ ih => exact ih (h.child List.mem_cons_self)
  | case2 => exact h
  | case3 => exact h

theorem functionName_over {operand : Expr} (hoperand : operand.Spelled p)
    (h : functionName? operand = some name) : Over p name := by
  obtain ⟨info, kind, rfl⟩ := functionName_eq_some h
  exact hoperand.own (by simp [Expr.names])

theorem directCallee_over {callee : Expr} (hcallee : callee.Spelled p)
    (h : callee.directCallee? = some (info, name)) : Over p name := by
  have hname : ∀ {x : Expr} {kind : RefKind}, x.Spelled p →
      x.calleeName? = some (info, name, kind) → Over p name := by
    intro x kind hx hname
    fun_induction Expr.calleeName? x with
    | case1 _ _ operand _ _ ih => exact ih (hx.child List.mem_cons_self) hname
    | case2 | case4 => cases hname
    | case3 =>
      cases hname
      exact hx.own (by simp [Expr.names])
  unfold Expr.directCallee? at h
  split at h
  · rename_i heq
    split at h
    · cases h
      exact hname hcallee heq
    · cases h
  · cases h

theorem binaryMethod_word {op : BinaryOp} {method : String} (h : binaryMethod? op = some method) :
    Over isWord method := by
  cases op <;> cases h <;> exact over_of_all rfl

theorem unaryMethod_word {op : UnaryOp} {method : String} (h : unaryMethod? op = some method) :
    Over isWord method := by
  cases op <;> cases h <;> exact over_of_all rfl

variable (hp : AdmitsWords p)

include hp

theorem floatCode_spelled (info : ExprInfo) (x : Float) : (floatCode info x).Spelled p := by
  refine onClass_spelled ?_ (over_word hp rfl) ⟨(doubleLiteral_word x).weaken hp, trivial⟩
  split <;> exact over_word hp rfl

theorem stringCode_spelled (bytes : List UInt8) : (stringCode bytes).Spelled p :=
  onClass_spelled (over_word hp rfl) (over_word hp rfl) ⟨trivial, trivial⟩

theorem asCondition_spelled (h : code.Spelled p) : (asCondition env e code).Spelled p := by
  refine ⟨asReceiver_spelled.mpr h, ?_, trivial⟩
  split <;> exact over_word hp rfl

theorem asCopy_spelled (h : code.Spelled p) : (asCopy env e code).Spelled p := by
  unfold asCopy
  split
  · exact ⟨asReceiver_spelled.mpr h, over_word hp rfl, trivial⟩
  · exact h

theorem refCode_spelled (hself : Over p scope.self) (h : Over p name) (kind : RefKind) :
    (refCode scope name kind).Spelled p := by
  unfold refCode
  split
  · exact hself
  · exact identifier_over hp h

theorem targetName_spelled (hself : Over p scope.self) {lhs : Expr} {target : Code}
    (hlhs : lhs.Spelled p) (h : targetName? scope lhs = some target) : target.Spelled p := by
  have hstripped := spelled_stripTransparent hlhs
  unfold targetName? at h
  split at h
  · rename_i info name kind heq
    cases h
    rw [heq] at hstripped
    exact refCode_spelled hp hself (hstripped.own (by simp [Expr.names])) kind
  · cases h

theorem packArguments_spelled {codes : List Code} (h : ∀ c ∈ codes, c.Spelled p) (fixed : Nat)
    (variadic : Bool) : Code.AllSpelled p (packArguments fixed variadic codes) := by
  have htake : ∀ c ∈ codes.take fixed, c.Spelled p := fun c hc => h c (List.mem_of_mem_take hc)
  have hdrop : ∀ c ∈ codes.drop fixed, c.Spelled p := fun c hc => h c (List.mem_of_mem_drop hc)
  rw [Code.allSpelled_iff]
  unfold packArguments
  split
  · refine List.forall_mem_append.mpr ⟨htake, List.forall_mem_singleton.mpr ?_⟩
    exact ⟨over_word hp rfl, Code.allSpelled_iff.mpr hdrop, trivial⟩
  · exact htake

end Nodes

end Lower

end DartLowering
