import DartLowering.Layout.Constant
import DartLowering.Proofs.Truncation

/-!
Folding constants is exact arithmetic. `TypeEnv.exactValue?` evaluates integer constant expressions
over unbounded integers and brings the result of every node into the range of its type; where the
types of operands agree with each other and with the node, `TypeEnv.constant?` gives the word of
that integer, and nothing exactly where the integer is undefined. One lemma per family of operators
says that the operation on words is the operation on the integers behind them, and one lemma per
node that reducing the word reduces the integer.
-/
namespace DartLowering

open Number

variable {s : Scalar} {v : Int}

section Reference

def Scalar.width (s : Scalar) : Nat := s.bits.toNatClampNeg

/-- The integers that a type can hold. -/
def Scalar.Holds (s : Scalar) (v : Int) : Prop :=
  if s.kind = .bool then v = 0 ∨ v = 1
  else if s.signed then -2 ^ (s.width - 1) ≤ v ∧ v < 2 ^ (s.width - 1)
  else 0 ≤ v ∧ v < 2 ^ s.width

instance (s : Scalar) (v : Int) : Decidable (s.Holds v) :=
  inferInstanceAs (Decidable (if s.kind = .bool then v = 0 ∨ v = 1
    else if s.signed then -2 ^ (s.width - 1) ≤ v ∧ v < 2 ^ (s.width - 1)
    else 0 ≤ v ∧ v < 2 ^ s.width))

/-- An integer brought into the range of a type: to the nearest truth value, or modulo a power of
two. -/
def Scalar.reduce (s : Scalar) (v : Int) : Int :=
  if s.kind = .bool then if v = 0 then 0 else 1
  else if s.signed then v.bmod (2 ^ s.width)
  else v % 2 ^ s.width

def truth (p : Bool) : Int := if p then 1 else 0

def UnaryOp.exact (v : Int) : UnaryOp → Option Int
  | .plus => some v
  | .minus => some (-v)
  | .bitNot => some (-v - 1)
  | .logicalNot => some (truth (v = 0))
  | _ => none

/-- Operators that need both operands. Division rounds towards zero, shifts to the right round down,
and the bits of a negative integer are those of its two's complement. -/
def BinaryOp.exact (l r : Int) : BinaryOp → Option Int
  | .add => some (l + r)
  | .sub => some (l - r)
  | .mul => some (l * r)
  | .div => if r = 0 then none else some (l.tdiv r)
  | .rem => if r = 0 then none else some (l.tmod r)
  | .shl => if 0 ≤ r ∧ r ≤ 63 then some (l * 2 ^ r.toNat) else none
  | .shr => if 0 ≤ r ∧ r ≤ 63 then some (l / 2 ^ r.toNat) else none
  | .bitAnd => some (l.land r)
  | .bitOr => some (l.lor r)
  | .bitXor => some (l.xor r)
  | .lt => some (truth (l < r))
  | .gt => some (truth (r < l))
  | .le => some (truth (l ≤ r))
  | .ge => some (truth (r ≤ l))
  | .eq => some (truth (l = r))
  | .ne => some (truth (l ≠ r))
  | _ => none

/-- All binary operators; a logical one needs its right operand only where the left does not
decide. -/
def BinaryOp.combine (op : BinaryOp) (l : Int) (rhs : Unit → Option Int) : Option Int :=
  match op with
  | .logicalAnd => if l = 0 then some 0 else (rhs ()).map fun r => truth (r ≠ 0)
  | .logicalOr => if l ≠ 0 then some 1 else (rhs ()).map fun r => truth (r ≠ 0)
  | op => (rhs ()).bind fun r => op.exact l r

def ExprInfo.scalar? (info : ExprInfo) : Option Scalar := info.type.bind CType.scalar?

/-- The integer recorded for a node of integer type, or else the computed one in the node's type. -/
def ExprInfo.exactly (info : ExprInfo) (compute : Unit → Option Int) : Option Int :=
  match info.scalar? with
  | none => none
  | some s =>
      if s.kind.isFloat then none
      else
        match info.constant with
        | some c => some (s.reduce c.toInt)
        | none => (compute ()).map s.reduce

/-- The integer that an expression stands for, without a bound on intermediate values. -/
def TypeEnv.exactValue? (env : TypeEnv) : Expr → Option Int
  | .int info value => info.exactly fun _ => some value.toInt
  | .sizeOf info arg => info.exactly fun _ => (env.extent arg).toOption.map (·.size.toInt)
  | .cast info kind operand _ =>
      info.exactly fun _ =>
        match kind with
        | .integralCast | .noOp => env.exactValue? operand
        | .integralToBoolean => (env.exactValue? operand).map fun v => truth (v ≠ 0)
        | _ => none
  | .unary info op operand => info.exactly fun _ => (env.exactValue? operand).bind op.exact
  | .binary info op lhs rhs =>
      info.exactly fun _ =>
        (env.exactValue? lhs).bind fun l => op.combine l fun _ => env.exactValue? rhs
  | .conditional info cond then_ else_ =>
      info.exactly fun _ =>
        (env.exactValue? cond).bind fun c =>
          if c ≠ 0 then env.exactValue? then_ else env.exactValue? else_
  | e => e.info.exactly fun _ => none

end Reference

section Typing

def BinaryOp.isArithmetic : BinaryOp → Bool
  | .add | .sub | .mul | .div | .rem | .bitAnd | .bitOr | .bitXor => true
  | _ => false

def BinaryOp.isComparison : BinaryOp → Bool
  | .lt | .gt | .le | .ge | .eq | .ne => true
  | _ => false

def BinaryOp.isShift : BinaryOp → Bool
  | .shl | .shr => true
  | _ => false

def UnaryOp.isArithmetic : UnaryOp → Bool
  | .plus | .minus | .bitNot => true
  | _ => false

/-- Integer types are 1 to 64 bits wide, and a recorded constant is the word of an integer that the
type holds. -/
def ExprInfo.Sound (info : ExprInfo) : Prop :=
  ∀ s, info.scalar? = some s → s.kind.isFloat = false →
    (1 ≤ s.bits ∧ s.bits ≤ 64) ∧
      ∀ c, info.constant = some c → ∃ v, s.Holds v ∧ c = Int64.ofInt v

/-- The operands of arithmetic and of comparisons have one type, arithmetic stays in it, and a shift
stays in the type of its left operand. -/
def Expr.WellTyped : Expr → Prop
  | .unary info op operand =>
      info.Sound ∧ operand.WellTyped ∧ (op.isArithmetic → info.scalar? = operand.scalar?)
  | .binary info op lhs rhs =>
      info.Sound ∧ lhs.WellTyped ∧ rhs.WellTyped ∧
        (op.isArithmetic ∨ op.isComparison → lhs.scalar? = rhs.scalar?) ∧
        (op.isArithmetic ∨ op.isShift → info.scalar? = lhs.scalar?)
  | .cast info _ operand _ => info.Sound ∧ operand.WellTyped
  | .conditional info cond then_ else_ =>
      info.Sound ∧ cond.WellTyped ∧ then_.WellTyped ∧ else_.WellTyped
  | e => e.info.Sound

end Typing

namespace Scalar

variable {s : Scalar} {v : Int}

def WordSized (s : Scalar) : Prop := 1 ≤ s.bits ∧ s.bits ≤ 64

theorem WordSized.width_bounds (h : s.WordSized) :
    1 ≤ s.width ∧ s.width ≤ 64 ∧ s.bits = Int64.ofNat s.width := by
  have hbits := Int64.ofNat_toNatClampNeg s.bits (Int64.le_trans (by decide) h.1)
  exact ⟨Int64.toNatClampNeg_le h.1, Int64.toNatClampNeg_le h.2, hbits.symm⟩

theorem reduce_holds (h : s.WordSized) (v : Int) : s.Holds (s.reduce v) := by
  unfold Holds reduce
  by_cases hbool : s.kind = .bool
  · rw [if_pos hbool, if_pos hbool]
    by_cases hv : v = 0
    · simp [hv]
    · simp [hv]
  · rw [if_neg hbool, if_neg hbool]
    exact ((residue_eq_iff h.width_bounds.1).mp rfl).1

theorem reduce_of_holds (h : s.WordSized) (hv : s.Holds v) : s.reduce v = v := by
  unfold Holds at hv
  unfold reduce
  by_cases hbool : s.kind = .bool
  · rw [if_pos hbool] at hv ⊢
    rcases hv with rfl | rfl
    · rfl
    · rfl
  · rw [if_neg hbool] at hv ⊢
    exact (residue_eq_iff h.width_bounds.1).mpr ⟨hv, .rfl⟩

theorem Holds.inSigned (hv : s.Holds v) (h : s.WordSized) (hsigned : s.signed = true) :
    InSigned v := by
  unfold Holds at hv
  by_cases hbool : s.kind = .bool
  · rw [if_pos hbool] at hv
    unfold InSigned
    omega
  · rw [if_neg hbool, hsigned] at hv
    exact InWidth.inSigned h.width_bounds.2.1 hv

theorem Holds.inUnsigned (hv : s.Holds v) (h : s.WordSized) (hsigned : s.signed = false) :
    InUnsigned v := by
  obtain ⟨_, hhigh, _⟩ := h.width_bounds
  have hpow : (2 : Int) ^ s.width ≤ 2 ^ 64 := by
    exact_mod_cast Nat.pow_le_pow_right (by decide) hhigh
  unfold Holds at hv
  unfold InUnsigned
  by_cases hbool : s.kind = .bool
  · rw [if_pos hbool] at hv
    omega
  · rw [if_neg hbool, if_neg (by simp [hsigned])] at hv
    omega

theorem Holds.bounds (hv : s.Holds v) (h : s.WordSized) : -2 ^ 63 ≤ v ∧ v < 2 ^ 64 := by
  cases hsigned : s.signed with
  | false =>
    obtain ⟨hlow, hhigh⟩ := hv.inUnsigned h hsigned
    omega
  | true =>
    obtain ⟨hlow, hhigh⟩ := hv.inSigned h hsigned
    omega

end Scalar

theorem ofBool_eq (p : Bool) : ofBool p = Int64.ofInt (truth p) := by
  cases p with
  | false | true => rfl

/-- Bringing a word into a type brings the integer behind it there. Only a truth value needs to know
that the integer is no multiple of 2^64. -/
theorem CType.fit_ofInt {t : CType} (ht : t.scalar? = some s) (hs : s.WordSized)
    (hbool : s.kind = .bool → -2 ^ 64 < v ∧ v < 2 ^ 64) :
    t.fit (Int64.ofInt v) = Int64.ofInt (s.reduce v) := by
  unfold CType.fit Scalar.reduce
  rw [ht]
  by_cases hkind : s.kind = .bool
  · obtain ⟨hlow, hhigh⟩ := hbool hkind
    simp only [hkind, if_true, ne_eq, ofInt_eq_zero hlow hhigh, ofBool_eq, truth]
    by_cases hv : v = 0
    · simp [hv]
    · simp [hv]
  · obtain ⟨hone, hfull, hbits⟩ := hs.width_bounds
    simp only [hkind, if_false]
    rw [hbits, truncate_ofInt v hone hfull]

/-- The word of an integer that a type holds stands for that integer again. -/
theorem Scalar.ofInt_reduce_toInt (hs : s.WordSized) (hv : s.Holds v) :
    Int64.ofInt (s.reduce (Int64.ofInt v).toInt) = Int64.ofInt v := by
  obtain ⟨hlow, hhigh⟩ := hv.bounds hs
  have hword := (Int64.ofInt v).toInt_lt
  have hword' := (Int64.ofInt v).le_toInt
  have hread := CType.fit_ofInt (t := .scalar s) (v := (Int64.ofInt v).toInt) rfl hs
    fun _ => ⟨by omega, by omega⟩
  have hwrite := CType.fit_ofInt (t := .scalar s) (v := v) rfl hs fun _ => ⟨by omega, by omega⟩
  rw [Int64.ofInt_toInt] at hread
  rw [← hread, hwrite, s.reduce_of_holds hs hv]

section Operators

variable {s : Scalar} {l r : Int} {v : Int}

theorem UnaryOp.evaluate_ofInt (op : UnaryOp) (hv : -2 ^ 64 < v ∧ v < 2 ^ 64) :
    op.evaluate (Int64.ofInt v) = (op.exact v).map Int64.ofInt := by
  cases op with
  | plus => rfl
  | minus => exact congrArg some (Int64.ofInt_neg v).symm
  | bitNot => exact congrArg some (ofInt_not v)
  | logicalNot =>
    simp only [UnaryOp.evaluate, UnaryOp.exact, ofInt_eq_zero hv.1 hv.2, ofBool_eq, Option.map_some]
  | _ => rfl

theorem ofInt_eq_iff_of_holds (hs : s.WordSized) (hl : s.Holds l) (hr : s.Holds r) :
    Int64.ofInt l = Int64.ofInt r ↔ l = r := by
  cases hsigned : s.signed with
  | false => exact (hl.inUnsigned hs hsigned).ofInt_inj (hr.inUnsigned hs hsigned)
  | true => exact (hl.inSigned hs hsigned).ofInt_inj (hr.inSigned hs hsigned)

/-- Integers of one type are in the order of their words, read by the type's signedness. -/
theorem less_ofInt (hs : s.WordSized) (hl : s.Holds l) (hr : s.Holds r) :
    less (!s.signed) (Int64.ofInt l) (Int64.ofInt r) = decide (l < r) := by
  unfold less
  cases hsigned : s.signed with
  | false =>
    simp only [Bool.not_false, if_true,
      ofInt_ult (hl.inUnsigned hs hsigned) (hr.inUnsigned hs hsigned)]
  | true =>
    have hlt : Int64.ofInt l < Int64.ofInt r ↔ l < r := by
      rw [Int64.lt_iff_toInt_lt, toInt_ofInt_of_inSigned (hl.inSigned hs hsigned),
        toInt_ofInt_of_inSigned (hr.inSigned hs hsigned)]
    simp only [Bool.not_true, Bool.false_eq_true, if_false, hlt]

/-- A divisor is zero as a word when it is zero. -/
theorem ofInt_eq_zero_of_holds (hs : s.WordSized) (hr : s.Holds r) : Int64.ofInt r = 0 ↔ r = 0 := by
  obtain ⟨hlow, hhigh⟩ := hr.bounds hs
  exact ofInt_eq_zero (by omega) hhigh

theorem ofInt_div (hs : s.WordSized) (hl : s.Holds l) (hr : s.Holds r) :
    (if !s.signed then ((Int64.ofInt l).toUInt64 / (Int64.ofInt r).toUInt64).toInt64
      else Int64.ofInt l / Int64.ofInt r) = Int64.ofInt (l.tdiv r) := by
  cases hsigned : s.signed with
  | false =>
    simp only [Bool.not_false, if_true]
    exact ofInt_udiv (hl.inUnsigned hs hsigned) (hr.inUnsigned hs hsigned)
  | true =>
    obtain ⟨hl0, hl1⟩ := hl.inSigned hs hsigned
    obtain ⟨hr0, hr1⟩ := hr.inSigned hs hsigned
    simp only [Bool.not_true, Bool.false_eq_true, if_false]
    exact (Int64.ofInt_tdiv hl0 (Int.le_of_lt_add_one hl1) hr0 (Int.le_of_lt_add_one hr1)).symm

theorem ofInt_rem (hs : s.WordSized) (hl : s.Holds l) (hr : s.Holds r) :
    (if !s.signed then ((Int64.ofInt l).toUInt64 % (Int64.ofInt r).toUInt64).toInt64
      else Int64.ofInt l % Int64.ofInt r) = Int64.ofInt (l.tmod r) := by
  cases hsigned : s.signed with
  | false =>
    simp only [Bool.not_false, if_true]
    exact ofInt_umod (hl.inUnsigned hs hsigned) (hr.inUnsigned hs hsigned)
  | true =>
    obtain ⟨hl0, hl1⟩ := hl.inSigned hs hsigned
    obtain ⟨hr0, hr1⟩ := hr.inSigned hs hsigned
    simp only [Bool.not_true, Bool.false_eq_true, if_false]
    exact (Int64.ofInt_tmod hl0 (Int.le_of_lt_add_one hl1) hr0 (Int.le_of_lt_add_one hr1)).symm

/-- A shift count is refused as a word when it is refused as an integer of any type. -/
theorem shiftCount_ofInt (hr : -2 ^ 63 ≤ r ∧ r < 2 ^ 64) :
    (Int64.ofInt r < 0 ∨ 63 < Int64.ofInt r) ↔ ¬ (0 ≤ r ∧ r ≤ 63) := by
  have hzero : (0 : Int64).toInt = 0 := rfl
  have hlast : (63 : Int64).toInt = 63 := rfl
  rw [Int64.lt_iff_toInt_lt, Int64.lt_iff_toInt_lt, Int64.toInt_ofInt, Int.bmod_def, hzero, hlast]
  have hsize : ((Int64.size : Nat) : Int) = 2 ^ 64 := rfl
  rw [hsize]
  omega

theorem shl_ofInt (hr : -2 ^ 63 ≤ r ∧ r < 2 ^ 64) (unsigned : Bool) :
    BinaryOp.shl.evaluate unsigned (Int64.ofInt l) (Int64.ofInt r) =
      (BinaryOp.shl.exact l r).map Int64.ofInt := by
  simp only [BinaryOp.evaluate, BinaryOp.exact, Bool.or_eq_true, decide_eq_true_eq,
    shiftCount_ofInt hr]
  by_cases hcount : 0 ≤ r ∧ r ≤ 63
  · obtain ⟨k, rfl⟩ := Int.eq_ofNat_of_zero_le hcount.1
    rw [if_neg (not_not.mpr hcount), if_pos hcount, Int64.ofInt_eq_ofNat,
      ofInt_shiftLeft l (by omega)]
    rfl
  · rw [if_pos hcount, if_neg hcount]
    rfl

theorem shr_ofInt (hs : s.WordSized) (hl : s.Holds l) (hr : -2 ^ 63 ≤ r ∧ r < 2 ^ 64) :
    BinaryOp.shr.evaluate (!s.signed) (Int64.ofInt l) (Int64.ofInt r) =
      (BinaryOp.shr.exact l r).map Int64.ofInt := by
  simp only [BinaryOp.evaluate, BinaryOp.exact, Bool.or_eq_true, decide_eq_true_eq,
    shiftCount_ofInt hr]
  by_cases hcount : 0 ≤ r ∧ r ≤ 63
  · obtain ⟨k, rfl⟩ := Int.eq_ofNat_of_zero_le hcount.1
    rw [if_neg (not_not.mpr hcount), if_pos hcount, Int64.ofInt_eq_ofNat]
    cases hsigned : s.signed with
    | false =>
      simp only [Bool.not_false, if_true]
      rw [ofInt_ushiftRight (hl.inUnsigned hs hsigned) (by omega)]
      rfl
    | true =>
      simp only [Bool.not_true, Bool.false_eq_true, if_false]
      rw [ofInt_shiftRight (hl.inSigned hs hsigned) (by omega)]
      rfl
  · rw [if_pos hcount, if_neg hcount]
    rfl

/-- Every operator on words is the operator on the integers behind them. -/
theorem BinaryOp.evaluate_ofInt (op : BinaryOp) (hs : s.WordSized) (hl : s.Holds l)
    (hr : op.isArithmetic ∨ op.isComparison → s.Holds r) (hcount : -2 ^ 63 ≤ r ∧ r < 2 ^ 64) :
    op.evaluate (!s.signed) (Int64.ofInt l) (Int64.ofInt r) = (op.exact l r).map Int64.ofInt := by
  cases op with
  | add => exact congrArg some (Int64.ofInt_add l r).symm
  | sub => exact congrArg some (Int64.ofInt_sub l r).symm
  | mul => exact congrArg some (Int64.ofInt_mul l r).symm
  | bitAnd => exact congrArg some (ofInt_land l r)
  | bitOr => exact congrArg some (ofInt_lor l r)
  | bitXor => exact congrArg some (ofInt_xor l r)
  | div =>
    have hr := hr (Or.inl rfl)
    simp only [BinaryOp.evaluate, BinaryOp.exact, ofInt_eq_zero_of_holds hs hr]
    by_cases hzero : r = 0
    · rw [if_pos hzero, if_pos hzero]
      rfl
    · rw [if_neg hzero, if_neg hzero, Option.map_some, ← ofInt_div hs hl hr]
      split <;> rfl
  | rem =>
    have hr := hr (Or.inl rfl)
    simp only [BinaryOp.evaluate, BinaryOp.exact, ofInt_eq_zero_of_holds hs hr]
    by_cases hzero : r = 0
    · rw [if_pos hzero, if_pos hzero]
      rfl
    · rw [if_neg hzero, if_neg hzero, Option.map_some, ← ofInt_rem hs hl hr]
      split <;> rfl
  | shl => exact shl_ofInt hcount _
  | shr => exact shr_ofInt hs hl hcount
  | lt =>
    simp only [evaluate, exact, less_ofInt hs hl (hr (Or.inr rfl)), ofBool_eq, Option.map_some]
  | gt =>
    simp only [evaluate, exact, less_ofInt hs (hr (Or.inr rfl)) hl, ofBool_eq, Option.map_some]
  | le =>
    simp only [evaluate, exact, less_ofInt hs (hr (Or.inr rfl)) hl, ofBool_eq, Option.map_some,
      ← decide_not, Int.not_lt]
  | ge =>
    simp only [evaluate, exact, less_ofInt hs hl (hr (Or.inr rfl)), ofBool_eq, Option.map_some,
      ← decide_not, Int.not_lt]
  | eq =>
    simp only [evaluate, exact, ofInt_eq_iff_of_holds hs hl (hr (Or.inr rfl)), ofBool_eq,
      Option.map_some]
  | ne =>
    simp only [evaluate, exact, ne_eq, ofInt_eq_iff_of_holds hs hl (hr (Or.inr rfl)), ofBool_eq,
      Option.map_some]
  | _ => rfl

theorem Scalar.Holds.truth_value (hv : s.Holds v) (hbool : s.kind = .bool) : v = 0 ∨ v = 1 := by
  unfold Scalar.Holds at hv
  rwa [if_pos hbool] at hv

theorem truth_bounds (p : Bool) : -2 ^ 64 < truth p ∧ truth p < 2 ^ 64 := by
  cases p with
  | false | true => decide

theorem UnaryOp.exact_small (op : UnaryOp) {w : Int} (hv : op.isArithmetic → v = 0 ∨ v = 1)
    (hw : op.exact v = some w) : -2 ^ 64 < w ∧ w < 2 ^ 64 := by
  cases op with
  | plus | minus | bitNot =>
    have hv := hv rfl
    cases hw
    omega
  | logicalNot =>
    cases hw
    exact truth_bounds _
  | _ => cases hw

/-- Results of operators on truth values stay small, so that they can be told from zero. -/
theorem BinaryOp.exact_small (op : BinaryOp) (hl : op.isArithmetic ∨ op.isShift → l = 0 ∨ l = 1)
    (hr : op.isArithmetic → r = 0 ∨ r = 1) (hv : op.exact l r = some v) :
    -2 ^ 64 < v ∧ v < 2 ^ 64 := by
  cases op with
  | add | sub | mul | bitAnd | bitOr | bitXor =>
    rcases hl (Or.inl rfl) with rfl | rfl <;> rcases hr rfl with rfl | rfl <;> cases hv <;> decide
  | div | rem =>
    rcases hr rfl with rfl | rfl
    · cases hv
    · rcases hl (Or.inl rfl) with rfl | rfl <;> cases hv <;> decide
  | shl =>
    simp only [exact, Option.ite_none_right_eq_some, Option.some.injEq] at hv
    obtain ⟨hcount, rfl⟩ := hv
    have hpow : (2 : Int) ^ r.toNat ≤ 2 ^ 63 := by
      exact_mod_cast Nat.pow_le_pow_right (by decide) (show r.toNat ≤ 63 by omega)
    have hpos : (0 : Int) < 2 ^ r.toNat := by positivity
    rcases hl (Or.inr rfl) with rfl | rfl
    · omega
    · omega
  | shr =>
    simp only [exact, Option.ite_none_right_eq_some, Option.some.injEq] at hv
    obtain ⟨hcount, rfl⟩ := hv
    have hl := hl (Or.inr rfl)
    have hlow : 0 ≤ l / 2 ^ r.toNat := Int.ediv_nonneg (by omega) (by positivity)
    have hhigh : l / 2 ^ r.toNat ≤ l := Int.ediv_le_self _ (by omega)
    omega
  | lt | gt | le | ge | eq | ne =>
    cases hv
    exact truth_bounds _
  | _ => cases hv

end Operators

section Nodes

variable {info : ExprInfo} {v : Int} {e : Expr}

theorem ExprInfo.exactly_holds (hs : info.Sound) {compute : Unit → Option Int}
    (hv : info.exactly compute = some v) :
    ∃ s, info.scalar? = some s ∧ s.WordSized ∧ s.Holds v := by
  unfold ExprInfo.exactly at hv
  cases hscalar : info.scalar? with
  | none => simp [hscalar] at hv
  | some s =>
    cases hfloat : s.kind.isFloat with
    | true => simp [hscalar, hfloat] at hv
    | false =>
      have hsize := (hs s hscalar hfloat).1
      refine ⟨s, rfl, hsize, ?_⟩
      simp only [hscalar, hfloat, Bool.false_eq_true, if_false] at hv
      cases hconstant : info.constant with
      | some c =>
        simp only [hconstant, Option.some.injEq] at hv
        subst hv
        exact s.reduce_holds hsize _
      | none =>
        simp only [hconstant, Option.map_eq_some_iff] at hv
        obtain ⟨w, _, rfl⟩ := hv
        exact s.reduce_holds hsize _

/-- The word of a node is that of its integer, if this is so before the result is brought into the
node's type. -/
theorem ExprInfo.value_exactly (hs : info.Sound) {compute : Unit → Option Int64}
    {exactly : Unit → Option Int} (hcompute : compute () = (exactly ()).map Int64.ofInt)
    (hsmall : ∀ s v, info.scalar? = some s → s.kind = .bool → exactly () = some v →
      -2 ^ 64 < v ∧ v < 2 ^ 64) :
    info.value compute = (info.exactly exactly).map Int64.ofInt := by
  unfold ExprInfo.value ExprInfo.exactly ExprInfo.scalar?
  cases htype : info.type with
  | none => rfl
  | some t =>
    cases hscalar : t.scalar? with
    | none => simp [CType.isInteger, hscalar]
    | some s =>
      have hinfo : info.scalar? = some s := by simp [ExprInfo.scalar?, htype, hscalar]
      cases hfloat : s.kind.isFloat with
      | true => simp [CType.isInteger, hscalar, hfloat]
      | false =>
        obtain ⟨hsize, hrecorded⟩ := hs s hinfo hfloat
        have hreduce := fun v h => CType.fit_ofInt (v := v) hscalar hsize h
        simp only [CType.isInteger, hscalar, hfloat, Option.bind_some, Bool.not_false,
          Bool.not_true, Bool.false_eq_true, if_false]
        cases hconstant : info.constant with
        | some c =>
          obtain ⟨v, hv, rfl⟩ := hrecorded c hconstant
          exact congrArg some (s.ofInt_reduce_toInt hsize hv).symm
        | none =>
          simp only [hcompute]
          cases hexact : exactly () with
          | none => rfl
          | some v =>
            exact congrArg some (hreduce v fun hbool => hsmall s v hinfo hbool hexact)

theorem Expr.WellTyped.sound (h : e.WellTyped) : e.info.Sound := by
  cases e with
  | unary | binary | cast | conditional => exact h.1
  | _ => exact h

theorem TypeEnv.exactValue?_eq (env : TypeEnv) (e : Expr) :
    ∃ compute, env.exactValue? e = e.info.exactly compute := by
  cases e <;> exact ⟨_, rfl⟩

theorem TypeEnv.exactValue?_holds {env : TypeEnv} (h : e.WellTyped)
    (hv : env.exactValue? e = some v) : ∃ s, e.scalar? = some s ∧ s.WordSized ∧ s.Holds v := by
  obtain ⟨compute, hcompute⟩ := env.exactValue?_eq e
  rw [hcompute] at hv
  exact ExprInfo.exactly_holds h.sound hv

theorem TypeEnv.exactValue?_bounds {env : TypeEnv} (h : e.WellTyped)
    (hv : env.exactValue? e = some v) : -2 ^ 63 ≤ v ∧ v < 2 ^ 64 := by
  obtain ⟨s, _, hsize, hholds⟩ := TypeEnv.exactValue?_holds h hv
  exact hholds.bounds hsize

end Nodes

theorem Expr.isSigned_eq {e : Expr} (h : e.scalar? = some s) : e.isSigned = s.signed := by
  simp [Expr.isSigned, h]

/-- Operators that are not logical need both operands. -/
theorem foldBinary_of_not_logical {op : BinaryOp} (hand : op ≠ .logicalAnd) (hor : op ≠ .logicalOr)
    (unsigned : Bool) (l : Int64) (rhs : Unit → Option Int64) :
    foldBinary op unsigned (some l) rhs = (rhs ()).bind fun r => op.evaluate unsigned l r := by
  unfold foldBinary
  cases rhs () with
  | none | some => cases op <;> trivial

theorem BinaryOp.combine_of_not_logical {op : BinaryOp} (hand : op ≠ .logicalAnd)
    (hor : op ≠ .logicalOr) (l : Int) (rhs : Unit → Option Int) :
    op.combine l rhs = (rhs ()).bind fun r => op.exact l r := by
  cases op <;> trivial

/-- Operators on words of integers, with the right operand on demand. -/
theorem foldBinary_ofInt (op : BinaryOp) {l : Int} {rhs : Option Int} (hs : s.WordSized)
    (hl : s.Holds l)
    (hr : ∀ r, rhs = some r → (op.isArithmetic ∨ op.isComparison → s.Holds r) ∧ -2 ^ 63 ≤ r ∧
      r < 2 ^ 64) :
    foldBinary op (!s.signed) (some (Int64.ofInt l)) (fun _ => rhs.map Int64.ofInt) =
      (op.combine l fun _ => rhs).map Int64.ofInt := by
  have hzero := ofInt_eq_zero_of_holds hs hl
  have htruth : (rhs.map Int64.ofInt).map (fun r => ofBool (r ≠ 0)) =
      (rhs.map fun r => truth (r ≠ 0)).map Int64.ofInt := by
    cases rhs with
    | none => rfl
    | some r =>
      obtain ⟨_, hlow, hhigh⟩ := hr r rfl
      have hrzero : Int64.ofInt r = 0 ↔ r = 0 := ofInt_eq_zero (by omega) hhigh
      simp only [Option.map_some, ofBool_eq, ne_eq, hrzero]
  by_cases hand : op = .logicalAnd
  · subst hand
    simp only [foldBinary, BinaryOp.combine, hzero, htruth]
    split <;> rfl
  by_cases hor : op = .logicalOr
  · subst hor
    simp only [foldBinary, BinaryOp.combine, ne_eq, hzero]
    rw [apply_ite (Option.map Int64.ofInt)]
    split
    · rfl
    · exact htruth
  rw [foldBinary_of_not_logical hand hor, BinaryOp.combine_of_not_logical hand hor]
  cases rhs with
  | none => rfl
  | some r =>
    obtain ⟨hheld, hbounds⟩ := hr r rfl
    exact op.evaluate_ofInt hs hl hheld hbounds

theorem BinaryOp.combine_small (op : BinaryOp) {l : Int} {rhs : Option Int}
    (hl : op.isArithmetic ∨ op.isShift → l = 0 ∨ l = 1)
    (hr : op.isArithmetic → ∀ r, rhs = some r → r = 0 ∨ r = 1)
    (hv : (op.combine l fun _ => rhs) = some v) : -2 ^ 64 < v ∧ v < 2 ^ 64 := by
  have htruth : (rhs.map fun r => truth (r ≠ 0)) = some v → -2 ^ 64 < v ∧ v < 2 ^ 64 := by
    intro h
    obtain ⟨r, _, rfl⟩ := Option.map_eq_some_iff.mp h
    exact truth_bounds _
  by_cases hand : op = .logicalAnd
  · subst hand
    simp only [combine] at hv
    split at hv
    · cases hv
      decide
    · exact htruth hv
  by_cases hor : op = .logicalOr
  · subst hor
    simp only [combine] at hv
    split at hv
    · cases hv
      decide
    · exact htruth hv
  rw [combine_of_not_logical hand hor] at hv
  obtain ⟨r, hrhs, hexact⟩ := Option.bind_eq_some_iff.mp hv
  exact op.exact_small hl (fun hop => hr hop r hrhs) hexact

theorem toInt_small (w : Int64) : -2 ^ 64 < w.toInt ∧ w.toInt < 2 ^ 64 := by
  have hlow := w.le_toInt
  have hhigh := w.toInt_lt
  omega

/-- The word that is computed for an expression is that of its exact value. -/
def TypeEnv.FoldsExactly (env : TypeEnv) (e : Expr) : Prop :=
  env.constant? e = (env.exactValue? e).map Int64.ofInt

section Steps

variable {env : TypeEnv} {info : ExprInfo}

theorem TypeEnv.FoldsExactly.eq {e : Expr} (h : env.FoldsExactly e) :
    env.constant? e = (env.exactValue? e).map Int64.ofInt := h

theorem foldsExactly_int {value : Int64} (hs : info.Sound) :
    env.FoldsExactly (.int info value) := by
  refine ExprInfo.value_exactly hs ?_ ?_
  · simp only [Option.map_some, Int64.ofInt_toInt]
  · intro s v _ _ hv
    cases hv
    exact toInt_small value

theorem foldsExactly_sizeOf {arg : CType} (hs : info.Sound) :
    env.FoldsExactly (.sizeOf info arg) := by
  refine ExprInfo.value_exactly hs ?_ ?_
  · rw [Option.map_map]
    congr 1
    funext extent
    exact (Int64.ofInt_toInt extent.size).symm
  · intro s v _ _ hv
    obtain ⟨extent, _, rfl⟩ := Option.map_eq_some_iff.mp hv
    exact toInt_small extent.size

theorem foldsExactly_cast {kind : CastKind} {operand : Expr} {isExplicit : Bool}
    (hs : info.Sound) (ho : operand.WellTyped) (ih : env.FoldsExactly operand) :
    env.FoldsExactly (.cast info kind operand isExplicit) := by
  have hbounds : ∀ v, env.exactValue? operand = some v → -2 ^ 63 ≤ v ∧ v < 2 ^ 64 :=
    fun v hv => TypeEnv.exactValue?_bounds ho hv
  refine ExprInfo.value_exactly hs ?_ ?_
  · cases kind with
    | integralCast | noOp => exact ih
    | integralToBoolean =>
      simp only [ih.eq]
      cases hv : env.exactValue? operand with
      | none => rfl
      | some v =>
        have hzero : Int64.ofInt v = 0 ↔ v = 0 := by
          have hv := hbounds v hv
          exact ofInt_eq_zero (by omega) hv.2
        simp only [Option.map_some, ofBool_eq, ne_eq, hzero]
    | _ => rfl
  · intro s v _ _ hv
    cases kind with
    | integralCast | noOp =>
      have hv := hbounds v hv
      omega
    | integralToBoolean =>
      obtain ⟨w, _, rfl⟩ := Option.map_eq_some_iff.mp hv
      exact truth_bounds _
    | _ => cases hv

theorem foldsExactly_unary {op : UnaryOp} {operand : Expr} (hs : info.Sound)
    (ho : operand.WellTyped) (htype : op.isArithmetic → info.scalar? = operand.scalar?)
    (ih : env.FoldsExactly operand) : env.FoldsExactly (.unary info op operand) := by
  refine ExprInfo.value_exactly hs ?_ ?_
  · simp only [ih.eq]
    cases hv : env.exactValue? operand with
    | none => rfl
    | some v =>
      have hbounds := TypeEnv.exactValue?_bounds ho hv
      exact op.evaluate_ofInt ⟨by omega, hbounds.2⟩
  · intro s w hinfo hbool hw
    obtain ⟨v, hv, hexact⟩ := Option.bind_eq_some_iff.mp hw
    refine op.exact_small (fun hop => ?_) hexact
    obtain ⟨t, ht, _, hholds⟩ := TypeEnv.exactValue?_holds ho hv
    rw [← htype hop, hinfo] at ht
    cases ht
    exact hholds.truth_value hbool

theorem foldsExactly_binary {op : BinaryOp} {lhs rhs : Expr} (hs : info.Sound)
    (hl : lhs.WellTyped) (hr : rhs.WellTyped)
    (htypes : op.isArithmetic ∨ op.isComparison → lhs.scalar? = rhs.scalar?)
    (hnode : op.isArithmetic ∨ op.isShift → info.scalar? = lhs.scalar?)
    (ihl : env.FoldsExactly lhs) (ihr : env.FoldsExactly rhs) :
    env.FoldsExactly (.binary info op lhs rhs) := by
  refine ExprInfo.value_exactly hs ?_ ?_
  · simp only [ihl.eq, ihr.eq]
    cases hlhs : env.exactValue? lhs with
    | none => rfl
    | some l =>
      obtain ⟨s, hscalar, hsize, hholds⟩ := TypeEnv.exactValue?_holds hl hlhs
      rw [Expr.isSigned_eq hscalar]
      refine foldBinary_ofInt op hsize hholds fun r hrhs => ⟨fun hop => ?_, ?_⟩
      · obtain ⟨t, ht, _, hheld⟩ := TypeEnv.exactValue?_holds hr hrhs
        rw [← htypes hop, hscalar] at ht
        cases ht
        exact hheld
      · exact TypeEnv.exactValue?_bounds hr hrhs
  · intro s v hinfo hbool hv
    obtain ⟨l, hlhs, hcombine⟩ := Option.bind_eq_some_iff.mp hv
    refine op.combine_small (fun hop => ?_) (fun hop r hrhs => ?_) hcombine
    · obtain ⟨t, ht, _, hholds⟩ := TypeEnv.exactValue?_holds hl hlhs
      rw [← hnode hop, hinfo] at ht
      cases ht
      exact hholds.truth_value hbool
    · obtain ⟨t, ht, _, hholds⟩ := TypeEnv.exactValue?_holds hr hrhs
      rw [← htypes (Or.inl hop), ← hnode (Or.inl hop), hinfo] at ht
      cases ht
      exact hholds.truth_value hbool

theorem foldsExactly_conditional {cond then_ else_ : Expr} (hs : info.Sound)
    (hc : cond.WellTyped) (ht : then_.WellTyped) (he : else_.WellTyped)
    (ihc : env.FoldsExactly cond) (iht : env.FoldsExactly then_) (ihe : env.FoldsExactly else_) :
    env.FoldsExactly (.conditional info cond then_ else_) := by
  refine ExprInfo.value_exactly hs ?_ ?_
  · simp only [ihc.eq, iht.eq, ihe.eq]
    cases hcond : env.exactValue? cond with
    | none => rfl
    | some c =>
      have hbounds := TypeEnv.exactValue?_bounds hc hcond
      have hzero : Int64.ofInt c = 0 ↔ c = 0 := ofInt_eq_zero (by omega) hbounds.2
      simp only [Option.map_some, Option.bind_some, ne_eq, hzero]
      split <;> rfl
  · intro s v _ _ hv
    obtain ⟨c, _, hchosen⟩ := Option.bind_eq_some_iff.mp hv
    have hbounds : -2 ^ 63 ≤ v ∧ v < 2 ^ 64 := by
      split at hchosen
      · exact TypeEnv.exactValue?_bounds ht hchosen
      · exact TypeEnv.exactValue?_bounds he hchosen
    omega

end Steps

theorem foldsExactly (env : TypeEnv) : ∀ e : Expr, e.WellTyped → env.FoldsExactly e
  | .int _ _, h => foldsExactly_int h
  | .sizeOf _ _, h => foldsExactly_sizeOf h
  | .cast _ _ operand _, h => foldsExactly_cast h.1 h.2 (foldsExactly env operand h.2)
  | .unary _ _ operand, h => foldsExactly_unary h.1 h.2.1 h.2.2 (foldsExactly env operand h.2.1)
  | .binary _ _ lhs rhs, h =>
      foldsExactly_binary h.1 h.2.1 h.2.2.1 h.2.2.2.1 h.2.2.2.2 (foldsExactly env lhs h.2.1)
        (foldsExactly env rhs h.2.2.1)
  | .conditional _ cond then_ else_, h =>
      foldsExactly_conditional h.1 h.2.1 h.2.2.1 h.2.2.2 (foldsExactly env cond h.2.1)
        (foldsExactly env then_ h.2.2.1) (foldsExactly env else_ h.2.2.2)
  | .absent, h | .float _ _, h | .string _ _, h | .ref _ _ _, h | .call _ _ _ _ _, h
  | .member _ _ _ _, h | .subscript _ _ _, h | .listNext _ _, h | .message _ _ _ _, h
  | .classMessage _ _ _ _, h => ExprInfo.value_exactly h rfl fun _ _ _ _ hv => nomatch hv

/-- The value of a constant expression is the word of its exact value, which lies in the range of
the expression's type; where one of them is undefined, so is the other. -/
theorem constant?_eq_exactValue? (env : TypeEnv) (e : Expr) (h : e.WellTyped) :
    env.constant? e = (env.exactValue? e).map Int64.ofInt ∧
      ∀ v, env.exactValue? e = some v → ∃ s, e.scalar? = some s ∧ s.Holds v := by
  refine ⟨foldsExactly env e h, fun v hv => ?_⟩
  obtain ⟨s, hs, _, hholds⟩ := TypeEnv.exactValue?_holds h hv
  exact ⟨s, hs, hholds⟩

/-- The greatest unsigned word, as zero minus one, divided by a name with the value two. -/
def halfOfGreatest : Expr :=
  let word : ExprInfo := { type := some (.scalar ⟨.ulong, 64, false⟩) }
  .binary word .div (.binary word .sub (.int word 0) (.int word 1))
    (.ref { word with constant := some 2 } "two" .var)

theorem halfOfGreatest_wellTyped : halfOfGreatest.WellTyped := by
  have hword : ∀ c, (∀ v, c = some v → v = 2) →
      ExprInfo.Sound { type := some (.scalar ⟨.ulong, 64, false⟩), constant := c } := by
    intro c hc s hs _
    cases hs
    refine ⟨by decide, fun v hv => ⟨2, by decide, hc v hv⟩⟩
  have hplain := hword none nofun
  have htwo := hword (some 2) fun v hv => (Option.some.inj hv).symm
  exact ⟨hplain, ⟨hplain, hplain, hplain, fun _ => rfl, fun _ => rfl⟩, htwo, fun _ => rfl,
    fun _ => rfl⟩

theorem halfOfGreatest_folds :
    halfOfGreatest.WellTyped ∧
      TypeEnv.constant? ⟨"", "", [], []⟩ halfOfGreatest = some (Int64.ofInt (2 ^ 63 - 1)) := by
  refine ⟨halfOfGreatest_wellTyped, ?_⟩
  rw [(constant?_eq_exactValue? ⟨"", "", [], []⟩ halfOfGreatest halfOfGreatest_wellTyped).1]
  decide

end DartLowering
