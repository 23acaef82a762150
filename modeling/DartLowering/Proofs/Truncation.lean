import DartLowering.Proofs.Word
import Mathlib.Data.Int.ModEq

/-!
Truncation is reduction modulo a power of two. The truncated word stands for the one integer of its
width that agrees with the word modulo `2 ^ bits`. So words that agree modulo `2 ^ bits` are
truncated alike, and from this follow the laws of truncating twice and of truncating operands.
-/
namespace DartLowering.Number

variable {b : Nat} {signed : Bool} {v w bits : Int64} {m n : Int}

/-- The integers that `b` bits stand for. -/
def InWidth (b : Nat) (signed : Bool) (n : Int) : Prop :=
  if signed then -2 ^ (b - 1) ≤ n ∧ n < 2 ^ (b - 1) else 0 ≤ n ∧ n < 2 ^ b

/-- The integer of a width that agrees with `n` modulo `2 ^ b`. -/
def residue (b : Nat) (signed : Bool) (n : Int) : Int :=
  if signed then n.bmod (2 ^ b) else n % 2 ^ b

theorem residue_eq_iff (hb : 1 ≤ b) :
    residue b signed m = n ↔ InWidth b signed n ∧ n ≡ m [ZMOD 2 ^ b] := by
  obtain ⟨c, rfl⟩ := Nat.exists_eq_add_of_le' hb
  rw [Int.modEq_comm, Int.modEq_iff_dvd, residue, InWidth, Nat.add_sub_cancel]
  cases signed with
  | false =>
    have hpow : (0 : Int) < 2 ^ (c + 1) := by positivity
    simp only [Bool.false_eq_true, if_false]
    rw [Int.emod_eq_iff hpow.ne', Int.natAbs_of_nonneg hpow.le, and_assoc]
  | true =>
    simp only [if_true]
    rw [Int.bmod_eq_iff (by positivity)]
    push_cast
    rw [(half_pow c).1, (half_pow c).2, and_assoc]

theorem InWidth.inSigned (hb : b ≤ if signed then 64 else 63) (h : InWidth b signed n) :
    InSigned n := by
  have hpow : ∀ k ≤ 63, (2 : Int) ^ k ≤ 2 ^ 63 := fun k hk => pow_le_pow_right₀ (by decide) hk
  unfold InWidth at h
  unfold InSigned
  cases signed with
  | false =>
    simp only [Bool.false_eq_true, if_false] at hb h
    have hle := hpow b hb
    omega
  | true =>
    simp only [if_true] at hb h
    have hle := hpow (b - 1) (by omega)
    omega

theorem toInt_truncate (hlow : 1 ≤ bits) (hhigh : bits ≤ 63) :
    (truncate v bits signed).toInt = residue bits.toNatClampNeg signed v.toInt := by
  have hb : 1 ≤ bits.toNatClampNeg := Int64.toNatClampNeg_le hlow
  have hb' : bits.toNatClampNeg ≤ 63 := Int64.toNatClampNeg_le hhigh
  have hbits := Int64.ofNat_toNatClampNeg bits (Int64.le_trans (by decide) hlow)
  have hword := truncate_ofInt v.toInt hb (by omega) signed
  rw [Int64.ofInt_toInt, hbits] at hword
  rw [hword]
  exact toInt_ofInt_of_inSigned (((residue_eq_iff hb).mp rfl).1.inSigned (by split <;> omega))

theorem toInt_truncate_eq_iff (v : Int64) (signed : Bool) (hlow : 1 ≤ bits) (hhigh : bits ≤ 63) :
    (truncate v bits signed).toInt = n ↔
      InWidth bits.toNatClampNeg signed n ∧ n ≡ v.toInt [ZMOD 2 ^ bits.toNatClampNeg] := by
  rw [toInt_truncate hlow hhigh]
  exact residue_eq_iff (Int64.toNatClampNeg_le hlow)

theorem truncate_of_outside (h : ¬ (1 ≤ bits ∧ bits ≤ 63)) : truncate v bits signed = v := by
  have hout : bits ≤ 0 ∨ 64 ≤ bits := by
    simp only [Int64.le_iff_toInt_le, Int64.reduceToInt] at h ⊢
    omega
  rw [truncate, if_pos (by simpa using hout)]

section Laws

variable {wide : Int64} {signed' : Bool}

theorem truncate_congr (hlow : 1 ≤ bits) (hhigh : bits ≤ 63)
    (h : v.toInt ≡ w.toInt [ZMOD 2 ^ bits.toNatClampNeg]) :
    truncate v bits signed = truncate w bits signed := by
  obtain ⟨hrange, hmod⟩ := (toInt_truncate_eq_iff v signed hlow hhigh).mp rfl
  exact Int64.toInt.inj
    ((toInt_truncate_eq_iff w signed hlow hhigh).mpr ⟨hrange, hmod.trans h⟩).symm

/-- A wide truncation keeps the word modulo every narrower width. -/
theorem truncate_modEq (hwide : bits ≤ wide) :
    (truncate v wide signed').toInt ≡ v.toInt [ZMOD 2 ^ bits.toNatClampNeg] := by
  by_cases hin : 1 ≤ wide ∧ wide ≤ 63
  · have hmod := ((toInt_truncate_eq_iff v signed' hin.1 hin.2).mp rfl).2
    exact hmod.of_dvd (pow_dvd_pow 2 (Int64.toNatClampNeg_le hwide))
  · rw [truncate_of_outside hin]

theorem truncate_absorbs (hlow : 1 ≤ bits) (hwide : bits ≤ wide) :
    truncate (truncate v wide signed') bits signed = truncate v bits signed := by
  by_cases hhigh : bits ≤ 63
  · exact truncate_congr hlow hhigh (truncate_modEq hwide)
  · rw [truncate_of_outside fun h => hhigh (Int64.le_trans hwide h.2)]

/-- Operands may be truncated first where the operation is that of the integers, modulo 2^64. -/
theorem truncate_operands {op : Int64 → Int64 → Int64} {exact : Int → Int → Int}
    (hword : ∀ v w, (op v w).toInt = (exact v.toInt w.toInt).bmod (2 ^ 64))
    (hexact : ∀ {k i i' j j' : Int}, i ≡ i' [ZMOD k] → j ≡ j' [ZMOD k] →
      exact i j ≡ exact i' j' [ZMOD k]) :
    truncate (op (truncate v bits signed) (truncate w bits signed)) bits signed =
      truncate (op v w) bits signed := by
  by_cases hin : 1 ≤ bits ∧ bits ≤ 63
  · obtain ⟨hlow, hhigh⟩ := hin
    have hb : bits.toNatClampNeg ≤ 63 := Int64.toNatClampNeg_le hhigh
    have hop : ∀ v w, (op v w).toInt ≡ exact v.toInt w.toInt [ZMOD 2 ^ bits.toNatClampNeg] := by
      intro v w
      -- The word wraps around at a multiple of `2 ^ bits`.
      have hmod : (op v w).toInt ≡ exact v.toInt w.toInt [ZMOD 2 ^ 64] := by
        rw [hword]
        exact Int.bmod_emod
      exact hmod.of_dvd (pow_dvd_pow 2 (by omega))
    have hkept : ∀ v, (truncate v bits signed).toInt ≡ v.toInt [ZMOD 2 ^ bits.toNatClampNeg] :=
      fun v => truncate_modEq (Int64.le_refl bits)
    exact truncate_congr hlow hhigh
      ((hop _ _).trans ((hexact (hkept v) (hkept w)).trans (hop v w).symm))
  · simp only [truncate_of_outside hin]

end Laws

/-- A truncated word is the one integer of the width that agrees with the word modulo `2 ^ bits`. -/
theorem truncation_is_reduction (v w bits : Int64) (signed : Bool) :
    (1 ≤ bits → bits ≤ 63 → ∀ n : Int, (truncate v bits signed).toInt = n ↔
      InWidth bits.toNatClampNeg signed n ∧ n ≡ v.toInt [ZMOD 2 ^ bits.toNatClampNeg]) ∧
    truncate (truncate v bits signed) bits signed = truncate v bits signed ∧
    (∀ (wide : Int64) (signed' : Bool), 1 ≤ bits → bits ≤ wide →
      truncate (truncate v wide signed') bits signed = truncate v bits signed) ∧
    truncate (truncate v bits signed + truncate w bits signed) bits signed =
      truncate (v + w) bits signed ∧
    truncate (truncate v bits signed - truncate w bits signed) bits signed =
      truncate (v - w) bits signed ∧
    truncate (truncate v bits signed * truncate w bits signed) bits signed =
      truncate (v * w) bits signed ∧
    (¬ (1 ≤ bits ∧ bits ≤ 63) → truncate v bits signed = v) := by
  refine ⟨fun hlow hhigh n => toInt_truncate_eq_iff v signed hlow hhigh, ?_,
    fun wide signed' => truncate_absorbs,
    truncate_operands Int64.toInt_add .add, truncate_operands Int64.toInt_sub .sub,
    truncate_operands Int64.toInt_mul .mul, truncate_of_outside⟩
  by_cases hin : 1 ≤ bits ∧ bits ≤ 63
  · exact truncate_absorbs hin.1 (Int64.le_refl bits)
  · rw [truncate_of_outside hin]

/-- The low byte of 200, read as signed, is -56, also after truncating to two bytes without a
sign. -/
theorem signed_byte_of_two_hundred : (truncate 200 8 true).toInt = -56 ∧
    truncate (truncate 200 16 false) 8 true = truncate 200 8 true ∧ truncate 200 64 true = 200 := by
  obtain ⟨hvalue, -, habsorbed, -⟩ := truncation_is_reduction 200 0 8 true
  obtain ⟨-, -, -, -, -, -, hother⟩ := truncation_is_reduction 200 0 64 true
  refine ⟨(hvalue (by decide) (by decide) (-56)).mpr ⟨?_, ?_⟩,
    habsorbed 16 false (by decide) (by decide), hother (by decide)⟩
  · exact ⟨by decide, by decide⟩
  · decide

end DartLowering.Number
