import DartLowering.Number.Truncate
import Mathlib.Data.Int.Bitwise
import Mathlib.Tactic.Positivity

/-!
Words as images of integers. `Int64.ofInt` takes every integer to the word that agrees with it
modulo 2^64; sums, differences and products commute with it. Here are the operations that commute
with it only where the integers lie in the range that their signedness gives them, and the reduction
of a word to fewer bits, which is the reduction of the integer.
-/
namespace DartLowering.Number

variable {a b : Int}

/-- The integers that a word stands for when it is read as signed. -/
def InSigned (v : Int) : Prop := -2 ^ 63 ≤ v ∧ v < 2 ^ 63

/-- The integers that a word stands for when it is read as unsigned. -/
def InUnsigned (v : Int) : Prop := 0 ≤ v ∧ v < 2 ^ 64

theorem ofInt_eq_iff : Int64.ofInt a = Int64.ofInt b ↔ a.bmod (2 ^ 64) = b.bmod (2 ^ 64) := by
  rw [Int64.ofInt_eq_iff_bmod_eq_toInt, Int64.toInt_ofInt]
  exact Iff.rfl

theorem ofInt_emod (v : Int) : Int64.ofInt (v % 2 ^ 64) = Int64.ofInt v := by
  rw [ofInt_eq_iff]
  exact Int.emod_bmod v (2 ^ 64)

theorem ofInt_bmod (v : Int) : Int64.ofInt (v.bmod (2 ^ 64)) = Int64.ofInt v := by
  rw [ofInt_eq_iff, Int.bmod_bmod]

theorem toInt_ofInt_of_inSigned {v : Int} (h : InSigned v) : (Int64.ofInt v).toInt = v :=
  Int64.toInt_ofInt_of_le h.1 h.2

/-- No two integers less than 2^64 apart share a word. -/
theorem ofInt_inj (hlow : a - b < 2 ^ 64) (hhigh : b - a < 2 ^ 64) :
    Int64.ofInt a = Int64.ofInt b ↔ a = b := by
  rw [ofInt_eq_iff, Int.bmod_def, Int.bmod_def]
  omega

theorem InSigned.ofInt_inj (ha : InSigned a) (hb : InSigned b) :
    Int64.ofInt a = Int64.ofInt b ↔ a = b := by
  unfold InSigned at ha hb
  exact Number.ofInt_inj (by omega) (by omega)

theorem InUnsigned.ofInt_inj (ha : InUnsigned a) (hb : InUnsigned b) :
    Int64.ofInt a = Int64.ofInt b ↔ a = b := by
  unfold InUnsigned at ha hb
  exact Number.ofInt_inj (by omega) (by omega)

theorem ofInt_eq_zero {v : Int} (hlow : -2 ^ 64 < v) (hhigh : v < 2 ^ 64) :
    Int64.ofInt v = 0 ↔ v = 0 := by
  have h := Number.ofInt_inj (a := v) (b := 0) (by omega) (by omega)
  exact h

section Shifts

variable {k : Nat}

theorem smod_ofNat : ∀ k < 64, (Int64.ofNat k).toBitVec.smod 64 = BitVec.ofNat 64 k := by
  decide +kernel

theorem toBitVec_shiftLeft_ofNat (a : Int64) (hk : k < 64) :
    (a <<< Int64.ofNat k).toBitVec = a.toBitVec <<< k := by
  rw [Int64.toBitVec_shiftLeft, smod_ofNat k hk, BitVec.shiftLeft_eq', BitVec.toNat_ofNat,
    Nat.mod_eq_of_lt (by omega)]

theorem toBitVec_shiftRight_ofNat (a : Int64) (hk : k < 64) :
    (a >>> Int64.ofNat k).toBitVec = a.toBitVec.sshiftRight k := by
  rw [Int64.toBitVec_shiftRight, smod_ofNat k hk, BitVec.sshiftRight_eq', BitVec.toNat_ofNat,
    Nat.mod_eq_of_lt (by omega)]

theorem ofInt_shiftLeft (v : Int) (hk : k < 64) :
    Int64.ofInt v <<< Int64.ofNat k = Int64.ofInt (v * 2 ^ k) := by
  apply Int64.toBitVec_inj.mp
  have hpow : BitVec.ofInt 64 (2 ^ k) = BitVec.twoPow 64 k := by
    have hcast : (2 : Int) ^ k = ((2 ^ k : Nat) : Int) := by norm_cast
    rw [hcast, BitVec.ofInt_natCast]
    apply BitVec.eq_of_toNat_eq
    rw [BitVec.toNat_ofNat, BitVec.toNat_twoPow]
  rw [toBitVec_shiftLeft_ofNat _ hk, Int64.toBitVec_ofInt, Int64.toBitVec_ofInt, BitVec.ofInt_mul,
    hpow, BitVec.shiftLeft_eq_mul_twoPow]

theorem toInt_shiftRight (a : Int64) (hk : k < 64) :
    (a >>> Int64.ofNat k).toInt = a.toInt / 2 ^ k := by
  rw [← Int64.toInt_toBitVec, toBitVec_shiftRight_ofNat a hk, BitVec.toInt_sshiftRight,
    Int64.toInt_toBitVec, Int.shiftRight_eq_div_pow]
  norm_cast

theorem ofInt_shiftRight {v : Int} (hv : InSigned v) (hk : k < 64) :
    Int64.ofInt v >>> Int64.ofNat k = Int64.ofInt (v / 2 ^ k) := by
  rw [← Int64.ofInt_toInt (Int64.ofInt v >>> Int64.ofNat k), toInt_shiftRight _ hk,
    toInt_ofInt_of_inSigned hv]

end Shifts

section Unsigned

theorem InUnsigned.exists_nat {v : Int} (h : InUnsigned v) : ∃ n : Nat, n < 2 ^ 64 ∧ v = n := by
  obtain ⟨n, rfl⟩ := Int.eq_ofNat_of_zero_le h.1
  exact ⟨n, by exact_mod_cast h.2, rfl⟩

theorem toUInt64_ofInt_natCast (n : Nat) : (Int64.ofInt n).toUInt64 = UInt64.ofNat n := by
  rw [Int64.ofInt_eq_ofNat, Int64.toUInt64_ofNat']

theorem toInt64_ofNat (n : Nat) : (UInt64.ofNat n).toInt64 = Int64.ofInt n := by
  rw [UInt64.toInt64_ofNat', Int64.ofInt_eq_ofNat]

theorem ofInt_udiv {a b : Int} (ha : InUnsigned a) (hb : InUnsigned b) :
    ((Int64.ofInt a).toUInt64 / (Int64.ofInt b).toUInt64).toInt64 = Int64.ofInt (a.tdiv b) := by
  obtain ⟨m, hm, rfl⟩ := ha.exists_nat
  obtain ⟨n, hn, rfl⟩ := hb.exists_nat
  rw [toUInt64_ofInt_natCast, toUInt64_ofInt_natCast, ← UInt64.ofNat_div hm hn, toInt64_ofNat]
  rfl

theorem ofInt_umod {a b : Int} (ha : InUnsigned a) (hb : InUnsigned b) :
    ((Int64.ofInt a).toUInt64 % (Int64.ofInt b).toUInt64).toInt64 = Int64.ofInt (a.tmod b) := by
  obtain ⟨m, hm, rfl⟩ := ha.exists_nat
  obtain ⟨n, hn, rfl⟩ := hb.exists_nat
  rw [toUInt64_ofInt_natCast, toUInt64_ofInt_natCast, ← UInt64.ofNat_mod hm hn, toInt64_ofNat]
  rfl

theorem ofInt_ult {a b : Int} (ha : InUnsigned a) (hb : InUnsigned b) :
    (Int64.ofInt a).toUInt64 < (Int64.ofInt b).toUInt64 ↔ a < b := by
  obtain ⟨m, hm, rfl⟩ := ha.exists_nat
  obtain ⟨n, hn, rfl⟩ := hb.exists_nat
  rw [toUInt64_ofInt_natCast, toUInt64_ofInt_natCast, UInt64.ofNat_lt_iff_lt hm hn]
  exact Int.ofNat_lt.symm

theorem ofInt_ushiftRight {v : Int} (hv : InUnsigned v) {k : Nat} (hk : k < 64) :
    ((Int64.ofInt v).toUInt64 >>> (Int64.ofNat k).toUInt64).toInt64 = Int64.ofInt (v / 2 ^ k) := by
  obtain ⟨n, hn, rfl⟩ := hv.exists_nat
  rw [toUInt64_ofInt_natCast, Int64.toUInt64_ofNat']
  have hk64 : k < UInt64.size := Nat.lt_trans hk (by decide)
  have hnat : UInt64.ofNat n >>> UInt64.ofNat k = UInt64.ofNat (n / 2 ^ k) := by
    apply UInt64.toNat.inj
    rw [UInt64.toNat_shiftRight, UInt64.toNat_ofNat_of_lt' hn, UInt64.toNat_ofNat_of_lt' hk64,
      Nat.mod_eq_of_lt hk, Nat.shiftRight_eq_div_pow,
      UInt64.toNat_ofNat_of_lt' (Nat.lt_of_le_of_lt (Nat.div_le_self ..) hn)]
  rw [hnat, toInt64_ofNat]
  norm_cast

end Unsigned

section Bits

theorem getLsbD_ofInt (v : Int) {w i : Nat} (hi : i < w) :
    (BitVec.ofInt w v).getLsbD i = v.testBit i := by
  cases v with
  | ofNat n =>
    rw [Int.ofNat_eq_natCast, BitVec.ofInt_natCast, BitVec.getLsbD_ofNat]
    simp [hi, Int.testBit]
  | negSucc n =>
    rw [BitVec.ofInt_negSucc_eq_not_ofNat, BitVec.getLsbD_not, BitVec.getLsbD_ofNat]
    simp [hi, Int.testBit]

theorem ofInt_land (a b : Int) : Int64.ofInt a &&& Int64.ofInt b = Int64.ofInt (a.land b) := by
  apply Int64.toBitVec_inj.mp
  apply BitVec.eq_of_getLsbD_eq
  intro i hi
  simp only [Int64.toBitVec_and, Int64.toBitVec_ofInt, BitVec.getLsbD_and, getLsbD_ofInt _ hi,
    Int.testBit_land]

theorem ofInt_lor (a b : Int) : Int64.ofInt a ||| Int64.ofInt b = Int64.ofInt (a.lor b) := by
  apply Int64.toBitVec_inj.mp
  apply BitVec.eq_of_getLsbD_eq
  intro i hi
  simp only [Int64.toBitVec_or, Int64.toBitVec_ofInt, BitVec.getLsbD_or, getLsbD_ofInt _ hi,
    Int.testBit_lor]

theorem ofInt_xor (a b : Int) : Int64.ofInt a ^^^ Int64.ofInt b = Int64.ofInt (a.xor b) := by
  apply Int64.toBitVec_inj.mp
  apply BitVec.eq_of_getLsbD_eq
  intro i hi
  simp only [Int64.toBitVec_xor, Int64.toBitVec_ofInt, BitVec.getLsbD_xor, getLsbD_ofInt _ hi,
    Int.testBit_lxor]

theorem ofInt_not (v : Int) : ~~~Int64.ofInt v = Int64.ofInt (-v - 1) := by
  rw [Int64.not_eq_neg_add, ← Int64.ofInt_neg]
  exact (Int64.ofInt_sub (-v) 1).symm

end Bits

section Truncation

theorem emod_mul_pow (v : Int) (b k : Nat) :
    v * 2 ^ k % 2 ^ (b + k) = v % 2 ^ b * 2 ^ k := by
  rw [pow_add, Int.mul_comm v, Int.mul_comm (2 ^ b), Int.mul_emod_mul_of_pos _ _ (by positivity),
    Int.mul_comm]

theorem half_pow (c : Nat) :
    (2 : Int) ^ (c + 1) / 2 = 2 ^ c ∧ ((2 : Int) ^ (c + 1) + 1) / 2 = 2 ^ c := by
  rw [pow_succ]
  omega

theorem bmod_mul_pow (v : Int) {b : Nat} (hb : 1 ≤ b) (k : Nat) :
    (v * 2 ^ k).bmod (2 ^ (b + k)) = v.bmod (2 ^ b) * 2 ^ k := by
  obtain ⟨c, rfl⟩ := Nat.exists_eq_add_of_le' hb
  have hk : (0 : Int) < 2 ^ k := by positivity
  have hemod := emod_mul_pow v (c + 1) k
  rw [Int.bmod_def, Int.bmod_def]
  push_cast
  rw [hemod]
  have hhalf : ((2 : Int) ^ (c + 1 + k) + 1) / 2 = 2 ^ c * 2 ^ k := by
    rw [show c + 1 + k = c + k + 1 by omega, (half_pow _).2, pow_add]
  rw [hhalf, (half_pow c).2]
  by_cases hlt : v % 2 ^ (c + 1) < 2 ^ c
  · rw [if_pos hlt, if_pos (Int.mul_lt_mul_of_pos_right hlt hk)]
  · have hle : 2 ^ c * 2 ^ k ≤ v % 2 ^ (c + 1) * 2 ^ k :=
      Int.mul_le_mul_of_nonneg_right (by omega) hk.le
    rw [if_neg hlt, if_neg (by omega), Int.sub_mul, ← pow_add]

theorem toUInt64_shiftLeft_ofNat (a : Int64) {k : Nat} (hk : k < 64) :
    a.toUInt64 <<< (Int64.ofNat k).toUInt64 = (a <<< Int64.ofNat k).toUInt64 := by
  apply UInt64.toNat.inj
  have hk64 : k < UInt64.size := Nat.lt_trans hk (by decide)
  rw [UInt64.toNat_shiftLeft, Int64.toUInt64_ofNat', UInt64.toNat_ofNat_of_lt' hk64,
    Nat.mod_eq_of_lt hk, ← Int64.toNat_toBitVec (a <<< Int64.ofNat k),
    toBitVec_shiftLeft_ofNat a hk, BitVec.toNat_shiftLeft, Int64.toNat_toBitVec]

/-- Reducing a word to `b` bits reduces the integer behind it. -/
theorem truncate_ofInt (v : Int) {b : Nat} (hb : 1 ≤ b) (hb' : b ≤ 64) (signed : Bool) :
    truncate (Int64.ofInt v) (Int64.ofNat b) signed =
      Int64.ofInt (if signed then v.bmod (2 ^ b) else v % 2 ^ b) := by
  have hzero : ¬ Int64.ofNat b ≤ 0 := by
    have h := Int64.ofNat_le_iff_le (a := b) (b := 0) (by omega) (by omega)
    exact fun hle => absurd (h.mp hle) (by omega)
  by_cases hfull : b = 64
  · -- nothing is cut off, and both reductions leave the word alone
    subst hfull
    cases signed with
    | false => exact (ofInt_emod v).symm
    | true => exact (ofInt_bmod v).symm
  · have hlarge : ¬ 64 ≤ Int64.ofNat b := by
      have h := Int64.ofNat_le_iff_le (a := 64) (b := b) (by omega) (by omega)
      exact fun hle => absurd (h.mp hle) (by omega)
    obtain ⟨k, hk⟩ : ∃ k, 64 = b + k := ⟨64 - b, by omega⟩
    have hshift : 64 - Int64.ofNat b = Int64.ofNat k := by
      have h := Int64.ofNat_sub 64 b hb'
      rw [show 64 - b = k by omega] at h
      exact h.symm
    have hpow : (0 : Int) < 2 ^ k := by positivity
    simp only [truncate, hzero, hlarge, decide_false, Bool.or_self, Bool.false_eq_true, if_false,
      hshift]
    cases signed with
    | false =>
      have hword : (Int64.ofInt v <<< Int64.ofNat k) = Int64.ofInt (v % 2 ^ b * 2 ^ k) := by
        rw [ofInt_shiftLeft v (by omega), ← ofInt_emod, hk, emod_mul_pow]
      have hrange : InUnsigned (v % 2 ^ b * 2 ^ k) := by
        rw [← emod_mul_pow, ← hk]
        exact ⟨Int.emod_nonneg _ (by positivity), Int.emod_lt_of_pos _ (by positivity)⟩
      simp only [Bool.false_eq_true, if_false]
      rw [toUInt64_shiftLeft_ofNat _ (by omega), hword, ofInt_ushiftRight hrange (by omega),
        Int.mul_ediv_cancel _ hpow.ne']
    | true =>
      simp only [if_true]
      rw [← Int64.ofInt_toInt ((_ <<< _) >>> _), toInt_shiftRight _ (by omega),
        ofInt_shiftLeft v (by omega), Int64.toInt_ofInt]
      have hsize : Int64.size = 2 ^ (b + k) := by rw [← hk]; rfl
      rw [hsize, bmod_mul_pow v hb, Int.mul_ediv_cancel _ hpow.ne']

end Truncation

end DartLowering.Number
