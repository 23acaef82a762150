import DartLowering.Layout.Basic
import DartLowering.Syntax.Type
import Mathlib.Data.List.Forall2
import Mathlib.Data.Nat.Bitwise
import Mathlib.Tactic.IntervalCases

/-!
Placing fields in exact arithmetic. A `Measure` is a size and an alignment without a bound. Fields
are placed one after the other, each at the next multiple of its alignment, and a record ends at a
multiple of the strictest alignment. As long as that end lies below 2^63, the words of a layout are
the exact numbers; so the fields are aligned, lie inside the record, and those of a struct do not
overlap.
-/
namespace DartLowering.Layout

section Exact

variable {a : Nat} {ps : List Measure}

/-- The least multiple of `a` from `n` on. -/
def roundUp (n a : Nat) : Nat := (n + a - 1) / a * a

theorem dvd_roundUp (n a : Nat) : a ∣ roundUp n a := Dvd.intro_left _ rfl

theorem le_roundUp (ha : 0 < a) (n : Nat) : n ≤ roundUp n a := by
  have hdiv := Nat.div_add_mod' (n + a - 1) a
  have hmod := Nat.mod_lt (n + a - 1) ha
  unfold roundUp
  omega

theorem roundUp_lt (ha : 0 < a) (n : Nat) : roundUp n a < n + a := by
  have hle := Nat.div_mul_le_self (n + a - 1) a
  unfold roundUp
  omega

theorem roundUp_le {n m : Nat} (ha : 0 < a) (hle : n ≤ m) (hdvd : a ∣ m) : roundUp n a ≤ m := by
  obtain ⟨q, rfl⟩ := hdvd
  unfold roundUp
  have hq : (n + a - 1) / a ≤ q := by
    rw [Nat.div_le_iff_le_mul_add_pred ha]
    omega
  rw [Nat.mul_comm]
  exact Nat.mul_le_mul_left a hq

/-- A size and an alignment in bytes, however large. -/
structure Measure where
  size : Nat
  align : Nat
  deriving DecidableEq, Repr

/-- The offset after fields that are placed from `offset` on. -/
def endFrom (offset : Nat) : List Measure → Nat
  | [] => offset
  | p :: ps => endFrom (roundUp offset p.align + p.size) ps

def strictestOf (ps : List Measure) : Nat := ps.foldl (fun most p => max most p.align) 1

def largestOf (ps : List Measure) : Nat := ps.foldl (fun most p => max most p.size) 0

def structMeasure (ps : List Measure) : Measure :=
  ⟨roundUp (endFrom 0 ps) (strictestOf ps), strictestOf ps⟩

def unionMeasure (ps : List Measure) : Measure :=
  ⟨roundUp (largestOf ps) (strictestOf ps), strictestOf ps⟩

/-- The alignment is a power of two up to that of a pointer and divides the size. -/
structure Measure.Natural (p : Measure) : Prop where
  align : ∃ k ≤ 3, p.align = 2 ^ k
  dvd : p.align ∣ p.size

theorem Measure.Natural.align_pos {p : Measure} (h : p.Natural) : 0 < p.align := by
  obtain ⟨k, -, hk⟩ := h.align
  rw [hk]
  exact Nat.two_pow_pos k

theorem Measure.Natural.align_lt {p : Measure} (h : p.Natural) : p.align < 2 ^ 63 := by
  obtain ⟨k, hk, halign⟩ := h.align
  rw [halign]
  exact Nat.pow_lt_pow_right (by decide) (by omega)

theorem le_endFrom (hps : ∀ p ∈ ps, p.Natural) (offset : Nat) : offset ≤ endFrom offset ps := by
  induction ps generalizing offset with
  | nil => exact Nat.le_refl offset
  | cons p ps ih =>
    rw [List.forall_mem_cons] at hps
    have hstart := le_roundUp hps.1.align_pos offset
    have hrest := ih hps.2 (roundUp offset p.align + p.size)
    rw [endFrom]
    omega

theorem size_le_endFrom (hps : ∀ p ∈ ps, p.Natural) (offset : Nat) :
    ∀ p ∈ ps, p.size ≤ endFrom offset ps := by
  induction ps generalizing offset with
  | nil =>
    intro p hp
    cases hp
  | cons q ps ih =>
    rw [List.forall_mem_cons] at hps
    rw [endFrom, List.forall_mem_cons]
    have hrest := le_endFrom hps.2 (roundUp offset q.align + q.size)
    exact ⟨by omega, ih hps.2 _⟩

theorem strictestOf_natural (hps : ∀ p ∈ ps, p.Natural) : ∃ k ≤ 3, strictestOf ps = 2 ^ k := by
  have hfold : ∀ most, (∃ k ≤ 3, most = 2 ^ k) →
      ∃ k ≤ 3, ps.foldl (fun most p => max most p.align) most = 2 ^ k := by
    induction ps with
    | nil => exact fun most hmost => hmost
    | cons p ps ih =>
      intro most hmost
      rw [List.forall_mem_cons] at hps
      refine ih hps.2 (max most p.align) ?_
      rcases Nat.le_total most p.align with hle | hle
      · rw [Nat.max_eq_right hle]
        exact hps.1.align
      · rw [Nat.max_eq_left hle]
        exact hmost
  exact hfold 1 ⟨0, by decide, rfl⟩

theorem size_le_largestOf (ps : List Measure) : ∀ p ∈ ps, p.size ≤ largestOf ps := by
  have hfold : ∀ most, most ≤ ps.foldl (fun most p => max most p.size) most ∧
      ∀ p ∈ ps, p.size ≤ ps.foldl (fun most p => max most p.size) most := by
    induction ps with
    | nil =>
      intro most
      exact ⟨Nat.le_refl most, fun p hp => by cases hp⟩
    | cons q ps ih =>
      intro most
      obtain ⟨hmost, hrest⟩ := ih (max most q.size)
      rw [List.foldl_cons, List.forall_mem_cons]
      exact ⟨by omega, by omega, hrest⟩
  exact (hfold 0).2

theorem structMeasure_natural (hps : ∀ p ∈ ps, p.Natural) : (structMeasure ps).Natural :=
  ⟨strictestOf_natural hps, dvd_roundUp _ _⟩

theorem unionMeasure_natural (hps : ∀ p ∈ ps, p.Natural) : (unionMeasure ps).Natural :=
  ⟨strictestOf_natural hps, dvd_roundUp _ _⟩

end Exact

section Words

/-- Clearing the low bits of a word rounds it down. -/
theorem and_not_ofNat (m k : Nat) :
    Int64.ofNat m &&& ~~~Int64.ofNat (2 ^ k - 1) = Int64.ofNat (m / 2 ^ k * 2 ^ k) := by
  apply Int64.toBitVec_inj.mp
  rw [← Nat.shiftRight_eq_div_pow, ← Nat.shiftLeft_eq]
  apply BitVec.eq_of_getLsbD_eq
  intro i hi
  simp only [Int64.toBitVec_and, Int64.toBitVec_not, Int64.toBitVec_ofNat', BitVec.getLsbD_and,
    BitVec.getLsbD_not, BitVec.getLsbD_ofNat, Nat.testBit_two_pow_sub_one, Nat.testBit_shiftLeft,
    Nat.testBit_shiftRight]
  by_cases hk : i < k
  · have hlow : ¬ i ≥ k := by omega
    simp [hi, hk, hlow]
  · have hhigh : i ≥ k := by omega
    have hsum : k + (i - k) = i := by omega
    simp [hi, hk, hhigh, hsum]

/-- Rounding up to a power of two commutes with reducing a number to a word. -/
theorem alignUp_ofNat (n : Nat) {k : Nat} (hk : k < 63) :
    alignUp (Int64.ofNat n) (Int64.ofNat (2 ^ k)) = Int64.ofNat (roundUp n (2 ^ k)) := by
  have hpos := Nat.two_pow_pos k
  have hpow : 2 ^ k < 2 ^ 63 := Nat.pow_lt_pow_right (by decide) hk
  have hone : Int64.ofNat (2 ^ k) ≤ 1 ↔ 2 ^ k ≤ 1 := Int64.ofNat_le_iff_le hpow (by decide)
  unfold alignUp
  by_cases hsmall : 2 ^ k ≤ 1
  · have hunit : 2 ^ k = 1 := by omega
    rw [if_pos (hone.mpr hsmall), hunit, roundUp, Nat.add_sub_cancel, Nat.div_one, Nat.mul_one]
  · rw [if_neg (fun hle => hsmall (hone.mp hle))]
    have hmask : Int64.ofNat (2 ^ k) - 1 = Int64.ofNat (2 ^ k - 1) :=
      (Int64.ofNat_sub (2 ^ k) 1 hpos).symm
    have hsum : Int64.ofNat n + Int64.ofNat (2 ^ k) - 1 = Int64.ofNat (n + 2 ^ k - 1) := by
      rw [← Int64.ofNat_add]
      exact (Int64.ofNat_sub (n + 2 ^ k) 1 (by omega)).symm
    rw [hmask, hsum, and_not_ofNat]
    rfl

/-- No check changes or refuses a natural alignment. -/
theorem Measure.Natural.align_word {p : Measure} (h : p.Natural) :
    ¬ Int64.ofNat p.align ≤ 0 ∧ isPowerOfTwo (Int64.ofNat p.align) = true ∧
      clampAlignment maxAlignment (Int64.ofNat p.align) = Int64.ofNat p.align := by
  obtain ⟨k, hk, halign⟩ := h.align
  rw [halign]
  interval_cases k <;> decide

theorem arrayLayout_eq_ok {type : String} {size align length : Int64} {l : ArrayLayout} :
    arrayLayout type size align length = .ok l ↔
      0 ≤ length ∧ 0 < size ∧ isPowerOfTwo (if align ≤ 0 then 1 else align) = true ∧
        l = ⟨type, size, if align ≤ 0 then 1 else align, length, length * size⟩ := by
  have hnonneg : 0 ≤ length ↔ ¬ length < 0 := Int64.not_lt.symm
  have hpos : 0 < size ↔ ¬ size ≤ 0 := Int64.not_le.symm
  rw [hnonneg, hpos, arrayLayout]
  by_cases hlength : length < 0
  · simp [hlength]
  · by_cases hsize : size ≤ 0
    · simp [hlength, hsize]
    · by_cases halign : isPowerOfTwo (if align ≤ 0 then 1 else align) = true
      · simp only [hlength, hsize, halign, if_true, if_false, not_false_eq_true, true_and,
          Except.ok.injEq]
        exact eq_comm
      · simp [hlength, hsize, halign]

end Words

section Slots

variable {slots : List Slot} {ps : List Measure}

/-- The words of the slot are the numbers of the measure. -/
def Slot.Takes (s : Slot) (p : Measure) : Prop :=
  s.size = Int64.ofNat p.size ∧ s.align = Int64.ofNat p.align

theorem exists_measure (h : List.Forall₂ Slot.Takes slots ps) :
    ∀ s ∈ slots, ∃ p ∈ ps, s.Takes p := by
  induction h with
  | nil => exact fun s hs => by cases hs
  | @cons s p ss ps hs _ ih =>
    rw [List.forall_mem_cons]
    refine ⟨⟨p, List.mem_cons_self, hs⟩, fun s' hs' => ?_⟩
    obtain ⟨q, hq, htakes⟩ := ih s' hs'
    exact ⟨q, List.mem_cons_of_mem p hq, htakes⟩

/-- The slots again at offsets of their own: aligned, and inside the bytes from `start` to
`stop`. -/
structure Placed (start stop : Nat) (slots placed : List Slot) : Prop where
  kept : List.Forall₂ (fun s s' => s' = { s with offset := s'.offset }) slots placed
  aligned : ∀ s ∈ placed, s.align.toInt ∣ s.offset.toInt
  within : ∀ s ∈ placed, start ≤ s.offset.toInt ∧ s.offset.toInt + s.size.toInt ≤ stop

theorem Placed.widen {start stop stop' : Nat} {placed : List Slot}
    (h : Placed start stop slots placed) (hle : stop ≤ stop') :
    Placed start stop' slots placed where
  kept := h.kept
  aligned := h.aligned
  within s hs := by
    obtain ⟨hfrom, hto⟩ := h.within s hs
    omega

/-- Placing keeps what slots have apart from their offsets. -/
theorem Placed.forall₂ {α : Type} {R : α → Slot → Prop} {start stop : Nat} {as : List α}
    {placed : List Slot} (h : Placed start stop slots placed)
    (hR : ∀ a s offset, R a s → R a { s with offset }) (has : List.Forall₂ R as slots) :
    List.Forall₂ R as placed := by
  have hkept := h.kept
  clear h
  induction has generalizing placed with
  | nil =>
    cases hkept
    exact .nil
  | cons ha _ ih =>
    cases hkept with
    | cons hs hrest => exact .cons (hs ▸ hR _ _ _ ha) (ih hrest)

/-- All slots at offset zero, as in a union. -/
theorem placed_zero (hslots : List.Forall₂ Slot.Takes slots ps) (hps : ∀ p ∈ ps, p.size < 2 ^ 63) :
    Placed 0 (largestOf ps) slots (slots.map fun s => { s with offset := 0 }) where
  kept := by
    rw [List.forall₂_map_right_iff]
    exact List.forall₂_same.mpr fun s _ => rfl
  aligned := by
    rw [List.forall_mem_map]
    exact fun s _ => Int.dvd_zero _
  within := by
    rw [List.forall_mem_map]
    intro s hs
    obtain ⟨p, hp, htakes⟩ := exists_measure hslots s hs
    have hsize : s.size.toInt = p.size := by
      rw [htakes.1]
      exact Int64.toInt_ofNat_of_lt (hps p hp)
    have hle := size_le_largestOf ps p hp
    have hzero : (0 : Int64).toInt = 0 := by decide
    simp only [hzero, hsize]
    omega

theorem checkSlots_eq_ok (hslots : List.Forall₂ Slot.Takes slots ps) (hps : ∀ p ∈ ps, p.Natural)
    (hsize : ∀ p ∈ ps, p.size < 2 ^ 63) : checkSlots maxAlignment slots = .ok slots := by
  induction hslots with
  | nil => rfl
  | @cons s p ss ps hs _ ih =>
    rw [List.forall_mem_cons] at hps hsize
    have hnonneg : ¬ s.size < 0 := by
      rw [hs.1, Int64.not_lt]
      exact (Int64.ofNat_le_iff_le (by decide) hsize.1).mpr (Nat.zero_le _)
    have hcheck : checkSlot maxAlignment s = .ok s := by
      obtain ⟨-, hpower, hclamp⟩ := hps.1.align_word
      rw [checkSlot, if_neg hnonneg, hs.2, hclamp, if_pos hpower, ← hs.2]
    rw [checkSlots, hcheck, ih hps.2 hsize.2]
    rfl

theorem checkSlots_eq_error {limit : Int64} {fault : LayoutFault}
    (h : checkSlots limit slots = .error fault) :
    ∃ s ∈ slots, checkSlot limit s = .error fault := by
  induction slots with
  | nil => cases h
  | cons s ss ih =>
    rw [checkSlots] at h
    cases hs : checkSlot limit s with
    | error other =>
      rw [hs] at h
      cases h
      exact ⟨s, List.mem_cons_self, hs⟩
    | ok checked =>
      cases hss : checkSlots limit ss with
      | ok rest =>
        rw [hs, hss] at h
        cases h
      | error other =>
        rw [hs, hss] at h
        cases h
        obtain ⟨s', hs', hfault⟩ := ih hss
        exact ⟨s', List.mem_cons_of_mem s hs', hfault⟩

theorem placeFrom_spec (hslots : List.Forall₂ Slot.Takes slots ps) (hps : ∀ p ∈ ps, p.Natural)
    {offset : Nat} (hend : endFrom offset ps < 2 ^ 63) :
    (placeFrom (Int64.ofNat offset) slots).2.2 = Int64.ofNat (endFrom offset ps) ∧
      Placed offset (endFrom offset ps) slots (placeFrom (Int64.ofNat offset) slots).1 ∧
      (placeFrom (Int64.ofNat offset) slots).1.Pairwise
        fun s s' => s.offset.toInt + s.size.toInt ≤ s'.offset.toInt := by
  induction hslots generalizing offset with
  | nil => exact ⟨rfl, ⟨.nil, by simp [placeFrom], by simp [placeFrom]⟩, .nil⟩
  | @cons s p ss ps hs _ ih =>
    rw [List.forall_mem_cons] at hps
    obtain ⟨k, hk, halign⟩ := hps.1.align
    -- the field starts at the next multiple and the others come after its end
    have hstop := le_endFrom hps.2 (roundUp offset p.align + p.size)
    rw [endFrom] at hend ⊢
    have hstart : alignUp (Int64.ofNat offset) s.align = Int64.ofNat (roundUp offset p.align) := by
      rw [hs.2, halign]
      exact alignUp_ofNat offset (by omega)
    have hnext : Int64.ofNat (roundUp offset p.align) + s.size =
        Int64.ofNat (roundUp offset p.align + p.size) := by
      rw [hs.1, Int64.ofNat_add]
    obtain ⟨hlast, hrest, hapart⟩ := ih hps.2 hend
    have hoffset : (Int64.ofNat (roundUp offset p.align)).toInt = roundUp offset p.align :=
      Int64.toInt_ofNat_of_lt (by omega)
    have hsize : s.size.toInt = p.size := by
      rw [hs.1]
      exact Int64.toInt_ofNat_of_lt (by omega)
    have halignInt : s.align.toInt = p.align := by
      rw [hs.2]
      exact Int64.toInt_ofNat_of_lt hps.1.align_lt
    have hle := le_roundUp hps.1.align_pos offset
    simp only [placeFrom, hstart, hnext]
    refine ⟨hlast, ⟨.cons rfl hrest.kept, ?_, ?_⟩, ?_⟩
    · rw [List.forall_mem_cons]
      refine ⟨?_, hrest.aligned⟩
      simp only [hoffset, halignInt]
      exact Int.natCast_dvd_natCast.mpr (dvd_roundUp _ _)
    · rw [List.forall_mem_cons]
      refine ⟨?_, fun s' hs' => ?_⟩
      · simp only [hoffset, hsize]
        omega
      · obtain ⟨hfrom, hto⟩ := hrest.within s' hs'
        omega
    · rw [List.pairwise_cons]
      refine ⟨fun s' hs' => ?_, hapart⟩
      obtain ⟨hfrom, -⟩ := hrest.within s' hs'
      simp only [hoffset, hsize]
      omega

/-- A greatest word among the slots is that of the greatest number. -/
theorem foldl_greatest {word : Slot → Int64} {number : Measure → Nat}
    (hslots : List.Forall₂ (fun s p => word s = Int64.ofNat (number p)) slots ps)
    (hps : ∀ p ∈ ps, number p < 2 ^ 63) {most : Nat} (hmost : most < 2 ^ 63) :
    slots.foldl (fun most s => if most < word s then word s else most) (Int64.ofNat most) =
      Int64.ofNat (ps.foldl (fun most p => max most (number p)) most) := by
  induction hslots generalizing most with
  | nil => rfl
  | @cons s p ss ps hs _ ih =>
    rw [List.forall_mem_cons] at hps
    have hlt := Int64.ofNat_lt_iff_lt hmost hps.1
    have hstep : (if Int64.ofNat most < word s then word s else Int64.ofNat most) =
        Int64.ofNat (max most (number p)) := by
      rw [hs]
      by_cases hless : most < number p
      · rw [if_pos (hlt.mpr hless), Nat.max_eq_right (Nat.le_of_lt hless)]
      · rw [if_neg (mt hlt.mp hless), Nat.max_eq_left (Nat.le_of_not_lt hless)]
    rw [List.foldl_cons, List.foldl_cons, hstep]
    exact ih hps.2 (Nat.max_lt.mpr ⟨hmost, hps.1⟩)

theorem strictest_eq (hslots : List.Forall₂ Slot.Takes slots ps) (hps : ∀ p ∈ ps, p.Natural) :
    strictest slots = Int64.ofNat (strictestOf ps) := by
  have halign : ∀ p ∈ ps, p.align < 2 ^ 63 := fun p hp => (hps p hp).align_lt
  exact foldl_greatest (hslots.imp fun _ _ h => h.2) halign (by decide)

theorem largest_eq (hslots : List.Forall₂ Slot.Takes slots ps) (hps : ∀ p ∈ ps, p.size < 2 ^ 63) :
    largest slots = Int64.ofNat (largestOf ps) :=
  foldl_greatest (hslots.imp fun _ _ h => h.1) hps (by decide)

/-- The end of a record is the word of the exact one. -/
theorem alignUp_strictest (hps : ∀ p ∈ ps, p.Natural) (n : Nat) :
    alignUp (Int64.ofNat n) (Int64.ofNat (strictestOf ps)) =
      Int64.ofNat (roundUp n (strictestOf ps)) := by
  obtain ⟨k, hk, halign⟩ := strictestOf_natural hps
  rw [halign]
  exact alignUp_ofNat n (by omega)

theorem le_roundUp_strictest (hps : ∀ p ∈ ps, p.Natural) (n : Nat) :
    n ≤ roundUp n (strictestOf ps) := by
  obtain ⟨k, -, halign⟩ := strictestOf_natural hps
  rw [halign]
  exact le_roundUp (Nat.two_pow_pos k) n

theorem structLayout_spec (name : String) (hslots : List.Forall₂ Slot.Takes slots ps)
    (hps : ∀ p ∈ ps, p.Natural) (hsize : (structMeasure ps).size < 2 ^ 63) :
    ∃ l, structLayout maxAlignment name slots = .ok l ∧
      l.size = Int64.ofNat (structMeasure ps).size ∧
        l.align = Int64.ofNat (structMeasure ps).align ∧
      Placed 0 (structMeasure ps).size slots l.fields ∧
      l.fields.Pairwise fun s s' => s.offset.toInt + s.size.toInt ≤ s'.offset.toInt := by
  have hle := le_roundUp_strictest hps (endFrom 0 ps)
  have hend : endFrom 0 ps < 2 ^ 63 := Nat.lt_of_le_of_lt hle hsize
  have hsizes : ∀ p ∈ ps, p.size < 2 ^ 63 := fun p hp =>
    Nat.lt_of_le_of_lt (size_le_endFrom hps 0 p hp) hend
  obtain ⟨hstop, hplaced, hapart⟩ := placeFrom_spec hslots hps hend
  rw [structLayout, checkSlots_eq_ok hslots hps hsizes]
  refine ⟨_, rfl, ?_, strictest_eq hslots hps, hplaced.widen hle, hapart⟩
  show alignUp (placeFrom 0 slots).2.2 (strictest slots) = _
  rw [strictest_eq hslots hps]
  exact (congrArg (alignUp · _) hstop).trans (alignUp_strictest hps _)

theorem unionLayout_spec (name : String) (hslots : List.Forall₂ Slot.Takes slots ps)
    (hps : ∀ p ∈ ps, p.Natural) (hsize : (unionMeasure ps).size < 2 ^ 63) :
    ∃ l, unionLayout maxAlignment name slots = .ok l ∧
      l.size = Int64.ofNat (unionMeasure ps).size ∧ l.align = Int64.ofNat (unionMeasure ps).align ∧
      Placed 0 (unionMeasure ps).size slots l.fields := by
  have hle := le_roundUp_strictest hps (largestOf ps)
  have hsizes : ∀ p ∈ ps, p.size < 2 ^ 63 := fun p hp =>
    Nat.lt_of_le_of_lt (Nat.le_trans (size_le_largestOf ps p hp) hle) hsize
  rw [unionLayout, checkSlots_eq_ok hslots hps hsizes]
  refine ⟨_, rfl, ?_, strictest_eq hslots hps, (placed_zero hslots hsizes).widen hle⟩
  show alignUp (largest slots) (strictest slots) = _
  rw [largest_eq hslots hsizes, strictest_eq hslots hps]
  exact alignUp_strictest hps _

end Slots

end DartLowering.Layout
