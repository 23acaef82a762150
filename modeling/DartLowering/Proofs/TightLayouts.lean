import DartLowering.Proofs.Placement
import Mathlib.Algebra.GroupWithZero.Nat
import Mathlib.Algebra.Order.BigOperators.Group.List
import Mathlib.Data.List.Chain
import Mathlib.Order.Bounds.Basic

/-!
Structs without a byte to spare. Every field starts at the least multiple of its alignment from the
end of the one before it, and the struct ends at the least multiple of the strictest alignment.
Fields and gaps together take every byte of the struct once: `Filled` says so of the fields placed
so far, `Filled.cons` is the step for one more field and `placeFrom_filled` the run over all of
them. The words of a layout are exact as long as sizes and alignments leave room below 2^63.
-/
namespace DartLowering.Layout

section Words

variable {v : Int64}

theorem exists_ofNat_eq (hv : 0 ≤ v.toInt) :
    ∃ n : Nat, n < 2 ^ 63 ∧ v = Int64.ofNat n ∧ v.toInt = n := by
  obtain ⟨n, hn⟩ := Int.eq_ofNat_of_zero_le hv
  have hlt := v.toInt_lt
  refine ⟨n, by omega, ?_, hn⟩
  rw [← Int64.ofInt_toInt v, hn, Int64.ofInt_eq_ofNat]

theorem isPowerOfTwo_iff {a : Int64} : isPowerOfTwo a = true ↔ ∃ k : Nat, a.toInt = 2 ^ k := by
  have hpos : 0 < a ↔ 0 < a.toInt := Int64.lt_iff_toInt_lt
  unfold isPowerOfTwo
  rw [Bool.and_eq_true_iff, decide_eq_true_iff, decide_eq_true_iff, hpos]
  by_cases ha : 0 < a.toInt
  · obtain ⟨n, hn, rfl, hword⟩ := exists_ofNat_eq (Int.le_of_lt ha)
    rw [hword] at ha ⊢
    have hne : n ≠ 0 := by omega
    have hmask : Int64.ofNat n &&& (Int64.ofNat n - 1) = Int64.ofNat (n &&& (n - 1)) := by
      have hsub : Int64.ofNat n - 1 = Int64.ofNat (n - 1) := (Int64.ofNat_sub n 1 (by omega)).symm
      rw [hsub]
      apply Int64.toBitVec_inj.mp
      rw [Int64.toBitVec_and, Int64.toBitVec_ofNat', Int64.toBitVec_ofNat', Int64.toBitVec_ofNat',
        BitVec.ofNat_and]
    have hzero : Int64.ofNat (n &&& (n - 1)) = 0 ↔ n &&& (n - 1) = 0 := by
      have hlt : n &&& (n - 1) < 2 ^ 63 := Nat.lt_of_le_of_lt Nat.and_le_left hn
      rw [← Int64.toInt_inj, Int64.toInt_ofNat_of_lt hlt, Int64.toInt_zero]
      omega
    rw [hmask, hzero, Nat.and_sub_one_eq_zero_iff_isPowerOfTwo hne]
    refine ⟨fun h => ?_, fun h => ⟨ha, ?_⟩⟩
    · obtain ⟨k, hk⟩ := h.2
      exact ⟨k, by exact_mod_cast hk⟩
    · obtain ⟨k, hk⟩ := h
      exact ⟨k, by exact_mod_cast hk⟩
  · refine iff_of_false (fun h => ha h.1) ?_
    rintro ⟨k, hk⟩
    have hpow : (0 : Int) < 2 ^ k := Int.pow_pos (by decide)
    omega

/-- The multiples of an alignment from an offset on. -/
def multiplesFrom (offset align : Int) : Set Int := {x | offset ≤ x ∧ align ∣ x}

/-- Rounding up gives the least multiple, less than one step away. -/
theorem alignUp_isLeast {a : Int64} {k : Nat} (hv : 0 ≤ v.toInt) (ha : a.toInt = 2 ^ k)
    (hroom : v.toInt + a.toInt ≤ 2 ^ 63) :
    IsLeast (multiplesFrom v.toInt a.toInt) (alignUp v a).toInt ∧
      (alignUp v a).toInt < v.toInt + a.toInt := by
  obtain ⟨n, hn, rfl, hword⟩ := exists_ofNat_eq hv
  have hstep : a.toInt = (2 ^ k : Nat) := by exact_mod_cast ha
  have hpos := Nat.two_pow_pos k
  have halt := a.toInt_lt
  rw [hword, hstep] at hroom ⊢
  have hlt := roundUp_lt hpos n
  have hround : roundUp n (2 ^ k) < 2 ^ 63 := by omega
  have hk : k < 63 := (Nat.pow_lt_pow_iff_right (by decide : 1 < 2)).mp (by omega : 2 ^ k < 2 ^ 63)
  have haword : a = Int64.ofNat (2 ^ k) := by
    rw [← Int64.ofInt_toInt a, hstep, Int64.ofInt_eq_ofNat]
  rw [haword, alignUp_ofNat n hk, Int64.toInt_ofNat_of_lt hround]
  refine ⟨⟨⟨?_, ?_⟩, ?_⟩, by omega⟩
  · exact_mod_cast le_roundUp hpos n
  · exact_mod_cast dvd_roundUp n (2 ^ k)
  · rintro x ⟨hle, hdvd⟩
    obtain ⟨m, rfl⟩ := Int.eq_ofNat_of_zero_le (by omega : 0 ≤ x)
    have hnm : n ≤ m := by omega
    exact_mod_cast roundUp_le hpos hnm (by exact_mod_cast hdvd)

theorem toInt_add_of_lt {w : Int64} (hv : 0 ≤ v.toInt) (hw : 0 ≤ w.toInt)
    (hlt : v.toInt + w.toInt < 2 ^ 63) : (v + w).toInt = v.toInt + w.toInt := by
  rw [Int64.toInt_add]
  exact Int.bmod_eq_of_le (by omega) (by omega)

theorem toInt_sub_of_le {w : Int64} (hv : 0 ≤ v.toInt) (hle : v.toInt ≤ w.toInt) :
    (w - v).toInt = w.toInt - v.toInt := by
  have hlt := w.toInt_lt
  rw [Int64.toInt_sub]
  exact Int.bmod_eq_of_le (by omega) (by omega)

theorem toNatClampNeg_eq (hv : 0 ≤ v.toInt) : (v.toNatClampNeg : Int) = v.toInt := by
  have hle : 0 ≤ v := Int64.le_iff_toInt_le.mpr hv
  exact (Int64.toInt_eq_toNatClampNeg hle).symm

end Words

section Bytes

def covers (offset size : Int64) (b : Int) : Bool :=
  offset.toInt ≤ b && b < offset.toInt + size.toInt

/-- How many of the fields and gaps take byte `b`. -/
def takers (fields : List Slot) (padding : List Padding) (b : Int) : Nat :=
  fields.countP (fun s => covers s.offset s.size b) +
    padding.countP fun p => covers p.offset p.size b

/-- One for a byte from `start` up to `stop`, zero for any other. -/
def between (start stop b : Int) : Nat := if start ≤ b ∧ b < stop then 1 else 0

def fieldBytes (fields : List Slot) : Nat := (fields.map fun s => s.size.toNatClampNeg).sum

def gapBytes (padding : List Padding) : Nat := (padding.map fun p => p.size.toNatClampNeg).sum

theorem between_add {start mid stop : Int} (hstart : start ≤ mid) (hstop : mid ≤ stop) (b : Int) :
    between start mid b + between mid stop b = between start stop b := by
  unfold between
  split_ifs <;> omega

theorem toNat_covers {offset size : Int64} {stop : Int} (hstop : stop = offset.toInt + size.toInt)
    (b : Int) :
    (if covers offset size b = true then 1 else 0) = between offset.toInt stop b := by
  simp only [covers, between, Bool.and_eq_true, decide_eq_true_eq, hstop]

theorem fieldBytes_cons (s : Slot) (ss : List Slot) :
    fieldBytes (s :: ss) = s.size.toNatClampNeg + fieldBytes ss := by
  rw [fieldBytes, List.map_cons, List.sum_cons]
  rfl

theorem gapBytes_append (ps qs : List Padding) :
    gapBytes (ps ++ qs) = gapBytes ps + gapBytes qs := by
  rw [gapBytes, List.map_append, List.sum_append]
  rfl

theorem takers_append (fields : List Slot) (ps qs : List Padding) (b : Int) :
    takers fields (ps ++ qs) b =
      takers fields ps b + qs.countP fun p => covers p.offset p.size b := by
  rw [takers, takers, List.countP_append, Nat.add_assoc]

/-- Gaps take the bytes from `start` up to `stop`. -/
structure Bridges (start stop : Int) (padding : List Padding) : Prop where
  sizes : ∀ p ∈ padding, 0 ≤ p.size.toInt
  taken : ∀ b, padding.countP (fun p => covers p.offset p.size b) = between start stop b
  bytes : start + gapBytes padding = stop

theorem gap_bridges {offset next : Int64} (hoffset : 0 ≤ offset.toInt)
    (hle : offset.toInt ≤ next.toInt) (reason : String) :
    Bridges offset.toInt next.toInt (gap offset next reason) := by
  unfold gap
  by_cases hlt : offset < next
  · have hsize := toInt_sub_of_le hoffset hle
    have hnonneg : 0 ≤ (next - offset).toInt := by omega
    rw [if_pos hlt]
    refine ⟨List.forall_mem_singleton.mpr hnonneg, fun b => ?_, ?_⟩
    · rw [List.countP_singleton]
      have hend : next.toInt = offset.toInt + (next - offset).toInt := by omega
      exact toNat_covers hend b
    · have hbytes := toNatClampNeg_eq hnonneg
      simp only [gapBytes, List.map_singleton, List.sum_singleton]
      omega
  · have hsame : offset.toInt = next.toInt := by
      rw [Int64.lt_iff_toInt_lt] at hlt
      omega
    rw [if_neg hlt, hsame]
    refine ⟨List.forall_mem_nil _, fun b => ?_, ?_⟩
    · unfold between
      rw [List.countP_nil, if_neg (by omega)]
    · exact Int.add_zero _

end Bytes

section Placing

def Slot.stop (s : Slot) : Int := s.offset.toInt + s.size.toInt

/-- Fields from `start` on, each at the least multiple of its alignment, the last ending at
`stop`. -/
def Spaced (start stop : Int) : List Slot → Prop
  | [] => start = stop
  | s :: ss => IsLeast (multiplesFrom start s.align.toInt) s.offset.toInt ∧ Spaced s.stop stop ss

/-- A field with a size and a power of two as its alignment. -/
structure Slot.Checked (s : Slot) : Prop where
  size : 0 ≤ s.size.toInt
  align : ∃ k : Nat, s.align.toInt = 2 ^ k

/-- Fields and gaps together take the bytes from `start` up to `stop`, each once. -/
structure Filled (start stop : Int) (placed : List Slot) (padding : List Padding) : Prop where
  spaced : Spaced start stop placed
  sizes : ∀ p ∈ padding, 0 ≤ p.size.toInt
  taken : ∀ b, takers placed padding b = between start stop b
  bytes : start + fieldBytes placed + gapBytes padding = stop

theorem Filled.le {start stop : Int} {placed : List Slot} {padding : List Padding}
    (h : Filled start stop placed padding) : start ≤ stop := by
  have hbytes := h.bytes
  omega

theorem filled_nil (start : Int) : Filled start start [] [] where
  spaced := rfl
  sizes := List.forall_mem_nil _
  taken b := by
    unfold between
    rw [if_neg (by omega)]
    rfl
  bytes := by
    simp [fieldBytes, gapBytes]

/-- One more field in front, behind the gap that aligns it. -/
theorem Filled.cons {start stop : Int} {s : Slot} {placed : List Slot}
    {before padding : List Padding}
    (hrest : Filled s.stop stop placed padding) (hsize : 0 ≤ s.size.toInt)
    (hleast : IsLeast (multiplesFrom start s.align.toInt) s.offset.toInt)
    (hgap : Bridges start s.offset.toInt before) :
    Filled start stop (s :: placed) (before ++ padding) where
  spaced := ⟨hleast, hrest.spaced⟩
  sizes := List.forall_mem_append.mpr ⟨hgap.sizes, hrest.sizes⟩
  taken b := by
    have hle := hrest.le
    have hstop : s.stop = s.offset.toInt + s.size.toInt := rfl
    have hfirst : between start s.offset.toInt b + between s.offset.toInt stop b =
        between start stop b :=
      between_add hleast.1.1 (by omega) b
    have hsecond : between s.offset.toInt s.stop b + between s.stop stop b =
        between s.offset.toInt stop b :=
      between_add (by omega) hle b
    have hfield := toNat_covers hstop b
    have hcount := hrest.taken b
    have hbefore := hgap.taken b
    unfold takers at hcount ⊢
    rw [List.countP_append, List.countP_cons, hbefore, hfield]
    omega
  bytes := by
    have hrest := hrest.bytes
    have hbefore := hgap.bytes
    have hfield := toNatClampNeg_eq hsize
    rw [fieldBytes_cons, gapBytes_append]
    unfold Slot.stop at hrest
    omega

/-- The sum of the sizes and alignments, which is room enough for placing the fields. -/
def needs (slots : List Slot) : Nat :=
  (slots.map fun s => s.size.toNatClampNeg + s.align.toNatClampNeg).sum

theorem needs_cons (s : Slot) (ss : List Slot) :
    needs (s :: ss) = s.size.toNatClampNeg + s.align.toNatClampNeg + needs ss := by
  rw [needs, List.map_cons, List.sum_cons]
  rfl

theorem Slot.Checked.align_pos {s : Slot} (h : s.Checked) : 0 < s.align.toInt := by
  obtain ⟨k, hk⟩ := h.align
  rw [hk]
  exact Int.pow_pos (by decide)

theorem placeFrom_filled {slots : List Slot} (hslots : ∀ s ∈ slots, s.Checked) (start : Int64)
    (hstart : 0 ≤ start.toInt) (hroom : start.toInt + needs slots < 2 ^ 63) :
    ∃ placed padding stop, placeFrom start slots = (placed, padding, stop) ∧
      List.Forall₂ (fun s s' => s' = { s with offset := s'.offset }) slots placed ∧
      Filled start.toInt stop.toInt placed padding ∧ stop.toInt ≤ start.toInt + needs slots := by
  induction slots generalizing start with
  | nil =>
    exact ⟨[], [], start, rfl, .nil, filled_nil _, by omega⟩
  | cons s ss ih =>
    rw [List.forall_mem_cons] at hslots
    obtain ⟨hs, hss⟩ := hslots
    obtain ⟨k, hk⟩ := hs.align
    have hsize := toNatClampNeg_eq hs.size
    have halign := toNatClampNeg_eq (Int.le_of_lt hs.align_pos)
    rw [needs_cons] at hroom ⊢
    obtain ⟨hleast, hnear⟩ := alignUp_isLeast hstart hk (by omega)
    have hle := hleast.1.1
    have hnonneg := hs.size
    have hstop : (alignUp start s.align + s.size).toInt =
        (alignUp start s.align).toInt + s.size.toInt :=
      toInt_add_of_lt (by omega) hs.size (by omega)
    obtain ⟨placed, padding, stop, hrun, hkept, hfilled, hbound⟩ :=
      ih hss (alignUp start s.align + s.size) (by omega) (by omega)
    refine ⟨{ s with offset := alignUp start s.align } :: placed,
      gap start (alignUp start s.align) ("alignment for field " ++ s.name) ++ padding, stop, ?_,
      .cons rfl hkept, ?_, by omega⟩
    · rw [placeFrom, hrun]
    · rw [hstop] at hfilled
      exact Filled.cons (s := { s with offset := alignUp start s.align }) hfilled hs.size hleast
        (gap_bridges hstart hle _)

end Placing

section Checking

def Slot.clamped (limit : Int64) (f : Slot) : Slot :=
  { f with align := clampAlignment limit f.align }

theorem checkSlot_cases (limit : Int64) (f : Slot) :
    (f.clamped limit).Checked ∧ checkSlot limit f = .ok (f.clamped limit) ∨
      ¬ (f.clamped limit).Checked ∧ ∃ fault, checkSlot limit f = .error fault := by
  have hnegative : f.size < 0 ↔ f.size.toInt < 0 := Int64.lt_iff_toInt_lt
  unfold checkSlot
  by_cases hsize : f.size < 0
  · rw [if_pos hsize]
    refine .inr ⟨fun h => ?_, _, rfl⟩
    have hnonneg : 0 ≤ f.size.toInt := h.size
    have hneg := hnegative.mp hsize
    omega
  · rw [if_neg hsize]
    dsimp only
    by_cases hpower : isPowerOfTwo (clampAlignment limit f.align) = true
    · rw [if_pos hpower]
      rw [hnegative] at hsize
      exact .inl ⟨⟨Int.not_lt.mp hsize, isPowerOfTwo_iff.mp hpower⟩, rfl⟩
    · rw [if_neg hpower]
      exact .inr ⟨fun h => hpower (isPowerOfTwo_iff.mpr h.align), _, rfl⟩

theorem checkSlots_cases (limit : Int64) (fields : List Slot) :
    (∀ f ∈ fields, (f.clamped limit).Checked) ∧
        checkSlots limit fields = .ok (fields.map (Slot.clamped limit)) ∨
      (∃ f ∈ fields, ¬ (f.clamped limit).Checked) ∧
        ∃ fault, checkSlots limit fields = .error fault := by
  induction fields with
  | nil => exact .inl ⟨List.forall_mem_nil _, rfl⟩
  | cons f fs ih =>
    rw [checkSlots]
    rcases checkSlot_cases limit f with ⟨hf, hok⟩ | ⟨hf, fault, herror⟩
    · rw [hok]
      rcases ih with ⟨hfs, hoks⟩ | ⟨⟨g, hg, hbad⟩, fault, herror⟩
      · rw [hoks]
        exact .inl ⟨List.forall_mem_cons.mpr ⟨hf, hfs⟩, rfl⟩
      · rw [herror]
        exact .inr ⟨⟨g, List.mem_cons_of_mem f hg, hbad⟩, fault, rfl⟩
    · rw [herror]
      exact .inr ⟨⟨f, List.mem_cons_self, hf⟩, fault, rfl⟩

theorem not_checked_iff {limit : Int64} {f : Slot} : ¬ (f.clamped limit).Checked ↔
    f.size.toInt < 0 ∨ ∀ k : Nat, (clampAlignment limit f.align).toInt ≠ 2 ^ k := by
  constructor
  · intro h
    by_cases hsize : f.size.toInt < 0
    · exact .inl hsize
    · refine .inr fun k hk => h ⟨Int.not_lt.mp hsize, k, hk⟩
  · rintro (hsize | halign) ⟨hnonneg, k, hk⟩
    · exact Int.not_lt.mpr hnonneg hsize
    · exact halign k hk

/-- The strictest alignment is one of those at hand and no other is greater. -/
theorem strictest_isGreatest {slots : List Slot} (hne : slots ≠ [])
    (hslots : ∀ s ∈ slots, s.Checked) :
    IsGreatest {a | ∃ s ∈ slots, a = s.align.toInt} (strictest slots).toInt := by
  have hfold : ∀ (ss : List Slot) (most : Int64),
      let greatest := ss.foldl (fun most s => if most < s.align then s.align else most) most
      (greatest = most ∨ ∃ s ∈ ss, greatest = s.align) ∧ most.toInt ≤ greatest.toInt ∧
        ∀ s ∈ ss, s.align.toInt ≤ greatest.toInt := by
    intro ss
    induction ss with
    | nil => exact fun most => ⟨.inl rfl, Int.le_refl _, List.forall_mem_nil _⟩
    | cons s ss ih =>
      intro most
      rw [List.foldl_cons]
      by_cases hlt : most < s.align
      · rw [if_pos hlt]
        obtain ⟨hone, hmost, hall⟩ := ih s.align
        rw [Int64.lt_iff_toInt_lt] at hlt
        refine ⟨.inr ?_, by omega, List.forall_mem_cons.mpr ⟨hmost, hall⟩⟩
        rcases hone with hsame | ⟨t, ht, hsame⟩
        · exact ⟨s, List.mem_cons_self, hsame⟩
        · exact ⟨t, List.mem_cons_of_mem s ht, hsame⟩
      · rw [if_neg hlt]
        obtain ⟨hone, hmost, hall⟩ := ih most
        rw [Int64.lt_iff_toInt_lt] at hlt
        refine ⟨?_, hmost, List.forall_mem_cons.mpr ⟨by omega, hall⟩⟩
        rcases hone with hsame | ⟨t, ht, hsame⟩
        · exact .inl hsame
        · exact .inr ⟨t, List.mem_cons_of_mem s ht, hsame⟩
  obtain ⟨hone, -, hall⟩ := hfold slots 1
  refine ⟨?_, ?_⟩
  · rcases hone with hsame | ⟨s, hs, hsame⟩
    · -- no alignment is above one, and none is below it
      obtain ⟨s, hs⟩ := List.exists_mem_of_ne_nil slots hne
      have hpos := (hslots s hs).align_pos
      have hle := hall s hs
      rw [hsame, Int64.toInt_one] at hle
      refine ⟨s, hs, ?_⟩
      show (List.foldl _ _ _ : Int64).toInt = _
      rw [hsame, Int64.toInt_one]
      omega
    · exact ⟨s, hs, congrArg Int64.toInt hsame⟩
  · rintro a ⟨s, hs, rfl⟩
    exact hall s hs

end Checking

section Tight

variable {stop : Int} {l : RecordLayout} {limit : Int64} {fields : List Slot}

def alignBytes (limit : Int64) (fields : List Slot) : Nat :=
  (fields.map fun f => (clampAlignment limit f.align).toNatClampNeg).sum

/-- A placed field keeps what the field has; its alignment is clamped. -/
def Slot.Keeps (limit : Int64) (f s : Slot) : Prop :=
  s.name = f.name ∧ s.type = f.type ∧ s.size = f.size ∧ s.align = clampAlignment limit f.align

/-- The layout of a struct without any byte that could be saved in front of a field. -/
structure RecordLayout.Tight (limit : Int64) (fields : List Slot) (l : RecordLayout) : Prop where
  kept : List.Forall₂ (Slot.Keeps limit) fields l.fields
  first : ∀ s ∈ l.fields.head?, s.offset = 0
  next : l.fields.IsChain fun s s' => IsLeast (multiplesFrom s.stop s'.align.toInt) s'.offset.toInt
  align : IsGreatest {a | ∃ f ∈ fields, a = (clampAlignment limit f.align).toInt} l.align.toInt
  size : ∀ s ∈ l.fields.getLast?, IsLeast (multiplesFrom s.stop l.align.toInt) l.size.toInt
  tiled : ∀ b, takers l.fields l.padding b = between 0 l.size.toInt b
  padding : l.paddingBytes.toInt = l.size.toInt - fieldBytes l.fields

theorem spaced_cons_iff {start : Int} {s : Slot} {ss : List Slot} :
    Spaced start stop (s :: ss) ↔ IsLeast (multiplesFrom start s.align.toInt) s.offset.toInt ∧
      (s :: ss).IsChain
        (fun s s' => IsLeast (multiplesFrom s.stop s'.align.toInt) s'.offset.toInt) ∧
      ∀ t ∈ (s :: ss).getLast?, t.stop = stop := by
  induction ss generalizing start s with
  | nil => simp [Spaced]
  | cons t ts ih =>
    rw [Spaced, ih, List.isChain_cons_cons, List.getLast?_cons_cons, and_assoc]

theorem isLeast_zero (a : Int) : IsLeast (multiplesFrom 0 a) 0 :=
  ⟨⟨Int.le_refl 0, Int.dvd_zero a⟩, fun _ hx => hx.1⟩

theorem paddingBytes_eq (h : ∀ p ∈ l.padding, 0 ≤ p.size.toInt) :
    l.paddingBytes = Int64.ofNat (gapBytes l.padding) := by
  have hfold : ∀ (ps : List Padding) (n : Nat), (∀ p ∈ ps, 0 ≤ p.size.toInt) →
      ps.foldl (fun n p => n + p.size) (Int64.ofNat n) = Int64.ofNat (n + gapBytes ps) := by
    intro ps
    induction ps with
    | nil => exact fun n _ => rfl
    | cons p ps ih =>
      intro n hps
      rw [List.forall_mem_cons] at hps
      obtain ⟨m, -, hword, hm⟩ := exists_ofNat_eq hps.1
      have hbytes := toNatClampNeg_eq hps.1
      have hgap : gapBytes (p :: ps) = m + gapBytes ps := by
        rw [← List.singleton_append, gapBytes_append]
        simp only [gapBytes, List.map_singleton, List.sum_singleton]
        omega
      rw [List.foldl_cons, hword, ← Int64.ofNat_add, ih _ hps.2, hgap, Nat.add_assoc]
  have hsum := hfold l.padding 0 h
  rw [Nat.zero_add] at hsum
  exact hsum

theorem needs_clamped (limit : Int64) (fields : List Slot) :
    needs (fields.map (Slot.clamped limit)) = fieldBytes fields + alignBytes limit fields := by
  induction fields with
  | nil => rfl
  | cons f fs ih =>
    rw [List.map_cons, needs_cons, ih, fieldBytes_cons]
    simp only [alignBytes, List.map_cons, List.sum_cons, Slot.clamped]
    omega

/-- Fields that fill the bytes up to `stop`, and a gap after them that fills the rest. -/
theorem RecordLayout.tight_of_filled {padding last : List Padding} (hne : fields ≠ [])
    (hkept : List.Forall₂ (fun f s => s = { f.clamped limit with offset := s.offset }) fields
      l.fields)
    (hpadding : l.padding = padding ++ last) (hfilled : Filled 0 stop l.fields padding)
    (hlast : Bridges stop l.size.toInt last)
    (halign : IsGreatest {a | ∃ f ∈ fields, a = (clampAlignment limit f.align).toInt} l.align.toInt)
    (hsize : IsLeast (multiplesFrom stop l.align.toInt) l.size.toInt) : l.Tight limit fields := by
  have hspaced : (∀ s ∈ l.fields.head?, s.offset = 0) ∧
      l.fields.IsChain (fun s s' => IsLeast (multiplesFrom s.stop s'.align.toInt) s'.offset.toInt) ∧
      ∀ s ∈ l.fields.getLast?, s.stop = stop := by
    have hfields := hfilled.spaced
    generalize l.fields = placed at hkept hfields ⊢
    cases hkept with
    | nil => exact absurd rfl hne
    | cons _ _ =>
      obtain ⟨hfirst, hnext, hend⟩ := spaced_cons_iff.mp hfields
      refine ⟨?_, hnext, hend⟩
      rintro s ⟨⟩
      exact Int64.toInt_inj.mp ((hfirst.unique (isLeast_zero _)).trans Int64.toInt_zero.symm)
  refine ⟨hkept.imp ?_, hspaced.1, hspaced.2.1, halign, ?_, fun b => ?_, ?_⟩
  · intro f s hs
    rw [hs]
    exact ⟨rfl, rfl, rfl, rfl⟩
  · intro s hs
    rw [hspaced.2.2 s hs]
    exact hsize
  · have htaken := hfilled.taken b
    have hgap := hlast.taken b
    have hsum := between_add hfilled.le hsize.1.1 b
    rw [hpadding, takers_append]
    omega
  · have hsizes : ∀ p ∈ l.padding, 0 ≤ p.size.toInt := by
      rw [hpadding]
      exact List.forall_mem_append.mpr ⟨hfilled.sizes, hlast.sizes⟩
    have hfill := hfilled.bytes
    have hgap := hlast.bytes
    have hbytes : (gapBytes l.padding : Int) = l.size.toInt - fieldBytes l.fields := by
      rw [hpadding, gapBytes_append]
      omega
    have hlt := l.size.toInt_lt
    rw [paddingBytes_eq hsizes, Int64.toInt_ofNat_of_lt (by omega), hbytes]

/-- Fields that can be placed have a tight layout. -/
theorem structLayout_tight (name : String) (hne : fields ≠ [])
    (hfields : ∀ f ∈ fields, (f.clamped limit).Checked)
    (hroom : fieldBytes fields + 2 * alignBytes limit fields < 2 ^ 63) :
    ∃ l, structLayout limit name fields = .ok l ∧ l.name = name ∧ l.isUnion = false ∧
      l.Tight limit fields := by
  have hchecked : ∀ s ∈ fields.map (Slot.clamped limit), s.Checked :=
    List.forall_mem_map.mpr hfields
  have hneeds := needs_clamped limit fields
  obtain ⟨placed, padding, stop, hrun, hkept, hfilled, hbound⟩ :=
    placeFrom_filled hchecked 0 (by decide) (by rw [Int64.toInt_zero]; omega)
  rw [Int64.toInt_zero] at hfilled hbound
  rw [List.forall₂_map_left_iff] at hkept
  have hgreatest : IsGreatest {a | ∃ f ∈ fields, a = (clampAlignment limit f.align).toInt}
      (strictest (fields.map (Slot.clamped limit))).toInt := by
    have h := strictest_isGreatest (by simpa using hne) hchecked
    simpa [Slot.clamped] using h
  generalize hstrictest : strictest (fields.map (Slot.clamped limit)) = most at hgreatest
  -- the strictest alignment is that of a field, so there is room for rounding up once more
  obtain ⟨f, hf, hmost⟩ := hgreatest.1
  obtain ⟨k, hk⟩ := (hfields f hf).align
  have hlast : most.toInt ≤ alignBytes limit fields := by
    have hword := toNatClampNeg_eq (Int.le_of_lt (hfields f hf).align_pos)
    have hle : (clampAlignment limit f.align).toNatClampNeg ≤ alignBytes limit fields :=
      List.le_sum_of_mem (List.mem_map.mpr ⟨f, hf, rfl⟩)
    rw [hmost]
    simp only [Slot.clamped] at hword
    omega
  obtain ⟨hleast, -⟩ := alignUp_isLeast hfilled.le (hmost.trans hk) (by omega)
  refine ⟨⟨name, false, placed, alignUp stop most, most,
    padding ++ gap stop (alignUp stop most) "struct alignment"⟩, ?_, rfl, rfl, ?_⟩
  · rcases checkSlots_cases limit fields with ⟨-, hok⟩ | ⟨⟨g, hg, hbad⟩, -⟩
    · rw [structLayout, hok]
      simp only [bind, Except.bind, hrun, hstrictest]
    · exact absurd (hfields g hg) hbad
  · exact RecordLayout.tight_of_filled hne hkept rfl hfilled
      (gap_bridges hfilled.le hleast.1.1 "struct alignment") hgreatest hleast

theorem spaced_unique {start stop' : Int} {placed placed' : List Slot}
    (hsame : List.Forall₂ (fun s s' => s' = { s with offset := s'.offset }) placed placed')
    (h : Spaced start stop placed) (h' : Spaced start stop' placed') :
    placed' = placed ∧ stop' = stop := by
  induction hsame generalizing start with
  | nil => exact ⟨rfl, h'.symm.trans h⟩
  | @cons s s' ss ss' hs _ ih =>
    have halign : s'.align = s.align := by rw [hs]
    obtain ⟨hleast, hrest⟩ := h
    obtain ⟨hleast', hrest'⟩ := h'
    rw [halign] at hleast'
    have hoffset : s'.offset = s.offset := Int64.toInt_inj.mp (hleast'.unique hleast)
    have hequal : s' = s := by rw [hs, hoffset]
    rw [hequal] at hrest' ⊢
    obtain ⟨hfields, hstop⟩ := ih hrest hrest'
    exact ⟨by rw [hfields], hstop⟩

theorem RecordLayout.Tight.spaced (h : l.Tight limit fields) (hne : fields ≠ []) :
    ∃ stop, Spaced 0 stop l.fields ∧ IsLeast (multiplesFrom stop l.align.toInt) l.size.toInt := by
  obtain ⟨hkept, hfirst, hnext, -, hsize, -, -⟩ := h
  generalize l.fields = placed at hkept hfirst hnext hsize ⊢
  cases hkept with
  | nil => exact absurd rfl hne
  | @cons _ s _ ss _ _ =>
    obtain ⟨last, hlast⟩ : ∃ last, (s :: ss).getLast? = some last :=
      ⟨_, List.getLast?_eq_some_getLast (List.cons_ne_nil s ss)⟩
    refine ⟨last.stop, spaced_cons_iff.mpr ⟨?_, hnext, ?_⟩, hsize last hlast⟩
    · rw [hfirst s rfl, Int64.toInt_zero]
      exact isLeast_zero _
    · intro t ht
      rw [Option.some.inj (ht.symm.trans hlast)]

/-- Fields that keep the same things differ in their offsets only. -/
theorem same_of_kept {placed placed' : List Slot}
    (h : List.Forall₂ (Slot.Keeps limit) fields placed)
    (h' : List.Forall₂ (Slot.Keeps limit) fields placed') :
    List.Forall₂ (fun s s' => s' = { s with offset := s'.offset }) placed placed' := by
  induction h generalizing placed' with
  | nil =>
    cases h'
    exact .nil
  | cons hs _ ih =>
    cases h' with
    | cons hs' hrest' =>
      obtain ⟨hname, htype, hsize, halign⟩ := hs
      obtain ⟨hname', htype', hsize', halign'⟩ := hs'
      refine .cons ?_ (ih hrest')
      rw [hname, htype, hsize, halign, ← hname', ← htype', ← hsize', ← halign']

/-- The conditions on a tight layout leave nothing open but how gaps are divided. -/
theorem RecordLayout.Tight.unique {l' : RecordLayout} (hne : fields ≠ []) (h : l.Tight limit fields)
    (h' : l'.Tight limit fields) :
    l'.fields = l.fields ∧ l'.size = l.size ∧ l'.align = l.align := by
  have halign : l'.align = l.align := Int64.toInt_inj.mp (h'.align.unique h.align)
  obtain ⟨stop, hspaced, hleast⟩ := h.spaced hne
  obtain ⟨stop', hspaced', hleast'⟩ := h'.spaced hne
  obtain ⟨hfields, rfl⟩ := spaced_unique (same_of_kept h.kept h'.kept) hspaced hspaced'
  rw [halign] at hleast'
  exact ⟨hfields, Int64.toInt_inj.mp (hleast'.unique hleast), halign⟩

/-- A struct whose sizes and twice its alignments add up to less than 2^63 is refused exactly when a
field has a negative size or an alignment that is no power of two. Otherwise its fields keep what
they have, the first stands at zero, every other at the least multiple of its alignment after the
one before, and the struct ends at the least multiple of the strictest alignment; fields and
gaps take every byte once, and no other layout is like that. -/
theorem struct_layouts_are_tight {limit : Int64} {name : String} {fields : List Slot}
    (hne : fields ≠ []) (hroom : fieldBytes fields + 2 * alignBytes limit fields < 2 ^ 63) :
    ((∃ fault, structLayout limit name fields = .error fault) ↔
      ∃ f ∈ fields, f.size.toInt < 0 ∨ ∀ k : Nat, (clampAlignment limit f.align).toInt ≠ 2 ^ k) ∧
    ∀ l, structLayout limit name fields = .ok l → l.name = name ∧ l.isUnion = false ∧
      l.Tight limit fields ∧ ∀ l' : RecordLayout, l'.Tight limit fields →
        l'.fields = l.fields ∧ l'.size = l.size ∧ l'.align = l.align := by
  simp only [← not_checked_iff]
  rcases checkSlots_cases limit fields with ⟨hfields, -⟩ | ⟨hbad, fault, herror⟩
  · obtain ⟨l, hl, hname, hunion, htight⟩ := structLayout_tight name hne hfields hroom
    rw [hl]
    refine ⟨iff_of_false ?_ ?_, ?_⟩
    · rintro ⟨fault, hfault⟩
      cases hfault
    · rintro ⟨f, hf, hbad⟩
      exact hbad (hfields f hf)
    · rintro _ ⟨⟩
      exact ⟨hname, hunion, htight, fun l' htight' => htight.unique hne htight'⟩
  · have hrefused : structLayout limit name fields = .error fault := by
      rw [structLayout, herror]
      rfl
    rw [hrefused]
    refine ⟨iff_of_true ⟨fault, rfl⟩ hbad, ?_⟩
    rintro l ⟨⟩

/-- A byte, a wide number whose alignment is cut down, an empty field and a short. -/
def mixedFields : List Slot :=
  [⟨"mark", "char", 0, 1, 1⟩, ⟨"wide", "vector", 0, 32, 32⟩, ⟨"none", "empty", 0, 0, -4⟩,
    ⟨"code", "short", 0, 2, 2⟩]

theorem mixed_layout_is_tight :
    mixedFields ≠ [] ∧ fieldBytes mixedFields + 2 * alignBytes 16 mixedFields < 2 ^ 63 ∧
      ∃ l, structLayout 16 "mixed" mixedFields = .ok l ∧ l.Tight 16 mixedFields ∧
        l.fields.map (·.offset) = [0, 16, 48, 48] ∧ l.size = 64 ∧ l.paddingBytes = 29 := by
  have hne : mixedFields ≠ [] := by decide
  have hroom : fieldBytes mixedFields + 2 * alignBytes 16 mixedFields < 2 ^ 63 := by decide
  obtain ⟨l, hl, hoffsets, hsize, hpadding⟩ : ∃ l, structLayout 16 "mixed" mixedFields = .ok l ∧
      l.fields.map (·.offset) = [0, 16, 48, 48] ∧ l.size = 64 ∧ l.paddingBytes = 29 :=
    ⟨_, rfl, by decide +kernel, by decide +kernel, by decide +kernel⟩
  have htight := ((struct_layouts_are_tight hne hroom).2 l hl).2.2.1
  exact ⟨hne, hroom, l, hl, htight, hoffsets, hsize, hpadding⟩

end Tight

end DartLowering.Layout
