import DartLowering.Dump.Resolve
import DartLowering.Proofs.Word
import DartLowering.Proofs.WrittenJson
import Mathlib.Data.List.Chain

/-!
The integers that texts denote. A numeral is a base mark and digits of that base, with underscores
between them; a literal is a numeral with an optional sign. A text is read as a word exactly when it
is a literal whose value is in range, and the word agrees with the value modulo 2^64.
-/
namespace DartLowering.Number

/-- The letters that announce a base after a zero. -/
def letters : List (Char × Nat) := [('b', 2), ('B', 2), ('o', 8), ('O', 8), ('x', 16), ('X', 16)]

/-- The marks that stand before digits of a base. -/
def marks : List (List Char × Nat) :=
  ([], 10) :: (['0'], 8) :: letters.map fun l => (['0', l.1], l.2)

def IsDigit (base : Nat) (c : Char) : Prop := ∃ d, digitValue c = some d ∧ d < base

def Apart (a b : Char) : Prop := a ≠ '_' ∨ b ≠ '_'

/-- No underscore stands first, last or beside another. -/
structure Separated (cs : List Char) : Prop where
  first : cs.head? ≠ some '_'
  last : cs.getLast? ≠ some '_'
  apart : cs.IsChain Apart

/-- The value of the digits of `cs`, after those that `acc` is the value of. -/
def valueFrom (base acc : Nat) (cs : List Char) : Nat :=
  (cs.filter (· ≠ '_')).foldl (fun n c => n * base + (digitValue c).getD 0) acc

/-- The digits stand after a mark for their base; zero is the mark of base eight alone. -/
structure Marked (mark : List Char) (base : Nat) (digits : List Char) : Prop where
  announced : (mark, base) ∈ marks
  nonempty : digits ≠ [] ∨ mark = ['0']
  unmarked : mark = [] → digits.head? ≠ some '0'

/-- An integer without a sign. -/
structure Numeral where
  mark : List Char
  base : Nat
  digits : List Char
  marked : Marked mark base digits
  spelled : ∀ c ∈ digits, c = '_' ∨ IsDigit base c
  separated : Separated (mark ++ digits)

def Numeral.text (l : Numeral) : List Char := l.mark ++ l.digits

def Numeral.value (l : Numeral) : Nat := valueFrom l.base 0 l.digits

inductive Sign
  | absent
  | plus
  | minus
  deriving DecidableEq

def Sign.text : Sign → List Char
  | .absent => []
  | .plus => ['+']
  | .minus => ['-']

structure Literal where
  sign : Sign
  numeral : Numeral

def Literal.text (l : Literal) : List Char := l.sign.text ++ l.numeral.text

def Literal.value (l : Literal) : Int :=
  if l.sign = .minus then -(l.numeral.value : Int) else l.numeral.value

/-- Literals with a sign are signed words, those without may be unsigned ones. -/
def Literal.InRange (l : Literal) : Prop :=
  -2 ^ 63 ≤ l.value ∧ l.value < if l.sign = .absent then 2 ^ 64 else 2 ^ 63

section Digits

variable {base limit acc n : Nat} {cs : List Char}

theorem le_valueFrom (hbase : 0 < base) : acc ≤ valueFrom base acc cs := by
  unfold valueFrom
  induction cs.filter (· ≠ '_') generalizing acc with
  | nil => exact Nat.le_refl acc
  | cons c cs ih =>
    calc acc ≤ acc * base := Nat.le_mul_of_pos_right acc hbase
      _ ≤ acc * base + (digitValue c).getD 0 := Nat.le_add_right _ _
      _ ≤ _ := ih

theorem valueFrom_underscore : valueFrom base acc ('_' :: cs) = valueFrom base acc cs := by
  simp [valueFrom]

theorem digit_ne_underscore {c : Char} (h : IsDigit base c) : c ≠ '_' := by
  rintro rfl
  obtain ⟨d, hd, -⟩ := h
  cases hd

theorem valueFrom_digit {c : Char} {d : Nat} (hd : digitValue c = some d) :
    valueFrom base acc (c :: cs) = valueFrom base (acc * base + d) cs := by
  have hc : c ≠ '_' := digit_ne_underscore ⟨d, hd, Nat.lt_succ_self d⟩
  simp [valueFrom, hc, hd]

/-- Digits are read exactly when they are digits of the base and their value is below the limit. -/
theorem digitsFrom_eq_ok_iff {underscores : Bool} (hbase : 0 < base) (hacc : acc < limit) :
    digitsFrom base limit underscores acc cs = .ok n ↔
      (∀ c ∈ cs, (underscores = true ∧ c = '_') ∨ IsDigit base c) ∧ valueFrom base acc cs = n ∧
        n < limit := by
  induction cs generalizing acc with
  | nil =>
    rw [digitsFrom, Except.ok.injEq]
    refine ⟨fun h => ⟨List.forall_mem_nil _, h, h ▸ hacc⟩, fun h => h.2.1⟩
  | cons c cs ih =>
    rw [digitsFrom, List.forall_mem_cons]
    by_cases hc : underscores = true ∧ c = '_'
    · obtain ⟨hu, rfl⟩ := hc
      rw [if_pos (by simp [hu]), ih hacc, valueFrom_underscore]
      simp [hu]
    · rw [if_neg (by simpa using hc)]
      cases hd : digitValue c with
      | none =>
        simp [hc, IsDigit, hd]
      | some d =>
        have hdigit : IsDigit base c ↔ d < base := by simp [IsDigit, hd]
        rw [valueFrom_digit hd, hdigit]
        dsimp only
        by_cases hlt : d < base
        · rw [if_neg (Nat.not_le.mpr hlt)]
          by_cases hroom : acc * base + d < limit
          · rw [if_neg (Nat.not_le.mpr hroom), ih hroom]
            simp [hlt]
          · -- The digits that follow can only make the value greater.
            have hle : acc * base + d ≤ valueFrom base (acc * base + d) cs := le_valueFrom hbase
            rw [if_pos (Nat.not_lt.mp hroom)]
            refine iff_of_false (by simp) ?_
            rintro ⟨-, rfl, hn⟩
            omega
        · rw [if_pos (Nat.not_lt.mp hlt)]
          simp [hc, hlt]

end Digits

section Underscores

theorem IsDigit.shape {base : Nat} {hex : Bool} (hbase : base ≤ 10 ∨ hex = true ∧ base ≤ 16)
    {c : Char} (h : IsDigit base c) : (('0' ≤ c && c ≤ '9') ||
      (hex && (('a' ≤ c && c ≤ 'f') || ('A' ≤ c && c ≤ 'F')))) = true := by
  obtain ⟨d, hd, hlt⟩ := h
  have hle : ∀ a b : Char, a ≤ b ↔ a.toNat ≤ b.toNat := fun a b => Iff.rfl
  simp only [Bool.or_eq_true, Bool.and_eq_true, decide_eq_true_eq, hle, Char.reduceToNat]
  simp only [digitValue, Bool.and_eq_true, decide_eq_true_eq, hle, Char.reduceToNat] at hd
  split at hd
  · exact .inl (by assumption)
  · right
    split at hd
    · rw [Option.some.injEq] at hd
      refine ⟨(hbase.resolve_left (by omega)).1, .inl (by omega)⟩
    · split at hd
      · rw [Option.some.injEq] at hd
        refine ⟨(hbase.resolve_left (by omega)).1, .inr (by omega)⟩
      · cases hd

/-- Among digits, underscores are placed well exactly when each stands between two of them; `before`
says what the character `p` before them is. -/
theorem underscoresFrom_iff {base : Nat} {hex : Bool} (hbase : base ≤ 10 ∨ hex = true ∧ base ≤ 16)
    {cs : List Char} (hcs : ∀ c ∈ cs, c = '_' ∨ IsDigit base c) {before : Before} {p : Char}
    (hp : before = .digit ∧ p ≠ '_' ∨ before = .underscore ∧ p = '_') :
    underscoresFrom hex before cs = true ↔ (p :: cs).IsChain Apart ∧
      (p :: cs).getLast? ≠ some '_' := by
  induction cs generalizing before p with
  | nil =>
    rcases hp with ⟨rfl, hp⟩ | ⟨rfl, rfl⟩
    · simp [underscoresFrom, hp]
    · simp [underscoresFrom]
  | cons c cs ih =>
    obtain ⟨hc, hrest⟩ := List.forall_mem_cons.mp hcs
    rw [underscoresFrom, List.isChain_cons_cons, List.getLast?_cons_cons, and_assoc]
    rcases hc with rfl | hdigit
    · rw [if_neg (by cases hex <;> decide), if_pos rfl]
      rcases hp with ⟨rfl, hp⟩ | ⟨rfl, rfl⟩
      · rw [if_pos rfl, ih hrest (.inr ⟨rfl, rfl⟩)]
        simp [Apart, hp]
      · simp [Apart]
    · have hc := digit_ne_underscore hdigit
      rw [if_pos (hdigit.shape hbase), ih hrest (.inl ⟨rfl, hc⟩)]
      simp [Apart, hc]

theorem separated_cons {c : Char} {cs : List Char} :
    Separated (c :: cs) ↔ c ≠ '_' ∧ (c :: cs).IsChain Apart ∧ (c :: cs).getLast? ≠ some '_' := by
  refine ⟨fun h => ⟨?_, h.apart, h.last⟩, fun h => ⟨?_, h.2.2, h.2.1⟩⟩
  · simpa using h.first
  · simpa using h.1

theorem separated_of_not_mem {cs : List Char} (h : '_' ∉ cs) : Separated cs where
  first := fun hfirst => h (List.mem_of_head? hfirst)
  last := fun hlast => h (List.mem_of_getLast? hlast)
  apart := (List.pairwise_of_forall_mem_list fun _ ha _ _ =>
    .inl (ne_of_mem_of_not_mem ha h)).isChain

theorem underscoresFrom_start_iff {c : Char} {cs : List Char}
    (h : ∀ d ∈ c :: cs, d = '_' ∨ IsDigit 10 d) :
    underscoresFrom false .start (c :: cs) = true ↔ Separated (c :: cs) := by
  obtain ⟨hc, hcs⟩ := List.forall_mem_cons.mp h
  rw [underscoresFrom, separated_cons]
  rcases hc with rfl | hdigit
  · simp
  · have hc := digit_ne_underscore hdigit
    rw [if_pos (hdigit.shape (.inl (Nat.le_refl 10))),
      underscoresFrom_iff (.inl (Nat.le_refl 10)) hcs (.inl ⟨rfl, hc⟩)]
    simp [hc]

end Underscores

section Marks

variable {mark digits : List Char} {base : Nat}

theorem IsDigit.mono {b c : Nat} (hle : b ≤ c) {d : Char} (h : IsDigit b d) : IsDigit c d := by
  obtain ⟨v, hv, hlt⟩ := h
  exact ⟨v, hv, hlt.trans_le hle⟩

theorem Marked.cases (h : Marked mark base digits) :
    (mark = [] ∧ base = 10 ∧ ∃ d ds, digits = d :: ds ∧ d ≠ '0') ∨ (mark = ['0'] ∧ base = 8) ∨
      ∃ m d ds, (m, base) ∈ letters ∧ mark = ['0', m] ∧ digits = d :: ds := by
  have hsome : mark ≠ ['0'] → ∃ d ds, digits = d :: ds :=
    fun hne => List.exists_cons_of_ne_nil (h.nonempty.resolve_right hne)
  have hmark := h.announced
  rw [marks, List.mem_cons, List.mem_cons, List.mem_map] at hmark
  rcases hmark with hmark | hmark | ⟨⟨m, b⟩, hletter, hmark⟩
  · obtain ⟨rfl, rfl⟩ := Prod.mk.inj hmark
    obtain ⟨d, ds, rfl⟩ := hsome (by simp)
    exact .inl ⟨rfl, rfl, d, ds, rfl, by simpa using h.unmarked rfl⟩
  · exact .inr (.inl (Prod.mk.inj hmark))
  · obtain ⟨rfl, rfl⟩ := Prod.mk.inj hmark
    obtain ⟨d, ds, rfl⟩ := hsome (by simp)
    exact .inr (.inr ⟨m, d, ds, hletter, rfl, rfl⟩)

/-- An octal digit or an underscore is none of the letters. -/
theorem octal_ne {m : Char} (h : m = '_' ∨ IsDigit 8 m) :
    m ≠ 'b' ∧ m ≠ 'B' ∧ m ≠ 'o' ∧ m ≠ 'O' ∧ m ≠ 'x' ∧ m ≠ 'X' := by
  refine ⟨?_, ?_, ?_, ?_, ?_, ?_⟩ <;> rintro rfl <;> simp [IsDigit, digitValue] at h

/-- The text of a numeral tells its base and its digits. -/
theorem Marked.baseAndDigits_eq (h : Marked mark base digits)
    (hdigits : ∀ c ∈ digits, c = '_' ∨ IsDigit base c) :
    baseAndDigits (mark ++ digits) = (base, digits) := by
  rcases h.cases with ⟨rfl, rfl, d, ds, rfl, hd⟩ | ⟨rfl, rfl⟩ | ⟨m, d, ds, hletter, rfl, rfl⟩
  · simp [baseAndDigits, hd]
  · cases digits with
    | nil => rfl
    | cons m ds =>
      have hm := octal_ne (hdigits m List.mem_cons_self)
      cases ds with
      | nil => rfl
      | cons d ds => simp [baseAndDigits, hm]
  · simp only [letters, List.mem_cons, Prod.mk.injEq, List.not_mem_nil, or_false] at hletter
    rcases hletter with ⟨rfl, rfl⟩ | ⟨rfl, rfl⟩ | ⟨rfl, rfl⟩ | ⟨rfl, rfl⟩ | ⟨rfl, rfl⟩ |
      ⟨rfl, rfl⟩ <;> rfl

/-- Every text splits into a mark and what it takes for digits. -/
theorem exists_marked {cs : List Char} (hcs : cs ≠ []) :
    ∃ mark, Marked mark (baseAndDigits cs).1 (baseAndDigits cs).2 ∧
      cs = mark ++ (baseAndDigits cs).2 := by
  have hletter : ∀ {m d : Char} {ds : List Char} {base : Nat}, (m, base) ∈ letters →
      ∃ mark, Marked mark base (d :: ds) ∧ '0' :: m :: d :: ds = mark ++ (d :: ds) := by
    intro m d ds base hm
    refine ⟨['0', m], ⟨?_, .inl (by simp), by simp⟩, rfl⟩
    exact List.mem_cons_of_mem _ (List.mem_cons_of_mem _ (List.mem_map.mpr ⟨_, hm, rfl⟩))
  fun_cases baseAndDigits cs with
  | case1 m d cs hm =>
    exact hletter (by simpa [letters] using hm)
  | case2 m d cs hb hm =>
    exact hletter (by simpa [letters] using hm)
  | case3 m d cs hb ho hm =>
    exact hletter (by simpa [letters] using hm)
  | case4 m d cs => exact ⟨['0'], ⟨by simp [marks], .inr rfl, by simp⟩, rfl⟩
  | case5 cs => exact ⟨['0'], ⟨by simp [marks], .inr rfl, by simp⟩, rfl⟩
  | case6 _ _ hshort =>
    refine ⟨[], ⟨by simp [marks], .inl hcs, fun _ hzero => ?_⟩, rfl⟩
    obtain ⟨ds, rfl⟩ := List.head?_eq_some_iff.mp hzero
    exact hshort ds rfl

theorem Marked.placed_iff (h : Marked mark base digits)
    (hdigits : ∀ c ∈ digits, c = '_' ∨ IsDigit base c) :
    underscoresPlaced (mark ++ digits) = true ↔ Separated (mark ++ digits) := by
  rcases h.cases with ⟨rfl, rfl, d, ds, rfl, hd⟩ | ⟨rfl, rfl⟩ | ⟨m, d, ds, hletter, rfl, rfl⟩
  · have hplaced : underscoresPlaced ([] ++ d :: ds) = underscoresFrom false .start (d :: ds) := by
      simp [underscoresPlaced, hd]
    rw [hplaced]
    exact underscoresFrom_start_iff hdigits
  · -- The zero counts as a digit here, and not as a mark.
    have hzero : ∀ c ∈ '0' :: digits, c = '_' ∨ IsDigit 10 c :=
      List.forall_mem_cons.mpr
        ⟨.inr ⟨0, rfl, by decide⟩, fun c hc => (hdigits c hc).imp_right (.mono (by decide))⟩
    have hplaced : underscoresPlaced (['0'] ++ digits) =
        underscoresFrom false .start ('0' :: digits) := by
      cases digits with
      | nil => rfl
      | cons m ds =>
        have hm := octal_ne (hdigits m List.mem_cons_self)
        simp [underscoresPlaced, hm]
    rw [hplaced]
    exact underscoresFrom_start_iff hzero
  · obtain ⟨hex, hplaced, hbase, hm⟩ : ∃ hex, underscoresPlaced ('0' :: m :: d :: ds) =
        underscoresFrom hex .digit (d :: ds) ∧ (base ≤ 10 ∨ hex = true ∧ base ≤ 16) ∧ m ≠ '_' := by
      simp only [letters, List.mem_cons, Prod.mk.injEq, List.not_mem_nil, or_false] at hletter
      rcases hletter with ⟨rfl, rfl⟩ | ⟨rfl, rfl⟩ | ⟨rfl, rfl⟩ | ⟨rfl, rfl⟩ | ⟨rfl, rfl⟩ |
        ⟨rfl, rfl⟩ <;> exact ⟨_, rfl, by decide, by decide⟩
    rw [List.cons_append, List.singleton_append, hplaced,
      underscoresFrom_iff hbase hdigits (.inl ⟨rfl, hm⟩),
      separated_cons, List.isChain_cons_cons, List.getLast?_cons_cons]
    simp [Apart]

end Marks

section Numerals

theorem readUnsigned_eq_ok {cs : List Char} (hcs : cs ≠ []) {n : Nat} : readUnsigned cs = .ok n ↔
    digitsFrom (baseAndDigits cs).1 wordLimit true 0 (baseAndDigits cs).2 = .ok n ∧
      ('_' ∈ (baseAndDigits cs).2 → underscoresPlaced cs = true) := by
  have hempty : cs.isEmpty = false := List.isEmpty_eq_false_iff.mpr hcs
  rw [readUnsigned, hempty, if_neg Bool.false_ne_true]
  cases hread : digitsFrom (baseAndDigits cs).1 wordLimit true 0 (baseAndDigits cs).2 with
  | error fault => simp [hread]
  | ok m =>
    by_cases hplaced : '_' ∈ (baseAndDigits cs).2 → underscoresPlaced cs = true
    · simp only [hread]
      rw [if_neg (by simpa using hplaced), and_iff_left hplaced]
    · simp only [hread]
      rw [if_pos (by simpa using hplaced)]
      exact iff_of_false (by simp) fun h => hplaced h.2

theorem base_pos {mark digits : List Char} {base : Nat} (h : Marked mark base digits) :
    0 < base := by
  have hall : ∀ m ∈ marks, 0 < m.2 := by decide
  exact hall _ h.announced

theorem Numeral.text_ne_nil (l : Numeral) : l.text ≠ [] := by
  rcases l.marked.nonempty with h | h <;> simp [Numeral.text, h]

/-- A numeral is read exactly when its value is a word. -/
theorem Numeral.readUnsigned_iff (l : Numeral) {n : Nat} :
    readUnsigned l.text = .ok n ↔ l.value = n ∧ n < 2 ^ 64 := by
  have hdigits : ∀ c ∈ l.digits, (true = true ∧ c = '_') ∨
      IsDigit l.base c := by simpa using l.spelled
  have hplaced := (l.marked.placed_iff l.spelled).mpr l.separated
  rw [readUnsigned_eq_ok l.text_ne_nil, Numeral.text, l.marked.baseAndDigits_eq l.spelled,
    digitsFrom_eq_ok_iff (base_pos l.marked) (by decide)]
  exact ⟨fun h => h.1.2, fun h => ⟨⟨hdigits, h⟩, fun _ => hplaced⟩⟩

/-- Nothing but numerals is read. -/
theorem exists_numeral {cs : List Char} {n : Nat} (h : readUnsigned cs = .ok n) :
    ∃ l : Numeral, cs = l.text := by
  have hcs : cs ≠ [] := by
    rintro rfl
    cases h
  obtain ⟨mark, hmarked, hsplit⟩ := exists_marked hcs
  obtain ⟨hread, hplaced⟩ := (readUnsigned_eq_ok hcs).mp h
  rw [digitsFrom_eq_ok_iff (base_pos hmarked) (by decide)] at hread
  have hspelled : ∀ c ∈ (baseAndDigits cs).2, c = '_' ∨ IsDigit (baseAndDigits cs).1 c := by
    simpa using hread.1
  have hseparated : Separated (mark ++ (baseAndDigits cs).2) := by
    by_cases hunder : '_' ∈ (baseAndDigits cs).2
    · exact (hmarked.placed_iff hspelled).mp (hsplit ▸ hplaced hunder)
    · have hmarks : ∀ m ∈ marks, '_' ∉ m.1 := by decide
      exact separated_of_not_mem (by simp [hunder, hmarks _ hmarked.announced])
  exact ⟨⟨mark, _, _, hmarked, hspelled, hseparated⟩, hsplit⟩

theorem Numeral.unsigned (l : Numeral) : ∀ c ∈ l.text.head?, c ≠ '+' ∧ c ≠ '-' := by
  have hsigns : ¬ ('+' = '_' ∨ IsDigit 10 '+') ∧ ¬ ('-' = '_' ∨ IsDigit 10 '-') := by
    simp [IsDigit, digitValue]
  have hspelled := l.spelled
  intro c hc
  unfold Numeral.text at hc
  rcases l.marked.cases with ⟨hmark, hbase, d, ds, hdigits, -⟩ | ⟨hmark, -⟩ |
    ⟨m, d, ds, -, hmark, -⟩
  · rw [hmark, hdigits] at hc
    cases hc
    rw [hbase, hdigits] at hspelled
    have hd := hspelled c List.mem_cons_self
    constructor
    · rintro rfl
      exact hsigns.1 hd
    · rintro rfl
      exact hsigns.2 hd
  · rw [hmark] at hc
    cases hc
    decide
  · rw [hmark] at hc
    cases hc
    decide

end Numerals

section Literals

theorem withSign_eq_ok_iff {negative : Bool} {n : Nat} {v : Int64} : withSign negative n = .ok v ↔
    InSigned (if negative then -(n : Int) else n) ∧
      v = Int64.ofInt (if negative then -(n : Int) else n) := by
  have hone : ∀ {P : Prop} [Decidable P] {w : Int64},
      (if P then Except.ok w else .error .outOfRange) =
      (.ok v : Except IntegerFault Int64) ↔ P ∧ v = w := by
    intro P _ w
    split <;> simp_all [eq_comm]
  unfold InSigned
  cases negative with
  | false =>
    rw [withSign, if_neg Bool.false_ne_true, if_neg Bool.false_ne_true,
      ← Int64.ofInt_eq_ofNat, hone]
    exact and_congr_left' (by change n < 2 ^ 63 ↔ _; omega)
  | true =>
    rw [withSign, if_pos rfl, if_pos rfl, hone]
    exact and_congr_left' (by change n ≤ 2 ^ 63 ↔ _; omega)

theorem Literal.readSigned_text (l : Literal) :
    readSigned l.text = readUnsigned l.numeral.text >>= withSign (l.sign = .minus) := by
  unfold Literal.text
  cases l.sign with
  | absent =>
    have hunsigned := l.numeral.unsigned
    change readSigned l.numeral.text = _
    rw [readSigned]
    · rfl
    · rintro cs hcs
      exact (hunsigned '+' (by rw [hcs]; rfl)).1 rfl
    · rintro cs hcs
      exact (hunsigned '-' (by rw [hcs]; rfl)).2 rfl
  | plus => rfl
  | minus => rfl

theorem Literal.readSigned_iff (l : Literal) {v : Int64} :
    readSigned l.text = .ok v ↔ InSigned l.value ∧ v = Int64.ofInt l.value := by
  have hvalue : l.value = if decide (l.sign = .minus) then -(l.numeral.value : Int)
      else l.numeral.value := by
    simp [Literal.value]
  rw [l.readSigned_text, hvalue]
  by_cases hword : l.numeral.value < 2 ^ 64
  · rw [l.numeral.readUnsigned_iff.mpr ⟨rfl, hword⟩]
    exact withSign_eq_ok_iff
  · cases hread : readUnsigned l.numeral.text with
    | ok n =>
      obtain ⟨rfl, hn⟩ := l.numeral.readUnsigned_iff.mp hread
      exact absurd hn hword
    | error fault =>
      refine iff_of_false (fun h => by cases h) fun h => ?_
      have hrange := h.1
      unfold InSigned at hrange
      split at hrange <;> omega

theorem Literal.readUnsigned_iff (l : Literal) {n : Nat} : readUnsigned l.text = .ok n ↔
    l.sign = .absent ∧ l.value = n ∧ n < 2 ^ 64 := by
  constructor
  · intro h
    obtain ⟨m, hm⟩ := exists_numeral h
    have hunsigned := m.unsigned
    rw [← hm] at hunsigned
    unfold Literal.text at h hunsigned
    unfold Literal.value
    cases hsign : l.sign with
    | absent =>
      rw [hsign] at h
      have hread := l.numeral.readUnsigned_iff.mp h
      simpa using hread
    | plus =>
      rw [hsign] at hunsigned
      exact absurd rfl (hunsigned _ rfl).1
    | minus =>
      rw [hsign] at hunsigned
      exact absurd rfl (hunsigned _ rfl).2
  · rintro ⟨hsign, hvalue, hn⟩
    rw [Literal.value, hsign] at hvalue
    rw [Literal.text, hsign]
    exact l.numeral.readUnsigned_iff.mpr ⟨by simpa using hvalue, hn⟩

theorem readWord?_eq_some_iff {s : String} {v : Int64} : readWord? s = some v ↔
    readSigned s.toList = .ok v ∨ ((∀ w, readSigned s.toList ≠ .ok w) ∧
      ∃ n, readUnsigned s.toList = .ok n ∧ v = Int64.ofInt n) := by
  unfold readWord?
  cases readSigned s.toList with
  | ok w => simp [eq_comm]
  | error fault =>
    cases readUnsigned s.toList with
    | ok n => simp [Int64.ofInt_eq_ofNat, eq_comm]
    | error fault => simp

/-- The word that a literal is read as. -/
theorem Literal.readWord?_iff (l : Literal) {v : Int64} :
    readWord? (String.ofList l.text) = some v ↔ l.InRange ∧ v = Int64.ofInt l.value := by
  have hrange : l.InRange ↔ InSigned l.value ∨ l.sign = .absent ∧ 0 ≤ l.value ∧
      l.value < 2 ^ 64 := by
    unfold Literal.InRange InSigned
    split
    next hsign => simp [hsign]; omega
    next hsign => simp [hsign]
  rw [readWord?_eq_some_iff, String.toList_ofList, l.readSigned_iff, hrange]
  simp only [ne_eq, l.readSigned_iff, l.readUnsigned_iff]
  by_cases hsigned : InSigned l.value
  · simp [hsigned]
  · simp only [hsigned, false_and, false_or, not_false_eq_true, implies_true, true_and]
    constructor
    · rintro ⟨n, ⟨hsign, hvalue, hn⟩, rfl⟩
      exact ⟨⟨hsign, by omega, by omega⟩, by rw [hvalue]⟩
    · rintro ⟨⟨hsign, hlow, hhigh⟩, rfl⟩
      exact ⟨l.value.toNat, ⟨hsign, by omega, by omega⟩, by rw [Int.toNat_of_nonneg hlow]⟩

theorem exists_literal {s : String} {v : Int64} (h : readWord? s = some v) :
    ∃ l : Literal, s.toList = l.text := by
  have hnumeral : ∀ (sign : Sign) {cs : List Char} {n : Nat}, readUnsigned cs = .ok n →
      ∃ l : Literal, sign.text ++ cs = l.text := by
    intro sign cs n hread
    obtain ⟨m, rfl⟩ := exists_numeral hread
    exact ⟨⟨sign, m⟩, rfl⟩
  have hbind : ∀ {cs : List Char} {negative : Bool}, readUnsigned cs >>= withSign negative = .ok v →
      ∃ n, readUnsigned cs = .ok n := by
    intro cs negative hread
    cases hcs : readUnsigned cs with
    | ok n => exact ⟨n, rfl⟩
    | error fault =>
      rw [hcs] at hread
      cases hread
  rcases readWord?_eq_some_iff.mp h with hsigned | ⟨-, n, hunsigned, -⟩
  · generalize s.toList = cs at hsigned
    unfold readSigned at hsigned
    split at hsigned
    · exact (hbind hsigned).elim fun n => hnumeral .plus
    · exact (hbind hsigned).elim fun n => hnumeral .minus
    · exact (hbind hsigned).elim fun n => hnumeral .absent
  · exact hnumeral .absent hunsigned

/-- The characters that literals are made of. -/
theorem Literal.mem_text {l : Literal} {c : Char} (h : c ∈ l.text) :
    c ∈ ['+', '-', '_'] ∨ c ∈ l.numeral.mark ∨ IsDigit l.numeral.base c := by
  have hsigns : ∀ sign : Sign, c ∈ sign.text → c ∈ ['+', '-', '_'] := by
    intro sign hc
    cases sign <;> simp_all [Sign.text]
  rcases List.mem_append.mp h with hsign | htext
  · exact .inl (hsigns _ hsign)
  · rcases List.mem_append.mp htext with hmark | hdigit
    · exact .inr (.inl hmark)
    · rcases l.numeral.spelled c hdigit with rfl | hc
      · exact .inl (by decide)
      · exact .inr (.inr hc)

/-- The digits of a number are a numeral of its value. -/
theorem exists_numeral_toDigits (n : Nat) :
    ∃ l : Numeral, Nat.toDigits 10 n = l.text ∧ l.value = n := by
  have hread := Json.digitsFrom_toDigits (Nat.lt_succ_self n)
  rw [digitsFrom_eq_ok_iff (by decide) (Nat.succ_pos n)] at hread
  have hdigits : ∀ c ∈ Nat.toDigits 10 n, IsDigit 10 c := by simpa using hread.1
  have hseparated : Separated (Nat.toDigits 10 n) :=
    separated_of_not_mem fun h => digit_ne_underscore (hdigits _ h) rfl
  by_cases hn : n = 0
  · subst hn
    exact ⟨⟨['0'], 8, [], ⟨by decide, .inr rfl, by decide⟩, by simp, hseparated⟩, rfl, rfl⟩
  · obtain ⟨c, cs, hcs, hc⟩ := Json.head_toDigits (Nat.pos_of_ne_zero hn)
    have hmarked : Marked [] 10 (Nat.toDigits 10 n) :=
      ⟨by decide, .inl (by simp [hcs]), by simp [hcs, hc]⟩
    exact ⟨⟨[], 10, _, hmarked, fun c hc => .inr (hdigits c hc), hseparated⟩, rfl, hread.2.1⟩

/-- The decimal text of an integer is a literal of it. -/
theorem exists_literal_decimalInt (n : Int) :
    ∃ l : Literal, Text.decimalInt n = String.ofList l.text ∧
    l.value = n ∧ (l.InRange ↔ -2 ^ 63 ≤ n ∧ n < 2 ^ 64) := by
  cases n with
  | ofNat k =>
    obtain ⟨m, htext, hvalue⟩ := exists_numeral_toDigits k
    refine ⟨⟨.absent, m⟩, congrArg String.ofList htext, ?_⟩
    have hlit : (Literal.mk .absent m).value = k := congrArg Nat.cast hvalue
    exact ⟨hlit, by rw [Literal.InRange, hlit]; rfl⟩
  | negSucc k =>
    obtain ⟨m, htext, hvalue⟩ := exists_numeral_toDigits (k + 1)
    refine ⟨⟨.minus, m⟩, ?_, ?_⟩
    · rw [Text.decimalInt, Text.decimalNat, htext, ← String.toList_inj]
      simp [Literal.text, Sign.text]
    · have hlit : (Literal.mk .minus m).value = Int.negSucc k :=
        congrArg (fun i : Nat => -(i : Int)) hvalue
      refine ⟨hlit, ?_⟩
      rw [Literal.InRange, hlit, if_neg Sign.noConfusion]
      omega

end Literals

open Dump.Reading (integer? integerText)

/-- The value is read as the integer's word exactly when it fits. -/
def ReadsAs (value : Option Json) (z : Int) (fits : Prop) : Prop :=
  ((integer? value).isSome = true ↔ fits) ∧
    ∀ v, integer? value = some v → v.toInt % 2 ^ 64 = z % 2 ^ 64

theorem Literal.readsAs {l : Literal} {value : Option Json}
    (h : integerText value = String.ofList l.text) : ReadsAs value l.value l.InRange := by
  have hread : ∀ v, integer? value = some v ↔ l.InRange ∧ v = Int64.ofInt l.value := by
    intro v
    rw [integer?, h, l.readWord?_iff]
  constructor
  · simp [Option.isSome_iff_exists, hread]
  · intro v hv
    obtain ⟨-, rfl⟩ := (hread v).mp hv
    rw [Int64.toInt_ofInt]
    exact Int.bmod_emod

/-- Nothing but literals is read. -/
theorem integer?_eq_none {value : Option Json}
    (h : ∀ l : Literal, (integerText value).toList ≠ l.text) : integer? value = none := by
  cases hread : integer? value with
  | none => rfl
  | some v =>
    obtain ⟨l, hl⟩ := exists_literal hread
    exact absurd hl (h l)

/-- A character refuses a text if it is no sign and stands in no mark and no digits that the text
can have. -/
theorem integer?_of_mem {value : Option Json} {c : Char} (hc : c ∈ (integerText value).toList)
    (hsign : c ∉ ['+', '-', '_'])
    (h : ∀ m ∈ marks, (∀ d ∈ m.1, d ∈ (integerText value).toList) → c ∉ m.1 ∧ ¬ IsDigit m.2 c) :
    integer? value = none := by
  refine integer?_eq_none fun l hl => ?_
  rw [hl] at hc h
  have hmark := h _ l.numeral.marked.announced fun d hd =>
    List.mem_append_right _ (List.mem_append_left _ hd)
  rcases Literal.mem_text hc with hc | hc | hc
  · exact hsign hc
  · exact hmark.1 hc
  · exact hmark.2 hc

/-- Integers are read from their literals modulo 2^64, where they are in range, and from nothing
else. -/
theorem integers_read_modulo_word :
    (∀ (n : Int) (source : String),
      ReadsAs (some (.number (Text.decimalInt n))) n (-2 ^ 63 ≤ n ∧ n < 2 ^ 64) ∧
      ReadsAs (some (.string source (Text.decimalInt n))) n (-2 ^ 63 ≤ n ∧ n < 2 ^ 64)) ∧
    (∀ (l : Literal) (value : Option Json), integerText value = String.ofList l.text →
      ReadsAs value l.value l.InRange) ∧
    (∀ value, (∀ l : Literal, (integerText value).toList ≠ l.text) → integer? value = none) ∧
    integer? none = none ∧ integer? (some .null) = none ∧
    (∀ value, '.' ∈ (integerText value).toList → integer? value = none) ∧
    ∀ value, 'e' ∈ (integerText value).toList ∨ 'E' ∈ (integerText value).toList →
      'x' ∉ (integerText value).toList → 'X' ∉ (integerText value).toList →
        integer? value = none := by
  refine ⟨?_, fun l value => Literal.readsAs, fun value => integer?_eq_none, rfl, rfl, ?_, ?_⟩
  · intro n source
    obtain ⟨l, htext, hvalue, hrange⟩ := exists_literal_decimalInt n
    rw [← hrange]
    have hread : ∀ value, integerText value = Text.decimalInt n → ReadsAs value n l.InRange :=
      fun value h => hvalue ▸ Literal.readsAs (h.trans htext)
    exact ⟨hread _ rfl, hread _ rfl⟩
  · intro value hdot
    exact integer?_of_mem hdot (by decide) (by simp [marks, letters, IsDigit, digitValue])
  · intro value hexponent hx hX
    rcases hexponent with h | h
    · exact integer?_of_mem h (by decide) (by simp [marks, letters, IsDigit, digitValue, hx, hX])
    · exact integer?_of_mem h (by decide) (by simp [marks, letters, IsDigit, digitValue, hx, hX])

end DartLowering.Number
