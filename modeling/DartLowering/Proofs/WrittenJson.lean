import DartLowering.Json.Reader
import DartLowering.Json.Writer
import DartLowering.Number.Integer
import Mathlib.Data.List.TakeWhile
import Mathlib.Tactic.IntervalCases

/-!
Values that are written as text and read again. A quoted text denotes the text it was made from,
whatever characters that holds, a word is read from its decimal digits up to both limits of its
range, and an object whose members are read back is read back with those members in their order.
-/
namespace DartLowering.Json

section Quotes

theorem hexValue_digitChar : ∀ k < 16, hexValue (Nat.digitChar k) = some k := by
  decide

/-- Four digits write a code unit. -/
theorem codeUnit_hexDigits {n : Nat} (hn : n < 0x10000) :
    ∃ a b c d, Text.hexDigits 4 n = [a, b, c, d] ∧ codeUnit a b c d = some n := by
  have hdigits : Text.hexDigits 4 n = [Nat.digitChar (n / 4096 % 16), Nat.digitChar (n / 256 % 16),
      Nat.digitChar (n / 16 % 16), Nat.digitChar (n / 1 % 16)] := rfl
  refine ⟨_, _, _, _, hdigits, ?_⟩
  have ha := hexValue_digitChar (n / 4096 % 16) (by omega)
  have hb := hexValue_digitChar (n / 256 % 16) (by omega)
  have hc := hexValue_digitChar (n / 16 % 16) (by omega)
  have hd := hexValue_digitChar (n / 1 % 16) (by omega)
  have hsum : ((n / 4096 % 16 * 16 + n / 256 % 16) * 16 + n / 16 % 16) * 16 + n / 1 % 16 = n := by
    omega
  simp only [codeUnit, ha, hb, hc, hd, Option.bind_eq_bind, Option.bind_some, hsum]

/-- The piece that a character becomes. -/
def written (c : Char) : Piece := if escape c = [c] then .plain c else .escaped (escape c) c

theorem spelling_written (c : Char) : (written c).spelling = escape c := by
  unfold written
  split
  · rename_i h
    exact h.symm
  · rfl

theorem denote_written (cs : List Char) : denote (cs.map written) = cs := by
  induction cs with
  | nil => rfl
  | cons c cs ih =>
    rw [List.map_cons, written]
    split
    · rw [denote, ih]
    · rw [denote, ih]

/-- A character is written by a letter, by its number, or stands for itself. -/
theorem escape_cases (c : Char) :
    (∃ e, escape c = ['\\', e] ∧ simpleEscape e = some c ∧ e ≠ 'u') ∨
      (escape c = '\\' :: 'u' :: Text.hexDigits 4 c.toNat ∧ c.toNat < 0xD800) ∨
      (escape c = [c] ∧ c ≠ '"' ∧ c ≠ '\\' ∧ 0x20 ≤ c.toNat) := by
  have hself : ∀ n e, c.toNat = n → simpleEscape e = some (Char.ofNat n) →
      simpleEscape e = some c := by
    rintro n e rfl he
    rwa [Char.ofNat_toNat] at he
  unfold escape
  split
  · rename_i h
    exact .inl ⟨'"', rfl, congrArg some h.symm, by decide⟩
  · rename_i hquote
    split
    · rename_i h
      exact .inl ⟨'\\', rfl, congrArg some h.symm, by decide⟩
    · rename_i hslash
      split
      · exact .inl ⟨'b', rfl, hself 8 'b' (by assumption) rfl, by decide⟩
      · exact .inl ⟨'f', rfl, hself 12 'f' (by assumption) rfl, by decide⟩
      · exact .inl ⟨'n', rfl, hself 10 'n' (by assumption) rfl, by decide⟩
      · exact .inl ⟨'r', rfl, hself 13 'r' (by assumption) rfl, by decide⟩
      · exact .inl ⟨'t', rfl, hself 9 't' (by assumption) rfl, by decide⟩
      · split
        · rename_i h
          refine .inr (.inl ⟨rfl, ?_⟩)
          simp only [Bool.or_eq_true, decide_eq_true_eq] at h
          rcases h with ((((h | rfl) | rfl) | rfl) | h) | h
          · omega
          · decide
          · decide
          · decide
          · omega
          · omega
        · rename_i h
          simp only [Bool.or_eq_true, decide_eq_true_eq, not_or, Nat.not_lt] at h
          exact .inr (.inr ⟨rfl, hquote, hslash, h.1.1.1.1.1⟩)

theorem readPieces_escape (c : Char) (cs : List Char) :
    readPieces (escape c ++ cs) = (readPieces cs).map fun r => (written c :: r.1, r.2) := by
  rcases escape_cases c with ⟨e, hescape, hsimple, hu⟩ | ⟨hescape, hlow⟩ |
    ⟨hescape, hquote, hslash, hhigh⟩
  · have hwritten : written c = .escaped ['\\', e] c := by
      rw [written, hescape, if_neg (by simp)]
    rw [hwritten, hescape, List.cons_append, List.cons_append, List.nil_append, readPieces]
    · rw [hsimple]
    · intro a b c d rest he
      exact absurd he hu
  · obtain ⟨a, b, c', d, hdigits, hunit⟩ := codeUnit_hexDigits (n := c.toNat) (by omega)
    have hwritten : written c = .escaped ['\\', 'u', a, b, c', d] c := by
      rw [written, hescape, hdigits, if_neg (by simp)]
    have hhigh : isHighSurrogate c.toNat = false := by
      simp only [isHighSurrogate, Bool.and_eq_false_iff, decide_eq_false_iff_not]
      omega
    have hnotLow : isLowSurrogate c.toNat = false := by
      simp only [isLowSurrogate, Bool.and_eq_false_iff, decide_eq_false_iff_not]
      omega
    rw [hwritten, hescape, hdigits]
    simp only [List.cons_append, List.nil_append, readPieces, hunit, hhigh, hnotLow, Bool.or_false,
      Bool.false_eq_true, if_false, Char.ofNat_toNat]
  · have hwritten : written c = .plain c := by
      rw [written, if_pos hescape]
    rw [hwritten, hescape, List.singleton_append, readPieces]
    · rw [if_neg]
      simp only [Bool.or_eq_true, decide_eq_true_eq, hslash, or_false]
      omega
    · exact hquote
    · intro a b c d rest h
      exact absurd h hslash
    · intro e rest h
      exact absurd h hslash

theorem readPieces_flatMap_escape (cs rest : List Char) :
    readPieces (cs.flatMap escape ++ '"' :: rest) = some (cs.map written, rest) := by
  induction cs with
  | nil => rw [List.flatMap_nil, List.nil_append, readPieces, List.map_nil]
  | cons c cs ih =>
    rw [List.flatMap_cons, List.append_assoc, readPieces_escape, ih]
    rfl

/-- A quoted text denotes the text it was made from. -/
theorem readString_escape (s : String) (rest : List Char) :
    readString (s.toList.flatMap escape ++ '"' :: rest) = some (quoted s, s, rest) := by
  have hspelling : (s.toList.map written).flatMap Piece.spelling = s.toList.flatMap escape := by
    rw [List.flatMap_map]
    exact congrArg (s.toList.flatMap ·) (funext spelling_written)
  simp only [readString, readPieces_flatMap_escape, Option.map_some, denote_written, hspelling,
    String.ofList_toList, quoted]

end Quotes

section Words

variable {n : Nat} {rest : List Char}

/-- What may follow a value inside an object: nothing that would continue a number. -/
def Stops (rest : List Char) : Prop := ∀ c ∈ rest.head?, c = ',' ∨ c = '\n'

theorem isDigit_of_mem_toDigits {c : Char} (h : c ∈ Nat.toDigits 10 n) : isDigit c = true := by
  have hc := Nat.isDigit_of_mem_toDigits (by omega) (by omega) h
  simpa [isDigit, Char.isDigit, Char.le_def] using hc

theorem Stops.takeDigits {digits : List Char} (hrest : Stops rest)
    (hdigits : ∀ c ∈ digits, isDigit c = true) : takeDigits (digits ++ rest) = (digits, rest) := by
  have hnone : ∀ c ∈ rest.head?, isDigit c = false := by
    intro c hc
    rcases hrest c hc with rfl | rfl
    · decide
    · decide
  rw [Json.takeDigits, List.takeWhile_append_of_pos hdigits, List.dropWhile_append_of_pos hdigits]
  cases rest with
  | nil => simp
  | cons c cs => simp [hnone c rfl]

theorem Stops.readFraction (hrest : Stops rest) : readFraction rest = some ([], rest) := by
  unfold Json.readFraction
  split
  · rcases hrest '.' rfl with h | h
    · cases h
    · cases h
  · rfl

theorem Stops.readExponent (hrest : Stops rest) : readExponent rest = some ([], rest) := by
  cases rest with
  | nil => rfl
  | cons c cs =>
    rcases hrest c rfl with rfl | rfl
    · rfl
    · rfl

/-- Only the digits of zero begin with a zero. -/
theorem head_toDigits (hn : 0 < n) : ∃ c cs, Nat.toDigits 10 n = c :: cs ∧ c ≠ '0' := by
  induction n using Nat.strongRecOn with
  | ind n ih =>
    by_cases hsmall : n < 10
    · refine ⟨Nat.digitChar n, [], Nat.toDigits_of_lt_base hsmall, ?_⟩
      interval_cases n <;> decide
    · obtain ⟨c, cs, hdigits, hc⟩ := ih (n / 10) (by omega) (by omega)
      refine ⟨c, cs ++ [Nat.digitChar (n % 10)], ?_, hc⟩
      rw [Nat.toDigits_of_base_le (by omega) (by omega), hdigits, List.cons_append]

theorem Stops.readWholePart (hrest : Stops rest) (n : Nat) :
    readWholePart (Nat.toDigits 10 n ++ rest) = some (Nat.toDigits 10 n, rest) := by
  have htake := hrest.takeDigits fun c hc => isDigit_of_mem_toDigits (n := n) hc
  by_cases hn : n = 0
  · subst hn
    rfl
  · obtain ⟨c, cs, hdigits, hc⟩ := head_toDigits (Nat.pos_of_ne_zero hn)
    rw [hdigits] at htake ⊢
    rw [List.cons_append, Json.readWholePart]
    · rw [readDigits, ← List.cons_append, htake]
    · intro rest h
      cases h
      exact hc rfl

theorem toList_decimal (v : Int64) :
    ((Text.decimal v).toList = Nat.toDigits 10 v.toInt.natAbs ∧ 0 ≤ v.toInt) ∨
      ((Text.decimal v).toList = '-' :: Nat.toDigits 10 v.toInt.natAbs ∧ v.toInt < 0) := by
  unfold Text.decimal
  cases v.toInt with
  | ofNat n => exact .inl ⟨String.toList_ofList, Int.natCast_nonneg n⟩
  | negSucc n =>
    refine .inr ⟨?_, Int.negSucc_lt_zero n⟩
    simp only [Text.decimalInt, Text.decimalNat, String.toList_append, String.toList_ofList]
    rfl

theorem toDigits_unsigned (n : Nat) : ∃ c cs, Nat.toDigits 10 n = c :: cs ∧ c ≠ '-' := by
  cases hdigits : Nat.toDigits 10 n with
  | nil => exact absurd hdigits Nat.toDigits_ne_nil
  | cons c cs =>
    refine ⟨c, cs, rfl, ?_⟩
    rintro rfl
    have hc : isDigit '-' = true := isDigit_of_mem_toDigits (hdigits ▸ List.mem_cons_self)
    exact absurd hc (by decide)

theorem readSign_toDigits (n : Nat) (rest : List Char) :
    readSign (Nat.toDigits 10 n ++ rest) = ([], Nat.toDigits 10 n ++ rest) := by
  obtain ⟨c, cs, hdigits, hc⟩ := toDigits_unsigned n
  rw [hdigits, List.cons_append, readSign]
  intro rest h
  cases h
  exact hc rfl

theorem Stops.readNumber (hrest : Stops rest) (v : Int64) :
    readNumber ((Text.decimal v).toList ++ rest) = some ((Text.decimal v).toList, rest) := by
  unfold Json.readNumber
  rcases toList_decimal v with ⟨htext, -⟩ | ⟨htext, -⟩
  · simp only [htext, readSign_toDigits, hrest.readWholePart, hrest.readFraction,
      hrest.readExponent, Option.bind_eq_bind, Option.bind_some, List.nil_append, List.append_nil]
  · simp only [htext, List.cons_append, readSign, hrest.readWholePart, hrest.readFraction,
      hrest.readExponent, Option.bind_eq_bind, Option.bind_some, List.nil_append, List.append_nil]

theorem digitValue_digitChar : ∀ k < 10, Number.digitValue (Nat.digitChar k) = some k := by
  decide

/-- Digits are read one after another. -/
theorem digitsFrom_append (base limit acc : Nat) (cs ds : List Char) :
    Number.digitsFrom base limit false acc (cs ++ ds) =
      Number.digitsFrom base limit false acc cs >>= fun acc =>
        Number.digitsFrom base limit false acc ds := by
  induction cs generalizing acc with
  | nil => rfl
  | cons c cs ih =>
    simp only [List.cons_append, Number.digitsFrom, Bool.false_and, Bool.false_eq_true, if_false]
    split
    · rfl
    · split
      · rfl
      · split
        · rfl
        · exact ih _

theorem digitsFrom_toDigits {limit : Nat} (hn : n < limit) :
    Number.digitsFrom 10 limit false 0 (Nat.toDigits 10 n) = .ok n := by
  have hdigit : ∀ acc k, k < 10 → acc * 10 + k < limit →
      Number.digitsFrom 10 limit false acc [Nat.digitChar k] = .ok (acc * 10 + k) := by
    intro acc k hk hlimit
    simp only [Number.digitsFrom, digitValue_digitChar k hk, Bool.false_and, Bool.false_eq_true,
      if_false, if_neg (Nat.not_le.mpr hk), if_neg (Nat.not_le.mpr hlimit)]
  induction n using Nat.strongRecOn with
  | ind n ih =>
    by_cases hsmall : n < 10
    · rw [Nat.toDigits_of_lt_base hsmall, hdigit 0 n hsmall (by omega)]
      congr 1
      omega
    · rw [Nat.toDigits_of_base_le (by omega) (by omega), digitsFrom_append,
        ih (n / 10) (by omega) (by omega)]
      have hlast := hdigit (n / 10) (n % 10) (by omega) (by omega)
      rw [Nat.div_add_mod' n 10] at hlast
      exact hlast

theorem readPlain_toDigits (hn : n < Number.wordLimit) :
    Number.readPlain (Nat.toDigits 10 n) = .ok n := by
  have hsome : (Nat.toDigits 10 n).isEmpty = false :=
    List.isEmpty_eq_false_iff.mpr Nat.toDigits_ne_nil
  rw [Number.readPlain, hsome, if_neg Bool.false_ne_true, digitsFrom_toDigits hn]

/-- Every word is read from its decimal text. -/
theorem readDecimal?_decimal (v : Int64) : Number.readDecimal? (Text.decimal v) = some v := by
  have hlow : -(2 : Int) ^ 63 ≤ v.toInt := Int64.le_toInt v
  have hhigh : v.toInt < 2 ^ 63 := Int64.toInt_lt v
  have hplain := readPlain_toDigits (n := v.toInt.natAbs) (by
    show _ < 2 ^ 64
    omega)
  rcases toList_decimal v with ⟨htext, hsign⟩ | ⟨htext, hsign⟩
  · have hread : Number.readDecimal? (Text.decimal v) =
        (Number.readPlain (Nat.toDigits 10 v.toInt.natAbs) >>= Number.withSign false).toOption := by
      obtain ⟨c, cs, hdigits, hc⟩ := toDigits_unsigned v.toInt.natAbs
      rw [Number.readDecimal?, htext, hdigits]
      split
      · rename_i h
        cases h
        exact absurd rfl hc
      · rfl
    have hvalue : Int64.ofNat v.toInt.natAbs = v := by
      rw [← Int64.ofInt_eq_ofNat, Int.natAbs_of_nonneg hsign, Int64.ofInt_toInt]
    rw [hread, hplain]
    show (Number.withSign false v.toInt.natAbs).toOption = some v
    rw [Number.withSign, if_neg Bool.false_ne_true, if_pos (by show _ < 2 ^ 63; omega), hvalue]
    rfl
  · have hvalue : Int64.ofInt (-(v.toInt.natAbs : Int)) = v := by
      rw [show -(v.toInt.natAbs : Int) = v.toInt by omega, Int64.ofInt_toInt]
    rw [Number.readDecimal?, htext]
    simp only [hplain]
    show (Number.withSign true v.toInt.natAbs).toOption = some v
    rw [Number.withSign, if_pos rfl, if_pos (by show _ ≤ 2 ^ 63; omega), hvalue]
    rfl

end Words

section Members

/-- The text of the value is read as the value, at every level and whatever follows in an object. -/
def ReadsBack (j : Json) : Prop :=
  ∀ level fuel depth rest, Stops rest →
    readValue (fuel + 1) depth ((j.indented level).toList ++ rest) = some (j, rest)

theorem readsBack_bool (b : Bool) : ReadsBack (.bool b) := by
  intro level fuel depth rest hrest
  cases b with
  | false =>
    rw [indented, if_neg Bool.false_ne_true]
    rfl
  | true =>
    rw [indented, if_pos rfl]
    rfl

theorem readsBack_ofText (s : String) : ReadsBack (.ofText s) := by
  intro level fuel depth rest hrest
  have htext : ((ofText s).indented level).toList ++ rest =
      '"' :: (s.toList.flatMap escape ++ '"' :: rest) := by
    rw [ofText, indented, quoted, String.toList_ofList]
    simp
  rw [htext, readValue]
  simp [skipBlank, isBlank, readString_escape, ofText]

/-- A word begins with a sign or a digit. -/
theorem head_decimal (v : Int64) :
    ∃ c cs, (Text.decimal v).toList = c :: cs ∧ (c = '-' ∨ isDigit c = true) := by
  rcases toList_decimal v with ⟨htext, -⟩ | ⟨htext, -⟩
  · obtain ⟨c, cs, hdigits, -⟩ := toDigits_unsigned v.toInt.natAbs
    exact ⟨c, cs, htext.trans hdigits,
      .inr (isDigit_of_mem_toDigits (hdigits ▸ List.mem_cons_self))⟩
  · exact ⟨'-', _, htext, .inl rfl⟩

theorem readsBack_ofWord (v : Int64) : ReadsBack (.ofWord v) := by
  intro level fuel depth rest hrest
  obtain ⟨c, cs, htext, hc⟩ := head_decimal v
  have hother : ∀ a ∈ [' ', '\t', '\n', '\r', 'n', 't', 'f', '"', '[', '\x7b'], c ≠ a := by
    have hnone : [' ', '\t', '\n', '\r', 'n', 't', 'f', '"', '[', '\x7b'].all
        (fun a => !(a == '-' || isDigit a)) = true := by decide
    rintro a ha rfl
    have hneither := List.all_eq_true.mp hnone c ha
    rcases hc with rfl | hdigit
    · cases hneither
    · rw [hdigit, Bool.or_true] at hneither
      cases hneither
  have hnumber := hrest.readNumber v
  rw [htext] at hnumber
  have hskip : skipBlank (c :: cs ++ rest) = c :: cs ++ rest := by
    refine List.dropWhile_cons_of_neg ?_
    simp only [isBlank, Bool.or_eq_true, decide_eq_true_eq]
    rintro (((h | h) | h) | h) <;> exact hother _ (by simp) h
  rw [ofWord, indented, htext, readValue, hskip]
  split
  case h_7 =>
    rw [hnumber, Option.map_some]
    simp only [← htext, String.ofList_toList]
  all_goals
    rename_i h
    exact absurd (List.cons.inj h).1 (hother _ (by simp))

theorem skipBlank_of_head {c : Char} (hc : isBlank c = false) (cs : List Char) :
    skipBlank (c :: cs) = c :: cs :=
  List.dropWhile_cons_of_neg (by simp [hc])

theorem skipBlank_lineStart (level : Nat) (cs : List Char) :
    skipBlank ((lineStart level).toList ++ cs) = skipBlank cs := by
  have hblank : ∀ c ∈ (lineStart level).toList, isBlank c = true := by
    intro c hc
    simp only [lineStart, Text.spaces, String.toList_append, String.toList_ofList,
      List.mem_append] at hc
    rcases hc with hc | hc
    · rw [List.mem_singleton.mp hc]
      rfl
    · rw [List.eq_of_mem_replicate hc]
      rfl
  exact List.dropWhile_append_of_pos hblank

theorem readMembers_lineStart (fuel depth level : Nat) (cs : List Char) :
    readMembers fuel depth ((lineStart level).toList ++ cs) = readMembers fuel depth cs := by
  cases fuel with
  | zero => rw [readMembers, readMembers]
  | succ fuel => rw [readMembers, readMembers, skipBlank_lineStart]

/-- One member is read, and what follows it decides how the reading goes on. -/
theorem readMembers_member {j : Json} (hback : ReadsBack j) (key : String) (fuel depth level : Nat)
    (after rest : List Char) (hafter : Stops after) :
    (skipBlank after = '\x7d' :: rest →
      readMembers (fuel + 2) depth ((quoted key ++ ": " ++ j.indented level).toList ++ after) =
        some ([(key, j)], rest)) ∧
    (skipBlank after = ',' :: rest →
      readMembers (fuel + 2) depth ((quoted key ++ ": " ++ j.indented level).toList ++ after) =
        (readMembers (fuel + 1) depth rest).map fun r => ((key, j) :: r.1, r.2)) := by
  have hopen : (quoted key ++ ": " ++ j.indented level).toList ++ after =
      '"' :: (key.toList.flatMap escape ++
        '"' :: ':' :: ' ' :: ((j.indented level).toList ++ after)) := by
    simp [quoted]
  have hvalue : readValue (fuel + 1) depth (' ' :: ((j.indented level).toList ++ after)) =
      some (j, after) := by
    have hskip : skipBlank (' ' :: ((j.indented level).toList ++ after)) =
        skipBlank ((j.indented level).toList ++ after) := List.dropWhile_cons_of_pos rfl
    have hread := hback level fuel depth after hafter
    rw [readValue] at hread ⊢
    rw [hskip]
    exact hread
  have hcolon := skipBlank_of_head (show isBlank ':' = false from rfl)
  rw [hopen, readMembers, skipBlank_of_head rfl]
  constructor
  · intro hclosed
    simp only [readString_escape, hcolon, hvalue, hclosed]
  · intro hmore
    simp only [readString_escape, hcolon, hvalue, hmore]

/-- The text of members from the first key on. -/
def membersText (level : Nat) (key : String) (j : Json) (ms : List (String × Json)) : List Char :=
  (quoted key ++ ": " ++ j.indented level ++ indentedMembers level ms).toList

theorem membersText_cons (level : Nat) (key key' : String) (j j' : Json)
    (ms : List (String × Json)) :
    membersText level key j ((key', j') :: ms) = (quoted key ++ ": " ++ j.indented level).toList ++
      ',' :: ((lineStart level).toList ++ membersText level key' j' ms) := by
  simp [membersText, indentedMembers]

/-- The members of an object are read one after another up to the brace. -/
theorem readMembers_membersText {level depth : Nat} {tail rest : List Char} (hstops : Stops tail)
    (hclosed : skipBlank tail = '\x7d' :: rest) (key : String) (j : Json)
    (ms : List (String × Json)) (hback : ∀ m ∈ (key, j) :: ms, ReadsBack m.2) (fuel : Nat) :
    readMembers (fuel + ms.length + 2) depth (membersText level key j ms ++ tail) =
      some ((key, j) :: ms, rest) := by
  have hfirst : ReadsBack j := hback (key, j) List.mem_cons_self
  induction ms generalizing key j with
  | nil =>
    rw [membersText, indentedMembers, String.append_empty]
    exact (readMembers_member hfirst key fuel depth level tail rest hstops).1 hclosed
  | cons m ms ih =>
    obtain ⟨key', j'⟩ := m
    have hrest :=
      ih key' j' (fun m hm => hback m (List.mem_cons_of_mem _ hm)) (hback (key', j') (by simp))
    have hcomma : Stops
        (',' :: ((lineStart level).toList ++ (membersText level key' j' ms ++ tail))) := by
      intro c hc
      exact .inl (Option.some.inj hc).symm
    have hmember := (readMembers_member hfirst key (fuel + ms.length + 1) depth level _ _ hcomma).2
      (skipBlank_of_head rfl _)
    rw [readMembers_lineStart, hrest] at hmember
    rw [membersText_cons, List.append_assoc, List.cons_append, List.append_assoc]
    exact hmember

theorem length_lt_membersText (level : Nat) (key : String) (j : Json) (ms : List (String × Json)) :
    ms.length < (membersText level key j ms).length := by
  induction ms generalizing key j with
  | nil => simp [membersText, quoted]
  | cons m ms ih =>
    have hlength := ih m.1 m.2
    rw [membersText_cons]
    simp only [List.length_append, List.length_cons]
    omega

/-- An object whose members are read back is read from its text with those members. -/
theorem readWhole_ofMembers {key : String} {j : Json} {ms : List (String × Json)}
    (hback : ∀ m ∈ (key, j) :: ms, ReadsBack m.2) :
    ∃ extent, readWhole ((ofMembers ((key, j) :: ms)).indented 0) =
      some (.object extent ((key, j) :: ms)) := by
  have htext : ((ofMembers ((key, j) :: ms)).indented 0).toList =
      '\x7b' :: ((lineStart 1).toList ++
        (membersText 1 key j ms ++ ((lineStart 0).toList ++ ['\x7d']))) := by
    simp [ofMembers, indented, membersText]
  obtain ⟨inner, hinner⟩ : ∃ inner,
    membersText 1 key j ms ++ ((lineStart 0).toList ++ ['\x7d']) = '"' :: inner := by
    simp [membersText, quoted]
  have hmembers : ∀ fuel depth, readMembers (fuel + ms.length + 2) depth ('"' :: inner) =
      some ((key, j) :: ms, []) := by
    intro fuel depth
    rw [← hinner]
    exact readMembers_membersText (by simp [Stops, lineStart, Text.spaces])
      ((skipBlank_lineStart 0 _).trans (skipBlank_of_head rfl _)) key j ms hback fuel
  obtain ⟨fuel, hfuel⟩ : ∃ fuel, 2 * ((ofMembers ((key, j) :: ms)).indented 0).toList.length + 2 =
      fuel + ms.length + 2 + 1 := by
    have hlength := length_lt_membersText 1 key j ms
    rw [htext]
    simp only [List.length_cons, List.length_append]
    exact ⟨2 * ((lineStart 1).toList.length + ((membersText 1 key j ms).length +
      ((lineStart 0).toList.length + 1))) + 1 - ms.length, by simp only [List.length_nil]; omega⟩
  obtain ⟨depth, hdepth⟩ : ∃ depth, maxNesting = depth + 1 := ⟨9999, rfl⟩
  have hbrace : skipBlank ((lineStart 1).toList ++ '"' :: inner) = '"' :: inner :=
    (skipBlank_lineStart 1 _).trans (skipBlank_of_head rfl _)
  have hfirst : readFirst ((ofMembers ((key, j) :: ms)).indented 0) =
      some (.object ⟨'\x7b' :: ((lineStart 1).toList ++ '"' :: inner), []⟩ ((key, j) :: ms),
        []) := by
    rw [readFirst, hfuel, hdepth, htext, hinner, readValue, skipBlank_of_head rfl]
    simp only [hbrace]
    split
    · rename_i h
      exact absurd (List.cons.inj h).1 (by decide)
    · rw [hmembers, Option.map_some]
  refine ⟨⟨'\x7b' :: ((lineStart 1).toList ++ '"' :: inner), []⟩, ?_⟩
  rw [readWhole, hfirst]
  rfl

end Members

end DartLowering.Json
