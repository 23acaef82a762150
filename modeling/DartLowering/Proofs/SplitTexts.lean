import DartLowering.Text.Lines
import Mathlib.Algebra.GroupWithZero.Nat
import Mathlib.Data.List.Basic

/-!
Texts that are cut at a separator. There is one piece more than separators, no piece holds one, and
joining the pieces gives the text back, so that a text is known by its pieces.
-/
namespace DartLowering.Text

section Pieces

variable {sep : Char} {cs : List Char}

theorem pieces_ne_nil (sep : Char) (cs : List Char) : pieces sep cs ≠ [] := by
  cases cs with
  | nil => exact List.cons_ne_nil _ _
  | cons c cs =>
    unfold pieces
    split
    · exact List.cons_ne_nil _ _
    · split <;> exact List.cons_ne_nil _ _

theorem pieces_cons_sep (sep : Char) (cs : List Char) :
    pieces sep (sep :: cs) = [] :: pieces sep cs := by
  rw [pieces, if_pos rfl]

/-- A character that separates nothing belongs to the first piece. -/
theorem pieces_cons {c : Char} (hc : c ≠ sep) (cs : List Char) :
    ∃ p ps, pieces sep cs = p :: ps ∧ pieces sep (c :: cs) = (c :: p) :: ps := by
  obtain ⟨p, ps, hpieces⟩ := List.exists_cons_of_ne_nil (pieces_ne_nil sep cs)
  refine ⟨p, ps, hpieces, ?_⟩
  rw [pieces, if_neg hc, hpieces]

theorem pieces_append (sep : Char) (cs rest : List Char) :
    pieces sep (cs ++ sep :: rest) = pieces sep cs ++ pieces sep rest := by
  induction cs with
  | nil => exact pieces_cons_sep sep rest
  | cons c cs ih =>
    by_cases hc : c = sep
    · rw [hc, List.cons_append, pieces_cons_sep, pieces_cons_sep, ih, List.cons_append]
    · obtain ⟨p, ps, hcs, hpieces⟩ := pieces_cons hc cs
      obtain ⟨q, qs, hall, hlonger⟩ := pieces_cons hc (cs ++ sep :: rest)
      rw [ih, hcs, List.cons_append] at hall
      obtain ⟨rfl, rfl⟩ := List.cons.inj hall
      rw [List.cons_append, hlonger, hpieces, List.cons_append]

theorem pieces_of_not_mem (h : sep ∉ cs) : pieces sep cs = [cs] := by
  induction cs with
  | nil => rfl
  | cons c cs ih =>
    rw [List.mem_cons, not_or] at h
    obtain ⟨p, ps, hpieces, hlonger⟩ := pieces_cons (Ne.symm h.1) cs
    rw [ih h.2] at hpieces
    obtain ⟨rfl, rfl⟩ := List.cons.inj hpieces
    exact hlonger

theorem not_mem_of_mem_pieces {p : List Char} (h : p ∈ pieces sep cs) : sep ∉ p := by
  induction cs generalizing p with
  | nil =>
    rw [List.mem_singleton.mp h]
    exact List.not_mem_nil
  | cons c cs ih =>
    by_cases hc : c = sep
    · rw [hc, pieces_cons_sep] at h
      rcases List.mem_cons.mp h with rfl | h
      · exact List.not_mem_nil
      · exact ih h
    · obtain ⟨q, qs, hcs, hpieces⟩ := pieces_cons hc cs
      rw [hpieces] at h
      rcases List.mem_cons.mp h with rfl | h
      · rw [List.mem_cons, not_or]
        exact ⟨Ne.symm hc, ih (hcs ▸ List.mem_cons_self)⟩
      · exact ih (hcs ▸ List.mem_cons_of_mem q h)

theorem mem_of_mem_pieces {p : List Char} {c : Char} (hp : p ∈ pieces sep cs) (hc : c ∈ p) :
    c ∈ cs := by
  induction cs generalizing p with
  | nil =>
    rw [List.mem_singleton.mp hp] at hc
    exact hc
  | cons d cs ih =>
    by_cases hd : d = sep
    · rw [hd, pieces_cons_sep] at hp
      rcases List.mem_cons.mp hp with rfl | hp
      · cases hc
      · exact List.mem_cons_of_mem d (ih hp hc)
    · obtain ⟨q, qs, hcs, hpieces⟩ := pieces_cons hd cs
      rw [hpieces] at hp
      rcases List.mem_cons.mp hp with rfl | hp
      · rcases List.mem_cons.mp hc with rfl | hc
        · exact List.mem_cons_self
        · exact List.mem_cons_of_mem d (ih (hcs ▸ List.mem_cons_self) hc)
      · exact List.mem_cons_of_mem d (ih (hcs ▸ List.mem_cons_of_mem q hp) hc)

theorem joined_cons (sep p : List Char) {ps : List (List Char)} (h : ps ≠ []) :
    joined sep (p :: ps) = p ++ sep ++ joined sep ps := by
  obtain ⟨q, qs, rfl⟩ := List.exists_cons_of_ne_nil h
  rfl

theorem joined_pieces (sep : Char) (cs : List Char) : joined [sep] (pieces sep cs) = cs := by
  induction cs with
  | nil => rfl
  | cons c cs ih =>
    by_cases hc : c = sep
    · rw [hc, pieces_cons_sep, joined_cons _ _ (pieces_ne_nil sep cs), ih]
      rfl
    · obtain ⟨p, ps, hcs, hpieces⟩ := pieces_cons hc cs
      rw [hpieces]
      rw [hcs] at ih
      cases ps with
      | nil | cons => exact congrArg (c :: ·) ih

end Pieces

section Split

variable {sep : Char} {s : String} {parts : List String}

theorem split_ne_nil (sep : Char) (s : String) : split sep s ≠ [] := by
  unfold split
  exact mt List.map_eq_nil_iff.mp (pieces_ne_nil sep _)

theorem split_append (sep : Char) (s t : String) :
    split sep (s ++ String.singleton sep ++ t) = split sep s ++ split sep t := by
  simp [split, pieces_append]

theorem split_of_not_mem (h : sep ∉ s.toList) : split sep s = [s] := by
  rw [split, pieces_of_not_mem h, List.map_singleton, String.ofList_toList]

theorem not_mem_of_mem_split {p : String} (h : p ∈ split sep s) : sep ∉ p.toList := by
  obtain ⟨cs, hcs, rfl⟩ := List.mem_map.mp h
  rw [String.toList_ofList]
  exact not_mem_of_mem_pieces hcs

theorem join_cons (sep p q : String) (ps : List String) :
    join sep (p :: q :: ps) = p ++ sep ++ join sep (q :: ps) := by
  simp [join, String.intercalate_cons_cons]

theorem join_concat (sep : String) (hparts : parts ≠ []) (last : String) :
    join sep (parts ++ [last]) = join sep parts ++ sep ++ last := by
  induction parts with
  | nil => exact absurd rfl hparts
  | cons p ps ih =>
    cases ps with
    | nil => simp [join]
    | cons q qs =>
      have hrest := ih (List.cons_ne_nil q qs)
      rw [List.cons_append] at hrest ⊢
      rw [List.cons_append, join_cons, hrest, join_cons]
      simp only [String.append_assoc]

theorem split_join (hparts : parts ≠ []) (h : ∀ p ∈ parts, sep ∉ p.toList) :
    split sep (join (String.singleton sep) parts) = parts := by
  induction parts with
  | nil => exact absurd rfl hparts
  | cons p ps ih =>
    obtain ⟨hp, hrest⟩ := List.forall_mem_cons.mp h
    cases ps with
    | nil => simpa [join] using split_of_not_mem hp
    | cons q qs =>
      rw [join_cons, split_append, split_of_not_mem hp, ih (List.cons_ne_nil q qs) hrest,
        List.singleton_append]

theorem mem_of_mem_split {p : String} {c : Char} (hp : p ∈ split sep s) (hc : c ∈ p.toList) :
    c ∈ s.toList := by
  obtain ⟨cs, hcs, rfl⟩ := List.mem_map.mp hp
  rw [String.toList_ofList] at hc
  exact mem_of_mem_pieces hcs hc

theorem mem_join {c : Char} (hc : c ∈ (join (String.singleton sep) parts).toList) :
    c = sep ∨ ∃ p ∈ parts, c ∈ p.toList := by
  induction parts with
  | nil => cases hc
  | cons p ps ih =>
    cases ps with
    | nil => exact .inr ⟨p, List.mem_cons_self, by simpa [join] using hc⟩
    | cons q qs =>
      rw [join_cons, String.toList_append, String.toList_append, List.append_assoc,
        List.mem_append, List.mem_append] at hc
      rcases hc with hc | hc | hc
      · exact .inr ⟨p, List.mem_cons_self, hc⟩
      · exact .inl (by simpa using hc)
      · rcases ih hc with hsep | ⟨r, hr, hc⟩
        · exact .inl hsep
        · exact .inr ⟨r, List.mem_cons_of_mem p hr, hc⟩

/-- The bytes of names with one more for each. -/
def weight (names : List String) : Nat := (names.map fun n => n.utf8ByteSize + 1).sum

theorem weight_cons (name : String) (names : List String) :
    weight (name :: names) = name.utf8ByteSize + 1 + weight names := rfl

theorem weight_append (names more : List String) :
    weight (names ++ more) = weight names + weight more := by
  simp [weight]

theorem weight_reverse (names : List String) : weight names.reverse = weight names := by
  simp [weight, List.sum_reverse]

theorem utf8ByteSize_ofList_cons (c : Char) (cs : List Char) :
    (String.ofList (c :: cs)).utf8ByteSize = c.utf8Size + (String.ofList cs).utf8ByteSize := by
  have hcons : String.ofList (c :: cs) = String.singleton c ++ String.ofList cs := by
    rw [← String.toList_inj]
    simp
  rw [hcons, String.utf8ByteSize_append, String.utf8ByteSize_singleton]

theorem weight_split (hsep : sep.utf8Size = 1) (s : String) :
    weight (split sep s) = s.utf8ByteSize + 1 := by
  have hpieces : ∀ cs : List Char, weight ((pieces sep cs).map String.ofList) =
      (String.ofList cs).utf8ByteSize + 1 := by
    intro cs
    induction cs with
    | nil => rfl
    | cons c cs ih =>
      by_cases hc : c = sep
      · rw [hc, pieces_cons_sep, List.map_cons, weight_cons, ih, utf8ByteSize_ofList_cons, hsep]
        have hempty : (String.ofList []).utf8ByteSize = 0 := rfl
        omega
      · obtain ⟨p, ps, hcs, hpieces⟩ := pieces_cons hc cs
        rw [hcs, List.map_cons, weight_cons] at ih
        rw [hpieces, List.map_cons, weight_cons, utf8ByteSize_ofList_cons, utf8ByteSize_ofList_cons]
        omega
  rw [split, hpieces, String.ofList_toList]

theorem weight_join (hsep : sep.utf8Size = 1) (hparts : parts ≠ []) :
    (join (String.singleton sep) parts).utf8ByteSize + 1 = weight parts := by
  induction parts with
  | nil => exact absurd rfl hparts
  | cons p ps ih =>
    cases ps with
    | nil => simp [join, weight]
    | cons q qs =>
      have hrest := ih (List.cons_ne_nil q qs)
      rw [join_cons, String.utf8ByteSize_append, String.utf8ByteSize_append,
        String.utf8ByteSize_singleton, hsep, weight_cons]
      omega

end Split

end DartLowering.Text
