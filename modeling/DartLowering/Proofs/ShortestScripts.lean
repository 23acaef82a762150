import DartLowering.Diff.Unified
import DartLowering.Proofs.Hunks
import Mathlib.Data.List.Infix
import Mathlib.Order.Bounds.Defs

/-!
Edit scripts are shortest. `commonLength` is the length of a longest common subsequence by its
recursion on both heads, and the table that a script is read off holds it for every two suffixes
(`lengths_eq`). The walk from the front then keeps as many items as the table says, and no script
keeps more, since what a script keeps is a common subsequence.
-/
namespace DartLowering.Diff

variable {α : Type} {same : α → α → Bool} {old new : List α} {es : List (Edit α)}

/-- Steps that use up both lists, each item once and in order, and keep only items that are the
same. -/
structure IsScript (same : α → α → Bool) (old new : List α) (es : List (Edit α)) : Prop where
  old_eq : es.filterMap Edit.old? = old
  new_eq : es.filterMap Edit.new? = new
  kept_same : ∀ x y, .keep x y ∈ es → same x y = true

def changeCount (es : List (Edit α)) : Nat := es.countP Edit.isAdd + es.countP Edit.isRemove

/-- Items in the order of the old list that are the same as items in the order of the new one. -/
def Common (same : α → α → Bool) (old new us vs : List α) : Prop :=
  us.Sublist old ∧ vs.Sublist new ∧ List.Forall₂ (fun x y => same x y = true) us vs

section Table

/-- The length of a longest common subsequence. -/
def commonLength (same : α → α → Bool) : List α → List α → Nat
  | [], _ => 0
  | _ :: _, [] => 0
  | x :: xs, y :: ys =>
      if same x y then commonLength same xs ys + 1
      else max (commonLength same xs (y :: ys)) (commonLength same (x :: xs) ys)
termination_by old new => old.length + new.length

@[simp] theorem commonLength_nil (xs : List α) : commonLength same xs [] = 0 := by
  cases xs <;> rw [commonLength]

theorem headD_map_tails (f : List α → Nat) (ys : List α) : (ys.tails.map f).headD 0 = f ys := by
  cases ys <;> rfl

/-- A row of the table is computed from the row below it. -/
theorem rowAbove_eq (x : α) (xs ys : List α) :
    rowAbove same x ys (ys.tails.map (commonLength same xs)) =
      ys.tails.map (commonLength same (x :: xs)) := by
  induction ys with
  | nil => simp [rowAbove]
  | cons y ys ih =>
    simp only [rowAbove, List.tails_cons, List.map_cons, List.tail_cons, List.headD_cons, ih,
      headD_map_tails]
    rw [commonLength]

/-- The table holds the lengths for every suffix of the old list against every suffix of the new. -/
theorem lengths_eq (old new : List α) :
    lengths same new old = old.tails.map fun xs => new.tails.map (commonLength same xs) := by
  induction old with
  | nil =>
    have hzero : commonLength same ([] : List α) = fun _ => 0 := by
      funext ys
      rw [commonLength]
    simp [lengths, hzero, List.map_const']
  | cons x xs ih =>
    have hbelow : (xs.tails.map fun xs => new.tails.map (commonLength same xs)).headD [] =
        new.tails.map (commonLength same xs) := by cases xs <;> rfl
    rw [lengths, ih, hbelow, rowAbove_eq, List.tails_cons, List.map_cons]

end Table

section Walk

variable {rows : List (List Nat)} {column : Nat} {whole : List α}

/-- Using up one more item of the new list. -/
theorem drop_of_cons {y : α} {ys : List α} (h : whole.drop column = y :: ys) :
    whole.drop (column + 1) = ys ∧ column < whole.length := by
  constructor
  · rw [← List.tail_drop, h, List.tail_cons]
  · exact List.length_lt_of_drop_ne_nil (h ▸ List.cons_ne_nil y ys)

/-- The entry of a row at a column is about what the column leaves of the list. -/
theorem getD_row (f : List α → Nat) (h : column ≤ whole.length) :
    (whole.tails.map f).getD column 0 = f (whole.drop column) := by
  have hcolumn : column < whole.tails.length := by
    rw [List.length_tails]
    omega
  rw [List.getD_eq_getElem?_getD, List.getElem?_map, List.getElem?_eq_getElem hcolumn,
    List.getElem_tails]
  rfl

/-- The walk compares the entry below with the entry to the right. -/
theorem compared_entries {x y : α} {xs ys : List α}
    (hrows : rows = (x :: xs).tails.map fun xs => whole.tails.map (commonLength same xs))
    (hwhole : whole.drop column = y :: ys) :
    (rows.tail.headD []).getD column 0 = commonLength same xs (y :: ys) ∧
      (rows.headD []).getD (column + 1) 0 = commonLength same (x :: xs) ys := by
  obtain ⟨hdrop, hlt⟩ := drop_of_cons hwhole
  have hbelow : rows.tail.headD [] = whole.tails.map (commonLength same xs) := by
    rw [hrows]
    cases xs <;> rfl
  have hhere : rows.headD [] = whole.tails.map (commonLength same (x :: xs)) := by rw [hrows]; rfl
  constructor
  · rw [hbelow, getD_row _ (by omega), hwhole]
  · rw [hhere, getD_row _ hlt, hdrop]

/-- The walk keeps as many items as the table promises. Where the heads differ, it goes to the
neighbour that promises more, and removes where both promise the same. -/
theorem countP_scriptFrom
    (hrows : rows = old.tails.map fun xs => whole.tails.map (commonLength same xs))
    (hwhole : whole.drop column = new) :
    (scriptFrom same rows column old new).countP Edit.isKeep = commonLength same old new := by
  fun_induction scriptFrom same rows column old new with
  | case1 => simp
  | case2 rows column y ys ih =>
    rw [List.countP_cons_of_neg (by simp [Edit.isKeep]), ih hrows (drop_of_cons hwhole).1,
      commonLength, commonLength]
  | case3 rows column x xs ih =>
    rw [List.countP_cons_of_neg (by simp [Edit.isKeep]), ih (by rw [hrows]; rfl) hwhole]
    simp
  | case4 rows column x xs y ys hsame ih =>
    rw [List.countP_cons_of_pos rfl, ih (by rw [hrows]; rfl) (drop_of_cons hwhole).1, commonLength,
      if_pos hsame]
  | case5 rows column x xs y ys hdiffer hadd ih =>
    obtain ⟨hbelow, hright⟩ := compared_entries hrows hwhole
    rw [hbelow, hright] at hadd
    rw [List.countP_cons_of_neg (by simp [Edit.isKeep]), ih hrows (drop_of_cons hwhole).1,
      commonLength, if_neg hdiffer, max_eq_right hadd.le]
  | case6 rows column x xs y ys hdiffer hadd ih =>
    obtain ⟨hbelow, hright⟩ := compared_entries hrows hwhole
    rw [hbelow, hright, not_lt] at hadd
    rw [List.countP_cons_of_neg (by simp [Edit.isKeep]), ih (by rw [hrows]; rfl) hwhole,
      commonLength, if_neg hdiffer, max_eq_left hadd]

theorem countP_script (old new : List α) :
    (script same old new).countP Edit.isKeep = commonLength same old new :=
  countP_scriptFrom (lengths_eq old new) rfl

end Walk

section Bounds

/-- No common subsequence is longer. The heads can be given up together where they are the same, and
one of them is given up where they differ. -/
theorem Common.length_le {us vs : List α} (h : Common same old new us vs) :
    us.length ≤ commonLength same old new := by
  obtain ⟨hus, hvs, hsame⟩ := h
  fun_induction commonLength same old new generalizing us vs with
  | case1 ys =>
    rw [List.sublist_nil.mp hus]
    exact Nat.le_refl 0
  | case2 x xs =>
    rw [List.sublist_nil.mp hvs] at hsame
    cases hsame
    exact Nat.le_refl 0
  | case3 x xs y ys hxy ih =>
    cases hsame with
    | nil => exact Nat.zero_le _
    | cons _ hrest => exact Nat.succ_le_succ (ih hus.tail hvs.tail hrest)
  | case4 x xs y ys hxy ihbelow ihright =>
    rcases List.sublist_cons_iff.mp hus with hus' | ⟨us', rfl, hus'⟩
    · exact (ihbelow hus' hvs hsame).trans (le_max_left _ _)
    · rcases List.sublist_cons_iff.mp hvs with hvs' | ⟨vs', rfl, hvs'⟩
      · exact (ihright hus hvs' hsame).trans (le_max_right _ _)
      · cases hsame with
        | cons hhead _ => exact absurd hhead hxy

/-- What steps keep is a common subsequence of what they use up. -/
theorem exists_common (hsame : ∀ x y, .keep x y ∈ es → same x y = true) :
    ∃ us vs, Common same (es.filterMap Edit.old?) (es.filterMap Edit.new?) us vs ∧
      us.length = es.countP Edit.isKeep := by
  induction es with
  | nil => exact ⟨[], [], ⟨.slnil, .slnil, .nil⟩, rfl⟩
  | cons e es ih =>
    obtain ⟨us, vs, ⟨hus, hvs, hpairs⟩, hlength⟩ := ih fun x y h => hsame x y (.tail e h)
    cases e with
    | keep x y =>
      have hpair := hsame x y (.head es)
      refine ⟨x :: us, y :: vs, ⟨hus.cons_cons x, hvs.cons_cons y, .cons hpair hpairs⟩, ?_⟩
      rw [List.length_cons, hlength, List.countP_cons_of_pos rfl]
    | add y =>
      refine ⟨us, vs, ⟨hus, hvs.cons y, hpairs⟩, ?_⟩
      rw [hlength, List.countP_cons_of_neg (by simp [Edit.isKeep])]
    | remove x =>
      refine ⟨us, vs, ⟨hus.cons x, hvs, hpairs⟩, ?_⟩
      rw [hlength, List.countP_cons_of_neg (by simp [Edit.isKeep])]

/-- What a script does not keep it adds or removes. -/
theorem lengths_add (es : List (Edit α)) :
    (es.filterMap Edit.old?).length + (es.filterMap Edit.new?).length =
      2 * es.countP Edit.isKeep + changeCount es := by
  unfold changeCount
  induction es with
  | nil => rfl
  | cons e es ih =>
    cases e <;>
      simp only [Edit.old?, Edit.new?, Edit.isKeep, Edit.isAdd, Edit.isRemove, List.filterMap_cons,
        List.length_cons, List.countP_cons, Bool.false_eq_true, if_true, if_false] <;>
      omega

variable (h : IsScript same old new es)

include h

theorem IsScript.exists_common :
    ∃ us vs, Common same old new us vs ∧ us.length = es.countP Edit.isKeep := by
  obtain ⟨rfl, rfl, hsame⟩ := h
  exact Diff.exists_common hsame

theorem IsScript.countP_le : es.countP Edit.isKeep ≤ commonLength same old new := by
  obtain ⟨us, vs, hcommon, hlength⟩ := h.exists_common
  exact hlength ▸ hcommon.length_le

theorem IsScript.length_add :
    old.length + new.length = 2 * es.countP Edit.isKeep + changeCount es := by
  obtain ⟨rfl, rfl, -⟩ := h
  exact lengths_add es

end Bounds

theorem script_isScript (old new : List α) : IsScript same old new (script same old new) where
  old_eq := (scriptFrom_sides _ _ old new).1
  new_eq := (scriptFrom_sides _ _ old new).2
  kept_same _ _ h := scriptFrom_keep h

/-- No script changes less: what is changed is what is not kept. -/
theorem changeCount_script_le (h : IsScript same old new es) :
    changeCount (script same old new) ≤ changeCount es := by
  have hshortest : IsScript same old new (script same old new) := script_isScript old new
  have hscript := hshortest.length_add
  have hkept := h.countP_le
  have hother := h.length_add
  rw [countP_script] at hscript
  omega

theorem forall₂_same_iff {us vs : List Line} :
    List.Forall₂ (fun x y => Line.same x y = true) us vs ↔ us.map Line.key = vs.map Line.key := by
  rw [← List.forall₂_eq_eq_eq, List.forall₂_map_left_iff, List.forall₂_map_right_iff]
  simp only [Line.same, decide_eq_true_eq]

/-- Lines have a common subsequence where the texts that are compared have one. -/
theorem common_keys_iff {old new : List Line} {n : Nat} :
    (∃ common : List String, common.Sublist (old.map Line.key) ∧ common.Sublist (new.map Line.key) ∧
      common.length = n) ↔ ∃ us vs, Common Line.same old new us vs ∧ us.length = n := by
  constructor
  · rintro ⟨common, hold, hnew, rfl⟩
    obtain ⟨us, hus, rfl⟩ := List.sublist_map_iff.mp hold
    obtain ⟨vs, hvs, hkeys⟩ := List.sublist_map_iff.mp hnew
    exact ⟨us, vs, ⟨hus, hvs, forall₂_same_iff.mpr hkeys⟩, (List.length_map _).symm⟩
  · rintro ⟨us, vs, ⟨hus, hvs, hsame⟩, rfl⟩
    refine ⟨us.map Line.key, hus.map Line.key, ?_, List.length_map _⟩
    exact forall₂_same_iff.mp hsame ▸ hvs.map Line.key

/-- The script between two lists of lines uses up every line of both once and in order, keeps only
lines that are the same, and keeps as many as their longest common subsequence has, so that no other
script adds and removes fewer. -/
theorem scripts_are_shortest (old new : List Line) :
    let es := script Line.same old new
    IsScript Line.same old new es ∧
      IsGreatest {n | ∃ common : List String, common.Sublist (old.map Line.key) ∧
        common.Sublist (new.map Line.key) ∧ common.length = n} (es.countP Edit.isKeep) ∧
      ∀ es', IsScript Line.same old new es' → changeCount es ≤ changeCount es' := by
  intro es
  have hscript : IsScript Line.same old new es := script_isScript old new
  refine ⟨hscript, ⟨?_, ?_⟩, fun es' hes' => changeCount_script_le hes'⟩
  · exact common_keys_iff.mpr hscript.exists_common
  · intro n hn
    obtain ⟨us, vs, hcommon, rfl⟩ := common_keys_iff.mp hn
    rw [countP_script]
    exact hcommon.length_le

end DartLowering.Diff
