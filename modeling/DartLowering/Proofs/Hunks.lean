import DartLowering.Diff.Hunk
import Mathlib.Data.List.Basic
import Mathlib.Data.List.Forall2

/-!
Edit scripts and how they are cut into hunks. A script uses up every item of both lists, in order,
and keeps only items that are the same. Cutting it loses nothing: the script is the hunks with runs
of kept steps before, between and after them, each hunk knows how many items come before it, and at
least one item lies between two neighbours.
-/
namespace DartLowering.Diff

variable {α : Type}

section Scripts

variable {same : α → α → Bool}

/-- A script goes through both lists. -/
theorem scriptFrom_sides (rows : List (List Nat)) (column : Nat) (old new : List α) :
    (scriptFrom same rows column old new).filterMap Edit.old? = old ∧
      (scriptFrom same rows column old new).filterMap Edit.new? = new := by
  fun_induction scriptFrom same rows column old new with
  | case1 => exact ⟨rfl, rfl⟩
  | case2 _ _ _ _ ih | case3 _ _ _ _ ih | case4 _ _ _ _ _ _ _ ih | case5 _ _ _ _ _ _ _ _ ih
  | case6 _ _ _ _ _ _ _ _ ih => simp only [List.filterMap_cons, Edit.old?, Edit.new?, ih, and_self]

theorem scriptFrom_keep {rows : List (List Nat)} {column : Nat} {old new : List α} {x y : α}
    (h : .keep x y ∈ scriptFrom same rows column old new) : same x y = true := by
  fun_induction scriptFrom same rows column old new with
  | case1 => cases h
  | case2 rows column y ys ih => exact ih (by simpa using h)
  | case3 rows column x xs ih => exact ih (by simpa using h)
  | case4 rows column x' xs y' ys hsame ih =>
    rcases List.mem_cons.mp h with heq | h
    · cases heq
      exact hsame
    · exact ih h
  | case5 rows column x xs y ys hsame hadd ih => exact ih (by simpa using h)
  | case6 rows column x xs y ys hsame hadd ih => exact ih (by simpa using h)

/-- Lists whose items are the same one by one need no change. -/
theorem scriptFrom_same {rows : List (List Nat)} {column : Nat} {old new : List α}
    (h : List.Forall₂ (fun x y => same x y = true) old new) :
    ∀ e ∈ scriptFrom same rows column old new, e.isKeep = true := by
  induction h generalizing rows column with
  | nil => simp [scriptFrom]
  | cons hsame _ ih =>
    rw [scriptFrom, if_pos hsame]
    exact List.forall_mem_cons.mpr ⟨rfl, ih⟩

end Scripts

section Counting

/-- Kept steps use up as many items of either list as there are. -/
theorem length_old_of_kept {kept : List (Edit α)} (h : ∀ e ∈ kept, e.isKeep = true) :
    (kept.filterMap Edit.old?).length = kept.length := by
  apply List.filterMap_length_eq_length.mpr
  intro e he
  have hkeep := h e he
  cases e with
  | keep => rfl
  | add | remove => cases hkeep

theorem length_new_of_kept {kept : List (Edit α)} (h : ∀ e ∈ kept, e.isKeep = true) :
    (kept.filterMap Edit.new?).length = kept.length := by
  apply List.filterMap_length_eq_length.mpr
  intro e he
  have hkeep := h e he
  cases e with
  | keep => rfl
  | add | remove => cases hkeep

/-- What a script adds less what it removes is the difference of the lengths. -/
theorem length_add_removed (es : List (Edit α)) :
    (es.filterMap Edit.old?).length + es.countP Edit.isAdd =
      (es.filterMap Edit.new?).length + es.countP Edit.isRemove := by
  induction es with
  | nil => rfl
  | cons e es ih =>
    cases e with
    | keep x y =>
      simp only [Edit.old?, Edit.new?, Edit.isAdd, Edit.isRemove, List.filterMap_cons,
        List.length_cons, List.countP_cons, Bool.false_eq_true, if_false]
      omega
    | add | remove =>
      simp only [Edit.old?, Edit.new?, Edit.isAdd, Edit.isRemove, List.filterMap_cons,
        List.length_cons, List.countP_cons, Bool.false_eq_true, if_true, if_false]
      omega

end Counting

section Cutting

/-- Steps that start after `old` and `new` items are the given hunks with kept steps around them. -/
inductive Cut : Nat → Nat → List (Edit α) → List (Hunk α) → Prop
  | rest {old new : Nat} {kept : List (Edit α)} (hkept : ∀ e ∈ kept, e.isKeep = true) :
      Cut old new kept []
  | hunk {old new : Nat} {kept rest : List (Edit α)} {h : Hunk α} {hs : List (Hunk α)}
      (hkept : ∀ e ∈ kept, e.isKeep = true) (hold : h.oldBefore = old + kept.length)
      (hnew : h.newBefore = new + kept.length)
      (hrest : Cut (h.oldBefore + h.oldCount) (h.newBefore + h.newCount) rest hs)
      (hapart : ∀ g ∈ hs.head?, h.oldBefore + h.oldCount < g.oldBefore) :
      Cut old new (kept ++ (h.edits ++ rest)) (h :: hs)

/-- What follows a group is kept to the end, or more is kept than the group would reach over. -/
theorem reach_rest (limit gap : Nat) (es : List (Edit α)) :
    (∀ e ∈ es.drop (reach limit gap es), e.isKeep = true) ∨
      limit < ((es.drop (reach limit gap es)).takeWhile Edit.isKeep).length +
        if reach limit gap es = 0 then gap else 0 := by
  fun_induction reach limit gap es with
  | case1 => simp
  | case2 gap e es hkeep hzero ih =>
    simp only [hzero, List.drop_zero, if_true] at ih ⊢
    rcases ih with hall | hlong
    · exact .inl (List.forall_mem_cons.mpr ⟨hkeep, hall⟩)
    · right
      simp only [List.takeWhile_cons, hkeep, if_true, List.length_cons]
      omega
  | case3 gap e es hkeep n hn ih =>
    simpa only [hn, List.drop_succ_cons, Nat.add_eq_zero_iff, Nat.succ_ne_zero, and_false,
      if_false] using ih
  | case4 gap e es hchange hfar =>
    right
    simp only [List.drop_zero, if_true]
    omega
  | case5 gap e es hchange hnear ih =>
    simpa only [List.drop_succ_cons, Nat.succ_ne_zero, if_false, ite_self] using ih

/-- The first hunk takes as much context as there is before the first change. -/
theorem head_hunksFrom {context old new : Nat} {skipped es : List (Edit α)} {g : Hunk α}
    (hskipped : skipped.length ≤ old) (hg : g ∈ (hunksFrom context old new skipped es).head?) :
    g.oldBefore + min context (skipped.length + (es.takeWhile Edit.isKeep).length) =
      old + (es.takeWhile Edit.isKeep).length := by
  induction es generalizing old new skipped with
  | nil => simp [hunksFrom] at hg
  | cons e es ih =>
    rw [hunksFrom] at hg
    by_cases hkeep : e.isKeep = true
    · rw [if_pos hkeep] at hg
      have hrest := ih (by simpa using hskipped) hg
      simp only [List.takeWhile_cons, hkeep, if_true, List.length_cons] at hrest ⊢
      rw [show skipped.length + ((es.takeWhile Edit.isKeep).length + 1) =
        skipped.length + 1 + (es.takeWhile Edit.isKeep).length by omega]
      omega
    · rw [if_neg hkeep] at hg
      simp only [List.head?_cons, Option.mem_some_iff] at hg
      subst hg
      simp only [List.takeWhile_cons, hkeep, Bool.false_eq_true, if_false, List.length_nil,
        List.length_reverse, List.length_take]
      omega

theorem hunksFrom_kept {context old new : Nat} {skipped es : List (Edit α)}
    (h : ∀ e ∈ es, e.isKeep = true) : hunksFrom context old new skipped es = [] := by
  induction es generalizing old new skipped with
  | nil => rw [hunksFrom]
  | cons e es ih =>
    obtain ⟨he, hes⟩ := List.forall_mem_cons.mp h
    rw [hunksFrom, if_pos he]
    exact ih hes

/-- The next hunk does not touch the group that was cut off, context included. -/
theorem apart_of_reach {context old new : Nat} {es : List (Edit α)} {g : Hunk α}
    (hg : g ∈ (hunksFrom context old new [] (es.drop (reach (2 * context) 0 es + context))).head?) :
    old < g.oldBefore := by
  have hhead := head_hunksFrom (Nat.zero_le old) hg
  rw [List.length_nil, Nat.zero_add] at hhead
  rw [← List.drop_drop] at hg hhead
  rcases reach_rest (2 * context) 0 es with hall | hlong
  · have hkept : ∀ e ∈ (es.drop (reach (2 * context) 0 es)).drop context, e.isKeep = true :=
      fun e he => hall e (List.mem_of_mem_drop he)
    rw [hunksFrom_kept hkept] at hg
    cases hg
  · -- dropping the context leaves more than the context of the next hunk
    have hdrop : ∀ (n : Nat) (l : List (Edit α)), (l.takeWhile Edit.isKeep).length ≤
        n + ((l.drop n).takeWhile Edit.isKeep).length := by
      intro n l
      induction n generalizing l with
      | zero => simp
      | succ n ih =>
        cases l with
        | nil => simp
        | cons e l =>
          rw [List.drop_succ_cons, List.takeWhile_cons]
          have hl := ih l
          split
          · rw [List.length_cons]
            omega
          · exact Nat.zero_le _
    have hleft := hdrop context (es.drop (reach (2 * context) 0 es))
    rw [ite_self, Nat.add_zero] at hlong
    omega

theorem hunksFrom_cut (context old new : Nat) (skipped es : List (Edit α))
    (hskipped : ∀ e ∈ skipped, e.isKeep = true) (hold : skipped.length ≤ old)
    (hnew : skipped.length ≤ new) :
    Cut (old - skipped.length) (new - skipped.length) (skipped.reverse ++ es)
      (hunksFrom context old new skipped es) := by
  fun_induction hunksFrom context old new skipped es with
  | case1 old new skipped => exact .rest (by simpa using hskipped)
  | case2 old new skipped e es hkeep ih =>
    have hcut := ih (List.forall_mem_cons.mpr ⟨hkeep, hskipped⟩) (by simpa using hold)
      (by simpa using hnew)
    simpa using hcut
  | case3 old new skipped e es hchange lead rest hunk ih =>
    have hlead : lead.length ≤ skipped.length := by
      simp only [lead, List.length_reverse, List.length_take]
      omega
    have hkept : ((skipped.drop context).reverse).length = skipped.length - lead.length := by
      simp only [lead, List.length_reverse, List.length_take, List.length_drop]
      omega
    have hsteps : skipped.reverse ++ e :: es =
        (skipped.drop context).reverse ++ (hunk.edits ++ es.drop rest) := by
      simp only [hunk, lead, List.append_assoc, List.cons_append, List.take_append_drop]
      rw [← List.append_assoc, ← List.reverse_append, List.take_append_drop]
    rw [hsteps]
    refine .hunk ?_ ?_ ?_ ?_ fun g hg => apart_of_reach hg
    · intro x hx
      exact hskipped x (List.mem_of_mem_drop (List.mem_reverse.mp hx))
    · rw [hkept]
      change old - lead.length = _
      omega
    · rw [hkept]
      change new - lead.length = _
      omega
    · simpa using ih (List.forall_mem_nil _) (Nat.zero_le _) (Nat.zero_le _)

theorem hunks_cut (context : Nat) (es : List (Edit α)) : Cut 0 0 es (hunks context es) := by
  simpa [hunks] using hunksFrom_cut context 0 0 [] es (List.forall_mem_nil _) (Nat.le_refl 0)
    (Nat.le_refl 0)

variable {old new : Nat} {es : List (Edit α)} {hs : List (Hunk α)}

theorem Cut.le_oldBefore (h : Cut old new es hs) : ∀ g ∈ hs, old ≤ g.oldBefore := by
  induction h with
  | rest => simp
  | hunk hkept hold hnew hrest hapart ih =>
    refine List.forall_mem_cons.mpr ⟨by omega, fun g hg => ?_⟩
    have hle := ih g hg
    omega

theorem Cut.le_newBefore (h : Cut old new es hs) : ∀ g ∈ hs, new ≤ g.newBefore := by
  induction h with
  | rest => simp
  | hunk hkept hold hnew hrest hapart ih =>
    refine List.forall_mem_cons.mpr ⟨by omega, fun g hg => ?_⟩
    have hle := ih g hg
    omega

/-- Hunks come in order, with items between them. -/
theorem Cut.pairwise (h : Cut old new es hs) :
    hs.Pairwise fun g h => g.oldBefore + g.oldCount < h.oldBefore := by
  induction h with
  | rest => exact .nil
  | @hunk old new kept rest h hs hkept hold hnew hrest hapart ih =>
    refine List.pairwise_cons.mpr ⟨fun g hg => ?_, ih⟩
    cases hs with
    | nil => cases hg
    | cons first others =>
      have hfirst := hapart first rfl
      rcases List.mem_cons.mp hg with rfl | hg
      · exact hfirst
      · have hlater := (List.pairwise_cons.mp ih).1 g hg
        omega

theorem Cut.kept (h : Cut old new es []) : ∀ e ∈ es, e.isKeep = true := by
  cases h with
  | rest hkept => exact hkept

/-- Every change lies in a hunk. -/
theorem Cut.changes (h : Cut old new es hs) (p : Edit α → Bool)
    (hp : ∀ e, e.isKeep = true → p e = false) :
    (hs.flatMap Hunk.edits).countP p = es.countP p := by
  have hnone : ∀ kept : List (Edit α), (∀ e ∈ kept, e.isKeep = true) → kept.countP p = 0 := by
    intro kept hkept
    rw [List.countP_eq_zero]
    intro e he
    simp [hp e (hkept e he)]
  induction h with
  | rest hkept => simp [hnone _ hkept]
  | hunk hkept hold hnew hrest hapart ih =>
    simp only [List.flatMap_cons, List.countP_append, ih, hnone _ hkept, Nat.zero_add]

end Cutting

end DartLowering.Diff
