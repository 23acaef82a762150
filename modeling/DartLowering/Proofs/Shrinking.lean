import DartLowering.Check.Shrink
import Mathlib.Order.WellFounded

/-!
Making a failing input smaller, round by round. `next?` is one round, `Reaches` a run of rounds, and
a run `StopsAt` a value when no limit that is large enough is noticed. A candidate of a word lies
nearer to zero, so a run over words ends where no candidate fails. A candidate of a list is shorter
or has a smaller head, with one exception: the second half of a list of one element is that list. A
run over lists therefore ends unless it comes to such a list while the empty list does not fail, and
then it stays there.
-/
namespace DartLowering.Check

open Relation

section Rounds

variable {α : Type} (shrink : α → List α) (holds : α → Bool)

/-- One round: the first candidate that fails. -/
def next? (v : α) : Option α := (shrink v).find? fun c => !holds c

/-- Rounds lead from one value to the other. -/
abbrev Reaches : α → α → Prop := ReflTransGen fun v c => next? shrink holds v = some c

/-- Without a limit the rounds would end with `w`. -/
def StopsAt (v w : α) : Prop :=
  ∃ used, ∀ rounds, used ≤ rounds → minimise shrink holds rounds v = (w, used)

variable {shrink holds} {v w c : α}

theorem next?_eq_none : next? shrink holds v = none ↔ ∀ c ∈ shrink v, holds c = true := by
  simp [next?]

theorem mem_of_next? (h : next? shrink holds v = some c) : c ∈ shrink v :=
  List.mem_of_find?_eq_some h

theorem fails_of_next? (h : next? shrink holds v = some c) : holds c = false := by
  simpa using List.find?_some h

theorem minimise_of_none (h : next? shrink holds v = none) (rounds : Nat) :
    minimise shrink holds (rounds + 1) v = (v, 1) := by
  rw [next?] at h
  rw [minimise, h]

theorem minimise_of_some (h : next? shrink holds v = some c) (rounds : Nat) :
    minimise shrink holds (rounds + 1) v =
      ((minimise shrink holds rounds c).1, (minimise shrink holds rounds c).2 + 1) := by
  rw [next?] at h
  rw [minimise, h]

theorem minimise_used_le (rounds : Nat) (v : α) : (minimise shrink holds rounds v).2 ≤ rounds := by
  induction rounds generalizing v with
  | zero => exact Nat.le_refl 0
  | succ rounds ih =>
    cases h : next? shrink holds v with
    | none =>
      rw [minimise_of_none h]
      exact Nat.succ_le_succ (Nat.zero_le rounds)
    | some c =>
      rw [minimise_of_some h]
      exact Nat.succ_le_succ (ih c)

theorem minimise_reaches (rounds : Nat) (v : α) :
    Reaches shrink holds v (minimise shrink holds rounds v).1 := by
  induction rounds generalizing v with
  | zero => exact .refl
  | succ rounds ih =>
    cases h : next? shrink holds v with
    | none => exact minimise_of_none h rounds ▸ .refl
    | some c =>
      rw [minimise_of_some h]
      exact .head h (ih c)

/-- Rounds that were left over would have found nothing. -/
theorem next?_minimise {rounds : Nat} (h : (minimise shrink holds rounds v).2 < rounds) :
    next? shrink holds (minimise shrink holds rounds v).1 = none := by
  induction rounds generalizing v with
  | zero => exact absurd h (Nat.not_lt_zero _)
  | succ rounds ih =>
    cases hnext : next? shrink holds v with
    | none =>
      rw [minimise_of_none hnext]
      exact hnext
    | some c =>
      rw [minimise_of_some hnext] at h ⊢
      exact ih (Nat.lt_of_succ_lt_succ h)

theorem Reaches.fails (h : Reaches shrink holds v w) (hv : holds v = false) : holds w = false := by
  cases h with
  | refl => exact hv
  | tail _ hlast => exact fails_of_next? hlast

theorem stopsAt_iff :
    StopsAt shrink holds v w ↔ Reaches shrink holds v w ∧ next? shrink holds w = none := by
  constructor
  · rintro ⟨used, hused⟩
    have hrun := hused (used + 1) (Nat.le_succ used)
    have hreaches : Reaches shrink holds v (minimise shrink holds (used + 1) v).1 :=
      minimise_reaches (used + 1) v
    have hnext : next? shrink holds (minimise shrink holds (used + 1) v).1 = none :=
      next?_minimise (by rw [hrun]; exact Nat.lt_succ_self used)
    rw [hrun] at hreaches hnext
    exact ⟨hreaches, hnext⟩
  · rintro ⟨hreaches, hnone⟩
    induction hreaches using ReflTransGen.head_induction_on with
    | refl =>
      refine ⟨1, fun rounds hrounds => ?_⟩
      obtain ⟨rounds, rfl⟩ := Nat.exists_eq_add_of_le' hrounds
      exact minimise_of_none hnone rounds
    | head hnext _ ih =>
      obtain ⟨used, hused⟩ := ih
      refine ⟨used + 1, fun rounds hrounds => ?_⟩
      obtain ⟨rest, rfl⟩ := Nat.exists_eq_add_of_le' hrounds
      rw [← Nat.add_assoc, minimise_of_some hnext, hused _ (Nat.le_add_left used rest)]

/-- A value that is its own next one is never left. -/
theorem not_stopsAt_of_next?_self (hreaches : Reaches shrink holds v c)
    (hself : next? shrink holds c = some c) : ¬ StopsAt shrink holds v w := by
  intro hstops
  obtain ⟨hw, hnone⟩ := stopsAt_iff.mp hstops
  have hunique : Relator.RightUnique fun v c => next? shrink holds v = some c :=
    fun _ _ _ hb hc => Option.some.inj (hb.symm.trans hc)
  have hstays : ∀ u, Reaches shrink holds c u → u = c := by
    intro u hu
    induction hu with
    | refl => rfl
    | tail _ hlast ih =>
      rw [ih, hself] at hlast
      exact (Option.some.inj hlast).symm
  rcases ReflTransGen.total_of_right_unique hunique hreaches hw with hcw | hwc
  · rw [hstays w hcw, hself] at hnone
    cases hnone
  · rcases ReflTransGen.cases_head hwc with rfl | ⟨u, hu, -⟩
    · rw [hself] at hnone
      cases hnone
    · rw [hnone] at hu
      cases hu

theorem minimise_of_next?_self (hself : next? shrink holds v = some v) (rounds : Nat) :
    minimise shrink holds rounds v = (v, rounds) := by
  induction rounds with
  | zero => rfl
  | succ rounds ih => rw [minimise_of_some hself, ih]

/-- Each round but a last one that finds nothing brings the value down. -/
theorem minimise_descends (size : α → Nat) (hsize : ∀ v, ∀ c ∈ shrink v, size c < size v)
    (rounds : Nat) (v : α) :
    next? shrink holds (minimise shrink holds rounds v).1 = none ∨
      size (minimise shrink holds rounds v).1 + rounds ≤ size v := by
  induction rounds generalizing v with
  | zero => exact .inr (Nat.le_refl _)
  | succ rounds ih =>
    cases h : next? shrink holds v with
    | none =>
      rw [minimise_of_none h]
      exact .inl h
    | some c =>
      have hlt := hsize v c (mem_of_next? h)
      rw [minimise_of_some h]
      refine (ih c).imp_right fun hle => ?_
      dsimp only
      omega

theorem Reaches.size_le (h : Reaches shrink holds v w) (size : α → Nat)
    (hsize : ∀ v, ∀ c ∈ shrink v, size c < size v) : size w ≤ size v := by
  induction h with
  | refl => exact Nat.le_refl _
  | tail _ hlast ih => exact Nat.le_trans (Nat.le_of_lt (hsize _ _ (mem_of_next? hlast))) ih

end Rounds

section Words

theorem toInt_pred {v : Int64} (h : 0 < v.toInt) : (v - 1).toInt = v.toInt - 1 := by
  have hhigh := v.toInt_lt
  rw [Int64.toInt_sub, Int64.toInt_one, Int.bmod_def]
  omega

theorem toInt_succ {v : Int64} (h : v.toInt < 0) : (v + 1).toInt = v.toInt + 1 := by
  have hlow := v.le_toInt
  rw [Int64.toInt_add, Int64.toInt_one, Int.bmod_def]
  omega

/-- The candidates of a word, as numbers: nothing wraps around, not even at the least word. -/
theorem mem_shrinkWord {v c : Int64} :
    c ∈ shrinkWord v ↔ v ≠ 0 ∧
      (c.toInt = 0 ∨ c.toInt = v.toInt.tdiv 2 ∨ c.toInt = v.toInt - v.toInt.sign) := by
  by_cases hzero : v = 0
  · simp [shrinkWord, hzero]
  have hhalf : (v / 2).toInt = v.toInt.tdiv 2 := Int64.toInt_div_of_ne_right v 2 (by decide)
  have hnear : (if 0 < v then v - 1 else v + 1).toInt = v.toInt - v.toInt.sign := by
    have hne : v.toInt ≠ 0 := fun h => hzero (Int64.toInt_inj.mp h)
    rcases Int.lt_or_gt_of_ne hne with hneg | hpos
    · have hnot : ¬ 0 < v := fun h => Int.lt_asymm hneg (Int64.lt_iff_toInt_lt.mp h)
      rw [if_neg hnot, toInt_succ hneg, Int.sign_eq_neg_one_of_neg hneg]
      omega
    · have hpos' : 0 < v := Int64.lt_iff_toInt_lt.mpr hpos
      rw [if_pos hpos', toInt_pred hpos, Int.sign_eq_one_of_pos hpos]
  rw [shrinkWord, if_neg hzero]
  simp only [List.mem_cons, List.not_mem_nil, or_false, ne_eq, hzero, not_false_eq_true, true_and,
    ← Int64.toInt_inj, hhalf, hnear, Int64.toInt_zero]

def Nearer (c v : Int64) : Prop := c.toInt.natAbs < v.toInt.natAbs

theorem Nearer.wellFounded : WellFounded Nearer :=
  InvImage.wf (fun v : Int64 => v.toInt.natAbs) Nat.lt_wfRel.wf

theorem nearer_of_mem_shrinkWord {v c : Int64} (h : c ∈ shrinkWord v) : Nearer c v := by
  unfold Nearer
  obtain ⟨hne, hc⟩ := mem_shrinkWord.mp h
  have hne' : v.toInt ≠ 0 := fun h => hne (Int64.toInt_inj.mp h)
  rcases hc with hc | hc | hc
  · omega
  · rw [hc, Int.natAbs_tdiv]
    exact Nat.div_lt_self (Int.natAbs_pos.mpr hne') (by decide)
  · rcases Int.lt_or_gt_of_ne hne' with hneg | hpos
    · rw [Int.sign_eq_neg_one_of_neg hneg] at hc
      omega
    · rw [Int.sign_eq_one_of_pos hpos] at hc
      omega

/-- The least word that is not below a positive bound is found. -/
theorem minimise_bound {k v : Int64} (hk : 0 < k) (hv : ¬ v < k) {rounds : Nat}
    (hrounds : v.toInt - k.toInt ≤ rounds) :
    (minimise shrinkWord (fun x => decide (x < k)) rounds v).1 = k := by
  let holds : Int64 → Bool := fun x => decide (x < k)
  have hreaches : Reaches shrinkWord holds v (minimise shrinkWord holds rounds v).1 :=
    minimise_reaches rounds v
  have hdown : next? shrinkWord holds (minimise shrinkWord holds rounds v).1 = none ∨
      (minimise shrinkWord holds rounds v).1.toInt.natAbs + rounds ≤ v.toInt.natAbs :=
    minimise_descends (fun x => x.toInt.natAbs) (fun _ _ => nearer_of_mem_shrinkWord) rounds v
  have hfails : ¬ (minimise shrinkWord holds rounds v).1 < k :=
    of_decide_eq_false (hreaches.fails (decide_eq_false hv))
  change (minimise shrinkWord holds rounds v).1 = k
  generalize (minimise shrinkWord holds rounds v).1 = w at hdown hfails
  rw [Int64.lt_iff_toInt_lt] at hk hv hfails
  rw [Int64.toInt_zero] at hk
  apply Int64.toInt_inj.mp
  rcases hdown with hsettled | hdown
  · have hpos : 0 < w.toInt := by omega
    have hpred := toInt_pred hpos
    have hmem : w - 1 ∈ shrinkWord w := by
      refine mem_shrinkWord.mpr ⟨?_, .inr (.inr ?_)⟩
      · rintro rfl
        exact Int.lt_irrefl 0 hpos
      · rw [hpred, Int.sign_eq_one_of_pos hpos]
    have hbelow : w - 1 < k := of_decide_eq_true (next?_eq_none.mp hsettled _ hmem)
    rw [Int64.lt_iff_toInt_lt, hpred] at hbelow
    omega
  · omega

/-- From a failing word the rounds lead to a failing one that is no further from zero, and when some
are left over, to one whose candidates all hold. Every candidate is nearer to zero, so the least
word that is not below a positive bound is found. -/
theorem words_shrink_to_a_minimum (holds : Int64 → Bool) (v : Int64) (hv : holds v = false)
    (rounds : Nat) :
    ∃ w used, minimise shrinkWord holds rounds v = (w, used) ∧ holds w = false ∧
      w.toInt.natAbs ≤ v.toInt.natAbs ∧ used ≤ rounds ∧
      (used < rounds → ∀ c ∈ shrinkWord w, holds c = true) ∧
      (∀ x c, c ∈ shrinkWord x ↔ x ≠ 0 ∧
        (c.toInt = 0 ∨ c.toInt = x.toInt.tdiv 2 ∨ c.toInt = x.toInt - x.toInt.sign)) ∧
      (∀ x, ∀ c ∈ shrinkWord x, c.toInt.natAbs < x.toInt.natAbs) ∧
      ∀ k, 0 < k → (∀ x, holds x = decide (x < k)) → v.toInt - k.toInt ≤ rounds → w = k := by
  have hnearer : ∀ x, ∀ c ∈ shrinkWord x, c.toInt.natAbs < x.toInt.natAbs :=
    fun _ _ => nearer_of_mem_shrinkWord
  have hreaches : Reaches shrinkWord holds v (minimise shrinkWord holds rounds v).1 :=
    minimise_reaches rounds v
  refine ⟨_, _, rfl, hreaches.fails hv, hreaches.size_le (fun x => x.toInt.natAbs) hnearer,
    minimise_used_le rounds v, fun hused => next?_eq_none.mp (next?_minimise hused),
    fun _ _ => mem_shrinkWord, hnearer, ?_⟩
  intro k hk hbound hrounds
  obtain rfl : holds = fun x => decide (x < k) := funext hbound
  exact minimise_bound hk (of_decide_eq_false hv) hrounds

/-- The least word, halved until only one step is left to the bound. -/
theorem least_word_shrinks :
    decide (-3 < Int64.minValue) = false ∧
      minimise shrinkWord (fun x => decide (-3 < x)) 200 Int64.minValue = (-3, 63) ∧
      ∀ c ∈ shrinkWord (-3), decide (-3 < c) = true := by
  have hfails : (fun x : Int64 => decide (-3 < x)) Int64.minValue = false := by decide
  have hrun : minimise shrinkWord (fun x => decide (-3 < x)) 200 Int64.minValue = (-3, 63) := by
    decide +kernel
  obtain ⟨w, used, hfound, -, -, -, hsettled, -⟩ :=
    words_shrink_to_a_minimum (fun x => decide (-3 < x)) Int64.minValue hfails 200
  obtain ⟨rfl, rfl⟩ := Prod.mk.inj (hfound.symm.trans hrun)
  exact ⟨hfails, hrun, hsettled (by decide)⟩

end Words

section Lists

variable {α : Type} {r : α → α → Prop}

/-- The list is shorter, or has a smaller head in front of the same elements. -/
inductive Smaller (r : α → α → Prop) : List α → List α → Prop
  | shorter {c v : List α} (h : c.length < v.length) : Smaller r c v
  | head {y x : α} (h : r y x) (rest : List α) : Smaller r (y :: rest) (x :: rest)

theorem Smaller.wellFounded (hr : WellFounded r) : WellFounded (Smaller r) := by
  constructor
  intro v
  -- lists of one length by their heads, after all shorter ones
  induction hlength : v.length using Nat.strongRecOn generalizing v with
  | ind n ih =>
    have hshorter : ∀ c : List α, c.length < n → Acc (Smaller r) c := fun c hc => ih _ hc c rfl
    cases v with
    | nil =>
      constructor
      rintro c (⟨hc⟩ | _)
      exact absurd hc (Nat.not_lt_zero _)
    | cons x rest =>
      induction hr.apply x with
      | intro x _ ihx =>
        constructor
        rintro c (⟨hc⟩ | ⟨hy, _⟩)
        · exact hshorter c (hlength ▸ hc)
        · exact ihx _ hy hlength

variable {shrink : α → List α}

/-- The halves of a list are shorter unless it has one element. -/
theorem smaller_of_mem_shrinkList (hshrink : ∀ x, ∀ y ∈ shrink x, r y x) {v c : List α}
    (h : c ∈ shrinkList shrink v) : Smaller r c v ∨ c = v ∧ v.length = 1 := by
  cases v with
  | nil => cases h
  | cons x rest =>
    rcases List.mem_append.mp h with hhalf | hhead
    · have hlength : (x :: rest).length = rest.length + 1 := List.length_cons
      rcases List.mem_cons.mp hhalf with rfl | hsecond
      · refine .inl (.shorter ?_)
        rw [List.length_take]
        omega
      · obtain rfl := List.mem_singleton.mp hsecond
        by_cases hone : (x :: rest).length = 1
        · refine .inr ⟨?_, hone⟩
          rw [hone]
          rfl
        · refine .inl (.shorter ?_)
          rw [List.length_drop]
          omega
    · obtain ⟨y, hy, rfl⟩ := List.mem_map.mp hhead
      exact .inl (.head (hshrink x y hy) rest)

theorem singleton_mem_shrinkList (shrink : α → List α) (x : α) : [x] ∈ shrinkList shrink [x] := by
  simp [shrinkList]

/-- Going from candidate to candidate leads back to a list only if it has one element. -/
theorem proposed_again_iff (hr : WellFounded r) (hshrink : ∀ x, ∀ y ∈ shrink x, r y x)
    {v : List α} : TransGen (fun v c => c ∈ shrinkList shrink v) v v ↔ v.length = 1 := by
  have hdown : ∀ c, TransGen (fun v c => c ∈ shrinkList shrink v) v c →
      v.length = 1 ∨ TransGen (Smaller r) c v := by
    intro c hc
    induction hc with
    | single hfirst =>
      rcases smaller_of_mem_shrinkList hshrink hfirst with hsmaller | ⟨-, hone⟩
      · exact .inr (.single hsmaller)
      · exact .inl hone
    | tail _ hlast ih =>
      rcases smaller_of_mem_shrinkList hshrink hlast with hsmaller | ⟨rfl, -⟩
      · exact ih.imp_right (.head hsmaller)
      · exact ih
  constructor
  · intro hback
    rcases hdown v hback with hone | hsmaller
    · exact hone
    · exact absurd hsmaller ((Smaller.wellFounded hr).transGen.irrefl.irrefl v)
  · intro hone
    obtain ⟨x, rfl⟩ := List.length_eq_one_iff.mp hone
    exact .single (singleton_mem_shrinkList shrink x)

section Run

variable {holds : List α → Bool}

theorem next?_singleton_of_holds {x : α} (hnil : holds [] = true) (hx : holds [x] = false) :
    next? (shrinkList shrink) holds [x] = some [x] := by
  simp [next?, shrinkList, hnil, hx]

theorem next?_singleton_of_fails (hnil : holds [] = false) (x : α) :
    next? (shrinkList shrink) holds [x] = some [] := by
  simp [next?, shrinkList, hnil]

/-- A run that does not come to a list of one element, or does so where the empty list fails,
stops. -/
theorem exists_stopsAt (hr : WellFounded r) (hshrink : ∀ x, ∀ y ∈ shrink x, r y x) {v : List α}
    (h : holds [] = true → ∀ x, ¬ Reaches (shrinkList shrink) holds v [x]) :
    ∃ w, StopsAt (shrinkList shrink) holds v w := by
  induction v using (Smaller.wellFounded hr).induction with
  | _ v ih =>
    cases hnext : next? (shrinkList shrink) holds v with
    | none => exact ⟨v, stopsAt_iff.mpr ⟨.refl, hnext⟩⟩
    | some c =>
      rcases smaller_of_mem_shrinkList hshrink (mem_of_next? hnext) with hsmaller | ⟨rfl, hone⟩
      · obtain ⟨w, hw⟩ := ih c hsmaller fun hnil x hx => h hnil x (.head hnext hx)
        obtain ⟨hreaches, hnone⟩ := stopsAt_iff.mp hw
        exact ⟨w, stopsAt_iff.mpr ⟨.head hnext hreaches, hnone⟩⟩
      · obtain ⟨x, rfl⟩ := List.length_eq_one_iff.mp hone
        cases hnil : holds [] with
        | true => exact absurd .refl (h hnil x)
        | false =>
          rw [next?_singleton_of_fails hnil x] at hnext
          cases hnext

end Run

/-- Every candidate of a list is smaller or, where the list has one element, may be the list itself;
and only such a list is ever proposed again. So the rounds from a failing list come to an end, at a
list none of whose candidates fails, exactly if they do not come to a list of one element while the
empty list holds. -/
theorem lists_shrink_to_an_end_iff (hr : WellFounded r) (hshrink : ∀ x, ∀ y ∈ shrink x, r y x) :
    (∀ v, ∀ c ∈ shrinkList shrink v, Smaller r c v ∨ c = v ∧ v.length = 1) ∧
    (∀ v, TransGen (fun v c => c ∈ shrinkList shrink v) v v ↔ v.length = 1) ∧
    ∀ holds v, holds v = false →
      ((∃ w, StopsAt (shrinkList shrink) holds v w ∧ ∀ c ∈ shrinkList shrink w, holds c = true) ↔
        (holds [] = true → ∀ x, ¬ Reaches (shrinkList shrink) holds v [x])) := by
  refine ⟨fun v c => smaller_of_mem_shrinkList hshrink, fun v => proposed_again_iff hr hshrink, ?_⟩
  intro holds v hv
  constructor
  · rintro ⟨w, hstops, -⟩ hnil x hreaches
    exact not_stopsAt_of_next?_self hreaches
      (next?_singleton_of_holds hnil (hreaches.fails hv)) hstops
  · intro h
    obtain ⟨w, hstops⟩ := exists_stopsAt hr hshrink h
    exact ⟨w, hstops, next?_eq_none.mp (stopsAt_iff.mp hstops).2⟩

/-- Pairs cannot get shorter here, so their heads get smaller until none can. -/
theorem pairs_shrink_to_an_end :
    ∃ w, StopsAt (shrinkList shrinkWord) (fun xs => decide (xs.length < 2)) [6, 2] w ∧
      ∀ c ∈ shrinkList shrinkWord w, decide (c.length < 2) = true := by
  have hfails : (fun xs : List Int64 => decide (xs.length < 2)) [6, 2] = false := by decide
  have hshrink : ∀ x, ∀ y ∈ shrinkWord x, Nearer y x := fun _ _ => nearer_of_mem_shrinkWord
  refine ((lists_shrink_to_an_end_iff Nearer.wellFounded hshrink).2.2 _ _ hfails).mpr ?_
  intro _ x hx
  exact Bool.false_ne_true (hx.fails hfails).symm

/-- A list of one element is a candidate of its own. It is tried before all those with a smaller
head, which fail as well, and every round is used up on it. -/
theorem singleton_never_shrinks :
    [5] ∈ shrinkList shrinkWord [5] ∧ ¬ Smaller Nearer [5] [5] ∧
      (∀ rounds, minimise (shrinkList shrinkWord)
        (fun xs => decide (xs.foldl (· + ·) 0 < 3)) rounds [5] = ([5], rounds)) ∧
      [4] ∈ shrinkList shrinkWord [5] ∧ ¬ [4].foldl (· + ·) 0 < (3 : Int64) := by
  refine ⟨by decide, (Smaller.wellFounded Nearer.wellFounded).irrefl.irrefl [5], ?_, by decide⟩
  exact minimise_of_next?_self (by decide)

end Lists

end DartLowering.Check
