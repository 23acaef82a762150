import DartLowering.Diff.Unified
import DartLowering.Proofs.Hunks

/-!
The shape of hunks. A hunk is made of the steps of a `Span` of its script. `Grouped` says how the
spans of a script lie: every change is in one of them, two changes that follow each other are in one
exactly when little enough is kept between them, and a span goes from the context before its first
change to the context after its last. One more hunk in front keeps that (`Grouped.cons`), so it
holds of all that a script is cut into.
-/
namespace DartLowering.Diff

variable {α : Type} {es : List (Edit α)} {context limit gap : Nat}

/-- The steps from number `start` on, before number `stop`. -/
structure Span where
  start : Nat
  stop : Nat

def Span.Has (s : Span) (i : Nat) : Prop := s.start ≤ i ∧ i < s.stop

def ChangeAt (es : List (Edit α)) (i : Nat) : Prop := es[i]?.map Edit.isKeep = some false

/-- Two changes between which everything is kept. -/
structure Consecutive (es : List (Edit α)) (i j : Nat) : Prop where
  lt : i < j
  first : ChangeAt es i
  second : ChangeAt es j
  between : ∀ k, i < k → k < j → ¬ ChangeAt es k

/-- The hunk is made of the steps of the span. -/
def Hunk.Covers (h : Hunk α) (es : List (Edit α)) (s : Span) : Prop :=
  s.stop ≤ es.length ∧ h.edits = (es.drop s.start).take (s.stop - s.start)

/-- The span begins with the context before its first change and ends with the context after its
last, as far as there are steps. -/
def Span.Framed (s : Span) (context : Nat) (es : List (Edit α)) : Prop :=
  ∃ first last, ChangeAt es first ∧ ChangeAt es last ∧ first ≤ last ∧
    s.start + min context first = first ∧
    s.stop = last + 1 + min context (es.length - (last + 1)) ∧
    ∀ i, s.Has i → ChangeAt es i → first ≤ i ∧ i ≤ last

section Changes

variable {i : Nat}

@[simp] theorem changeAt_cons_zero {e : Edit α} : ChangeAt (e :: es) 0 ↔ e.isKeep = false := by
  simp [ChangeAt]

@[simp] theorem changeAt_cons_succ {e : Edit α} : ChangeAt (e :: es) (i + 1) ↔ ChangeAt es i := by
  simp [ChangeAt]

theorem changeAt_append {pre : List (Edit α)} :
    ChangeAt (pre ++ es) (pre.length + i) ↔ ChangeAt es i := by
  simp [ChangeAt, List.getElem?_append_right]

theorem ChangeAt.lt_length (h : ChangeAt es i) : i < es.length := by
  by_contra hlong
  rw [ChangeAt, List.getElem?_eq_none (by omega)] at h
  cases h

theorem ChangeAt.exists_mem (h : ChangeAt es i) : ∃ e ∈ es, e.isKeep = false := by
  obtain ⟨e, he, hkeep⟩ := Option.map_eq_some_iff.mp h
  exact ⟨e, List.mem_of_getElem? he, hkeep⟩

theorem changeAt_drop {n : Nat} (h : n ≤ i) : ChangeAt (es.drop n) (i - n) ↔ ChangeAt es i := by
  rw [ChangeAt, List.getElem?_drop, Nat.add_sub_cancel' h, ChangeAt]

theorem Consecutive.of_cons {e : Edit α} {j : Nat} (h : Consecutive (e :: es) (i + 1) (j + 1)) :
    Consecutive es i j where
  lt := Nat.lt_of_succ_lt_succ h.lt
  first := changeAt_cons_succ.mp h.first
  second := changeAt_cons_succ.mp h.second
  between k hi hj hk := h.between (k + 1) (by omega) (by omega) (changeAt_cons_succ.mpr hk)

theorem Consecutive.of_append {pre : List (Edit α)} {j : Nat}
    (h : Consecutive (pre ++ es) (pre.length + i) (pre.length + j)) : Consecutive es i j where
  lt := Nat.lt_of_add_lt_add_left h.lt
  first := changeAt_append.mp h.first
  second := changeAt_append.mp h.second
  between k hi hj hk := h.between (pre.length + k) (by omega) (by omega) (changeAt_append.mpr hk)

theorem not_changeAt_of_kept {pre kept : List (Edit α)} (hkept : ∀ e ∈ kept, e.isKeep = true)
    (hi : pre.length ≤ i) (hlt : i < pre.length + kept.length) :
    ¬ ChangeAt (pre ++ (kept ++ es)) i := by
  obtain ⟨m, rfl⟩ := Nat.exists_eq_add_of_le hi
  intro hchange
  rw [changeAt_append, ChangeAt, List.getElem?_append_left (by omega)] at hchange
  obtain ⟨e, he, hkeep⟩ := Option.map_eq_some_iff.mp hchange
  rw [hkept e (List.mem_of_getElem? he)] at hkeep
  cases hkeep

/-- After a change that is not the last there is a next one. -/
theorem exists_consecutive {k : Nat} (hi : ChangeAt es i) (hk : ChangeAt es k) (hlt : i < k) :
    ∃ j ≤ k, Consecutive es i j := by
  induction k using Nat.strongRecOn with
  | ind k ih =>
    by_cases hquiet : ∀ m, i < m → m < k → ¬ ChangeAt es m
    · exact ⟨k, Nat.le_refl k, hlt, hi, hk, hquiet⟩
    · push Not at hquiet
      obtain ⟨m, him, hmk, hm⟩ := hquiet
      obtain ⟨j, hj, hnext⟩ := ih m hmk hm him
      exact ⟨j, by omega, hnext⟩

/-- Steps that are kept come before every change. -/
theorem length_takeWhile_le (h : ChangeAt es i) : (es.takeWhile Edit.isKeep).length ≤ i := by
  induction es generalizing i with
  | nil => exact Nat.zero_le i
  | cons e es ih =>
    cases i with
    | zero => simp [changeAt_cons_zero.mp h]
    | succ i =>
      have hrest := ih (changeAt_cons_succ.mp h)
      rw [List.takeWhile_cons]
      split
      · exact Nat.succ_le_succ hrest
      · exact Nat.zero_le _

end Changes

section Groups

theorem reach_le_length (limit gap : Nat) (es : List (Edit α)) :
    reach limit gap es ≤ es.length := by
  fun_induction reach limit gap es with
  | case1 => exact Nat.le_refl 0
  | case2 | case4 => exact Nat.zero_le _
  | case3 gap e es hkeep n hn ih =>
    rw [List.length_cons]
    omega
  | case5 gap e es hchange hnear ih => exact Nat.succ_le_succ ih

/-- A group ends with a change. -/
theorem changeAt_reach {n : Nat} (h : reach limit gap es = n + 1) : ChangeAt es n := by
  fun_induction reach limit gap es generalizing n with
  | case1 | case2 | case4 => cases h
  | case3 gap e es hkeep m hm ih =>
    obtain rfl : m + 1 = n := by omega
    exact changeAt_cons_succ.mpr (ih hm)
  | case5 gap e es hchange hnear ih =>
    obtain rfl : reach limit 0 es = n := by omega
    cases hreach : reach limit 0 es with
    | zero => simpa using hchange
    | succ m => exact changeAt_cons_succ.mpr (ih hreach)

/-- Within a group, little enough is kept before each change: since the change before it, or since
`gap` items before the first step. -/
theorem reach_near (hj : j < reach limit gap es) (hchange : ChangeAt es j) :
    (∀ i, Consecutive es i j → j - i - 1 ≤ limit) ∧
      ((∀ k, k < j → ¬ ChangeAt es k) → gap + j ≤ limit) := by
  fun_induction reach limit gap es generalizing j with
  | case1 | case2 | case4 => omega
  | case3 gap e es hkeep n hn ih =>
    have hzero : ¬ ChangeAt (e :: es) 0 := by simp [hkeep]
    cases j with
    | zero => exact absurd hchange hzero
    | succ j =>
      obtain ⟨hnear, hfirst⟩ := ih (j := j) (by omega) (changeAt_cons_succ.mp hchange)
      refine ⟨fun i hi => ?_, fun hquiet => ?_⟩
      · cases i with
        | zero => exact absurd hi.first hzero
        | succ i =>
          have hgap := hnear i hi.of_cons
          omega
      · have hgap := hfirst fun k hk hkc => hquiet (k + 1) (by omega) (changeAt_cons_succ.mpr hkc)
        omega
  | case5 gap e es hstep hnear ih =>
    cases j with
    | zero =>
      refine ⟨fun i hi => absurd hi.lt (Nat.not_lt_zero i), fun _ => ?_⟩
      omega
    | succ j =>
      obtain ⟨hnext, hfirst⟩ := ih (j := j) (by omega) (changeAt_cons_succ.mp hchange)
      refine ⟨fun i hi => ?_, fun hquiet => absurd (by simpa using hstep) (hquiet 0 (by omega))⟩
      cases i with
      | zero =>
        have hgap := hfirst fun k hk hkc => hi.between (k + 1) (by omega) (by omega)
          (changeAt_cons_succ.mpr hkc)
        omega
      | succ i =>
        have hgap := hnext i hi.of_cons
        omega

/-- After a group, more is kept than it would reach over. -/
theorem reach_far (hchange : ChangeAt es j) (hj : reach limit 0 es ≤ j) :
    limit < j - reach limit 0 es := by
  have hrest := (changeAt_drop hj).mpr hchange
  rcases reach_rest limit 0 es with hall | hlong
  · obtain ⟨e, he, hkeep⟩ := hrest.exists_mem
    rw [hall e he] at hkeep
    cases hkeep
  · have hkept := length_takeWhile_le hrest
    rw [ite_self] at hlong
    omega

variable {e : Edit α} (he : e.isKeep = false) {j i : Nat}

include he

theorem changeAt_group_end : ChangeAt (e :: es) (reach limit 0 es) := by
  cases hreach : reach limit 0 es with
  | zero => exact changeAt_cons_zero.mpr he
  | succ n => exact changeAt_cons_succ.mpr (changeAt_reach hreach)

/-- The change after one of the group belongs to it exactly when it is near. -/
theorem group_iff (h : Consecutive (e :: es) i j) (hi : i ≤ reach limit 0 es) :
    j ≤ reach limit 0 es ↔ j - i - 1 ≤ limit := by
  obtain ⟨m, rfl⟩ := Nat.exists_eq_add_of_lt h.lt
  have hm : ChangeAt es (i + m) := changeAt_cons_succ.mp h.second
  constructor
  · intro hj
    have hlt : i + m < reach limit 0 es := by omega
    obtain ⟨hnear, hfirst⟩ := reach_near hlt hm
    cases i with
    | zero =>
      have hgap := hfirst fun k hk hkc => h.between (k + 1) (by omega) (by omega)
        (changeAt_cons_succ.mpr hkc)
      omega
    | succ i =>
      have hgap := hnear i h.of_cons
      omega
  · intro hgap
    by_contra hj
    -- the last change of the group is the one before
    have hend : ¬ i < reach limit 0 es := fun hlt =>
      h.between _ hlt (by omega) (changeAt_group_end he)
    have hle : reach limit 0 es ≤ i + m := by omega
    have hfar := reach_far hm hle
    omega

omit he in
theorem group_far {pre : List (Edit α)} (h : ChangeAt (pre ++ e :: es) i)
    (hi : pre.length + reach limit 0 es < i) : pre.length + reach limit 0 es + 1 + limit < i := by
  obtain ⟨m, rfl⟩ := Nat.exists_eq_add_of_le (show pre.length + 1 ≤ i by omega)
  rw [Nat.add_assoc, changeAt_append, Nat.add_comm 1 m, changeAt_cons_succ] at h
  have hle : reach limit 0 es ≤ m := by omega
  have hfar := reach_far h hle
  omega

theorem group_shared {pre : List (Edit α)} (h : Consecutive (pre ++ e :: es) i j)
    (hfirst : pre.length ≤ i) (hlast : i ≤ pre.length + reach limit 0 es) :
    j ≤ pre.length + reach limit 0 es ↔ j - i - 1 ≤ limit := by
  have hlt := h.lt
  obtain ⟨i, rfl⟩ := Nat.exists_eq_add_of_le hfirst
  obtain ⟨j, rfl⟩ := Nat.exists_eq_add_of_le (show pre.length ≤ j by omega)
  have hi : i ≤ reach limit 0 es := by omega
  have hiff := group_iff he h.of_append hi
  omega

end Groups

section Spans

/-- How spans lie after the first `done` steps of a script. -/
structure Grouped (context : Nat) (es : List (Edit α)) (done : Nat) (spans : List Span) : Prop where
  after : 0 < done → ∀ s ∈ spans, done < s.start
  held : ∀ i, done ≤ i → ChangeAt es i → ∃ s ∈ spans, s.Has i
  apart : spans.Pairwise fun s t => s.stop < t.start
  shared : ∀ i j, done ≤ i → Consecutive es i j →
    ((∃ s ∈ spans, s.Has i ∧ s.Has j) ↔ j - i - 1 ≤ 2 * context)
  framed : ∀ s ∈ spans, s.Framed context es

theorem grouped_nil {done : Nat} (h : ∀ i, done ≤ i → ¬ ChangeAt es i) :
    Grouped context es done [] where
  after := by simp
  held i hi hchange := absurd hchange (h i hi)
  apart := .nil
  shared i _ hi hnext := absurd hnext.first (h i hi)
  framed := by simp

/-- One more span in front, from the first change that is left to a change `last`, where `last` is
the end of a group and the span before left enough room. -/
theorem Grouped.cons {done : Nat} {s : Span} {spans : List Span}
    (h : Grouped context es s.stop spans) (first last : Nat) (hdone : done ≤ first)
    (hquiet : ∀ i, done ≤ i → i < first → ¬ ChangeAt es i)
    (hfirst : ChangeAt es first) (hlast : ChangeAt es last) (hle : first ≤ last)
    (hstart : s.start + min context first = first)
    (hstop : s.stop = last + 1 + min context (es.length - (last + 1)))
    (hafter : 0 < done → done < s.start)
    (hgroup : ∀ i j, first ≤ i → i ≤ last → Consecutive es i j →
      (j ≤ last ↔ j - i - 1 ≤ 2 * context)) :
    Grouped context es done (s :: spans) := by
  have hlater : ∀ t ∈ spans, s.stop < t.start := h.after (by omega)
  -- the next change is far from the last one of the group
  have hfar : ∀ k, last < k → ChangeAt es k → s.stop ≤ k := by
    intro k hk hchange
    obtain ⟨j, hj, hnext⟩ := exists_consecutive hlast hchange hk
    have hlt := hnext.lt
    have hiff := hgroup last j hle (Nat.le_refl last) hnext
    omega
  have hwithin : ∀ i, s.Has i → ChangeAt es i → first ≤ i ∧ i ≤ last := by
    rintro i ⟨hi, hi'⟩ hchange
    constructor
    · by_contra hlt
      exact hquiet i (by omega) (by omega) hchange
    · by_contra hgt
      have hout := hfar i (by omega) hchange
      omega
  have hreached : ∀ i, done ≤ i → ChangeAt es i → first ≤ i := by
    intro i hi hchange
    by_contra hlt
    exact hquiet i hi (by omega) hchange
  refine ⟨fun hpos => ?_, fun i hi hchange => ?_, ?_, fun i j hi hnext => ?_, ?_⟩
  · refine List.forall_mem_cons.mpr ⟨hafter hpos, fun t ht => ?_⟩
    have hlt := hlater t ht
    omega
  · have hge := hreached i hi hchange
    by_cases hin : i < s.stop
    · exact ⟨s, List.mem_cons_self, by omega, hin⟩
    · obtain ⟨t, ht, hhas⟩ := h.held i (by omega) hchange
      exact ⟨t, List.mem_cons_of_mem s ht, hhas⟩
  · exact List.pairwise_cons.mpr ⟨hlater, h.apart⟩
  · have hge := hreached i hi hnext.first
    by_cases hin : i ≤ last
    · rw [← hgroup i j hge hin hnext]
      constructor
      · rintro ⟨t, ht, hti, htj⟩
        rcases List.mem_cons.mp ht with rfl | ht
        · exact (hwithin j htj hnext.second).2
        · have hlt := hlater t ht
          have hti := hti.1
          omega
      · intro hj
        have hlt := hnext.lt
        exact ⟨s, List.mem_cons_self, ⟨by omega, by omega⟩, ⟨by omega, by omega⟩⟩
    · have hout := hfar i (by omega) hnext.first
      rw [← h.shared i j hout hnext]
      constructor
      · rintro ⟨t, ht, hti, htj⟩
        rcases List.mem_cons.mp ht with rfl | ht
        · have hti := hti.2
          omega
        · exact ⟨t, ht, hti, htj⟩
      · rintro ⟨t, ht, hhas⟩
        exact ⟨t, List.mem_cons_of_mem s ht, hhas⟩
  · refine List.forall_mem_cons.mpr ⟨?_, h.framed⟩
    exact ⟨first, last, hfirst, hlast, hle, hstart, hstop, hwithin⟩

end Spans

section Step

/-! The next hunk: `prior` is done with, what was `skipped` is kept, and `e` is the next change. -/

/-- The span of a hunk, when `done` steps are done with, `skipped` are kept after them, and `rest`
comes after its first change. -/
def nextSpan (context done skipped : Nat) (rest : List (Edit α)) : Span where
  start := done + skipped - min context skipped
  stop := done + skipped + 1 + min (reach (2 * context) 0 rest + context) rest.length

variable {prior skipped rest whole : List (Edit α)} {e : Edit α}
  (hwhole : whole = prior ++ (skipped.reverse ++ e :: rest))

include hwhole

/-- The steps before the change. -/
theorem exists_before :
    ∃ pre, whole = pre ++ e :: rest ∧ pre.length = prior.length + skipped.length :=
  ⟨prior ++ skipped.reverse, by rw [hwhole, List.append_assoc], by simp⟩

/-- The hunk is cut out of the script. -/
theorem covers_next {h : Hunk α} (hedits : h.edits = (skipped.take context).reverse ++
      e :: rest.take (reach (2 * context) 0 rest + context)) :
    h.Covers whole (nextSpan context prior.length skipped.length rest) := by
  generalize hn : reach (2 * context) 0 rest + context = n at hedits
  have hpieces : whole = (prior ++ (skipped.drop context).reverse) ++ (h.edits ++ rest.drop n) := by
    have hskip : skipped.reverse =
        (skipped.drop context).reverse ++ (skipped.take context).reverse := by
      rw [← List.reverse_append, List.take_append_drop]
    rw [hwhole, hedits, hskip]
    simp
  have hstart : (prior ++ (skipped.drop context).reverse).length =
      prior.length + skipped.length - min context skipped.length := by
    simp only [List.length_append, List.length_reverse, List.length_drop]
    omega
  have hsize : h.edits.length = min context skipped.length + 1 + min n rest.length := by
    simp only [hedits, List.length_append, List.length_cons, List.length_reverse, List.length_take]
    omega
  rw [nextSpan, hn]
  constructor
  · simp only [hwhole, List.length_append, List.length_cons, List.length_reverse]
    omega
  · dsimp only
    rw [hpieces, List.drop_left' hstart, List.take_left']
    omega

/-- After the hunk, the next change is further away than the context. -/
theorem room_next {i : Nat} (hi : (nextSpan context prior.length skipped.length rest).stop ≤ i)
    (hchange : ChangeAt whole i) :
    (nextSpan context prior.length skipped.length rest).stop + context < i := by
  obtain ⟨pre, hsteps, hpre⟩ := exists_before hwhole
  have hreach := reach_le_length (2 * context) 0 rest
  dsimp only [nextSpan] at hi ⊢
  rw [hsteps] at hchange
  have hfar := group_far hchange (show pre.length + reach (2 * context) 0 rest < i by omega)
  omega

theorem grouped_next (he : e.isKeep = false) (hskipped : ∀ e ∈ skipped, e.isKeep = true)
    (hroom : 0 < prior.length → ∀ i, prior.length ≤ i → ChangeAt whole i →
      prior.length + context < i)
    {spans : List Span}
    (h : Grouped context whole (nextSpan context prior.length skipped.length rest).stop spans) :
    Grouped context whole prior.length
      (nextSpan context prior.length skipped.length rest :: spans) := by
  obtain ⟨pre, hsteps, hpre⟩ := exists_before hwhole
  have hreach := reach_le_length (2 * context) 0 rest
  have htotal : whole.length = pre.length + (rest.length + 1) := by simp [hsteps]
  have hfirst : ChangeAt whole (pre.length + 0) := by
    rw [hsteps, changeAt_append, changeAt_cons_zero]
    exact he
  have hgap : 0 < prior.length → context < skipped.length := fun hpos => by
    have hnext := hroom hpos _ (by omega) hfirst
    omega
  refine h.cons pre.length (pre.length + reach (2 * context) 0 rest) (by omega) ?_ hfirst ?_
    (by omega) ?_ ?_ ?_ ?_
  · intro i hi hlt
    rw [hwhole]
    refine not_changeAt_of_kept (fun e he => hskipped e (List.mem_reverse.mp he)) hi ?_
    rwa [List.length_reverse, ← hpre]
  · rw [hsteps, changeAt_append]
    exact changeAt_group_end he
  · dsimp only [nextSpan]
    omega
  · dsimp only [nextSpan]
    omega
  · dsimp only [nextSpan]
    omega
  · intro i j hi hlast hnext
    rw [hsteps] at hnext
    exact group_shared he hnext hi hlast

end Step

/-- The hunks of what is left of a script. Its first steps `prior` are done with, and the changes
after them are further away than the context. -/
theorem hunksFrom_grouped {old new : Nat} {skipped left prior whole : List (Edit α)}
    (hwhole : whole = prior ++ (skipped.reverse ++ left))
    (hskipped : ∀ e ∈ skipped, e.isKeep = true)
    (hroom : 0 < prior.length → ∀ i, prior.length ≤ i → ChangeAt whole i →
      prior.length + context < i) :
    ∃ spans, List.Forall₂ (fun h s => Hunk.Covers h whole s)
        (hunksFrom context old new skipped left) spans ∧
      Grouped context whole prior.length spans := by
  fun_induction hunksFrom context old new skipped left generalizing prior with
  | case1 old new skipped =>
    refine ⟨[], .nil, grouped_nil fun i hi hchange => ?_⟩
    have hlt := hchange.lt_length
    rw [hwhole] at hchange hlt
    refine not_changeAt_of_kept (fun e he => hskipped e (List.mem_reverse.mp he)) hi ?_ hchange
    simpa using hlt
  | case2 old new skipped e es hkeep ih =>
    exact ih (by simpa using hwhole) (List.forall_mem_cons.mpr ⟨hkeep, hskipped⟩) hroom
  | case3 old new skipped e es hchange lead rest hunk =>
    rename_i ih
    -- the steps of the hunk and those before it are done with
    have hdone : whole =
        (prior ++ (skipped.reverse ++ e :: es.take rest)) ++ ([].reverse ++ es.drop rest) := by
      simp [hwhole]
    have hlength : (prior ++ (skipped.reverse ++ e :: es.take rest)).length =
        (nextSpan context prior.length skipped.length es).stop := by
      simp only [nextSpan, rest, List.length_append, List.length_cons, List.length_reverse,
        List.length_take]
      omega
    obtain ⟨spans, hcovers, hgrouped⟩ := ih hdone (List.forall_mem_nil _) fun _ i hi hnext => by
      rw [hlength] at hi ⊢
      exact room_next hwhole hi hnext
    rw [hlength] at hgrouped
    exact ⟨_ :: spans, .cons (covers_next hwhole rfl) hcovers,
      grouped_next hwhole (by simpa using hchange) hskipped hroom hgrouped⟩

section Shape

theorem hunks_grouped (context : Nat) (es : List (Edit α)) :
    ∃ spans, List.Forall₂ (fun h s => Hunk.Covers h es s) (hunks context es) spans ∧
      Grouped context es 0 spans := by
  have hwhole : es = [] ++ ([].reverse ++ es) := rfl
  exact hunksFrom_grouped hwhole (List.forall_mem_nil _) fun hpos => absurd hpos (Nat.lt_irrefl 0)

/-- Spans that lie apart share no step. -/
theorem eq_of_has {spans : List Span} (h : spans.Pairwise fun s t => s.stop < t.start) {s t : Span}
    (hs : s ∈ spans) (ht : t ∈ spans) {i : Nat} (hsi : s.Has i) (hti : t.Has i) : s = t := by
  have hstart : s.start ≤ i ∧ t.start ≤ i := ⟨hsi.1, hti.1⟩
  have hstop : i < s.stop ∧ i < t.stop := ⟨hsi.2, hti.2⟩
  induction h with
  | nil => cases hs
  | cons hapart _ ih =>
    rcases List.mem_cons.mp hs with rfl | hs'
    · rcases List.mem_cons.mp ht with rfl | ht'
      · rfl
      · have hlt := hapart t ht'
        omega
    · rcases List.mem_cons.mp ht with rfl | ht'
      · have hlt := hapart s hs'
        omega
      · exact ih hs' ht'

/-- The changes of the hunks are those of the script, in order. -/
theorem Cut.filter_changes {old new : Nat} {hs : List (Hunk α)} (h : Cut old new es hs) :
    hs.flatMap (fun g => g.edits.filter fun e => !e.isKeep) = es.filter fun e => !e.isKeep := by
  have hnone : ∀ kept : List (Edit α), (∀ e ∈ kept, e.isKeep = true) →
      (kept.filter fun e => !e.isKeep) = [] := by
    intro kept hkept
    rw [List.filter_eq_nil_iff]
    intro e he
    simp [hkept e he]
  induction h with
  | rest hkept => rw [hnone _ hkept, List.flatMap_nil]
  | hunk hkept hold hnew hrest hapart ih =>
    rw [List.flatMap_cons, ih, List.filter_append, hnone _ hkept, List.nil_append,
      List.filter_append]

/-- A hunk is begun only where there is a change. -/
theorem length_hunksFrom_le (context old new : Nat) (skipped es : List (Edit α)) :
    (hunksFrom context old new skipped es).length ≤ es.countP fun e => !e.isKeep := by
  fun_induction hunksFrom context old new skipped es with
  | case1 => exact Nat.le_refl 0
  | case2 old new skipped e es hkeep ih => rwa [List.countP_cons_of_neg (by simp [hkeep])]
  | case3 old new skipped e es hchange lead rest hunk ih =>
    rw [List.length_cons, List.countP_cons_of_pos (by simpa using hchange)]
    exact Nat.succ_le_succ (Nat.le_trans ih (List.drop_sublist rest es).countP_le)

theorem hasReach_of_length_le {es : List (Edit Line)} (hcontext : 2 * context < Nat.pow 2 63)
    (hlength : es.length ≤ Nat.pow 2 62) : hasReach context es = true := by
  have hword : Nat.pow 2 63 = 2 * Nat.pow 2 62 := by decide
  have hlead : (es.takeWhile Edit.isKeep).length ≤ es.length := (List.takeWhile_sublist _).length_le
  simp only [hasReach, Bool.or_eq_true, decide_eq_true_eq]
  omega

/-- A script is cut into hunks of one shape. Every change lies in exactly one hunk and in order, two
changes that follow each other share a hunk exactly when at most twice the context is kept between
them, a hunk begins and ends with the context or with as much as there is, and at least one step
lies between two hunks. No more hunks are begun than there are changes, and a context whose double
is a word leads past the last number in no script that memory holds. -/
theorem hunks_are_canonical (context : Nat) (es : List (Edit Line)) :
    (hunks context es).flatMap (fun h => h.edits.filter fun e => !e.isKeep) =
        es.filter (fun e => !e.isKeep) ∧
      (∃ spans, List.Forall₂ (fun h s => Hunk.Covers h es s) (hunks context es) spans ∧
        (∀ i, ChangeAt es i → ∃! s, s ∈ spans ∧ s.Has i) ∧
        (∀ i j, Consecutive es i j →
          ((∃ s ∈ spans, s.Has i ∧ s.Has j) ↔ j - i - 1 ≤ 2 * context)) ∧
        (∀ s ∈ spans, s.Framed context es) ∧
        spans.Pairwise fun s t => s.stop < t.start) ∧
      (hunks context es).length ≤ es.countP (fun e => !e.isKeep) ∧
      (2 * context < Nat.pow 2 63 → es.length ≤ Nat.pow 2 62 → hasReach context es = true) := by
  obtain ⟨spans, hcovers, hgrouped⟩ := hunks_grouped context es
  refine ⟨(hunks_cut context es).filter_changes,
    ⟨spans, hcovers, fun i hi => ?_, ?_, hgrouped.framed,
    hgrouped.apart⟩, length_hunksFrom_le context 0 0 [] es, hasReach_of_length_le⟩
  · obtain ⟨s, hs, hsi⟩ := hgrouped.held i (Nat.zero_le i) hi
    exact ⟨s, ⟨hs, hsi⟩, fun t ⟨ht, hti⟩ => eq_of_has hgrouped.apart ht hs hti hsi⟩
  · exact fun i j hnext => hgrouped.shared i j (Nat.zero_le i) hnext

end Shape

end DartLowering.Diff
