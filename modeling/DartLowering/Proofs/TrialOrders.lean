import DartLowering.Check.Trial
import Mathlib.Algebra.GroupWithZero.Nat
import Mathlib.Data.List.Perm.Basic

/-!
Trials that run at the same time. A `Pool` starts its routines in their order, at most so many at
once, and a list of `Move`s says which of them goes on next. What a pool of routines that do not
fail shares in the end comes from all their updates, each made once, in some order (`Pool.Sound`); a
tally does not depend on that order, so neither does the report of a check.
-/
namespace DartLowering.Check

/-- What a member of a pool has yet to do. -/
inductive Routine (υ : Type)
  /-- Looks whether the pool is closed. -/
  | ask (next : Bool → Routine υ)
  /-- Changes what is shared while no other member does. -/
  | update (u : υ) (next : Routine υ)
  | finish (failed : Bool)

/-- Routines over something shared, as error groups are documented. With a limit set, adding a
routine blocks until no more are active than the limit, so those that wait are started in their
order. The group's context is cancelled the first time that a routine returns an error, which is
what `closed` says, and waiting for the group blocks until all routines have returned. -/
structure Pool (υ σ : Type) where
  waiting : List (Routine υ)
  active : List (Routine υ) := []
  closed : Bool := false
  shared : σ

inductive Move
  | start
  /-- The active routine at that place takes its next step. -/
  | proceed (place : Nat)
  deriving DecidableEq, Repr

namespace Pool

variable {υ σ : Type}

/-- The pool after a move, if the move is possible; at most `workers` routines are active at
once. -/
def advance (workers : Nat) (apply : σ → υ → σ) (g : Pool υ σ) : Move → Option (Pool υ σ)
  | .start =>
      match g.waiting with
      | [] => none
      | r :: rs =>
          if g.active.length < workers then some { g with waiting := rs, active := g.active ++ [r] }
          else none
  | .proceed place =>
      match g.active[place]? with
      | none => none
      | some (.ask next) => some { g with active := g.active.set place (next g.closed) }
      | some (.update u next) =>
          some { g with active := g.active.set place next, shared := apply g.shared u }
      | some (.finish failed) =>
          some { g with active := g.active.eraseIdx place, closed := g.closed || failed }

def play (workers : Nat) (apply : σ → υ → σ) (g : Pool υ σ) : List Move → Option (Pool υ σ)
  | [] => some g
  | m :: ms => (g.advance workers apply m).bind fun g => g.play workers apply ms

end Pool

namespace Routine

variable {υ : Type}

/-- The updates of a routine in a pool that stays open. -/
def updates : Routine υ → List υ
  | .ask next => (next false).updates
  | .update u next => u :: next.updates
  | .finish _ => []

/-- The steps of a routine in a pool that stays open. -/
def steps : Routine υ → Nat
  | .ask next => (next false).steps + 1
  | .update _ next => next.steps + 1
  | .finish _ => 1

/-- In a pool that stays open the routine does not fail. -/
def Succeeds : Routine υ → Prop
  | .ask next => (next false).Succeeds
  | .update _ next => next.Succeeds
  | .finish failed => failed = false

end Routine

namespace Pool

variable {υ σ : Type} {workers : Nat} {apply : σ → υ → σ} {g g' : Pool υ σ} {m : Move}

/-- What a move can do. -/
theorem advance_cases (h : g.advance workers apply m = some g') :
    (∃ r rs, g.waiting = r :: rs ∧ g' = { g with waiting := rs, active := g.active ++ [r] }) ∨
    ∃ before r after, g.active = before ++ r :: after ∧
      ((∃ next, r = .ask next ∧ g' = { g with active := before ++ next g.closed :: after }) ∨
      (∃ u next, r = .update u next ∧
        g' = { g with active := before ++ next :: after, shared := apply g.shared u }) ∨
      ∃ failed, r = .finish failed ∧
        g' = { g with active := before ++ after, closed := g.closed || failed }) := by
  cases m with
  | start =>
    rw [advance] at h
    cases hw : g.waiting with
    | nil =>
      rw [hw] at h
      cases h
    | cons r rs =>
      rw [hw] at h
      dsimp only at h
      split at h
      · cases h
        exact .inl ⟨r, rs, rfl, rfl⟩
      · cases h
  | proceed place =>
    rw [advance] at h
    cases hr : g.active[place]? with
    | none =>
      rw [hr] at h
      cases h
    | some r =>
      rw [hr] at h
      obtain ⟨hlt, hget⟩ := List.getElem?_eq_some_iff.mp hr
      have hsplit : g.active = g.active.take place ++ r :: g.active.drop (place + 1) := by
        rw [← hget, List.getElem_cons_drop, List.take_append_drop]
      have hset : ∀ r', g.active.set place r' =
          g.active.take place ++ r' :: g.active.drop (place + 1) := by
        intro r'
        rw [List.set_eq_take_append_cons_drop, if_pos hlt]
      refine .inr ⟨_, r, _, hsplit, ?_⟩
      cases r with
      | ask next =>
        cases h
        exact .inl ⟨next, rfl, by rw [hset]⟩
      | update u next =>
        cases h
        exact .inr (.inl ⟨u, next, rfl, by rw [hset]⟩)
      | finish failed =>
        cases h
        exact .inr (.inr ⟨failed, rfl, by rw [List.eraseIdx_eq_take_drop_succ]⟩)

/-- The updates that are still to come in a pool that stays open. -/
def pending (g : Pool υ σ) : List υ :=
  g.active.flatMap Routine.updates ++ g.waiting.flatMap Routine.updates

/-- The moves that are left in a pool that stays open. -/
def remaining (g : Pool υ σ) : Nat :=
  (g.active.map Routine.steps).sum + (g.waiting.map fun r => r.steps + 1).sum

/-- The pool is open, no routine in it will fail, and what is shared comes from updates that were
made in some order; with those to come they are all of them. -/
structure Sound (apply : σ → υ → σ) (start : σ) (all : List υ) (g : Pool υ σ) : Prop where
  isOpen : g.closed = false
  active : ∀ r ∈ g.active, r.Succeeds
  waiting : ∀ r ∈ g.waiting, r.Succeeds
  shared : ∃ made : List υ, g.shared = made.foldl apply start ∧ (made ++ g.pending).Perm all

section Places

variable (waiting before after : List (Routine υ)) (r : Routine υ) (closed : Bool) (shared : σ)

/-- The updates of an active routine may be taken first. -/
theorem pending_perm : (pending ⟨waiting, before ++ r :: after, closed, shared⟩).Perm
    (r.updates ++ pending ⟨waiting, before ++ after, closed, shared⟩) := by
  simp only [pending, List.flatMap_append, List.flatMap_cons, List.append_assoc]
  exact List.perm_append_comm_assoc _ _ _

theorem remaining_eq : remaining ⟨waiting, before ++ r :: after, closed, shared⟩ =
    r.steps + remaining ⟨waiting, before ++ after, closed, shared⟩ := by
  simp only [remaining, List.map_append, List.map_cons, List.sum_append, List.sum_cons]
  omega

end Places

variable {start : σ} {all : List υ}

/-- Every move is one of those that are left, and what it changes is one of the updates to come. -/
theorem Sound.advance (h : g.Sound apply start all) (hmove : g.advance workers apply m = some g') :
    g'.Sound apply start all ∧ g'.remaining + 1 = g.remaining := by
  obtain ⟨waiting, active, closed, shared⟩ := g
  obtain ⟨hopen, hactive, hwaiting, made, hshared, hperm⟩ := h
  dsimp only at hopen hactive hwaiting hshared
  subst hopen
  rcases advance_cases hmove with ⟨r, rs, hw, rfl⟩ | ⟨before, r, after, ha, hstep⟩
  · dsimp only at hw
    subst hw
    rw [List.forall_mem_cons] at hwaiting
    refine ⟨⟨rfl, ?_, hwaiting.2, made, hshared, ?_⟩, ?_⟩
    · exact List.forall_mem_append.mpr ⟨hactive, List.forall_mem_singleton.mpr hwaiting.1⟩
    · simpa only [pending, List.flatMap_append, List.flatMap_cons, List.flatMap_nil,
        List.append_nil, List.append_assoc] using hperm
    · simp only [remaining, List.map_append, List.map_cons, List.map_nil, List.sum_append,
        List.sum_cons, List.sum_nil]
      omega
  · dsimp only at ha
    subst ha
    rw [List.forall_mem_append, List.forall_mem_cons] at hactive
    obtain ⟨hbefore, hr, hafter⟩ := hactive
    have hall :=
      ((pending_perm waiting before after r false shared).symm.append_left made).trans hperm
    rw [remaining_eq]
    rcases hstep with ⟨next, rfl, rfl⟩ | ⟨u, next, rfl, rfl⟩ | ⟨failed, rfl, rfl⟩
    · refine ⟨⟨rfl, ?_, hwaiting, made, hshared, ?_⟩, ?_⟩
      · exact List.forall_mem_append.mpr ⟨hbefore, List.forall_mem_cons.mpr ⟨hr, hafter⟩⟩
      · exact ((pending_perm waiting before after _ false shared).append_left made).trans hall
      · rw [remaining_eq, Routine.steps]
        exact Nat.add_right_comm ..
    · refine ⟨⟨rfl, ?_, hwaiting, made ++ [u], ?_, ?_⟩, ?_⟩
      · exact List.forall_mem_append.mpr ⟨hbefore, List.forall_mem_cons.mpr ⟨hr, hafter⟩⟩
      · rw [List.foldl_append, ← hshared]
        rfl
      · -- the update moves from those to come to the end of those made
        rw [Routine.updates, List.cons_append, List.append_cons] at hall
        exact ((pending_perm waiting before after next false _).append_left _).trans hall
      · rw [remaining_eq, Routine.steps]
        exact Nat.add_right_comm ..
    · cases hr
      refine ⟨⟨rfl, List.forall_mem_append.mpr ⟨hbefore, hafter⟩, hwaiting, made, hshared,
        hall⟩, ?_⟩
      rw [Routine.steps, Nat.add_comm]
      rfl

theorem Sound.play {moves : List Move} (h : g.Sound apply start all)
    (hrun : g.play workers apply moves = some g') :
    g'.Sound apply start all ∧ g'.remaining + moves.length = g.remaining := by
  induction moves generalizing g with
  | nil =>
    cases hrun
    exact ⟨h, rfl⟩
  | cons m ms ih =>
    obtain ⟨next, hmove, hrest⟩ := Option.bind_eq_some_iff.mp hrun
    obtain ⟨hnext, hone⟩ := h.advance hmove
    obtain ⟨hlast, hmoves⟩ := ih hnext hrest
    refine ⟨hlast, ?_⟩
    rw [List.length_cons]
    omega

def Finished (g : Pool υ σ) : Prop :=
  g.active = [] ∧ g.waiting = []

/-- With a worker some move is possible until every routine has come to its end. -/
theorem exists_advance_of_not_finished (hworkers : 0 < workers) (h : ¬ g.Finished) :
    ∃ m next, g.advance workers apply m = some next := by
  by_cases hactive : g.active = []
  · obtain ⟨r, rs, hw⟩ := List.exists_cons_of_ne_nil fun hw => h ⟨hactive, hw⟩
    refine ⟨.start, { g with waiting := rs, active := g.active ++ [r] }, ?_⟩
    rw [Pool.advance, hw]
    dsimp only
    rw [hactive, List.length_nil, if_pos hworkers]
  · obtain ⟨r, rs, ha⟩ := List.exists_cons_of_ne_nil hactive
    refine ⟨.proceed 0, ?_⟩
    rw [Pool.advance, ha]
    cases r with
    | ask | update | finish => exact ⟨_, rfl⟩

/-- At the end the updates of all routines have been made, each once. -/
theorem Sound.shared_of_finished (h : g.Sound apply start all) (hend : g.Finished) :
    ∃ made : List υ, made.Perm all ∧ g.shared = made.foldl apply start := by
  obtain ⟨made, hshared, hperm⟩ := h.shared
  rw [pending, hend.1, hend.2, List.flatMap_nil, List.append_nil, List.append_nil] at hperm
  exact ⟨made, hperm, hshared⟩

end Pool

section Trials

variable {α : Type}

/-- A trial gives up where the pool is closed; otherwise it notes its input. -/
def trial (input : Nat → α) (i : Nat) : Routine (Nat × α) :=
  .ask fun closed => if closed then .finish false else .update (i, input i) (.finish false)

/-- The trials before any of them is started. -/
def Settings.pool (s : Settings) (input : Nat → α) : Pool (Nat × α) (Tally α) where
  waiting := (List.range s.trials).map (trial input)
  shared := {}

/-- How many trials may run at once: as many as there are processors where no number is given. -/
def workers (processors : Nat) (parallelism : Int) : Nat :=
  if parallelism ≤ 0 then processors else parallelism.toNat

theorem workers_pos {processors : Nat} (h : 0 < processors) (parallelism : Int) :
    0 < workers processors parallelism := by
  unfold workers
  split <;> omega

theorem Settings.pool_sound (s : Settings) (input : Nat → α) (holds : α → Bool) :
    (s.pool input).Sound (Tally.note holds) {} (s.inputs input) where
  isOpen := rfl
  active := List.forall_mem_nil _
  waiting := List.forall_mem_map.mpr fun _ _ => rfl
  shared := by
    refine ⟨[], rfl, List.Perm.of_eq ?_⟩
    show ((List.range s.trials).map (trial input)).flatMap Routine.updates = _
    rw [List.flatMap_map, inputs, List.map_eq_flatMap]
    rfl

theorem Settings.pool_remaining (s : Settings) (input : Nat → α) :
    (s.pool input).remaining = 4 * s.trials := by
  show ([] : List Nat).sum +
    (((List.range s.trials).map (trial input)).map fun r => r.steps + 1).sum = _
  rw [List.sum_nil, Nat.zero_add, List.map_map]
  induction s.trials with
  | zero => rfl
  | succ n ih =>
    rw [List.range_succ, List.map_append, List.sum_append, ih, Nat.mul_succ]
    rfl

/-- Of two failing trials, the one with the lower number. -/
def lower (x y : Nat × α) : Nat × α :=
  if y.1 < x.1 then y else x

section lower

variable {x y z : Nat × α}

theorem lower_of_lt (h : y.1 < x.1) : lower x y = y :=
  if_pos h

theorem lower_of_le (h : x.1 ≤ y.1) : lower x y = x :=
  if_neg (Nat.not_lt.mpr h)

theorem lower_comm (h : x.1 = y.1 → x = y) : lower x y = lower y x := by
  rcases Nat.lt_trichotomy x.1 y.1 with hlt | heq | hgt
  · rw [lower_of_le (Nat.le_of_lt hlt), lower_of_lt hlt]
  · rw [h heq]
  · rw [lower_of_lt hgt, lower_of_le (Nat.le_of_lt hgt)]

theorem lower_right_comm (h : x.1 = y.1 → x = y) : lower (lower z x) y = lower (lower z y) x := by
  rcases Nat.lt_or_ge x.1 z.1 with hx | hx
  · rcases Nat.lt_or_ge y.1 z.1 with hy | hy
    · rw [lower_of_lt hx, lower_of_lt hy, lower_comm h]
    · rw [lower_of_lt hx, lower_of_le hy, lower_of_lt hx,
        lower_of_le (Nat.le_trans (Nat.le_of_lt hx) hy)]
  · rcases Nat.lt_or_ge y.1 z.1 with hy | hy
    · rw [lower_of_le hx, lower_of_lt hy, lower_of_le (Nat.le_trans (Nat.le_of_lt hy) hx)]
    · rw [lower_of_le hx, lower_of_le hy, lower_of_le hx]

end lower

namespace Tally

variable {holds : α → Bool} {t : Tally α} {x y : Nat × α}

theorem note_of_holds (h : holds x.2 = true) : t.note holds x = { t with passed := t.passed + 1 } :=
  if_pos h

theorem note_of_fails (h : holds x.2 = false) :
    t.note holds x = { t with failing := some (t.failing.elim x (lower · x)) } := by
  obtain ⟨passed, failing⟩ := t
  rw [note, h]
  cases failing with
  | none => rfl
  | some z => exact (apply_ite (fun z => Tally.mk passed (some z)) _ _ _).symm

/-- Two trials may be noted in either order. -/
theorem note_comm (h : x.1 = y.1 → x = y) :
    (t.note holds x).note holds y = (t.note holds y).note holds x := by
  cases hx : holds x.2 with
  | true =>
    cases hy : holds y.2 with
    | true => rw [note_of_holds hx, note_of_holds hy, note_of_holds hx, note_of_holds hy]
    | false => rw [note_of_holds hx, note_of_fails hy, note_of_fails hy, note_of_holds hx]
  | false =>
    cases hy : holds y.2 with
    | true => rw [note_of_fails hx, note_of_holds hy, note_of_holds hy, note_of_fails hx]
    | false =>
      rw [note_of_fails hx, note_of_fails hy, note_of_fails hy, note_of_fails hx]
      cases t.failing with
      | none => exact congrArg (fun z => Tally.mk t.passed (some z)) (lower_comm h)
      | some z => exact congrArg (fun z => Tally.mk t.passed (some z)) (lower_right_comm h)

theorem foldl_note_of_perm {s : Settings} {input : Nat → α} {made : List (Nat × α)}
    (h : made.Perm (s.inputs input)) :
    made.foldl (note holds) {} = (s.inputs input).foldl (note holds) {} := by
  refine h.foldl_eq' (fun x hx y hy _ => note_comm fun hxy => ?_) _
  obtain ⟨i, -, rfl⟩ := List.mem_map.mp (h.mem_iff.mp hx)
  obtain ⟨j, -, rfl⟩ := List.mem_map.mp (h.mem_iff.mp hy)
  dsimp only at hxy
  rw [hxy]

end Tally

/-- The tally of the first `n` trials, noted in the order of their numbers. -/
theorem foldl_note_range (input : Nat → α) (holds : α → Bool) (n : Nat) :
    ((List.range n).map fun i => (i, input i)).foldl (Tally.note holds) {} =
      { passed := (List.range n).countP fun i => holds (input i)
        failing :=
          ((List.range n).find? fun i => !holds (input i)).map fun i => (i, input i) } := by
  induction n with
  | zero => rfl
  | succ n ih =>
    rw [List.range_succ, List.map_append, List.foldl_append, ih, List.map_singleton,
      List.foldl_cons, List.foldl_nil, List.countP_append, List.countP_singleton, List.find?_append]
    cases hn : holds (input n) with
    | true =>
      rw [Tally.note_of_holds hn, List.find?_cons_of_neg (by rw [hn]; decide), List.find?_nil,
        Option.or_none]
      rfl
    | false =>
      rw [Tally.note_of_fails hn, List.find?_cons_of_pos (by rw [hn]; rfl)]
      cases hfirst : (List.range n).find? fun i => !holds (input i) with
      | none => rfl
      | some j =>
        -- the earlier failure has the lower number
        have hj : j < n := List.mem_range.mp (List.mem_of_find?_eq_some hfirst)
        exact congrArg (fun z => Tally.mk _ (some z)) (lower_of_le (Nat.le_of_lt hj))

/-- What a check of the inputs has to report: how many pass, whether one fails, and the failing one
with the lowest number, made smaller where that can be done. -/
structure Report.Describes (s : Settings) (input : Nat → α) (shrink : Option (α → List α))
    (holds : α → Bool) (r : Report α) : Prop where
  passed : r.passed = (List.range s.trials).countP (fun i => holds (input i))
  isSome_iff : r.counterexample.isSome ↔ ∃ i < s.trials, holds (input i) = false
  lowest : ∀ c, r.counterexample = some c →
    ∃ i < s.trials, holds (input i) = false ∧ (∀ j < i, holds (input j) = true) ∧
      c.failing = input i ∧
      (shrink = none → c.shrunk = input i ∧ c.rounds = 0) ∧
      ∀ smaller, shrink = some smaller →
        (c.shrunk, c.rounds) = minimise smaller holds s.rounds (input i)

theorem forAll_describes (s : Settings) (input : Nat → α) (shrink : Option (α → List α))
    (holds : α → Bool) : (forAll s input shrink holds).Describes s input shrink holds := by
  have htally : (s.inputs input).foldl (Tally.note holds) {} = _ :=
    foldl_note_range input holds s.trials
  rw [forAll, htally]
  refine ⟨rfl, ?_, fun c hc => ?_⟩
  · rw [Tally.report, Option.isSome_map, Option.isSome_map, List.find?_isSome]
    simp only [List.mem_range, Bool.not_eq_true']
  · obtain ⟨_, hfirst, rfl⟩ := Option.map_eq_some_iff.mp hc
    obtain ⟨i, hi, rfl⟩ := Option.map_eq_some_iff.mp hfirst
    obtain ⟨hfails, hmem, hbefore⟩ := List.find?_range_eq_some.mp hi
    refine ⟨i, List.mem_range.mp hmem, by simpa using hfails,
      fun j hj => by simpa using hbefore j hj, ?_⟩
    cases shrink with
    | none => exact ⟨rfl, fun _ => ⟨rfl, rfl⟩, fun _ h => absurd h.symm (Option.some_ne_none _)⟩
    | some smaller =>
      refine ⟨rfl, fun h => absurd h (Option.some_ne_none _), fun _ h => ?_⟩
      cases h
      rfl

/-- However many trials run at once and whichever of them moves next, a check makes at most four
moves for each trial, can move until all have come to their end, and then reports what it reports
with the trials taken one after the other. -/
theorem reports_ignore_scheduling {processors : Nat} (hprocessors : 0 < processors)
    (parallelism : Int) (s : Settings) (input : Nat → α) (shrink : Option (α → List α))
    (holds : α → Bool) {moves : List Move} {g : Pool (Nat × α) (Tally α)}
    (hrun : (s.pool input).play (workers processors parallelism) (Tally.note holds) moves =
      some g) :
    moves.length ≤ 4 * s.trials ∧
    (¬ g.Finished →
      ∃ m next, g.advance (workers processors parallelism) (Tally.note holds) m = some next) ∧
    (g.Finished →
      g.shared.report s.rounds shrink holds = forAll s input shrink holds ∧
      (g.shared.report s.rounds shrink holds).Describes s input shrink holds) := by
  obtain ⟨hsound, hmoves⟩ := (s.pool_sound input holds).play hrun
  rw [s.pool_remaining] at hmoves
  refine ⟨by omega, Pool.exists_advance_of_not_finished (workers_pos hprocessors parallelism),
    fun hend => ?_⟩
  obtain ⟨made, hperm, hshared⟩ := hsound.shared_of_finished hend
  have hreport : g.shared.report s.rounds shrink holds = forAll s input shrink holds := by
    rw [hshared, Tally.foldl_note_of_perm hperm]
    rfl
  exact ⟨hreport, hreport ▸ forAll_describes s input shrink holds⟩

/-- Two of three trials fail, the later of them first; the report names the earlier. -/
theorem late_failure_is_reported :
    ∃ moves : List Move,
      ((⟨3, 5⟩ : Settings).pool fun i => 5 - i).play (workers 8 2) (Tally.note (· == 4)) moves =
        some { waiting := [], shared := ⟨1, some (0, 5)⟩ } ∧
      moves.length ≤ 12 ∧
      (Tally.report 5 none (· == 4) ⟨1, some (0, 5)⟩).Describes ⟨3, 5⟩ (fun i => 5 - i) none
        (· == 4) := by
  have hrun : ((⟨3, 5⟩ : Settings).pool fun i => 5 - i).play (workers 8 2) (Tally.note (· == 4))
      [.start, .start, .proceed 1, .proceed 1, .proceed 1, .start, .proceed 0, .proceed 1,
        .proceed 1, .proceed 1, .proceed 0, .proceed 0] =
      some { waiting := [], shared := ⟨1, some (0, 5)⟩ } := rfl
  obtain ⟨hmoves, -, hreport⟩ := reports_ignore_scheduling (by decide : 0 < 8) 2 ⟨3, 5⟩
    (fun i => 5 - i) none (· == 4) hrun
  exact ⟨_, hrun, hmoves, (hreport ⟨rfl, rfl⟩).2⟩

end Trials

end DartLowering.Check
