import DartLowering.Emit.Unit
import DartLowering.Proofs.Labels

/-!
What places do in a run. Every item is emitted under the place of its declaration, so a report that
gets out of a run over declarations with places has a place itself, however deep it was made and
whatever was wrapped around it. Apart from that, places and the marks of explicit conversions do
nothing: two runs over units that differ in them alone have one outcome, up to the place of what
they report.
-/
namespace DartLowering

open Result

namespace Failure

/-- The first report of the chain, if there is one, has a place. -/
def Placed (f : Failure) : Prop :=
  ∀ cause p origin, f.report? = some (cause, p, origin) → p.isValid = true

theorem report?_moveTo (p : Position) : ∀ f : Failure,
    (f.moveTo p).report? = f.report?.map fun r => (r.1, p, r.2.2)
  | .report _ _ _ | .plain _ | .crash => rfl
  | .wrapped _ inner => report?_moveTo p inner

/-- A report that is passed on keeps its place, or gets one if it has none. -/
theorem report?_locate (p : Position) (f : Failure) :
    (f.locate p).report? = f.report?.map fun r =>
      (r.1, if p.isValid && !r.2.1.isValid then p else r.2.1, r.2.2) := by
  cases hreport : f.report? with
  | none => rw [locate, hreport, Option.map_none, hreport]
  | some r =>
    obtain ⟨cause, own, origin⟩ := r
    rw [locate, hreport, Option.map_some]
    dsimp only
    split
    · rw [report?_moveTo, hreport, Option.map_some]
    · exact hreport

/-- What is passed on under a place has one. -/
theorem placed_locate {p : Position} (hp : p.isValid = true) (f : Failure) :
    (f.locate p).Placed := by
  intro cause q origin hq
  rw [report?_locate] at hq
  obtain ⟨⟨_, own, _⟩, -, hplace⟩ := Option.map_eq_some_iff.mp hq
  cases hplace
  rw [hp, Bool.true_and]
  cases hown : own.isValid with
  | true => exact hown
  | false => exact hp

end Failure

section Placed

variable {α : Type} {env : TypeEnv} {ds : List Decl}

theorem Result.locate_placed {p : Position} (hp : p.isValid = true) (r : Result α) :
    FailsOnly Failure.Placed (Result.locate p r) := by
  cases r with
  | ok a => exact failsOnly_ok a
  | error f => exact failsOnly_error.mpr (f.placed_locate hp)

namespace Lower

theorem methods_placed {ms : List (MethodDecl × List Stmt)}
    (hms : ∀ q ∈ ms, q.1.position.isValid = true) : FailsOnly Failure.Placed (methods env ms) := by
  induction ms with
  | nil => exact failsOnly_ok _
  | cons q ms ih =>
    rw [List.forall_mem_cons] at hms
    exact (locate_placed hms.1 _).bind fun first => (ih hms.2).bind fun rest => failsOnly_ok _

/-- What the emission of one item fails with has a place. -/
theorem item_placed {i : Item} (hi : i.Planned ds)
    (hds : ∀ d ∈ ds, d.position.isValid = true) : FailsOnly Failure.Placed (item env i) := by
  cases i with
  | function d body => exact locate_placed (hds _ hi.1) _
  | «variable» d => exact locate_placed (hds _ hi) _
  | «class» owner ms =>
    have hms : ∀ q ∈ ms, (Decl.method q.1).position.isValid = true :=
      fun q hq => hds _ (hi.2 q hq).1
    exact (methods_placed hms).bind fun fs => failsOnly_ok _

theorem items_placed {is : List Item} (his : ∀ i ∈ is, i.Planned ds)
    (hds : ∀ d ∈ ds, d.position.isValid = true) : FailsOnly Failure.Placed (items env is) := by
  induction is with
  | nil => exact failsOnly_ok _
  | cons i is ih =>
    rw [List.forall_mem_cons] at his
    exact (item_placed his.1 hds).bind fun first => (ih his.2).bind fun rest => failsOnly_ok _

theorem generate_placed {u : SourceUnit} (hu : ∀ d ∈ u.decls, d.position.isValid = true)
    (package : String) (cancelled : Bool) :
    FailsOnly Failure.Placed (generate env package cancelled (some u)) := by
  unfold generate
  dsimp only
  split
  · refine failsOnly_error.mpr fun cause p origin h => ?_
    cases h
  · refine FailsOnly.bind ?_ fun file => failsOnly_ok _
    exact (items_placed (planned_of_mem_plan u.decls) hu).bind fun items => failsOnly_ok _

end Lower

/-- Whatever the run fails with, from any state, satisfies `P`. -/
def Run.FailsOnly {σ : Type} (P : Failure → Prop) (m : Run σ α) : Prop :=
  ∀ s f s', m s = some (.error f, s') → P f

namespace Run

variable {β σ : Type} {P : Failure → Prop} {m : Run σ α}

theorem failsOnly_pure (a : α) : FailsOnly P (pure a : Run σ α) := by
  intro s f s' h
  cases h

theorem FailsOnly.bind {k : α → Run σ β} (hm : FailsOnly P m) (hk : ∀ a, FailsOnly P (k a)) :
    FailsOnly P (m >>= k) := by
  intro s f s' h
  rcases bind_cases h with ⟨a, s₁, -, hrest⟩ | ⟨g, hfirst, hfailed⟩
  · exact hk a s₁ f s' hrest
  · cases hfailed
    exact hm s f s' hfirst

theorem locate_placed {p : Position} (hp : p.isValid = true) (m : Run σ α) :
    FailsOnly Failure.Placed (m.locate p) := by
  intro s f s' h
  obtain ⟨⟨r, s''⟩, -, hr⟩ := Option.map_eq_some_iff.mp h
  obtain ⟨hfailed, -⟩ := Prod.mk.inj hr
  exact Result.locate_placed hp r f hfailed

end Run

namespace Writing

variable {P : Failure → Prop}

theorem failsOnly_print (s : String) : Run.FailsOnly P (print s) := by
  intro d f d' h
  cases h

theorem failsOnly_newline : Run.FailsOnly P newline := by
  intro d f d' h
  cases h

theorem failsOnly_line (s : String) : Run.FailsOnly P (line s) :=
  (failsOnly_print s).bind fun _ => failsOnly_newline

theorem failsOnly_deeper {m : Writing Unit} (hm : Run.FailsOnly P m) :
    Run.FailsOnly P (deeper m) := by
  intro d f d' h
  obtain ⟨⟨r, d''⟩, hrun, hr⟩ := Option.map_eq_some_iff.mp h
  obtain ⟨rfl, -⟩ := Prod.mk.inj hr
  exact hm _ f d'' hrun

end Writing

namespace Emit

open Writing

theorem failsOnly_emptyLine {P : Failure → Prop} (i : Nat) : Run.FailsOnly P (emptyLine i) := by
  unfold emptyLine
  split
  · exact failsOnly_newline
  · exact Run.failsOnly_pure ()

theorem methodsFrom_placed {ms : List (MethodDecl × List Stmt)}
    (hms : ∀ q ∈ ms, q.1.position.isValid = true) (i : Nat) :
    Run.FailsOnly Failure.Placed (methodsFrom env i ms) := by
  induction ms generalizing i with
  | nil => exact Run.failsOnly_pure ()
  | cons q ms ih =>
    rw [List.forall_mem_cons] at hms
    refine (failsOnly_emptyLine i).bind fun _ => ?_
    exact (Run.locate_placed hms.1 _).bind fun _ => ih hms.2 (i + 1)

/-- What the writing of one item fails with has a place, whatever was written and kept before. -/
theorem item_placed {i : Lower.Item} (hi : i.Planned ds)
    (hds : ∀ d ∈ ds, d.position.isValid = true) : Run.FailsOnly Failure.Placed (item env i) := by
  cases i with
  | function d body => exact Run.locate_placed (hds _ hi.1) _
  | «variable» d => exact Run.locate_placed (hds _ hi) _
  | «class» owner ms =>
    have hms : ∀ q ∈ ms, (Decl.method q.1).position.isValid = true :=
      fun q hq => hds _ (hi.2 q hq).1
    refine (failsOnly_line _).bind fun _ => ?_
    exact (failsOnly_deeper (methodsFrom_placed hms 0)).bind fun _ => failsOnly_line _

theorem itemsFrom_placed {is : List Lower.Item} (his : ∀ i ∈ is, i.Planned ds)
    (hds : ∀ d ∈ ds, d.position.isValid = true) (cancelled : Bool) (n : Nat) :
    Run.FailsOnly Failure.Placed (itemsFrom env cancelled n is) := by
  induction is generalizing n with
  | nil => exact Run.failsOnly_pure ()
  | cons i is ih =>
    rw [List.forall_mem_cons] at his
    unfold itemsFrom
    split
    · intro d f d' h cause p origin hreport
      cases h
      cases hreport
    · refine (failsOnly_emptyLine n).bind fun _ => ?_
      exact (item_placed his.1 hds).bind fun _ => ih his.2 (n + 1)

theorem failsOnly_importLines {P : Failure → Prop} (uris : List String) :
    Run.FailsOnly P (importLines uris) := by
  induction uris with
  | nil => exact Run.failsOnly_pure ()
  | cons uri uris ih => exact (failsOnly_line _).bind fun _ => ih

theorem file_placed {u : SourceUnit} (hu : ∀ d ∈ u.decls, d.position.isValid = true)
    (package : String) (cancelled : Bool) :
    Run.FailsOnly Failure.Placed (file env package cancelled u) := by
  refine (failsOnly_line _).bind fun _ => ?_
  refine (failsOnly_importLines _).bind fun _ => ?_
  refine failsOnly_newline.bind fun _ => ?_
  exact itemsFrom_placed (Lower.planned_of_mem_plan u.decls) hu cancelled 0

theorem generate_placed {u : SourceUnit} (hu : ∀ d ∈ u.decls, d.position.isValid = true)
    (package : String) (cancelled : Bool) :
    Run.FailsOnly Failure.Placed (generate env package cancelled (some u)) := by
  intro layouts f layouts' h
  obtain ⟨⟨r, d⟩, hrun, hr⟩ := Option.map_eq_some_iff.mp h
  obtain ⟨hfailed, -⟩ := Prod.mk.inj hr
  cases r with
  | ok => cases hfailed
  | error g =>
    cases hfailed
    exact file_placed hu package cancelled _ f d hrun

end Emit

end Placed

/-- Whatever a run reports about a unit whose declarations have places has a place: the run that
lowers item by item, and the one that writes as it goes and keeps layouts from one run to the
next. -/
theorem reports_are_placed {u : SourceUnit} (hu : ∀ d ∈ u.decls, d.position.isValid = true)
    (env : TypeEnv) (package : String) (cancelled : Bool) :
    FailsOnly Failure.Placed (Lower.generate env package cancelled (some u)) ∧
      Run.FailsOnly Failure.Placed (Emit.generate env package cancelled (some u)) :=
  ⟨Lower.generate_placed hu package cancelled, Emit.generate_placed hu package cancelled⟩

/-- A record that has no layout, since the length of its array is not known. -/
def openRing : RecordTable :=
  [⟨⟨"ring", false⟩, [⟨"slots", .array (.pointer .void) none true, 0⟩], none⟩]

/-- A method with a local ring. None of its statements has a place. -/
def clearRing : MethodDecl where
  position := ⟨"ring.m", 7, 3⟩
  owner := "Ring"
  selector := "clear"
  params := []
  result := .void
  body := some [.decl {} [{ name := "spare", type := .record ⟨"ring", false⟩ }]]
  classMethod := false

theorem clearRing_report_is_placed :
    ∃ f, Lower.generate (TypeEnv.ofMarkers "" "" openRing) "" false
      (some ⟨"", "", [.method clearRing]⟩) =
        .error f ∧
      f.report? = some (.variableLengthArray, ⟨"ring.m", 7, 3⟩, none) ∧ f.Placed := by
  obtain ⟨f, hf, hreport⟩ : ∃ f, Lower.generate (TypeEnv.ofMarkers "" "" openRing) "" false
      (some ⟨"", "", [.method clearRing]⟩) = .error f ∧
        f.report? = some (.variableLengthArray, ⟨"ring.m", 7, 3⟩, none) := ⟨_, rfl, rfl⟩
  have hplaced : ∀ d ∈ [Decl.method clearRing], d.position.isValid = true := by decide
  exact ⟨f, hf, hreport, (reports_are_placed hplaced _ "" false).1 f hf⟩

section Silent

/-- No node has a place, and no conversion is marked as explicit. -/
def unlabelled : Relabelling := ⟨id, fun _ => {}, fun _ => false⟩

/-- What is told of the first report: its category, its code and its text. -/
def Failure.told? (f : Failure) : Option (String × String × String) :=
  f.report?.map fun r => (r.1.category, r.1.code, r.1.text)

/-- The failures are one, up to the place of the first report. -/
def Failure.SameButPlace (f g : Failure) : Prop := f.moveTo {} = g.moveTo {} ∧ f.told? = g.told?

namespace Failure

theorem moveTo_moveTo (p q : Position) : ∀ f : Failure, (f.moveTo p).moveTo q = f.moveTo q
  | .report _ _ _ | .plain _ | .crash => rfl
  | .wrapped text inner => congrArg (wrapped text) (moveTo_moveTo p q inner)

theorem told?_moveTo (p : Position) (f : Failure) : (f.moveTo p).told? = f.told? := by
  rw [told?, report?_moveTo, Option.map_map]
  rfl

theorem sameButPlace_moveTo (p : Position) (f : Failure) : (f.moveTo p).SameButPlace f :=
  ⟨f.moveTo_moveTo p {}, f.told?_moveTo p⟩

namespace SameButPlace

variable {f g h : Failure}

theorem refl (f : Failure) : f.SameButPlace f := ⟨rfl, rfl⟩

theorem symm (hfg : f.SameButPlace g) : g.SameButPlace f := ⟨hfg.1.symm, hfg.2.symm⟩

theorem trans (hfg : f.SameButPlace g) (hgh : g.SameButPlace h) : f.SameButPlace h :=
  ⟨hfg.1.trans hgh.1, hfg.2.trans hgh.2⟩

theorem locate_self (p : Position) (f : Failure) : (f.locate p).SameButPlace f := by
  unfold Failure.locate
  split
  · split
    · exact f.sameButPlace_moveTo p
    · exact refl f
  · exact refl f

/-- The places that two failures are passed on under may differ. -/
theorem locate (hfg : f.SameButPlace g) (p q : Position) :
    (f.locate p).SameButPlace (g.locate q) :=
  (locate_self p f).trans (hfg.trans (locate_self q g).symm)

end SameButPlace

end Failure

theorem unlabelled_agrees (env : TypeEnv) :
    Agrees unlabelled (fun _ => True) Failure.SameButPlace env env :=
  (TypeEnv.Same.refl env).agrees rfl .refl (fun p _ _ h => h.locate p {}) fun _ _ => ⟨rfl, rfl⟩

/-- A run does with a unit what it does with the unit without labels. -/
theorem generate_unlabelled (env : TypeEnv) (package : String) (cancelled : Bool) (u : SourceUnit) :
    Alike Failure.SameButPlace Eq (Lower.generate env package cancelled (some u))
      (Lower.generate env package cancelled (some (u.relabel unlabelled))) :=
  (unlabelled_agrees env).generate (fun d _ => d.typed fun _ => trivial) package cancelled

/-- Units that differ only in places and in which conversions are explicit have the same output, or
both have none and the failures differ in their places only. -/
theorem labels_are_silent {u u' : SourceUnit} (h : u.relabel unlabelled = u'.relabel unlabelled)
    (env : TypeEnv) (package : String) (cancelled : Bool) :
    Alike Failure.SameButPlace Eq (Lower.generate env package cancelled (some u))
      (Lower.generate env package cancelled (some u')) := by
  have hleft := generate_unlabelled env package cancelled u
  have hright := generate_unlabelled env package cancelled u'
  rw [← h] at hright
  exact hleft.trans (fun _ _ _ => .trans) (fun _ _ _ => .trans) (hright.symm fun _ _ => .symm)

/-- A function that narrows a number, whose nodes all stand at one place. -/
def narrow (p : Position) (isExplicit : Bool) : FuncDecl :=
  let wide : CType := .scalar ⟨.long, 64, true⟩
  let word : CType := .scalar ⟨.int, 32, true⟩
  { position := p
    name := "narrow"
    params := [⟨p, "x", wide⟩]
    result := word
    body := some [.ret p (some (.cast { position := p, type := some word } .integralCast
      (.ref { position := p, type := some wide } "x" .parameter) isExplicit))]
    bodyPosition := p
    variadic := false
    entry := false }

def clearRingBelow : MethodDecl := { clearRing with position := ⟨"ring.m", 9, 1⟩ }

theorem narrow_labels_are_silent :
    (∃ text, Lower.generate (TypeEnv.ofMarkers "" "" []) "" false
        (some ⟨"", "", [.func (narrow ⟨"narrow.m", 2, 5⟩ true)]⟩) = .ok text ∧
      Lower.generate (TypeEnv.ofMarkers "" "" []) "" false
        (some ⟨"", "", [.func (narrow {} false)]⟩) = .ok text) ∧
    ∃ f g, Lower.generate (TypeEnv.ofMarkers "" "" openRing) "" false
        (some ⟨"", "", [.method clearRing]⟩) = .error f ∧
      Lower.generate (TypeEnv.ofMarkers "" "" openRing) "" false
        (some ⟨"", "", [.method clearRingBelow]⟩) = .error g ∧
      f.report? = some (.variableLengthArray, ⟨"ring.m", 7, 3⟩, none) ∧
      g.report? = some (.variableLengthArray, ⟨"ring.m", 9, 1⟩, none) ∧ f.SameButPlace g := by
  have hnarrow : SourceUnit.relabel unlabelled ⟨"", "", [.func (narrow ⟨"narrow.m", 2, 5⟩ true)]⟩ =
      SourceUnit.relabel unlabelled ⟨"", "", [.func (narrow {} false)]⟩ := rfl
  have hclear : SourceUnit.relabel unlabelled ⟨"", "", [.method clearRing]⟩ =
      SourceUnit.relabel unlabelled ⟨"", "", [.method clearRingBelow]⟩ := rfl
  constructor
  · obtain ⟨text, htext⟩ : ∃ text, Lower.generate (TypeEnv.ofMarkers "" "" []) "" false
        (some ⟨"", "", [.func (narrow ⟨"narrow.m", 2, 5⟩ true)]⟩) = .ok text := ⟨_, rfl⟩
    exact ⟨text, htext,
      (labels_are_silent hnarrow (TypeEnv.ofMarkers "" "" []) "" false).eq_ok htext⟩
  · obtain ⟨f, g, hf, hg, hfirst, hsecond⟩ :
        ∃ f g, Lower.generate (TypeEnv.ofMarkers "" "" openRing) "" false
            (some ⟨"", "", [.method clearRing]⟩) = .error f ∧
          Lower.generate (TypeEnv.ofMarkers "" "" openRing) "" false
            (some ⟨"", "", [.method clearRingBelow]⟩) = .error g ∧
          f.report? = some (.variableLengthArray, ⟨"ring.m", 7, 3⟩, none) ∧
          g.report? = some (.variableLengthArray, ⟨"ring.m", 9, 1⟩, none) :=
      ⟨_, _, rfl, rfl, rfl, rfl⟩
    have hplace :=
      (labels_are_silent hclear (TypeEnv.ofMarkers "" "" openRing) "" false).of_errors hf hg
    exact ⟨f, g, hf, hg, hfirst, hsecond, hplace⟩

end Silent

end DartLowering
