import DartLowering.Lower.Stmt
import DartLowering.Proofs.Result
import Mathlib.Data.List.Nodup
import Mathlib.Data.List.Perm.Basic

/-!
Falling through a switch. In the source control enters at the selected case and runs on into the
next ones until a body leaves by a jump. The emitted cases stand in another order and never run on:
each names the case to go on with. The two runs pass through the same bodies in the same order, for
every outcome of the bodies. The proof lists the emitted cases in source order first; the actual
list is a permutation of that one, and labels and selectors find the same case in both.
-/
namespace DartLowering

/-- What selects a case of the source; nothing where its label is no constant. -/
def SwitchCase.selector? (env : TypeEnv) (c : SwitchCase) : Option Selector :=
  match c.label with
  | none => some .default
  | some label => (env.constant? label).map .value

/-- Control never gets past such a statement. -/
def Stmt.isJump : Stmt → Bool
  | .brk _ | .cont _ | .ret _ _ => true
  | _ => false

namespace CodeCase

def label : CodeCase → String
  | .mk label _ _ => label

def selector : CodeCase → Selector
  | .mk _ selector _ => selector

def body : CodeCase → List CodeStmt
  | .mk _ _ body => body

def isDefault (d : CodeCase) : Bool := d.selector = .default

end CodeCase

namespace Fallthrough

open Lower

variable {completes : Selector → Bool} {d : CodeCase} {env : TypeEnv} {scope : Scope}
  {labels : List Nat} {cs cases : List SwitchCase} {ds : List CodeCase}

/-- The cases from the selected one on. -/
def startingAt (env : TypeEnv) (s : Selector) (cases : List SwitchCase) : List SwitchCase :=
  cases.dropWhile fun c => c.selector? env ≠ some s

/-- The cases from the one that the subject enters on: its own, or else the default. -/
def entered (env : TypeEnv) (subject : Int64) (cases : List SwitchCase) : List SwitchCase :=
  match startingAt env (.value subject) cases with
  | [] => startingAt env .default cases
  | c :: cs => c :: cs

/-- The cases that control passes through from the first on. `completes` tells of each body,
named by what selects it, whether it runs to its end or leaves by a jump before. -/
def passed (env : TypeEnv) (completes : Selector → Bool) : List SwitchCase → List SwitchCase
  | [] => []
  | c :: cs => c :: if (c.selector? env).any completes then passed env completes cs else []

/-- The run of a switch of the source. -/
def sourceRun (env : TypeEnv) (completes : Selector → Bool) (subject : Int64)
    (cases : List SwitchCase) : List SwitchCase :=
  passed env completes (entered env subject cases)

/-- The emitted case that a subject selects. -/
def selected? (cases : List CodeCase) (subject : Int64) : Option CodeCase :=
  (cases.find? fun d => d.selector = .value subject).or (cases.find? CodeCase.isDefault)

/-- Finite runs of an emitted switch that enter at a case. A body that completes gets to its last
statement, which leaves the switch or names the label of the case to go on with. -/
inductive RunsFrom (cases : List CodeCase) (completes : Selector → Bool) :
    CodeCase → List CodeCase → Prop
  | jumps {d : CodeCase} (hout : completes d.selector = false) : RunsFrom cases completes d [d]
  | leaves {d : CodeCase} (hend : completes d.selector = true)
      (hexit : d.body.getLast? = some .brk) : RunsFrom cases completes d [d]
  | goesOn {d next : CodeCase} {label : String} {ran : List CodeCase}
      (hend : completes d.selector = true) (hexit : d.body.getLast? = some (.contAt label))
      (hnext : (cases.find? fun c => c.label = label) = some next)
      (hran : RunsFrom cases completes next ran) : RunsFrom cases completes d (d :: ran)

/-- The run of an emitted switch; without a selected case nothing runs. -/
def EmittedRun (cases : List CodeCase) (completes : Selector → Bool) (subject : Int64)
    (ran : List CodeCase) : Prop :=
  match selected? cases subject with
  | none => ran = []
  | some d => RunsFrom cases completes d ran

/-- An emitted case is selected like the case of the source and holds its body, with at most an
exit after it. -/
structure Renders (env : TypeEnv) (scope : Scope) (c : SwitchCase) (d : CodeCase) : Prop where
  selector : c.selector? env = some d.selector
  body : ∃ code exit,
    stmts env { scope with switchDepth := scope.switchDepth + 1 } c.body = .ok code ∧
      d.body = code ++ exit ∧ (exit = [] ∨ exit = [.brk] ∨ ∃ label, exit = [.contAt label])

theorem RunsFrom.unique {cases : List CodeCase} {ran ran' : List CodeCase}
    (h : RunsFrom cases completes d ran) (h' : RunsFrom cases completes d ran') : ran' = ran := by
  induction h generalizing ran' with
  | jumps hout =>
    cases h' with
    | jumps => rfl
    | leaves hend | goesOn hend => simp [hout] at hend
  | leaves hend hexit =>
    cases h' with
    | jumps hout => simp [hend] at hout
    | leaves => rfl
    | goesOn _ hexit' => simp [hexit] at hexit'
  | goesOn hend hexit hnext _ ih =>
    cases h' with
    | jumps hout => simp [hend] at hout
    | leaves _ hexit' => simp [hexit] at hexit'
    | goesOn _ hexit' hnext' hran' =>
      rw [hexit, Option.some.injEq, CodeStmt.contAt.injEq] at hexit'
      subst hexit'
      rw [hnext, Option.some.injEq] at hnext'
      subst hnext'
      rw [ih hran']

/-- The emitted cases in source order. -/
inductive Lowered (env : TypeEnv) (scope : Scope) :
    List Nat → List SwitchCase → List CodeCase → Prop
  | nil : Lowered env scope [] [] []
  | cons {label : Nat} {labels : List Nat} {c : SwitchCase} {cs : List SwitchCase}
      {ds : List CodeCase} {s : Selector} {code : List CodeStmt}
      (hselector : c.selector? env = some s)
      (hbody : stmts env { scope with switchDepth := scope.switchDepth + 1 } c.body = .ok code)
      (hrest : Lowered env scope labels cs ds) :
      Lowered env scope (label :: labels) (c :: cs)
        (.mk (switchLabel scope.switchDepth label) s
          (code ++ caseExit scope.switchDepth labels c.body) :: ds)

theorem Lowered.renders {c : SwitchCase} (h : Lowered env scope labels (c :: cs) (d :: ds)) :
    Renders env scope c d := by
  cases h with
  | @cons label labels _ _ _ s code hselector hbody hrest =>
    refine ⟨hselector, code, caseExit scope.switchDepth labels c.body, hbody, rfl, ?_⟩
    unfold caseExit
    split
    · exact Or.inl rfl
    · cases labels with
      | nil => exact Or.inr (Or.inl rfl)
      | cons next rest => exact Or.inr (Or.inr ⟨_, rfl⟩)

theorem Lowered.labels_eq (h : Lowered env scope labels cs ds) :
    ds.map CodeCase.label = labels.map (switchLabel scope.switchDepth) := by
  induction h with
  | nil => rfl
  | cons _ _ _ ih => simp only [List.map_cons, ih, CodeCase.label]

theorem Lowered.selectors_eq (h : Lowered env scope labels cs ds) :
    cs.map (SwitchCase.selector? env) = (ds.map CodeCase.selector).map some := by
  induction h with
  | nil => rfl
  | cons hselector _ _ ih => simp only [List.map_cons, ih, hselector, CodeCase.selector]

theorem isDefault_iff (env : TypeEnv) (c : SwitchCase) :
    c.isDefault = true ↔ c.selector? env = some .default := by
  cases hc : c.label with
  | none | some => simp [SwitchCase.isDefault, SwitchCase.selector?, hc]

/-- The two lists of emitted cases are the list in source order without and with only the
default. -/
theorem lowered_of_emitted {explicit default : List CodeCase} (hlength : labels.length = cs.length)
    (hexplicit : explicitCases env scope labels cs = .ok explicit)
    (hdefault : defaultCases env scope labels cs = .ok default) :
    ∃ ds, Lowered env scope labels cs ds ∧
      explicit = ds.filter (fun d => !d.isDefault) ∧ default = ds.filter CodeCase.isDefault := by
  induction cs generalizing labels explicit default with
  | nil =>
    obtain rfl : labels = [] := List.length_eq_zero_iff.mp hlength
    simp only [explicitCases, Except.ok.injEq] at hexplicit
    simp only [defaultCases, Except.ok.injEq] at hdefault
    exact ⟨[], .nil, hexplicit.symm, hdefault.symm⟩
  | cons c cs ih =>
    obtain ⟨label, labels, rfl⟩ := List.exists_cons_of_length_eq_add_one hlength
    have hrest : labels.length = cs.length := by simpa using hlength
    obtain ⟨position, value, body⟩ := c
    cases value with
    | none =>
      rw [explicitCases] at hexplicit
      rw [defaultCases] at hdefault
      simp only [Result.bind_eq_ok, Result.locate_eq_ok, Except.ok.injEq] at hdefault
      obtain ⟨code, hcode, rest, hdefault, rfl⟩ := hdefault
      obtain ⟨ds, hds, rfl, rfl⟩ := ih hrest hexplicit hdefault
      exact ⟨_, .cons (c := .mk position none body) rfl hcode hds, rfl, rfl⟩
    | some value =>
      rw [explicitCases] at hexplicit
      rw [defaultCases] at hdefault
      simp only [Result.bind_eq_ok, Result.locate_eq_ok, Except.ok.injEq] at hexplicit
      obtain ⟨v, hv, code, hcode, rest, hexplicit, rfl⟩ := hexplicit
      obtain ⟨ds, hds, rfl, rfl⟩ := ih hrest hexplicit hdefault
      have hselector :
          (SwitchCase.mk position (some value) body).selector? env = some (.value v) := by
        unfold caseValue at hv
        split at hv
        · rename_i w hw
          cases hv
          simp [SwitchCase.selector?, SwitchCase.label, hw]
        · cases hv
      exact ⟨_, .cons hselector hcode hds, rfl, rfl⟩

theorem emitted_of_lowered (h : Lowered env scope labels cs ds) :
    explicitCases env scope labels cs = .ok (ds.filter fun d => !d.isDefault) ∧
      defaultCases env scope labels cs = .ok (ds.filter CodeCase.isDefault) := by
  induction h with
  | nil => exact ⟨by simp [explicitCases], by simp [defaultCases]⟩
  | @cons label labels c cs ds s code hselector hbody hrest ih =>
    obtain ⟨hexplicit, hdefault⟩ := ih
    obtain ⟨position, value, body⟩ := c
    simp only [SwitchCase.body] at hbody
    cases value with
    | none =>
      cases hselector
      rw [explicitCases, defaultCases, hexplicit, hdefault, hbody]
      exact ⟨rfl, rfl⟩
    | some value =>
      simp only [SwitchCase.selector?, SwitchCase.label, Option.map_eq_some_iff] at hselector
      obtain ⟨v, hv, rfl⟩ := hselector
      rw [explicitCases, defaultCases, hexplicit, hdefault, hbody, caseValue, hv]
      exact ⟨rfl, rfl⟩

theorem exists_lowered (hlength : labels.length = cs.length)
    (hselectors : ∀ c ∈ cs, (c.selector? env).isSome)
    (hbodies : ∀ c ∈ cs, ∃ code,
      stmts env { scope with switchDepth := scope.switchDepth + 1 } c.body = .ok code) :
    ∃ ds, Lowered env scope labels cs ds := by
  induction cs generalizing labels with
  | nil =>
    obtain rfl : labels = [] := List.length_eq_zero_iff.mp hlength
    exact ⟨[], .nil⟩
  | cons c cs ih =>
    obtain ⟨label, labels, rfl⟩ := List.exists_cons_of_length_eq_add_one hlength
    simp only [List.forall_mem_cons] at hselectors hbodies
    obtain ⟨s, hs⟩ := Option.isSome_iff_exists.mp hselectors.1
    obtain ⟨code, hcode⟩ := hbodies.1
    obtain ⟨ds, hds⟩ := ih (by simpa using hlength) hselectors.2 hbodies.2
    exact ⟨_, .cons hs hcode hds⟩

theorem Lowered.bodies (h : Lowered env scope labels cs ds) :
    ∀ c ∈ cs, ∃ code,
      stmts env { scope with switchDepth := scope.switchDepth + 1 } c.body = .ok code := by
  induction h with
  | nil => simp
  | cons _ hbody _ ih => exact List.forall_mem_cons.mpr ⟨⟨_, hbody⟩, ih⟩

theorem labelsFrom_length (total next : Nat) (cs : List SwitchCase) :
    (labelsFrom total next cs).length = cs.length := by
  induction cs generalizing next with
  | nil => rfl
  | cons c cs ih =>
    unfold labelsFrom
    split <;> simp [ih]

theorem mem_labelsFrom {total next label : Nat} (h : label ∈ labelsFrom total next cs) :
    (label = total + 1 ∧ cs.any SwitchCase.isDefault) ∨
      (next ≤ label ∧ label < next + cs.countP fun c => !c.isDefault) := by
  induction cs generalizing next with
  | nil => simp [labelsFrom] at h
  | cons c cs ih =>
    unfold labelsFrom at h
    by_cases hc : c.isDefault
    · simp only [hc, if_true, List.mem_cons] at h
      rcases h with h | h
      · exact Or.inl ⟨h, by simp [hc]⟩
      · rcases ih h with ⟨hl, ha⟩ | hl
        · exact Or.inl ⟨hl, by simp [hc]⟩
        · exact Or.inr (by simpa [hc] using hl)
    · simp only [hc, Bool.false_eq_true, if_false, List.mem_cons] at h
      rcases h with h | h
      · exact Or.inr (by simp [hc, h])
      · rcases ih h with ⟨hl, ha⟩ | hl
        · exact Or.inl ⟨hl, by simpa [hc] using ha⟩
        · refine Or.inr ?_
          simp only [hc, Bool.not_false, List.countP_cons_of_pos]
          omega

theorem labelsFrom_nodup {total next : Nat} (hdefault : (cs.filter SwitchCase.isDefault).length ≤ 1)
    (htotal : next + cs.countP (fun c => !c.isDefault) ≤ total + 1) :
    (labelsFrom total next cs).Nodup := by
  induction cs generalizing next with
  | nil => exact List.nodup_nil
  | cons c cs ih =>
    unfold labelsFrom
    by_cases hc : c.isDefault
    · have hnone : cs.any SwitchCase.isDefault = false := by
        simp only [hc, List.filter_cons_of_pos, List.length_cons] at hdefault
        have hnil : cs.filter SwitchCase.isDefault = [] :=
          List.length_eq_zero_iff.mp (by omega)
        simpa using List.filter_eq_nil_iff.mp hnil
      simp only [hc, if_true, List.nodup_cons]
      simp only [hc, Bool.not_true, Bool.false_eq_true, not_false_eq_true, List.countP_cons_of_neg]
        at htotal
      refine ⟨fun hmem => ?_, ih ?_ htotal⟩
      · rcases mem_labelsFrom hmem with ⟨_, ha⟩ | hl
        · simp [hnone] at ha
        · omega
      · simp only [hc, List.filter_cons_of_pos, List.length_cons] at hdefault
        omega
    · simp only [hc, Bool.false_eq_true, if_false, List.nodup_cons]
      simp only [hc, Bool.not_false, List.countP_cons_of_pos] at htotal
      refine ⟨fun hmem => ?_, ih (by simpa [hc] using hdefault) (by omega)⟩
      rcases mem_labelsFrom hmem with ⟨hl, _⟩ | hl
      · omega
      · omega

theorem caseLabels_nodup (hdefault : (cases.filter SwitchCase.isDefault).length ≤ 1) :
    (caseLabels cases).Nodup :=
  labelsFrom_nodup hdefault (by omega)

theorem decimalNat_injective : Function.Injective Text.decimalNat := by
  intro m n h
  have hdigits : Nat.toDigits 10 m = Nat.toDigits 10 n := String.ofList_injective h
  have hvalue := congrArg (fun cs => Nat.ofDigitChars 10 cs 0) hdigits
  simpa only [Nat.ofDigitChars_ten_toDigits] using hvalue

theorem switchLabel_injective (depth : Nat) : Function.Injective (switchLabel depth) := by
  intro m n h
  unfold switchLabel at h
  split at h
  · exact decimalNat_injective ((String.append_right_inj _).mp h)
  · exact decimalNat_injective ((String.append_right_inj _).mp h)

/-- A key that no two elements share finds its element. -/
theorem find?_key {α β : Type} [DecidableEq β] {key : α → β} {l : List α} {a : α}
    (hkeys : (l.map key).Nodup) (ha : a ∈ l) : l.find? (fun b => key b = key a) = some a := by
  induction l with
  | nil => simp at ha
  | cons b l ih =>
    simp only [List.map_cons, List.nodup_cons] at hkeys
    rcases List.mem_cons.mp ha with rfl | ha
    · simp
    · have hne : key b ≠ key a := fun h => hkeys.1 (h ▸ List.mem_map_of_mem ha)
      rw [List.find?_cons_of_neg (by simpa using hne)]
      exact ih hkeys.2 ha

theorem endsInJump_eq (body : List Stmt) : endsInJump body = body.getLast?.any Stmt.isJump := by
  unfold endsInJump
  cases body.getLast? with
  | none => rfl
  | some s => cases s <;> rfl

/-- From each case on, the emitted switch passes through the code of the bodies that the source
passes through, as long as labels lead to the cases that carry them. -/
theorem runsFrom_lowered {emitted : List CodeCase} (h : Lowered env scope labels cs ds)
    (hfind : ∀ d ∈ ds, (emitted.find? fun c => c.label = d.label) = some d)
    (hjumps : ∀ c ∈ cs, c.body.getLast?.any Stmt.isJump → (c.selector? env).any completes = false)
    {rest : List CodeCase} (hds : ds = d :: rest) :
    ∃ ran, RunsFrom emitted completes d ran ∧
      List.Forall₂ (Renders env scope) (passed env completes cs) ran := by
  induction h generalizing d rest with
  | nil => cases hds
  | @cons label labels c cs ds s code hselector hbody hrest ih =>
    have hlowered : Lowered env scope (label :: labels) (c :: cs) (_ :: ds) :=
      .cons hselector hbody hrest
    have hrenders := hlowered.renders
    cases hds
    simp only [List.forall_mem_cons] at hfind hjumps
    simp only [passed, hselector, Option.any_some] at hjumps ⊢
    cases hend : completes s with
    | false =>
      refine ⟨_, .jumps hend, ?_⟩
      simpa using hrenders
    | true =>
      have hfalls : endsInJump c.body = false := by
        rw [endsInJump_eq, ← Bool.not_eq_true]
        intro hjump
        exact absurd (hjumps.1 hjump) (by simp [hend])
      -- the label after this one is that of the next case of the source, if there is one
      cases hrest with
      | nil =>
        refine ⟨_, .leaves hend (by simp [CodeCase.body, caseExit, hfalls]), ?_⟩
        simpa [passed] using hrenders
      | @cons next labels c' cs ds s' code' hselector' hbody' hrest' =>
        obtain ⟨ran, hran, hforall⟩ := ih hfind.2 hjumps.2 rfl
        have hnext := (List.forall_mem_cons.mp hfind.2).1
        refine ⟨_, .goesOn hend ?_ hnext hran, .cons hrenders hforall⟩
        simp [CodeCase.body, CodeCase.label, caseExit, hfalls]

/-- Entering at a selector: the source has no such case and neither has the emitted switch, or both
go on from corresponding cases. -/
theorem startingAt_lowered (h : Lowered env scope labels cs ds) (s : Selector) :
    (startingAt env s cs = [] ∧ ∀ d ∈ ds, d.selector ≠ s) ∨
      ∃ labels' d rest, Lowered env scope labels' (startingAt env s cs) (d :: rest) ∧
        startingAt env s cs ≠ [] ∧ d.selector = s ∧ d :: rest <:+ ds := by
  induction h with
  | nil => exact Or.inl ⟨rfl, by simp⟩
  | @cons label labels c cs ds t code hselector hbody hrest ih =>
    by_cases hs : t = s
    · subst hs
      have hstart : startingAt env t (c :: cs) = c :: cs := by simp [startingAt, hselector]
      rw [hstart]
      exact Or.inr ⟨_, _, _, .cons hselector hbody hrest, by simp, rfl, List.suffix_rfl⟩
    · have hstart : startingAt env s (c :: cs) = startingAt env s cs := by
        simp [startingAt, hselector, hs]
      rw [hstart]
      rcases ih with ⟨hnil, hall⟩ | ⟨labels', d, rest, hd, hne, hsel, hsuffix⟩
      · exact Or.inl ⟨hnil, List.forall_mem_cons.mpr ⟨hs, hall⟩⟩
      · exact Or.inr ⟨labels', d, rest, hd, hne, hsel, hsuffix.trans (List.suffix_cons _ _)⟩

/-- The emitted order of cases: those with a value first, the default last. -/
def emittedOrder (ds : List CodeCase) : List CodeCase :=
  ds.filter (fun d => !d.isDefault) ++ ds.filter CodeCase.isDefault

theorem emittedOrder_perm (ds : List CodeCase) : (emittedOrder ds).Perm ds := by
  have h := List.filter_append_perm (fun d : CodeCase => !d.isDefault) ds
  simpa only [emittedOrder, Bool.not_not] using h

theorem default_last (hds : (ds.map CodeCase.selector).Nodup) :
    ∀ d ∈ (emittedOrder ds).dropLast, d.isDefault = false := by
  have hshort : (ds.filter CodeCase.isDefault).length ≤ 1 := by
    have hsub := (List.filter_sublist (p := CodeCase.isDefault) (l := ds)).map CodeCase.selector
    have hnodup := hsub.nodup hds
    have hsame : ∀ s ∈ (ds.filter CodeCase.isDefault).map CodeCase.selector, s = .default := by
      intro s hs
      obtain ⟨d, hd, rfl⟩ := List.mem_map.mp hs
      simpa [CodeCase.isDefault] using List.of_mem_filter hd
    have hrep := List.eq_replicate_of_mem hsame
    rw [hrep, List.nodup_replicate, List.length_map] at hnodup
    exact hnodup
  have hall : ∀ d ∈ ds.filter (fun d => !d.isDefault), d.isDefault = false := by simp
  intro d hd
  unfold emittedOrder at hd
  match hlast : ds.filter CodeCase.isDefault, hshort with
  | [], _ =>
    rw [hlast, List.append_nil] at hd
    exact hall d ((List.dropLast_sublist _).subset hd)
  | [e], _ =>
    rw [hlast, List.dropLast_concat] at hd
    exact hall d hd

theorem selected?_eq {emitted : List CodeCase} (hkeys : (emitted.map CodeCase.selector).Nodup)
    (hd : d ∈ emitted) {s : Selector} (hs : d.selector = s) :
    (emitted.find? fun c => c.selector = s) = some d := by
  subst hs
  exact find?_key hkeys hd

theorem emittedRun_lowered (h : Lowered env scope labels cs ds) (hlabels : labels.Nodup)
    (hselectors : (ds.map CodeCase.selector).Nodup)
    (hjumps : ∀ c ∈ cs, c.body.getLast?.any Stmt.isJump → (c.selector? env).any completes = false)
    (subject : Int64) :
    ∃ ran, EmittedRun (emittedOrder ds) completes subject ran ∧
      List.Forall₂ (Renders env scope) (sourceRun env completes subject cs) ran := by
  have hperm := emittedOrder_perm ds
  have hlabelKeys : ((emittedOrder ds).map CodeCase.label).Nodup := by
    rw [(hperm.map _).nodup_iff, h.labels_eq]
    exact hlabels.map (switchLabel_injective _)
  have hselectorKeys : ((emittedOrder ds).map CodeCase.selector).Nodup :=
    (hperm.map _).nodup_iff.mpr hselectors
  have hfind : ∀ d ∈ ds, ((emittedOrder ds).find? fun c => c.label = d.label) = some d :=
    fun d hd => find?_key hlabelKeys (hperm.mem_iff.mpr hd)
  -- a selector is missing on both sides, or the runs from where it enters agree
  have hstart : ∀ s, (startingAt env s cs = [] ∧
      ((emittedOrder ds).find? fun c => c.selector = s) = none) ∨
      ∃ d ran, startingAt env s cs ≠ [] ∧
        ((emittedOrder ds).find? fun c => c.selector = s) = some d ∧
        RunsFrom (emittedOrder ds) completes d ran ∧
        List.Forall₂ (Renders env scope) (passed env completes (startingAt env s cs)) ran := by
    intro s
    rcases startingAt_lowered h s with ⟨hnil, hall⟩ | ⟨labels', d, rest, hd, hne, hs, hsuffix⟩
    · refine Or.inl ⟨hnil, ?_⟩
      simpa using fun d hd => hall d (hperm.mem_iff.mp hd)
    · have hmem : d ∈ ds := hsuffix.subset (List.mem_cons_self ..)
      obtain ⟨ran, hran, hforall⟩ := runsFrom_lowered hd
        (fun e he => hfind e (hsuffix.subset he))
        (fun c hc => hjumps c ((List.dropWhile_suffix _).subset hc)) rfl
      exact Or.inr ⟨d, ran, hne, selected?_eq hselectorKeys (hperm.mem_iff.mpr hmem) hs, hran,
        hforall⟩
  have hdefault : ((emittedOrder ds).find? CodeCase.isDefault) =
      (emittedOrder ds).find? fun c => c.selector = .default := rfl
  simp only [EmittedRun, selected?, sourceRun, hdefault]
  rcases hstart (.value subject) with ⟨hnil, hnone⟩ | ⟨d, ran, hne, hd, hran, hforall⟩
  · have hentered : entered env subject cs = startingAt env .default cs := by
      simp [entered, hnil]
    rw [hentered, hnone, Option.none_or]
    rcases hstart .default with ⟨hnil', hnone'⟩ | ⟨d, ran, _, hd, hran, hforall⟩
    · rw [hnil', hnone']
      exact ⟨[], rfl, .nil⟩
    · rw [hd]
      exact ⟨ran, hran, hforall⟩
  · have hentered : entered env subject cs = startingAt env (.value subject) cs := by
      obtain ⟨c, cs', hcs⟩ := List.exists_cons_of_ne_nil hne
      simp [entered, hcs]
    rw [hentered, hd, Option.some_or]
    exact ⟨ran, hran, hforall⟩

theorem EmittedRun.unique {cases : List CodeCase} {subject : Int64} {ran ran' : List CodeCase}
    (h : EmittedRun cases completes subject ran) (h' : EmittedRun cases completes subject ran') :
    ran' = ran := by
  unfold EmittedRun at h h'
  cases hs : selected? cases subject with
  | none =>
    rw [hs] at h h'
    exact h'.trans h.symm
  | some d =>
    rw [hs] at h h'
    exact RunsFrom.unique h h'

/-- At most one default, and labels that are pairwise distinct constants. -/
structure DistinctLabels (env : TypeEnv) (cases : List SwitchCase) : Prop where
  oneDefault : (cases.filter SwitchCase.isDefault).length ≤ 1
  constant : ∀ label ∈ cases.filterMap SwitchCase.label, (env.constant? label).isSome
  distinct : ((cases.filterMap SwitchCase.label).map env.constant?).Nodup

theorem DistinctLabels.selector_isSome (h : DistinctLabels env cases) :
    ∀ c ∈ cases, (c.selector? env).isSome := by
  intro c hc
  cases hlabel : c.label with
  | none => simp [SwitchCase.selector?, hlabel]
  | some label =>
    have hsome := h.constant label (List.mem_filterMap.mpr ⟨c, hc, hlabel⟩)
    simpa [SwitchCase.selector?, hlabel] using hsome

theorem DistinctLabels.of_cons {c : SwitchCase} (h : DistinctLabels env (c :: cs)) :
    DistinctLabels env cs := by
  obtain ⟨hdefault, hconstant, hdistinct⟩ := h
  have hsub := (List.sublist_cons_self c cs).filterMap SwitchCase.label
  refine ⟨?_, fun label hl => hconstant label (hsub.subset hl), (hsub.map _).nodup hdistinct⟩
  exact Nat.le_trans ((List.sublist_cons_self c cs).filter _).length_le hdefault

theorem DistinctLabels.selectors_nodup (h : DistinctLabels env cases) :
    (cases.map (SwitchCase.selector? env)).Nodup := by
  induction cases with
  | nil => exact List.nodup_nil
  | cons c cs ih =>
    rw [List.map_cons, List.nodup_cons]
    refine ⟨fun hmem => ?_, ih h.of_cons⟩
    obtain ⟨c', hc', heq⟩ := List.mem_map.mp hmem
    cases hlabel : c.label with
    | none =>
      -- a second default
      have hc : c.isDefault = true := by simp [SwitchCase.isDefault, hlabel]
      have hd : c'.isDefault = true := by
        rw [isDefault_iff env, heq, ← isDefault_iff env]
        exact hc
      have hone := h.oneDefault
      rw [List.filter_cons_of_pos hc, List.length_cons] at hone
      have hpos := List.length_pos_of_mem (List.mem_filter.mpr ⟨hc', hd⟩)
      omega
    | some label =>
      have hdistinct := h.distinct
      rw [List.filterMap_cons_some hlabel, List.map_cons, List.nodup_cons] at hdistinct
      obtain ⟨v, hv⟩ := Option.isSome_iff_exists.mp
        (h.constant label (List.mem_filterMap.mpr ⟨c, List.mem_cons_self .., hlabel⟩))
      have hvalue : c'.selector? env = some (.value v) := by
        rw [heq]
        simp [SwitchCase.selector?, hlabel, hv]
      cases hlabel' : c'.label with
      | none => simp [SwitchCase.selector?, hlabel'] at hvalue
      | some label' =>
        have hv' : env.constant? label' = some v := by
          simpa [SwitchCase.selector?, hlabel'] using hvalue
        apply hdistinct.1
        rw [hv, ← hv']
        exact List.mem_map_of_mem (List.mem_filterMap.mpr ⟨c', hc', hlabel'⟩)

/-- What an emitted switch consists of. -/
theorem stmt_switch_eq_ok {inBlock : Bool} {position : Position} {cond : Expr}
    {out : List CodeStmt} : stmt env scope inBlock (.switch position cond cases) = .ok out ↔
      (cases.filter SwitchCase.isDefault).length ≤ 1 ∧
        ∃ code ds, expr env scope false cond = .ok code ∧
          Lowered env scope (caseLabels cases) cases ds ∧
          out = [.switch (.invoke (asReceiver env cond code) "intValue" []) (emittedOrder ds)] := by
  have hlength : (caseLabels cases).length = cases.length := labelsFrom_length ..
  rw [stmt, Result.locate_eq_ok]
  have hone : secondDefault? cases = none ↔ (cases.filter SwitchCase.isDefault).length ≤ 1 := by
    rw [secondDefault?, List.getElem?_eq_none_iff]
  cases hsecond : secondDefault? cases with
  | some c =>
    have hnot : ¬ (cases.filter SwitchCase.isDefault).length ≤ 1 := by simp [← hone, hsecond]
    simp [hnot]
  | none =>
    simp only [hone.mp hsecond, true_and, Result.bind_eq_ok, Except.ok.injEq]
    constructor
    · rintro ⟨code, hcode, explicit, hexplicit, default, hdefault, rfl⟩
      obtain ⟨ds, hds, rfl, rfl⟩ := lowered_of_emitted hlength hexplicit hdefault
      exact ⟨code, ds, hcode, hds, rfl⟩
    · rintro ⟨code, ds, hcode, hds, rfl⟩
      obtain ⟨hexplicit, hdefault⟩ := emitted_of_lowered hds
      exact ⟨code, hcode, _, hexplicit, _, hdefault, rfl⟩

/-- A switch is emitted when its subject and its bodies are, and then the emitted cases run the
bodies that the source runs, in the same order and for every subject and outcome of the bodies: the
run exists, is finite and is the only one. A body that ends in a jump does not complete. -/
theorem emitted_switch_runs_as_source (env : TypeEnv) (scope : Scope) (inBlock : Bool)
    (position : Position) (cond : Expr) (cases : List SwitchCase)
    (hlabels : DistinctLabels env cases) :
    ((∃ out, stmt env scope inBlock (.switch position cond cases) = .ok out) ↔
      (∃ code, expr env scope false cond = .ok code) ∧
        ∀ c ∈ cases, ∃ code,
          stmts env { scope with switchDepth := scope.switchDepth + 1 } c.body = .ok code) ∧
    ∀ out, stmt env scope inBlock (.switch position cond cases) = .ok out →
      ∃ code emitted, expr env scope false cond = .ok code ∧
        out = [.switch (.invoke (asReceiver env cond code) "intValue" []) emitted] ∧
        (∀ d ∈ emitted.dropLast, d.isDefault = false) ∧
        ∀ completes subject,
          (∀ c ∈ cases, c.body.getLast?.any Stmt.isJump →
            (c.selector? env).any completes = false) →
          ∃ ran, (∀ ran', EmittedRun emitted completes subject ran' ↔ ran' = ran) ∧
            List.Forall₂ (Renders env scope) (sourceRun env completes subject cases) ran := by
  have hlength : (caseLabels cases).length = cases.length := labelsFrom_length ..
  constructor
  · constructor
    · rintro ⟨out, hout⟩
      obtain ⟨_, code, ds, hcode, hds, _⟩ := stmt_switch_eq_ok.mp hout
      exact ⟨⟨code, hcode⟩, hds.bodies⟩
    · rintro ⟨⟨code, hcode⟩, hbodies⟩
      obtain ⟨ds, hds⟩ := exists_lowered hlength hlabels.selector_isSome hbodies
      exact ⟨_, stmt_switch_eq_ok.mpr ⟨hlabels.oneDefault, code, ds, hcode, hds, rfl⟩⟩
  · intro out hout
    obtain ⟨hdefault, code, ds, hcode, hds, rfl⟩ := stmt_switch_eq_ok.mp hout
    have hselectors : (ds.map CodeCase.selector).Nodup := by
      have h := hlabels.selectors_nodup
      rw [hds.selectors_eq] at h
      exact List.Nodup.of_map _ h
    refine ⟨code, emittedOrder ds, hcode, rfl, default_last hselectors, ?_⟩
    intro completes subject hjumps
    obtain ⟨ran, hran, hforall⟩ :=
      emittedRun_lowered hds (caseLabels_nodup hdefault) hselectors hjumps subject
    refine ⟨ran, fun ran' => ⟨hran.unique, ?_⟩, hforall⟩
    rintro rfl
    exact hran

theorem selectors_of_renders (h : List.Forall₂ (Renders env scope) cs ds) :
    cs.map (SwitchCase.selector? env) = (ds.map CodeCase.selector).map some := by
  induction h with
  | nil => rfl
  | cons hd _ ih => simp only [List.map_cons, hd.selector, ih]

/-- A default between two cases, with empty bodies. -/
def defaultBetween : List SwitchCase :=
  let label (v : Int64) : Expr := .int { type := some (.scalar ⟨.int, 32, true⟩) } v
  [.mk {} (some (label 1)) [], .mk {} none [], .mk {} (some (label 2)) []]

theorem defaultBetween_distinct (env : TypeEnv) : DistinctLabels env defaultBetween where
  oneDefault := by decide
  constant := by
    intro label hl
    simp [defaultBetween, SwitchCase.label] at hl
    rcases hl with rfl | rfl <;> rfl
  distinct := (by decide : ([some 1, some 2] : List (Option Int64)).Nodup)

theorem defaultBetween_falls_through :
    ∃ code emitted ran, stmt ⟨"", "", [], []⟩ {} false
        (.switch {} (.ref {} "x" .var) defaultBetween) = .ok [.switch code emitted] ∧
      EmittedRun emitted (fun _ => true) 7 ran ∧
      ran.map CodeCase.selector = [.default, .value 2] := by
  obtain ⟨hok, hruns⟩ := emitted_switch_runs_as_source ⟨"", "", [], []⟩ {} false {}
    (.ref {} "x" .var) defaultBetween (defaultBetween_distinct _)
  obtain ⟨out, hout⟩ := hok.mpr ⟨⟨_, rfl⟩, by simp [defaultBetween, SwitchCase.body, stmts]⟩
  obtain ⟨code, emitted, hcode, rfl, _, hall⟩ := hruns out hout
  obtain ⟨ran, hran, hforall⟩ := hall (fun _ => true) 7 (by decide)
  refine ⟨_, emitted, ran, hout, (hran ran).mpr rfl, ?_⟩
  have hsource : (sourceRun ⟨"", "", [], []⟩ (fun _ => true) 7 defaultBetween).map
      (SwitchCase.selector? ⟨"", "", [], []⟩) = [.default, .value 2].map some := by decide
  rw [selectors_of_renders hforall] at hsource
  exact List.map_injective_iff.mpr (fun _ _ => Option.some.inj) hsource

end Fallthrough

end DartLowering
