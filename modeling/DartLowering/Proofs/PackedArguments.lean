import DartLowering.Proofs.InlineWritings
import DartLowering.Proofs.Supported
import DartLowering.Proofs.WrittenExprs

/-!
The arguments of a call. They are written one by one as long as there are parameters, and those that
are left go into one list when the callee takes more. The writings are followed from the layouts
that they start with to those that they keep, without regard to the writer, since expressions are
written inside a line.
-/
namespace DartLowering

open Text Result

theorem Result.map_eq_ok {α β : Type} {r : Result α} {f : α → β} {b : β} :
    r.map f = .ok b ↔ ∃ a, r = .ok a ∧ b = f a := by
  cases r with
  | error failure => simp [Except.map]
  | ok a => simp [Except.map, eq_comm]

namespace Writing

variable {m n : Writing Unit} {layouts between layouts' : LayoutCache} {s t : String}

/-- A writing that stays inside a line. -/
abbrev StaysInLine (m : Writing Unit) : Prop := Inline (fun _ => true) m

/-- The writing succeeds and adds `s`, whatever the writer. -/
def Puts (m : Writing Unit) (layouts : LayoutCache) (s : String) (layouts' : LayoutCache) : Prop :=
  ∀ w : Writer, m ⟨w, layouts⟩ = some (.ok (), ⟨w.print s, layouts'⟩)

/-- The writings succeed one after the other and add one text each. -/
inductive PutsAll : List (Writing Unit) → LayoutCache → List String → LayoutCache → Prop
  | nil {layouts : LayoutCache} : PutsAll [] layouts [] layouts
  | cons {m : Writing Unit} {ms : List (Writing Unit)} {layouts between layouts' : LayoutCache}
      {t : String} {ts : List String} (hm : Puts m layouts t between)
      (hms : PutsAll ms between ts layouts') : PutsAll (m :: ms) layouts (t :: ts) layouts'

def inTurn : List (Writing Unit) → Writing Unit
  | [] => pure ()
  | m :: ms => do
      m
      inTurn ms

section Puts

theorem blank_print (s : String) : (({} : Writer).print s).text = s := by
  unfold Writer.print
  split
  · exact (‹s = ""›).symm
  · exact String.empty_append

theorem Puts.unique (h : Puts m layouts s between) (h' : Puts m layouts t layouts') :
    s = t ∧ between = layouts' := by
  have hrun := h {}
  rw [h' {}] at hrun
  obtain ⟨-, hdesk⟩ := Prod.mk.inj (Option.some.inj hrun)
  obtain ⟨hwriter, hlayouts⟩ := Desk.mk.inj hdesk
  have htext := congrArg Writer.text hwriter
  rw [blank_print, blank_print] at htext
  exact ⟨htext.symm, hlayouts.symm⟩

theorem puts_print (t : String) (layouts : LayoutCache) : Puts (print t) layouts t layouts :=
  fun _ => rfl

@[simp] theorem puts_print_iff :
    Puts (print t) layouts s layouts' ↔ s = t ∧ layouts' = layouts := by
  constructor
  · exact fun h => h.unique (puts_print t layouts)
  · rintro ⟨rfl, rfl⟩
    exact puts_print s layouts'

@[simp] theorem puts_pure_iff : Puts (pure ()) layouts s layouts' ↔ s = "" ∧ layouts' = layouts :=
  puts_print_iff (t := "")

/-- What is written in two steps is written in one after the other. -/
theorem puts_bind_iff (hm : StaysInLine m) (hn : StaysInLine n) :
    Puts (m >>= fun _ => n) layouts s layouts' ↔
      ∃ t between u, Puts m layouts t between ∧ Puts n between u layouts' ∧ s = t ++ u := by
  constructor
  · intro h
    obtain ⟨_, d, hfirst, hrest⟩ := Run.bind_eq_ok (h {})
    rcases hm layouts with hnone | ⟨r, t, between, -, -, hrun⟩
    · rw [hnone] at hfirst
      cases hfirst
    · rw [hrun] at hfirst
      cases hfirst
      rcases hn between with hnone | ⟨r, u, after, -, -, hrun'⟩
      · rw [hnone] at hrest
        cases hrest
      · rw [hrun'] at hrest
        obtain ⟨hr, -⟩ := Prod.mk.inj (Option.some.inj hrest)
        subst hr
        have hboth : Puts (m >>= fun _ => n) layouts (t ++ u) after := by
          intro w
          rw [Run.bind_of_ok (hrun w), hrun', Writer.print_print]
        obtain ⟨rfl, rfl⟩ := h.unique hboth
        exact ⟨t, between, u, hrun, hrun', rfl⟩
  · rintro ⟨t, between, u, hfirst, hrest, rfl⟩ w
    rw [Run.bind_of_ok (hfirst w), hrest, Writer.print_print]

@[simp] theorem staysInLine_print (t : String) : StaysInLine (print t) := .print fun _ _ => rfl

end Puts

section Lists

variable {ms ns : List (Writing Unit)} {ts : List String}

@[simp] theorem putsAll_nil_iff :
    PutsAll [] layouts ts layouts' ↔ ts = [] ∧ layouts' = layouts := by
  constructor
  · rintro ⟨⟩
    exact ⟨rfl, rfl⟩
  · rintro ⟨rfl, rfl⟩
    exact .nil

@[simp] theorem putsAll_cons_iff : PutsAll (m :: ms) layouts ts layouts' ↔
    ∃ t between us, Puts m layouts t between ∧ PutsAll ms between us layouts' ∧ ts = t :: us := by
  constructor
  · rintro (_ | ⟨hm, hms⟩)
    exact ⟨_, _, _, hm, hms, rfl⟩
  · rintro ⟨t, between, us, hm, hms, rfl⟩
    exact .cons hm hms

theorem PutsAll.length_eq (h : PutsAll ms layouts ts layouts') : ts.length = ms.length := by
  induction h with
  | nil => rfl
  | cons _ _ ih => rw [List.length_cons, List.length_cons, ih]

theorem putsAll_append_iff : PutsAll (ms ++ ns) layouts ts layouts' ↔
    ∃ us between vs, PutsAll ms layouts us between ∧ PutsAll ns between vs layouts' ∧
      ts = us ++ vs := by
  induction ms generalizing layouts ts with
  | nil => simp
  | cons m ms ih =>
    simp only [List.cons_append, putsAll_cons_iff, ih]
    constructor
    · rintro ⟨t, first, _, hm, ⟨us, between, vs, hms, hns, rfl⟩, rfl⟩
      exact ⟨t :: us, between, vs, ⟨t, first, us, hm, hms, rfl⟩, hns, rfl⟩
    · rintro ⟨_, between, vs, ⟨t, first, us, hm, hms, rfl⟩, hns, rfl⟩
      exact ⟨t, first, us ++ vs, hm, ⟨us, between, vs, hms, hns, rfl⟩, rfl⟩

/-- Writings one after the other put their texts one after the other. -/
theorem puts_inTurn_iff (hms : ∀ m ∈ ms, StaysInLine m) :
    Puts (inTurn ms) layouts s layouts' ↔
      ∃ ts, PutsAll ms layouts ts layouts' ∧ s = ts.foldr (· ++ ·) "" := by
  have hline : ∀ {ms : List (Writing Unit)}, (∀ m ∈ ms, StaysInLine m) →
      StaysInLine (inTurn ms) := by
    intro ms hms
    induction ms with
    | nil => exact .pure ()
    | cons m ms ih =>
      exact (hms m List.mem_cons_self).then_ fun _ => ih (List.forall_mem_cons.mp hms).2
  induction ms generalizing layouts s with
  | nil => simp [inTurn, and_comm]
  | cons m ms ih =>
    obtain ⟨hm, hrest⟩ := List.forall_mem_cons.mp hms
    simp only [inTurn, puts_bind_iff hm (hline hrest), ih hrest, putsAll_cons_iff]
    constructor
    · rintro ⟨t, between, _, ht, ⟨ts, hts, rfl⟩, rfl⟩
      exact ⟨t :: ts, ⟨t, between, ts, ht, hts, rfl⟩, rfl⟩
    · rintro ⟨_, ⟨t, between, ts, ht, hts, rfl⟩, rfl⟩
      exact ⟨t, between, _, ht, ⟨ts, hts, rfl⟩, rfl⟩

theorem StaysInLine.separatedFrom (hms : ∀ m ∈ ms, StaysInLine m) (i : Nat) :
    StaysInLine (separatedFrom i ms) := by
  induction ms generalizing i with
  | nil => exact .pure ()
  | cons m ms ih =>
    obtain ⟨hm, hrest⟩ := List.forall_mem_cons.mp hms
    rw [Writing.separatedFrom, comma_eq]
    exact (staysInLine_print _).then_ fun _ => hm.then_ fun _ => ih hrest (i + 1)

/-- Writings with commas between them put their texts with commas between them. -/
theorem puts_separatedFrom_iff (hms : ∀ m ∈ ms, StaysInLine m) (i : Nat) :
    Puts (separatedFrom i ms) layouts s layouts' ↔
      ∃ ts, PutsAll ms layouts ts layouts' ∧ s = listed i ts := by
  induction ms generalizing i layouts s with
  | nil => simp [separatedFrom, listed, and_comm]
  | cons m ms ih =>
    obtain ⟨hm, hrest⟩ := List.forall_mem_cons.mp hms
    have hmore := StaysInLine.separatedFrom hrest (i + 1)
    simp only [separatedFrom, comma_eq, puts_bind_iff, staysInLine_print,
      (hm.then_ fun _ => hmore : StaysInLine _), hm, hmore, puts_print_iff, ih hrest,
      putsAll_cons_iff]
    constructor
    · rintro ⟨_, _, _, ⟨rfl, rfl⟩, ⟨t, between, _, ht, ⟨ts, hts, rfl⟩, rfl⟩, rfl⟩
      exact ⟨t :: ts, ⟨t, between, ts, ht, hts, rfl⟩, by rw [listed, String.append_assoc]⟩
    · rintro ⟨_, ⟨t, between, ts, ht, hts, rfl⟩, rfl⟩
      exact ⟨_, layouts, _, ⟨rfl, rfl⟩, ⟨t, between, _, ht, ⟨ts, hts, rfl⟩, rfl⟩,
        by rw [listed, String.append_assoc]⟩

end Lists

end Writing

namespace Emit

open Writing
open Lower (Scope identifier)

/-- The texts of `fixed` arguments and, where others may follow, of a list of the others, with
commas between them. -/
def packed (fixed : Nat) (packs : Bool) (ts : List String) : String :=
  join ", " (ts.take fixed ++
    if packs then [Wrapper.varArgs ++ "([" ++ join ", " (ts.drop fixed) ++ "])"] else [])

theorem packed_true {fixed : Nat} {ts : List String} (h : ts.length = fixed) (us : List String) :
    packed fixed true (ts ++ us) = listed 0 ts ++ ((if 0 < fixed then ", " else "") ++
      (Wrapper.varArgs ++ "([" ++ (listed 0 us ++ "])"))) := by
  rw [packed, if_pos rfl, List.take_left' h, List.drop_left' h, ← listed_zero, ← listed_zero,
    listed_append, Nat.zero_add, h]
  simp only [listed, String.append_assoc, String.append_empty]

section Arguments

variable {ms : List (Writing Unit)} {fixed : Nat} (hfixed : fixed ≤ ms.length)

include hfixed

theorem arguments_eq (packs : Bool) :
    arguments ms fixed packs = inTurn (separatedFrom 0 (ms.take fixed) ::
      if packs then [print (if 0 < fixed then ", " else ""), print (Wrapper.varArgs ++ "(["),
        separatedFrom 0 (ms.drop fixed), print "])"] else []) := by
  have hfirst : argumentsFrom ms 0 fixed = separatedFrom 0 (ms.take fixed) := by
    rw [argumentsFrom_eq (by omega), List.drop_zero]
  cases packs with
  | false =>
    rw [arguments, hfirst]
    rfl
  | true =>
    rw [arguments, hfirst, if_pos rfl, comma_eq, dropped, if_pos hfixed]
    rfl

theorem puts_arguments_iff {packs : Bool} {layouts layouts' : LayoutCache} {s : String}
    (hms : ∀ m ∈ ms, StaysInLine m) (hall : packs = false → ms.length = fixed) :
    Puts (arguments ms fixed packs) layouts s layouts' ↔
      ∃ ts, PutsAll ms layouts ts layouts' ∧ s = packed fixed packs ts := by
  have htake : ∀ m ∈ ms.take fixed, StaysInLine m := fun m hm => hms m (List.mem_of_mem_take hm)
  have hdrop : ∀ m ∈ ms.drop fixed, StaysInLine m := fun m hm => hms m (List.mem_of_mem_drop hm)
  have hfirst := StaysInLine.separatedFrom htake 0
  have hitems := StaysInLine.separatedFrom hdrop 0
  have hlength : ∀ {ts between}, PutsAll (ms.take fixed) layouts ts between → ts.length = fixed :=
    fun hts => hts.length_eq.trans (by rw [List.length_take, Nat.min_eq_left hfixed])
  have hmore : ∀ m ∈ if packs then [print (if 0 < fixed then ", " else ""),
      print (Wrapper.varArgs ++ "(["), separatedFrom 0 (ms.drop fixed), print "])"] else [],
      StaysInLine m := by
    cases packs <;> simp [hitems]
  rw [arguments_eq hfixed, puts_inTurn_iff (List.forall_mem_cons.mpr ⟨hfirst, hmore⟩)]
  cases packs with
  | false =>
    have heq : ms.take fixed = ms := List.take_of_length_le (Nat.le_of_eq (hall rfl))
    simp only [heq, Bool.false_eq_true, ↓reduceIte, putsAll_cons_iff, puts_separatedFrom_iff hms,
      putsAll_nil_iff, exists_and_left, ↓existsAndEq, true_and, and_true, List.foldr_cons,
      List.foldr_nil, String.append_empty, packed, List.append_nil]
    refine exists_congr fun ts => and_congr_right fun hts => ?_
    rw [listed_zero, List.take_of_length_le (Nat.le_of_eq (hts.length_eq.trans (hall rfl)))]
  | true =>
    simp only [↓reduceIte, putsAll_cons_iff, puts_separatedFrom_iff htake, puts_print_iff,
      puts_separatedFrom_iff hdrop, putsAll_nil_iff, exists_and_left, ↓existsAndEq, true_and,
      and_true, exists_eq_left, List.foldr_cons, List.foldr_nil, String.append_empty]
    constructor
    · rintro ⟨between, ts, us, ⟨hts, hus⟩, rfl⟩
      refine ⟨ts ++ us, ?_, (packed_true (hlength hts) us).symm⟩
      rw [← List.take_append_drop fixed ms]
      exact putsAll_append_iff.mpr ⟨ts, between, us, hts, hus, rfl⟩
    · rintro ⟨_, hboth, rfl⟩
      rw [← List.take_append_drop fixed ms] at hboth
      obtain ⟨ts, between, us, hts, hus, rfl⟩ := putsAll_append_iff.mp hboth
      exact ⟨between, ts, us, ⟨hts, hus⟩, packed_true (hlength hts) us⟩

end Arguments

end Emit

/-- Arguments follow that have no parameter of their own. -/
def Prototype.packs (p : Prototype) (variadic : Bool) : Bool := p.variadic || variadic

/-- There are fewer arguments than parameters, or others although none may follow. -/
def Prototype.Miscounts (p : Prototype) (variadic : Bool) (count : Nat) : Prop :=
  count < p.params.length ∨ p.packs variadic = false ∧ count ≠ p.params.length

instance (p : Prototype) (variadic : Bool) (count : Nat) : Decidable (p.Miscounts variadic count) :=
  inferInstanceAs (Decidable (_ ∨ _))

/-- A value that takes no lookup. -/
theorem ExprInfo.lookupValue_pure {σ : Type} (info : ExprInfo) (a : Option Int64) :
    info.lookupValue (pure a : Run σ (Option Int64)) = pure (info.value fun _ => a) := by
  obtain ⟨position, type, constant⟩ := info
  cases type with
  | none => rfl
  | some t =>
    unfold lookupValue value
    dsimp only
    split
    · rfl
    · cases constant with
      | none => rfl
      | some v => rfl

namespace Lower

theorem callShape_eq {info : ExprInfo} {callee : Expr} {args : List Expr} {variadic : Bool}
    {p : Prototype} (hp : callee.knownPrototype? = some p) :
    callShape info callee args variadic = if p.Miscounts variadic args.length then
      .error (.violationAt info.position (.argumentCount args.length p.params.length))
    else .ok (p.params.length, p.packs variadic) := by
  unfold Expr.knownPrototype? at hp
  simp only [callShape, hp]
  split
  next hrefused => rw [if_pos (by simpa [Prototype.Miscounts, Prototype.packs] using hrefused)]
  next hcounted =>
    rw [if_neg (by simpa [Prototype.Miscounts, Prototype.packs] using hcounted)]
    rfl

/-- The code of a call of a function. -/
def functionCall (env : TypeEnv) (scope : Scope) (info : ExprInfo) (callee : Expr)
    (args : List Expr) (variadic : Bool) : Result Code := do
  let (fixed, variadic) ← callShape info callee args variadic
  match callee.directCallee? with
  | some (_, name) => do
      let codes ← copies env scope args
      .ok (.apply (.name (identifier name)) (packArguments fixed variadic codes))
  | none => do
      let code ← expr env scope false callee
      let codes ← copies env scope args
      .ok (indirectCall env callee code (packArguments fixed variadic codes))

section Calls

variable {env : TypeEnv} {scope : Scope} {info : ExprInfo} {callee : Expr} {args : List Expr}
  {variadic : Bool} {p : Prototype}

theorem packed_texts (fixed : Nat) (packs : Bool) (codes : List Code) :
    join ", " (Code.texts (packArguments fixed packs codes)) =
      Emit.packed fixed packs (codes.map Code.text) := by
  cases packs with
  | false => simp [packArguments, Emit.packed, Emit.texts_eq_map, List.map_take]
  | true =>
    have hlist : (Code.apply (.name Wrapper.varArgs) [.list (codes.drop fixed)]).text =
        Wrapper.varArgs ++ "([" ++ join ", " ((codes.map Code.text).drop fixed) ++ "])" := by
      rw [← String.toList_inj]
      simp [Code.text, Emit.texts_eq_map, join_singleton]
    simp [packArguments, Emit.packed, Emit.texts_eq_map, hlist]

theorem copies_eq_ok {codes : List Code} :
    copies env scope args = .ok codes ↔
      List.Forall₂ (fun e code => ∃ own, expr env scope false e = .ok own ∧ code = asCopy env e own)
        args codes := by
  induction args generalizing codes with
  | nil =>
    rw [copies, List.forall₂_nil_left_iff]
    simp [eq_comm]
  | cons e es ih =>
    rw [copies, List.forall₂_cons_left_iff]
    simp only [Result.bind_eq_ok, Except.ok.injEq]
    constructor
    · rintro ⟨own, hown, codes, hcodes, rfl⟩
      exact ⟨_, codes, ⟨own, hown, rfl⟩, ih.mp hcodes, rfl⟩
    · rintro ⟨code, codes, ⟨own, hown, rfl⟩, hcodes, rfl⟩
      exact ⟨own, hown, codes, ih.mpr hcodes, rfl⟩

theorem asCopy_text (e : Expr) (code : Code) :
    (asCopy env e code).text =
      if isValue env e.type then (asReceiver env e code).text ++ ".copy()" else code.text := by
  unfold asCopy
  split
  · rw [← String.toList_inj]
    simp [Code.text, Code.texts, join_nil]
  · rfl

variable (hp : callee.knownPrototype? = some p)

include hp

variable (h : ¬ p.Miscounts variadic args.length)

include h

theorem direct_text_iff {ref : ExprInfo} {name s : String}
    (hdirect : callee.directCallee? = some (ref, name)) :
    (functionCall env scope info callee args variadic).map Code.text = .ok s ↔
      ∃ codes, copies env scope args = .ok codes ∧
        s = identifier name ++ "(" ++
          Emit.packed p.params.length (p.packs variadic) (codes.map Code.text) ++ ")" := by
  have htext : ∀ codes, (Code.apply (.name (identifier name))
      (packArguments p.params.length (p.packs variadic) codes)).text = identifier name ++ "(" ++
        Emit.packed p.params.length (p.packs variadic) (codes.map Code.text) ++ ")" := by
    intro codes
    rw [Code.text, packed_texts, Code.text]
  rw [functionCall, callShape_eq hp, if_neg h, hdirect, Result.map_eq_ok]
  simp only [Result.ok_bind, Result.bind_eq_ok, Except.ok.injEq]
  constructor
  · rintro ⟨_, ⟨codes, hcodes, rfl⟩, rfl⟩
    exact ⟨codes, hcodes, htext codes⟩
  · rintro ⟨codes, hcodes, rfl⟩
    exact ⟨_, ⟨codes, hcodes, rfl⟩, (htext codes).symm⟩

theorem indirect_text_iff {s : String} (hindirect : callee.directCallee? = none) :
    (functionCall env scope info callee args variadic).map Code.text = .ok s ↔
      ∃ code codes, expr env scope false callee = .ok code ∧ copies env scope args = .ok codes ∧
        s = "Function.apply(" ++ (asReceiver env callee code).text ++ ".function, [" ++
          Emit.packed p.params.length (p.packs variadic) (codes.map Code.text) ++ "])" := by
  have htext : ∀ code codes, (indirectCall env callee code
      (packArguments p.params.length (p.packs variadic) codes)).text =
        "Function.apply(" ++ (asReceiver env callee code).text ++ ".function, [" ++
          Emit.packed p.params.length (p.packs variadic) (codes.map Code.text) ++ "])" := by
    intro code codes
    rw [← packed_texts, ← String.toList_inj]
    simp [indirectCall, onClass, Code.text, Code.texts, join_singleton, join_cons_cons]
  rw [functionCall, callShape_eq hp, if_neg h, hindirect, Result.map_eq_ok]
  simp only [Result.ok_bind, Result.bind_eq_ok, Except.ok.injEq]
  constructor
  · rintro ⟨_, ⟨code, hcode, codes, hcodes, rfl⟩, rfl⟩
    exact ⟨code, codes, hcode, hcodes, htext code codes⟩
  · rintro ⟨code, codes, hcode, hcodes, rfl⟩
    exact ⟨_, ⟨code, hcode, codes, hcodes, rfl⟩, (htext code codes).symm⟩

end Calls

end Lower

namespace Emit

open Writing
open Lower (Scope identifier)

def functionCall (env : TypeEnv) (scope : Scope) (info : ExprInfo) (callee : Expr)
    (args : List Expr) (variadic : Bool) : Writing Unit :=
  call env scope info callee args variadic .none (expr env scope false callee)
    (copies env scope args) (lists env scope args)

/-- What is written for the function that a call finds in a pointer. -/
def calledFunction (env : TypeEnv) (scope : Scope) (callee : Expr) : Writing Unit :=
  receiver env callee (expr env scope false callee)

/-- What is written for the arguments of a call. -/
def passedArguments (env : TypeEnv) (scope : Scope) (p : Prototype) (args : List Expr)
    (variadic : Bool) : Writing Unit :=
  arguments (copies env scope args) p.params.length (p.packs variadic)

section Lines

variable (env : TypeEnv) (scope : Scope)

/-- Staying inside a line is a law, for texts of any characters. -/
def inLine : TextLaw env (fun _ => True) fun _ => true := .inline env fun _ _ => rfl

theorem expr_staysInLine (e : Expr) (peel : Bool) : StaysInLine (expr env scope peel e) :=
  expr_holds (inLine env) (fun _ _ => rfl) e.spelled_any peel

theorem copies_stayInLine (args : List Expr) : ∀ m ∈ copies env scope args, StaysInLine m :=
  copies_hold (L := inLine env) fun e _ => expr_staysInLine env scope e false

theorem passedArguments_staysInLine (p : Prototype) (args : List Expr) (variadic : Bool) :
    StaysInLine (passedArguments env scope p args variadic) :=
  arguments_holds (L := inLine env) (copies_stayInLine env scope args) _ _

theorem calledFunction_staysInLine (callee : Expr) :
    StaysInLine (calledFunction env scope callee) :=
  receiver_holds (L := inLine env) (expr_staysInLine env scope callee false)

omit env scope in
theorem copied_of_present {env : TypeEnv} {e : Expr} (he : e ≠ .absent) (m : Writing Unit) :
    copied env e m =
      if Lower.isValue env e.type then (do receiver env e m; print ".copy()") else m := by
  cases e with
  | absent => exact absurd rfl he
  | _ => rfl

/-- An argument is written as a copy exactly where its type is that of wrapper objects. -/
theorem puts_copied_iff (e : Expr) {layouts layouts' : LayoutCache} {t : String} :
    Puts (copied env e (expr env scope false e)) layouts t layouts' ↔
      if Lower.isValue env e.type then
        ∃ u, Puts (receiver env e (expr env scope false e)) layouts u layouts' ∧ t = u ++ ".copy()"
      else Puts (expr env scope false e) layouts t layouts' := by
  by_cases he : e = .absent
  · -- nothing is written for a missing argument
    subst he
    constructor
    · intro h
      cases h {}
    · intro h
      cases h {}
  · rw [copied_of_present he]
    split
    · have hline : StaysInLine (receiver env e (expr env scope false e)) :=
        calledFunction_staysInLine env scope e
      simp [puts_bind_iff hline]
    · rfl

end Lines

section Failures

/-- Every failure of `m` is one of the writings. -/
def FailsIn (ms : List (Writing Unit)) (m : Writing Unit) : Prop :=
  ∀ d f d', m d = some (.error f, d') → ∃ n ∈ ms, ∃ d₁ d₂, n d₁ = some (.error f, d₂)

variable {ms ns : List (Writing Unit)} {m n : Writing Unit}

theorem failsIn_part (hm : m ∈ ms) : FailsIn ms m := fun d _ d' hrun => ⟨m, hm, d, d', hrun⟩

theorem failsIn_print (s : String) : FailsIn ms (print s) := by
  intro d f d' hrun
  cases hrun

theorem FailsIn.then_ (hm : FailsIn ms m) (hn : FailsIn ms n) : FailsIn ms (m >>= fun _ => n) := by
  intro d f d' hrun
  rcases Run.bind_cases hrun with ⟨_, d₁, -, hrest⟩ | ⟨g, hfirst, heq⟩
  · exact hn d₁ f d' hrest
  · cases heq
    exact hm d f d' hfirst

theorem failsIn_inTurn (hns : ∀ n ∈ ns, FailsIn ms n) : FailsIn ms (inTurn ns) := by
  induction ns with
  | nil => exact failsIn_print ""
  | cons n ns ih =>
    obtain ⟨hn, hrest⟩ := List.forall_mem_cons.mp hns
    exact hn.then_ (ih hrest)

theorem failsIn_separatedFrom (hns : ∀ n ∈ ns, n ∈ ms) (i : Nat) :
    FailsIn ms (separatedFrom i ns) := by
  induction ns generalizing i with
  | nil => exact failsIn_print ""
  | cons n ns ih =>
    obtain ⟨hn, hrest⟩ := List.forall_mem_cons.mp hns
    rw [separatedFrom, comma_eq]
    exact (failsIn_print _).then_ ((failsIn_part hn).then_ (ih hrest (i + 1)))

theorem failsIn_arguments {fixed : Nat} (packs : Bool) (hns : ∀ n ∈ ns, n ∈ ms)
    (hfixed : fixed ≤ ns.length) : FailsIn ms (arguments ns fixed packs) := by
  have htake : FailsIn ms (separatedFrom 0 (ns.take fixed)) :=
    failsIn_separatedFrom (fun n hn => hns n (List.mem_of_mem_take hn)) 0
  have hdrop : FailsIn ms (separatedFrom 0 (ns.drop fixed)) :=
    failsIn_separatedFrom (fun n hn => hns n (List.mem_of_mem_drop hn)) 0
  rw [arguments_eq hfixed]
  refine failsIn_inTurn (List.forall_mem_cons.mpr ⟨htake, ?_⟩)
  cases packs <;> simp [failsIn_print, hdrop]

end Failures

section Calls

variable {env : TypeEnv} {scope : Scope} {info : ExprInfo} {callee : Expr} {args : List Expr}
  {variadic : Bool} {p : Prototype} (hp : callee.knownPrototype? = some p)

include hp

theorem callShape_of_prototype :
    callShape info callee args variadic =
      Run.ofResult (Lower.callShape info callee args variadic) := by
  cases callee with
  | absent => cases hp
  | _ => rfl

variable (h : ¬ p.Miscounts variadic args.length)

include h

omit hp in
variable (env scope) in
theorem enough_arguments : p.params.length ≤ (copies env scope args).length ∧
    (p.packs variadic = false → (copies env scope args).length = p.params.length) := by
  rw [copies_eq_map, List.length_map]
  unfold Prototype.Miscounts at h
  rw [not_or, not_and_not_right, Nat.not_lt] at h
  exact h

theorem functionCall_direct {ref : ExprInfo} {name : String}
    (hdirect : callee.directCallee? = some (ref, name)) :
    functionCall env scope info callee args variadic = inTurn [print (identifier name ++ "("),
      passedArguments env scope p args variadic, print ")"] := by
  rw [functionCall, call, callShape_of_prototype hp, Lower.callShape_eq hp, if_neg h, hdirect]
  rfl

theorem functionCall_indirect (hindirect : callee.directCallee? = none) :
    functionCall env scope info callee args variadic = inTurn [print "Function.apply(",
      calledFunction env scope callee, print ".function, [",
      passedArguments env scope p args variadic, print "])"] := by
  rw [functionCall, call, callShape_of_prototype hp, Lower.callShape_eq hp, if_neg h, hindirect]
  rfl

theorem functionCall_failsIn :
    FailsIn (calledFunction env scope callee :: copies env scope args)
      (functionCall env scope info callee args variadic) := by
  have hcallee : FailsIn (calledFunction env scope callee :: copies env scope args)
      (calledFunction env scope callee) := failsIn_part List.mem_cons_self
  have harguments : FailsIn (calledFunction env scope callee :: copies env scope args)
      (passedArguments env scope p args variadic) :=
    failsIn_arguments _ (fun n hn => List.mem_cons_of_mem _ hn) (enough_arguments env scope h).1
  cases hdirect : callee.directCallee? with
  | some c =>
    rw [functionCall_direct hp h hdirect]
    exact failsIn_inTurn (by simp [failsIn_print, harguments])
  | none =>
    rw [functionCall_indirect hp h hdirect]
    exact failsIn_inTurn (by simp [failsIn_print, hcallee, harguments])

theorem puts_direct_iff {ref : ExprInfo} {name : String}
    (hdirect : callee.directCallee? = some (ref, name)) {layouts layouts' : LayoutCache}
    {s : String} : Puts (functionCall env scope info callee args variadic) layouts s layouts' ↔
      ∃ t, Puts (passedArguments env scope p args variadic) layouts t layouts' ∧
        s = identifier name ++ "(" ++ t ++ ")" := by
  have hargs := passedArguments_staysInLine env scope p args variadic
  rw [functionCall_direct hp h hdirect, puts_inTurn_iff (by simp [hargs])]
  simp [String.append_assoc]

theorem puts_indirect_iff (hindirect : callee.directCallee? = none) {layouts layouts' : LayoutCache}
    {s : String} :
    Puts (functionCall env scope info callee args variadic) layouts s layouts' ↔
      ∃ f between t, Puts (calledFunction env scope callee) layouts f between ∧
        Puts (passedArguments env scope p args variadic) between t layouts' ∧
          s = "Function.apply(" ++ f ++ ".function, [" ++ t ++ "])" := by
  have hargs := passedArguments_staysInLine env scope p args variadic
  have hcallee := calledFunction_staysInLine env scope callee
  rw [functionCall_indirect hp h hindirect, puts_inTurn_iff (by simp [hargs, hcallee])]
  simp [String.append_assoc, and_assoc]

end Calls

section Packing

variable (env : TypeEnv) (scope : Scope) (info : ExprInfo) (callee : Expr) (args : List Expr)
  (variadic : Bool)

/-- How a call through the prototype `p` is written. Layouts go from one text to the next. -/
structure WritesPacked (p : Prototype) : Prop where
  /-- A call that is a constant is written as that. -/
  written : ∀ peel, expr env scope peel (.call info callee args variadic .none) =
    Run.locate info.position
      (match env.constant? (.call info callee args variadic .none) with
      | some v => constantOf info v
      | none => functionCall env scope info callee args variadic)
  /-- Nothing is written for a wrong number of arguments. -/
  miscounted : p.Miscounts variadic args.length →
    functionCall env scope info callee args variadic =
      Run.fail (.violationAt info.position (.argumentCount args.length p.params.length))
  /-- Any other failure is that of the function or of an argument. -/
  failed : ¬ p.Miscounts variadic args.length →
    FailsIn (calledFunction env scope callee :: copies env scope args)
      (functionCall env scope info callee args variadic)
  argument : ∀ e layouts t layouts',
    Puts (copied env e (expr env scope false e)) layouts t layouts' ↔
    if Lower.isValue env e.type then
      ∃ u, Puts (receiver env e (expr env scope false e)) layouts u layouts' ∧ t = u ++ ".copy()"
    else Puts (expr env scope false e) layouts t layouts'
  arguments : ¬ p.Miscounts variadic args.length → ∀ layouts t layouts',
    Puts (passedArguments env scope p args variadic) layouts t layouts' ↔
      ∃ ts, PutsAll (args.map fun e => copied env e (expr env scope false e)) layouts ts layouts' ∧
        t = packed p.params.length (p.packs variadic) ts
  direct : ¬ p.Miscounts variadic args.length → ∀ ref name,
    callee.directCallee? = some (ref, name) → ∀ layouts s layouts',
      Puts (functionCall env scope info callee args variadic) layouts s layouts' ↔
        ∃ t, Puts (passedArguments env scope p args variadic) layouts t layouts' ∧
          s = identifier name ++ "(" ++ t ++ ")"
  indirect : ¬ p.Miscounts variadic args.length → callee.directCallee? = none →
    ∀ layouts s layouts',
      Puts (functionCall env scope info callee args variadic) layouts s layouts' ↔
        ∃ f between t, Puts (calledFunction env scope callee) layouts f between ∧
          Puts (passedArguments env scope p args variadic) between t layouts' ∧
            s = "Function.apply(" ++ f ++ ".function, [" ++ t ++ "])"

/-- The code of a call through the prototype `p`. -/
structure LowersPacked (p : Prototype) : Prop where
  lowered : ∀ peel, Lower.expr env scope peel (.call info callee args variadic .none) =
    Result.locate info.position
      (match env.constant? (.call info callee args variadic .none) with
      | some v => Lower.constantCode info v
      | none => Lower.functionCall env scope info callee args variadic)
  miscounted : p.Miscounts variadic args.length →
    Lower.functionCall env scope info callee args variadic =
      .error (.violationAt info.position (.argumentCount args.length p.params.length))
  argument : ∀ e code, (Lower.asCopy env e code).text =
    if Lower.isValue env e.type then (Lower.asReceiver env e code).text ++ ".copy()" else code.text
  arguments : ∀ codes, Lower.copies env scope args = .ok codes ↔ List.Forall₂ (fun e code =>
    ∃ own, Lower.expr env scope false e = .ok own ∧ code = Lower.asCopy env e own) args codes
  direct : ¬ p.Miscounts variadic args.length → ∀ ref name,
    callee.directCallee? = some (ref, name) → ∀ s,
      (Lower.functionCall env scope info callee args variadic).map Code.text = .ok s ↔
        ∃ codes, Lower.copies env scope args = .ok codes ∧
          s = identifier name ++ "(" ++
            packed p.params.length (p.packs variadic) (codes.map Code.text) ++ ")"
  indirect : ¬ p.Miscounts variadic args.length → callee.directCallee? = none → ∀ s,
    (Lower.functionCall env scope info callee args variadic).map Code.text = .ok s ↔
      ∃ code codes, Lower.expr env scope false callee = .ok code ∧
        Lower.copies env scope args = .ok codes ∧
          s = "Function.apply(" ++ (Lower.asReceiver env callee code).text ++ ".function, [" ++
            packed p.params.length (p.packs variadic) (codes.map Code.text) ++ "])"

/-- A call through a known prototype fails for the number of its arguments exactly when there are
fewer than parameters, or others although neither the prototype nor the call lets any follow.
Otherwise it passes the arguments one by one and, where others may follow, those left in one list,
in the same way to a function that it names and to one that it finds in a pointer. An argument is
copied exactly where it is a wrapper object. -/
theorem calls_pack_arguments {p : Prototype} (hp : callee.knownPrototype? = some p) :
    WritesPacked env scope info callee args variadic p ∧
      LowersPacked env scope info callee args variadic p := by
  have hlookup : env.lookupConstant (.call info callee args variadic .none) =
      pure (env.constant? (.call info callee args variadic .none)) := info.lookupValue_pure none
  constructor
  · exact {
      written := fun peel => by
        rw [expr, orConstant, constant, hlookup]
        rfl
      miscounted := fun h => by
        rw [functionCall, call, callShape_of_prototype hp, Lower.callShape_eq hp, if_pos h]
        rfl
      failed := functionCall_failsIn hp
      argument := fun e _ _ _ => puts_copied_iff env scope e
      arguments := fun h _ _ _ => copies_eq_map args ▸ puts_arguments_iff
        (enough_arguments env scope h).1 (copies_stayInLine env scope args)
          (enough_arguments env scope h).2
      direct := fun h _ _ hdirect _ _ _ => puts_direct_iff hp h hdirect
      indirect := fun h hindirect _ _ _ => puts_indirect_iff hp h hindirect }
  · exact {
      lowered := fun peel => by
        rw [Lower.expr]
        rfl
      miscounted := fun h => by
        rw [Lower.functionCall, Lower.callShape_eq hp, if_pos h]
        rfl
      argument := Lower.asCopy_text
      arguments := fun _ => Lower.copies_eq_ok
      direct := fun h _ _ hdirect _ => Lower.direct_text_iff hp h hdirect
      indirect := fun h hindirect _ => Lower.indirect_text_iff hp h hindirect }

end Packing

section Log

/-- A function that takes a number and anything after it. -/
def logType : CType := .function [.scalar ⟨.int, 32, true⟩] .void true

def logFunction : Expr := .ref { type := some logType } "log" .function

def logPointer : Expr := .ref { type := some (.pointer logType) } "sink" .var

def numberNamed (name : String) : Expr := .ref { type := some (.scalar ⟨.int, 32, true⟩) } name .var

theorem puts_number (name : String) :
    Puts (copied (.ofMarkers "" "" []) (numberNamed name) (expr (.ofMarkers "" "" []) {} false
      (numberNamed name))) [] (identifier name ++ ".copy()") [] := by
  have hvalue : Lower.isValue (.ofMarkers "" "" []) (numberNamed name).type = true := rfl
  rw [puts_copied_iff, if_pos hvalue]
  exact ⟨identifier name, fun _ => rfl, rfl⟩

theorem log_packs_arguments :
    logFunction.knownPrototype? = some ⟨[.scalar ⟨.int, 32, true⟩], .void, true⟩ ∧
      logPointer.knownPrototype? = some ⟨[.scalar ⟨.int, 32, true⟩], .void, true⟩ ∧
      Puts (functionCall (.ofMarkers "" "" []) {} {} logFunction
          [numberNamed "n", numberNamed "m"] false)
        [] "log(n.copy(), CVarArgs([m.copy()]))" [] ∧
      Puts (functionCall (.ofMarkers "" "" []) {} {} logPointer [numberNamed "n"] false)
        [] "Function.apply(sink.function, [n.copy(), CVarArgs([])])" [] ∧
      functionCall (.ofMarkers "" "" []) {} {} logFunction [] false =
        Run.fail (.violationAt {} (.argumentCount 0 1)) := by
  have hcount : ∀ count, 1 ≤ count →
      ¬ Prototype.Miscounts ⟨[.scalar ⟨.int, 32, true⟩], .void, true⟩ false count := by
    simp [Prototype.Miscounts, Prototype.packs]
    omega
  refine ⟨rfl, rfl, ?_, ?_, ?_⟩
  · have hcall := (calls_pack_arguments (.ofMarkers "" "" []) {} {} logFunction
      [numberNamed "n", numberNamed "m"] false rfl).1
    have hargs := (hcall.arguments (hcount 2 (by decide)) [] _ []).mpr
      ⟨_, .cons (puts_number "n") (.cons (puts_number "m") .nil), rfl⟩
    exact (hcall.direct (hcount 2 (by decide)) _ "log" rfl [] _ []).mpr ⟨_, hargs, by cbv⟩
  · have hcall :=
      (calls_pack_arguments (.ofMarkers "" "" []) {} {} logPointer [numberNamed "n"] false
      rfl).1
    have hargs := (hcall.arguments (hcount 1 (by decide)) [] _ []).mpr
      ⟨_, .cons (puts_number "n") .nil, rfl⟩
    exact (hcall.indirect (hcount 1 (by decide)) rfl [] _ []).mpr
      ⟨"sink", [], _, fun _ => rfl, hargs, by cbv⟩
  · have hcall := (calls_pack_arguments (.ofMarkers "" "" []) {} {} logFunction [] false rfl).1
    exact hcall.miscounted (.inl (by decide))

end Log

end Emit

end DartLowering
