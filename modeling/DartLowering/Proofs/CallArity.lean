import DartLowering.Proofs.Supported

/-!
Calls and the functions they name. A definition and the calls to it are emitted apart from each
other; `CodeFile.signatures` lists what the file declares at its top level and `FuncDecl.arity` how
many arguments a call to a definition passes. The two agree for every function but the program's
start: that one is declared as `main` without parameters, whatever it is called with.
-/
namespace DartLowering

/-- The name and number of parameters of the function that an item declares. -/
def CodeItem.signature? : CodeItem → Option (String × Nat)
  | .function f => some (f.name, f.params.length)
  | .main _ _ => some ("main", 0)
  | .class _ _ _ | .variable _ _ => none

def CodeFile.signatures (file : CodeFile) : List (String × Nat) :=
  file.items.filterMap CodeItem.signature?

/-- The parameters of a definition, with one for the arguments beyond them. -/
def FuncDecl.arity (d : FuncDecl) : Nat := d.params.length + if d.variadic then 1 else 0

def FuncDecl.declared (d : FuncDecl) : String × Nat :=
  if d.entry then ("main", 0) else (Lower.identifier d.name, d.arity)

def Prototype.Fits (p : Prototype) (d : FuncDecl) : Prop :=
  p.params.length = d.params.length ∧ p.variadic = d.variadic

/-- The expressions that stand in the declarations of a unit. -/
inductive SourceUnit.Holds (u : SourceUnit) : Expr → Prop
  | inFunction {d : FuncDecl} {body : List Stmt} {s t : Stmt} {e : Expr} (hd : .func d ∈ u.decls)
      (hbody : d.body = some body) (hs : s ∈ body) (ht : s.Contains t) (he : e ∈ t.exprs) :
      Holds u e
  | inMethod {d : MethodDecl} {body : List Stmt} {s t : Stmt} {e : Expr} (hd : .method d ∈ u.decls)
      (hbody : d.body = some body) (hs : s ∈ body) (ht : s.Contains t) (he : e ∈ t.exprs) :
      Holds u e
  | inVariable {d : VarDecl} {e : Expr} (hd : .var d ∈ u.decls) (he : d.init = some e) : Holds u e

namespace Lower

variable {env : TypeEnv} {scope : Scope} {peel : Bool}

section Definitions

variable {d : FuncDecl} {body : List Stmt}

theorem function_signature {name : String} {f : CodeFunction}
    (h : function env name d body = .ok f) : f.name = name ∧ f.params.length = d.arity := by
  simp only [function, params, Result.bind_eq_ok, Except.ok.injEq] at h
  obtain ⟨_, -, _, ⟨fixed, hfixed, rfl⟩, _, -, rfl⟩ := h
  have hlength := paramsFrom_length hfixed
  refine ⟨rfl, ?_⟩
  unfold FuncDecl.arity
  cases d.variadic with
  | true => simp [hlength]
  | false => simp [hlength]

/-- A definition declares one function at the top level. -/
theorem item_signature {code : CodeItem} (h : item env (.function d body) = .ok code) :
    code.signature? = some d.declared := by
  simp only [item, Result.locate_eq_ok] at h
  unfold FuncDecl.declared
  split at h
  · rename_i hentry
    simp only [entryPoint, Result.bind_eq_ok, Except.ok.injEq] at h
    obtain ⟨_, -, _, -, rfl⟩ := h
    simp [CodeItem.signature?, hentry]
  · rename_i hentry
    simp only [Result.bind_eq_ok, Except.ok.injEq] at h
    obtain ⟨f, hf, rfl⟩ := h
    obtain ⟨hname, hparams⟩ := function_signature hf
    simp [CodeItem.signature?, hentry, hname, hparams]

theorem declared_mem_signatures {package : String} {u : SourceUnit} {file : CodeFile}
    (h : unit env package u = .ok file) (hd : .func d ∈ u.decls) (hbody : d.body = some body) :
    d.declared ∈ file.signatures := by
  simp only [unit, Result.bind_eq_ok, Except.ok.injEq] at h
  obtain ⟨out, hout, rfl⟩ := h
  obtain ⟨code, hmem, hcode⟩ := items_mem hout _ (function_mem_planFrom hd hbody [])
  exact List.mem_filterMap.mpr ⟨code, hmem, item_signature hcode⟩

end Definitions

section Calls

variable {args : List Expr}

theorem packArguments_length {fixed : Nat} {codes : List Code} (h : fixed ≤ codes.length)
    (variadic : Bool) :
    (packArguments fixed variadic codes).length = fixed + if variadic then 1 else 0 := by
  have htake : (codes.take fixed).length = fixed := List.length_take_of_le h
  cases variadic with
  | true => simp only [packArguments, if_true, List.length_append, htake, List.length_singleton]
  | false => simp only [packArguments, Bool.false_eq_true, if_false, htake, Nat.add_zero]

/-- A call that agrees with a known prototype passes its fixed arguments one by one. -/
theorem callShape_of_prototype {info : ExprInfo} {callee : Expr} {variadic : Bool}
    {shape : Nat × Bool} (h : callShape info callee args variadic = .ok shape) {p : Prototype}
    (hp : callee.knownPrototype? = some p) (hvariadic : variadic = p.variadic) :
    shape = (p.params.length, p.variadic) := by
  unfold Expr.knownPrototype? at hp
  simp only [callShape, hp] at h
  split at h
  · cases h
  · cases h
    rw [hvariadic, Bool.or_self]

/-- A direct call applies the name of its callee to as many arguments as the definition takes. -/
theorem direct_call_code {info ref : ExprInfo} {callee : Expr} {variadic : Bool} {code : Code}
    {p : Prototype} {d : FuncDecl}
    (hc : env.constant? (.call info callee args variadic .none) = none)
    (hcallee : callee.directCallee? = some (ref, d.name)) (hp : callee.knownPrototype? = some p)
    (hfits : p.Fits d) (hvariadic : variadic = d.variadic)
    (h : expr env scope peel (.call info callee args variadic .none) = .ok code) :
    ∃ codes, code = .apply (.name (identifier d.name)) codes ∧ codes.length = d.arity := by
  rw [expr, orConstant_eq_ok hc] at h
  obtain ⟨⟨fixed, shown⟩, hshape, h⟩ := Result.bind_eq_ok.mp h
  have hfixed := (callShape_counts hshape hp).1
  have heq := callShape_of_prototype hshape hp (hvariadic.trans hfits.2.symm)
  obtain ⟨rfl, rfl⟩ := Prod.mk.inj heq
  simp only [hcallee, Result.bind_eq_ok, Except.ok.injEq] at h
  obtain ⟨codes, hcodes, rfl⟩ := h
  refine ⟨_, rfl, ?_⟩
  rw [packArguments_length (by rw [copies_length hcodes]; exact hfixed), hfits.1, hfits.2]
  rfl

end Calls

/-- An expression of a unit that has a file has code, unless it only ends a list. -/
theorem expr_of_holds {u : SourceUnit} {out : List CodeItem}
    (h : items env (plan u.decls) = .ok out) {e : Expr} (he : u.Holds e) :
    (∃ scope code, expr env scope false e = .ok code) ∨ e.isListEnd = true := by
  have hstmts : ∀ {scope body out}, stmts env scope body = .ok out → ∀ s ∈ body, ∀ t, s.Contains t →
      ∀ e ∈ t.exprs, (∃ scope code, expr env scope false e = .ok code) ∨ e.isListEnd = true := by
    intro scope body out hbody s hs t ht e he
    obtain ⟨sout, hsout⟩ := stmts_mem hbody s hs
    obtain ⟨scope', _, _, -, htout⟩ := stmt_of_contains ht hsout
    rcases stmt_exprs htout e he with hcode | hend
    · exact .inl ⟨scope', hcode⟩
    · exact .inr hend
  cases he with
  | inFunction hd hbody hs ht he =>
    obtain ⟨name, f, hf⟩ := function_of_mem h hd hbody
    simp only [function, Result.bind_eq_ok] at hf
    obtain ⟨_, -, _, -, out, hout, -⟩ := hf
    exact hstmts hout _ hs _ ht _ he
  | inMethod hd hbody hs ht he =>
    obtain ⟨f, hf⟩ := method_of_mem h hd hbody
    simp only [method, Result.bind_eq_ok] at hf
    obtain ⟨_, -, _, -, out, hout, -⟩ := hf
    exact hstmts hout _ hs _ ht _ he
  | inVariable hd he =>
    exact .inl ⟨{}, (global_of_mem h hd).2 _ he⟩

/-- So has every live part of it that neither stands for another nor ends a list. -/
theorem expr_of_live_part {u : SourceUnit} {out : List CodeItem}
    (h : items env (plan u.decls) = .ok out) {e x : Expr} {path : List Nat} (he : u.Holds e)
    (hlive : e.isLive env path = true) (hsub : e.sub? path = some x) (hx : ¬x.Absorbed)
    (hend : x.isListEnd = false) : ∃ scope peel code, expr env scope peel x = .ok code := by
  rcases expr_of_holds h he with ⟨scope, code, hcode⟩ | hlist
  · rcases expr_of_isLive hcode hlive hsub with hpart | habsorbed
    · exact ⟨scope, hpart⟩
    · exact absurd habsorbed hx
  · cases hend.symm.trans (isListEnd_of_isLive hlist hlive hsub)

/-- In a unit that has a file, every direct call to a function that the unit defines passes the
number of arguments that the definition takes. The file declares the function by that name and with
that number of parameters, the program's start apart: a call to it is met only by a definition that
is named `main` and takes nothing. -/
theorem direct_calls_match_declarations {package text : String} {cancelled : Bool} {u : SourceUnit}
    (h : generate env package cancelled (some u) = .ok text) :
    ∃ file, unit env package u = .ok file ∧ file.text = text ∧
      ∀ (d : FuncDecl) (body : List Stmt), .func d ∈ u.decls → d.body = some body →
        d.declared ∈ file.signatures ∧
        ∀ (e : Expr) (path : List Nat) (info ref : ExprInfo) (callee : Expr) (args : List Expr)
          (variadic : Bool) (p : Prototype), u.Holds e → e.isLive env path = true →
          e.sub? path = some (.call info callee args variadic .none) →
          env.constant? (.call info callee args variadic .none) = none →
          callee.directCallee? = some (ref, d.name) → callee.knownPrototype? = some p → p.Fits d →
          variadic = d.variadic →
          (∃ scope peel code, expr env scope peel (.call info callee args variadic .none) =
            .ok code) ∧
          ∀ scope peel code,
            expr env scope peel (.call info callee args variadic .none) = .ok code →
            ∃ codes, code = .apply (.name (identifier d.name)) codes ∧ codes.length = d.arity ∧
              (d.entry = false ∨ d.name = "main" ∧ d.arity = 0 →
                (identifier d.name, codes.length) ∈ file.signatures) := by
  obtain ⟨file, hfile, htext⟩ := generate_eq_ok h
  refine ⟨file, hfile, htext, fun d body hd hbody => ?_⟩
  have hdeclared := declared_mem_signatures hfile hd hbody
  refine ⟨hdeclared, fun e path info ref callee args variadic p he hlive hsub hc hcallee hp hfits
    hvariadic => ?_⟩
  obtain ⟨out, hout, -⟩ := Result.bind_eq_ok.mp hfile
  refine ⟨expr_of_live_part hout he hlive hsub (fun h => by cases h) rfl,
    fun scope peel code hcode => ?_⟩
  obtain ⟨codes, rfl, hlength⟩ := direct_call_code hc hcallee hp hfits hvariadic hcode
  refine ⟨codes, rfl, hlength, fun hentry => ?_⟩
  rw [hlength]
  rcases hentry with hentry | ⟨hname, harity⟩
  · simpa [FuncDecl.declared, hentry] using hdeclared
  · have hmain : identifier "main" = "main" := by decide
    cases hstart : d.entry with
    | false => simpa [FuncDecl.declared, hstart] using hdeclared
    | true => simpa [FuncDecl.declared, hstart, hname, harity, hmain] using hdeclared

/-- A function of one parameter that calls itself with its parameter `count` times. -/
def callsItself (name : String) (variadic entry : Bool) (count : Nat) : FuncDecl :=
  let int : CType := .scalar ⟨.int, 32, true⟩
  let info : ExprInfo := { type := some int }
  let n : Expr := .ref info "n" .parameter
  let callee : Expr := .ref { type := some (.function [int] int variadic) } name .function
  let call : Expr := .call info callee (List.replicate count n) variadic .none
  { name, params := [⟨{}, "n", int⟩], result := int, variadic, entry
    body := some [.ret {} (some (.cast info .noOp call false))] }

/-- A variadic function with a reserved name: the arguments after the first are passed as one. -/
theorem reserved_variadic_matches :
    ∃ file call scope peel codes,
      unit ⟨"", "", [], []⟩ "" ⟨"", "", [.func (callsItself "new" true false 3)]⟩ = .ok file ∧
      expr ⟨"", "", [], []⟩ scope peel call = .ok (.apply (.name "new_") codes) ∧
      codes.length = 2 ∧ ("new_", 2) ∈ file.signatures := by
  obtain ⟨text, htext⟩ : ∃ text, generate ⟨"", "", [], []⟩ "" false
      (some ⟨"", "", [.func (callsItself "new" true false 3)]⟩) = .ok text := ⟨_, rfl⟩
  obtain ⟨file, hfile, -, hcalls⟩ := direct_calls_match_declarations htext
  obtain ⟨-, hcalls⟩ := hcalls _ _ List.mem_cons_self rfl
  obtain ⟨⟨scope, peel, code, hcode⟩, hshape⟩ := hcalls _ [0] _ _ _ _ _ _
    (.inFunction List.mem_cons_self rfl List.mem_cons_self (.self _) List.mem_cons_self)
    rfl rfl rfl rfl rfl ⟨rfl, rfl⟩ rfl
  obtain ⟨codes, rfl, hlength, hmem⟩ := hshape scope peel code hcode
  have hmem := hmem (.inl rfl)
  rw [hlength] at hmem
  exact ⟨file, _, scope, peel, codes, hfile, hcode, hlength, hmem⟩

/-- The program's start that calls itself: the call passes an argument to `main`, and every function
of that name in the file takes none. -/
theorem recursive_start_mismatches :
    ∃ file e info ref callee args p,
      unit ⟨"", "", [], []⟩ "" ⟨"", "", [.func (callsItself "main" false true 1)]⟩ = .ok file ∧
      SourceUnit.Holds ⟨"", "", [.func (callsItself "main" false true 1)]⟩ e ∧
      e.isLive ⟨"", "", [], []⟩ [0] = true ∧
      e.sub? [0] = some (.call info callee args false .none) ∧
      callee.directCallee? = some (ref, "main") ∧ callee.knownPrototype? = some p ∧
      p.Fits (callsItself "main" false true 1) ∧
      (∃ arg, expr ⟨"", "", [], []⟩ {} false (.call info callee args false .none) =
        .ok (.apply (.name "main") [arg])) ∧
      ∀ n, ("main", n) ∈ file.signatures → n = 0 := by
  refine ⟨_, _, _, _, _, _, _, rfl,
    .inFunction List.mem_cons_self rfl List.mem_cons_self (.self _) List.mem_cons_self,
    rfl, rfl, rfl, rfl, ⟨rfl, rfl⟩, ⟨_, rfl⟩, fun n hn => ?_⟩
  have hsame : ("main", n) = ("main", 0) := List.mem_singleton.mp hn
  exact (Prod.mk.inj hsame).2

end Lower

end DartLowering
