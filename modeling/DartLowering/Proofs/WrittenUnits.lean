import DartLowering.Emit.Unit
import DartLowering.Proofs.PlannedItems
import DartLowering.Proofs.WrittenStmts

/-!
Writing a unit item by item gives the text of its file. All items share one writer and the kept
layouts, and yet `Emit.generate` answers as `Lower.generate` does: with the text of the file, or
with the failure of the first item that fails. From this the items of a unit are seen to be
generated independently of each other.
-/
namespace DartLowering

/-- The lines of a function before its closing brace. -/
def CodeFunction.start (level : Nat) (f : CodeFunction) : List String :=
  let params := f.params.map fun p => p.1 ++ " " ++ p.2
  indented level ((if f.isStatic then "static " else "") ++ f.result ++ " " ++ f.name ++ "(" ++
    Text.join ", " params ++ ") \x7b") :: CodeStmt.linesOf (level + 1) f.body

theorem CodeFunction.lines_eq (level : Nat) (f : CodeFunction) :
    f.lines level = f.start level ++ [indented level "\x7d"] := rfl

/-- Pieces with an empty line between them, the first of them number `i`. -/
def spaced (i : Nat) : List (List String) → List String
  | [] => []
  | p :: ps => (if 0 < i then [""] else []) ++ p ++ spaced (i + 1) ps

theorem spaced_succ (i : Nat) (ps : List (List String)) : spaced (i + 1) ps = spaced 1 ps := by
  induction ps generalizing i with
  | nil => rfl
  | cons p ps ih => simp only [spaced, ih (i + 1), ih 1, Nat.zero_lt_succ]

theorem spaced_zero_cons (p q : List String) (ps : List (List String)) :
    spaced 0 (p :: q :: ps) = p ++ [""] ++ spaced 0 (q :: ps) := by
  simp [spaced, spaced_succ]

theorem methodLines_eq (level : Nat) (fs : List CodeFunction) :
    methodLines level fs = spaced 0 (fs.map (CodeFunction.lines level)) := by
  induction fs with
  | nil => rfl
  | cons f fs ih =>
    cases fs with
    | nil => simp [methodLines, spaced]
    | cons g fs => simp only [methodLines, ih, List.map_cons, spaced_zero_cons]

theorem itemLines_eq (cs : List CodeItem) : itemLines cs = spaced 0 (cs.map CodeItem.lines) := by
  induction cs with
  | nil => rfl
  | cons c cs ih =>
    cases cs with
    | nil => simp [itemLines, spaced]
    | cons d cs => simp only [itemLines, ih, List.map_cons, spaced_zero_cons]

namespace Emit

open Writing
open Lower (Scope Item identifier)

variable {env : TypeEnv} {outer scope : Scope} {w : Writer}

section Functions

theorem parameter_prints (name : String) (t : CType) :
    Prints env (declaration env scope name t none .noInit) (env.mapType t)
      fun type => type ++ " " ++ identifier name := by
  intro w
  refine .find_last (.ofResult _) fun type _ => .print_bind (.print_bind (.pure ?_))
  rw [Writer.print_print, if_neg (by decide)]

theorem paramsFrom_print (i : Nat) (ps : List Param) :
    Prints env (paramsFrom env scope i ps) (Lower.paramsFrom env i ps)
      fun qs => listed i (qs.map fun q => q.1 ++ " " ++ q.2) := by
  induction ps generalizing i with
  | nil => exact fun w => .pure rfl
  | cons p ps ih =>
    intro w
    rw [paramsFrom, Lower.paramsFrom, comma_eq]
    refine .print_bind (((parameter_prints _ p.type).locate p.position _).bind fun type _ => ?_)
    refine (ih (i + 1) _).last fun qs _ => ?_
    simp [listed, String.append_assoc]

theorem params_print (ps : List Param) (variadic : Bool) :
    Prints env (params env scope ps variadic) (Lower.params env ps variadic)
      fun qs => Text.join ", " (qs.map fun q => q.1 ++ " " ++ q.2) := by
  intro w
  refine (paramsFrom_print 0 ps w).bind fun qs hqs => ?_
  cases variadic with
  | false =>
    refine .pure ?_
    simp [listed_zero]
  | true =>
    rw [if_pos rfl, comma_eq]
    refine .print_bind (.print ?_)
    dsimp only
    rw [if_pos rfl, ← listed_zero, List.map_append, listed_append, List.length_map,
      Lower.paramsFrom_length hqs]
    simp [listed, String.append_assoc]

/-- A function up to its closing brace, after the name of its result. -/
theorem function_writes (hw : w.atLineStart = true) {before name : String} {ps : List Param}
    {variadic isStatic : Bool} {result : String} {body : List Stmt}
    (hbefore : before = (if isStatic then "static " else "") ++ result ++ " ")
    (hbody : ∀ s ∈ body, WrittenStmt env s) :
    Writes env (w.print before) (function env outer scope name ps variadic body)
      (do
        let params ← Lower.params env ps variadic
        let body ← Lower.stmts env scope body
        .ok (⟨isStatic, result, name, params, body⟩ : CodeFunction))
      fun f => (w.add (f.start w.level)).print "\x7d" := by
  refine .print_bind ((params_print ps variadic _).bind fun params _ => .print_bind ?_)
  simp only [Writer.print_print]
  refine ((stmts_add hbody).block hw _).last fun code _ => ?_
  simp [CodeFunction.start, hbefore, String.append_assoc]

/-- The line of a closing brace completes a function. -/
theorem start_newline (hw : w.atLineStart = true) (f : CodeFunction) :
    ((w.add (f.start w.level)).print "\x7d").newline = w.add (f.lines w.level) := by
  rw [Writer.print_newline (by exact hw) (by decide), Writer.add_add, Writer.add_level,
    CodeFunction.lines_eq]

theorem method_adds {d : MethodDecl} {body : List Stmt} (hbody : ∀ s ∈ body, WrittenStmt env s) :
    Adds env (method env d body) (Lower.method env d body) CodeFunction.lines := by
  intro w hw
  refine .find_bind (.ofResult _) fun result _ => .print_bind (.print_bind ?_)
  rw [Writer.print_print]
  have hbefore : (if d.classMethod then "static " else "") ++ (result ++ " ") =
      (if d.classMethod then "static " else "") ++ result ++ " " := (String.append_assoc ..).symm
  refine (function_writes hw hbefore hbody).followed fun f _ => .newline ?_
  exact start_newline hw f

theorem emptyLine_writes (hw : w.atLineStart = true) (i : Nat) :
    Writes env w (emptyLine i) (.ok ()) fun _ => w.add (if 0 < i then [""] else []) := by
  unfold emptyLine
  by_cases hi : 0 < i
  · rw [if_pos hi, if_pos hi]
    exact .newline (Writer.newline_eq hw)
  · rw [if_neg hi, if_neg hi]
    exact .pure Writer.add_nil.symm

theorem methodsFrom_add {ms : List (MethodDecl × List Stmt)} (i : Nat)
    (hms : ∀ m ∈ ms, ∀ s ∈ m.2, WrittenStmt env s) :
    Adds env (methodsFrom env i ms) (Lower.methods env ms)
      fun level fs => spaced i (fs.map (CodeFunction.lines level)) := by
  induction ms generalizing i with
  | nil => exact fun w hw => .pure Writer.add_nil.symm
  | cons m ms ih =>
    obtain ⟨d, body⟩ := m
    obtain ⟨hbody, hrest⟩ := List.forall_mem_cons.mp hms
    intro w hw
    refine (emptyLine_writes hw i).ok_bind ?_
    refine ((method_adds hbody).locate d.position (w.add _) hw).bind fun f _ => ?_
    refine (ih (i + 1) hrest ((w.add _).add _) hw).last fun fs _ => ?_
    simp [spaced]

end Functions

section Values

variable (h : env.Settled) {result : String} {d : FuncDecl} {body : List Stmt}

include h

theorem defaultArgumentsFrom_print (i : Nat) (ps : List Param) :
    Prints env (defaultArgumentsFrom env i ps) (Lower.defaultArguments env ps)
      fun codes => listed i (codes.map Code.text) := by
  induction ps generalizing i with
  | nil => exact fun w => .pure rfl
  | cons p ps ih =>
    intro w
    rw [defaultArgumentsFrom, Lower.defaultArguments, comma_eq]
    refine .print_bind (((defaultValue_prints h p.type).locate p.position _).bind fun code _ => ?_)
    refine (ih (i + 1) _).last fun codes _ => ?_
    simp [listed, String.append_assoc]

omit h in
theorem defaultArguments_length {ps : List Param} {codes : List Code}
    (hcodes : Lower.defaultArguments env ps = .ok codes) : codes.length = ps.length := by
  induction ps generalizing codes with
  | nil =>
    cases hcodes
    rfl
  | cons p ps ih =>
    obtain ⟨code, -, hrest⟩ := Result.bind_eq_ok.mp hcodes
    obtain ⟨more, hmore, hok⟩ := Result.bind_eq_ok.mp hrest
    cases hok
    rw [List.length_cons, List.length_cons, ih hmore]

omit h in
theorem noVarArgs_eq (d : FuncDecl) :
    noVarArgs d = print (listed d.params.length
      ((if d.variadic then [Code.apply (.name Wrapper.varArgs) [.list []]] else []).map
        Code.text)) := by
  unfold noVarArgs
  cases d.variadic with
  | false => rfl
  | true =>
    rw [if_pos rfl, if_pos rfl, comma_eq, print_bind_print]
    simp [listed, Code.text, Code.texts, Lower.join_nil, Lower.join_singleton, String.append_assoc]

theorem global_writes {d : VarDecl} (hinit : ∀ e, d.init = some e → e.Complete)
    (hw : w.atLineStart = true) (hlevel : w.level = 0) :
    Writes env w (global env d) (Lower.global env d) fun c => w.add c.lines := by
  refine .find_bind (.ofResult _) fun type _ => .print_bind ?_
  unfold globalValue
  cases hd : d.init with
  | some e =>
    refine (expr_prints h (hinit e hd) false _).bind fun value _ => .line ?_
    rw [Writer.print_print, Writer.print_print, Writer.print_newline hw (by simp)]
    simp [CodeItem.lines, Declarator.text, indented, hlevel, Text.spaces, String.append_assoc]
  | none =>
    refine (defaultValue_prints h d.type _).bind fun value _ => .line ?_
    rw [Writer.print_print, Writer.print_print, Writer.print_newline hw (by simp)]
    simp [CodeItem.lines, Declarator.text, indented, hlevel, Text.spaces, String.append_assoc]

/-- A function once the class of its result is known. -/
def functionOf (env : TypeEnv) (result name : String) (d : FuncDecl) (body : List Stmt) :
    Result CodeFunction := do
  let params ← Lower.params env d.params d.variadic
  let body ← Lower.stmts env { variadic := d.variadic } body
  .ok ⟨false, result, name, params, body⟩

omit h in
theorem function_eq (name : String) (d : FuncDecl) (body : List Stmt) :
    Lower.function env name d body =
      (env.mapType d.result >>= fun result => functionOf env result name d body) := rfl

omit h in
theorem functionOf_name {name : String} {f : CodeFunction}
    (hf : functionOf env result name d body = .ok f) : f.name = name := by
  obtain ⟨params, -, hrest⟩ := Result.bind_eq_ok.mp hf
  obtain ⟨code, -, hok⟩ := Result.bind_eq_ok.mp hrest
  cases hok
  rfl

omit h in
theorem functionOf_writes {name : String} (hbody : ∀ s ∈ body, WrittenStmt env s)
    (hw : w.atLineStart = true) :
    Writes env (w.print (result ++ " "))
      (function env {} { variadic := d.variadic } name d.params d.variadic body)
      (functionOf env result name d body) fun f => (w.add (f.start w.level)).print "\x7d" :=
  function_writes hw (by simp) hbody

/-- What stands inside the start of the program: the function of the source and the call of it. -/
theorem entryBody_writes (hbody : ∀ s ∈ body, WrittenStmt env s) (hw : w.atLineStart = true) :
    Writes env w
      (do
        print (result ++ " ")
        function env {} { variadic := d.variadic } Lower.entryInner d.params d.variadic body
        newline
        print (Lower.entryInner ++ "(")
        defaultArgumentsFrom env 0 d.params
        noVarArgs d
        line ");")
      (do
        let inner ← functionOf env result Lower.entryInner d body
        let args ← Lower.defaultArguments env d.params
        let extra := if d.variadic then [Code.apply (.name Wrapper.varArgs) [.list []]] else []
        .ok (inner, args ++ extra))
      fun p => w.add (p.1.lines w.level ++
        [indented w.level ((Code.apply (.name p.1.name) p.2).text ++ ";")]) := by
  refine .print_bind ((functionOf_writes hbody hw).bind fun inner hinner => .newline_bind ?_)
  rw [start_newline hw]
  refine .print_bind ((defaultArgumentsFrom_print h 0 d.params _).bind fun args hargs => ?_)
  have hcall : ∀ extra : List Code, (Code.apply (.name inner.name) (args ++ extra)).text ++ ";" =
      Lower.entryInner ++ "(" ++ listed 0 (args.map Code.text) ++
        listed d.params.length (extra.map Code.text) ++ ");" := by
    intro extra
    rw [functionOf_name hinner, Code.text, texts_eq_map, ← listed_zero, List.map_append,
      listed_append, List.length_map, defaultArguments_length hargs]
    simp [← String.toList_inj, Code.text]
  rw [noVarArgs_eq]
  refine .print_bind (.line ?_)
  simp only [Writer.print_print]
  rw [Writer.print_newline (by exact hw) (by simp), Writer.add_add, hcall]
  rfl

theorem entryPoint_writes (hbody : ∀ s ∈ body, WrittenStmt env s) (hw : w.atLineStart = true)
    (hlevel : w.level = 0) :
    Writes env w (entryPoint env d body) (Lower.entryPoint env d body) fun c => w.add c.lines := by
  have hpair : ∀ f? : Result CodeFunction, (do
      let inner ← f?
      let args ← Lower.defaultArguments env d.params
      let extra := if d.variadic then [Code.apply (.name Wrapper.varArgs) [.list []]] else []
      .ok (CodeItem.main inner (args ++ extra))) = ((do
        let inner ← f?
        let args ← Lower.defaultArguments env d.params
        let extra := if d.variadic then [Code.apply (.name Wrapper.varArgs) [.list []]] else []
        .ok (inner, args ++ extra)) >>= fun p => .ok (.main p.1 p.2)) := by
    intro f?
    simp only [bind_assoc, Result.ok_bind]
  unfold entryPoint Lower.entryPoint
  rw [function_eq, bind_assoc]
  refine .find_bind (.ofResult _) fun result _ => .line_bind ?_
  rw [Writer.print_newline hw (by decide), hpair]
  have hinner : (w.add [indented w.level "void main() \x7b"]).deeper.atLineStart = true := hw
  refine (entryBody_writes h hbody hinner).deeper.bind fun p _ => .line ?_
  rw [Writer.deeper_add_shallower, Writer.add_add, Writer.print_newline (by exact hw) (by decide),
    Writer.add_add]
  simp [CodeItem.lines, Writer.deeper, indented, hlevel, Text.spaces, String.append_assoc]

theorem item_writes {decls : List Decl} (hdecls : ∀ d ∈ decls, d.Complete) {i : Item}
    (hi : i.Planned decls) (hw : w.atLineStart = true) (hlevel : w.level = 0) :
    Writes env w (item env i) (Lower.item env i) fun c => w.add c.lines := by
  cases i with
  | function d body =>
    have hbody : ∀ s ∈ body, WrittenStmt env s :=
      fun s hs => (stmt_written h s ((hdecls _ hi.1).2.2 body hi.2 s hs)).1
    refine .locate d.position ?_
    unfold funcDecl
    split
    · exact entryPoint_writes h hbody hw hlevel
    · rw [function_eq, bind_assoc]
      refine .find_bind (.ofResult _) fun result _ => .print_bind ?_
      refine (functionOf_writes hbody hw).bind fun f _ => .newline ?_
      rw [start_newline hw, hlevel]
      rfl
  | «variable» d => exact .locate d.position (global_writes h (hdecls _ hi).2 hw hlevel)
  | «class» owner ms =>
    have hms : ∀ m ∈ ms, ∀ s ∈ m.2, WrittenStmt env s := by
      intro m hm s hs
      obtain ⟨hmem, -, hbody⟩ := hi.2 m hm
      exact (stmt_written h s ((hdecls _ hmem).2.2 m.2 hbody s hs)).1
    refine .line_bind ?_
    rw [Writer.print_newline hw (by simp)]
    refine ((methodsFrom_add 0 hms).deeper (w.add _) hw).bind fun fs _ => .line ?_
    rw [Writer.add_add, Writer.print_newline (by exact hw) (by decide), Writer.add_add]
    simp [CodeItem.lines, methodLines_eq, indented, hlevel, Text.spaces]

end Values

section Units

variable (h : env.Settled)

theorem importLines_writes (uris : List String) (hw : w.atLineStart = true) (hlevel : w.level = 0) :
    Writes env w (importLines uris) (.ok ()) fun _ =>
      w.add (uris.map fun uri => "import '" ++ uri ++ "';") := by
  induction uris generalizing w with
  | nil => exact .pure Writer.add_nil.symm
  | cons uri uris ih =>
    refine .line_bind ?_
    rw [Writer.print_newline hw (by simp)]
    refine (ih (w := w.add _) hw hlevel).congr fun _ _ => ?_
    simp [indented, hlevel, Text.spaces]

include h

theorem itemsFrom_writes {decls : List Decl} (hdecls : ∀ d ∈ decls, d.Complete) {is : List Item}
    (his : ∀ i ∈ is, i.Planned decls) (hw : w.atLineStart = true) (hlevel : w.level = 0) (n : Nat) :
    Writes env w (itemsFrom env false n is) (Lower.items env is) fun cs =>
      w.add (spaced n (cs.map CodeItem.lines)) := by
  induction is generalizing w n with
  | nil => exact .pure Writer.add_nil.symm
  | cons i is ih =>
    obtain ⟨hi, hrest⟩ := List.forall_mem_cons.mp his
    rw [itemsFrom, Lower.items, if_neg (by decide)]
    refine (emptyLine_writes hw n).ok_bind ?_
    refine (item_writes h hdecls hi (w := w.add _) hw hlevel).bind fun c _ => ?_
    refine (ih hrest (w := (w.add _).add _) hw hlevel (n + 1)).last fun cs _ => ?_
    simp [spaced]

/-- A unit as a run that may have been stopped leaves it. -/
def unitUnless (env : TypeEnv) (package : String) (cancelled : Bool) (u : SourceUnit) :
    Result CodeFile :=
  if cancelled && !(Lower.plan u.decls).isEmpty then .error (.plain "context canceled")
  else Lower.unit env package u

omit h in
theorem generate_eq_bind (package : String) (cancelled : Bool) (u : SourceUnit) :
    Lower.generate env package cancelled (some u) =
      (unitUnless env package cancelled u >>= fun f => .ok f.text) := by
  unfold Lower.generate unitUnless
  dsimp only
  split
  · rfl
  · rfl

theorem file_writes {u : SourceUnit} (hu : u.Complete) (package : String) (cancelled : Bool) :
    Writes env {} (file env package cancelled u) (unitUnless env package cancelled u) fun f =>
      Writer.add {} f.lines := by
  have hheader : ((({} : Writer).print Lower.header).newline) = Writer.add {} [Lower.header] :=
    Writer.print_newline rfl (by decide)
  refine .line_bind ?_
  rw [hheader]
  refine (importLines_writes (w := Writer.add {} _) _ rfl rfl).ok_bind (.newline_bind ?_)
  rw [Writer.newline_eq rfl, Writer.add_add, Writer.add_add]
  unfold unitUnless
  cases hplan : Lower.plan u.decls with
  | nil =>
    rw [List.isEmpty_nil, Bool.not_true, Bool.and_false, if_neg (by decide), Lower.unit, hplan]
    refine .pure ?_
    simp [CodeFile.lines, itemLines]
  | cons i is =>
    cases cancelled with
    | true => exact .fail _
    | false =>
      rw [Bool.false_and, if_neg (by decide), Lower.unit, hplan]
      have his : ∀ j ∈ i :: is, j.Planned u.decls :=
        hplan ▸ Lower.planned_of_mem_plan u.decls
      refine (itemsFrom_writes h hu his (w := Writer.add {} _) rfl rfl 0).last fun cs _ => ?_
      simp [CodeFile.lines, itemLines_eq]

/-- Emission with one writer and kept layouts gives the file of the unit. -/
theorem generate_answers {u : SourceUnit} (hu : u.Complete) (package : String) (cancelled : Bool) :
    Lookup.Answers env (generate env package cancelled (some u))
      (Lower.generate env package cancelled (some u)) := by
  intro layouts hlayouts
  obtain ⟨d, hfile, hd, hwriter⟩ := file_writes h hu package cancelled layouts hlayouts
  refine ⟨d.layouts, (congrArg (Option.map _) hfile).trans ?_, hd⟩
  rw [generate_eq_bind]
  cases hunit : unitUnless env package cancelled u with
  | error failure => rfl
  | ok f =>
    have htext : d.writer.text = f.text := by
      rw [hwriter f hunit]
      exact String.empty_append
    exact congrArg (fun text => some (Except.ok text, d.layouts)) htext

end Units

section Independence

/-- The items of a unit are generated independently of each other. `i.alone u` holds the
declarations of the planned item `i` and plans nothing else. The whole unit has a file exactly when
each of these units has one, and then it holds the texts that they have after the first lines, in
order and with one empty line after the end of each but the last; otherwise it fails as the first of
them that fails. Emission into one text, with layouts that were kept for other items or before,
comes to the same. -/
theorem items_generated_independently (env : TypeEnv) (package : String) (u : SourceUnit) :
    (∀ i ∈ Lower.plan u.decls, Lower.plan (i.alone u).decls = [i] ∧
      ∀ d ∈ (i.alone u).decls, d ∈ u.decls) ∧
    ((∃ text, Lower.generate env package false (some u) = .ok text) ↔
      ∀ i ∈ Lower.plan u.decls, ∃ text,
        Lower.generate env package false (some (i.alone u)) = .ok text) ∧
    (∀ text, Lower.generate env package false (some u) = .ok text → ∃ texts : List String,
      List.Forall₂ (fun i own => Lower.generate env package false (some (i.alone u)) =
        .ok (Lower.preamble package ++ own)) (Lower.plan u.decls) texts ∧
      (∀ own ∈ texts, ∃ s, own = s ++ "\n") ∧
      text = Lower.preamble package ++ Text.join "\n" texts) ∧
    (∀ failure, Lower.generate env package false (some u) = .error failure ↔
      ∃ before i after, Lower.plan u.decls = before ++ i :: after ∧
        (∀ j ∈ before, ∃ text, Lower.generate env package false (some (j.alone u)) = .ok text) ∧
        Lower.generate env package false (some (i.alone u)) = .error failure) ∧
    (env.Settled → u.Complete → Lookup.Answers env (generate env package false (some u))
      (Lower.generate env package false (some u))) := by
  refine ⟨?_, Lower.generate_isOk_iff env package u, ?_,
    Lower.generate_eq_error_iff env package u, ?_⟩
  · intro i hi
    have hplanned := Lower.planned_of_mem_plan u.decls i hi
    exact ⟨hplanned.plan_decls, hplanned.mem_of_mem_decls⟩
  · intro text htext
    exact Lower.generate_texts env package u htext
  · intro hsettled hcomplete
    exact generate_answers hsettled hcomplete package false

/-- A variable, and a class with one method that does nothing. -/
def counter : SourceUnit where
  name := "u"
  file := "u.c"
  decls :=
    [.var { name := "count", type := .scalar ⟨.int, 32, true⟩ },
      .method { owner := "Counter", selector := "reset", params := [], result := .void,
                body := some [], classMethod := false }]

/-- The two items of the unit have files of their own, and emission into one text goes through. -/
theorem counter_items : ∃ env : TypeEnv, env.Settled ∧ counter.Complete ∧
    (Lower.plan counter.decls).length = 2 ∧
    (∀ i ∈ Lower.plan counter.decls, ∃ text,
      Lower.generate env "" false (some (i.alone counter)) = .ok text) ∧
    Lookup.Answers env (generate env "" false (some counter))
      (Lower.generate env "" false (some counter)) := by
  have hsettled : (TypeEnv.ofMarkers "" "" []).Settled := by
    refine ⟨RecordTable.acyclic_of_rank (fun _ => 0) (List.forall_mem_nil _), ?_⟩
    intro tag l hknown
    cases hknown
  have hcomplete : counter.Complete := by
    simp [counter, SourceUnit.Complete, Decl.Throughout]
  obtain ⟨-, hisOk, -, -, hanswers⟩ :=
    items_generated_independently (TypeEnv.ofMarkers "" "" []) "" counter
  exact ⟨_, hsettled, hcomplete, rfl, hisOk.mp ⟨_, rfl⟩, hanswers hsettled hcomplete⟩

end Independence

end Emit

end DartLowering
