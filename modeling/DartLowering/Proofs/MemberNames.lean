import DartLowering.Proofs.CallArity
import Mathlib.Data.List.Forall2

/-!
Names of methods. A selector loses a colon at its end, its other colons become underscores, and a
reserved word gets an underscore behind it, so several selectors can have one name:
`WrittenAlike` says which, on the selectors alone. The members of a class are its methods in their
order under these names, and a send calls by the name of its selector; methods whose selectors are
not written alike are therefore never taken for each other.
-/
namespace DartLowering

def Expr.selector? : Expr → Option String
  | .message _ _ selector _ | .classMessage _ _ selector _ => some selector
  | _ => none

section Sends

variable {x : Expr} {selector : String} (h : x.selector? = some selector)

include h

theorem Expr.not_absorbed_of_selector? : ¬ x.Absorbed := by
  rintro (_ | _ | _) <;> cases h

theorem Expr.isListEnd_of_selector? : x.isListEnd = false := by
  cases x with
  | message | classMessage => rfl
  | _ => cases h

end Sends

namespace Lower

/-- The characters of a selector, without a colon at the end. -/
def bare (selector : String) : List Char :=
  Text.withoutSuffix [':'] selector.toList

/-- Colons and underscores are written alike. -/
def SameMark (a b : Char) : Prop :=
  a = b ∨ a ∈ [':', '_'] ∧ b ∈ [':', '_']

/-- A reserved word, and that word with a mark behind it. -/
def Escapes (cs ds : List Char) : Prop :=
  ∃ w ∈ reserved, cs = w.toList ∧ (ds = w.toList ++ [':'] ∨ ds = w.toList ++ ['_'])

/-- The selectors that become one name. -/
def WrittenAlike (s t : String) : Prop :=
  List.Forall₂ SameMark (bare s) (bare t) ∨ Escapes (bare s) (bare t) ∨ Escapes (bare t) (bare s)

instance (a b : Char) : Decidable (SameMark a b) :=
  inferInstanceAs (Decidable (a = b ∨ a ∈ [':', '_'] ∧ b ∈ [':', '_']))

instance (cs ds : List Char) : Decidable (Escapes cs ds) :=
  inferInstanceAs (Decidable
    (∃ w ∈ reserved, cs = w.toList ∧ (ds = w.toList ++ [':'] ∨ ds = w.toList ++ ['_'])))

instance (s t : String) : Decidable (WrittenAlike s t) :=
  inferInstanceAs (Decidable (List.Forall₂ SameMark (bare s) (bare t) ∨
    Escapes (bare s) (bare t) ∨ Escapes (bare t) (bare s)))

def mark (c : Char) : Char := if c = ':' then '_' else c

theorem selectorName_eq (selector : String) :
    selectorName selector = identifier (String.ofList ((bare selector).map mark)) :=
  rfl

section Names

variable {a b : String} {cs ds : List Char} {w : String}

theorem mark_of_ne {c : Char} (h : c ≠ ':') : mark c = c :=
  if_neg h

theorem mark_eq_underscore_iff {c : Char} : mark c = '_' ↔ c ∈ [':', '_'] := by
  rw [List.mem_pair]
  by_cases h : c = ':'
  · simp [mark, h]
  · simp [mark_of_ne h, h]

theorem mark_eq_iff {c d : Char} : mark c = mark d ↔ SameMark c d := by
  constructor
  · intro h
    by_cases hd : d = ':'
    · have hmark : mark c = '_' := h.trans (if_pos hd)
      exact .inr ⟨mark_eq_underscore_iff.mp hmark, List.mem_pair.mpr (.inl hd)⟩
    · by_cases hc : c = ':'
      · have hmark : mark d = '_' := h.symm.trans (if_pos hc)
        exact .inr ⟨List.mem_pair.mpr (.inl hc), mark_eq_underscore_iff.mp hmark⟩
      · rw [mark_of_ne hc, mark_of_ne hd] at h
        exact .inl h
  · rintro (rfl | ⟨hc, hd⟩)
    · rfl
    · rw [mark_eq_underscore_iff.mpr hc, mark_eq_underscore_iff.mpr hd]

theorem map_mark_eq_iff : cs.map mark = ds.map mark ↔ List.Forall₂ SameMark cs ds := by
  rw [← List.forall₂_eq_eq_eq, List.forall₂_map_left_iff, List.forall₂_map_right_iff]
  simp only [mark_eq_iff]

theorem mark_not_mem_of_reserved (h : w ∈ reserved) : ':' ∉ w.toList ∧ '_' ∉ w.toList := by
  have hall : reserved.all (fun w => !w.toList.contains ':' && !w.toList.contains '_') = true := by
    decide
  simpa using List.all_eq_true.mp hall w h

/-- A reserved word comes from itself alone, since it has no mark in it. -/
theorem map_mark_eq_reserved_iff (h : w ∈ reserved) : cs.map mark = w.toList ↔ cs = w.toList := by
  obtain ⟨hcolon, hunderscore⟩ := mark_not_mem_of_reserved h
  constructor
  · intro hcs
    have hsame : cs.map mark = cs.map id := by
      refine List.map_congr_left fun c hc => mark_of_ne ?_
      rintro rfl
      exact hunderscore (hcs ▸ List.mem_map_of_mem (f := mark) hc)
    rwa [hsame, List.map_id] at hcs
  · rintro rfl
    have hsame : w.toList.map mark = w.toList.map id :=
      List.map_congr_left fun c hc => mark_of_ne fun hc' => hcolon (hc' ▸ hc)
    rw [hsame, List.map_id]

theorem map_mark_eq_escaped_iff (h : w ∈ reserved) :
    cs.map mark = w.toList ++ ['_'] ↔ cs = w.toList ++ [':'] ∨ cs = w.toList ++ ['_'] := by
  rw [List.map_eq_append_iff]
  constructor
  · rintro ⟨front, back, rfl, hfront, hback⟩
    obtain ⟨c, rfl, hc⟩ := List.map_eq_singleton_iff.mp hback
    rw [map_mark_eq_reserved_iff h] at hfront
    rcases List.mem_pair.mp (mark_eq_underscore_iff.mp hc) with rfl | rfl
    · exact .inl (by rw [hfront])
    · exact .inr (by rw [hfront])
  · rintro (rfl | rfl)
    · exact ⟨w.toList, [':'], rfl, (map_mark_eq_reserved_iff h).mpr rfl, rfl⟩
    · exact ⟨w.toList, ['_'], rfl, (map_mark_eq_reserved_iff h).mpr rfl, rfl⟩

theorem identifier_of_reserved (h : a ∈ reserved) : identifier a = a ++ "_" :=
  if_pos (List.contains_iff_mem.mpr h)

theorem identifier_of_not_reserved (h : a ∉ reserved) : identifier a = a :=
  if_neg fun hin => h (List.contains_iff_mem.mp hin)

theorem append_underscore_not_reserved (a : String) : a ++ "_" ∉ reserved := by
  intro h
  apply (mark_not_mem_of_reserved h).2
  simp

/-- An identifier belongs to one name, unless it comes from a reserved word. -/
theorem identifier_eq_iff :
    identifier a = identifier b ↔
      a = b ∨ a ∈ reserved ∧ b = a ++ "_" ∨ b ∈ reserved ∧ a = b ++ "_" := by
  by_cases ha : a ∈ reserved
  · by_cases hb : b ∈ reserved
    · rw [identifier_of_reserved ha, identifier_of_reserved hb, String.append_left_inj]
      refine ⟨.inl, ?_⟩
      rintro (rfl | ⟨-, rfl⟩ | ⟨-, rfl⟩)
      · rfl
      · exact absurd hb (append_underscore_not_reserved a)
      · exact absurd ha (append_underscore_not_reserved b)
    · rw [identifier_of_reserved ha, identifier_of_not_reserved hb]
      refine ⟨fun h => .inr (.inl ⟨ha, h.symm⟩), ?_⟩
      rintro (rfl | ⟨-, rfl⟩ | ⟨hb', -⟩)
      · exact absurd ha hb
      · rfl
      · exact absurd hb' hb
  · by_cases hb : b ∈ reserved
    · rw [identifier_of_not_reserved ha, identifier_of_reserved hb]
      refine ⟨fun h => .inr (.inr ⟨hb, h⟩), ?_⟩
      rintro (rfl | ⟨ha', -⟩ | ⟨-, rfl⟩)
      · exact absurd hb ha
      · exact absurd ha' ha
      · rfl
    · rw [identifier_of_not_reserved ha, identifier_of_not_reserved hb]
      refine ⟨.inl, ?_⟩
      rintro (rfl | ⟨ha', -⟩ | ⟨hb', -⟩)
      · rfl
      · exact absurd ha' ha
      · exact absurd hb' hb

theorem escapes_iff :
    String.ofList (cs.map mark) ∈ reserved ∧
        String.ofList (ds.map mark) = String.ofList (cs.map mark) ++ "_" ↔ Escapes cs ds := by
  constructor
  · rintro ⟨hw, hds⟩
    have hcs : cs = (String.ofList (cs.map mark)).toList :=
      (map_mark_eq_reserved_iff hw).mp String.toList_ofList.symm
    have hds : ds.map mark = (String.ofList (cs.map mark)).toList ++ ['_'] := by
      rw [← String.toList_ofList (l := ds.map mark), hds, String.toList_append]
      rfl
    exact ⟨_, hw, hcs, (map_mark_eq_escaped_iff hw).mp hds⟩
  · rintro ⟨w, hw, rfl, hmark⟩
    have hcs : w.toList.map mark = w.toList := (map_mark_eq_reserved_iff hw).mpr rfl
    rw [hcs, (map_mark_eq_escaped_iff hw).mpr hmark, String.ofList_append, String.ofList_toList]
    exact ⟨hw, rfl⟩

/-- Two selectors have one name exactly if they are written alike. -/
theorem selectorName_eq_iff {s t : String} :
    selectorName s = selectorName t ↔ WrittenAlike s t := by
  rw [selectorName_eq, selectorName_eq, identifier_eq_iff, escapes_iff, escapes_iff,
    String.ofList_inj, map_mark_eq_iff]
  rfl

example : WrittenAlike "size" "size:" ∧ WrittenAlike "move:by:" "move_by" ∧
    WrittenAlike "class" "class::" ∧ ¬ WrittenAlike "moveBy:" "move:by:" := by
  decide

end Names

section Members

variable {env : TypeEnv} {owner : String}

theorem method_name {d : MethodDecl} {body : List Stmt} {f : CodeFunction}
    (h : method env d body = .ok f) : f.name = selectorName d.selector := by
  simp only [method, Result.bind_eq_ok, Except.ok.injEq] at h
  obtain ⟨_, -, _, -, _, -, rfl⟩ := h
  dsimp only

theorem methods_forall₂ {ms : List (MethodDecl × List Stmt)} {fs : List CodeFunction}
    (h : methods env ms = .ok fs) : List.Forall₂ (fun m f => method env m.1 m.2 = .ok f) ms fs := by
  induction ms generalizing fs with
  | nil =>
    cases h
    exact .nil
  | cons m ms ih =>
    simp only [methods, Result.bind_eq_ok, Result.locate_eq_ok, Except.ok.injEq] at h
    obtain ⟨first, hfirst, rest, hrest, rfl⟩ := h
    exact .cons hfirst (ih hrest)

/-- The members of the class that a file declares for an owner, one for each of its methods. -/
def Declares (env : TypeEnv) (u : SourceUnit) (file : CodeFile) (owner : String)
    (members : List CodeFunction) : Prop :=
  .class (identifier owner) Wrapper.objectBase members ∈ file.items ∧
    List.Forall₂ (fun m f => method env m.1 m.2 = .ok f) (methodsOf owner u.decls) members

theorem exists_declares {package : String} {u : SourceUnit} {file : CodeFile}
    (h : unit env package u = .ok file) (hne : methodsOf owner u.decls ≠ []) :
    ∃ members, Declares env u file owner members := by
  simp only [unit, Result.bind_eq_ok, Except.ok.injEq] at h
  obtain ⟨out, hout, rfl⟩ := h
  obtain ⟨code, hmem, hcode⟩ := items_mem hout _ (class_mem_planFrom hne List.not_mem_nil)
  simp only [item, Result.bind_eq_ok, Except.ok.injEq] at hcode
  obtain ⟨members, hmembers, rfl⟩ := hcode
  exact ⟨members, hmem, methods_forall₂ hmembers⟩

section Declared

variable {u : SourceUnit} {file : CodeFile} {members : List CodeFunction}
  (h : Declares env u file owner members)

include h

theorem Declares.exists_member {m : MethodDecl × List Stmt} (hm : m ∈ methodsOf owner u.decls) :
    ∃ f ∈ members, method env m.1 m.2 = .ok f := by
  obtain ⟨i, hi, rfl⟩ := List.mem_iff_getElem.mp hm
  obtain ⟨hlength, hall⟩ := List.forall₂_iff_get.mp h.2
  have hi' : i < members.length := hlength ▸ hi
  exact ⟨members[i], List.getElem_mem hi', hall i hi hi'⟩

/-- The members that are called by the name of a selector. -/
theorem Declares.named (selector : String) :
    List.Forall₂ (fun m f => f.name = selectorName selector ↔ WrittenAlike selector m.1.selector)
      (methodsOf owner u.decls) members := by
  refine h.2.imp fun m f hf => ?_
  rw [method_name hf, eq_comm, selectorName_eq_iff]

end Declared

theorem send_code {scope : Scope} {peel : Bool} {x : Expr} {selector : String} {code : Code}
    (hx : x.selector? = some selector) (hc : env.constant? x = none)
    (h : expr env scope peel x = .ok code) :
    ∃ receiver codes, code = .invoke receiver (selectorName selector) codes := by
  cases x with
  | message info receiver s args =>
    cases hx
    rw [expr, orConstant_eq_ok hc] at h
    simp only [Result.bind_eq_ok, Except.ok.injEq] at h
    obtain ⟨target, -, codes, -, rfl⟩ := h
    exact ⟨_, codes, rfl⟩
  | classMessage info className s args =>
    cases hx
    rw [expr, orConstant_eq_ok hc] at h
    simp only [Result.bind_eq_ok, Except.ok.injEq] at h
    obtain ⟨codes, -, rfl⟩ := h
    exact ⟨_, codes, rfl⟩
  | _ => cases hx

end Members

/-- In a unit that has a file, two methods of a class have one name exactly if their selectors are
written alike, and a send calls, in every class, the methods whose selectors are written like its
own. -/
theorem member_names_meet_iff {env : TypeEnv} {package text : String} {cancelled : Bool}
    {u : SourceUnit} (h : generate env package cancelled (some u) = .ok text) :
    ∃ file, unit env package u = .ok file ∧ file.text = text ∧
      (∀ (d d' : MethodDecl) (body body' : List Stmt), .method d ∈ u.decls → d.body = some body →
        .method d' ∈ u.decls → d'.body = some body' → d'.owner = d.owner →
        ∃ members f f', Declares env u file d.owner members ∧ f ∈ members ∧ f' ∈ members ∧
          method env d body = .ok f ∧ method env d' body' = .ok f' ∧
          (f.name = f'.name ↔ WrittenAlike d.selector d'.selector)) ∧
      ∀ (e x : Expr) (path : List Nat) (selector : String), u.Holds e → e.isLive env path = true →
        e.sub? path = some x → x.selector? = some selector → env.constant? x = none →
        (∃ scope peel code, expr env scope peel x = .ok code) ∧
        (∀ scope peel code, expr env scope peel x = .ok code →
          ∃ receiver codes, code = .invoke receiver (selectorName selector) codes) ∧
        ∀ owner members, Declares env u file owner members →
          List.Forall₂ (fun m f => f.name = selectorName selector ↔
            WrittenAlike selector m.1.selector) (methodsOf owner u.decls) members := by
  obtain ⟨file, hfile, htext⟩ := generate_eq_ok h
  refine ⟨file, hfile, htext, ?_, ?_⟩
  · intro d d' body body' hd hbody hd' hbody' howner
    have hmem := mem_methodsOf hd hbody
    have hmem' := mem_methodsOf hd' hbody'
    rw [howner] at hmem'
    obtain ⟨members, hdeclares⟩ := exists_declares hfile (List.ne_nil_of_mem hmem)
    obtain ⟨f, hf, hmethod⟩ := hdeclares.exists_member hmem
    obtain ⟨f', hf', hmethod'⟩ := hdeclares.exists_member hmem'
    refine ⟨members, f, f', hdeclares, hf, hf', hmethod, hmethod', ?_⟩
    rw [method_name hmethod, method_name hmethod', selectorName_eq_iff]
  · intro e x path selector he hlive hsub hx hc
    obtain ⟨out, hout, -⟩ := Result.bind_eq_ok.mp hfile
    exact ⟨expr_of_live_part hout he hlive hsub (Expr.not_absorbed_of_selector? hx)
        (Expr.isListEnd_of_selector? hx), fun _ _ _ hcode => send_code hx hc hcode,
      fun owner members hdeclares => hdeclares.named selector⟩

/-- A method of a class that takes numbers and returns nothing. -/
def boxMethod (selector : String) (params : List String) (body : List Stmt) : MethodDecl where
  owner := "Box"
  selector := selector
  params := params.map fun name => ⟨{}, name, .scalar ⟨.int, 32, true⟩⟩
  result := .void
  body := some body
  classMethod := false

/-- A reserved selector and one that begins with it have names of their own, and a send of the
second calls that method alone. -/
theorem box_names_differ :
    let env : TypeEnv := ⟨"", "", [], []⟩
    let one : Expr := .int { type := some (.scalar ⟨.int, 32, true⟩) } 1
    let send : Expr := .message {} (.ref {} "self" .self) "new:at:" [one, one]
    let u : SourceUnit := ⟨"", "", [.method (boxMethod "new" [] [.expr {} send]),
      .method (boxMethod "new:at:" ["n", "at"] [])]⟩
    ∃ file first second, unit env "" u = .ok file ∧ Declares env u file "Box" [first, second] ∧
      first.name ≠ second.name ∧
      (∃ scope peel receiver codes,
        expr env scope peel send = .ok (.invoke receiver "new_at" codes)) ∧
      first.name ≠ "new_at" ∧ second.name = "new_at" := by
  intro env one send u
  obtain ⟨text, htext⟩ : ∃ text, generate env "" false (some u) = .ok text := ⟨_, rfl⟩
  obtain ⟨file, hfile, -, hnames, hsends⟩ := member_names_meet_iff htext
  obtain ⟨members, f, f', hdeclares, -, -, hf, hf', hmeet⟩ := hnames _ _ _ _ List.mem_cons_self rfl
    (List.mem_cons_of_mem _ List.mem_cons_self) rfl rfl
  obtain ⟨⟨scope, peel, code, hcode⟩, hsend, hreached⟩ := hsends send send [] "new:at:"
    (.inMethod List.mem_cons_self rfl List.mem_cons_self (.self _) List.mem_cons_self)
    rfl rfl rfl rfl
  obtain ⟨receiver, codes, rfl⟩ := hsend scope peel code hcode
  obtain ⟨first, _, hfirst, hrest, rfl⟩ := List.forall₂_cons_left_iff.mp hdeclares.2
  obtain ⟨second, _, hsecond, hnil, rfl⟩ := List.forall₂_cons_left_iff.mp hrest
  cases hnil
  cases hf.symm.trans hfirst
  cases hf'.symm.trans hsecond
  obtain ⟨hnew, hcalled⟩ := List.forall₂_cons.mp (hreached "Box" [f, f'] hdeclares)
  obtain ⟨hnewAt, -⟩ := List.forall₂_cons.mp hcalled
  refine ⟨file, f, f', hfile, hdeclares, fun h => ?_, ⟨scope, peel, receiver, codes, hcode⟩,
    fun h => ?_, ?_⟩
  · have halike : ¬ WrittenAlike "new" "new:at:" := by decide
    exact halike (hmeet.mp h)
  · have halike : ¬ WrittenAlike "new:at:" "new" := by decide
    exact halike (hnew.mp h)
  · exact hnewAt.mpr (by decide)

/-- A method that counts and one that is given a count: both are called `count`. -/
theorem count_names_meet :
    let env : TypeEnv := ⟨"", "", [], []⟩
    let u : SourceUnit :=
      ⟨"", "", [.method (boxMethod "count" [] []), .method (boxMethod "count:" ["n"] [])]⟩
    "count" ≠ "count:" ∧ ∃ text file first second, generate env "" false (some u) = .ok text ∧
      unit env "" u = .ok file ∧ Declares env u file "Box" [first, second] ∧
      first.name = "count" ∧ second.name = "count" := by
  intro env u
  refine ⟨by decide, _, _, _, _, rfl, rfl, ⟨List.mem_cons_self, .cons rfl (.cons rfl .nil)⟩,
    rfl, rfl⟩

end Lower

end DartLowering
