import DartLowering.Proofs.Supported

/-!
The items of a unit one by one. Every planned item is made of definitions of the unit, and a unit
that holds these and nothing else plans that item alone. The text of a file is the text of its first
lines and the texts of its items with an empty line between them, so that what a whole unit gives
follows from what the units of its single items give.
-/
namespace DartLowering.Lower

/-- The declarations that an item stands for. -/
def Item.decls : Item → List Decl
  | .function d _ => [.func d]
  | .variable d => [.var d]
  | .class _ ms => ms.map fun m => .method m.1

section Plan

variable {owner : String} {decls : List Decl} {seen : List String}

theorem Item.Planned.mem_of_mem_decls {i : Item} (h : i.Planned decls) :
    ∀ d ∈ i.decls, d ∈ decls := by
  cases i with
  | function d body => exact List.forall_mem_singleton.mpr h.1
  | «variable» d => exact List.forall_mem_singleton.mpr h
  | «class» owner ms =>
    intro d hd
    obtain ⟨m, hm, rfl⟩ := List.mem_map.mp hd
    exact (h.2 m hm).1

section Methods

variable {ms : List (MethodDecl × List Stmt)}
  (hms : ∀ m ∈ ms, m.1.owner = owner ∧ m.1.body = some m.2)

include hms

theorem methodsOf_methods : methodsOf owner (ms.map fun m => .method m.1) = ms := by
  induction ms with
  | nil => rfl
  | cons m ms ih =>
    rw [List.forall_mem_cons] at hms
    rw [List.map_cons, methodsOf, hms.1.2]
    dsimp only
    rw [if_pos hms.1.1, ih hms.2]

/-- Methods of a class that has been planned plan nothing. -/
theorem planFrom_methods (hseen : seen.contains owner = true) :
    planFrom seen (ms.map fun m => .method m.1) = [] := by
  induction ms with
  | nil => rfl
  | cons m ms ih =>
    rw [List.forall_mem_cons] at hms
    rw [List.map_cons, planFrom, hms.1.2]
    dsimp only
    rw [hms.1.1, if_pos hseen, ih hms.2]

end Methods

/-- The declarations of an item plan that item alone. -/
theorem Item.Planned.plan_decls {i : Item} (h : i.Planned decls) : plan i.decls = [i] := by
  cases i with
  | function d body =>
    rw [Item.decls, plan, planFrom, h.2]
    rfl
  | «variable» d => rfl
  | «class» owner ms =>
    obtain ⟨hne, hall⟩ := h
    cases ms with
    | nil => exact absurd rfl hne
    | cons m ms =>
      have hms := List.forall_mem_cons.mp fun q hq => (hall q hq).2
      rw [Item.decls, List.map_cons, plan, planFrom, hms.1.2]
      dsimp only
      rw [hms.1.1, if_neg (by simp), methodsOf_methods hms.2, planFrom_methods hms.2 (by simp)]

end Plan

section Texts

/-- The first lines of every file of a package. -/
def preamble (package : String) : String :=
  unlines ([header] ++ (Package.imports package).map (fun uri => "import '" ++ uri ++ "';") ++ [""])

theorem unlines_append (ls ms : List String) : unlines (ls ++ ms) = unlines ls ++ unlines ms := by
  simp [unlines]

/-- Items are separated by one empty line. -/
theorem unlines_itemLines (cs : List CodeItem) :
    unlines (itemLines cs) = Text.join "\n" (cs.map fun c => unlines c.lines) := by
  induction cs with
  | nil => rfl
  | cons c cs ih =>
    cases cs with
    | nil => rw [itemLines, List.map_singleton, join_singleton]
    | cons d ds =>
      have hempty : unlines [""] = "\n" := by simp [unlines]
      rw [itemLines, unlines_append, unlines_append, ih, hempty, List.map_cons, List.map_cons,
        List.map_cons, join_cons_cons]

theorem fileText (package : String) (cs : List CodeItem) :
    CodeFile.text ⟨header, Package.imports package, cs⟩ =
      preamble package ++ Text.join "\n" (cs.map fun c => unlines c.lines) := by
  rw [CodeFile.text, CodeFile.lines, unlines_append, unlines_itemLines]
  rfl

theorem CodeItem.lines_ne_nil (c : CodeItem) : c.lines ≠ [] := by
  cases c <;> simp [CodeItem.lines, CodeFunction.lines]

/-- The text of an item ends its last line. -/
theorem unlines_ends {ls : List String} (h : ls ≠ []) : ∃ s, unlines ls = s ++ "\n" := by
  refine ⟨unlines ls.dropLast ++ ls.getLast h, ?_⟩
  have hlast : unlines [ls.getLast h] = ls.getLast h ++ "\n" := by simp [unlines]
  rw [String.append_assoc, ← hlast, ← unlines_append, List.dropLast_append_getLast h]

end Texts

section Generation

variable {env : TypeEnv} {package : String} {is : List Item}

theorem items_eq_ok {cs : List CodeItem} :
    items env is = .ok cs ↔ List.Forall₂ (fun i c => item env i = .ok c) is cs := by
  induction is generalizing cs with
  | nil =>
    rw [List.forall₂_nil_left_iff]
    constructor
    · rintro ⟨⟩
      rfl
    · rintro rfl
      rfl
  | cons i is ih =>
    rw [items, Result.bind_eq_ok]
    constructor
    · rintro ⟨c, hc, hrest⟩
      obtain ⟨rest, hitems, hok⟩ := Result.bind_eq_ok.mp hrest
      cases hok
      exact .cons hc (ih.mp hitems)
    · rintro (_ | ⟨hc, hrest⟩)
      refine ⟨_, hc, ?_⟩
      rw [ih.mpr hrest]
      rfl

/-- The first item that fails decides how a run fails. -/
theorem items_eq_error {failure : Failure} :
    items env is = .error failure ↔ ∃ before i after, is = before ++ i :: after ∧
      (∀ j ∈ before, ∃ c, item env j = .ok c) ∧ item env i = .error failure := by
  induction is with
  | nil =>
    constructor
    · rintro ⟨⟩
    · rintro ⟨before, i, after, hsplit, -, -⟩
      simp at hsplit
  | cons i is ih =>
    rw [items]
    cases hi : item env i with
    | error f =>
      constructor
      · rintro ⟨⟩
        exact ⟨[], i, is, rfl, by simp, hi⟩
      · rintro ⟨before, j, after, hsplit, hbefore, hj⟩
        cases before with
        | nil =>
          cases hsplit
          exact congrArg _ (Except.error.inj (hi.symm.trans hj))
        | cons k before =>
          cases hsplit
          obtain ⟨c, hc⟩ := hbefore i List.mem_cons_self
          cases hi.symm.trans hc
    | ok c =>
      have hrest : (items env is >>= fun rest => Except.ok (c :: rest)) = .error failure ↔
          items env is = .error failure := by
        cases items env is <;> simp [bind, Except.bind]
      rw [Result.ok_bind, hrest, ih]
      constructor
      · rintro ⟨before, j, after, rfl, hbefore, hj⟩
        exact ⟨i :: before, j, after, rfl, List.forall_mem_cons.mpr ⟨⟨c, hi⟩, hbefore⟩, hj⟩
      · rintro ⟨before, j, after, hsplit, hbefore, hj⟩
        cases before with
        | nil =>
          cases hsplit
          cases hi.symm.trans hj
        | cons k before =>
          cases hsplit
          exact ⟨before, j, after, rfl, (List.forall_mem_cons.mp hbefore).2, hj⟩

theorem generate_eq (u : SourceUnit) :
    generate env package false (some u) =
      (items env (plan u.decls) >>= fun cs =>
        .ok (preamble package ++ Text.join "\n" (cs.map fun c => unlines c.lines))) := by
  unfold generate unit
  dsimp only
  rw [Bool.false_and, if_neg (by decide), bind_assoc]
  simp only [Result.ok_bind, fileText]

end Generation

def Item.alone (i : Item) (u : SourceUnit) : SourceUnit := { u with decls := i.decls }

section Alone

variable {env : TypeEnv} {package : String} {u : SourceUnit} {i : Item} {decls : List Decl}

theorem generate_alone (h : i.Planned decls) :
    generate env package false (some (i.alone u)) =
      (item env i >>= fun c => .ok (preamble package ++ unlines c.lines)) := by
  rw [generate_eq, Item.alone, h.plan_decls, items, items]
  cases item env i with
  | error failure => rfl
  | ok c => simp [join_singleton]

theorem generate_alone_isOk (h : i.Planned decls) :
    (∃ text, generate env package false (some (i.alone u)) = .ok text) ↔
      ∃ c, item env i = .ok c := by
  rw [generate_alone h]
  cases item env i <;> simp [bind, Except.bind]

theorem generate_alone_eq_error (h : i.Planned decls) {failure : Failure} :
    generate env package false (some (i.alone u)) = .error failure ↔
      item env i = .error failure := by
  rw [generate_alone h]
  cases item env i <;> simp [bind, Except.bind]

end Alone

section Whole

variable (env : TypeEnv) (package : String) (u : SourceUnit)

/-- How a unit fails follows from how its items fail alone. -/
theorem generate_eq_error_iff (failure : Failure) :
    generate env package false (some u) = .error failure ↔
      ∃ before i after, plan u.decls = before ++ i :: after ∧
        (∀ j ∈ before, ∃ text, generate env package false (some (j.alone u)) = .ok text) ∧
        generate env package false (some (i.alone u)) = .error failure := by
  have hitems : generate env package false (some u) = .error failure ↔
      items env (plan u.decls) = .error failure := by
    rw [generate_eq]
    cases items env (plan u.decls) <;> simp [bind, Except.bind]
  rw [hitems, items_eq_error]
  constructor
  · rintro ⟨before, i, after, hsplit, hbefore, hi⟩
    have hplanned := planned_of_mem_plan u.decls
    rw [hsplit] at hplanned
    refine ⟨before, i, after, hsplit, fun j hj => ?_, ?_⟩
    · exact (generate_alone_isOk (hplanned j (List.mem_append_left _ hj))).mpr (hbefore j hj)
    · exact (generate_alone_eq_error (hplanned i (by simp))).mpr hi
  · rintro ⟨before, i, after, hsplit, hbefore, hi⟩
    have hplanned := planned_of_mem_plan u.decls
    rw [hsplit] at hplanned
    refine ⟨before, i, after, hsplit, fun j hj => ?_, ?_⟩
    · exact (generate_alone_isOk (hplanned j (List.mem_append_left _ hj))).mp (hbefore j hj)
    · exact (generate_alone_eq_error (hplanned i (by simp))).mp hi

/-- The text of a unit is made of the texts of its items. -/
theorem generate_texts {text : String} (h : generate env package false (some u) = .ok text) :
    ∃ texts : List String,
      List.Forall₂ (fun i own => generate env package false (some (i.alone u)) =
        .ok (preamble package ++ own)) (plan u.decls) texts ∧
      (∀ own ∈ texts, ∃ s, own = s ++ "\n") ∧
      text = preamble package ++ Text.join "\n" texts := by
  rw [generate_eq] at h
  obtain ⟨cs, hcs, htext⟩ := Result.bind_eq_ok.mp h
  refine ⟨cs.map fun c => unlines c.lines, ?_, ?_, ?_⟩
  · rw [List.forall₂_map_right_iff]
    have hboth : List.Forall₂ (fun i c => i.Planned u.decls ∧ item env i = .ok c)
        (plan u.decls) cs :=
      (List.forall₂_and_left _ _).mpr ⟨planned_of_mem_plan u.decls, items_eq_ok.mp hcs⟩
    refine hboth.imp ?_
    rintro i c ⟨hi, hc⟩
    rw [generate_alone hi, hc]
    rfl
  · intro own hown
    obtain ⟨c, -, rfl⟩ := List.mem_map.mp hown
    exact unlines_ends (CodeItem.lines_ne_nil c)
  · exact (Except.ok.inj htext).symm

theorem generate_isOk_iff :
    (∃ text, generate env package false (some u) = .ok text) ↔
      ∀ i ∈ plan u.decls, ∃ text, generate env package false (some (i.alone u)) = .ok text := by
  constructor
  · rintro ⟨text, htext⟩ i hi
    rw [generate_eq] at htext
    obtain ⟨cs, hcs, -⟩ := Result.bind_eq_ok.mp htext
    obtain ⟨c, -, hc⟩ := items_mem hcs i hi
    exact (generate_alone_isOk (planned_of_mem_plan u.decls i hi)).mpr ⟨c, hc⟩
  · intro hall
    cases hwhole : generate env package false (some u) with
    | ok text => exact ⟨text, rfl⟩
    | error failure =>
      obtain ⟨before, i, after, hsplit, -, hi⟩ :=
        (generate_eq_error_iff env package u failure).mp hwhole
      obtain ⟨text, htext⟩ := hall i (hsplit ▸ by simp)
      cases hi.symm.trans htext

end Whole

end DartLowering.Lower
