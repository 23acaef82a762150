import DartLowering.Proofs.PlannedItems

/-!
Planning a unit regroups its declarations. Each declaration has its number, so that two of them are
told apart even where they are equal. A planned item stands for a group of numbered declarations
that keep the order of the source; the groups together are the declarations that produce output,
each of them once; and the groups come in the order of their first members. No class is planned
twice.
-/
namespace DartLowering.Lower

/-- The declaration produces output: a variable, or a function or method with a body. -/
def isDefined : Decl → Bool
  | .func d => d.body.isSome
  | .var _ => true
  | .method d => d.body.isSome

def Item.owner? : Item → Option String
  | .class owner _ => some owner
  | .function _ _ | .variable _ => none

def isMethodOf (owner : String) : Decl → Bool
  | .method d => d.body.isSome && d.owner = owner
  | .func _ | .var _ => false

/-- The declaration produces output that does not go to a class that has been planned. -/
def isLeft (seen : List String) : Decl → Bool
  | .method d => d.body.isSome && !seen.contains d.owner
  | d => isDefined d

/-- Numbered declarations that an item stands for, in the order of the source. -/
def Item.StandsFor (i : Item) (decls : List (Decl × Nat)) (group : List (Decl × Nat)) : Prop :=
  group.map Prod.fst = i.decls ∧ group.Sublist decls

section Methods

theorem filter_isMethodOf (owner : String) (ds : List Decl) :
    ds.filter (isMethodOf owner) = (methodsOf owner ds).map fun m => .method m.1 := by
  induction ds with
  | nil => rfl
  | cons d ds ih =>
    cases d with
    | func d | var d => simpa [isMethodOf, methodsOf] using ih
    | method d =>
      rw [methodsOf]
      cases hbody : d.body with
      | none => simpa [isMethodOf, hbody] using ih
      | some body =>
        by_cases howner : d.owner = owner
        · simp [isMethodOf, hbody, howner, ih]
        · simp [isMethodOf, hbody, howner, ih]

theorem map_fst_methods (owner : String) (ds : List Decl) (n : Nat) :
    ((ds.zipIdx n).filter fun d => isMethodOf owner d.1).map Prod.fst =
      (methodsOf owner ds).map fun m => .method m.1 :=
  calc
    _ = ((ds.zipIdx n).map Prod.fst).filter (isMethodOf owner) := List.filter_map.symm
    _ = _ := by rw [List.zipIdx_map_fst, filter_isMethodOf]

/-- What is left before a class is planned are its methods and what is left after it. -/
theorem isLeft_eq {owner : String} {seen : List String} (h : owner ∉ seen) (d : Decl) :
    (isMethodOf owner d && isLeft seen d) = isMethodOf owner d ∧
      (!isMethodOf owner d && isLeft seen d) = isLeft (owner :: seen) d := by
  cases d with
  | func d | var d => simp [isMethodOf, isLeft]
  | method d =>
    by_cases howner : d.owner = owner
    · cases hbody : d.body <;> simp [isMethodOf, isLeft, howner, hbody, h]
    · simp [isMethodOf, isLeft, howner]

theorem perm_filter_isLeft {owner : String} {seen : List String} (h : owner ∉ seen)
    (ds : List (Decl × Nat)) :
    (ds.filter (fun d => isMethodOf owner d.1) ++
      ds.filter fun d => isLeft (owner :: seen) d.1).Perm
      (ds.filter fun d => isLeft seen d.1) := by
  have hsplit := List.filter_append_perm (fun d : Decl × Nat => isMethodOf owner d.1)
    (ds.filter fun d => isLeft seen d.1)
  simp only [List.filter_filter, isLeft_eq h] at hsplit
  exact hsplit

end Methods

/-- Items that stand for groups of the declarations that are left, in the order of their first
members. -/
structure Regrouped (seen : List String) (decls : List (Decl × Nat)) (items : List Item)
    (groups : List (List (Decl × Nat))) : Prop where
  standsFor : List.Forall₂ (fun i g => i.StandsFor decls g) items groups
  perm : groups.flatten.Perm (decls.filter fun d => isLeft seen d.1)
  heads : (groups.filterMap List.head?).Sublist decls
  nonempty : ∀ g ∈ groups, g ≠ []

namespace Regrouped

variable {seen : List String} {decls : List (Decl × Nat)} {d : Decl × Nat} {items : List Item}
  {groups : List (List (Decl × Nat))}

/-- A declaration that is not planned is passed over. -/
theorem skip (h : Regrouped seen decls items groups) (hd : isLeft seen d.1 = false) :
    Regrouped seen (d :: decls) items groups where
  standsFor := h.standsFor.imp fun _ _ hg => ⟨hg.1, hg.2.cons d⟩
  perm := by rw [List.filter_cons_of_neg (by simp [hd])]; exact h.perm
  heads := h.heads.cons d
  nonempty := h.nonempty

/-- An item is planned where its first declaration stands. -/
theorem plan {seen' : List String} {i : Item} {group : List (Decl × Nat)}
    (h : Regrouped seen' decls items groups) (hd : isLeft seen d.1 = true)
    (hi : d.1 :: group.map Prod.fst = i.decls) (hgroup : group.Sublist decls)
    (hperm : (group ++ decls.filter fun d => isLeft seen' d.1).Perm
      (decls.filter fun d => isLeft seen d.1)) :
    Regrouped seen (d :: decls) (i :: items) ((d :: group) :: groups) where
  standsFor := .cons ⟨hi, hgroup.cons_cons d⟩ (h.standsFor.imp fun _ _ hg => ⟨hg.1, hg.2.cons d⟩)
  perm := by
    rw [List.filter_cons_of_pos (by simpa using hd), List.flatten_cons, List.cons_append]
    exact ((h.perm.append_left group).trans hperm).cons d
  heads := h.heads.cons_cons d
  nonempty := List.forall_mem_cons.mpr ⟨List.cons_ne_nil d group, h.nonempty⟩

end Regrouped

theorem planFrom_regrouped (seen : List String) (ds : List Decl) (n : Nat) :
    ∃ groups, Regrouped seen (ds.zipIdx n) (planFrom seen ds) groups := by
  induction ds generalizing seen n with
  | nil => exact ⟨[], .nil, .nil, .slnil, List.forall_mem_nil _⟩
  | cons d ds ih =>
    rw [List.zipIdx_cons]
    obtain ⟨groups, hrest⟩ := ih seen (n + 1)
    cases d with
    | var d => exact ⟨_, hrest.plan rfl rfl (List.nil_sublist _) (.refl _)⟩
    | func d =>
      rw [planFrom]
      cases hbody : d.body with
      | none => exact ⟨groups, hrest.skip (by simp [isLeft, isDefined, hbody])⟩
      | some body =>
        exact ⟨_,
          hrest.plan (by simp [isLeft, isDefined, hbody]) rfl (List.nil_sublist _) (.refl _)⟩
    | method d =>
      rw [planFrom]
      cases hbody : d.body with
      | none => exact ⟨groups, hrest.skip (by simp [isLeft, hbody])⟩
      | some body =>
        dsimp only
        by_cases hseen : d.owner ∈ seen
        · rw [if_pos (List.contains_iff_mem.mpr hseen)]
          exact ⟨groups, hrest.skip (by simp [isLeft, hbody, hseen])⟩
        · rw [if_neg (by simpa using hseen)]
          obtain ⟨groups, hrest⟩ := ih (d.owner :: seen) (n + 1)
          refine ⟨_, hrest.plan (by simp [isLeft, hbody, hseen]) ?_ List.filter_sublist
            (perm_filter_isLeft hseen _)⟩
          rw [map_fst_methods]
          rfl

/-- No class is planned twice, nor one that was planned before. -/
theorem planFrom_owners (seen : List String) (ds : List Decl) :
    ((planFrom seen ds).filterMap Item.owner?).Nodup ∧
      ∀ owner ∈ (planFrom seen ds).filterMap Item.owner?, owner ∉ seen := by
  induction ds generalizing seen with
  | nil => exact ⟨.nil, List.forall_mem_nil _⟩
  | cons d ds ih =>
    cases d with
    | var d => exact ih seen
    | func d =>
      rw [planFrom]
      cases d.body with
      | none | some => exact ih seen
    | method d =>
      rw [planFrom]
      cases d.body with
      | none => exact ih seen
      | some body =>
        dsimp only
        split
        · exact ih seen
        · rename_i hseen
          obtain ⟨hnodup, hnew⟩ := ih (d.owner :: seen)
          have howner : d.owner ∉ (planFrom (d.owner :: seen) ds).filterMap Item.owner? :=
            fun hmem => hnew _ hmem List.mem_cons_self
          refine ⟨hnodup.cons howner, List.forall_mem_cons.mpr ⟨by simpa using hseen, ?_⟩⟩
          exact fun owner hmem hin => hnew owner hmem (List.mem_cons_of_mem _ hin)

/-- Planning loses no declaration that produces output, takes none twice and none without a body.
The items stand for groups of declarations, each in the order of the source; a class has at least
one method, all of its methods are its own, and no other item has its owner; and the items come in
the order of their first declarations. -/
theorem plan_regroups (decls : List Decl) :
    (∃ groups, List.Forall₂ (fun i g => Item.StandsFor i decls.zipIdx g) (plan decls) groups ∧
      groups.flatten.Perm (decls.zipIdx.filter fun d => isDefined d.1) ∧
      (groups.filterMap List.head?).Sublist decls.zipIdx ∧ ∀ g ∈ groups, g ≠ []) ∧
    ((plan decls).filterMap Item.owner?).Nodup ∧
    ∀ i ∈ plan decls, i.Planned decls := by
  obtain ⟨groups, hgroups⟩ := planFrom_regrouped [] decls 0
  have hleft : (fun d : Decl × Nat => isLeft [] d.1) = fun d => isDefined d.1 := by
    funext ⟨d, n⟩
    cases d <;> simp [isLeft, isDefined]
  refine ⟨⟨groups, hgroups.standsFor, ?_, hgroups.heads, hgroups.nonempty⟩,
    (planFrom_owners [] decls).1, planned_of_mem_plan decls⟩
  exact hleft ▸ hgroups.perm

end DartLowering.Lower
