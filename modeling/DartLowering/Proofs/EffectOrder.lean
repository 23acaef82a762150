import DartLowering.Proofs.EmissionStep

/-!
Effects are emitted once and in the order of the source. The emitted text is cut into pieces, each
of which belongs to one node: what the node writes itself is its own, and the pieces of a child that
it visits are those of the child. The pieces that lie in a live effect form one stretch of the text,
which is the code of that effect; an effect that is not live has none; and what lies further left in
the source stands first.
-/
namespace DartLowering

/-- Values are recorded only for expressions without effects. -/
def Expr.RecordsPure (e : Expr) : Prop :=
  ∀ path x, e.sub? path = some x → x.info.constant.isSome → ∀ inner y, x.sub? inner = some y →
    y.isEffect = false

theorem Expr.RecordsPure.child {e x : Expr} (h : e.RecordsPure) {i : Nat}
    (hx : e.children[i]? = some x) : x.RecordsPure :=
  fun path y hy => h (i :: path) y (by simpa [Expr.sub?, hx] using hy)

theorem Expr.RecordsPure.not_recorded {e : Expr} (h : e.RecordsPure) (heffect : e.isEffect = true) :
    e.info.constant = none := by
  rw [← Option.not_isSome_iff_eq_none]
  intro hconstant
  have hpure := h [] e rfl hconstant [] e rfl
  simp [heffect] at hpure

namespace Lower

open DartLowering.Expr

variable {env : TypeEnv} {scope : Scope} {e x : Expr} {peel : Bool} {code : Code}

theorem recordsPure_of_children (hinfo : e.info.constant = none)
    (h : ∀ x ∈ e.children, x.RecordsPure) : e.RecordsPure := by
  intro path y hy hconstant
  cases path with
  | nil =>
    cases hy
    simp [hinfo] at hconstant
  | cons i path =>
    obtain ⟨x, hx, hy⟩ := Option.bind_eq_some_iff.mp hy
    exact h x (List.mem_of_getElem? hx) path y hy hconstant

theorem value_eq_none {info : ExprInfo} (hinfo : info.constant = none)
    {compute : Unit → Option Int64} (hcompute : compute () = none) : info.value compute = none := by
  unfold ExprInfo.value
  cases info.type with
  | none => rfl
  | some t => simp [hinfo, hcompute]

theorem foldBinary_effect {op : BinaryOp} (hop : op = .assign ∨ op.compoundBase?.isSome = true)
    (unsigned : Bool) (lhs : Option Int64) (rhs : Unit → Option Int64) :
    foldBinary op unsigned lhs rhs = none := by
  cases lhs with
  | none => rfl
  | some l =>
    cases op with
    | assign | mulAssign | divAssign | remAssign | addAssign | subAssign | shlAssign | shrAssign
    | andAssign | xorAssign | orAssign =>
      unfold foldBinary
      cases rhs () with
      | none => rfl
      | some r => rfl
    | _ => simp [BinaryOp.compoundBase?] at hop

/-- An effect is a constant only where its value is recorded. -/
theorem constant?_effect (heffect : e.isEffect = true) (hinfo : e.info.constant = none) :
    env.constant? e = none := by
  cases e with
  | binary info op lhs rhs =>
    simp only [isEffect, Bool.or_eq_true, beq_iff_eq] at heffect
    exact value_eq_none hinfo (foldBinary_effect heffect _ _ _)
  | unary info op operand =>
    simp only [isEffect, Bool.or_eq_true, beq_iff_eq] at heffect
    have heval : ∀ v, op.evaluate v = none := by
      rcases heffect with ((rfl | rfl) | rfl) | rfl <;> exact fun _ => rfl
    refine value_eq_none hinfo ?_
    cases env.constant? operand with
    | none => rfl
    | some v => exact heval v
  | call | message | classMessage | listNext => exact value_eq_none hinfo rfl
  | _ => cases heffect

section Pieces

/-- A piece of the emitted text and the path of the node that it belongs to. -/
structure Piece where
  owner : List Nat
  text : String

/-- A piece of a child, as a piece of the node above. -/
def Piece.below (i : Nat) (a : Piece) : Piece := { a with owner := i :: a.owner }

def textOf : List Piece → String
  | [] => ""
  | a :: as => a.text ++ textOf as

/-- The emitted text of an expression in pieces. -/
def pieces (env : TypeEnv) (scope : Scope) (peel : Bool) (e : Expr) : List Piece :=
  (parts env scope peel e).flatMap fun
    | .own text => [⟨[], text⟩]
    | .leaf path text => [⟨path, text⟩]
    | .visit i peel' =>
        match _hx : e.children[i]? with
        | some x => (pieces env scope peel' x).map (Piece.below i)
        | none => []
termination_by SizeOf.sizeOf e
decreasing_by exact size_children (List.mem_of_getElem? ‹_›)

def Part.pieces (env : TypeEnv) (scope : Scope) (children : List Expr) : Part → List Piece
  | .own text => [⟨[], text⟩]
  | .leaf path text => [⟨path, text⟩]
  | .visit i peel =>
      match children[i]? with
      | some x => (Lower.pieces env scope peel x).map (Piece.below i)
      | none => []

theorem pieces_eq : pieces env scope peel e =
    (parts env scope peel e).flatMap (Part.pieces env scope e.children) := by
  rw [pieces]
  congr 1
  funext p
  cases p with
  | own | leaf => rfl
  | visit i peel' =>
    simp only [Part.pieces]
    split <;> simp_all

theorem textOf_append (as bs : List Piece) : textOf (as ++ bs) = textOf as ++ textOf bs := by
  induction as with
  | nil => simp [textOf]
  | cons a as ih => simp [textOf, ih, String.append_assoc]

theorem textOf_below (i : Nat) (as : List Piece) :
    textOf (as.map (Piece.below i)) = textOf as := by
  induction as with
  | nil => rfl
  | cons a as ih => simp [textOf, ih, Piece.below]

theorem textOf_parts {children : List Expr} {ps : List Part}
    (h : ∀ i peel, .visit i peel ∈ ps → ∀ x, children[i]? = some x →
      textOf (pieces env scope peel x) = resultText (expr env scope peel x)) :
    textOf (ps.flatMap (Part.pieces env scope children)) = partsText env scope children ps := by
  induction ps with
  | nil => rfl
  | cons p ps ih =>
    rw [List.flatMap_cons, textOf_append, partsText,
      ih fun i peel hi => h i peel (List.mem_cons_of_mem p hi)]
    congr 1
    cases p with
    | own | leaf => simp [Part.pieces, Part.text, textOf]
    | visit i peel =>
      cases hx : children[i]? with
      | none => simp [Part.pieces, Part.text, hx, textOf]
      | some x =>
        simp only [Part.pieces, Part.text, hx, textOf_below]
        exact h i peel List.mem_cons_self x hx

/-- The pieces make up the emitted text. -/
theorem textOf_pieces (h : expr env scope peel e = .ok code) :
    textOf (pieces env scope peel e) = code.text := by
  induction e using childInduction generalizing peel code with
  | step e ih =>
    obtain ⟨htext, hvisits⟩ := expr_spells h
    rw [pieces_eq, htext]
    refine textOf_parts fun i peel' hi x hx => ?_
    obtain ⟨y, code', hy, hcode'⟩ := hvisits i peel' hi
    obtain rfl : x = y := Option.some.inj (hx.symm.trans hy)
    rw [ih x (List.mem_of_getElem? hx) hcode', hcode', resultText]

theorem head?_owner {children : List Expr} {p : Part} {a : Piece}
    (h : a ∈ p.pieces env scope children) : a.owner.head? = p.child? := by
  cases p with
  | own | leaf =>
    cases List.mem_singleton.mp h
    rfl
  | visit i peel =>
    simp only [Part.pieces] at h
    split at h
    · obtain ⟨b, _, rfl⟩ := List.mem_map.mp h
      rfl
    · cases h

end Pieces

section Order

/-- The first path lies left of the second, neither inside the other. -/
def LeftOf : List Nat → List Nat → Prop
  | i :: p, j :: q => i < j ∨ i = j ∧ LeftOf p q
  | _, _ => False

theorem LeftOf.irrefl (p : List Nat) : ¬ LeftOf p p := by
  induction p with
  | nil => exact id
  | cons i p ih =>
    rintro (hlt | ⟨-, h⟩)
    · exact absurd hlt (Nat.lt_irrefl i)
    · exact ih h

theorem LeftOf.extend {p q p' q' : List Nat} (h : LeftOf p q) (hp : p <+: p') (hq : q <+: q') :
    LeftOf p' q' := by
  induction p generalizing q p' q' with
  | nil => cases h
  | cons i p ih =>
    cases q with
    | nil => cases h
    | cons j q =>
      obtain ⟨s, rfl⟩ := hp
      obtain ⟨t, rfl⟩ := hq
      rcases h with hlt | ⟨rfl, h⟩
      · exact .inl hlt
      · exact .inr ⟨rfl, ih h (List.prefix_append p s) (List.prefix_append q t)⟩

theorem parts_pairwise (h : expr env scope peel e = .ok code) :
    (parts env scope peel e).Pairwise Part.Precedes := by
  cases hc : env.constant? e with
  | none =>
    refine (List.pairwise_filter.mp (parts_show hc h).pairwise).imp fun hpq i j hi hj => ?_
    exact hpq (by simp [hi]) (by simp [hj]) i j hi hj
  | some v =>
    unfold parts
    rw [hc]
    split <;> exact List.pairwise_singleton _ _

/-- No piece stands after one of a node to its right. -/
theorem pieces_pairwise (h : expr env scope peel e = .ok code) :
    (pieces env scope peel e).Pairwise fun a b => ¬ LeftOf b.owner a.owner := by
  induction e using childInduction generalizing peel code with
  | step e ih =>
    rw [pieces_eq, List.pairwise_flatMap]
    constructor
    · intro p hp
      cases p with
      | own | leaf => exact List.pairwise_singleton _ _
      | visit i peel' =>
        obtain ⟨x, code', hx, hcode'⟩ := (expr_spells h).2 i peel' hp
        simp only [Part.pieces, hx]
        refine List.pairwise_map.mpr ((ih x (List.mem_of_getElem? hx) hcode').imp fun hab hba => ?_)
        rcases hba with hlt | ⟨-, hba⟩
        · exact Nat.lt_irrefl i hlt
        · exact hab hba
    · refine (parts_pairwise h).imp fun {p q} hpq a ha b hb hba => ?_
      have hheada := head?_owner ha
      have hheadb := head?_owner hb
      cases hbo : b.owner with
      | nil => simp [hbo, LeftOf] at hba
      | cons j t =>
        cases hao : a.owner with
        | nil => simp [hbo, hao, LeftOf] at hba
        | cons i s =>
          rw [hao] at hheada
          rw [hbo] at hheadb
          rcases hpq i j hheada.symm hheadb.symm with hlt | ⟨path, text, rfl, rfl⟩
          · rw [hao, hbo] at hba
            rcases hba with hji | ⟨rfl, -⟩ <;> omega
          · cases List.mem_singleton.mp ha
            cases List.mem_singleton.mp hb
            exact LeftOf.irrefl _ hba

end Order

section Once

variable {path : List Nat}

/-- The pieces inside the path form one stretch, which is the code of `x`, no constant, and in which
`x` has a piece of its own. -/
def OccursOnce (env : TypeEnv) (scope : Scope) (as : List Piece) (path : List Nat) (x : Expr) :
    Prop :=
  ∃ code before within after, env.constant? x = none ∧ expr env scope false x = .ok code ∧
    as = before ++ within ++ after ∧ textOf within = code.text ∧ (∃ a ∈ within, a.owner = path) ∧
    (∀ a ∈ within, path <+: a.owner) ∧ ∀ a ∈ before ++ after, ¬ path <+: a.owner

def Absent (as : List Piece) (path : List Nat) : Prop := ∀ a ∈ as, ¬ path <+: a.owner

/-- Both paths have pieces, and those of the first all stand before those of the second. -/
def InOrder (as : List Piece) (p q : List Nat) : Prop :=
  (∃ a ∈ as, p <+: a.owner) ∧ (∃ a ∈ as, q <+: a.owner) ∧
    as.Pairwise fun a b => q <+: a.owner → ¬ p <+: b.owner

theorem isPeeled_of_isEffect (h : e.isEffect = true) : e.isPeeled = false := by
  cases e with
  | cast => cases h
  | _ => rfl

/-- An emitted effect writes something of its own. -/
theorem own_piece (heffect : e.isEffect = true) (h : expr env scope peel e = .ok code) :
    ∃ a ∈ pieces env scope peel e, a.owner = [] := by
  rcases parts_write h with ⟨text, hmem⟩ | ⟨-, hpure⟩
  · refine ⟨⟨[], text⟩, ?_, rfl⟩
    rw [pieces_eq]
    exact List.mem_flatMap.mpr ⟨_, hmem, List.mem_singleton_self _⟩
  · simp [heffect] at hpure

theorem pieces_ne_nil (h : expr env scope peel e = .ok code) : pieces env scope peel e ≠ [] := by
  induction e using childInduction generalizing peel code with
  | step e ih =>
    intro hnil
    rw [pieces_eq, List.flatMap_eq_nil_iff] at hnil
    rcases parts_write h with ⟨text, hmem⟩ | ⟨⟨peel', hmem⟩, -⟩
    · cases hnil _ hmem
    · obtain ⟨x, code', hx, hcode'⟩ := (expr_spells h).2 0 peel' hmem
      have hnone := hnil _ hmem
      simp only [Part.pieces, hx, List.map_eq_nil_iff] at hnone
      exact ih x (List.mem_of_getElem? hx) hcode' hnone

/-- Every live sub-expression has pieces. -/
theorem exists_piece (h : expr env scope peel e = .ok code) (hlive : e.isLive env path = true) :
    ∃ a ∈ pieces env scope peel e, path <+: a.owner := by
  induction path generalizing e peel code with
  | nil =>
    obtain ⟨a, ha⟩ := List.exists_mem_of_ne_nil _ (pieces_ne_nil h)
    exact ⟨a, ha, List.nil_prefix⟩
  | cons i path ih =>
    obtain ⟨hc, hwants, x, hx, hlive⟩ := isLive_cons.mp hlive
    rcases parts_find hc h hx hwants with
      ⟨peel', before, after, code', hparts, -, hcode'⟩ | ⟨habsorbed, text, hmem⟩
    · obtain ⟨a, ha, hstarts⟩ := ih hcode' hlive
      refine ⟨a.below i, ?_, (List.prefix_cons_inj i).mpr hstarts⟩
      rw [pieces_eq, hparts]
      refine List.mem_flatMap.mpr ⟨.visit i peel', by simp, ?_⟩
      simpa only [Part.pieces, hx] using List.mem_map_of_mem ha
    · obtain ⟨y, hy⟩ := exists_sub_of_isLive hlive
      refine ⟨⟨i :: x.bottom, text⟩, ?_, (List.prefix_cons_inj i).mpr (habsorbed.sub hy).2⟩
      rw [pieces_eq]
      exact List.mem_flatMap.mpr ⟨_, hmem, List.mem_singleton_self _⟩

/-- The pieces of a child that is visited in one place stand together. -/
theorem pieces_split {i : Nat} {peel' : Bool} {before after : List Part}
    (hparts : parts env scope peel e = before ++ .visit i peel' :: after)
    (hother : ∀ p ∈ before ++ after, p.child? ≠ some i) (hx : e.children[i]? = some x) :
    ∃ front back,
      pieces env scope peel e = front ++ (pieces env scope peel' x).map (Piece.below i) ++ back ∧
        ∀ a ∈ front ++ back, ∀ path, ¬ i :: path <+: a.owner := by
  refine ⟨before.flatMap (Part.pieces env scope e.children),
    after.flatMap (Part.pieces env scope e.children), ?_, ?_⟩
  · rw [pieces_eq, hparts, List.flatMap_append, List.flatMap_cons, Part.pieces, hx,
      List.append_assoc]
  · rintro a ha path ⟨rest, howner⟩
    rw [← List.flatMap_append] at ha
    obtain ⟨p, hp, ha⟩ := List.mem_flatMap.mp ha
    refine hother p hp ?_
    rw [← head?_owner ha, ← howner]
    rfl

theorem occurs_once (hrec : e.RecordsPure) (h : expr env scope peel e = .ok code)
    (hx : e.sub? path = some x) (heffect : x.isEffect = true) (hlive : e.isLive env path = true) :
    OccursOnce env scope (pieces env scope peel e) path x := by
  induction path generalizing e peel code with
  | nil =>
    cases hx
    have hcode := expr_of_not_peeled (isPeeled_of_isEffect heffect) ▸ h
    have hc : env.constant? x = none := constant?_effect heffect (hrec.not_recorded heffect)
    exact ⟨code, [], _, [], hc, hcode, by simp, textOf_pieces h, own_piece heffect h,
      fun _ _ => List.nil_prefix, by simp⟩
  | cons i path ih =>
    obtain ⟨hc, hwants, y, hy, hlive⟩ := isLive_cons.mp hlive
    have hx : y.sub? path = some x := by simpa [sub?, hy] using hx
    rcases parts_find hc h hy hwants with
      ⟨peel', before, after, code', hparts, hother, hcode'⟩ | ⟨habsorbed, -⟩
    · obtain ⟨xcode, left, within, right, hxc, hxcode, hsplit, htext, hown, hinside, houtside⟩ :=
        ih (hrec.child hy) hcode' hx hlive
      obtain ⟨front, back, hpieces, hapart⟩ := pieces_split hparts hother hy
      refine ⟨xcode, front ++ left.map (Piece.below i), within.map (Piece.below i),
        right.map (Piece.below i) ++ back, hxc, hxcode, ?_, ?_, ?_, ?_, ?_⟩
      · simp [hpieces, hsplit]
      · rw [textOf_below, htext]
      · obtain ⟨a, ha, howner⟩ := hown
        exact ⟨a.below i, List.mem_map_of_mem ha, by rw [Piece.below, howner]⟩
      · intro b hb
        obtain ⟨a, ha, rfl⟩ := List.mem_map.mp hb
        exact (List.prefix_cons_inj i).mpr (hinside a ha)
      · intro b hb hstarts
        have hchild : ∀ a ∈ left ++ right, b ≠ a.below i := by
          rintro a ha rfl
          exact houtside a ha ((List.prefix_cons_inj i).mp hstarts)
        have hsides : ∀ a ∈ front ++ back, b ≠ a := by
          rintro a ha rfl
          exact hapart b ha path hstarts
        simp only [List.mem_append, List.mem_map] at hb hchild hsides
        grind
    · exact absurd heffect (habsorbed.no_effect hx)

/-- What a conversion that is passed over folds to is its operand's value. -/
theorem constant?_operand {info : ExprInfo} {kind : CastKind} {operand : Expr} {isExplicit : Bool}
    {v : Int64} (hpeel : isPeeled (.cast info kind operand isExplicit) = true)
    (hinfo : info.constant = none)
    (hc : env.constant? (.cast info kind operand isExplicit) = some v) :
    (env.constant? operand).isSome = true := by
  cases hoperand : env.constant? operand with
  | some w => rfl
  | none =>
    have hnone : env.constant? (.cast info kind operand isExplicit) = none := by
      refine value_eq_none hinfo ?_
      simp only [isPeeled, Bool.or_eq_true, decide_eq_true_eq] at hpeel
      rcases hpeel with (rfl | rfl) | rfl
      · rfl
      · rfl
      · exact hoperand
    simp [hc] at hnone

/-- Nothing of an effect is left where the operand of a conversion that is passed over folds. -/
theorem dead_in_operand {info : ExprInfo} {kind : CastKind} {operand : Expr} {isExplicit : Bool}
    {v : Int64} (hrec : RecordsPure (.cast info kind operand isExplicit))
    (hpeel : isPeeled (.cast info kind operand isExplicit) = true)
    (hc : env.constant? (.cast info kind operand isExplicit) = some v)
    (hx : operand.sub? path = some x) (heffect : x.isEffect = true) :
    operand.isLive env path = false := by
  have hinfo : info.constant = none := by
    rw [← Option.not_isSome_iff_eq_none]
    intro hconstant
    have hpure := hrec [] _ rfl hconstant (0 :: path) x hx
    simp [heffect] at hpure
  have hfolds := constant?_operand hpeel hinfo hc
  cases path with
  | nil =>
    cases hx
    have hrecorded := (RecordsPure.child hrec (i := 0) rfl).not_recorded heffect
    simp [constant?_effect heffect hrecorded] at hfolds
  | cons j path =>
    rw [← Bool.not_eq_true, isLive_cons]
    rintro ⟨hnone, -⟩
    simp [hnone] at hfolds

/-- A piece that lies below a child comes from a visit of it, and the child is wanted. -/
theorem piece_below {i : Nat} {a : Piece} (hc : env.constant? e = none)
    (h : expr env scope peel e = .ok code) (hx : e.children[i]? = some x)
    (ha : a ∈ pieces env scope peel e) (hstarts : i :: path <+: a.owner) :
    e.wants i = true ∧ (x.Absorbed ∨ ∃ peel' code' b, expr env scope peel' x = .ok code' ∧
      b ∈ pieces env scope peel' x ∧ path <+: b.owner) := by
  obtain ⟨rest, howner⟩ := hstarts
  rw [pieces_eq] at ha
  obtain ⟨p, hp, ha⟩ := List.mem_flatMap.mp ha
  have hchild : p.child? = some i := by
    rw [← head?_owner ha, ← howner]
    rfl
  have hreached : p ∈ reached (parts env scope peel e) :=
    List.mem_filter.mpr ⟨hp, by simp [hchild]⟩
  have hwants := ((parts_show hc h).wanted hreached hchild).2
  refine ⟨hwants, ?_⟩
  rcases parts_find hc h hx hwants with
    ⟨peel', before, after, code', hparts, hother, hcode'⟩ | ⟨habsorbed, -⟩
  · obtain rfl : p = .visit i peel' := by
      rw [hparts] at hp
      by_contra hne
      refine hother p ?_ hchild
      simp only [List.mem_append, List.mem_cons] at hp ⊢
      tauto
    simp only [Part.pieces, hx] at ha
    obtain ⟨b, hb, rfl⟩ := List.mem_map.mp ha
    exact .inr ⟨peel', code', b, hcode', hb, rest, (List.cons.inj howner).2⟩
  · exact .inl habsorbed

theorem absent_of_dead (hrec : e.RecordsPure) (h : expr env scope peel e = .ok code)
    (hx : e.sub? path = some x) (heffect : x.isEffect = true) (hdead : e.isLive env path = false) :
    Absent (pieces env scope peel e) path := by
  induction path generalizing e peel code with
  | nil => cases hdead
  | cons i path ih =>
    obtain ⟨y, hy, hx⟩ := Option.bind_eq_some_iff.mp hx
    intro a ha hstarts
    cases hc : env.constant? e with
    | none =>
      obtain ⟨hwants, habsorbed | ⟨peel', code', b, hcode', hb, hbelow⟩⟩ :=
        piece_below hc h hy ha hstarts
      · exact habsorbed.no_effect hx heffect
      · have hdead : y.isLive env path = false := by
          rw [← Bool.not_eq_true] at hdead ⊢
          exact fun hlive => hdead (isLive_cons.mpr ⟨hc, hwants, y, hy, hlive⟩)
        exact ih (hrec.child hy) hcode' hx hdead b hb hbelow
    | some v =>
      -- a constant has one piece of its own, unless it is a conversion that is passed over
      cases hpeel : peel && e.isPeeled with
      | false =>
        rw [pieces_eq, parts, hpeel, hc] at ha
        cases List.mem_singleton.mp ha
        simp at hstarts
      | true =>
        obtain ⟨info, kind, operand, isExplicit, rfl, hoperand⟩ := expr_peeled hpeel h
        obtain ⟨rfl, rfl⟩ : i = 0 ∧ operand = y := by
          cases i with
          | zero => exact ⟨rfl, Option.some.inj hy⟩
          | succ i => cases hy
        simp only [Bool.and_eq_true] at hpeel
        have hdead := dead_in_operand hrec hpeel.2 hc hx heffect
        rw [pieces_eq, parts, if_pos (by simp [hpeel])] at ha
        simp only [List.flatMap_singleton, Part.pieces, hy] at ha
        obtain ⟨b, hb, rfl⟩ := List.mem_map.mp ha
        exact ih (hrec.child hy) hoperand hx hdead b hb ((List.prefix_cons_inj 0).mp hstarts)

theorem in_order {p q : List Nat} (h : expr env scope peel e = .ok code)
    (hp : e.isLive env p = true) (hq : e.isLive env q = true) (hpq : LeftOf p q) :
    InOrder (pieces env scope peel e) p q := by
  refine ⟨exists_piece h hp, exists_piece h hq, (pieces_pairwise h).imp fun hab hqa hpb => ?_⟩
  exact hab (hpq.extend hpb hqa)

/-- Every live effect is emitted once and in order, and nothing is emitted for the others. -/
theorem effects_emitted_once_in_order (hrec : e.RecordsPure)
    (h : expr env scope false e = .ok code) :
    textOf (pieces env scope false e) = code.text ∧
      (∀ path x, e.sub? path = some x → x.isEffect = true → e.isLive env path = true →
        OccursOnce env scope (pieces env scope false e) path x) ∧
      (∀ path x, e.sub? path = some x → x.isEffect = true → e.isLive env path = false →
        Absent (pieces env scope false e) path) ∧
      ∀ p q, e.isLive env p = true → e.isLive env q = true → LeftOf p q →
        InOrder (pieces env scope false e) p q :=
  ⟨textOf_pieces h, fun _ _ => occurs_once hrec h, fun _ _ => absent_of_dead hrec h,
    fun _ _ => in_order h⟩

/-- `slot[f()] += g(0 && h())`: the target has an effect, and the call of `h` lies in a constant. -/
def bumpedSlot : Expr :=
  let int : ExprInfo := { type := some (.scalar ⟨.int, 32, true⟩) }
  let call (name : String) (args : List Expr) : Expr :=
    .call int (.ref {} name .function) args false .none
  .binary int .addAssign (.subscript int (.ref {} "slot" .var) (call "f" []))
    (call "g" [.binary int .logicalAnd (.int int 0) (call "h" [])])

theorem bumpedSlot_recordsPure : bumpedSlot.RecordsPure := by
  have hleaf : ∀ e : Expr, e.info.constant = none → e.children = [] → e.RecordsPure := by
    intro e hinfo hchildren
    exact recordsPure_of_children hinfo (by simp [hchildren])
  have hcall : ∀ (info : ExprInfo) (name : String) (args : List Expr), info.constant = none →
      (∀ x ∈ args, x.RecordsPure) →
      RecordsPure (.call info (.ref {} name .function) args false .none) := by
    intro info name args hinfo hargs
    refine recordsPure_of_children hinfo fun x hx => ?_
    rcases List.mem_cons.mp hx with rfl | hx
    · exact hleaf _ rfl rfl
    · exact hargs x hx
  have hpair : ∀ e x y : Expr, e.info.constant = none → e.children = [x, y] → x.RecordsPure →
      y.RecordsPure → e.RecordsPure := by
    intro e x y hinfo hchildren hx hy
    exact recordsPure_of_children hinfo (by simp [hchildren, hx, hy])
  refine hpair _ _ _ rfl rfl (hpair _ _ _ rfl rfl (hleaf _ rfl rfl) (hcall _ _ _ rfl nofun)) ?_
  refine hcall _ _ _ rfl fun x hx => ?_
  cases List.mem_singleton.mp hx
  exact hpair _ _ _ rfl rfl (hleaf _ rfl rfl) (hcall _ _ _ rfl nofun)

theorem bumpedSlot_effects :
    bumpedSlot.RecordsPure ∧ ∃ code, expr ⟨"", "", [], []⟩ {} false bumpedSlot = .ok code ∧
      (∃ x, bumpedSlot.sub? [0, 1] = some x ∧
        OccursOnce ⟨"", "", [], []⟩ {} (pieces ⟨"", "", [], []⟩ {} false bumpedSlot) [0, 1] x) ∧
      Absent (pieces ⟨"", "", [], []⟩ {} false bumpedSlot) [1, 1, 1] ∧
      InOrder (pieces ⟨"", "", [], []⟩ {} false bumpedSlot) [0, 1] [1] := by
  obtain ⟨code, hcode⟩ : ∃ code, expr ⟨"", "", [], []⟩ {} false bumpedSlot = .ok code := ⟨_, rfl⟩
  obtain ⟨-, honce, habsent, horder⟩ := effects_emitted_once_in_order bumpedSlot_recordsPure hcode
  exact ⟨bumpedSlot_recordsPure, code, hcode,
    ⟨_, rfl, honce [0, 1] _ rfl rfl (by decide)⟩,
    habsent [1, 1, 1] _ rfl rfl (by decide),
    horder [0, 1] [1] (by decide) (by decide) (.inl (by decide))⟩

end Once

end Lower

end DartLowering
