import DartLowering.Emit.Texts
import DartLowering.Proofs.RunFailures
import DartLowering.Proofs.Sessions

/-!
No run over an accepted unit is broken off. The texts of complete trees are put together without a
stop, and sessions over a unit whose records do not hold themselves come to their end with replies
and failures that are not crashes.
-/
namespace DartLowering

open Result

namespace Expr

theorem inFormat_of_ne {e : Expr} (h : e ≠ .absent) (text : String) :
    e.inFormat (some text) = text := by
  cases e with
  | absent => exact absurd rfl h
  | _ => rfl

theorem assembledAll_eq {args : List Expr} (h : ∀ x ∈ args, x.assembled = some x.text) :
    assembledAll args = some (texts args) := by
  induction args with
  | nil => rfl
  | cons x xs ih =>
    obtain ⟨hx, hxs⟩ := List.forall_mem_cons.mp h
    rw [assembledAll, texts, hx, ih hxs]
    rfl

theorem argumentText_eq (args : List Expr) : argumentText args = inMessage (texts args) := by
  cases args with
  | nil => rfl
  | cons x xs => rfl

/-- The text of a complete expression is put together without a stop. -/
theorem assembled_eq {e : Expr} (h : e.Complete) : e.assembled = some e.text := by
  induction e using childInduction with
  | step e ih =>
    have hchild : ∀ x ∈ e.children, x.assembled = some x.text ∧
        x.inFormat x.assembled = x.text := by
      intro x hx
      have htext := ih x hx (h.child hx)
      rw [htext]
      exact ⟨rfl, inFormat_of_ne (h.child hx).own x.text⟩
    cases e with
    | absent => exact absurd rfl h.own
    | int | float | string | ref | sizeOf => rfl
    | binary info op lhs rhs =>
      have hlhs := hchild lhs (by simp [children])
      have hrhs := hchild rhs (by simp [children])
      rw [Expr.assembled, text, hlhs.2, hrhs.2]
    | unary info op operand =>
      have hoperand := hchild operand (by simp [children])
      rw [Expr.assembled, hoperand.1]
      cases op <;> rfl
    | call info callee args variadic builtin =>
      obtain ⟨hcallee, hargs⟩ := List.forall_mem_cons.mp hchild
      rw [Expr.assembled, text, assembledAll_eq fun x hx => (hargs x hx).1, hcallee.2]
      rfl
    | member info base arrow field =>
      have hbase := hchild base (by simp [children])
      rw [Expr.assembled, text, hbase.1]
      rfl
    | subscript info base index =>
      have hbase := hchild base (by simp [children])
      have hindex := hchild index (by simp [children])
      rw [Expr.assembled, text, hbase.2, hindex.2]
    | cast info kind operand isExplicit =>
      have hoperand := hchild operand (by simp [children])
      rw [Expr.assembled, text, hoperand.2, hoperand.1]
      exact (apply_ite some _ _ _).symm
    | listNext info list =>
      have hlist := hchild list (by simp [children])
      rw [Expr.assembled, text, hlist.2]
    | conditional info cond then_ else_ =>
      have hcond := hchild cond (by simp [children])
      have hthen := hchild then_ (by simp [children])
      have helse := hchild else_ (by simp [children])
      rw [Expr.assembled, text, hcond.2, hthen.2, helse.2]
    | message info receiver selector args =>
      obtain ⟨hreceiver, hargs⟩ := List.forall_mem_cons.mp hchild
      rw [Expr.assembled, text, assembledAll_eq fun x hx => (hargs x hx).1, hreceiver.1,
        argumentText_eq]
      rfl
    | classMessage info className selector args =>
      have hargs : assembledAll args = some (texts args) :=
        assembledAll_eq fun x hx => (hchild x hx).1
      rw [Expr.assembled, text, hargs, argumentText_eq]
      rfl

end Expr

/-- So is the text of a complete statement. -/
theorem Stmt.assembled_eq {s : Stmt} (h : s.Complete) : s.assembled = some s.text := by
  have hexpr : ∀ e ∈ s.exprs, e.assembled = some e.text ∧ e.inFormat e.assembled = e.text := by
    intro e he
    have hcomplete := h.expr he
    rw [Expr.assembled_eq hcomplete]
    exact ⟨rfl, Expr.inFormat_of_ne hcomplete.own e.text⟩
  cases s with
  | ifElse position cond then_ else_ | whileLoop position cond body | doLoop position body cond
  | switch position cond cases =>
    rw [Stmt.assembled, (hexpr cond (List.mem_singleton.mpr rfl)).2, Stmt.text]
  | ret position value =>
    cases value with
    | none => rfl
    | some value =>
      rw [Stmt.assembled, (hexpr value (List.mem_singleton.mpr rfl)).1]
      rfl
  | expr position value =>
    rw [Stmt.assembled, (hexpr value (List.mem_singleton.mpr rfl)).1, Stmt.text]
  | compound | forLoop | brk | cont | decl | null => rfl

def Decl.statements : Decl → List Stmt
  | .func d => d.body.getD []
  | .method d => d.body.getD []
  | .var _ => []

theorem Decl.Throughout.statement {P : Expr → Prop} {T : CType → Prop} {d : Decl}
    (h : d.Throughout P T) {s : Stmt} (hs : s ∈ d.statements) : s.Throughout P T := by
  cases d with
  | func d | method d =>
    obtain ⟨-, -, hbody⟩ := h
    cases hd : d.body with
    | none =>
      rw [Decl.statements, hd] at hs
      cases hs
    | some body =>
      rw [Decl.statements, hd] at hs
      exact hbody body hd s hs
  | var d => cases hs

namespace Dump

/-- What the table answers is never a crash. -/
theorem Loaded.answer_failsOnly {l : Loaded} (hacyclic : l.env.records.Acyclic) (q : Question) :
    FailsOnly (fun f => f.isCrash = false) (l.answer q) := by
  have hadmits := TypeEnv.admits hacyclic
  have hplain : ∀ {α : Type} {r : Result α},
      FailsOnly (fun f => f.Returned ∨ l.env.Refuses f) r →
        FailsOnly (fun f => f.isCrash = false) r := by
    intro α r hr f hf
    rcases hr f hf with hreturned | hrefused
    · exact hreturned.isCrash
    · exact hrefused.not_returned.1
  cases q with
  | layout tag => exact (hplain (hadmits.layout tag)).bind fun layout => failsOnly_ok _
  | size t => exact (hplain (hadmits.onType hadmits.sizeOf t)).bind fun size => failsOnly_ok _
  | wrapper t => exact (hplain (hadmits.onType hadmits.mapType t)).bind fun name => failsOnly_ok _
  | storageKind t =>
    exact (hplain (hadmits.onType hadmits.storageKind t)).bind fun name => failsOnly_ok _
  | constant e => exact failsOnly_ok _
  | text package cancelled =>
    have hwhole := hplain (hadmits.generate package (some l.unit))
    rw [Lower.generate, Bool.false_and, if_neg Bool.false_ne_true] at hwhole
    have hgenerate : FailsOnly (fun f => f.isCrash = false)
        (Lower.generate l.env package cancelled (some l.unit)) := by
      rw [Lower.generate]
      split
      · exact failsOnly_error.mpr rfl
      · exact hwhole
    exact hgenerate.bind fun text => failsOnly_ok _

/-- After a dump has been accepted nothing breaks off: every session over its unit comes to its end,
with one reply for each question and no crash among the failures, and the texts of all its
expressions and statements are put together. -/
theorem accepted_never_broken_off {path : String} {markers : Markers} {text : String}
    {loaded : Loaded} (h : ofText path markers text = .ok loaded)
    (hacyclic : loaded.env.records.Acyclic) :
    (∀ qs, ∃ replies layouts, loaded.session qs [] = some (.ok replies, layouts) ∧
      replies.length = qs.length ∧
      ∀ reply ∈ replies, ∀ f, reply = .error f → f.isCrash = false) ∧
    ∀ d ∈ loaded.unit.decls,
      d.Throughout (fun e => e.assembled = some e.text) (fun _ => True) ∧
      ∀ s ∈ d.statements, ∀ t, s.Contains t → t.assembled = some t.text := by
  obtain ⟨hsettled, hcomplete⟩ := accepted_ready h hacyclic
  refine ⟨?_, ?_⟩
  · intro qs
    obtain ⟨layouts, hsession, -⟩ :=
      Loaded.session_answers hsettled hcomplete qs [] (LayoutCache.computed_nil _)
    refine ⟨_, layouts, hsession, List.length_map _, ?_⟩
    intro reply hreply f hf
    obtain ⟨q, -, rfl⟩ := List.mem_map.mp hreply
    exact Loaded.answer_failsOnly hacyclic q f hf
  · intro d hd
    refine ⟨(hcomplete d hd).imp (fun e he => ?_) fun _ _ => trivial, ?_⟩
    · exact he.nested.imp fun x hx => Expr.assembled_eq hx
    · intro s hs t ht
      exact Stmt.assembled_eq (((hcomplete d hd).statement hs).contained ht)

/-- Questions over the sample about a missing type, an array of a negative length over an integer of
a negative width, a quotient by zero, and the file. -/
theorem accepted_never_broken_off_sample : ∃ loaded replies layouts,
    ofText "in.json" {} sample = .ok loaded ∧ loaded.env.records.Acyclic ∧
    loaded.session
      [.wrapper none, .size (some (.array (.scalar ⟨.int, -3, true⟩) (some (-5)) false)),
        .constant (.binary { type := some (.scalar ⟨.int, 32, true⟩) } .div
          (.int { type := some (.scalar ⟨.int, 32, true⟩) } 1)
          (.int { type := some (.scalar ⟨.int, 32, true⟩) } 0)), .text "" false] [] =
      some (.ok replies, layouts) ∧
    replies.length = 4 ∧ ∀ reply ∈ replies, ∀ f, reply = .error f → f.isCrash = false := by
  obtain ⟨loaded, hloaded, hacyclic⟩ := sample_accepted
  obtain ⟨replies, layouts, hsession, hlength, hreplies⟩ :=
    (accepted_never_broken_off hloaded hacyclic).1 _
  exact ⟨loaded, replies, layouts, hloaded, hacyclic, hsession, hlength, hreplies⟩

end Dump

end DartLowering
