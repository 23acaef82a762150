import DartLowering.Proofs.WritingLaws

/-!
What expressions do to a writer. An expression never ends a line: unless it is broken off, it adds
one text to the line, the same to every writer, and it notices nothing else of the writer. `Inline`
says so together with the characters that the text is made of, and it is a law of what is written.
-/
namespace DartLowering.Writing

open Text Result

variable {α β : Type} {p : Char → Bool} {R Q : α → Prop} {S : β → Prop}

/-- Unless it is broken off, the writing adds a text over `p` to the line that the writer is in. The
text, the outcome and the layouts that are kept are the same for all writers, and values satisfy
`Q`. -/
def Offers (p : Char → Bool) (Q : α → Prop) (m : Writing α) : Prop :=
  ∀ layouts, (∀ w : Writer, m ⟨w, layouts⟩ = none) ∨
    ∃ r s layouts', Over p s ∧ Yields Q r ∧
      ∀ w : Writer, m ⟨w, layouts⟩ = some (r, ⟨w.print s, layouts'⟩)

/-- Nothing is asked of the values. -/
abbrev Inline (p : Char → Bool) (m : Writing α) : Prop := Offers p (fun _ => True) m

namespace Offers

variable {m : Writing α} {k : α → Writing β}

theorem ofResult {r : Result α} (h : Yields Q r) : Offers p Q (Run.ofResult r) :=
  fun layouts => .inr ⟨r, "", layouts, List.forall_mem_nil _, h, fun _ => rfl⟩

theorem bind (hm : Offers p R m) (hk : ∀ a, R a → Offers p S (k a)) : Offers p S (m >>= k) := by
  intro layouts
  rcases hm layouts with hnone | ⟨r, s, layouts', hs, hr, hrun⟩
  · left
    intro w
    simp only [Bind.bind, hnone w]
  · cases r with
    | error f =>
      exact .inr ⟨.error f, s, layouts', hs, yields_error f, fun w => Run.bind_of_error (hrun w)⟩
    | ok a =>
      rcases hk a (hr a rfl) layouts' with hnone | ⟨r, t, layouts'', ht, hr, hrest⟩
      · exact .inl fun w => (Run.bind_of_ok (hrun w)).trans (hnone _)
      · refine .inr ⟨r, s ++ t, layouts'', over_append.mpr ⟨hs, ht⟩, hr, fun w => ?_⟩
        rw [Run.bind_of_ok (hrun w), hrest, Writer.print_print]

theorem locate (hm : Offers p Q m) (position : Position) : Offers p Q (m.locate position) := by
  intro layouts
  rcases hm layouts with hnone | ⟨r, s, layouts', hs, hr, hrun⟩
  · left
    intro w
    rw [Run.locate, hnone w]
    rfl
  · exact .inr ⟨Result.locate position r, s, layouts', hs, fun a ha => hr a (locate_eq_ok.mp ha),
      fun w => Run.locate_of (hrun w)⟩

theorem ask (q : Lookup α) (h : ∀ a, Q a) : Offers p Q (Writing.ask q) := by
  intro layouts
  cases hq : q layouts with
  | none =>
    left
    intro w
    rw [Writing.ask, hq]
    rfl
  | some outcome =>
    refine .inr ⟨outcome.1, "", outcome.2, List.forall_mem_nil _, fun a _ => h a, fun w => ?_⟩
    rw [Writing.ask, hq]
    rfl

end Offers

namespace Inline

variable {m : Writing α} {k : α → Writing β}

theorem pure (a : α) : Inline p (Pure.pure a : Writing α) := Offers.ofResult fun _ _ => trivial

theorem then_ (hm : Inline p m) (hk : ∀ a, Inline p (k a)) : Inline p (m >>= k) :=
  hm.bind fun a _ => hk a

theorem print {s : String} (h : Over p s) : Inline p (Writing.print s) :=
  fun layouts => .inr ⟨.ok (), s, layouts, h, yields_ok trivial, fun _ => rfl⟩

end Inline

/-- Nothing is asked of failures. -/
def Law.offering (env : TypeEnv) (p : Char → Bool) : Law env fun _ => True where
  Holds := Offers p
  admits := admits_any env
  result _ := .ofResult
  brokenOff _ := .inl fun _ => rfl
  bind := .bind
  locate position hm := hm.locate position
  constant _ := .ask _ fun _ => trivial
  size _ := .ask _ fun _ => trivial
  layout _ := .ask _ fun _ _ _ _ _ _ => trivial

def TextLaw.inline (env : TypeEnv) (hp : AdmitsLines p) : TextLaw env (fun _ => True) p where
  toLaw := .offering env p
  lines := hp
  text := Inline.print

end DartLowering.Writing
