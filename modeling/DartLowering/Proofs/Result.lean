import DartLowering.Source.Failure

/-!
Opening a result that succeeded: every part that it was computed from succeeded, and placing
failures does not touch it. Two results are `Alike` when both succeed, with related values, or both
fail, in related ways; `FailsOnly` says of one result how it may fail, and `Yields` what it may
succeed with.
-/
namespace DartLowering.Result

variable {α β γ δ : Type}

theorem bind_eq_ok {r : Result α} {f : α → Result β} {b : β} :
    (r >>= f) = .ok b ↔ ∃ a, r = .ok a ∧ f a = .ok b := by
  cases r with
  | error | ok => simp [bind, Except.bind]

@[simp] theorem ok_bind (a : α) (f : α → Result β) : (Except.ok a >>= f : Result β) = f a := rfl

theorem bind_ok (r : Result α) : (r >>= .ok) = r := by
  cases r <;> rfl

@[simp] theorem locate_eq_ok {position : Position} {r : Result α} {a : α} :
    locate position r = .ok a ↔ r = .ok a := by
  cases r with
  | error | ok => simp [locate]

theorem locate_eq_error {position : Position} {r : Result α} {f : Failure} :
    locate position r = .error f ↔ ∃ g, r = .error g ∧ g.locate position = f := by
  cases r with
  | error | ok => simp [locate]

inductive Alike (F : Failure → Failure → Prop) (V : α → β → Prop) : Result α → Result β → Prop
  | ok {a : α} {b : β} (h : V a b) : Alike F V (.ok a) (.ok b)
  | error {f g : Failure} (h : F f g) : Alike F V (.error f) (.error g)

section Alike

variable {F : Failure → Failure → Prop} {V : α → β → Prop} {W : γ → δ → Prop} {r : Result α}
  {s : Result β}

theorem Alike.bind (h : Alike F V r s) {f : α → Result γ} {g : β → Result δ}
    (hfg : ∀ a b, V a b → Alike F W (f a) (g b)) : Alike F W (r >>= f) (s >>= g) := by
  cases h with
  | ok h => exact hfg _ _ h
  | error h => exact .error h

theorem Alike.bind_eq {r s : Result α} (h : Alike F Eq r s) {f : α → Result γ} {g : α → Result δ}
    (hfg : ∀ a, Alike F W (f a) (g a)) : Alike F W (r >>= f) (s >>= g) :=
  h.bind fun a _ hab => hab ▸ hfg a

theorem Alike.imp (h : Alike F V r s) {W : α → β → Prop} (hVW : ∀ a b, V a b → W a b) :
    Alike F W r s := by
  cases h with
  | ok h => exact .ok (hVW _ _ h)
  | error h => exact .error h

theorem Alike.locate (h : Alike F V r s) {p q : Position}
    (hF : ∀ f g, F f g → F (f.locate p) (g.locate q)) :
    Alike F V (Result.locate p r) (Result.locate q s) := by
  cases h with
  | ok h => exact .ok h
  | error h => exact .error (hF _ _ h)

theorem Alike.refl (hF : ∀ f, F f f) (r : Result α) : Alike F Eq r r := by
  cases r with
  | ok a => exact .ok rfl
  | error f => exact .error (hF f)

theorem Alike.symm (hF : ∀ f g, F f g → F g f) {r s : Result α} (h : Alike F Eq r s) :
    Alike F Eq s r := by
  cases h with
  | ok h => exact .ok h.symm
  | error h => exact .error (hF _ _ h)

theorem Alike.trans (hF : ∀ f g h, F f g → F g h → F f h) {W : α → α → Prop}
    (hW : ∀ a b c, W a b → W b c → W a c) {r s t : Result α} (h : Alike F W r s)
    (h' : Alike F W s t) : Alike F W r t := by
  cases h with
  | ok h =>
    cases h' with
    | ok h' => exact .ok (hW _ _ _ h h')
  | error h =>
    cases h' with
    | error h' => exact .error (hF _ _ _ h h')

theorem Alike.eq {r s : Result α} (h : Alike Eq Eq r s) : r = s := by
  cases h with
  | ok h | error h => rw [h]

theorem Alike.eq_ok {r s : Result α} (h : Alike F Eq r s) {a : α} (hr : r = .ok a) : s = .ok a := by
  cases h with
  | ok h => rw [← h, hr]
  | error h => cases hr

theorem Alike.of_errors (h : Alike F V r s) {f g : Failure} (hr : r = .error f)
    (hs : s = .error g) : F f g := by
  cases h with
  | ok h => cases hr
  | error h =>
    cases hr
    cases hs
    exact h

theorem Alike.of_map_eq (hF : ∀ f, F f f) {view : α → γ} {r s : Result α}
    (h : s.map view = r.map view) : Alike F (fun a b => view b = view a) r s := by
  cases r with
  | ok a =>
    cases s with
    | ok b => exact .ok (Except.ok.inj h)
    | error g => cases h
  | error f =>
    cases s with
    | ok b => cases h
    | error g =>
      cases h
      exact .error (hF f)

theorem Alike.toOption_eq {r s : Result α} (h : Alike F Eq r s) : r.toOption = s.toOption := by
  cases h with
  | ok h => rw [h]
  | error => rfl

end Alike

def FailsOnly (P : Failure → Prop) (r : Result α) : Prop := ∀ f, r = .error f → P f

section FailsOnly

variable {P : Failure → Prop} {r : Result α}

theorem failsOnly_ok (a : α) : FailsOnly P (.ok a) := by
  intro f hf
  cases hf

theorem failsOnly_error {f : Failure} : FailsOnly P (.error f : Result α) ↔ P f := by
  constructor
  · intro h
    exact h f rfl
  · intro h g hg
    cases hg
    exact h

theorem failsOnly_bind {f : α → Result β} :
    FailsOnly P (r >>= f) ↔ FailsOnly P r ∧ ∀ a, r = .ok a → FailsOnly P (f a) := by
  cases r with
  | ok a =>
    constructor
    · intro h
      refine ⟨failsOnly_ok a, fun b hb => ?_⟩
      cases hb
      exact h
    · intro h
      exact h.2 a rfl
  | error failure =>
    constructor
    · intro h
      refine ⟨failsOnly_error.mpr (h failure rfl), fun b hb => ?_⟩
      cases hb
    · intro h
      exact failsOnly_error.mpr (h.1 failure rfl)

theorem FailsOnly.bind {f : α → Result β} (h : FailsOnly P r) (hf : ∀ a, FailsOnly P (f a)) :
    FailsOnly P (r >>= f) :=
  failsOnly_bind.mpr ⟨h, fun a _ => hf a⟩

theorem FailsOnly.locate {p : Position} (h : FailsOnly P r) (hP : ∀ f, P f → P (f.locate p)) :
    FailsOnly P (Result.locate p r) := by
  cases r with
  | ok a => exact failsOnly_ok a
  | error failure => exact failsOnly_error.mpr (hP failure (h failure rfl))

end FailsOnly

def Yields (P : α → Prop) (r : Result α) : Prop := ∀ a, r = .ok a → P a

section Yields

variable {P : α → Prop} {Q : β → Prop} {r : Result α} {F : Failure → Prop}

theorem yields_ok {a : α} (h : P a) : Yields P (.ok a) := by
  intro b hb
  cases hb
  exact h

theorem yields_error (f : Failure) : Yields P (.error f : Result α) := by
  intro a ha
  cases ha

theorem yields_self (r : Result α) : Yields (fun a => r = .ok a) r := fun _ h => h

theorem Yields.bind {f : α → Result β} (h : Yields P r) (hf : ∀ a, P a → Yields Q (f a)) :
    Yields Q (r >>= f) := by
  intro b hb
  obtain ⟨a, ha, hb⟩ := bind_eq_ok.mp hb
  exact hf a (h a ha) b hb

/-- The result fails with `F` only and yields values with `P` only. -/
structure Ends (F : Failure → Prop) (P : α → Prop) (r : Result α) : Prop where
  fails : FailsOnly F r
  yields : Yields P r

theorem ends_ok {a : α} (h : P a) : Ends F P (.ok a) :=
  ⟨failsOnly_ok a, yields_ok h⟩

theorem ends_error {f : Failure} (h : F f) : Ends F P (.error f) :=
  ⟨failsOnly_error.mpr h, yields_error f⟩

theorem Ends.bind {f : α → Result β} (h : Ends F P r) (hf : ∀ a, P a → Ends F Q (f a)) :
    Ends F Q (r >>= f) := by
  refine ⟨failsOnly_bind.mpr ⟨h.fails, fun a ha => ?_⟩, h.yields.bind fun a ha => (hf a ha).yields⟩
  exact (hf a (h.yields a ha)).fails

theorem Ends.imp {Q : α → Prop} (h : Ends F P r) (hPQ : ∀ a, P a → Q a) : Ends F Q r :=
  ⟨h.fails, fun a ha => hPQ a (h.yields a ha)⟩

/-- What a value was found as may be used of it. -/
theorem Ends.self (h : Ends F P r) : Ends F (fun a => P a ∧ r = .ok a) r :=
  ⟨h.fails, fun a ha => ⟨h.yields a ha, ha⟩⟩

theorem Alike.and_yields {F : Failure → Failure → Prop} {V : α → β → Prop} {s : Result β}
    (h : Alike F V r s) (hr : Yields P r) : Alike F (fun a b => V a b ∧ P a) r s := by
  cases h with
  | ok h => exact .ok ⟨h, hr _ rfl⟩
  | error h => exact .error h

end Yields

end DartLowering.Result
