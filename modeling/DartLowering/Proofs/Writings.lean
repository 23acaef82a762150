import DartLowering.Emit.Expr
import DartLowering.Proofs.KeptLayouts

/-!
What a writing leaves behind. `Finds` is about writings that only look something up, `Writes` about
those that start from a given writer, and `Prints` about those that add a text to whatever writer
they start from. Each of them says that the writing is not broken off, that it ends as a given
result does, and that the layouts it keeps are computed. There is one rule for each way to put
writings together, so that writings are followed step by step.
-/
namespace DartLowering.Writing

open Lookup (Answers)

variable {α β γ : Type} {env : TypeEnv} {w : Writer}

/-- The writing leaves the text as it is and ends in `r`. -/
def Finds (env : TypeEnv) (m : Writing α) (r : Result α) : Prop :=
  ∀ (w : Writer) (layouts : LayoutCache), layouts.Computed env →
    ∃ layouts' : LayoutCache, m ⟨w, layouts⟩ = some (r, ⟨w, layouts'⟩) ∧ layouts'.Computed env

/-- From the writer `w`, the writing fails as `r` does or leaves the writer that belongs to the
value of `r`. -/
def Writes (env : TypeEnv) (w : Writer) (m : Writing Unit) (r : Result β) (after : β → Writer) :
    Prop :=
  ∀ layouts : LayoutCache, layouts.Computed env →
    ∃ d : Desk, m ⟨w, layouts⟩ = some (r.map fun _ => (), d) ∧ d.layouts.Computed env ∧
      ∀ b, r = .ok b → d.writer = after b

/-- The writing fails as `r` does or adds the text of the value of `r`. -/
def Prints (env : TypeEnv) (m : Writing Unit) (r : Result β) (text : β → String) : Prop :=
  ∀ w : Writer, Writes env w m r fun b => w.print (text b)

namespace Finds

variable {m : Writing α} {k : α → Writing β} {r : Result α} {f : α → Result β}

theorem ask {q : Lookup α} (h : Answers env q r) : Finds env (Writing.ask q) r := by
  intro w layouts hlayouts
  obtain ⟨layouts', hq, hlayouts'⟩ := h layouts hlayouts
  refine ⟨layouts', ?_, hlayouts'⟩
  rw [Writing.ask, hq]
  rfl

theorem ofResult (r : Result α) : Finds env (Run.ofResult r) r :=
  fun _ layouts hlayouts => ⟨layouts, rfl, hlayouts⟩

theorem pure (a : α) : Finds env (Pure.pure a) (.ok a) := ofResult (.ok a)

theorem fail (failure : Failure) : Finds env (Run.fail failure : Writing α) (.error failure) :=
  ofResult (.error failure)

theorem present {e : Expr} (h : e ≠ .absent) : Finds env e.present (.ok e) := by
  cases e with
  | absent => exact absurd rfl h
  | _ => exact pure _

theorem require {a : α} {o : Option α} (h : o = some a) : Finds env (Run.require o) (.ok a) :=
  h ▸ pure a

theorem bind (h : Finds env m r) (hk : ∀ a, r = .ok a → Finds env (k a) (f a)) :
    Finds env (m >>= k) (r >>= f) := by
  intro w layouts hlayouts
  obtain ⟨layouts', hm, hlayouts'⟩ := h w layouts hlayouts
  cases r with
  | ok a =>
    obtain ⟨layouts'', hrest, hlayouts''⟩ := hk a rfl w layouts' hlayouts'
    exact ⟨layouts'', (Run.bind_of_ok hm).trans hrest, hlayouts''⟩
  | error failure => exact ⟨layouts', Run.bind_of_error hm, hlayouts'⟩

theorem bind_map {g : γ → β} {f : α → Result γ} (h : Finds env m r)
    (hk : ∀ a, r = .ok a → Finds env (k a) ((f a).map g)) :
    Finds env (m >>= k) ((r >>= f).map g) := by
  have hmap : (r >>= f).map g = (r >>= fun a => (f a).map g) := by cases r <;> rfl
  exact hmap ▸ h.bind hk

theorem ok_bind {a : α} {s : Result β} (h : Finds env m (.ok a)) (hk : Finds env (k a) s) :
    Finds env (m >>= k) s :=
  bind (f := fun _ => s) h fun _ ha => Except.ok.inj ha ▸ hk

theorem locate (p : Position) (h : Finds env m r) : Finds env (m.locate p) (Result.locate p r) := by
  intro w layouts hlayouts
  obtain ⟨layouts', hm, hlayouts'⟩ := h w layouts hlayouts
  exact ⟨layouts', Run.locate_of hm, hlayouts'⟩

end Finds

namespace Writes

variable {m : Writing Unit} {k : Unit → Writing Unit} {r : Result β} {f : β → Result γ}
  {mid : β → Writer} {after : γ → Writer}

theorem fail (failure : Failure) : Writes env w (Run.fail failure) (.error failure) after := by
  intro layouts hlayouts
  refine ⟨⟨w, layouts⟩, rfl, hlayouts, ?_⟩
  intro c hc
  cases hc

theorem pure {c : γ} (h : w = after c) : Writes env w (Pure.pure ()) (.ok c) after := by
  intro layouts hlayouts
  refine ⟨⟨w, layouts⟩, rfl, hlayouts, ?_⟩
  rintro _ ⟨⟩
  exact h

theorem print {c : γ} {s : String} (h : w.print s = after c) :
    Writes env w (Writing.print s) (.ok c) after := by
  intro layouts hlayouts
  refine ⟨⟨w.print s, layouts⟩, rfl, hlayouts, ?_⟩
  rintro _ ⟨⟩
  exact h

theorem newline {c : γ} (h : w.newline = after c) :
    Writes env w Writing.newline (.ok c) after := by
  intro layouts hlayouts
  refine ⟨⟨w.newline, layouts⟩, rfl, hlayouts, ?_⟩
  rintro _ ⟨⟩
  exact h

theorem bind (h : Writes env w m r mid)
    (hk : ∀ b, r = .ok b → Writes env (mid b) (k ()) (f b) after) :
    Writes env w (m >>= k) (r >>= f) after := by
  intro layouts hlayouts
  obtain ⟨d, hm, hd, hmid⟩ := h layouts hlayouts
  cases r with
  | ok b =>
    obtain ⟨d', hrest, hd', hafter⟩ := hk b rfl d.layouts hd
    rw [← hmid b rfl] at hrest
    exact ⟨d', (Run.bind_of_ok hm).trans hrest, hd', hafter⟩
  | error failure =>
    refine ⟨d, Run.bind_of_error hm, hd, ?_⟩
    intro c hc
    cases hc

theorem ok_bind {b : β} {t : Result γ} (h : Writes env w m (.ok b) mid)
    (hk : Writes env (mid b) (k ()) t after) : Writes env w (m >>= k) t after :=
  bind (f := fun _ => t) h fun _ hb => Except.ok.inj hb ▸ hk

/-- Going on to write does not change the value. -/
theorem followed {after : β → Writer} (h : Writes env w m r mid)
    (hk : ∀ b, r = .ok b → Writes env (mid b) (k ()) (.ok b) after) :
    Writes env w (m >>= k) r after := by
  rw [← Result.bind_ok r]
  exact h.bind hk

/-- The last step: its value goes into that of the whole. -/
theorem last {g : β → γ} (h : Writes env w m r mid) (hg : ∀ b, r = .ok b → mid b = after (g b)) :
    Writes env w m (r >>= fun b => .ok (g b)) after := by
  intro layouts hlayouts
  obtain ⟨d, hm, hd, hmid⟩ := h layouts hlayouts
  cases r with
  | ok b =>
    refine ⟨d, hm, hd, ?_⟩
    rintro _ ⟨⟩
    exact (hmid b rfl).trans (hg b rfl)
  | error failure =>
    refine ⟨d, hm, hd, ?_⟩
    intro c hc
    cases hc

theorem congr {after' : β → Writer} (h : Writes env w m r mid)
    (hafter : ∀ b, r = .ok b → mid b = after' b) : Writes env w m r after' := by
  intro layouts hlayouts
  obtain ⟨d, hm, hd, hmid⟩ := h layouts hlayouts
  exact ⟨d, hm, hd, fun b hb => (hmid b hb).trans (hafter b hb)⟩

theorem print_bind {s : String} {t : Result γ} (h : Writes env (w.print s) (k ()) t after) :
    Writes env w (Writing.print s >>= k) t after :=
  fun layouts hlayouts => h layouts hlayouts

theorem newline_bind {t : Result γ} (h : Writes env w.newline (k ()) t after) :
    Writes env w (Writing.newline >>= k) t after :=
  fun layouts hlayouts => h layouts hlayouts

theorem find_bind {q : Writing α} {k : α → Writing Unit} {r : Result α} {f : α → Result γ}
    (h : Finds env q r) (hk : ∀ a, r = .ok a → Writes env w (k a) (f a) after) :
    Writes env w (q >>= k) (r >>= f) after := by
  intro layouts hlayouts
  obtain ⟨layouts', hq, hlayouts'⟩ := h w layouts hlayouts
  cases r with
  | ok a =>
    obtain ⟨d, hrest, hd, hafter⟩ := hk a rfl layouts' hlayouts'
    exact ⟨d, (Run.bind_of_ok hq).trans hrest, hd, hafter⟩
  | error failure =>
    refine ⟨⟨w, layouts'⟩, Run.bind_of_error hq, hlayouts', ?_⟩
    intro c hc
    cases hc

theorem find_last {q : Writing β} {k : β → Writing Unit} {after : β → Writer} (h : Finds env q r)
    (hk : ∀ b, r = .ok b → Writes env w (k b) (.ok b) after) : Writes env w (q >>= k) r after := by
  rw [← Result.bind_ok r]
  exact find_bind h hk

theorem find_map_bind {q : Writing α} {k : α → Writing Unit} {g : β → α} (h : Finds env q (r.map g))
    (hk : ∀ b, r = .ok b → Writes env w (k (g b)) (f b) after) :
    Writes env w (q >>= k) (r >>= f) after := by
  cases r with
  | ok b => exact find_bind (f := fun _ => f b) h fun _ ha => Except.ok.inj ha ▸ hk b rfl
  | error failure => exact find_bind (f := fun _ => .error failure) h fun _ ha => nomatch ha

theorem found_bind {q : Writing α} {k : α → Writing Unit} {a : α} {t : Result γ}
    (h : Finds env q (.ok a)) (hk : Writes env w (k a) t after) : Writes env w (q >>= k) t after :=
  find_bind (f := fun _ => t) h fun _ ha => Except.ok.inj ha ▸ hk

theorem locate (p : Position) (h : Writes env w m r mid) :
    Writes env w (m.locate p) (Result.locate p r) mid := by
  intro layouts hlayouts
  obtain ⟨d, hm, hd, hmid⟩ := h layouts hlayouts
  refine ⟨d, (Run.locate_of hm).trans ?_, hd, fun b hb => hmid b (Result.locate_eq_ok.mp hb)⟩
  cases r <;> rfl

/-- The level is taken back after a block. -/
theorem deeper (h : Writes env w.deeper m r mid) :
    Writes env w (Writing.deeper m) r fun b => (mid b).shallower := by
  intro layouts hlayouts
  obtain ⟨d, hm, hd, hmid⟩ := h layouts hlayouts
  refine ⟨{ d with writer := d.writer.shallower }, ?_, hd, ?_⟩
  · rw [Writing.deeper, hm]
    rfl
  · intro b hb
    exact congrArg Writer.shallower (hmid b hb)

end Writes

namespace Prints

variable {m : Writing Unit} {r : Result β} {text : β → String}

theorem print {s : String} {b : β} (h : s = text b) :
    Prints env (Writing.print s) (.ok b) text :=
  fun _ => .print (h ▸ rfl)

theorem fail (failure : Failure) : Prints env (Run.fail failure) (.error failure) text :=
  fun _ => .fail failure

theorem locate (p : Position) (h : Prints env m r text) :
    Prints env (m.locate p) (Result.locate p r) text :=
  fun w => (h w).locate p

end Prints

section Lists

/-- Texts with commas between them, the first of them item `i`. -/
def listed (i : Nat) : List String → String
  | [] => ""
  | t :: ts => (if 0 < i then ", " else "") ++ t ++ listed (i + 1) ts

theorem listed_succ (i : Nat) (ts : List String) : listed (i + 1) ts = listed 1 ts := by
  induction ts generalizing i with
  | nil => rfl
  | cons t ts ih => simp only [listed, ih (i + 1), ih 1, Nat.zero_lt_succ]

theorem listed_zero (ts : List String) : listed 0 ts = Text.join ", " ts := by
  induction ts with
  | nil => rfl
  | cons t ts ih =>
    cases ts with
    | nil => simp [listed, Text.join]
    | cons u us =>
      have hrest : listed 0 (u :: us) = u ++ listed 1 us := by simp [listed]
      rw [hrest] at ih
      have hjoin : Text.join ", " (t :: u :: us) = t ++ ", " ++ Text.join ", " (u :: us) := by
        simp [Text.join, String.intercalate_cons_cons]
      rw [hjoin, ← ih]
      simp [listed, listed_succ, String.append_assoc]

theorem listed_append (i : Nat) (ts us : List String) :
    listed i (ts ++ us) = listed i ts ++ listed (i + ts.length) us := by
  induction ts generalizing i with
  | nil => simp [listed]
  | cons t ts ih =>
    have hcount : i + 1 + ts.length = i + (t :: ts).length := by
      rw [List.length_cons]
      omega
    rw [List.cons_append, listed, ih, hcount, listed]
    simp only [String.append_assoc]

theorem print_bind_print (s t : String) :
    (print s >>= fun _ => print t) = print (s ++ t) := by
  funext d
  exact congrArg (fun writer => some (Except.ok (), { d with writer })) (d.writer.print_print s t)

theorem comma_eq (i : Nat) : comma i = print (if 0 < i then ", " else "") := by
  unfold comma
  split
  · rfl
  · rfl

theorem item_eq {ms : List (Writing Unit)} {i : Nat} {m : Writing Unit} (h : ms[i]? = some m) :
    item ms i = m := by
  rw [item, h]
  rfl

/-- Items that are there are written like any others. -/
theorem argumentsFrom_eq {ms : List (Writing Unit)} {i count : Nat} (h : i + count ≤ ms.length) :
    argumentsFrom ms i count = separatedFrom i ((ms.drop i).take count) := by
  induction count generalizing i with
  | zero => rfl
  | succ count ih =>
    have hi : i < ms.length := by omega
    have hitem : item ms i = ms[i] := item_eq (List.getElem?_eq_getElem hi)
    rw [argumentsFrom, hitem, ih (by omega), List.drop_eq_getElem_cons hi]
    rfl

end Lists

end DartLowering.Writing
