import DartLowering.Command.Run
import DartLowering.Source.Directory
import Mathlib.Logic.Basic

/-!
Programs over files that take turns. A program stops before each of its file operations, so several
can work on one directory in any order of their operations. A program that has the directory to
itself does what it does when it runs through, and running programs one after another is one of the
orders.
-/
namespace DartLowering

/-- A program that is to perform a file operation, or that has come to its result. -/
inductive Program (α : Type)
  | done (result : α)
  | read (path : String) (next : Except AccessError String → Program α)
  | write (path content : String) (next : Except AccessError Unit → Program α)
  | makeDirectory (path : String) (next : Except AccessError Unit → Program α)
  | observe (path : String) (next : Option AccessFault → Program α)

namespace Program

variable {α β : Type}

def bind (f : α → Program β) : Program α → Program β
  | .done result => f result
  | .read path next => .read path fun r => (next r).bind f
  | .write path content next => .write path content fun r => (next r).bind f
  | .makeDirectory path next => .makeDirectory path fun r => (next r).bind f
  | .observe path next => .observe path fun r => (next r).bind f

instance : Monad Program where
  pure := .done
  bind program f := program.bind f

def files : Files Program where
  read path := .read path .done
  write path content := .write path content .done
  makeDirectory path := .makeDirectory path .done
  observe path := .observe path .done

/-- The next operation is performed. -/
def step : Program α → Directory → Program α × Directory
  | .done result, d => (.done result, d)
  | .read path next, d => ((Directory.files.read path).run d).map next id
  | .write path content next, d => ((Directory.files.write path content).run d).map next id
  | .makeDirectory path next, d => ((Directory.files.makeDirectory path).run d).map next id
  | .observe path next, d => ((Directory.files.observe path).run d).map next id

/-- All operations are performed, one after the other. -/
def run : Program α → StateM Directory α
  | .done result => pure result
  | .read path next => do (next (← Directory.files.read path)).run
  | .write path content next => do (next (← Directory.files.write path content)).run
  | .makeDirectory path next => do (next (← Directory.files.makeDirectory path)).run
  | .observe path next => do (next (← Directory.files.observe path)).run

theorem bind_assoc {γ : Type} (program : Program α) (f : α → Program β) (g : β → Program γ) :
    program >>= f >>= g = program >>= fun a => f a >>= g := by
  induction program with
  | done result => rfl
  | read path next ih => exact congrArg (read path) (funext ih)
  | write path content next ih => exact congrArg (write path content) (funext ih)
  | makeDirectory path next ih => exact congrArg (makeDirectory path) (funext ih)
  | observe path next ih => exact congrArg (observe path) (funext ih)

theorem step_read (path : String) (next : Except AccessError String → Program α) (d : Directory) :
    (read path next).step d = (next (d.read path), d) := rfl

theorem step_makeDirectory (path : String) (next : Except AccessError Unit → Program α)
    (d : Directory) :
    (makeDirectory path next).step d = (next (d.makeDirectory path).1, (d.makeDirectory path).2) :=
  rfl

theorem step_write_of_ok {path content : String} {d e : Directory}
    (next : Except AccessError Unit → Program α)
    (h : d.write path content = .ok e) : (write path content next).step d = (next (.ok ()), e) :=
  congrArg (Prod.map next id) (Directory.run_attempt_of_ok h)

theorem step_write_of_error {path content : String} {d : Directory} {error : AccessError}
    (next : Except AccessError Unit → Program α) (h : d.write path content = .error error) :
    (write path content next).step d = (next (.error error), d) :=
  congrArg (Prod.map next id) (Directory.run_attempt_of_error h)

theorem run_bind (program : Program α) (f : α → Program β) :
    (program >>= f).run = program.run >>= fun a => (f a).run := by
  induction program with
  | done result => rfl
  | read path next ih => exact (congrArg _ (funext ih)).trans (LawfulMonad.bind_assoc _ _ _).symm
  | write path content next ih =>
    exact (congrArg _ (funext ih)).trans (LawfulMonad.bind_assoc _ _ _).symm
  | makeDirectory path next ih =>
    exact (congrArg _ (funext ih)).trans (LawfulMonad.bind_assoc _ _ _).symm
  | observe path next ih => exact (congrArg _ (funext ih)).trans (LawfulMonad.bind_assoc _ _ _).symm

def runAll : List (Program α) → StateM Directory (List α)
  | [] => pure []
  | program :: programs => do
      let result ← program.run
      let results ← runAll programs
      pure (result :: results)

end Program

/-- Programs at work on a directory. -/
structure Stage (α : Type) where
  directory : Directory
  programs : List (Program α)

namespace Stage

variable {α : Type}

/-- The program of that number performs its next operation, if it has one. -/
def advance (s : Stage α) (i : Nat) : Stage α :=
  match s.programs[i]? with
  | none => s
  | some program =>
      ⟨(program.step s.directory).2, s.programs.set i (program.step s.directory).1⟩

/-- Programs perform operations in the given order. -/
def play (s : Stage α) (order : List Nat) : Stage α := order.foldl advance s

def Finished (s : Stage α) (results : List α) : Prop := s.programs = results.map .done

theorem advance_eq (before after : List (Program α)) (program : Program α) (d : Directory) :
    advance ⟨d, before ++ program :: after⟩ before.length =
      ⟨(program.step d).2, before ++ (program.step d).1 :: after⟩ := by
  simp [advance]

theorem exists_order_step {program : Program α} {before after : List (Program α)} {d : Directory}
    {s : Stage α} (h : ∃ order,
      play ⟨(program.step d).2, before ++ (program.step d).1 :: after⟩ order = s) :
    ∃ order, play ⟨d, before ++ program :: after⟩ order = s := by
  obtain ⟨order, horder⟩ := h
  refine ⟨before.length :: order, ?_⟩
  rw [play, List.foldl_cons, advance_eq]
  exact horder

/-- A program that is the only one to perform operations runs through. -/
theorem exists_order_run (program : Program α) (before after : List (Program α)) (d : Directory) :
    ∃ order, play ⟨d, before ++ program :: after⟩ order =
      ⟨(program.run.run d).2, before ++ .done (program.run.run d).1 :: after⟩ := by
  induction program generalizing d with
  | done result => exact ⟨[], rfl⟩
  | read path next ih => exact exists_order_step (ih _ _)
  | write path content next ih => exact exists_order_step (ih _ _)
  | makeDirectory path next ih => exact exists_order_step (ih _ _)
  | observe path next ih => exact exists_order_step (ih _ _)

/-- Running programs one after another is one of the orders. -/
theorem exists_order_runAll (programs : List (Program α)) (d : Directory) :
    ∃ order, play ⟨d, programs⟩ order =
      ⟨((Program.runAll programs).run d).2, ((Program.runAll programs).run d).1.map .done⟩ := by
  suffices h : ∀ before : List (Program α), ∃ order, play ⟨d, before ++ programs⟩ order =
      ⟨((Program.runAll programs).run d).2, before ++ ((Program.runAll programs).run d).1.map .done⟩
        from h []
  induction programs generalizing d with
  | nil =>
    intro before
    exact ⟨[], rfl⟩
  | cons program programs ih =>
    intro before
    obtain ⟨first, hfirst⟩ := exists_order_run program before programs d
    obtain ⟨rest, hrest⟩ := ih (program.run.run d).2 (before ++ [.done (program.run.run d).1])
    refine ⟨first ++ rest, ?_⟩
    rw [play] at hfirst hrest ⊢
    rw [List.foldl_append, hfirst, List.append_cons, hrest, List.append_assoc]
    rfl

/-- What every operation keeps holds in every order. -/
theorem play_induction {motive : Stage α → Prop} {s : Stage α} (hstart : motive s)
    (hstep : ∀ s i, motive s → motive (s.advance i)) (order : List Nat) :
    motive (s.play order) := by
  induction order generalizing s with
  | nil => exact hstart
  | cons i order ih => exact ih (hstep s i hstart)

end Stage

end DartLowering
