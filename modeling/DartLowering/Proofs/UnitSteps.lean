import DartLowering.Proofs.Interleaving

/-!
The operations of one unit. It reads its input, compares its output with what is there, makes the
directory and stores the output; it ends early when something fails or when nothing is to be done.
-/
namespace DartLowering.Command

section Shapes

variable {α : Type}

def storing (path content : String) (conclude : Result Unit → α) : Program α :=
  .write path content fun
    | .error e => .done (conclude (.error (e.report "write" path)))
    | .ok () => .done (conclude (.ok ()))

def making (path content : String) (conclude : Result Unit → α) : Program α :=
  .makeDirectory (Path.directory path) fun
    | .error e => .done (conclude (.error (e.report "create directory" (Path.directory path))))
    | .ok () => storing path content conclude

def comparing (path content : String) (conclude : Result Unit → α) : Program α :=
  .read path fun
    | .ok old => if old = content then .done (conclude (.ok ())) else making path content conclude
    | .error _ => making path content conclude

theorem storeOutput_bind (path content : String) (conclude : Result Unit → α) :
    (storeOutput Program.files path content >>= fun r => .done (conclude r)) =
      making path content conclude := by
  refine congrArg (Program.makeDirectory (Path.directory path)) (funext fun made => ?_)
  cases made with
  | error e => rfl
  | ok u =>
    refine congrArg (Program.write path content) (funext fun stored => ?_)
    cases stored with
    | error | ok => rfl

theorem writeOutput_bind (path content : String) (conclude : Result Unit → α) :
    (writeOutput Program.files path content >>= fun r => .done (conclude r)) =
      comparing path content conclude := by
  refine congrArg (Program.read path) (funext fun r => ?_)
  cases r with
  | error e => exact storeOutput_bind path content conclude
  | ok old =>
    show _ = if old = content then .done (conclude (.ok ())) else making path content conclude
    rw [← storeOutput_bind]
    exact apply_ite (Program.bind fun r => .done (conclude r)) (old = content) _ _

/-- What a unit leaves behind when its output could be delivered, or could not. -/
def Plan.conclusion (p : Plan) (input text : String) (r : Result Unit) : UnitOutcome :=
  let told := p.filter.notices .info ("translating " ++ input) ++
    (p.emission input text).progress.flatMap (p.filter.notices .debug)
  match r with
  | .ok () => { notices := told ++ p.filter.notices .info ("wrote " ++ p.destination input) }
  | .error failure => { notices := told ++ [], failure := some failure }

def Plan.lowering (p : Plan) (input text : String) : Program UnitOutcome :=
  match (p.emission input text).output with
  | .error failure => .done
      { notices := p.filter.notices .info ("translating " ++ input) ++
          (p.emission input text).progress.flatMap (p.filter.notices .debug)
        failure := some failure }
  | .ok content => comparing (p.destination input) content (p.conclusion input text)

def Plan.reading (p : Plan) (input : String) : Program UnitOutcome :=
  .read input fun
    | .error e => .done { failure := some (e.report "read" input) }
    | .ok text => p.lowering input text

variable {p : Plan} {input standardInput : String}

theorem unit_program (hdiff : p.diff = false) (hinput : input ≠ "-") :
    p.unit Program.files standardInput input = p.reading input := by
  have hfinish : ∀ text, p.finish Program.files input text = p.lowering input text := by
    intro text
    unfold Plan.lowering
    cases hout : (p.emission input text).output with
    | error failure =>
      rw [Plan.finish]
      simp only [hout]
      rfl
    | ok content =>
      rw [Plan.finish]
      simp only [hout]
      rw [Plan.deliver]
      simp only [if_neg hinput, hdiff, Bool.false_eq_true, if_false]
      rw [Program.bind_assoc, ← writeOutput_bind]
      refine congrArg (writeOutput Program.files (p.destination input) content >>= ·)
        (funext fun r => ?_)
      cases r with
      | error | ok => rfl
  rw [Plan.unit, if_neg hinput]
  refine congrArg (Program.read input) (funext fun r => ?_)
  cases r with
  | error e => rfl
  | ok text => exact hfinish text

end Shapes

section Running

variable (p : Plan) (path content input text standardInput : String)

theorem run_storeOutput_program :
    (storeOutput Program.files path content).run = storeOutput Directory.files path content := by
  refine congrArg (Directory.files.makeDirectory (Path.directory path) >>= ·)
    (funext fun made => ?_)
  cases made with
  | error e => rfl
  | ok u =>
    refine congrArg (Directory.files.write path content >>= ·) (funext fun stored => ?_)
    cases stored with
    | error | ok => rfl

theorem run_writeOutput_program :
    (writeOutput Program.files path content).run = writeOutput Directory.files path content := by
  refine congrArg (Directory.files.read path >>= ·) (funext fun r => ?_)
  cases r with
  | error e => exact run_storeOutput_program path content
  | ok old =>
    rw [← run_storeOutput_program]
    exact apply_ite Program.run (old = content) _ _

theorem run_diffOutput_program :
    (diffOutput Program.files path content).run = diffOutput Directory.files path content := by
  refine congrArg (Directory.files.read path >>= ·) (funext fun r => ?_)
  cases r with
  | ok old => rfl
  | error e => exact apply_ite Program.run (e.fault = .notFound) _ _

theorem run_deliver_program :
    (p.deliver Program.files input content).run = p.deliver Directory.files input content := by
  unfold Plan.deliver
  by_cases hinput : input = "-"
  · simp only [hinput, if_true]
    rfl
  · cases p.diff with
    | true =>
      simp only [hinput, if_false, if_true]
      rw [Program.run_bind, run_diffOutput_program]
      refine congrArg (diffOutput Directory.files (p.destination input) content >>= ·)
        (funext fun r => ?_)
      cases r with
      | error | ok => rfl
    | false =>
      simp only [hinput, if_false, Bool.false_eq_true]
      rw [Program.run_bind, run_writeOutput_program]
      refine congrArg (writeOutput Directory.files (p.destination input) content >>= ·)
        (funext fun r => ?_)
      cases r with
      | error | ok => rfl

theorem run_finish_program :
    (p.finish Program.files input text).run = p.finish Directory.files input text := by
  unfold Plan.finish
  cases hout : (p.emission input text).output with
  | error failure =>
    simp only [hout]
    rfl
  | ok content =>
    simp only [hout]
    rw [Program.run_bind, run_deliver_program]
    rfl

/-- A unit that has the directory to itself does what it does when it runs through. -/
theorem run_unit_program :
    (p.unit Program.files standardInput input).run =
      p.unit Directory.files standardInput input := by
  unfold Plan.unit
  by_cases hinput : input = "-"
  · rw [if_pos hinput, if_pos hinput]
    exact run_finish_program p input standardInput
  · rw [if_neg hinput, if_neg hinput]
    refine congrArg (Directory.files.read input >>= ·) (funext fun r => ?_)
    cases r with
    | error e => rfl
    | ok text => exact run_finish_program p input text

/-- Without the standard input among them, the units of a run are programs one after another. -/
theorem units_eq_runAll {inputs : List String} (h : "-" ∉ inputs) :
    p.units Directory.files standardInput inputs =
      Program.runAll (inputs.map (p.unit Program.files standardInput)) := by
  induction inputs with
  | nil => rfl
  | cons input inputs ih =>
    obtain ⟨hinput, hrest⟩ := not_or.mp (mt List.mem_cons.mpr h)
    have hother : ¬input = "-" := fun heq => hinput heq.symm
    rw [List.map_cons, Program.runAll, run_unit_program, ← ih hrest, Plan.units, if_neg hother]

end Running

end DartLowering.Command
