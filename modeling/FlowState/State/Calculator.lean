import FlowState.State.Walk

/-! # The state calculator

An update function with its seeds and with the tables of the last pass that succeeded. -/

namespace FlowState

/-- Seeds, an update function and the tables of the last pass. -/
structure Calculator where
  updater : Updater
  stopAtEntryPoints : Bool
  seeds : List (Address × StateValue)
  prepared : Bool
  pre : Table StateValue
  post : Table StateValue

/-- What a pass reads besides the seeds. -/
structure CalculatorInput where
  graph : BlockGraph
  annotations : AnnotationStore
  memory : Memory
  entryPoints : List Address

namespace Calculator

/-- A calculator without seeds. -/
def ofUpdater (u : Updater) (stopAtEntryPoints : Bool) : Calculator :=
  ⟨u, stopAtEntryPoints, [], false, .empty, .empty⟩

/-- Sets the state at a seed; a seed that is there keeps its place. -/
def seed (c : Calculator) (a : Address) (s : StateValue) : Calculator :=
  if c.seeds.any fun e => e.1 == a then
    { c with seeds := c.seeds.map fun e => if e.1 == a then (a, s) else e }
  else { c with seeds := c.seeds ++ [(a, s)] }

/-- Prepares the update function: the calculator that is left behind, and the error if there is one.
-/
def prepare (c : Calculator) : Calculator × Except StateError Unit :=
  match c.updater.prepare with
  | .error e => (c, .error e)
  | .ok u => ({ c with updater := u, prepared := true }, .ok ())

/-- Releases what the preparation built; the tables stay. -/
def cleanup (c : Calculator) : Calculator :=
  { c with updater := c.updater.cleanup, prepared := false }

/-- The input of the walk. -/
def walkInput (c : Calculator) (input : CalculatorInput) (cancelled : Nat → Bool) : WalkInput where
  graph := input.graph
  annotations := input.annotations
  memory := input.memory
  entryPoints := input.entryPoints
  stopAtEntryPoints := c.stopAtEntryPoints
  update := c.updater.update
  cancelled := cancelled

/-- What a pass leaves behind: the tables are written when it has come to its end. -/
def conclude (c : Calculator) (r : Except StateError Pass) :
    Calculator × Except StateError (List Fixup) :=
  match r with
  | .error e => (c, .error e)
  | .ok p => ({ c with pre := p.pre, post := p.post }, .ok p.fixups)

/-- **A whole pass**: the calculator that is left behind, and the fixups or the error. -/
def calculate (c : Calculator) (input : CalculatorInput) (cancelled : Nat → Bool) :
    Calculator × Except StateError (List Fixup) :=
  if c.prepared then c.conclude (propagate (c.walkInput input cancelled) c.seeds)
  else (c, .error .notPrepared)

/-! ### What is left as it was -/

theorem updater_seed (c : Calculator) (a : Address) (s : StateValue) :
    (c.seed a s).updater = c.updater := by
  unfold seed
  split <;> rfl

theorem prepared_seed (c : Calculator) (a : Address) (s : StateValue) :
    (c.seed a s).prepared = c.prepared := by
  unfold seed
  split <;> rfl

theorem updater_of_prepare {c : Calculator} {x : Unit} (h : c.prepare.2 = .ok x) :
    c.prepare.1.updater = { c.updater with ready := true } := by
  unfold prepare Updater.prepare at h ⊢
  cases hp : c.updater.function.prepare with
  | error e =>
    rw [hp] at h
    cases h
  | ok x => rfl

/-- A failed preparation leaves the calculator as it was. -/
theorem prepare_of_error {c : Calculator} {e : StateError} (h : c.prepare.2 = .error e) :
    c.prepare.1 = c := by
  unfold prepare at h ⊢
  cases hp : c.updater.prepare with
  | error e => rfl
  | ok u =>
    rw [hp] at h
    cases h

theorem updater_calculate (c : Calculator) (input : CalculatorInput) (cancelled : Nat → Bool) :
    (c.calculate input cancelled).1.updater = c.updater := by
  unfold calculate conclude
  repeat' split
  all_goals rfl

theorem prepared_calculate (c : Calculator) (input : CalculatorInput) (cancelled : Nat → Bool) :
    (c.calculate input cancelled).1.prepared = c.prepared := by
  unfold calculate conclude
  repeat' split
  all_goals rfl

/-- The error of a pass is the error of the calculation. -/
theorem conclude_error_iff {c : Calculator} {r : Except StateError Pass} {e : StateError} :
    (c.conclude r).2 = .error e ↔ r = .error e := by
  cases r with
  | ok p => exact iff_of_false (by intro h; cases h) (by intro h; cases h)
  | error e' => exact ⟨fun h => by cases h; rfl, fun h => by cases h; rfl⟩

/-- A calculation that succeeds is a pass of a prepared calculator. -/
theorem calculate_eq_ok {c c' : Calculator} {input : CalculatorInput} {cancelled : Nat → Bool}
    {fixups : List Fixup} (h : c.calculate input cancelled = (c', .ok fixups)) :
    ∃ p, c.prepared = true ∧ propagate (c.walkInput input cancelled) c.seeds = .ok p ∧
      c' = { c with pre := p.pre, post := p.post } ∧ fixups = p.fixups := by
  unfold calculate at h
  split at h
  case isTrue hready =>
    cases hp : propagate (c.walkInput input cancelled) c.seeds with
    | error e =>
      rw [hp] at h
      cases h
    | ok p =>
      rw [hp] at h
      cases h
      exact ⟨p, hready, rfl, rfl, rfl⟩
  case isFalse => cases h

theorem prepared_of_calculate {c c' : Calculator} {input : CalculatorInput}
    {cancelled : Nat → Bool} {fixups : List Fixup}
    (h : c.calculate input cancelled = (c', .ok fixups)) : c.prepared = true := by
  obtain ⟨p, hready, -⟩ := calculate_eq_ok h
  exact hready

end Calculator

end FlowState
