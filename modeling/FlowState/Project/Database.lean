import FlowState.Annotation.File
import FlowState.Project.Run
import FlowState.State.Fixup

/-! # The project database

Four tables: the binaries of a project, the annotations of each, the calculation runs and their
fixups. A table may be missing, and then its use is an error. Rows of binaries and runs are
numbered, and no number is used twice. A version tells which tables there should be; opening a
database brings it to the current version. -/

namespace FlowState

/-- A binary of a project. -/
structure BinaryRecord where
  /-- The name, which no other binary of the project has. -/
  name : String
  path : String
  arch : Option String
  hash : Option String
  deriving Repr, DecidableEq

/-- The value that a binary is written as. -/
def BinaryRecord.toJson (b : BinaryRecord) : Json :=
  .object [("name", .text b.name), ("path", .text b.path), ("arch", .ofOption .text b.arch),
    ("hash", .ofOption .text b.hash)]

/-- Rows with numbers. -/
structure Numbered (α : Type) where
  rows : List (Nat × α)
  /-- The last number that was given out. -/
  last : Nat
  deriving Repr

namespace Numbered

/-- No rows, and no number given out. -/
def empty {α : Type} : Numbered α := ⟨[], 0⟩

/-- A new row with the next number. -/
def insert {α : Type} (t : Numbered α) (a : α) : Numbered α × Nat :=
  (⟨t.rows ++ [(t.last + 1, a)], t.last + 1⟩, t.last + 1)

/-- The rows without their numbers. -/
def values {α : Type} (t : Numbered α) : List α := t.rows.map (·.2)

end Numbered

/-- A stored annotation. Addresses are kept as signed numbers, and fields as text. -/
structure AnnotationRow where
  binary : String
  position : Int
  kind : String
  address : Int64
  fields : String
  deriving Repr, DecidableEq

/-- A stored run. The status is kept as text, and the count as a signed number. -/
structure RunRow where
  binary : String
  updateFunction : String
  status : String
  startedAt : String
  finishedAt : String
  fixupCount : Int64
  deriving Repr, DecidableEq

/-- A stored fixup, by its run and its place among the fixups of the run. -/
structure FixupRow where
  run : Int
  index : Nat
  address : Int64
  kind : String
  expected : Option String
  computed : String
  resolution : String
  deriving Repr, DecidableEq

/-- The tables of a project. -/
structure Database where
  version : Int
  binaries : Option (Numbered BinaryRecord)
  annotations : Option (List AnnotationRow)
  runs : Option (Numbered RunRow)
  fixups : Option (List FixupRow)
  deriving Repr

/-- Why a database cannot be used. -/
inductive DatabaseError where
  /-- What the storage has to say. -/
  | sql
  | unsupportedVersion (found : Int)
  | invalidRow (binary : String) (e : AnnotationError)
  | invalidRunStatus (text : String)
  deriving Repr, DecidableEq

namespace DatabaseError

/-- The message of an error. -/
def message : DatabaseError → String
  | .sql => s!"SQLite error: {outsideCause}"
  | .unsupportedVersion found =>
    "Unsupported schema version " ++ (if found < 0 then "-" else "") ++ Text.decimal found.natAbs ++
      "; supported range is 0..=2"
  | .invalidRow binary e => "Annotation row for binary '" ++ binary ++ "' is invalid: " ++ e.message
  | .invalidRunStatus text => s!"Stored run status '{text}' is not recognized"

/-- The error of annotations for an error of their storage. -/
def toAnnotationError : DatabaseError → AnnotationError
  | .invalidRow _ e => e
  | e => .storage e.message

end DatabaseError

namespace Database

/-- A database without tables. -/
def blank : Database := ⟨0, none, none, none, none⟩

/-- The current version. -/
def currentVersion : Int := 2

/-- The version after a version was set: one that does not fit into 32 bits counts as zero. -/
def setVersion (d : Database) (v : Int) : Database :=
  { d with version := if -0x80000000 ≤ v && v < 0x80000000 then v else 0 }

/-- The tables of the first version, as far as they are missing. -/
def createFirst (d : Database) : Database :=
  { d with
    version := 1
    binaries := some (d.binaries.getD .empty)
    annotations := some (d.annotations.getD []) }

/-- The tables of the second version, as far as they are missing. -/
def createSecond (d : Database) : Database :=
  { d with
    version := 2
    runs := some (d.runs.getD .empty)
    fixups := some (d.fixups.getD []) }

/-- **Opens a database**: one of a later version is refused, and one of an earlier version gets the
tables it lacks. -/
def openTables (d : Database) : Except DatabaseError Database :=
  if currentVersion < d.version then .error (.unsupportedVersion d.version)
  else
    let d := if d.version = 0 then d.createFirst else d
    .ok (if d.version < 2 then d.createSecond else d)

/-- A table that has to be there. -/
def need {α : Type} : Option α → Except DatabaseError α
  | some a => .ok a
  | none => .error .sql

/-! ### Binaries -/

/-- **Adds a binary**, whose name has to be new. -/
def insertBinary (d : Database) (b : BinaryRecord) : Except DatabaseError (Database × Nat) := do
  let t ← need d.binaries
  if t.values.any fun c => c.name == b.name then .error .sql
  else
    let (t, n) := t.insert b
    return ({ d with binaries := some t }, n)

/-- All binaries in the order of their numbers. -/
def listBinaries (d : Database) : Except DatabaseError (List BinaryRecord) :=
  (need d.binaries).map Numbered.values

/-- The binary of a name. -/
def findBinary (d : Database) (name : String) : Except DatabaseError (Option BinaryRecord) :=
  (need d.binaries).map fun t => t.values.find? fun b => b.name == name

/-- Sets the architecture of a binary: the number of binaries of the name. -/
def updateArch (d : Database) (name arch : String) : Except DatabaseError (Database × Nat) := do
  let t ← need d.binaries
  let rows := t.rows.map fun r =>
    if r.2.name == name then (r.1, { r.2 with arch := some arch }) else r
  return ({ d with binaries := some { t with rows := rows } },
    (t.values.filter fun b => b.name == name).length)

/-! ### Annotations -/

/-- The row of an annotation at a position. -/
def annotationRow (binary : String) (position : Nat) (a : Annotation) : AnnotationRow :=
  ⟨binary, position, a.kind.name, a.address.toInt64, a.payload.toFields.compact⟩

/-- **Replaces the annotations of a binary.** -/
def saveAnnotations (d : Database) (binary : String) (as : List Annotation) :
    Except DatabaseError Database := do
  let rows ← need d.annotations
  let others := rows.filter fun r => r.binary != binary
  return { d with annotations := some (others ++ as.mapIdx (annotationRow binary)) }

/-- The annotation of a row. -/
def annotationOfRow (r : AnnotationRow) : Except AnnotationError Annotation :=
  match Json.ofText? r.fields with
  | none => .error .json
  | some fields => Annotation.ofFields r.kind r.address.toUInt64 fields

/-- The rows of a binary by their positions. -/
def annotationRows (rows : List AnnotationRow) (binary : String) : List AnnotationRow :=
  (rows.filter fun r => r.binary == binary).mergeSort fun a b => a.position ≤ b.position

/-- **The annotations of a binary** in the order of their positions. -/
def loadAnnotations (d : Database) (binary : String) : Except DatabaseError (List Annotation) := do
  let rows ← need d.annotations
  ((annotationRows rows binary).mapM annotationOfRow).mapError (.invalidRow binary)

/-- Puts a row in place of one with the same binary and position. -/
def putAnnotationRow (d : Database) (r : AnnotationRow) : Except DatabaseError Database := do
  let rows ← need d.annotations
  let others := rows.filter fun s => !(s.binary == r.binary && s.position == r.position)
  return { d with annotations := some (others ++ [r]) }

/-! ### Runs -/

/-- **Records a run.** -/
def insertRun (d : Database) (r : RunRecord) : Except DatabaseError (Database × Nat) := do
  let t ← need d.runs
  let (t, n) := t.insert
    ⟨r.binary, r.updateFunction, r.status.name, r.startedAt, r.finishedAt, r.fixupCount.toInt64⟩
  return ({ d with runs := some t }, n)

/-- The run of a row. -/
def rowRun (row : Nat × RunRow) : Except DatabaseError RunRecord :=
  let r := row.2
  match RunStatus.ofName? r.status with
  | some status => .ok ⟨some row.1, r.binary, r.updateFunction, status, r.startedAt, r.finishedAt,
      r.fixupCount.toUInt64⟩
  | none => .error (.invalidRunStatus r.status)

/-- The runs of a binary, or all runs, in the order of their numbers. -/
def listRuns (d : Database) (binary : Option String) : Except DatabaseError (List RunRecord) := do
  let t ← need d.runs
  (t.rows.filter fun r => binary.all (· == r.2.binary)).mapM rowRun

/-- The number of the last run of a binary. -/
def latestRun (d : Database) (binary : String) : Except DatabaseError (Option Nat) :=
  (need d.runs).map fun t =>
    ((t.rows.filter fun r => r.2.binary == binary).getLast?).map (·.1)

/-- Sets the status of a run to any text: the number of runs of the number. -/
def setRunStatus (d : Database) (run : Int) (status : String) :
    Except DatabaseError (Database × Nat) := do
  let t ← need d.runs
  let rows := t.rows.map fun r =>
    if (r.1 : Int) == run then (r.1, { r.2 with status := status }) else r
  return ({ d with runs := some { t with rows := rows } },
    (t.rows.filter fun r => (r.1 : Int) == run).length)

/-! ### Fixups -/

/-- The row of a fixup. -/
def fixupRow (run : Int) (index : Nat) (f : FixupRecord) : FixupRow :=
  ⟨run, index, f.address.toInt64, f.kind, f.expected, f.computed, f.resolution⟩

/-- **Stores the fixups of a run**, all or none of them. -/
def insertFixups (d : Database) (run : Int) (fs : List FixupRecord) :
    Except DatabaseError Database := do
  let rows ← need d.fixups
  let new := fs.mapIdx (fixupRow run)
  if new.any fun n => rows.any fun r => r.run == n.run && r.index == n.index then .error .sql
  else return { d with fixups := some (rows ++ new) }

/-- The fixups of a run in their order. -/
def listFixups (d : Database) (run : Int) : Except DatabaseError (List FixupRecord) := do
  let rows ← need d.fixups
  return ((rows.filter fun r => r.run == run).mergeSort fun a b => a.index ≤ b.index).map fun r =>
    ⟨r.address.toUInt64, r.kind, r.expected, r.computed, r.resolution⟩

/-! ### Tables -/

/-- Drops a table by its name, with the numbers it has given out. -/
def dropTable (d : Database) (name : String) : Database :=
  if name == "binaries" then { d with binaries := none }
  else if name == "annotations" then { d with annotations := none }
  else if name == "calculation_runs" then { d with runs := none }
  else if name == "state_fixups" then { d with fixups := none }
  else d

end Database

end FlowState
