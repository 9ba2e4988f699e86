import FlowState.Address
import FlowState.Path

/-! # Project layout

Where the files of a project are, seen from its root. -/

namespace FlowState

/-- The place of a project. -/
structure ProjectLayout where
  /-- The folder that holds the project. -/
  root : Path
  deriving Repr, DecidableEq

namespace ProjectLayout

/-- The folder for what the project keeps for itself. -/
def metaFolder (l : ProjectLayout) : Path := l.root.join ⟨".statewalk"⟩

/-- The configuration file. -/
def config (l : ProjectLayout) : Path := l.metaFolder.join ⟨"project.json"⟩

/-- The usual place of the database. -/
def database (l : ProjectLayout) : Path := l.metaFolder.join ⟨"project.db"⟩

/-- The folder for exported annotations. -/
def annotations (l : ProjectLayout) : Path := l.root.join ⟨"annotations"⟩

/-- The folder for reports. -/
def reports (l : ProjectLayout) : Path := l.root.join ⟨"reports"⟩

/-- The usual place of the database, seen from the root. -/
def relativeDatabase (l : ProjectLayout) : Path :=
  ((l.database.under? l.root).map Path.ofParts).getD l.database

/-- The file that the annotations of a binary are exported to. -/
def exportFile (l : ProjectLayout) (binary extension : String) : Path :=
  l.annotations.join ⟨binary ++ "." ++ extension⟩

/-- The file with the report on a run. -/
def report (l : ProjectLayout) (binary : String) (run : Int) : Path :=
  let sign := if run < 0 then "-" else ""
  l.reports.join ⟨binary ++ "-run" ++ sign ++ Text.decimal run.natAbs ++ ".json"⟩

/-- **The path that a stored path stands for**: it starts at the root unless it is absolute. -/
def resolve (l : ProjectLayout) (stored : Path) : Path :=
  if stored.isAbsolute then stored else l.root.join stored

/-- The name of a project that is not given one. -/
def name (l : ProjectLayout) : String :=
  match l.root.fileName? with
  | some cs => String.ofList cs
  | none => "unnamed-project"

end ProjectLayout

end FlowState
