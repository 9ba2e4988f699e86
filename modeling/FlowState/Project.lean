import FlowState.Command
import FlowState.Project.Layout

/-! # Projects

A folder with a configuration, a database and what commands make of them. A project is opened from
its root, and every change of its database is written back at once. -/

namespace FlowState

/-- An open project. -/
structure Project where
  layout : ProjectLayout
  config : ProjectConfig
  /-- Where the database is. -/
  databasePath : Path
  database : Database

namespace Project

variable {m : Type → Type} [Monad m] [Files m]

/-- **The root that a text names**: the current folder for a dot, what is there without steps up, or
else the path seen from the current folder. -/
def root (p : Path) : m Path := do
  if p.parts = [.here] then Files.current
  else
    match ← Files.canonical? p with
    | some q => return q
    | none => return (← Files.current).join p

/-- Stores a database in its file. -/
def store (p : Path) (d : Database) : Command m Unit := do
  let written ← Files.write p (.database d)
  if written then return () else throw DatabaseError.sql.messages

/-- **Opens the database in a file**, which is made if it is missing. -/
def openDatabase (p : Path) : Command m Database := do
  let before ← match ← Files.read? p with
    | none => pure Database.blank
    | some content =>
      match content.database? with
      | some d => pure d
      | none => throw DatabaseError.sql.messages
  let d ← Command.ofResult DatabaseError.messages before.openTables
  store p d
  return d

/-- The configuration of the project in a place. -/
def readConfig (l : ProjectLayout) : Command m ProjectConfig := do
  let content ← Files.read? l.config
  match (content.map FileContent.toBytes).bind Text.ofBytes? with
  | none => throw ["Failed to read project config at " ++ l.config.text, outsideCause]
  | some text =>
    match ProjectConfig.ofText? text with
    | none => throw ["Failed to parse project config JSON", outsideCause]
    | some c => return c

/-- **Opens the project** that a text names. -/
def openAt (p : Path) : Command m Project := do
  let layout : ProjectLayout := ⟨← root p⟩
  let config ← readConfig layout
  let path := layout.resolve config.database
  let database ← Command.within ("Failed to open project database at " ++ path.text)
    (openDatabase path)
  return ⟨layout, config, path, database⟩

/-- What the database answers to a question. -/
def ask {α : Type} (p : Project) (question : Database → Except DatabaseError α) : Command m α :=
  Command.ofResult DatabaseError.messages (question p.database)

/-- **Changes the database** and stores it. -/
def change {α : Type} (p : Project) (step : Database → Except DatabaseError (Database × α)) :
    Command m (Project × α) := do
  let (d, a) ← Command.ofResult DatabaseError.messages (step p.database)
  store p.databasePath d
  return ({ p with database := d }, a)

/-! ### Binaries -/

/-- The binary of a name, which has to be registered. -/
def binary (p : Project) (name : String) : Command m BinaryRecord := do
  match ← p.ask fun d => d.findBinary name with
  | some b => return b
  | none => throw [s!"Binary '{name}' is not registered in this project"]

/-- Replaces the stored annotations of a binary. -/
def saveAnnotations (p : Project) (name : String) (as : List Annotation) : Command m Project := do
  match p.database.saveAnnotations name as with
  | .error e => throw e.toAnnotationError.messages
  | .ok d =>
    store p.databasePath d
    return { p with database := d }

/-- Records the architecture that a loader has found. -/
def recordArchitecture (p : Project) (b : BinaryRecord) (s : Session) : Command m Project :=
  match s.image.map fun i => i.architecture.name with
  | none => return p
  | some arch => do
    if b.arch = some arch then return p
    let (p, _) ← Command.within "Failed to record architecture"
      (p.change fun d => d.updateArch b.name arch)
    return p

/-- **Opens a registered binary**: its stored annotations first, and then its image on top of them.
-/
def openBinary (p : Project) (r : Registry) (name : String) (config : SessionConfig) :
    Command m (Project × Session) := do
  let found ← Command.within "Failed to look up binary" (p.ask fun d => d.findBinary name)
  match found with
  | none => throw [s!"Binary '{name}' is not registered in this project"]
  | some b =>
    let path := p.layout.resolve ⟨b.path⟩
    let stored := (p.database.loadAnnotations name).mapError DatabaseError.toAnnotationError
    let annotated := (Session.new config).loadAnnotations stored
    let _ ← Command.within s!"Failed to load stored annotations for {name}"
      (Command.ofResult SessionError.messages annotated.result)
    let content ← Files.read? path
    let loaded := annotated.session.load r path (content.map FileContent.toBytes)
    Command.within ("Failed to load binary " ++ path.text)
      (Command.ofResult SessionError.messages loaded.result)
    let p ← p.recordArchitecture b loaded.session
    return (p, loaded.session)

end Project

end FlowState
