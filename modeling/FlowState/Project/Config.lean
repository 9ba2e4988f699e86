import FlowState.Json.Reader
import FlowState.Session

/-! # Project configuration

What a project says about itself in its configuration file: its name, where its database is, and
what its sessions start from. A command may override some of that for one run. -/

namespace FlowState

/-- What the sessions of a project start from. -/
structure AnalysisConfig where
  /-- States are not propagated into other entry points. -/
  stopAtEntryPoints : Bool := false
  /-- The width of a seed in bytes. -/
  seedWidth : Nat := 4
  /-- The value of the seed as an address is written; zero if there is none. -/
  seed : Option String := none
  maxInstructions : Option Nat := none
  deriving Repr, DecidableEq

/-- The configuration of a project. -/
structure ProjectConfig where
  name : String
  description : Option String := none
  /-- The version of the format of the configuration. -/
  version : String := "0.1.0"
  /-- Where the database is, seen from the root of the project. -/
  database : Path
  updateFunction : Option String := none
  analysis : AnalysisConfig := {}
  deriving Repr, DecidableEq

namespace AnalysisConfig

/-- The value that the settings are written as. -/
def toJson (a : AnalysisConfig) : Json :=
  .object ([("stop_at_entrypoints", .bool a.stopAtEntryPoints),
      ("seed_width", .ofNat a.seedWidth)] ++
    (a.seed.map fun s => ("seed", Json.text s)).toList ++
    (a.maxInstructions.map fun n => ("max_instructions", Json.ofNat n)).toList)

/-- The settings that a document is; what it leaves out has its usual value. -/
def ofDocument? (d : Document) : Option AnalysisConfig :=
  match d.fields? ["stop_at_entrypoints", "seed_width", "seed", "max_instructions"] with
  | some [stop, width, seed, budget] => do
    let usual : AnalysisConfig := {}
    let stop ← Document.withDefault? usual.stopAtEntryPoints Document.bool? stop
    let width ← Document.withDefault? usual.seedWidth (fun d => d.word?.map UInt64.toNat) width
    let seed ← Document.withDefault? usual.seed (Document.optional? Document.text?) seed
    let budget ← Document.withDefault? usual.maxInstructions
      (Document.optional? fun d => d.word?.map UInt64.toNat) budget
    return ⟨stop, width, seed, budget⟩
  | _ => none

end AnalysisConfig

namespace ProjectConfig

/-- The value that a configuration is written as. -/
def toJson (c : ProjectConfig) : Json :=
  .object ([("name", .text c.name), ("description", .ofOption .text c.description),
      ("config_version", .text c.version), ("db", .object [("path", .text c.database.text)])] ++
    (c.updateFunction.map fun u => ("default_update_function", Json.text u)).toList ++
    [("analysis", c.analysis.toJson)])

/-- The path of the database in the part of a document that tells it. -/
def databaseOf? (d : Document) : Option Path :=
  match d.fields? ["path"] with
  | some [p] => (Document.required? Document.text? p).map Path.mk
  | _ => none

/-- The configuration that a document is. -/
def ofDocument? (d : Document) : Option ProjectConfig :=
  match d.fields? ["name", "description", "config_version", "db", "default_update_function",
    "analysis"] with
  | some [name, description, version, database, update, analysis] => do
    let name ← Document.required? Document.text? name
    let description ← Document.withDefault? none (Document.optional? Document.text?) description
    let version ← Document.required? Document.text? version
    let database ← Document.required? databaseOf? database
    let update ← Document.withDefault? none (Document.optional? Document.text?) update
    let analysis ← Document.withDefault? {} AnalysisConfig.ofDocument? analysis
    return ⟨name, description, version, database, update, analysis⟩
  | _ => none

/-- **The configuration in a text.** -/
def ofText? (s : String) : Option ProjectConfig :=
  (Json.read? (s.toList.map some)).bind ofDocument?

end ProjectConfig

/-- What a command sets for one run. -/
structure Overrides where
  updateFunction : Option String := none
  /-- The value of the seed as an address is written. -/
  seed : Option String := none
  /-- Where states start, as addresses are written. -/
  seedAddresses : List String := []
  stopAtEntryPoints : Bool := false
  deriving Repr, DecidableEq

/-- Why a setting cannot be used. -/
inductive SettingError where
  | invalidAddress (text : String)
  /-- The seed is not written as an address is. -/
  | invalidSeed (text : String)
  deriving Repr, DecidableEq

namespace SettingError

/-- What is wrong with a text that should be an address. -/
def addressMessage (text : String) : String :=
  s!"Invalid address '{text}' (expected 0x-prefixed hex or decimal)"

/-- The messages of an error, the outermost first. -/
def messages : SettingError → List String
  | .invalidAddress text => [addressMessage text]
  | .invalidSeed text => ["Invalid seed value", addressMessage text]

end SettingError

/-- The address that a text is. -/
def Address.read (text : String) : Except SettingError Address :=
  match Address.parse? text with
  | some a => .ok a
  | none => .error (.invalidAddress text)

namespace ProjectConfig

/-- The seed of a session, if one is set. -/
def seed (c : ProjectConfig) (o : Overrides) : Except SettingError (Option StateValue) :=
  match o.seed.or c.analysis.seed with
  | none => .ok none
  | some text =>
    match Address.parse? text with
    | some a => .ok (some (StateValue.ofWord a c.analysis.seedWidth))
    | none => .error (.invalidSeed text)

/-- **How the sessions of a project work** under the overrides of a command. -/
def session (c : ProjectConfig) (o : Overrides) : Except SettingError SessionConfig := do
  let seed ← c.seed o
  let addresses ← o.seedAddresses.mapM Address.read
  return {
    updateFunction := o.updateFunction.or c.updateFunction
    stopAtEntryPoints := o.stopAtEntryPoints || c.analysis.stopAtEntryPoints
    seed := seed
    seedWidth := c.analysis.seedWidth
    seedAddresses := addresses
    maxInstructions := c.analysis.maxInstructions }

end ProjectConfig

end FlowState
