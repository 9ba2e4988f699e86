import FlowState.Project

/-! # Making and showing projects -/

namespace FlowState.Command

variable {m : Type → Type} [Monad m] [Files m]

/-- Makes a folder of a project. -/
def makeFolder (label : String) (p : Path) : Command m Unit := do
  let made ← Files.createFolders p
  demand (s!"Failed to create {label}: " ++ p.text) made

/-- **Makes a project**: its folders, its configuration and its database. -/
def initProject (root : Path) (name : Option String) : Command m Unit := do
  let layout : ProjectLayout := ⟨← Project.root root⟩
  makeFolder "meta dir" layout.metaFolder
  makeFolder "annotations dir" layout.annotations
  makeFolder "reports dir" layout.reports
  let config : ProjectConfig :=
    { name := name.getD layout.name, database := layout.relativeDatabase }
  let written ← Files.write layout.config (.bytes (Text.toBytes config.toJson.pretty))
  demand ("Failed to write project config: " ++ layout.config.text) written
  let _ ← within ("Failed to initialize project database at " ++ layout.database.text)
    (Project.openDatabase layout.database)
  printAll ["Initialized statewalk project:",
    "  Name: " ++ config.name,
    "  Root: " ++ layout.root.text,
    "  Config: " ++ layout.config.text,
    "  DB path (relative): " ++ config.database.text,
    "  Annotations dir: " ++ layout.annotations.text,
    "  Reports dir: " ++ layout.reports.text]

/-- The line that tells whether a folder is there. -/
def folderLine (label : String) (p : Path) : Command m String := do
  let found ← Files.isFolder p
  return "- " ++ label ++ ": " ++ (if found then "OK" else "MISSING") ++ " (" ++ p.text ++ ")"

/-- The lines on the settings of a project. -/
def configLines (p : Project) : List String :=
  let c := p.config
  ["statewalk Project Info", "======================", "Name: " ++ c.name] ++
    (c.description.map fun s => "Description: " ++ s).toList ++
    ["Root: " ++ p.layout.root.text, "Config version: " ++ c.version,
      "DB path: " ++ p.databasePath.text,
      "Default update function: " ++ c.updateFunction.getD "(per architecture)",
      "Analysis: stop_at_entrypoints=" ++
        (if c.analysis.stopAtEntryPoints then "true" else "false") ++
        ", seed_width=" ++ Text.decimal c.analysis.seedWidth ++
        ", seed=" ++ c.analysis.seed.getD "0",
      ""]

/-- **Shows a project**: its settings, its folders and its binaries. -/
def projectInfo (root : Path) (json : Bool) : Command m Unit := do
  let p ← Project.openAt root
  let binaries ← within "Failed to list binaries" (p.ask Database.listBinaries)
  let runs ← within "Failed to list calculation runs" (p.ask fun d => d.listRuns none)
  if json then
    printJson (.object [("config", p.config.toJson),
      ("binaries", .array (binaries.map BinaryRecord.toJson)), ("run_count", .ofNat runs.length)])
  else
    let metaLine ← folderLine "Meta dir (.statewalk)" p.layout.metaFolder
    let annotationsLine ← folderLine "Annotations dir" p.layout.annotations
    let reportsLine ← folderLine "Reports dir" p.layout.reports
    printAll (configLines p ++
      ["Directories:", metaLine, annotationsLine, reportsLine, "",
        "Binaries: " ++ Text.decimal binaries.length] ++
      (binaries.map fun b => "- " ++ b.name ++ " (" ++ b.path ++ ")") ++
      ["Calculation runs: " ++ Text.decimal runs.length])

end FlowState.Command
