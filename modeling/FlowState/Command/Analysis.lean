import FlowState.Command.Binaries
import FlowState.Command.Setup

/-! # Functions, states and runs -/

namespace FlowState.Command

variable {m : Type → Type} [Monad m] [Files m]

/-- The value that a function is reported as. -/
def functionJson (g : BlockGraph) (f : Function) : Json :=
  let side (a : Option Address) : Json := .ofOption (fun a => .text a.text) (a : Option Address)
  .object [("name", .text f.name), ("start", side (f.start? g)), ("end", side (f.stop? g)),
    ("entry_points", .array (f.entryPoints.map fun e => .text e.address.text)),
    ("blocks", .ofNat f.blocks.length)]

/-- The values of all functions of a session. -/
def functionsJson (s : Session) : Json :=
  .array (s.boundaries.functions.map (functionJson s.graph))

/-- Decodes the image of a session: the fault of a decoder that stops early is no failure. -/
def disassemble (r : Registry) (s : Session) : Command m (Session × Option String) :=
  let o := s.disassemble r
  match o.result with
  | .ok _ => return (o.session, none)
  | .error (.decodeAborted fault _) => return (o.session, some fault)
  | .error e => throw ("Disassembly failed" :: e.messages)

/-- **Lists the functions** of a binary. -/
def functions (r : Registry) (root : Path) (binary : String) (bounded json : Bool) :
    Command m Unit := do
  let p ← Project.openAt root
  let config ← ofResult SettingError.messages (p.config.session {})
  let (_, s) ← p.openBinary r binary { config with reconstructStop := bounded }
  let (s, fault) ← disassemble r s
  if json then printJson (functionsJson s)
  else
    printAll ((fault.map fun f => "Decode stopped early: " ++ f).toList ++
      ["Functions in " ++ binary ++ ": " ++ Text.decimal s.boundaries.functions.length] ++
      s.functionLines.map ("- " ++ ·) ++
      (if s.graph.unresolved.isEmpty then []
        else ["Unresolved targets: " ++ Text.decimal s.graph.unresolved.length]))

/-- Records a run and its fixups: the run with its number. -/
def recordRun (p : Project) (r : RunRecord) (fixups : List FixupRecord) :
    Command m (Project × RunRecord × Nat) := do
  let (p, id) ← within "Failed to record calculation run" (p.change fun d => d.insertRun r)
  let (p, _) ← within "Failed to record fixups"
    (p.change fun d => (d.insertFixups id fixups).map fun d => (d, ()))
  return (p, { r with id := some id }, id)

/-- The value of a report on a run. -/
def reportJson (r : RunRecord) (fault : Option String) (s : Session) (fixups : List FixupRecord) :
    Json :=
  .object [("run", r.toJson), ("decode_fault", .ofOption .text fault),
    ("functions", functionsJson s), ("fixups", .array (fixups.map FixupRecord.toJson))]

/-- A fixup on one line. -/
def fixupLine (f : FixupRecord) : String :=
  "- " ++ f.address.text ++ " " ++ f.kind ++ ": expected " ++ f.expected.getD "(none)" ++
    ", computed " ++ f.computed ++ " [" ++ f.resolution ++ "]"

/-- The lines on a run. -/
def reportLines (id : Nat) (r : RunRecord) (fixups : List FixupRecord) (file : Path) :
    List String :=
  ["Run " ++ Text.decimal id ++ ": " ++ r.status.name ++ " with '" ++ r.updateFunction ++ "' (" ++
      Text.decimal r.fixupCount.toNat ++ " fixups)"] ++
    fixups.map fixupLine ++ ["Report: " ++ file.text]

/-- **Calculates the states** of a binary, records the run and writes a report. A pass that fails is
recorded too. -/
def calculate (r : Registry) (root : Path) (binary : String) (o : Overrides) (json : Bool) :
    Command m Unit := do
  let p ← Project.openAt root
  let config ← ofResult SettingError.messages (p.config.session o)
  let (p, s) ← p.openBinary r binary config
  let startedAt ← Files.now
  let (s, fault) ← disassemble r s
  let outcome := s.calculate r fun _ => false
  let s := outcome.session
  let finishedAt ← Files.now
  let update := (s.updateFunction?.or s.config.updateFunction).getD "(architecture default)"
  let failed : RunRecord := ⟨none, binary, update, .failed, startedAt, finishedAt, 0⟩
  match outcome.result with
  | .error e =>
    let _ ← recordRun p failed []
    throw (s!"State calculation for {binary} failed" :: e.messages)
  | .ok found =>
    let fixups := found.map FixupRecord.ofFixup
    let status := if fault.isSome then RunStatus.partialResult else .succeeded
    let (p, run, id) ← recordRun p
      { failed with status := status, fixupCount := UInt64.ofNat fixups.length } fixups
    let report := reportJson run fault s fixups
    let file := p.layout.report binary id
    makeFolder "reports dir" p.layout.reports
    let written ← Files.write file (.bytes (Text.toBytes report.pretty))
    demand ("Failed to write report " ++ file.text) written
    if json then printJson report else printAll (reportLines id run fixups file)

/-- The states at an address on one line. -/
def statesAt (s : Session) (text : String) : Command m Unit := do
  let a ← ofResult SettingError.messages (Address.read text)
  print (a.text ++ ": " ++ s.statesLine a)

/-- **Shows the states** at addresses after a new calculation. -/
def states (r : Registry) (root : Path) (binary : String) (addresses : List String)
    (o : Overrides) : Command m Unit := do
  let p ← Project.openAt root
  let config ← ofResult SettingError.messages (p.config.session o)
  let (_, s) ← p.openBinary r binary config
  let (s, _) ← disassemble r s
  let outcome := s.calculate r fun _ => false
  let _ ← within s!"State calculation for {binary} failed"
    (ofResult SessionError.messages outcome.result)
  addresses.forM (statesAt outcome.session)

/-- A run on one line. -/
def runLine (r : RunRecord) : String :=
  "- #" ++ Text.decimal (r.id.getD 0) ++ " " ++ r.binary ++ " [" ++ r.status.name ++ "] update=" ++
    r.updateFunction ++ " fixups=" ++ Text.decimal r.fixupCount.toNat ++ " started=" ++
    r.startedAt ++ " finished=" ++ r.finishedAt

/-- **Lists the runs** of a binary, or all runs. -/
def listRuns (root : Path) (binary : Option String) (json : Bool) : Command m Unit := do
  let p ← Project.openAt root
  let runs ← within "Failed to list calculation runs" (p.ask fun d => d.listRuns binary)
  if json then printJson (.array (runs.map RunRecord.toJson))
  else printAll (listLines "Calculation runs:" (runs.map runLine))

end FlowState.Command
