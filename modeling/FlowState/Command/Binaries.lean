import FlowState.Digest
import FlowState.Project

/-! # The binaries of a project -/

namespace FlowState.Command

variable {m : Type → Type} [Monad m] [Files m]

/-- The digest of a file. -/
def digest (p : Path) : Command m String := do
  let folder ← Files.isFolder p
  if folder then throw ["Failed to read binary for hashing: " ++ p.text, outsideCause]
  match ← Files.read? p with
  | none => throw ["Failed to open binary for hashing: " ++ p.text, outsideCause]
  | some content => return Digest.sha256 content.toBytes

/-- The path that is stored for a file: seen from the root if the file is below it. -/
def storedPath (root file : Path) : Command m Path := do
  let file? ← Files.canonical? file
  let root? ← Files.canonical? root
  match file?, root? with
  | some f, some r => return ((f.under? r).map Path.ofParts).getD f
  | _, _ => return file

/-- The name of a binary that is not given one. -/
def binaryName (p : Path) : String := (p.fileName?.map String.ofList).getD p.text

/-- What a new binary is registered with. -/
structure NewBinary where
  path : Path
  name : Option String := none
  arch : Option String := none
  hash : Option String := none
  /-- No digest is computed when there is no hash. -/
  skipHash : Bool := false

/-- The hash that a new binary is registered with. -/
def hashOf (b : NewBinary) (file : Path) : Command m (Option String) :=
  match b.hash with
  | some h => return some h
  | none => if b.skipHash then return none else return some (← digest file)

/-- **Registers a binary.** -/
def addBinary (root : Path) (b : NewBinary) : Command m Unit := do
  let rootPath ← Project.root root
  let p ← Project.openAt root
  let file := if b.path.isAbsolute then b.path else rootPath.join b.path
  let found ← Files.isThere file
  if !found then throw ["Binary file does not exist: " ++ file.text]
  let stored ← storedPath rootPath file
  let name := b.name.getD (binaryName b.path)
  let known ← p.ask fun d => d.findBinary name
  if known.isSome then throw [s!"A binary named '{name}' is already registered"]
  let hash ← hashOf b file
  let record : BinaryRecord := ⟨name, stored.text, b.arch, hash⟩
  let (p, id) ← within "Failed to insert binary record" (p.change fun d => d.insertBinary record)
  printAll ["Added binary:",
    "  Id: " ++ Text.decimal id,
    "  Name: " ++ record.name,
    "  Path (relative): " ++ record.path,
    "  DB: " ++ p.databasePath.text]

/-- A binary on one line. -/
def binaryLine (b : BinaryRecord) : String :=
  "- " ++ b.name ++ " (path: " ++ b.path ++ ", arch: " ++ b.arch.getD "(unspecified)" ++
    ", hash: " ++ b.hash.getD "(none)" ++ ")"

/-- The lines of a list under a title; an empty list says so. -/
def listLines (title : String) (lines : List String) : List String :=
  title :: (if lines.isEmpty then ["(none)"] else lines)

/-- **Lists the binaries.** -/
def listBinaries (root : Path) (json : Bool) : Command m Unit := do
  let p ← Project.openAt root
  let binaries ← within "Failed to list binaries" (p.ask Database.listBinaries)
  if json then printJson (.array (binaries.map BinaryRecord.toJson))
  else printAll (listLines "Binaries:" (binaries.map binaryLine))

end FlowState.Command
