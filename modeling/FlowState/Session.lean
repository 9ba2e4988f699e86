import FlowState.Annotation.File
import FlowState.Registry
import FlowState.State.Calculator

/-! # Sessions

One loaded image with its annotations, its graph, its functions and the states of the last pass that
succeeded. Every change of the annotations rebuilds what depends on them. Operations give the
session they leave behind, the events they send out and their result; one that fails leaves the
session as it was, but for a decoder that stops early, whose instructions are kept. -/

namespace FlowState

/-- How a session works. -/
structure SessionConfig where
  /-- The update function; that of the architecture if there is none. -/
  updateFunction : Option String := none
  /-- States are not propagated into other entry points. -/
  stopAtEntryPoints : Bool := false
  /-- Functions end where other entry points begin. -/
  reconstructStop : Bool := true
  /-- The state at the seeds; zero of the seed width if there is none. -/
  seed : Option StateValue := none
  seedWidth : Nat := 4
  /-- Where states start; at the entry or else at all entry points if there are none. -/
  seedAddresses : List Address := []
  maxInstructions : Option Nat := none
  deriving Repr, DecidableEq

/-- What a session tells its listeners. -/
inductive ChangeEvent where
  | annotations
  | states
  deriving Repr, DecidableEq

/-- The name of an event. -/
def ChangeEvent.name : ChangeEvent → String
  | .annotations => "annotations"
  | .states => "states"

/-- Why an operation of a session fails. -/
inductive SessionError where
  | nothingLoaded
  | unsupportedArchitecture (name : String)
  | decodeAborted (fault : String) (decoded : Nat)
  | preparationFailed (reason : String)
  | invalidAnnotationKind (text : String)
  | missingReference (address : Address)
  | nothingDisassembled
  | load (e : ImageError)
  | annotationFailed (e : AnnotationError)
  | state (e : StateError)
  deriving Repr, DecidableEq

namespace SessionError

/-- The message of an error. -/
def message : SessionError → String
  | .nothingLoaded => "No image is loaded"
  | .unsupportedArchitecture name =>
    s!"No decoder/update function registered for architecture '{name}'"
  | .decodeAborted fault decoded =>
    s!"Decoding aborted after {Text.decimal decoded} instructions: {fault}"
  | .preparationFailed reason => s!"State preparation failed: {reason}"
  | .invalidAnnotationKind text => (AnnotationError.invalidKind text).message
  | .missingReference a => "Load reference at " ++ a.text ++ " is missing its data operand address"
  | .nothingDisassembled => "Nothing has been disassembled yet"
  | .load e => e.message
  | .annotationFailed e => e.message
  | .state e => e.message

/-- The error of a session for an error of annotations. -/
def ofAnnotationError : AnnotationError → SessionError
  | .invalidKind text => .invalidAnnotationKind text
  | e => .annotationFailed e

/-- The error of a session for an error of states. -/
def ofState : StateError → SessionError
  | .missingReference a => .missingReference a
  | e => .state e

end SessionError

/-- An image and all that is derived from it. -/
structure Session where
  config : SessionConfig
  image : Option Image := none
  annotations : AnnotationStore := .empty
  /-- The instructions of the last decoding. -/
  decoded : List Instruction := []
  graph : BlockGraph := .empty
  boundaries : Boundaries := .empty
  /-- The calculator of the last pass that succeeded. -/
  states : Option Calculator := none
  fixups : List Fixup := []
  /-- The number of bytes that the last decoding passed over. -/
  skipped : Nat := 0

/-- What an operation leaves behind. -/
structure Outcome (α : Type) where
  session : Session
  events : List ChangeEvent
  result : Except SessionError α

namespace Session

/-- A session without an image. -/
def new (config : SessionConfig) : Session := { config := config }

/-- An operation that fails and changes nothing. -/
def failed {α : Type} (s : Session) (e : SessionError) : Outcome α := ⟨s, [], .error e⟩

/-! ### Loading -/

/-- Adds an entry point unless there is one at its address. -/
def addEntryPoint (store : AnnotationStore) (e : EntryPoint) : AnnotationStore :=
  if store.hasEntryPointAt e.address then store
  else (store.insert ⟨e.address, .entryPoint e.name⟩).1

/-- The entry points that an image brings along: its symbols and then its entry. -/
def imageEntryPoints (i : Image) : List EntryPoint :=
  (i.symbols.map fun s => ⟨s.address, s.name⟩) ++ (i.entry.map fun a => ⟨a, "entry"⟩).toList

/-- The annotations of a session with those of an image behind them. -/
def mergeImage (store : AnnotationStore) (i : Image) : AnnotationStore :=
  ((imageEntryPoints i).foldl addEntryPoint (.ofAnnotations store.annotations)).reindex

/-- **Loads a file** with the content. The annotations stay, and what was derived is dropped. -/
def load (r : Registry) (p : Path) (content : Option (List UInt8)) (s : Session) : Outcome Unit :=
  match r.load p content with
  | .error e => s.failed (.load e)
  | .ok i =>
    ⟨{ new s.config with image := some i, annotations := mergeImage s.annotations i },
      [.annotations, .states], .ok ()⟩

/-! ### Decoding -/

/-- Where states start. -/
def seedAddresses (s : Session) : List Address :=
  if s.config.seedAddresses.isEmpty then
    match s.image.bind (·.entry) with
    | some a => [a]
    | none => s.annotations.entryPoints.map (·.address)
  else s.config.seedAddresses

/-- The graph and the functions from the decoded instructions and the annotations. -/
def rebuild (s : Session) : Session :=
  let store := if s.annotations.dirty then s.annotations.reindex else s.annotations
  let s := { s with annotations := store }
  let eps := store.entryPoints
  let graph := BlockGraph.build s.decoded store.overrides (eps.map (·.address) ++ s.seedAddresses)
  { s with graph := graph, boundaries := .reconstruct graph eps s.config.reconstructStop }

/-- The image, if it is there and its architecture is supported. -/
def supportedImage (r : Registry) (s : Session) : Except SessionError Image :=
  match s.image with
  | none => .error .nothingLoaded
  | some i =>
    if r.supports i.architecture then .ok i
    else .error (.unsupportedArchitecture i.architecture.name)

/-- What the decoder of an image makes of it. -/
def decodeImage (r : Registry) (s : Session) : Except SessionError Decoded := do
  let i ← s.supportedImage r
  match r.decoder? i.architecture with
  | none => .error (.unsupportedArchitecture i.architecture.name)
  | some d => (d.decode i s.config.maxInstructions).mapError .load

/-- **Decodes the image.** A decoder that stops early is an error, but what it has decoded is kept.
-/
def disassemble (r : Registry) (s : Session) : Outcome Unit :=
  match s.decodeImage r with
  | .error e => s.failed e
  | .ok d =>
    let s := rebuild { s with decoded := d.instructions, skipped := d.skipped }
    match d.fault with
    | some fault => ⟨s, [], .error (.decodeAborted fault d.instructions.length)⟩
    | none => ⟨s, [], .ok ()⟩

/-! ### States -/

/-- The name of the update function. -/
def updateFunctionName (r : Registry) (s : Session) (i : Image) : Except SessionError String :=
  match s.config.updateFunction with
  | some name => .ok name
  | none =>
    match r.updates.default? i.architecture.name with
    | some name => .ok name
    | none => .error (.unsupportedArchitecture i.architecture.name)

/-- A new calculator with the seeds of a session. -/
def seeded (s : Session) (u : Updater) : Calculator :=
  let value := s.config.seed.getD (StateValue.zero s.config.seedWidth)
  s.seedAddresses.foldl (fun c a => c.seed a value)
    (Calculator.ofUpdater u s.config.stopAtEntryPoints)

/-- The calculator with its seeds, prepared. -/
def calculator (r : Registry) (s : Session) (i : Image) : Except SessionError Calculator := do
  let name ← s.updateFunctionName r i
  let u ← (r.updates.create name).mapError .ofState
  let (c, prepared) := (s.seeded u).prepare
  prepared.mapError fun e => .preparationFailed e.message
  return c

/-- A pass over the graph: the calculator with the new tables, and the fixups. -/
def pass (r : Registry) (cancelled : Nat → Bool) (s : Session) :
    Except SessionError (Calculator × List Fixup) := do
  let i ← s.supportedImage r
  if s.graph.blocks.isEmpty then .error .nothingDisassembled
  else
    let c ← s.calculator r i
    let eps := s.annotations.entryPoints.map (·.address)
    let input : CalculatorInput := ⟨s.graph, s.annotations, i.segments, eps⟩
    let (c, result) := c.calculate input cancelled
    let fixups ← result.mapError .ofState
    return (c.cleanup, fixups)

/-- **Calculates the states.** A pass that fails leaves the states of the last one. -/
def calculate (r : Registry) (cancelled : Nat → Bool) (s : Session) : Outcome (List Fixup) :=
  match s.pass r cancelled with
  | .error e => s.failed e
  | .ok (c, fixups) => ⟨{ s with states := some c, fixups := fixups }, [.states], .ok fixups⟩

/-! ### Annotations -/

/-- The session with other annotations; what depends on them is rebuilt. -/
def withAnnotations (s : Session) (store : AnnotationStore) : Session :=
  let s := { s with annotations := store.reindex }
  if s.decoded.isEmpty then s else s.rebuild

/-- The outcome of a change of the annotations. -/
def changed {α : Type} (s : Session) (store : AnnotationStore) (a : α) : Outcome α :=
  ⟨s.withAnnotations store, [.annotations], .ok a⟩

/-- The outcome of an addition to the annotations, by the store that it leaves behind. -/
def added (s : Session) (r : AnnotationStore × Except AnnotationError Handle) : Outcome Handle :=
  match r with
  | (store, .error e) => failed { s with annotations := store } (.ofAnnotationError e)
  | (store, .ok handle) => s.changed store handle

/-- Adds a new annotation of a kind. -/
def annotateNew (s : Session) (kind : String) (a : Address) : Outcome Handle :=
  s.added (s.annotations.create kind a)

/-- Adds an annotation with fields. -/
def annotateWith (s : Session) (kind : String) (a : Address) (fields : Json) : Outcome Handle :=
  s.added (s.annotations.add kind a fields)

/-- Adds an annotation. -/
def annotate (s : Session) (a : Annotation) : Outcome Handle :=
  s.added (s.annotations.insertMade (.ok a))

/-- Removes the annotation of a handle; without one nothing happens. -/
def unannotate (s : Session) (handle : Handle) : Outcome (Option Annotation) :=
  match s.annotations.remove handle with
  | (store, none) => ⟨{ s with annotations := store }, [], .ok none⟩
  | (store, some a) => s.changed store (some a)

/-- Changes the annotations at will. -/
def editAnnotations {α : Type} (s : Session) (edit : AnnotationStore → AnnotationStore × α) :
    Outcome α :=
  let (store, a) := edit s.annotations
  s.changed store a

/-- Replaces the annotations by those of a source. -/
def loadAnnotations (s : Session) (source : Except AnnotationError (List Annotation)) :
    Outcome Nat :=
  match source with
  | .error e => s.failed (.ofAnnotationError e)
  | .ok as => s.changed (.ofAnnotations as) as.length

/-! ### Queries -/

/-- The name of the update function of the last pass. -/
def updateFunction? (s : Session) : Option String := s.states.map fun c => c.updater.function.name

/-- The first address of the function at an address; that of its entry points if it has no blocks.
-/
def functionStart? (s : Session) (a : Address) : Option Address := do
  let f ← s.boundaries.functionAt? a
  (f.start? s.graph).orElse fun _ => Address.least? (f.entryPoints.map (·.address))

/-- The last address of the function at an address; that of its entry points if it has no blocks. -/
def functionStop? (s : Session) (a : Address) : Option Address := do
  let f ← s.boundaries.functionAt? a
  (f.stop? s.graph).orElse fun _ => Address.greatest? (f.entryPoints.map (·.address))

/-- The state before an address. -/
def preState? (s : Session) (a : Address) : Option StateValue :=
  s.states.bind fun c => c.pre.get? a

/-- The state behind an address. -/
def postState? (s : Session) (a : Address) : Option StateValue :=
  s.states.bind fun c => c.post.get? a

/-- Stands for a state that is not known. -/
def noState : String := String.ofList (List.replicate 11 ' ')

/-- The states before and behind an address on one line. -/
def statesLine (s : Session) (a : Address) : String :=
  let side (v : Option StateValue) : String := (v.map StateValue.text).getD noState
  side (s.preState? a) ++ " -> " ++ side (s.postState? a)

/-- A function on one line: its name, its extent and its entry points. -/
def functionLine (s : Session) (f : Function) : String :=
  let side (a : Option Address) : String := (a.map Address.text).getD "?"
  f.name ++ " [" ++ side (f.start? s.graph) ++ " - " ++ side (f.stop? s.graph) ++ "] entries: " ++
    ", ".intercalate (f.entryPoints.map fun e => e.address.text)

/-- All functions, one on each line. -/
def functionLines (s : Session) : List String := s.boundaries.functions.map s.functionLine

end Session

end FlowState
