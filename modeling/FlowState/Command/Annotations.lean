import FlowState.Annotation.Folder
import FlowState.Command.Binaries
import FlowState.Command.Setup

/-! # The annotations of a binary -/

namespace FlowState.Command

variable {m : Type → Type} [Monad m] [Files m]

/-- Opens a binary with the usual settings. -/
def openBinary (r : Registry) (root : Path) (binary : String) : Command m (Project × Session) := do
  let p ← Project.openAt root
  p.openBinary r binary {}

/-- The outcome of an annotation with the fields of a text, or else with new ones. -/
def annotated (s : Session) (kind : String) (a : Address) (fields : Option String) :
    Command m (Outcome Handle) :=
  match fields with
  | none => return s.annotateNew kind a
  | some text =>
    match Json.ofText? text with
    | none => throw ["Failed to parse --fields as JSON", outsideCause]
    | some j => return s.annotateWith kind a j

/-- **Adds an annotation.** -/
def annotate (r : Registry) (root : Path) (binary kind address : String)
    (fields : Option String) : Command m Unit := do
  let (p, s) ← openBinary r root binary
  let a ← ofResult SettingError.messages (Address.read address)
  let o ← annotated s kind a fields
  let handle ← ofResult SessionError.messages o.result
  let _ ← p.saveAnnotations binary o.session.annotations.annotations
  match o.session.annotations.get? handle with
  | none => return ()
  | some n => print ("Added " ++ n.kind.name ++ " at " ++ n.address.text ++ ": " ++ n.describe)

/-- **Removes the annotation** at a place of the list. -/
def removeAnnotationAt (r : Registry) (root : Path) (binary : String) (index : UInt64) :
    Command m Unit := do
  let (p, s) ← openBinary r root binary
  match s.annotations.handleAt? index.toNat with
  | none =>
    throw ["No annotation at index " ++ Text.decimal index.toNat ++ " (binary has " ++
      Text.decimal s.annotations.annotations.length ++ ")"]
  | some handle =>
    let o := s.unannotate handle
    match ← ofResult SessionError.messages o.result with
    | none => throw ["Annotation at index " ++ Text.decimal index.toNat ++ " disappeared"]
    | some removed =>
      let _ ← p.saveAnnotations binary o.session.annotations.annotations
      print ("Removed " ++ removed.kind.name ++ " at " ++ removed.address.text)

/-- The value of an annotation in a list. -/
def annotationJson (index : Nat) (a : Annotation) : Json :=
  .object (("index", .ofNat index) :: (AnnotationRecord.ofNote a).members ++
    [("description", .text a.describe)])

/-- A text with blanks behind it up to a width. -/
def padRight (width : Nat) (s : String) : String :=
  s ++ String.ofList (List.replicate (width - s.length) ' ')

/-- An annotation in a list on one line. -/
def annotationLine (index : Nat) (a : Annotation) : String :=
  "[" ++ Text.decimal index ++ "] " ++ a.address.text ++ " " ++ padRight 10 a.kind.name ++ " " ++
    a.describe

/-- **Lists the annotations**, with the entry points that the image brings along. -/
def listAnnotations (r : Registry) (root : Path) (binary : String) (json : Bool) :
    Command m Unit := do
  let (_, s) ← openBinary r root binary
  let as := s.annotations.annotations
  if json then printJson (.array (as.mapIdx annotationJson))
  else printAll (listLines s!"Annotations for {binary}:" (as.mapIdx annotationLine))

/-- **Replaces the stored annotations** of a binary by those of a file. -/
def importAnnotations (root : Path) (binary : String) (file : Path) : Command m Unit := do
  let p ← Project.openAt root
  let _ ← p.binary binary
  let as ← within ("Failed to import annotations from " ++ file.text) do
    ofResult AnnotationError.messages (← AnnotationFile.load file)
  let _ ← p.saveAnnotations binary as
  print ("Imported " ++ Text.decimal as.length ++ " annotations for " ++ binary ++ " from " ++
    file.text)

/-- The file that annotations are exported to. -/
def exportPath (p : Project) (binary : String) (out : Option Path) (format : String) :
    Command m Path :=
  match out with
  | some path => return path
  | none => do
    makeFolder "annotations dir" p.layout.annotations
    return p.layout.exportFile binary format

/-- **Writes the annotations** of a binary to a file. -/
def exportAnnotations (r : Registry) (root : Path) (binary : String) (out : Option Path)
    (format : String) : Command m Unit := do
  let (p, s) ← openBinary r root binary
  let path ← exportPath p binary out format
  let as := s.annotations.annotations
  within ("Failed to export annotations to " ++ path.text) do
    ofResult AnnotationError.messages (← AnnotationFile.save path as)
  print ("Exported " ++ Text.decimal as.length ++ " annotations to " ++ path.text)

end FlowState.Command
