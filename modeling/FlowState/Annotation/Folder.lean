import FlowState.Annotation.File
import FlowState.Files

/-! # Annotation files among other files -/

namespace FlowState

namespace AnnotationFile

/-- The folder that a file is written to has been made, or there is nothing to make. -/
def makeFolder {m : Type → Type} [Monad m] [Files m] (p : Path) : m (Except AnnotationError Unit) :=
  match p.parent?.filter fun q => !q.text.isEmpty with
  | none => return .ok ()
  | some q => do
    let made ← Files.createFolders q
    return if made then .ok () else .error (.io q.text)

/-- **Saves annotations to a file**; the folders on the way to it are made. -/
def save {m : Type → Type} [Monad m] [Files m] (p : Path) (as : List Annotation) :
    m (Except AnnotationError Unit) := do
  match AnnotationFile.write p as with
  | .error e => return .error e
  | .ok text =>
    match ← makeFolder p with
    | .error e => return .error e
    | .ok _ =>
      let written ← Files.write p (.bytes (Text.toBytes text))
      return if written then .ok () else .error (.io p.text)

/-- **The annotations in a file.** -/
def load {m : Type → Type} [Monad m] [Files m] (p : Path) :
    m (Except AnnotationError (List Annotation)) := do
  let content ← Files.read? p
  return AnnotationFile.read p (content.map FileContent.toBytes)

end AnnotationFile

end FlowState
