import FlowState.Files
import FlowState.Project.Config

/-! # Commands

A command prints lines, and it may fail. A failure is a list of messages: the first says what could
not be done, and each of the others why the one before it came about. What was printed before a
failure stays printed. -/

namespace FlowState

/-- Why a command fails, the outermost message first. -/
abbrev Failure := List String

/-! ### Failures of the parts -/

/-- The messages of an error of annotations. -/
def AnnotationError.messages (e : AnnotationError) : Failure :=
  match e with
  | .invalidFields _ | .io _ | .json | .yaml => [e.message, outsideCause]
  | .invalidKind _ | .unsupportedFormat _ | .storage _ => [e.message]

/-- The messages of an error of images. -/
def ImageError.messages (e : ImageError) : Failure :=
  match e with
  | .io _ => [e.message, outsideCause]
  | .unrecognized _ | .malformed _ _ | .backend _ => [e.message]

/-- The messages of an error of a session; an error of a part speaks for itself. -/
def SessionError.messages (e : SessionError) : Failure :=
  match e with
  | .load e => e.messages
  | .annotationFailed e => e.messages
  | e => [e.message]

/-- The messages of an error of a database. -/
def DatabaseError.messages (e : DatabaseError) : Failure :=
  match e with
  | .sql => [e.message, outsideCause]
  | .invalidRow _ inner => e.message :: inner.messages
  | .unsupportedVersion _ | .invalidRunStatus _ => [e.message]

/-! ### Commands -/

/-- An action on files that prints lines and may fail. -/
abbrev Command (m : Type → Type) := ExceptT Failure (StateT (List String) m)

/-- What a command leaves behind: the lines it has printed, and why it failed if it did. -/
structure Printed where
  lines : List String
  failure : Option Failure
  deriving Repr, DecidableEq

/-- The text of printed lines. -/
def Printed.text (p : Printed) : String := String.join (p.lines.map (· ++ "\n"))

namespace Command

variable {m : Type → Type} [Monad m]

/-- Prints a line. -/
def print (line : String) : Command m Unit := modify fun lines => lines ++ [line]

/-- Prints lines. -/
def printAll (lines : List String) : Command m Unit := modify fun before => before ++ lines

/-- Prints a value on lines of its own. -/
def printJson (j : Json) : Command m Unit := print j.pretty

/-- A command whose failures come with one more message in front. -/
def within {α : Type} (message : String) (c : Command m α) : Command m α :=
  tryCatch c fun f => throw (message :: f)

/-- The value of a result, whose error is told by messages. -/
def ofResult {ε α : Type} (messages : ε → Failure) : Except ε α → Command m α
  | .ok a => return a
  | .error e => throw (messages e)

/-- A step that the files may refuse. -/
def demand (message : String) (done : Bool) : Command m Unit :=
  if done then return () else throw [message, outsideCause]

/-- **Runs a command** from its start. -/
def run {α : Type} (c : Command m α) : m Printed := do
  let (result, lines) ← (ExceptT.run c).run []
  return ⟨lines, match result with
    | .ok _ => none
    | .error f => some f⟩

end Command

end FlowState
