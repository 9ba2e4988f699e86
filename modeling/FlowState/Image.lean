import FlowState.Annotation
import FlowState.Architecture
import FlowState.Memory
import FlowState.Path

/-! # Images

What a loader makes of a file: the architecture, the memory, the functions the file names, and for a
listing also its instructions. -/

namespace FlowState

/-- The name of a function of an image. -/
structure Symbol where
  name : String
  address : Address
  deriving Repr, DecidableEq

/-- A loaded file. -/
structure Image where
  path : Path
  architecture : Architecture
  entry : Option Address
  segments : List Segment
  symbols : List Symbol
  /-- The instructions that the file lists itself. -/
  listing : List Instruction
  deriving Repr

/-- What is wrong inside a file. -/
inductive ImageFault where
  /-- What a reader of the format has to say. -/
  | outside
  | segmentHex (address : Address)
  | instructionHex (address : Address)
  deriving Repr, DecidableEq

/-- The text of a fault. -/
def ImageFault.text : ImageFault → String
  | .outside => outsideCause
  | .segmentHex a => "segment at " ++ a.text ++ " has invalid hex"
  | .instructionHex a => "instruction at " ++ a.text ++ " has invalid hex"

/-- Why a file cannot be loaded or decoded. -/
inductive ImageError where
  | io (path : String)
  | unrecognized (path : String)
  | malformed (path : String) (fault : ImageFault)
  | backend (reason : String)
  deriving Repr, DecidableEq

/-- The message of an error. -/
def ImageError.message : ImageError → String
  | .io path => s!"Failed to read image {path}: {outsideCause}"
  | .unrecognized path => s!"Unrecognized image format: {path}"
  | .malformed path fault => "Malformed image " ++ path ++ ": " ++ fault.text
  | .backend reason => s!"Decoder initialisation failed: {reason}"

/-- What a decoder makes of an image. -/
structure Decoded where
  instructions : List Instruction
  /-- Why the decoder stopped before the end. -/
  fault : Option String
  /-- The number of bytes that are no instruction. -/
  skipped : Nat
  deriving Repr, DecidableEq

/-- The executable segments of an image. -/
def Image.code (i : Image) : List Segment := i.segments.filter (·.executable)

end FlowState
