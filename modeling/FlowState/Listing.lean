import FlowState.Annotation.File
import FlowState.Image
import FlowState.Text.Hex

/-! # Listings

A file that lists its instructions, as a JSON or a YAML text: an entry, symbols, segments of data
and the instructions, the bytes of which are hexadecimal text. Only the instructions have to be
there. Decoding hands them out in order and stops at the first one without bytes. -/

namespace FlowState

namespace Listing

/-- A segment as it is written. -/
structure SegmentText where
  name : String
  address : Address
  bytes : String

/-- An instruction as it is written. -/
structure InstructionText where
  address : Address
  bytes : String
  kind : InstructionKind
  targets : List Address
  text : Option String

/-- A listing as it is written. -/
structure Source where
  entry : Option Address
  symbols : List Symbol
  segments : List SegmentText
  instructions : List InstructionText

/-! ### Reading a document -/

/-- The symbol that a document is. -/
def symbol? (d : Document) : Option Symbol :=
  match d.fields? ["name", "address"] with
  | some [n, a] => do
    let name ← Document.required? Document.text? n
    let address ← Document.required? Document.word? a
    return ⟨name, address⟩
  | _ => none

/-- The segment that a document is. -/
def segment? (d : Document) : Option SegmentText :=
  match d.fields? ["name", "address", "bytes"] with
  | some [n, a, b] => do
    let name ← Document.withDefault? "" Document.text? n
    let address ← Document.required? Document.word? a
    let bytes ← Document.required? Document.text? b
    return ⟨name, address, bytes⟩
  | _ => none

/-- The kind of instruction that a document names. -/
def kind? (d : Document) : Option InstructionKind := d.text?.map InstructionKind.ofDotted

/-- The instruction that a document is. -/
def instruction? (d : Document) : Option InstructionText :=
  match d.fields? ["address", "bytes", "type", "targets", "text"] with
  | some [a, b, k, ts, t] => do
    let address ← Document.required? Document.word? a
    let bytes ← Document.required? Document.text? b
    let kind ← Document.withDefault? .unknown kind? k
    let targets ← Document.withDefault? [] (Document.listOf? Document.word?) ts
    let text ← Document.withDefault? none (Document.optional? Document.text?) t
    return ⟨address, bytes, kind, targets, text⟩
  | _ => none

/-- The listing that a document is. -/
def source? (d : Document) : Option Source :=
  match d.fields? ["entry", "symbols", "segments", "instructions"] with
  | some [e, ss, gs, is] => do
    let entry ← Document.withDefault? none (Document.optional? Document.word?) e
    let symbols ← Document.withDefault? [] (Document.listOf? symbol?) ss
    let segments ← Document.withDefault? [] (Document.listOf? segment?) gs
    let instructions ← Document.required? (Document.listOf? instruction?) is
    return ⟨entry, symbols, segments, instructions⟩
  | _ => none

/-- The document in a file: JSON if its extension says so, else YAML. -/
def document? (p : Path) (bytes : List UInt8) : Option Document :=
  if p.hasExtension FileFormat.jsonWords then Json.read? (Text.glyphs bytes)
  else (Text.charsOfGlyphs? (Text.glyphs bytes)).bind Yaml.read?

/-! ### Loading and decoding -/

/-- The segment of a written one; its bytes are data. -/
def SegmentText.segment (s : SegmentText) : Except ImageFault Segment :=
  match Text.bytesOfHex? s.bytes with
  | some bytes => .ok ⟨s.name, s.address, bytes, false⟩
  | none => .error (.segmentHex s.address)

/-- The instruction of a written one. -/
def InstructionText.instruction (i : InstructionText) : Except ImageFault Instruction :=
  match Text.bytesOfHex? i.bytes with
  | some bytes => .ok ⟨i.address, bytes, i.kind, i.targets, i.text⟩
  | none => .error (.instructionHex i.address)

/-- The image of a written listing. -/
def Source.image (p : Path) (s : Source) : Except ImageFault Image := do
  let segments ← s.segments.mapM SegmentText.segment
  let instructions ← s.instructions.mapM InstructionText.instruction
  return ⟨p, .listing, s.entry, segments, s.symbols, instructions⟩

/-- **The image of a listing file.** -/
def load (p : Path) (bytes : List UInt8) : Except ImageError Image :=
  match (document? p bytes).bind source? with
  | none => .error (.malformed p.text .outside)
  | some s => (s.image p).mapError fun fault => .malformed p.text fault

/-- A listing is known by the extension of its path. -/
def accepts (p : Path) (_bytes : List UInt8) : Bool := (FileFormat.ofPath? p).isSome

/-- **The instructions of a listing** up to the first one without bytes, at most so many. -/
def decode (i : Image) (budget : Option Nat) : Decoded :=
  let chosen := match budget with
    | some n => i.listing.take n
    | none => i.listing
  let hasBytes (x : Instruction) : Bool := !x.bytes.isEmpty
  { instructions := chosen.takeWhile hasBytes
    fault := (chosen.find? fun x => !hasBytes x).map fun x => "empty encoding at " ++ x.address.text
    skipped := 0 }

end Listing

end FlowState
