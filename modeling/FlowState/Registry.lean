import FlowState.Listing
import FlowState.Machine.Sweep
import FlowState.Object
import FlowState.State.Update

/-! # The registry

The loaders, decoders and update functions that a session works with. The first loader that accepts
a file loads it, and the first decoder for an architecture decodes it. An architecture is supported
if it has a decoder and an update function of its own. -/

namespace FlowState

/-- The version of the library. -/
def version : String := "0.1.0"

/-- Makes an image of a file. -/
structure Loader where
  name : String
  accepts : Path → List UInt8 → Bool
  load : Path → List UInt8 → Except ImageError Image

/-- Makes instructions of an image, at most as many as the budget allows. -/
structure Decoder where
  name : String
  supports : Architecture → Bool
  decode : Image → Option Nat → Except ImageError Decoded

/-- Loaders, decoders and update functions. -/
structure Registry where
  loaders : List Loader
  decoders : List Decoder
  updates : UpdateRegistry

/-- Loads listings. -/
def Loader.listing : Loader := ⟨"listing", Listing.accepts, Listing.load⟩

/-- Loads object files. -/
def Loader.object : Loader := ⟨"goblin", Object.accepts, Object.load⟩

/-- Decodes listings. -/
def Decoder.listing : Decoder where
  name := "listing"
  supports a := a == .listing
  decode i budget := .ok (Listing.decode i budget)

/-- Decodes machine code. -/
def Decoder.machine : Decoder where
  name := "capstone"
  supports a := (Machine.instructionSet? a).isSome
  decode := Machine.decode

namespace Registry

/-- The registry with nothing in it. -/
def empty : Registry := ⟨[], [], .empty⟩

/-- The registry with everything there is. -/
def builtin : Registry := ⟨[.object, .listing], [.machine, .listing], .builtin⟩

/-- The first decoder for an architecture. -/
def decoder? (r : Registry) (a : Architecture) : Option Decoder :=
  r.decoders.find? fun d => d.supports a

/-- The architecture has a decoder and an update function. -/
def supports (r : Registry) (a : Architecture) : Bool :=
  (r.decoder? a).isSome && (r.updates.default? a.name).isSome

/-- **The image of a file** with the content, if it can be read. -/
def load (r : Registry) (p : Path) (content : Option (List UInt8)) : Except ImageError Image :=
  match content with
  | none => .error (.io p.text)
  | some bytes =>
    match r.loaders.find? fun l => l.accepts p bytes with
    | some l => l.load p bytes
    | none => .error (.unrecognized p.text)

/-- The names of the loaders and decoders in order. -/
def names (r : Registry) : List String :=
  ((r.loaders.map fun l => "loader:" ++ l.name) ++
    r.decoders.map fun d => "decoder:" ++ d.name).mergeSort fun a b => !decide (b < a)

end Registry

end FlowState
