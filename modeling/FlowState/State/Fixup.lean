import FlowState.Json
import FlowState.State.Error
import FlowState.State.Value

/-! # Fixups

A fixup records that two sources disagree on the state at an address: two paths that meet there, or
a path and the constant that a load reference points to. -/

namespace FlowState

/-- The cause of a fixup. -/
inductive FixupKind where
  /-- Two paths arrive with different states. -/
  | mergeConflict
  /-- A referenced constant differs from the state. -/
  | referenceMismatch
  /-- A referenced constant cannot be read. -/
  | missingReference
  /-- A referenced constant replaces the state. -/
  | injection
  deriving Repr, DecidableEq

/-- What is to be done about a fixup. -/
inductive Resolution where
  | acceptComputed
  | acceptExpected
  | unresolved
  deriving Repr, DecidableEq

/-- A disagreement on the state at an address. -/
structure Fixup where
  address : Address
  kind : FixupKind
  /-- The value that came first, or the constant; nothing if the constant cannot be read. -/
  expected : Option StateValue
  computed : StateValue
  resolution : Resolution
  deriving Repr, DecidableEq

namespace FixupKind

/-- The name of a cause. -/
def name : FixupKind → String
  | .mergeConflict => "merge_conflict"
  | .referenceMismatch => "reference_mismatch"
  | .missingReference => "missing_reference"
  | .injection => "injection"

/-- The cause of a name. -/
def ofName? (s : String) : Option FixupKind :=
  [mergeConflict, referenceMismatch, missingReference, injection].find? fun k => k.name == s

theorem ofName?_name (k : FixupKind) : ofName? k.name = some k := by cases k <;> decide

end FixupKind

namespace Resolution

/-- The name of a resolution. -/
def name : Resolution → String
  | .acceptComputed => "accept_computed"
  | .acceptExpected => "accept_expected"
  | .unresolved => "unresolved"

/-- The resolution of a name. -/
def ofName? (s : String) : Option Resolution :=
  [acceptComputed, acceptExpected, unresolved].find? fun r => r.name == s

theorem ofName?_name (r : Resolution) : ofName? r.name = some r := by cases r <;> decide

end Resolution

/-- The fixup with another resolution. -/
def Fixup.resolve (f : Fixup) (r : Resolution) : Fixup := { f with resolution := r }

/-- A fixup as it is stored, with names and texts for its parts. -/
structure FixupRecord where
  address : Address
  kind : String
  expected : Option String
  computed : String
  resolution : String
  deriving Repr, DecidableEq

namespace FixupRecord

/-- The record of a fixup. -/
def ofFixup (f : Fixup) : FixupRecord :=
  ⟨f.address, f.kind.name, f.expected.map StateValue.text, f.computed.text, f.resolution.name⟩

/-- **The fixup that a record stands for**, if all its parts can be read. -/
def fixup? (r : FixupRecord) : Option Fixup := do
  let kind ← FixupKind.ofName? r.kind
  let expected ← match r.expected with
    | none => some none
    | some s => (StateValue.parse? s).map some
  let computed ← StateValue.parse? r.computed
  let resolution ← Resolution.ofName? r.resolution
  return ⟨r.address, kind, expected, computed, resolution⟩

/-- The value that a record is written as. -/
def toJson (r : FixupRecord) : Json :=
  .object [("address", .word r.address), ("kind", .text r.kind),
    ("expected", .ofOption .text r.expected), ("computed", .text r.computed),
    ("resolution", .text r.resolution)]

end FixupRecord

end FlowState
