import FlowState.Boundaries
import FlowState.Json

/-! # Annotations

What an analyst notes at an address: a comment, an entry point, another kind for the instruction, or
a reference to a constant that the state is compared with. A payload is kept as fields, a free-form
value that is read with a default for everything that is missing. -/

namespace FlowState

/-- The kind of an annotation. -/
inductive AnnotationKind where
  | comment
  | entryPoint
  | instructionType
  | loadReference
  deriving Repr, DecidableEq

/-- How a referenced constant relates to the state. -/
inductive UpdateType where
  /-- The constant is the state behind the anchor. -/
  | constantLoad
  /-- The constant is the state before the anchor. -/
  | signatureLoad
  /-- The constant replaces the state behind the anchor. -/
  | constInjection
  deriving Repr, DecidableEq, Inhabited, Hashable

/-- A load whose operands tie the anchor to a constant. -/
structure LoadReference where
  updateType : UpdateType
  /-- The instruction that builds the address of the constant. -/
  addrLoad : Option Address
  /-- The address of the constant. -/
  dataLoad : Option Address
  deriving Repr, DecidableEq, Hashable

/-- What is noted. -/
inductive Payload where
  | comment (text : String)
  | entryPoint (name : String)
  | instructionType (kind : InstructionKind)
  | loadReference (reference : LoadReference)
  deriving Repr, DecidableEq, Hashable

/-- A note at an address. -/
structure Annotation where
  address : Address
  payload : Payload
  deriving Repr, DecidableEq, Hashable

/-- Stands for the account that an outside component gives of its own failure. -/
def outsideCause : String := "<source>"

/-- Why annotations cannot be read, written or kept. -/
inductive AnnotationError where
  | invalidKind (text : String)
  | invalidFields (kind : AnnotationKind)
  | io (path : String)
  | json
  | yaml
  | unsupportedFormat (path : String)
  | storage (reason : String)
  deriving Repr, DecidableEq

namespace AnnotationKind

/-- All kinds. -/
def all : List AnnotationKind := [.comment, .entryPoint, .instructionType, .loadReference]

/-- The name of a kind. -/
def name : AnnotationKind → String
  | .comment => "comment"
  | .entryPoint => "entrypoint"
  | .instructionType => "inst_type"
  | .loadReference => "load_ref"

/-- The kind of a name. -/
def ofName (s : String) : Except AnnotationError AnnotationKind :=
  match all.find? fun k => k.name == s with
  | some k => .ok k
  | none => .error (.invalidKind s)

theorem ofName_name (k : AnnotationKind) : ofName k.name = .ok k := by cases k <;> rfl

end AnnotationKind

/-- The message of an error. -/
def AnnotationError.message : AnnotationError → String
  | .invalidKind text =>
    s!"Invalid annotation kind '{text}'. Allowed: comment, entrypoint, inst_type, load_ref"
  | .invalidFields kind => "Invalid fields for " ++ kind.name ++ " annotation: " ++ outsideCause
  | .io path => s!"Failed to access annotation file {path}: {outsideCause}"
  | .json => s!"Annotation JSON error: {outsideCause}"
  | .yaml => s!"Annotation YAML error: {outsideCause}"
  | .unsupportedFormat path =>
    s!"Unsupported annotation file format: {path} (expected .json, .yaml or .yml)"
  | .storage reason => s!"Annotation storage error: {reason}"

namespace UpdateType

/-- The name of a type. -/
def name : UpdateType → String
  | .constantLoad => "CONSTANT_LOAD"
  | .signatureLoad => "SIGNATURE_LOAD"
  | .constInjection => "CONST_INJECTION"

/-- The type of a name. -/
def ofName? (s : String) : Option UpdateType :=
  [constantLoad, signatureLoad, constInjection].find? fun t => t.name == s

theorem ofName?_name (t : UpdateType) : ofName? t.name = some t := by cases t <;> decide

end UpdateType

/-! ### Fields -/

namespace Json

/-- The fields of a record by their names in order. An array gives them in order. -/
def fields? (names : List String) : Json → Option (List (Option Json))
  | .object ms => some (names.map fun n => (Json.object ms).member? n)
  | .array xs =>
    if xs.length ≤ names.length then
      some (xs.map some ++ List.replicate (names.length - xs.length) none)
    else none
  | _ => none

/-- The word that a value is. -/
def word? : Json → Option UInt64
  | .number n => n.word?
  | _ => none

/-- A word or null. -/
def optionalWord? : Json → Option (Option UInt64)
  | .null => some none
  | j => j.word?.map some

/-- A type by its name, alone or as the name of a null. -/
def updateType? : Json → Option UpdateType
  | .text s => UpdateType.ofName? s
  | .object ms =>
    match ms.reverse with
    | (k, .null) :: rest => if rest.all fun m => m.1 == k then UpdateType.ofName? k else none
    | _ => none
  | _ => none

end Json

/-- A field that is read if it is there. -/
def readField {α : Type} (value : α) (read : Json → Option α) : Option Json → Option α
  | none => some value
  | some j => read j

namespace Payload

/-- The kind of a payload. -/
def kind : Payload → AnnotationKind
  | .comment _ => .comment
  | .entryPoint _ => .entryPoint
  | .instructionType _ => .instructionType
  | .loadReference _ => .loadReference

/-- The payload of a new annotation at an address. -/
def fresh (kind : AnnotationKind) (anchor : Address) : Payload :=
  match kind with
  | .comment => .comment ""
  | .entryPoint => .entryPoint ("sub_" ++ Text.upperHex anchor.toNat)
  | .instructionType => .instructionType .unknown
  | .loadReference => .loadReference ⟨.constantLoad, none, none⟩

/-- The fields of a payload. -/
def toFields : Payload → Json
  | .comment text => .object [("comment", .text text)]
  | .entryPoint name => .object [("name", .text name)]
  | .instructionType kind => .object [("instruction_type", .text kind.dotted)]
  | .loadReference r => .object
      (((r.addrLoad.map fun a => ("addr_load", Json.word a)).toList ++
        (r.dataLoad.map fun a => ("data_load", Json.word a)).toList) ++
        [("update_type", .text r.updateType.name)])

/-- The payload of a kind with the fields, if each of them can be read. -/
def read? (kind : AnnotationKind) (fields : Json) : Option Payload :=
  match kind with
  | .comment =>
    match fields.fields? ["comment"] with
    | some [c] => (readField "" Json.text? c).map .comment
    | _ => none
  | .entryPoint =>
    match fields.fields? ["name"] with
    | some [n] => (readField "" Json.text? n).map .entryPoint
    | _ => none
  | .instructionType =>
    match fields.fields? ["instruction_type"] with
    | some [t] => (readField "unknown" Json.text? t).map fun s =>
        .instructionType (InstructionKind.ofDotted s)
    | _ => none
  | .loadReference =>
    match fields.fields? ["update_type", "addr_load", "data_load"] with
    | some [t, a, d] => do
      let t ← readField .constantLoad Json.updateType? t
      let a ← readField none Json.optionalWord? a
      let d ← readField none Json.optionalWord? d
      return .loadReference ⟨t, a, d⟩
    | _ => none

/-- **The payload that fields stand for**; null stands for no fields. -/
def ofFields (kind : AnnotationKind) (fields : Json) : Except AnnotationError Payload :=
  let fields := match fields with
    | .null => .object []
    | j => j
  match read? kind fields with
  | some p => .ok p
  | none => .error (.invalidFields kind)

end Payload

namespace Annotation

/-- The kind of an annotation. -/
def kind (a : Annotation) : AnnotationKind := a.payload.kind

/-- An annotation from the name of its kind and its fields. -/
def ofFields (kind : String) (address : Address) (fields : Json) :
    Except AnnotationError Annotation := do
  let kind ← AnnotationKind.ofName kind
  let payload ← Payload.ofFields kind fields
  return ⟨address, payload⟩

/-- A new annotation of a kind. -/
def fresh (kind : String) (address : Address) : Except AnnotationError Annotation := do
  let kind ← AnnotationKind.ofName kind
  return ⟨address, Payload.fresh kind address⟩

/-- The payload in one line; an operand that is missing is shown as zero. -/
def describe (a : Annotation) : String :=
  match a.payload with
  | .comment text => text
  | .entryPoint name => name
  | .instructionType kind => kind.display
  | .loadReference r =>
    "updateType=" ++ r.updateType.name ++ ", addrLoad=" ++ (r.addrLoad.getD 0).text ++
      ", dataLoad=" ++ (r.dataLoad.getD 0).text

/-- The entry point that an annotation is. -/
def entryPoint? (a : Annotation) : Option EntryPoint :=
  match a.payload with
  | .entryPoint name => some ⟨a.address, name⟩
  | _ => none

/-- The load reference that an annotation is. -/
def loadReference? (a : Annotation) : Option LoadReference :=
  match a.payload with
  | .loadReference r => some r
  | _ => none

end Annotation

end FlowState
