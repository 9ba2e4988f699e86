import FlowState.Annotation
import FlowState.Json.Reader
import FlowState.Path
import FlowState.Yaml.Printer
import FlowState.Yaml.Reader

/-! # Annotation files

A list of annotations as a JSON or a YAML text, which the extension of the path tells apart. Each
annotation is a record of its kind, its address and its fields. A text is read as a whole before the
kind and the fields of any record are looked at, and then the first bad record counts. -/

namespace FlowState

/-- An annotation as it is written: the kind by its name, and free-form fields. -/
structure AnnotationRecord where
  kind : String
  address : Address
  fields : Json
  deriving Repr, BEq

namespace AnnotationRecord

/-- The record of an annotation. -/
def ofNote (a : Annotation) : AnnotationRecord := ⟨a.kind.name, a.address, a.payload.toFields⟩

/-- The annotation that a record stands for. -/
def read (r : AnnotationRecord) : Except AnnotationError Annotation :=
  Annotation.ofFields r.kind r.address r.fields

/-- The members of a record. -/
def members (r : AnnotationRecord) : List (String × Json) :=
  [("type", .text r.kind), ("address", .word r.address), ("fields", r.fields)]

/-- The value that a record is written as. -/
def toJson (r : AnnotationRecord) : Json := .object r.members

/-- The record that a document is, whose fields have at most so many levels. -/
def ofDocument? (room : Nat) (d : Document) : Option AnnotationRecord :=
  match d.fields? ["type", "address", "fields"] with
  | some [k, a, f] => do
    let kind ← Document.required? Document.text? k
    let address ← Document.required? Document.word? a
    let fields ← Document.withDefault? .null (Document.json? room) f
    return ⟨kind, address, fields⟩
  | _ => none

end AnnotationRecord

/-- How annotations are written. -/
inductive FileFormat where
  | json
  | yaml
  deriving Repr, DecidableEq

namespace FileFormat

/-- The extensions of JSON files. -/
def jsonWords : List (List Char) := [['j', 's', 'o', 'n']]

/-- The extensions of YAML files. -/
def yamlWords : List (List Char) := [['y', 'a', 'm', 'l'], ['y', 'm', 'l']]

/-- The format of a path by its extension. -/
def ofPath? (p : Path) : Option FileFormat :=
  if p.hasExtension jsonWords then some .json
  else if p.hasExtension yamlWords then some .yaml
  else none

end FileFormat

namespace AnnotationFile

/-- The levels that are left to the fields of a record in a list of records. -/
def fieldRoom : FileFormat → Nat
  | .json => Json.depthLimit - 2
  | .yaml => Yaml.depthLimit - 2

/-- The format of a file: refused if the extension is none of the known ones. -/
def format (p : Path) : Except AnnotationError FileFormat :=
  match FileFormat.ofPath? p with
  | some f => .ok f
  | none => .error (.unsupportedFormat p.text)

/-- The records of a text. -/
def records (f : FileFormat) (text : List Char) : Except AnnotationError (List AnnotationRecord) :=
  let read (d : Document) : Option (List AnnotationRecord) :=
    d.listOf? (AnnotationRecord.ofDocument? (fieldRoom f))
  match f with
  | .json =>
    match (Json.read? (text.map some)).bind read with
    | some rs => .ok rs
    | none => .error .json
  | .yaml =>
    match (Yaml.read? text).bind read with
    | some rs => .ok rs
    | none => .error .yaml

/-- **The annotations in a file** with the content, if it has one. -/
def read (p : Path) (content : Option (List UInt8)) : Except AnnotationError (List Annotation) := do
  let f ← format p
  let text ← match content.bind Text.ofBytes? with
    | some s => .ok s.toList
    | none => .error (.io p.text)
  let rs ← records f text
  rs.mapM AnnotationRecord.read

/-- The text of annotations in a format. -/
def print (f : FileFormat) (as : List Annotation) : String :=
  let value := Json.array (as.map fun a => (AnnotationRecord.ofNote a).toJson)
  match f with
  | .json => value.pretty
  | .yaml => Yaml.print value

/-- **The text of annotations in a file.** -/
def write (p : Path) (as : List Annotation) : Except AnnotationError String :=
  (format p).map fun f => print f as

end AnnotationFile

end FlowState
