import FlowState.Directory

/-! # Databases as files

The bytes of a file that holds a database: a mark, and then the tables as a JSON text. Signed
numbers are written as the words they are congruent to. -/

namespace FlowState

/-- A signed number as a word. -/
def signedJson (n : Int) : Json := .word (Int64.ofInt n).toUInt64

/-- The signed number at a place. -/
def signed? (d : Document) : Option Int := d.word?.map fun w => w.toInt64.toInt

/-- The number at a place. -/
def natural? (d : Document) : Option Nat := d.word?.map UInt64.toNat

/-! ### Rows -/

/-- The value of a row of annotations. -/
def AnnotationRow.toJson (r : AnnotationRow) : Json :=
  .array [.text r.binary, signedJson r.position, .text r.kind, .word r.address.toUInt64,
    .text r.fields]

/-- The row of annotations that a document is. -/
def AnnotationRow.ofDocument? (d : Document) : Option AnnotationRow :=
  match d.items? with
  | some [binary, position, kind, address, fields] => do
    return ⟨← binary.text?, ← signed? position, ← kind.text?, (← address.word?).toInt64,
      ← fields.text?⟩
  | _ => none

/-- The value of a binary in its table. -/
def BinaryRecord.toRow (b : BinaryRecord) : Json :=
  .array [.text b.name, .text b.path, .ofOption .text b.arch, .ofOption .text b.hash]

/-- The binary that a document is. -/
def BinaryRecord.ofDocument? (d : Document) : Option BinaryRecord :=
  match d.items? with
  | some [name, path, arch, hash] => do
    return ⟨← name.text?, ← path.text?, ← Document.optional? Document.text? arch,
      ← Document.optional? Document.text? hash⟩
  | _ => none

/-- The value of a row of runs. -/
def RunRow.toJson (r : RunRow) : Json :=
  .array [.text r.binary, .text r.updateFunction, .text r.status, .text r.startedAt,
    .text r.finishedAt, .word r.fixupCount.toUInt64]

/-- The row of runs that a document is. -/
def RunRow.ofDocument? (d : Document) : Option RunRow :=
  match d.items? with
  | some [binary, update, status, started, finished, count] => do
    return ⟨← binary.text?, ← update.text?, ← status.text?, ← started.text?, ← finished.text?,
      (← count.word?).toInt64⟩
  | _ => none

/-- The value of a row of fixups. -/
def FixupRow.toJson (r : FixupRow) : Json :=
  .array [signedJson r.run, .ofNat r.index, .word r.address.toUInt64, .text r.kind,
    .ofOption .text r.expected, .text r.computed, .text r.resolution]

/-- The row of fixups that a document is. -/
def FixupRow.ofDocument? (d : Document) : Option FixupRow :=
  match d.items? with
  | some [run, index, address, kind, expected, computed, resolution] => do
    return ⟨← signed? run, ← natural? index, (← address.word?).toInt64, ← kind.text?,
      ← Document.optional? Document.text? expected, ← computed.text?, ← resolution.text?⟩
  | _ => none

/-! ### Tables -/

/-- The value of a table with numbers. -/
def Numbered.toJson {α : Type} (row : α → Json) (t : Numbered α) : Json :=
  .array [.ofNat t.last, .array (t.rows.map fun r => .array [.ofNat r.1, row r.2])]

/-- The row with its number that a document is. -/
def Numbered.rowOf? {α : Type} (row? : Document → Option α) (d : Document) : Option (Nat × α) :=
  match d.items? with
  | some [n, r] => do return (← natural? n, ← row? r)
  | _ => none

/-- The table with numbers that a document is. -/
def Numbered.ofDocument? {α : Type} (row? : Document → Option α) (d : Document) :
    Option (Numbered α) :=
  match d.items? with
  | some [last, rows] => do return ⟨← rows.listOf? (Numbered.rowOf? row?), ← natural? last⟩
  | _ => none

namespace Database

/-- The value of a database. -/
def toJson (d : Database) : Json :=
  .object [("version", signedJson d.version),
    ("binaries", .ofOption (Numbered.toJson BinaryRecord.toRow) d.binaries),
    ("annotations", .ofOption (fun rows => .array (rows.map AnnotationRow.toJson)) d.annotations),
    ("runs", .ofOption (Numbered.toJson RunRow.toJson) d.runs),
    ("fixups", .ofOption (fun rows => .array (rows.map FixupRow.toJson)) d.fixups)]

/-- The database that a document is. -/
def ofDocument? (d : Document) : Option Database :=
  match d.fields? ["version", "binaries", "annotations", "runs", "fixups"] with
  | some [version, binaries, annotations, runs, fixups] => do
    let table {α : Type} (read : Document → Option α) : Option Document → Option (Option α) :=
      Document.required? (Document.optional? read)
    return ⟨← Document.required? signed? version,
      ← table (Numbered.ofDocument? BinaryRecord.ofDocument?) binaries,
      ← table (Document.listOf? AnnotationRow.ofDocument?) annotations,
      ← table (Numbered.ofDocument? RunRow.ofDocument?) runs,
      ← table (Document.listOf? FixupRow.ofDocument?) fixups⟩
  | _ => none

end Database

namespace FileContent

/-- The bytes of a file as they are stored. -/
def stored : FileContent → List UInt8
  | .bytes bs => bs
  | .database d => databaseMark ++ Text.toBytes d.toJson.compact

/-- The database in stored bytes behind the mark. -/
def storedDatabase? (bs : List UInt8) : Option Database :=
  if databaseMark.isPrefixOf bs then
    (Text.ofBytes? (bs.drop databaseMark.length)).bind fun text =>
      (Json.read? (text.toList.map some)).bind Database.ofDocument?
  else none

/-- **The content of a file** from its stored bytes. -/
def ofStored (bs : List UInt8) : FileContent :=
  match storedDatabase? bs with
  | some d => .database d
  | none => .bytes bs

end FileContent

end FlowState
