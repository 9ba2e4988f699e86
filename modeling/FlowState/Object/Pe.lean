import FlowState.Image
import FlowState.Object.View

/-! # PE files

A header with a table of sections and directories. The segments are the sections with data in the
file, at their places behind the base of the image; the symbols are the exports with a name. An
address relative to the base is found in the file by the section that holds it. -/

namespace FlowState.Object.Pe

/-- An entry of the table of sections. -/
structure Section where
  name : String
  virtualSize : Nat
  address : Nat
  size : Nat
  offset : Nat
  characteristics : Nat

/-- The number that decimal digits behind a slash spell, up to the first zero. -/
def longNameOffset? (name : List UInt8) : Option Nat :=
  match name with
  | 0x2F :: ds =>
    let ds := ds.takeWhile (· != 0)
    Text.natOfDigits? 10 (ds.map fun b => Char.ofNat b.toNat)
  | _ => none

/-- The section at an offset; a long name is kept in the table of texts. -/
def sectionAt? (v : View) (texts offset : Nat) : Option Section := do
  let short ← v.slice? offset 8
  let virtualSize ← v.word? (offset + 8)
  let place ← v.word? (offset + 12)
  let size ← v.word? (offset + 16)
  let start ← v.word? (offset + 20)
  let characteristics ← v.word? (offset + 36)
  let name ← match longNameOffset? short with
    | some k =>
      if texts + k < v.bytes.size then
        textBefore? (v.bytes.extract (texts + k) v.bytes.size).toList
      else none
    | none => some ((textBefore? short).getD "")
  return ⟨name, virtualSize, place, size, start, characteristics⟩

/-! ### Relative addresses -/

/-- A size up to whole pages. -/
def pageSize (n : Nat) : Nat := (n + 0xFFF) / 0x1000 * 0x1000

/-- The number of bytes of a section that are read from the file. -/
def readSize (alignment : Nat) (s : Section) : Nat :=
  let size := min ((s.offset + s.size + alignment - 1) / alignment * alignment) (pageSize s.size)
  if s.virtualSize = 0 then size else min size (pageSize s.virtualSize)

/-- A power of two. -/
def isPowerOfTwo (n : Nat) : Bool := n != 0 && (List.range 33).any fun k => n == 1 <<< k

/-- The place in the file of a relative address. -/
def offset? (sections : List Section) (alignment rva : Nat) : Option Nat :=
  if isPowerOfTwo alignment then
    (sections.find? fun s => s.address ≤ rva && rva < s.address + readSize alignment s).map fun s =>
      rva - s.address + s.offset / 0x200 * 0x200
  else none

/-- The text at a relative address. -/
def textAt? (v : View) (sections : List Section) (alignment rva : Nat) : Option (Option String) :=
  (offset? sections alignment rva).map fun k =>
    if k < v.bytes.size then textBefore? (v.bytes.extract k v.bytes.size).toList else none

/-! ### Exports -/

/-- The numbers of a table, as far as they lie in the file. -/
def table (v : View) (width : Nat) (start : Option Nat) (count : Nat) : List Nat :=
  match start with
  | none => []
  | some k => ((List.range count).map fun i => v.number? width (k + i * width)).takeWhile
      Option.isSome |>.filterMap id

/-- A name of another library and of its function, with a dot between them. -/
def isForward (s : String) : Bool := s.toList.any (· == '.')

/-- The export of a name: its relative address, if it is found. -/
def export? (v : View) (sections : List Section) (alignment start size : Nat)
    (addresses : List Nat) (entry : Nat × Option Nat) : Option (Option String × Nat) := do
  let name ← textAt? v sections alignment entry.1
  let ordinal ← entry.2
  let rva ← addresses[ordinal]?
  let place ← offset? sections alignment rva
  if start ≤ rva && rva < start + size then
    let text ← if place < v.bytes.size then
        textBefore? (v.bytes.extract place v.bytes.size).toList
      else none
    if isForward text then some (name, rva) else none
  else some (name, rva)

/-- The exports of a directory at a relative address, in the order of their names. -/
def exports (v : View) (sections : List Section) (alignment start size : Nat) :
    List (Option String × Nat) :=
  let read : Option (List (Option String × Nat)) := do
    let k ← offset? sections alignment start
    let addressCount ← v.word? (k + 20)
    let nameCount ← v.word? (k + 24)
    let addressTable ← v.word? (k + 28)
    let nameTable ← v.word? (k + 32)
    let ordinalTable ← v.word? (k + 36)
    if v.bytes.size < nameCount || v.bytes.size < addressCount then none
    else
      let names := table v 4 (offset? sections alignment nameTable) nameCount
      let ordinals := table v 2 (offset? sections alignment ordinalTable) nameCount
      let addresses := table v 4 (offset? sections alignment addressTable) addressCount
      some ((names.mapIdx fun i n => (n, ordinals[i]?)).filterMap
        (export? v sections alignment start size addresses))
  read.getD []

/-! ### The image -/

/-- The architecture of a machine number. -/
def architecture (machine : Nat) : Architecture :=
  if machine = 0x14C then .x86
  else if machine = 0x8664 then .x86x64
  else if machine = 0x1C0 then .arm
  else if machine = 0x1C4 then .thumb
  else if machine = 0xAA64 then .arm64
  else .unsupported ("coff-machine-0x" ++ String.ofList (Nat.toDigits 16 machine))

/-- What the optional header says. -/
structure Optional where
  entry : Nat
  base : Nat
  alignment : Nat
  /-- The place and the size of the directory of exports. -/
  exports : Option (Nat × Nat)

/-- A directory: its place and its size. -/
def directory? (v : View) (offset : Nat) : Option (Nat × Nat) := do
  let place ← v.word? offset
  let size ← v.word? (offset + 4)
  return (place, size)

/-- The base of the image, the number of directories and their place, by the kind of the optional
header at an offset. -/
def directories? (v : View) (offset : Nat) : Option (Nat × Nat × Nat) := do
  let magic ← v.half? offset
  if magic = 0x10B then
    let base ← v.word? (offset + 28)
    let count ← v.word? (offset + 92)
    return (base, count, offset + 96)
  else if magic = 0x20B then
    let base ← v.double? (offset + 24)
    let count ← v.word? (offset + 108)
    return (base, count, offset + 112)
  else none

/-- The optional header at an offset. -/
def optional? (v : View) (offset : Nat) : Option Optional := do
  let entry ← v.word? (offset + 16)
  let alignment ← v.word? (offset + 36)
  let (base, count, start) ← directories? v offset
  let entries ← (List.range (min count 16)).mapM fun k => directory? v (start + 8 * k)
  let found := entries.head?.filter fun (d : Nat × Nat) => d.1 != 0 || d.2 != 0
  return ⟨entry, base, alignment, found⟩

/-- The segment of a section, if it has data in the file. -/
def segment? (v : View) (base : Nat) (s : Section) : Option Segment :=
  match v.slice? s.offset s.size with
  | none => none
  | some bytes =>
    if bytes.isEmpty then none
    else some ⟨s.name, address (base + s.address), bytes, Machine.bits s.characteristics 29 1 == 1⟩

/-- **The image of a PE file.** -/
def image? (p : Path) (bytes : Array UInt8) : Option Image := do
  let v : View := ⟨bytes, false⟩
  let start ← v.word? 0x3C
  let signature ← v.word? start
  if signature != 0x4550 then none
  else
    let _ ← v.slice? 0x40 0x40
    let machine ← v.half? (start + 4)
    let sectionCount ← v.half? (start + 6)
    let symbolTable ← v.word? (start + 12)
    let symbolCount ← v.word? (start + 16)
    let optionalSize ← v.half? (start + 20)
    let _ ← v.half? (start + 22)
    let o ← if optionalSize = 0 then some ⟨0, 0, 0, none⟩ else optional? v (start + 24)
    if v.bytes.size / 40 < sectionCount then none
    else
      let texts := symbolTable + 18 * symbolCount
      let sections ← (List.range sectionCount).mapM fun k =>
        sectionAt? v texts (start + 24 + optionalSize + 40 * k)
      let found := match o.exports with
        | some (place, size) => exports v sections o.alignment place size
        | none => []
      let arch := architecture machine
      let thumb := arch == .thumb
      let symbols := found.filterMap fun e =>
        if e.2 = 0 then none else e.1.map fun name => ⟨name, codeAddress thumb (o.base + e.2)⟩
      return {
        path := p
        architecture := arch
        entry := if o.entry = 0 then none else some (codeAddress thumb (o.base + o.entry))
        segments := sections.filterMap (segment? v o.base)
        symbols := symbols
        listing := [] }

end FlowState.Object.Pe
