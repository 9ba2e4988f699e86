import FlowState.Image
import FlowState.Object.View

/-! # ELF files

A header with the place of a table of sections. The segments are the sections of program data that
are part of the memory; the symbols are the functions that the file defines. -/

namespace FlowState.Object.Elf

/-- The places of the fields, by the width of the addresses. -/
structure Layout where
  /-- The number of bytes of an address. -/
  width : Nat
  header : Nat
  sectionTable : Nat
  segmentCount : Nat
  sectionCount : Nat
  nameSection : Nat
  segmentSize : Nat
  sectionSize : Nat
  symbolSize : Nat

/-- Addresses of 32 bits. -/
def narrow : Layout := ⟨4, 52, 32, 44, 48, 50, 32, 40, 16⟩

/-- Addresses of 64 bits. -/
def wide : Layout := ⟨8, 64, 40, 56, 60, 62, 56, 64, 24⟩

/-- An entry of the table of sections. -/
structure Section where
  name : Nat
  kind : Nat
  flags : Nat
  address : Nat
  offset : Nat
  size : Nat
  link : Nat
  entrySize : Nat

/-- The section at an offset. -/
def sectionAt? (v : View) (l : Layout) (offset : Nat) : Option Section := do
  let w := l.width
  let name ← v.word? offset
  let kind ← v.word? (offset + 4)
  let flags ← v.number? w (offset + 8)
  let address ← v.number? w (offset + 8 + w)
  let place ← v.number? w (offset + 8 + 2 * w)
  let size ← v.number? w (offset + 8 + 3 * w)
  let link ← v.word? (offset + 8 + 4 * w)
  let entrySize ← v.number? w (offset + 16 + 5 * w)
  return ⟨name, kind, flags, address, place, size, link, entrySize⟩

/-- The table of sections. A count of zero is kept in the first section. -/
def sections? (v : View) (l : Layout) (offset count : Nat) : Option (List Section) :=
  if offset = 0 then some []
  else do
    let first ← sectionAt? v l offset
    let count := if count = 0 then first.size else count
    if v.bytes.size / l.sectionSize < count then none
    else
      let rest ← (List.range (count - 1)).mapM fun k =>
        sectionAt? v l (offset + (k + 1) * l.sectionSize)
      return first :: rest

/-- The section is data of the program. -/
def programData : Nat := 1

/-- The section is a table of symbols. -/
def symbolTable : Nat := 2

/-- The section is part of the memory. -/
def Section.isLoaded (s : Section) : Bool := Machine.bits s.flags 1 1 == 1

/-- The section is executable. -/
def Section.isExecutable (s : Section) : Bool := Machine.bits s.flags 2 1 == 1

/-- The section lies in the file and in the address space. -/
def Section.fits (v : View) (s : Section) : Bool :=
  s.kind == 8 || s.size == 0 ||
    (decide (s.offset + s.size ≤ v.bytes.size) && decide (s.address + s.size < 0x10000000000000000))

/-- The texts of a section: refused if they do not lie in the file or are no texts. -/
def texts? (v : View) (sections : List Section) (index : Nat) : Option (List UInt8) := do
  let index := if index = 0xFFFF then (sections.head?.map (·.link)).getD index else index
  match sections[index]? with
  | none => some []
  | some s =>
    if s.fits v then
      let bs ← v.slice? s.offset s.size
      let _ ← Text.ofBytes? bs
      return bs
    else none

/-- A symbol of the table. -/
structure RawSymbol where
  name : Nat
  info : Nat
  home : Nat
  value : Nat

/-- The symbol at an offset. -/
def symbolAt? (v : View) (l : Layout) (offset : Nat) : Option RawSymbol := do
  let name ← v.word? offset
  if l.width = 8 then
    return ⟨name, ← v.number? 1 (offset + 4), ← v.half? (offset + 6), ← v.double? (offset + 8)⟩
  else
    return ⟨name, ← v.number? 1 (offset + 12), ← v.half? (offset + 14), ← v.word? (offset + 4)⟩

/-- The symbols and the names of the last symbol table. -/
def symbols? (v : View) (l : Layout) (sections : List Section) :
    Option (List RawSymbol × List UInt8) :=
  match sections.reverse.find? fun s => s.kind == symbolTable with
  | none => some ([], [])
  | some s => do
    let count := if s.entrySize = 0 then 0 else s.size / s.entrySize
    if v.bytes.size ≤ s.offset || v.bytes.size < s.offset + count * l.symbolSize then none
    else
      let syms ← (List.range count).mapM fun k => symbolAt? v l (s.offset + k * l.symbolSize)
      let names ← texts? v sections s.link
      return (syms, names)

/-- The architecture of a machine number. -/
def architecture (machine entry : Nat) (wide : Bool) : Architecture :=
  if machine = 62 then .x86x64
  else if machine = 3 then .x86
  else if machine = 183 then .arm64
  else if machine = 40 then (if entry % 2 = 1 then .thumb else .arm)
  else if machine = 243 then (if wide then .riscv64 else .riscv32)
  else .unsupported ("elf-machine-" ++ Text.decimal machine)

/-- The segment of a section, if it is one. -/
def segmentOf? (v : View) (names : List UInt8) (s : Section) : Option Segment :=
  if !s.isLoaded || s.kind != programData || s.size == 0 then none
  else (v.slice? s.offset s.size).map fun bytes =>
    ⟨nameAt names s.name, address s.address, bytes, s.isExecutable⟩

/-- The function that a symbol names, if it is one that the file defines. -/
def function? (thumb : Bool) (names : List UInt8) (s : RawSymbol) : Option Symbol :=
  let name := nameAt names s.name
  if s.info % 16 != 2 || s.home == 0 || name.isEmpty then none
  else some ⟨name, codeAddress thumb s.value⟩

/-- The class, the byte order and the fields of the header have to be known. -/
def layout? (bytes : Array UInt8) : Option (View × Layout) := do
  let kind ← bytes[4]?
  let order ← bytes[5]?
  let l ← if kind = 1 then some narrow else if kind = 2 then some wide else none
  if order != 1 && order != 2 then none
  else if bytes.size < l.header then none
  else return (⟨bytes, order == 2⟩, l)

/-- **The image of an ELF file.** -/
def image? (p : Path) (bytes : Array UInt8) : Option Image := do
  let (v, l) ← layout? bytes
  let machine ← v.half? 18
  let entry ← v.number? l.width 24
  let segmentTable ← v.number? l.width (24 + l.width)
  let segmentCount ← v.half? l.segmentCount
  let tableOffset ← v.number? l.width l.sectionTable
  let sectionCount ← v.half? l.sectionCount
  let nameSection ← v.half? l.nameSection
  if segmentCount != 0 && v.bytes.size < segmentTable + segmentCount * l.segmentSize then none
  else
    let sections ← sections? v l tableOffset sectionCount
    let names ← texts? v sections nameSection
    let (syms, symNames) ← symbols? v l sections
    if sections.any fun s => (s.kind == 4 || s.kind == 9) && !s.fits v then none
    else
      let arch := architecture machine entry (l.width == 8)
      let thumb := arch == .thumb
      return {
        path := p
        architecture := arch
        entry := if entry = 0 then none else some (codeAddress thumb entry)
        segments := sections.filterMap (segmentOf? v names)
        symbols := syms.filterMap (function? thumb symNames)
        listing := [] }

end FlowState.Object.Elf
