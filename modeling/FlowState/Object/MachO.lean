import FlowState.Image
import FlowState.Object.View

/-! # Mach-O files

A header and a row of load commands. The segments are the sections with data in the file; the
symbols are all entries of the symbol table with a value, without the underscores in front of their
names. -/

namespace FlowState.Object.MachO

/-- A segment of the file with its sections. -/
structure FileSegment where
  name : List UInt8
  address : Nat
  offset : Nat
  sections : List Segment

/-- What the load commands say. -/
structure Commands where
  segments : List FileSegment
  symbols : List Symbol
  /-- The place in the file where the program starts. -/
  entry : Option Nat

/-- The bytes of a section: none for those that are filled with zeros. -/
def sectionBytes (v : View) (flags offset size : Nat) : List UInt8 :=
  if flags % 256 = 1 || flags % 256 = 12 || flags % 256 = 18 then []
  else (v.slice? offset size).getD []

/-- Instructions are in the section. -/
def hasCode (flags : Nat) : Bool := Machine.bits flags 31 1 == 1 || Machine.bits flags 10 1 == 1

/-- The section at an offset, with addresses of so many bytes. -/
def sectionAt? (v : View) (width offset : Nat) : Option Segment := do
  let name ← v.slice? offset 16
  let place ← v.number? width (offset + 32)
  let size ← v.number? width (offset + 32 + width)
  let start ← v.word? (offset + 32 + 2 * width)
  let flags ← v.word? (offset + 48 + 2 * width)
  let _ ← v.slice? offset (if width = 8 then 80 else 68)
  return ⟨(textBefore? name).getD "", address place, sectionBytes v flags start size, hasCode flags⟩

/-- The segment at the offset of its command. Its part of the file has to be there. -/
def segment? (v : View) (width offset : Nat) : Option FileSegment := do
  let name ← v.slice? (offset + 8) 16
  let place ← v.number? width (offset + 24)
  let start ← v.number? width (offset + 24 + 2 * width)
  let size ← v.number? width (offset + 24 + 3 * width)
  let count ← v.word? (offset + 32 + 4 * width)
  let head := 40 + 4 * width
  let _ ← v.slice? offset head
  if size != 0 && v.bytes.size < start + size then none
  else
    let step := if width = 8 then 80 else 68
    let sections := ((List.range (min count v.bytes.size)).map fun k =>
      sectionAt? v width (offset + head + k * step)).filterMap id
    return ⟨name, place, start, sections.filter fun s => !s.bytes.isEmpty⟩

/-- The symbol at an offset, with its name in the texts from another offset on. -/
def symbol? (v : View) (width offset texts : Nat) : Option Symbol := do
  let name ← v.word? offset
  let _ ← v.word? (offset + 4)
  let value ← v.number? width (offset + 8)
  let start := texts + name
  if start < v.bytes.size then
    let text ← textBefore? (v.bytes.extract start v.bytes.size).toList
    let text := text.toList.dropWhile (· == '_')
    if value = 0 || text.isEmpty then none
    else some ⟨String.ofList text, address value⟩
  else none

/-- The symbols of a table, those that can be read. -/
def symbols? (v : View) (width offset : Nat) : Option (List Symbol) := do
  let table ← v.word? (offset + 8)
  let count ← v.word? (offset + 12)
  let texts ← v.word? (offset + 16)
  let _ ← v.word? (offset + 20)
  if texts < table || v.bytes.size ≤ table then none
  else
    let step := 8 + width
    return ((List.range (min count v.bytes.size)).map fun k =>
      symbol? v width (table + k * step) texts).filterMap id

/-- Reads so many load commands from an offset on, with addresses of so many bytes. -/
def commands? (v : View) (width : Nat) : Nat → Nat → Commands → Option Commands
  | 0, _, cs => some cs
  | n + 1, offset, cs => do
    let kind ← v.word? offset
    let size ← v.word? (offset + 4)
    let cs ←
      if kind = 1 then (segment? v 4 offset).map fun s => { cs with segments := cs.segments ++ [s] }
      else if kind = 0x19 then
        (segment? v 8 offset).map fun s => { cs with segments := cs.segments ++ [s] }
      else if kind = 2 then
        (symbols? v width offset).map fun ss => { cs with symbols := ss }
      else if kind = 0x80000028 then
        (v.double? (offset + 8)).map fun e => { cs with entry := cs.entry.orElse fun _ => some e }
      else some cs
    commands? v width n (offset + size) cs

/-- The architecture of a processor number. -/
def architecture (processor : Nat) : Architecture :=
  if processor = 7 then .x86
  else if processor = 0x01000007 then .x86x64
  else if processor = 12 then .arm
  else if processor = 0x0100000C then .arm64
  else .unsupported ("mach-cputype-" ++ Text.decimal processor)

/-- The name of the segment with the code. -/
def textSegment : List UInt8 := Text.toBytes "__TEXT" ++ [0]

/-- The address of a place in the file, by the segment with the code. -/
def entryAddress? (segments : List FileSegment) (entry : Nat) : Option Address :=
  (segments.find? fun s => s.name.take 7 == textSegment).map fun s =>
    address (s.address + 0x10000000000000000 - s.offset + entry)

/-- **The image of a Mach-O file** with addresses of so many bytes. -/
def image? (p : Path) (bytes : Array UInt8) (big wide : Bool) : Option Image := do
  let v : View := ⟨bytes, big⟩
  let processor ← v.word? 4
  let count ← v.word? 16
  let size ← v.word? 20
  let header := if wide then 32 else 28
  let _ ← v.slice? 0 header
  if size / 8 < count || v.bytes.size < size then none
  else
    let cs ← commands? v (if wide then 8 else 4) count header ⟨[], [], none⟩
    let entry ← match cs.entry with
      | none => some none
      | some e => (entryAddress? cs.segments e).map some
    return {
      path := p
      architecture := architecture processor
      entry := entry.filter (· != 0)
      segments := cs.segments.flatMap (·.sections)
      symbols := cs.symbols
      listing := [] }

end FlowState.Object.MachO
