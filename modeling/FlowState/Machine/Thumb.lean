import FlowState.Machine.Encoding

/-! # The T32 instruction set

Halfwords, or pairs of them if the highest five bits of the first one say so. An offset counts from
four bytes behind the instruction. A return is a branch to the link register or a load of the
program counter from the stack. -/

namespace FlowState.Machine.Thumb

/-- The place at a distance from the program counter. -/
def target (address : Address) (distance : Int) : Address :=
  narrow (displaced address (4 + distance))

/-- The first of two halfwords. -/
def isWide (h : Nat) : Bool := bits h 11 5 == 0x1D || bits h 11 5 == 0x1E || bits h 11 5 == 0x1F

/-- The encoding of a halfword. -/
def narrow? (address : Address) (h : Nat) : Option Encoding :=
  if bits h 8 8 = 0x47 then
    if bits h 7 1 = 1 then some (.plain 2 .indirectCall)
    else if bits h 3 4 = 14 then some (.plain 2 .return)
    else some (.plain 2 .indirectBranch)
  else if bits h 8 8 = 0xBD then some (.plain 2 .return)
  else if bits h 8 8 = 0xDE || bits h 8 8 = 0xDF then some (.plain 2 .trap)
  else if bits h 12 4 = 0xD then
    some (.leading 2 .conditionalBranch (target address (2 * signed 8 (bits h 0 8))))
  else if bits h 11 5 = 0x1C then
    some (.leading 2 .directBranch (target address (2 * signed 11 (bits h 0 11))))
  else if bits h 12 4 = 0xB && bits h 8 1 = 1 && bits h 10 1 = 0 then
    some (.leading 2 .conditionalBranch
      (target address ((2 * bits h 3 5 + 64 * bits h 9 1 : Nat) : Int)))
  else some (.sequential 2)

/-- The offset of a long branch, whose two highest bits but the sign are stored against the sign. -/
def longOffset (h g : Nat) : Int :=
  let s := bits h 10 1
  let i1 := if bits g 13 1 = s then 1 else 0
  let i2 := if bits g 11 1 = s then 1 else 0
  signed 25 (s * 0x1000000 + i1 * 0x800000 + i2 * 0x400000 + bits h 0 10 * 0x1000 + bits g 0 11 * 2)

/-- The offset of a long conditional branch. -/
def conditionalOffset (h g : Nat) : Int :=
  signed 21 (bits h 10 1 * 0x100000 + bits g 11 1 * 0x80000 + bits g 13 1 * 0x40000 +
    bits h 0 6 * 0x1000 + bits g 0 11 * 2)

/-- The last multiple of four up to an address. -/
def wordAligned (a : Address) : Address := UInt64.ofNat (a.toNat / 4 * 4)

/-- The encoding of two halfwords. -/
def wide? (address : Address) (h g : Nat) : Option Encoding :=
  if bits h 11 5 = 0x1E && bits g 15 1 = 1 then
    if bits g 14 1 = 1 && bits g 12 1 = 1 then
      some (.leading 4 .directCall (target address (longOffset h g)))
    else if bits g 14 1 = 1 then
      some (.leading 4 .directCall (target (wordAligned address) (longOffset h g)))
    else if bits g 12 1 = 1 then
      some (.leading 4 .directBranch (target address (longOffset h g)))
    else if bits h 7 3 != 7 then
      some (.leading 4 .conditionalBranch (target address (conditionalOffset h g)))
    else some (.sequential 4)
  else if h = 0xE8BD && bits g 15 1 = 1 then some (.plain 4 .return)
  else if h = 0xF85D && g = 0xFB04 then some (.plain 4 .return)
  else if h = 0xFFFF then none
  else some (.sequential 4)

/-- The instruction set. -/
def instructionSet : InstructionSet where
  step := 2
  encoding? address bytes := do
    let h ← littleEndian? 2 bytes
    if isWide h then
      let g ← littleEndian? 2 (bytes.drop 2)
      wide? address h g
    else narrow? address h

end FlowState.Machine.Thumb
