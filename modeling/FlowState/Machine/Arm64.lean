import FlowState.Machine.Encoding

/-! # The A64 instruction set

Words of four bytes. An offset counts words from the instruction itself. Of a branch on one bit the
number of the bit is taken for the place it leads to. -/

namespace FlowState.Machine.Arm64

/-- The place at a distance in words, given in so many bits. -/
def target (address : Address) (width offset : Nat) : Address :=
  displaced address (4 * signed width offset)

/-- The bit that a branch looks at. -/
def testedBit (w : Nat) : Address := UInt64.ofNat (bits w 31 1 * 32 + bits w 19 5)

/-- A call of the supervisor, a breakpoint or a halt. -/
def isTrap (w : Nat) : Bool :=
  (bits w 21 11 == 0x6A0 && bits w 0 5 == 1) || (bits w 21 11 == 0x6A1 && bits w 0 5 == 0) ||
    (bits w 21 11 == 0x6A2 && bits w 0 5 == 0)

/-- The encoding of a word. -/
def word? (address : Address) (w : Nat) : Option Encoding :=
  if bits w 25 4 = 0 then none
  else if w = 0xffffffff then none
  else if bits w 10 22 = 0x3597C0 && bits w 0 5 = 0 then some (.plain 4 .return)
  else if bits w 10 22 = 0x3587C0 && bits w 0 5 = 0 then some (.plain 4 .indirectBranch)
  else if bits w 10 22 = 0x358FC0 && bits w 0 5 = 0 then some (.plain 4 .indirectCall)
  else if isTrap w then some (.plain 4 .trap)
  else if bits w 26 6 = 0x05 then
    some (.leading 4 .directBranch (target address 26 (bits w 0 26)))
  else if bits w 26 6 = 0x25 then
    some (.leading 4 .directCall (target address 26 (bits w 0 26)))
  else if bits w 24 8 = 0x54 && bits w 4 1 = 0 then
    some (.leading 4 .conditionalBranch (target address 19 (bits w 5 19)))
  else if bits w 25 6 = 0x1A then
    some (.leading 4 .conditionalBranch (target address 19 (bits w 5 19)))
  else if bits w 25 6 = 0x1B then some (.leading 4 .conditionalBranch (testedBit w))
  else some (.sequential 4)

/-- The instruction set. -/
def instructionSet : InstructionSet where
  step := 4
  encoding? address bytes := (littleEndian? 4 bytes).bind (word? address)

end FlowState.Machine.Arm64
