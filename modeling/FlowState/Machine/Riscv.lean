import FlowState.Machine.Encoding

/-! # The RISC-V instruction sets

Words of four bytes with ones in their lowest two bits; shorter and longer instructions are not
known. Only conditional branches and calls of the environment count as changes of flow: a jump that
links a register passes for an ordinary instruction. -/

namespace FlowState.Machine.Riscv

/-- The offset of a conditional branch. -/
def branchOffset (w : Nat) : Int :=
  signed 13 (bits w 31 1 * 0x1000 + bits w 7 1 * 0x800 + bits w 25 6 * 0x20 + bits w 8 4 * 2)

/-- The opcodes that are known, in words of 32 or 64 bits. -/
def isKnown (long : Bool) (opcode middle : Nat) : Bool :=
  if opcode = 0x03 then middle != 7 && (long || (middle != 3 && middle != 6))
  else if opcode = 0x23 then middle < 3 || (long && middle == 3)
  else if opcode = 0x1B || opcode = 0x3B then long
  else if opcode = 0x63 then middle != 2 && middle != 3
  else if opcode = 0x67 then middle == 0
  else opcode = 0x0F || opcode = 0x13 || opcode = 0x17 || opcode = 0x33 || opcode = 0x37 ||
    opcode = 0x6F || opcode = 0x73

/-- The encoding of a word. -/
def word? (long : Bool) (address : Address) (w : Nat) : Option Encoding :=
  let opcode := bits w 0 7
  if !isKnown long opcode (bits w 12 3) then none
  else if opcode = 0x63 then
    some (.leading 4 .conditionalBranch (displaced address (branchOffset w)))
  else if w = 0x00000073 || w = 0x00100073 then some (.plain 4 .trap)
  else some (.sequential 4)

/-- The instruction set with words of 32 or 64 bits. -/
def instructionSet (long : Bool) : InstructionSet where
  step := 2
  encoding? address bytes := (littleEndian? 4 bytes).bind (word? long address)

end FlowState.Machine.Riscv
