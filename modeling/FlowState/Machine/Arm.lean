import FlowState.Machine.Encoding

/-! # The A32 instruction set

Words of four bytes whose highest four bits are a condition. An offset counts words from two words
behind the instruction. A return is a plain branch to the link register, or a load of several
registers from the stack with the program counter among them, or of the program counter alone by a
single load; everything else that writes the program counter passes for an ordinary instruction. -/

namespace FlowState.Machine.Arm

/-- The condition that always holds. -/
def always : Nat := 14

/-- The place that a branch leads to. -/
def branchTarget (address : Address) (w : Nat) : Address :=
  narrow (displaced address (8 + 4 * signed 24 (bits w 0 24)))

/-- A load of several registers from the stack, with the program counter among them. -/
def popsCounter (w : Nat) : Bool :=
  bits w 16 12 == 0x8BD && bits w 15 1 == 1 && bits w 0 15 != 0

/-- A load of the program counter from the stack. -/
def loadsCounter (w : Nat) : Bool := bits w 0 28 == 0x49DF004

/-- The encoding of a word. -/
def word? (address : Address) (w : Nat) : Option Encoding :=
  let condition := bits w 28 4
  if condition = 15 then none
  else if bits w 4 24 = 0x12FFF1 then
    if condition = always && bits w 0 4 = 14 then some (.plain 4 .return)
    else some (.plain 4 .indirectBranch)
  else if bits w 4 24 = 0x12FFF3 then some (.plain 4 .indirectCall)
  else if popsCounter w || loadsCounter w then some (.plain 4 .return)
  else if bits w 24 4 = 15 then some (.plain 4 .trap)
  else if bits w 20 8 = 0x7F && bits w 4 4 = 15 then some (.plain 4 .trap)
  else if bits w 24 4 = 11 then some (.leading 4 .directCall (branchTarget address w))
  else if bits w 24 4 = 10 then
    let kind := if condition = always then .directBranch else .conditionalBranch
    some (.leading 4 kind (branchTarget address w))
  else some (.sequential 4)

/-- The instruction set. -/
def instructionSet : InstructionSet where
  step := 4
  encoding? address bytes := (littleEndian? 4 bytes).bind (word? address)

end FlowState.Machine.Arm
