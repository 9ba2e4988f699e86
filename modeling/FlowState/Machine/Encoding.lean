import FlowState.Instruction

/-! # Machine encodings

An instruction set tells for the bytes at an address how long the instruction there is, what it does
to the flow of control and where it leads. Bytes that are cut off are no instruction. -/

namespace FlowState.Machine

/-- What the bytes at an address encode. -/
structure Encoding where
  length : Nat
  kind : InstructionKind
  target : Option Address
  deriving Repr, DecidableEq

namespace Encoding

/-- An encoding that leads nowhere in particular. -/
def plain (length : Nat) (kind : InstructionKind) : Encoding := ⟨length, kind, none⟩

/-- An encoding that only goes on to the next one. -/
def sequential (length : Nat) : Encoding := plain length .sequential

/-- An encoding that leads to an address. -/
def leading (length : Nat) (kind : InstructionKind) (target : Address) : Encoding :=
  ⟨length, kind, some target⟩

/-- The instruction of an encoding at the front of the bytes at an address. -/
def instruction (e : Encoding) (address : Address) (bytes : List UInt8) : Instruction :=
  { address := address, bytes := bytes.take e.length, kind := e.kind, targets := e.target.toList }

end Encoding

/-- An instruction set. -/
structure InstructionSet where
  /-- The number of bytes to pass over where no instruction is found. -/
  step : Nat
  /-- The encoding at the front of the bytes at an address. -/
  encoding? : Address → List UInt8 → Option Encoding

/-- The number that bytes spell, the lowest one first. -/
def littleEndian : List UInt8 → Nat
  | [] => 0
  | b :: bs => b.toNat + 256 * littleEndian bs

/-- The number that bytes spell, the highest one first. -/
def bigEndian (bs : List UInt8) : Nat := littleEndian bs.reverse

/-- The number that the first bytes spell, if there are so many. -/
def littleEndian? (width : Nat) (bs : List UInt8) : Option Nat :=
  if width ≤ bs.length then some (littleEndian (bs.take width)) else none

/-- The bits of a number from a position on. -/
def bits (n position width : Nat) : Nat := (n >>> position) % (1 <<< width)

/-- A number of so many bits with its highest bit as the sign. -/
def signed (width n : Nat) : Int :=
  if n < 1 <<< (width - 1) then n else (n : Int) - (1 <<< width : Nat)

/-- The address at a distance, around the end of the address space. -/
def displaced (a : Address) (distance : Int) : Address :=
  UInt64.ofNat (((a.toNat : Int) + distance) % 0x10000000000000000).toNat

/-- An address of 32 bits. -/
def narrow (a : Address) : Address := UInt64.ofNat (a.toNat % 0x100000000)

end FlowState.Machine
