import FlowState.Image
import FlowState.Machine.Arm
import FlowState.Machine.Arm64
import FlowState.Machine.Riscv
import FlowState.Machine.Thumb
import FlowState.Machine.X86

/-! # The linear sweep

The executable segments of an image are swept one after another. In a segment the disassembler is
asked again and again: the sweep goes on behind the last instruction that it gave, or a step further
if it gave none. All segments share one output and one budget of instructions, and a row of
instructions is cut off in its middle where the budget ends. -/

namespace FlowState.Machine

/-- Where the sweep of a segment stands, and what has been put out so far. -/
structure Progress where
  offset : Nat
  instructions : List Instruction
  /-- The number of bytes that were passed over. -/
  skipped : Nat
  deriving Repr, DecidableEq

namespace Progress

/-- The budget allows one more instruction than so many. -/
def hasRoom (budget : Option Nat) (used : Nat) : Bool :=
  match budget with
  | some n => decide (used < n)
  | none => true

/-- The instructions of a row that the budget allows behind so many. -/
def taken (budget : Option Nat) (used : Nat) (is : List Instruction) : List Instruction :=
  match budget with
  | some n => is.take (n - used)
  | none => is

/-- The offset in a segment behind the last of some instructions, by its address. -/
def offsetBehind (s : Segment) (is : List Instruction) : Nat :=
  (is.getLast?.map fun i => (i.address - s.address).toNat + i.bytes.length).getD 0

/-- **One turn in a segment**, as long as there are bytes and the budget has room. `run` gives the
instructions from an address on, up to the first bytes that are none. -/
def turn (run : Address → List UInt8 → List Instruction) (step : Nat) (budget : Option Nat)
    (s : Segment) (p : Progress) : Option Progress :=
  if p.offset < s.bytes.length ∧ hasRoom budget p.instructions.length = true then
    match run (s.address + UInt64.ofNat p.offset) (s.bytes.drop p.offset) with
    | [] =>
      let n := min step (s.bytes.length - p.offset)
      some { p with offset := p.offset + n, skipped := p.skipped + n }
    | i :: is =>
      let new := taken budget p.instructions.length (i :: is)
      some { p with offset := offsetBehind s new, instructions := p.instructions ++ new }
  else none

/-- The turns in a segment, at most so many. -/
def turns (run : Address → List UInt8 → List Instruction) (step : Nat) (budget : Option Nat)
    (s : Segment) : Nat → Progress → Progress
  | 0, p => p
  | fuel + 1, p =>
    match turn run step budget s p with
    | none => p
    | some q => turns run step budget s fuel q

/-- The sweep of a segment behind what has been put out. Every turn takes a byte, so there are no
more turns than bytes. -/
def segment (run : Address → List UInt8 → List Instruction) (step : Nat) (budget : Option Nat)
    (p : Progress) (s : Segment) : Progress :=
  turns run step budget s s.bytes.length { p with offset := 0 }

end Progress

/-- What is decoded of the executable segments of an image. -/
def sweep (run : Address → List UInt8 → List Instruction) (step : Nat) (code : List Segment)
    (budget : Option Nat) : Decoded :=
  let p := code.foldl (Progress.segment run step budget) ⟨0, [], 0⟩
  { instructions := p.instructions, fault := none, skipped := p.skipped }

/-- The instructions from an address on, up to the first bytes that are none. -/
def InstructionSet.run (set : InstructionSet) : Nat → Address → List UInt8 → List Instruction
  | 0, _, _ => []
  | fuel + 1, a, bytes =>
    match set.encoding? a bytes with
    | some e =>
      if 0 < e.length && e.length ≤ bytes.length then
        e.instruction a bytes ::
          set.run fuel (a + UInt64.ofNat e.length) (bytes.drop e.length)
      else []
    | none => []

/-- The instructions at the front of the bytes at an address. -/
def InstructionSet.disassemble (set : InstructionSet) (a : Address) (bytes : List UInt8) :
    List Instruction :=
  set.run bytes.length a bytes

/-- The instruction set of an architecture. -/
def instructionSet? : Architecture → Option InstructionSet
  | .x86 => some (X86.instructionSet false)
  | .x86x64 => some (X86.instructionSet true)
  | .arm => some Arm.instructionSet
  | .thumb => some Thumb.instructionSet
  | .arm64 => some Arm64.instructionSet
  | .riscv32 => some (Riscv.instructionSet false)
  | .riscv64 => some (Riscv.instructionSet true)
  | .listing => none
  | .unsupported _ => none

/-- The instructions of an image, if a disassembler finds them by the instruction set of its
architecture. -/
def decodeWith (disassemble : InstructionSet → Address → List UInt8 → List Instruction) (i : Image)
    (budget : Option Nat) : Except ImageError Decoded :=
  match instructionSet? i.architecture with
  | some set => .ok (sweep (disassemble set) set.step i.code budget)
  | none => .error (.backend ("capstone has no mode for " ++ i.architecture.name))

/-- **The instructions of an image.** -/
def decode (i : Image) (budget : Option Nat) : Except ImageError Decoded :=
  decodeWith InstructionSet.disassemble i budget

end FlowState.Machine
