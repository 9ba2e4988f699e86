import FlowState.Address

/-! # Instructions

A decoded instruction is its address, its encoding and its control-flow kind, with the targets that
are known from the encoding. The kind decides whether a basic block ends after the instruction,
whether execution may go on behind it, and which edge leads to its targets. -/

namespace FlowState

/-- The control-flow kind of an instruction. -/
inductive InstructionKind where
  | unknown
  | sequential
  | directCall
  | indirectCall
  | return
  | trap
  | directBranch
  | indirectBranch
  | conditionalBranch
  deriving Repr, DecidableEq, Inhabited, Hashable

/-- The kind of an edge between basic blocks. -/
inductive EdgeKind where
  | fallthrough
  | jump
  | conditionalJump
  | indirectJump
  | call
  | indirectCall
  deriving Repr, DecidableEq

namespace InstructionKind

/-- All kinds. -/
def all : List InstructionKind :=
  [.unknown, .sequential, .directCall, .indirectCall, .return, .trap, .directBranch,
    .indirectBranch, .conditionalBranch]

/-- The dotted name, which annotations and listings use. -/
def dotted : InstructionKind → String
  | .unknown => "unknown"
  | .sequential => "sequential"
  | .directCall => "call.direct"
  | .indirectCall => "call.indirect"
  | .return => "return"
  | .trap => "trap"
  | .directBranch => "branch.direct"
  | .indirectBranch => "branch.indirect"
  | .conditionalBranch => "branch.conditional"

/-- The kind of a dotted name; any other text is unknown. -/
def ofDotted (s : String) : InstructionKind := (all.find? fun k => k.dotted == s).getD .unknown

/-- The upper-case name, which reports use. -/
def display : InstructionKind → String
  | .unknown => "UNKNOWN"
  | .sequential => "SEQUENTIAL"
  | .directCall => "DIRECT_CALL"
  | .indirectCall => "INDIRECT_CALL"
  | .return => "RETURN"
  | .trap => "TRAP"
  | .directBranch => "DIRECT_BRANCH"
  | .indirectBranch => "INDIRECT_BRANCH"
  | .conditionalBranch => "CONDITIONAL_BRANCH"

/-- The kind of an upper-case name. -/
def ofDisplay? (s : String) : Option InstructionKind := all.find? fun k => k.display == s

/-- A basic block ends after an instruction of the kind. -/
def endsBlock : InstructionKind → Bool
  | .sequential | .unknown => false
  | _ => true

/-- Execution may go on behind an instruction of the kind. -/
def fallsThrough : InstructionKind → Bool
  | .sequential | .unknown | .directCall | .indirectCall | .conditionalBranch => true
  | _ => false

/-- The edge that leads to the targets of an instruction of the kind, if its targets count. -/
def targetEdge? : InstructionKind → Option EdgeKind
  | .directCall => some .call
  | .indirectCall => some .indirectCall
  | .directBranch => some .jump
  | .conditionalBranch => some .conditionalJump
  | .indirectBranch => some .indirectJump
  | _ => none

theorem ofDotted_dotted (k : InstructionKind) : ofDotted k.dotted = k := by
  cases k <;> decide

theorem ofDisplay?_display (k : InstructionKind) : ofDisplay? k.display = some k := by
  cases k <;> decide

theorem endsBlock_of_targetEdge? {k : InstructionKind} (h : k.targetEdge?.isSome) :
    k.endsBlock = true := by
  cases k <;> simp_all [targetEdge?, endsBlock]

end InstructionKind

/-- The name of an edge kind. -/
def EdgeKind.name : EdgeKind → String
  | .fallthrough => "fallthrough"
  | .jump => "jump"
  | .conditionalJump => "conditional_jump"
  | .indirectJump => "indirect_jump"
  | .call => "call"
  | .indirectCall => "indirect_call"

/-- A decoded instruction. -/
structure Instruction where
  address : Address
  /-- The encoding. -/
  bytes : List UInt8
  kind : InstructionKind
  /-- The targets of a branch or a call that are known from the encoding. -/
  targets : List Address := []
  /-- The instruction in assembly language. -/
  text : Option String := none
  deriving Repr, DecidableEq

/-- **The first address behind the instruction**; it does not run past the last address. -/
def Instruction.stop (i : Instruction) : Address := i.address.advance i.bytes.length

theorem Instruction.address_le_stop (i : Instruction) : i.address ≤ i.stop :=
  Address.le_advance _ _

end FlowState
