import FlowState.Machine.Encoding

/-! # The x86 instruction sets

An instruction is a row of prefixes, an opcode, the bytes that say where its operands are, and an
immediate operand. The opcode tells which of these there are. A relative target counts from the end
of the instruction; of a far call or jump the segment is taken for the place it leads to. The
counting loops pass for ordinary instructions. -/

namespace FlowState.Machine.X86

/-- What the prefixes say. -/
structure Prefixes where
  /-- The number of bytes. -/
  length : Nat
  /-- Operands of 16 bits. -/
  short : Bool
  /-- Operands of 64 bits. -/
  wide : Bool
  /-- Addresses of the other width. -/
  address : Bool
  deriving Repr, DecidableEq

/-- A prefix other than those of operands of 64 bits. -/
def isPrefix (b : UInt8) : Bool :=
  b == 0x66 || b == 0x67 || b == 0xF0 || b == 0xF2 || b == 0xF3 || b == 0x2E || b == 0x36 ||
    b == 0x3E || b == 0x26 || b == 0x64 || b == 0x65

/-- The prefixes at the front and what follows them. -/
def prefixes (long : Bool) (bytes : List UInt8) : Prefixes × List UInt8 :=
  let row := bytes.takeWhile isPrefix
  let rest := bytes.drop row.length
  let p : Prefixes := ⟨row.length, row.contains 0x66, false, row.contains 0x67⟩
  match rest with
  | b :: r =>
    if long && 0x40 ≤ b && b ≤ 0x4F then
      ({ p with length := p.length + 1, wide := bits b.toNat 3 1 == 1 }, r)
    else (p, rest)
  | [] => (p, [])

/-- The bytes behind an opcode. -/
inductive Form where
  /-- Nothing. -/
  | bare
  /-- An immediate operand of so many bytes. -/
  | immediate (width : Nat)
  /-- Operands in registers and memory, and an immediate operand of so many bytes. -/
  | operands (width : Nat)
  deriving Repr, DecidableEq

/-- The width of an immediate operand that follows the width of the operands, up to 32 bits. -/
def operandWidth (p : Prefixes) : Nat := if p.short && !p.wide then 2 else 4

/-- The number of bytes that say where the operands are, with the displacement. -/
def operandBytes? (long : Bool) (p : Prefixes) (bytes : List UInt8) : Option Nat := do
  let m ← bytes.head?
  let mode := bits m.toNat 6 2
  let place := bits m.toNat 0 3
  if mode = 3 then some 1
  else if !long && p.address then
    some (if mode = 1 then 2 else if mode = 2 || place = 6 then 3 else 1)
  else if place = 4 then
    let s ← bytes[1]?
    some (if mode = 1 then 3 else if mode = 2 || bits s.toNat 0 3 = 5 then 6 else 2)
  else some (if mode = 1 then 2 else if mode = 2 || place = 5 then 5 else 1)

/-- The number in the middle of the first byte of the operands, which extends some opcodes. -/
def extension (bytes : List UInt8) : Nat := bits (bytes.headD 0).toNat 3 3

/-- The operand of a byte is in memory. -/
def inMemory (bytes : List UInt8) : Bool := bits (bytes.headD 0).toNat 6 2 != 3

/-! ### Opcodes of one byte -/

/-- The opcodes that mean nothing in words of 64 bits. -/
def isNarrowOnly (o : Nat) : Bool :=
  o == 0x06 || o == 0x07 || o == 0x0E || o == 0x16 || o == 0x17 || o == 0x1E || o == 0x1F ||
    o == 0x27 || o == 0x2F || o == 0x37 || o == 0x3F || o == 0x60 || o == 0x61 || o == 0x62 ||
    o == 0x82 || o == 0x9A || o == 0xC4 || o == 0xC5 || o == 0xCE || o == 0xD4 || o == 0xD5 ||
    o == 0xD6 || o == 0xEA

/-- The form of the eight operations on accumulators and memory. -/
def arithmeticForm (p : Prefixes) (o : Nat) : Form :=
  match bits o 0 3 with
  | 4 => .immediate 1
  | 5 => .immediate (operandWidth p)
  | 6 | 7 => .bare
  | _ => .operands 0

/-- The form of an opcode of one byte. -/
def form? (long : Bool) (p : Prefixes) (o : Nat) (rest : List UInt8) : Option Form :=
  if long && isNarrowOnly o then none
  else if o < 0x40 then some (arithmeticForm p o)
  else if o < 0x62 then some .bare
  else if o = 0x62 then some (.operands 0)
  else if o = 0x63 then some (.operands 0)
  else if o = 0x68 then some (.immediate (operandWidth p))
  else if o = 0x69 then some (.operands (operandWidth p))
  else if o = 0x6A then some (.immediate 1)
  else if o = 0x6B then some (.operands 1)
  else if o < 0x70 then some .bare
  else if o < 0x80 then some (.immediate 1)
  else if o = 0x81 then some (.operands (operandWidth p))
  else if o < 0x84 then some (.operands 1)
  else if o < 0x8F then some (.operands 0)
  else if o = 0x8F then (if extension rest = 0 then some (.operands 0) else none)
  else if o = 0x9A || o = 0xEA then some (.immediate (operandWidth p + 2))
  else if o < 0xA0 then some .bare
  else if o < 0xA4 then
    some (.immediate (if long then (if p.address then 4 else 8) else if p.address then 2 else 4))
  else if o = 0xA8 then some (.immediate 1)
  else if o = 0xA9 then some (.immediate (operandWidth p))
  else if o < 0xB0 then some .bare
  else if o < 0xB8 then some (.immediate 1)
  else if o < 0xC0 then some (.immediate (if p.wide then 8 else operandWidth p))
  else if o < 0xC2 then some (.operands 1)
  else if o = 0xC2 || o = 0xCA then some (.immediate 2)
  else if o = 0xC4 || o = 0xC5 then (if inMemory rest then some (.operands 0) else none)
  else if o = 0xC6 then (if extension rest = 0 then some (.operands 1) else none)
  else if o = 0xC7 then (if extension rest = 0 then some (.operands (operandWidth p)) else none)
  else if o = 0xC8 then some (.immediate 3)
  else if o = 0xCD then some (.immediate 1)
  else if o < 0xD0 then some .bare
  else if o < 0xD4 then some (.operands 0)
  else if o = 0xD4 || o = 0xD5 then some (.immediate 1)
  else if o < 0xD8 then some .bare
  else if o < 0xE0 then some (.operands 0)
  else if o < 0xE8 then some (.immediate 1)
  else if o < 0xEA then some (.immediate (if long then 4 else operandWidth p))
  else if o = 0xEB then some (.immediate 1)
  else if o < 0xF6 then some .bare
  else if o = 0xF6 then some (.operands (if extension rest < 2 then 1 else 0))
  else if o = 0xF7 then some (.operands (if extension rest < 2 then operandWidth p else 0))
  else if o < 0xFE then some .bare
  else if o = 0xFE then (if extension rest < 2 then some (.operands 0) else none)
  else if extension rest = 7 then none
  else if (extension rest = 3 || extension rest = 5) && !inMemory rest then none
  else some (.operands 0)

/-! ### Opcodes of two and three bytes -/

/-- An opcode behind the first escape that stands alone. -/
def isBareSecond (o : Nat) : Bool :=
  (0x05 ≤ o && o ≤ 0x09) || o == 0x0B || (0x30 ≤ o && o ≤ 0x37) || o == 0x77 ||
    (0xA0 ≤ o && o ≤ 0xA2) || (0xA8 ≤ o && o ≤ 0xAA) || (0xC8 ≤ o && o ≤ 0xCF)

/-- An opcode behind the first escape with operands and an immediate operand of one byte. -/
def isImmediateSecond (o : Nat) : Bool :=
  (0x70 ≤ o && o ≤ 0x73) || o == 0xA4 || o == 0xAC || o == 0xBA || o == 0xC2 || o == 0xC4 ||
    o == 0xC5 || o == 0xC6

/-- An opcode behind the first escape that means nothing. -/
def isVoidSecond (o : Nat) : Bool :=
  o == 0x04 || o == 0x0A || o == 0x0C || o == 0x0E || o == 0x0F || (0x24 ≤ o && o ≤ 0x27) ||
    o == 0x36 || o == 0x39 || (0x3B ≤ o && o ≤ 0x3F) || o == 0xA6 || o == 0xA7

/-- The form of an opcode behind the first escape. -/
def secondForm? (long : Bool) (p : Prefixes) (o : Nat) : Option Form :=
  if isVoidSecond o then none
  else if isBareSecond o then some .bare
  else if 0x80 ≤ o && o ≤ 0x8F then some (.immediate (if long then 4 else operandWidth p))
  else if isImmediateSecond o then some (.operands 1)
  else some (.operands 0)

/-! ### What an instruction does -/

/-- The place that a relative operand at the end of the instruction leads to. -/
def relative (long : Bool) (address : Address) (length width value : Nat) : Address :=
  let a := displaced address ((length : Int) + signed (8 * width) value)
  if long then a else narrow a

/-- The instructions that change the flow by an opcode of one byte; the immediate operand is given
with its width. -/
def flow (long : Bool) (address : Address) (o length width value : Nat) (rest : List UInt8) :
    Encoding :=
  let near (kind : InstructionKind) : Encoding :=
    .leading length kind (relative long address length width value)
  let far (kind : InstructionKind) : Encoding :=
    .leading length kind (UInt64.ofNat (value >>> (8 * (width - 2))))
  if o = 0xC2 || o = 0xC3 || o = 0xCA || o = 0xCB then .plain length .return
  else if o = 0xCC || o = 0xCD || o = 0xCE || o = 0xCF || o = 0xF1 || o = 0xF4 then
    .plain length .trap
  else if o = 0xE8 then near .directCall
  else if o = 0xE9 || o = 0xEB then near .directBranch
  else if (0x70 ≤ o && o ≤ 0x7F) || o = 0xE3 then near .conditionalBranch
  else if o = 0x9A then far .directCall
  else if o = 0xEA then far .directBranch
  else if o = 0xFF && (extension rest = 2 || extension rest = 3) then .plain length .indirectCall
  else if o = 0xFF && (extension rest = 4 || extension rest = 5) then .plain length .indirectBranch
  else .sequential length

/-- The instructions that change the flow by an opcode behind the first escape. -/
def secondFlow (long : Bool) (address : Address) (o length width value : Nat) : Encoding :=
  if o = 0x05 || o = 0x07 || o = 0x0B || o = 0x34 || o = 0x35 then .plain length .trap
  else if 0x80 ≤ o && o ≤ 0x8F then
    .leading length .conditionalBranch (relative long address length width value)
  else .sequential length

/-- The bytes that a form takes behind the opcode, and the immediate operand with its width. -/
def extent? (long : Bool) (p : Prefixes) (rest : List UInt8) : Form → Option (Nat × Nat × Nat)
  | .bare => some (0, 0, 0)
  | .immediate width => (littleEndian? width rest).map fun v => (width, width, v)
  | .operands width => do
    let n ← operandBytes? long p rest
    if rest.length < n + width then none else some (n + width, 0, 0)

/-- The longest instruction. -/
def lengthLimit : Nat := 15

/-- The encoding at the front of the bytes. -/
def encoding? (long : Bool) (address : Address) (bytes : List UInt8) : Option Encoding := do
  let (p, rest) := prefixes long bytes
  let e ← match rest with
    | [] => none
    | 0x0F :: 0x38 :: _ :: rest => do
      let (n, _, _) ← extent? long p rest (.operands 0)
      some (.sequential (p.length + 3 + n))
    | 0x0F :: 0x3A :: _ :: rest => do
      let (n, _, _) ← extent? long p rest (.operands 1)
      some (.sequential (p.length + 3 + n))
    | 0x0F :: o :: rest => do
      let form ← secondForm? long p o.toNat
      let (n, width, value) ← extent? long p rest form
      some (secondFlow long address o.toNat (p.length + 2 + n) width value)
    | [0x0F] => none
    | o :: rest => do
      let form ← form? long p o.toNat rest
      let (n, width, value) ← extent? long p rest form
      some (flow long address o.toNat (p.length + 1 + n) width value rest)
  if e.length ≤ lengthLimit then some e else none

/-- The instruction set with words of 32 or 64 bits. -/
def instructionSet (long : Bool) : InstructionSet where
  step := 1
  encoding? := encoding? long

end FlowState.Machine.X86
