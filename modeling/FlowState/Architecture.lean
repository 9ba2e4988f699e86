import FlowState.Json

/-! # Architectures

The instruction sets that images may have, with the names under which they are known. -/

namespace FlowState

/-- The instruction set of an image. -/
inductive Architecture where
  | x86
  | x86x64
  | arm
  | thumb
  | arm64
  | riscv32
  | riscv64
  /-- The instructions are listed in the image. -/
  | listing
  | unsupported (name : String)
  deriving Repr, DecidableEq

namespace Architecture

/-- The name of an architecture. -/
def name : Architecture → String
  | .x86 => "x86"
  | .x86x64 => "x86_64"
  | .arm => "arm"
  | .thumb => "thumb"
  | .arm64 => "arm64"
  | .riscv32 => "riscv32"
  | .riscv64 => "riscv64"
  | .listing => "listing"
  | .unsupported name => name

/-- The value that an architecture is written as. -/
def toJson : Architecture → Json
  | .riscv32 => .text "risc_v32"
  | .riscv64 => .text "risc_v64"
  | .unsupported name => .object [("unsupported", .text name)]
  | a => .text a.name

/-- The text with the letters from `A` to `Z` in lower case. -/
def lower (s : String) : String := String.ofList (s.toList.map Char.toLower)

/-- The names of the architectures, with those that mean the same. -/
def names : List (String × Architecture) :=
  [("x86", .x86), ("i386", .x86), ("x86_64", .x86x64), ("amd64", .x86x64), ("arm", .arm),
    ("armv7", .arm), ("thumb", .thumb), ("arm64", .arm64), ("aarch64", .arm64),
    ("riscv32", .riscv32), ("riscv64", .riscv64), ("riscv", .riscv64), ("listing", .listing)]

/-- **The architecture of a name**, letters of either case. -/
def ofName (s : String) : Architecture :=
  ((names.find? fun n => n.1 == lower s).map (·.2)).getD (.unsupported (lower s))

end Architecture

end FlowState
