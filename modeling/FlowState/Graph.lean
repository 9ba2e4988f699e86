import FlowState.Address.Table
import FlowState.Instruction

/-! # Block graphs

A decoded stream is put in the order of its addresses. Of several instructions at one address the
first one counts, and an empty encoding counts as none. Kinds may be overridden by address before
anything else happens. A first pass over the instructions collects the addresses that start a block:
targets of branches and calls, addresses that are asked for, and what stands behind a gap or behind
an instruction that ends blocks. A second pass cuts the instructions into blocks and files them in
tables, and a third one links the blocks. -/

namespace FlowState

/-- An edge to the block of an index. -/
structure Edge where
  target : Nat
  kind : EdgeKind
  deriving Repr, DecidableEq

/-- A run of instructions with one entry and one exit, and the edges out of it. -/
structure Block where
  id : Nat
  /-- The address where the block starts. -/
  start : Address
  /-- The address where the block ends. -/
  stop : Address
  /-- The index of the first instruction. -/
  first : Nat
  /-- The index behind the last instruction. -/
  limit : Nat
  /-- The kind of the last instruction. -/
  terminator : InstructionKind
  successors : List Edge
  deriving Repr, DecidableEq

/-- The address lies in the block. -/
def Block.covers (b : Block) (a : Address) : Bool := decide (b.start ≤ a) && decide (a < b.stop)

/-- The instructions and the blocks in the order of their addresses, with the tables that lead to
them. -/
structure BlockGraph where
  instructions : List Instruction
  blocks : List Block
  /-- The block that starts at an address. -/
  byStart : Table Nat
  /-- The index of the instruction at an address. -/
  byAddress : Table Nat
  /-- The block of the instruction of each index. -/
  blockOf : List Nat
  /-- The pairs of an instruction and a target where no block starts. -/
  unresolved : List (Address × Address)
  deriving Repr, DecidableEq

namespace BlockGraph

/-! ### Decoded instructions -/

/-- Places an instruction in front of those that do not lie before it. -/
def place (i : Instruction) : List Instruction → List Instruction
  | [] => [i]
  | j :: is => if i.address ≤ j.address then i :: j :: is else j :: place i is

/-- The instructions in the order of their addresses; those at one address keep their order. -/
def sort (is : List Instruction) : List Instruction := is.foldr place []

/-- Of an instruction and those behind it that share its address only the first one stays. -/
def dedupFrom (i : Instruction) : List Instruction → List Instruction
  | [] => [i]
  | j :: is => if j.address = i.address then dedupFrom i is else i :: dedupFrom j is

/-- Of neighbours at one address only the first one stays. -/
def dedup : List Instruction → List Instruction
  | [] => []
  | i :: is => dedupFrom i is

/-- The first instruction at each address that is not empty, in the order of the addresses. -/
def arena (stream : List Instruction) : List Instruction :=
  dedup ((sort stream).filter fun i => !i.bytes.isEmpty)

/-- The instruction with the kind that is asked for at its address. -/
def override (overrides : Table InstructionKind) (i : Instruction) : Instruction :=
  match overrides.get? i.address with
  | some k => { i with kind := k }
  | none => i

/-- **The decoded instructions** in the order of their addresses. -/
def decoded (stream : List Instruction) (overrides : Table InstructionKind) : List Instruction :=
  (arena stream).map (override overrides)

/-- The index of the instruction at each address. -/
def indexed (is : List Instruction) : Table Nat :=
  Table.ofList (is.zipIdx.map fun e => (e.1.address, e.2))

/-! ### Leaders -/

/-- The targets of an instruction that count. -/
def liveTargets (i : Instruction) : List Address :=
  if i.kind.targetEdge?.isSome then i.targets else []

/-- What an instruction makes a leader: its targets that are decoded, and the next instruction if
the first one ends blocks or does not reach up to it. -/
def leadersBehind (known : Table Nat) (i : Instruction) (next : Option Instruction) :
    List Address :=
  (liveTargets i).filter known.contains ++
    match next with
    | some j => if i.kind.endsBlock || j.address != i.stop then [j.address] else []
    | none => []

/-- The pass over the instructions that collects leaders. -/
def collectLeaders (known : Table Nat) : List Instruction → List Address
  | [] => []
  | i :: is => leadersBehind known i is.head? ++ collectLeaders known is

/-- **The addresses that start a block**: the first one, those that are asked for and decoded, and
those that instructions make leaders. -/
def leaders (is : List Instruction) (extra : List Address) : List Address :=
  (is.head?.map (·.address)).toList ++ extra.filter (indexed is).contains ++
    collectLeaders (indexed is) is

/-! ### Cutting -/

/-- How far the instructions are cut into blocks. -/
structure Cutting where
  /-- The index of the next instruction. -/
  index : Nat
  /-- The index of the first instruction that is in no block yet. -/
  first : Nat
  blocks : List Block
  byStart : Table Nat
  blockOf : List Nat
  deriving Repr, DecidableEq

namespace Cutting

/-- Nothing is cut yet. -/
def start : Cutting := ⟨0, 0, [], .empty, []⟩

/-- A block of the instructions that are in no block yet, up to the next one; it starts at the given
address. -/
def close (c : Cutting) (start : Address) (i : Instruction) : Cutting where
  index := c.index + 1
  first := c.index + 1
  blocks := c.blocks ++ [⟨c.blocks.length, start, i.stop, c.first, c.index + 1, i.kind, []⟩]
  byStart := c.byStart.insert start c.blocks.length
  blockOf := c.blockOf ++ List.replicate (c.index + 1 - c.first) c.blocks.length

end Cutting

/-- A block ends behind the instruction. -/
def endsHere (leaders : List Address) (i : Instruction) (next : Option Instruction) : Bool :=
  i.kind.endsBlock ||
    match next with
    | some j => j.address != i.stop || leaders.contains j.address
    | none => true

/-- One instruction of the pass that cuts: its block is closed, or stays open. -/
def cutStep (is : List Instruction) (leaders : List Address) (c : Cutting) (i : Instruction)
    (next : Option Instruction) : Cutting :=
  if endsHere leaders i next then c.close (is.getD c.first i).address i
  else { c with index := c.index + 1 }

/-- The pass that cuts, from an instruction on. -/
def cutFrom (is : List Instruction) (leaders : List Address) : Cutting → List Instruction → Cutting
  | c, [] => c
  | c, i :: rest => cutFrom is leaders (cutStep is leaders c i rest.head?) rest

/-- **The blocks without their edges, and the tables that lead to them.** -/
def cut (is : List Instruction) (leaders : List Address) : Cutting :=
  cutFrom is leaders .start is

/-! ### Linking -/

/-- One more edge, unless it is there already. -/
def pushUnique (es : List Edge) (e : Edge) : List Edge := if es.contains e then es else es ++ [e]

/-- The edges to the targets of an instruction. -/
def targetEdges (byStart : Table Nat) (i : Instruction) : List Edge :=
  match i.kind.targetEdge? with
  | some kind => i.targets.filterMap fun t => (byStart.get? t).map fun n => (⟨n, kind⟩ : Edge)
  | none => []

/-- The edge to the instruction behind, if execution may go on there. -/
def fallEdge (byStart : Table Nat) (i : Instruction) : List Edge :=
  if i.kind.fallsThrough then
    ((byStart.get? i.stop).map fun n => (⟨n, .fallthrough⟩ : Edge)).toList
  else []

/-- The edges out of a block that ends with the instruction: to the targets in their order, then to
the instruction behind, each once. -/
def edges (byStart : Table Nat) (i : Instruction) : List Edge :=
  (targetEdges byStart i ++ fallEdge byStart i).foldl pushUnique []

/-- The targets of an instruction where no block starts. -/
def lostTargets (byStart : Table Nat) (i : Instruction) : List (Address × Address) :=
  ((liveTargets i).filter fun t => !byStart.contains t).map fun t => (i.address, t)

/-- The last instruction of a block. -/
def lastOf? (g : BlockGraph) (b : Block) : Option Instruction := g.instructions[b.limit - 1]?

/-- The graph with the edges out of its blocks. -/
def link (g : BlockGraph) : BlockGraph :=
  { g with
    blocks := g.blocks.map fun b =>
      { b with successors := ((g.lastOf? b).map (edges g.byStart)).getD [] }
    unresolved := g.blocks.flatMap fun b => ((g.lastOf? b).map (lostTargets g.byStart)).getD [] }

/-- The graph of decoded instructions before it is linked. -/
def unlinked (is : List Instruction) (extra : List Address) : BlockGraph :=
  let c := cut is (leaders is extra)
  ⟨is, c.blocks, c.byStart, indexed is, c.blockOf, []⟩

/-- **The graph of a decoded stream.** -/
def build (stream : List Instruction) (overrides : Table InstructionKind) (extra : List Address) :
    BlockGraph :=
  link (unlinked (decoded stream overrides) extra)

/-! ### Look-up -/

/-- The graph without blocks. -/
def empty : BlockGraph := ⟨[], [], .empty, .empty, [], []⟩

instance : Inhabited BlockGraph := ⟨empty⟩

/-- The instructions between the two indices of a block. -/
def slice (g : BlockGraph) (b : Block) : List Instruction :=
  (g.instructions.drop b.first).take (b.limit - b.first)

/-- The blocks that follow a block, in the order of the edges. -/
def successors (g : BlockGraph) (n : Nat) : List Nat :=
  ((g.blocks[n]?).map fun b => b.successors.map (·.target)).getD []

/-- The instructions of a block. -/
def instructionsOf (g : BlockGraph) (n : Nat) : List Instruction :=
  ((g.blocks[n]?).map g.slice).getD []

/-- **The block that starts at an address.** -/
def blockStartingAt? (g : BlockGraph) (a : Address) : Option Nat := g.byStart.get? a

/-- **The block with an instruction at an address.** -/
def blockContaining? (g : BlockGraph) (a : Address) : Option Nat :=
  (g.byAddress.get? a).bind fun k => g.blockOf[k]?

/-- The instruction at an address. -/
def instructionAt? (g : BlockGraph) (a : Address) : Option Instruction :=
  (g.byAddress.get? a).bind fun k => g.instructions[k]?

end BlockGraph

end FlowState
