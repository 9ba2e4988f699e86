import FlowState.Graph

/-! # Reach

The blocks that are reached from an entry over the edges of a graph. With the stop rule on, a walk
does not enter a block that starts at another entry point. Blocks are visited in depth-first order,
the edges of a block in their order. -/

namespace FlowState

namespace BlockGraph

/-- A block that a walk from `entry` may enter. -/
def mayEnter (g : BlockGraph) (entry : Address) (entryPoints : List Address) (stop : Bool)
    (n : Nat) : Bool :=
  match g.blocks[n]? with
  | some b => !(stop && b.start != entry && entryPoints.contains b.start)
  | none => false

/-- The blocks that are not visited yet. -/
def unvisited (g : BlockGraph) (visited : List Nat) : List Nat :=
  (List.range g.blocks.length).filter fun n => !visited.contains n

theorem unvisited_cons (g : BlockGraph) (visited : List Nat) (n : Nat) :
    g.unvisited (n :: visited) = (g.unvisited visited).filter fun m => m != n := by
  unfold unvisited
  rw [List.filter_filter]
  refine List.filter_congr fun m _ => ?_
  rw [List.contains_cons, Bool.not_or]
  rfl

theorem length_unvisited_lt (g : BlockGraph) {visited : List Nat} {n : Nat}
    (hn : n < g.blocks.length) (hv : visited.contains n = false) :
    (g.unvisited (n :: visited)).length < (g.unvisited visited).length := by
  rw [unvisited_cons]
  refine List.length_filter_lt_length_iff_exists.mpr ⟨n, ?_, by simp⟩
  exact List.mem_filter.mpr ⟨List.mem_range.mpr hn, by rw [hv]; rfl⟩

/-- The walk: the blocks that are visited, the last one first, and the blocks to look at next. -/
def walk (g : BlockGraph) (enter : Nat → Bool) (visited stack : List Nat) : List Nat :=
  match stack with
  | [] => visited
  | n :: stack =>
    if _h : n < g.blocks.length ∧ visited.contains n = false then
      g.walk enter (n :: visited)
        ((g.successors n).filter (fun m => !(n :: visited).contains m && enter m) ++ stack)
    else g.walk enter visited stack
termination_by ((g.unvisited visited).length, stack.length)
decreasing_by
  · exact Prod.Lex.left _ _ (length_unvisited_lt g _h.1 _h.2)
  · exact Prod.Lex.right _ (by simp)

/-- **The blocks that are reached from an entry**, in the order of the visits. -/
def reach (g : BlockGraph) (entry : Address) (entryPoints : List Address) (stop : Bool) :
    List Nat :=
  match g.blockStartingAt? entry with
  | some n => (g.walk (g.mayEnter entry entryPoints stop) [] [n]).reverse
  | none => []

end BlockGraph

end FlowState
