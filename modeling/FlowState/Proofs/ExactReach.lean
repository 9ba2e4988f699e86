import FlowState.Proofs.Cancellation
import FlowState.Proofs.FinerBlocks
import FlowState.Proofs.FunctionRegions
import Mathlib.Data.List.Chain
import Mathlib.Data.List.Infix

/-! # The reach of an entry is exact

The walk takes one block off its stack in each turn (`turn`). A turn that visits a block puts no
more blocks on the stack than the block has edges, and takes these edges off the ones that are left
(`edgesLeft_visit`). So the blocks on the stack and the edges that are left become fewer with every
turn, and the walk is over after at most one turn more than there are edges (`exists_turns`).

The blocks that are visited stay in their order behind the new ones (`suffix_walk`), so the reach
begins with the block of the entry. It holds the blocks at the ends of routes: paths of edges from
that block on which, with the stop rule on, no other entry point is entered
(`exists_route_iff`). -/

namespace FlowState

namespace BlockGraph

/-! ### Turns of the walk -/

/-- **One turn of the walk.** The first block of the stack is taken off. If it is not visited yet,
it is now, and the blocks behind it that are not visited and that may be entered are put in its
place. -/
def turn (g : BlockGraph) (enter : Nat → Bool) : List Nat × List Nat → List Nat × List Nat
  | (visited, []) => (visited, [])
  | (visited, n :: stack) =>
    if n ∈ visited then (visited, stack)
    else (n :: visited,
      (g.successors n).filter (fun m => !(n :: visited).contains m && enter m) ++ stack)

/-- The number of edges out of the blocks that are not visited. -/
def edgesLeft (g : BlockGraph) (visited : List Nat) : Nat :=
  ((g.unvisited visited).map fun n => (g.successors n).length).sum

theorem edgesLeft_nil (g : BlockGraph) : g.edgesLeft [] = g.edgeCount := by
  have hall : g.unvisited [] = List.range g.blocks.length := by
    unfold unvisited
    exact List.filter_eq_self.mpr fun _ _ => rfl
  have hblocks : (List.range g.blocks.length).map (fun n => (g.successors n).length) =
      g.blocks.map fun b => b.successors.length := by
    refine List.ext_getElem (by simp) fun n _ hn => ?_
    have hn : n < g.blocks.length := by simpa using hn
    simp [successors, List.getElem?_eq_getElem hn]
  unfold edgesLeft edgeCount edgesOut
  rw [hall, hblocks]

/-- A block that is visited takes its edges away. -/
theorem edgesLeft_visit {g : BlockGraph} {visited : List Nat} {n : Nat}
    (hn : n < g.blocks.length) (hv : n ∉ visited) :
    g.edgesLeft (n :: visited) + (g.successors n).length = g.edgesLeft visited := by
  have hmem : n ∈ g.unvisited visited := by
    unfold unvisited
    exact List.mem_filter.mpr ⟨List.mem_range.mpr hn, by simpa using hv⟩
  have hnodup : (g.unvisited visited).Nodup := List.nodup_range.filter _
  have herase : g.unvisited (n :: visited) = (g.unvisited visited).erase n := by
    rw [hnodup.erase_eq_filter, unvisited_cons]
  have hsum := List.sum_map_erase (fun m => (g.successors m).length) hmem
  unfold edgesLeft
  rw [herase]
  omega

section Turns
variable {g : BlockGraph} {enter : Nat → Bool}

theorem turn_visit {visited stack : List Nat} {n : Nat} (hv : n ∉ visited) :
    g.turn enter (visited, n :: stack) = (n :: visited,
      (g.successors n).filter (fun m => !(n :: visited).contains m && enter m) ++ stack) :=
  if_neg hv

theorem turn_skip {visited stack : List Nat} {n : Nat} (hv : n ∈ visited) :
    g.turn enter (visited, n :: stack) = (visited, stack) :=
  if_pos hv

/-- **The walk is over after so many turns**: at most one for each block on the stack, and one for
each edge that is left. -/
theorem exists_turns (henter : ∀ m, enter m = true → m < g.blocks.length) (visited stack : List Nat)
    (hstack : ∀ n ∈ stack, n < g.blocks.length) :
    ∃ k ≤ stack.length + g.edgesLeft visited,
      (g.turn enter)^[k] (visited, stack) = (g.walk enter visited stack, []) := by
  induction visited, stack using walk.induct g enter with
  | case1 visited =>
    refine ⟨0, Nat.zero_le _, ?_⟩
    rw [walk]
    rfl
  | case2 visited n stack hn ih =>
    have hv : n ∉ visited := by simpa using hn.2
    have hpushed : ∀ m ∈ (g.successors n).filter
        (fun m => !(n :: visited).contains m && enter m) ++ stack, m < g.blocks.length := by
      intro m hm
      rcases List.mem_append.mp hm with hm | hm
      · have he := (List.mem_filter.mp hm).2
        rw [Bool.and_eq_true] at he
        exact henter m he.2
      · exact hstack m (List.mem_cons_of_mem n hm)
    obtain ⟨k, hk, hrun⟩ := ih hpushed
    refine ⟨k + 1, ?_, ?_⟩
    · have hfilter := List.length_filter_le (fun m => !(n :: visited).contains m && enter m)
        (g.successors n)
      have hleft := edgesLeft_visit hn.1 hv
      rw [List.length_append] at hk
      rw [List.length_cons]
      omega
    · rw [Function.iterate_succ_apply, turn_visit hv, hrun, walk_visit hn.1 hv]
  | case3 visited n stack hn ih =>
    -- the block is one of the graph, so it is skipped because it is visited
    have hlt := hstack n List.mem_cons_self
    have hv : n ∈ visited := by
      by_contra hv
      exact hn ⟨hlt, by simpa using hv⟩
    obtain ⟨k, hk, hrun⟩ := ih fun m hm => hstack m (List.mem_cons_of_mem n hm)
    refine ⟨k + 1, ?_, ?_⟩
    · rw [List.length_cons]
      omega
    · rw [Function.iterate_succ_apply, turn_skip hv, hrun, walk_skip (by simpa using hn)]

theorem suffix_walk (g : BlockGraph) (enter : Nat → Bool) (visited stack : List Nat) :
    visited <:+ g.walk enter visited stack := by
  induction visited, stack using walk.induct g enter with
  | case1 visited =>
    rw [walk]
  | case2 visited n stack hn ih =>
    rw [walk_visit hn.1 (by simpa using hn.2)]
    exact (List.suffix_cons n visited).trans ih
  | case3 visited n stack hn ih =>
    rw [walk_skip (by simpa using hn)]
    exact ih

end Turns

/-- The reach begins with the block of the entry. -/
theorem head?_reach {g : BlockGraph} (hg : g.WellFormed) {entry : Address}
    (entryPoints : List Address) (stop : Bool) {n : Nat} (hn : g.blockStartingAt? entry = some n) :
    (g.reach entry entryPoints stop).head? = some n := by
  unfold reach
  simp only [hn]
  rw [walk_visit (hg.lt_of_blockStartingAt? hn) List.not_mem_nil, List.head?_reverse]
  obtain ⟨front, hfront⟩ := suffix_walk g (g.mayEnter entry entryPoints stop) [n] _
  rw [← hfront]
  exact List.getLast?_concat

/-! ### Routes -/

/-- **A route from the entry to a block**: it begins with the block of the entry, follows edges, and
with the stop rule on it enters no other entry point. -/
structure Route (g : BlockGraph) (entry : Address) (entryPoints : List Address) (stop : Bool)
    (first : Nat) (rest : List Nat) (n : Nat) : Prop where
  start : ∃ b, g.blocks[first]? = some b ∧ b.start = entry
  edges : (first :: rest).IsChain g.Follows
  entered : stop = true → ∀ j ∈ rest, ∃ b, g.blocks[j]? = some b ∧
    (b.start = entry ∨ b.start ∉ entryPoints)
  last : (first :: rest).getLast? = some n

theorem isChain_cons_and {α : Type} {R : α → α → Prop} {P : α → Prop} {l : List α} {a : α} :
    (a :: l).IsChain (fun x y => R x y ∧ P y) ↔ (a :: l).IsChain R ∧ ∀ x ∈ l, P x := by
  induction l generalizing a with
  | nil => simp
  | cons b l ih =>
    rw [List.isChain_cons_cons, List.isChain_cons_cons, ih, List.forall_mem_cons]
    tauto

/-- An edge of a built graph leads to a block. -/
theorem exists_block_of_follows {stream : List Instruction} {overrides : Table InstructionKind}
    {extra : List Address} {n m : Nat} (h : (build stream overrides extra).Follows n m) :
    ∃ b, (build stream overrides extra).blocks[m]? = some b := by
  have hg := build_wellFormed stream overrides extra
  obtain ⟨b, hb, e, he, rfl⟩ := h
  obtain ⟨i, -, hlast, -, -⟩ := hg.exists_last hb
  rw [successors_build hb hlast] at he
  obtain ⟨a, ha⟩ := exists_start_of_mem_edges he
  obtain ⟨d, hd, -⟩ := (hg.starts a e.target).mp ha
  exact ⟨d, hd⟩

section Routes
variable {g : BlockGraph} {entry : Address} {entryPoints : List Address} {stop : Bool}

/-- The blocks of a route behind its first one may be entered. -/
theorem Route.mayEnter (hedges : ∀ n m, g.Follows n m → ∃ b, g.blocks[m]? = some b)
    {first n : Nat} {rest : List Nat} (h : g.Route entry entryPoints stop first rest n) :
    ∀ j ∈ rest, g.mayEnter entry entryPoints stop j = true := by
  intro j hj
  rw [mayEnter_iff]
  cases hstop : stop with
  | true =>
    obtain ⟨b, hb, hs⟩ := h.entered hstop j hj
    exact ⟨b, hb, hs.imp_right Or.inr⟩
  | false =>
    -- nothing is asked of the block but that it is there, and an edge leads to it
    have hbehind : ∀ j ∈ rest, ∃ i, g.Follows i j :=
      (isChain_cons_and.mp (h.edges.imp fun i j hij => ⟨hij, i, hij⟩)).2
    obtain ⟨i, hi⟩ := hbehind j hj
    obtain ⟨b, hb⟩ := hedges i j hi
    exact ⟨b, hb, Or.inr (Or.inl rfl)⟩

/-- The edges that a walk follows are those of its routes. -/
theorem exists_route_iff (hg : g.WellFormed)
    (hedges : ∀ n m, g.Follows n m → ∃ b, g.blocks[m]? = some b) {n : Nat} :
    (∃ m, g.blockStartingAt? entry = some m ∧
      Relation.ReflTransGen (g.Enters entry entryPoints stop) m n) ↔
    ∃ first rest, g.Route entry entryPoints stop first rest n := by
  constructor
  · rintro ⟨m, hm, hpath⟩
    obtain ⟨l, hl, hlast⟩ := List.exists_isChain_cons_of_relationReflTransGen hpath
    obtain ⟨hchain, hmay⟩ := isChain_cons_and.mp hl
    refine ⟨m, l, hg.blockStartingAt?_eq_some.mp hm, hchain, fun hstop j hj => ?_, ?_⟩
    · obtain ⟨b, hb, hs⟩ := mayEnter_iff.mp (hmay j hj)
      refine ⟨b, hb, ?_⟩
      rcases hs with hs | hs | hs
      · exact Or.inl hs
      · rw [hstop] at hs
        cases hs
      · exact Or.inr hs
    · rw [List.getLast?_eq_some_getLast (List.cons_ne_nil m l), hlast]
  · rintro ⟨m, l, hroute⟩
    refine ⟨m, hg.blockStartingAt?_eq_some.mpr hroute.start, ?_⟩
    have hlast := hroute.last
    rw [List.getLast?_eq_some_getLast (List.cons_ne_nil m l), Option.some.injEq] at hlast
    exact List.relationReflTransGen_of_exists_isChain_cons l
      (isChain_cons_and.mpr ⟨hroute.edges, hroute.mayEnter hedges⟩) hlast

end Routes

/-! ### The reach -/

/-- **The list is the reach of the entry**: the walk ends with it, it holds no block twice, it is
empty only if no block starts at the entry, and otherwise it begins with that block and holds the
blocks that a route leads to. -/
structure ReachExact (g : BlockGraph) (entry : Address) (entryPoints : List Address) (stop : Bool)
    (r : List Nat) : Prop where
  ends : ∀ n b, g.blocks[n]? = some b → b.start = entry → ∃ k ≤ 1 + g.edgeCount,
    (g.turn (g.mayEnter entry entryPoints stop))^[k] ([], [n]) = (r.reverse, [])
  nodup : r.Nodup
  empty : r = [] ↔ ∀ b ∈ g.blocks, b.start ≠ entry
  first : ∀ n b, g.blocks[n]? = some b → b.start = entry → r.head? = some n
  routes : ∀ n, n ∈ r ↔ ∃ first rest, g.Route entry entryPoints stop first rest n

/-- The walk over the graph of every stream finds the reach of every entry. -/
theorem build_reachExact (stream : List Instruction) (overrides : Table InstructionKind)
    (extra : List Address) (entry : Address) (entryPoints : List Address) (stop : Bool) :
    (build stream overrides extra).ReachExact entry entryPoints stop
      ((build stream overrides extra).reach entry entryPoints stop) := by
  have hg := build_wellFormed stream overrides extra
  generalize hbuild : build stream overrides extra = g at hg ⊢
  have hedges : ∀ n m, g.Follows n m → ∃ b, g.blocks[m]? = some b := by
    rw [← hbuild]
    exact fun n m h => exists_block_of_follows h
  refine ⟨fun n b hb hs => ?_, nodup_reach g entry entryPoints stop, ?_, fun n b hb hs => ?_,
    fun n => (mem_reach_iff hg).trans (exists_route_iff hg hedges)⟩
  · have hn := hg.blockStartingAt?_eq_some.mpr ⟨b, hb, hs⟩
    have hstack : ∀ m ∈ [n], m < g.blocks.length := by
      intro m hm
      rw [List.mem_singleton.mp hm]
      exact hg.lt_of_blockStartingAt? hn
    obtain ⟨k, hk, hrun⟩ := exists_turns (fun m hm => lt_of_mayEnter hm) [] [n] hstack
    rw [edgesLeft_nil] at hk
    refine ⟨k, hk, ?_⟩
    unfold reach
    simp only [hn, List.reverse_reverse]
    exact hrun
  · constructor
    · intro hnil b hb hs
      obtain ⟨n, hn⟩ := List.mem_iff_getElem?.mp hb
      have hhead := head?_reach hg entryPoints stop (hg.blockStartingAt?_eq_some.mpr ⟨b, hn, hs⟩)
      rw [hnil] at hhead
      cases hhead
    · intro hnone
      have hstart : g.blockStartingAt? entry = none := by
        rw [Option.eq_none_iff_forall_ne_some]
        intro n hn
        obtain ⟨b, hb, hs⟩ := hg.blockStartingAt?_eq_some.mp hn
        exact hnone b (List.mem_of_getElem? hb) hs
      unfold reach
      simp only [hstart]
  · exact head?_reach hg entryPoints stop (hg.blockStartingAt?_eq_some.mpr ⟨b, hb, hs⟩)

end BlockGraph

end FlowState
