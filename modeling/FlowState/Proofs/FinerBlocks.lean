import FlowState.Proofs.FallThrough
import FlowState.Proofs.FirstOccurrences
import FlowState.Proofs.Runs
import Mathlib.Data.List.Permutation

/-! # Finer blocks

In a stream without overlap the edges out of a block lead to the addresses `ahead` of its last
instruction, and these depend on the decoded instructions alone (`map_successors`). So a path of the
state walk goes on to the same addresses however the instructions are cut into blocks: inside a
block to the next instruction, which is all that is ahead (`onward_of_joined`), and at its end to
what is ahead and may be entered (`onward_of_cut`). More leaders cut more blocks, but a path enters
the new ones unless one of them starts at an entry point (`onward_finer`). A run depends on the
graph only through the instructions and through where paths go on (`Runs.congr`), and it has one
result (`Runs.unique`). -/

namespace FlowState

/-! ### What is ahead of an instruction -/

namespace BlockGraph

/-- An instruction is decoded at the address. -/
def isDecoded (is : List Instruction) (a : Address) : Bool := is.any fun i => i.address == a

/-- **The addresses ahead of an instruction**: its targets, each once, and where it stops. -/
def ahead (is : List Instruction) (i : Instruction) : List Address :=
  ((liveTargets i).filter (isDecoded is)).eraseDups ++
    if i.kind.fallsThrough then [i.stop].filter (isDecoded is) else []

/-- The start of the block that an edge leads to. -/
def edgeStart (g : BlockGraph) (e : Edge) : Address :=
  ((g.blocks[e.target]?).map Block.start).getD 0

theorem isDecoded_iff {is : List Instruction} {a : Address} :
    isDecoded is a = true ↔ ∃ i ∈ is, i.address = a := by
  simp [isDecoded]

section Edges
variable {g : BlockGraph} (hg : g.WellFormed)
include hg

theorem edgeStart_of_get? {a : Address} {n : Nat} (h : g.byStart.get? a = some n)
    (kind : EdgeKind) : g.edgeStart ⟨n, kind⟩ = a := by
  obtain ⟨b, hb, hs⟩ := (hg.starts a n).mp h
  simp [edgeStart, hb, hs]

theorem map_targetEdges (i : Instruction) :
    (targetEdges g.byStart i).eraseDups.map g.edgeStart =
      ((liveTargets i).filter fun t => (g.byStart.get? t).isSome).eraseDups := by
  unfold targetEdges liveTargets
  cases i.kind.targetEdge? with
  | none => simp
  | some kind =>
    dsimp only
    rw [FirstOccurrences.map_eraseDups_filterMap]
    · simp
    · intro t e he
      obtain ⟨n, hn, rfl⟩ := Option.map_eq_some_iff.mp he
      exact edgeStart_of_get? hg hn kind

theorem map_fallEdge (i : Instruction) :
    (fallEdge g.byStart i).map g.edgeStart =
      if i.kind.fallsThrough then [i.stop].filter fun t => (g.byStart.get? t).isSome
      else [] := by
  unfold fallEdge
  split_ifs with hf
  · cases hn : g.byStart.get? i.stop with
    | none => simp [hn]
    | some n => simp [hn, edgeStart_of_get? hg hn]
  · rfl

end Edges

/-- Every edge leads to where a block starts. -/
theorem exists_start_of_mem_edges {byStart : Table Nat} {i : Instruction} {e : Edge}
    (h : e ∈ edges byStart i) : ∃ a, byStart.get? a = some e.target := by
  rw [edges_eq] at h
  rcases List.mem_append.mp h with h | h
  · obtain ⟨-, t, -, ht⟩ := mem_targetEdges.mp (List.mem_eraseDups.mp h)
    exact ⟨t, ht⟩
  · exact ⟨i.stop, (mem_fallEdge.mp h).2.2⟩

section Ahead
variable {stream : List Instruction} {overrides : Table InstructionKind} {extra : List Address}

theorem decoded_of_startsBlock {a : Address}
    (h : (build stream overrides extra).StartsBlock a) :
    ∃ i ∈ decoded stream overrides, i.address = a := by
  obtain ⟨n, hn⟩ := h
  have hg := build_wellFormed stream overrides extra
  obtain ⟨b, hb, rfl⟩ := hg.blockStartingAt?_eq_some.mp hn
  obtain ⟨i, rest, hi, hs⟩ := hg.head_of_getElem? hb
  have hin : i ∈ (build stream overrides extra).instructionsOf n := by
    rw [instructionsOf_of_getElem? hb, hi]
    exact List.mem_cons_self
  exact ⟨i, mem_decoded_of_mem hin, hs⟩

/-- A block starts at an address exactly if an instruction is decoded there, provided that every
instruction there would start a block. -/
theorem isSome_byStart {a : Address}
    (h : ∀ j ∈ decoded stream overrides, j.address = a →
      (build stream overrides extra).StartsBlock a) :
    ((build stream overrides extra).byStart.get? a).isSome =
      isDecoded (decoded stream overrides) a := by
  rw [Bool.eq_iff_iff, isDecoded_iff, Option.isSome_iff_exists]
  constructor
  · exact decoded_of_startsBlock
  · rintro ⟨j, hj, ha⟩
    exact h j hj ha

/-- A block starts at a target that counts exactly if an instruction is decoded there. -/
theorem isSome_byStart_target {i : Instruction} (hi : i ∈ decoded stream overrides)
    {t : Address} (ht : t ∈ liveTargets i) :
    ((build stream overrides extra).byStart.get? t).isSome =
      isDecoded (decoded stream overrides) t := by
  obtain ⟨hk, ht⟩ := mem_liveTargets.mp ht
  refine isSome_byStart fun j hj ha => ?_
  rw [← ha]
  exact (startsBlock_iff_leads hj).mpr (Or.inr (Or.inr (Or.inl ⟨i, hi, hk, by rw [ha]; exact ht⟩)))

/-- **The edges out of a block** lead to what is ahead of its last instruction. -/
theorem map_successors (hno : NoOverlap stream) {n : Nat} {b : Block} {i : Instruction}
    (hb : (build stream overrides extra).blocks[n]? = some b)
    (hi : ((build stream overrides extra).slice b).getLast? = some i)
    (hmem : i ∈ decoded stream overrides) :
    b.successors.map (build stream overrides extra).edgeStart =
      ahead (decoded stream overrides) i := by
  have hg := build_wellFormed stream overrides extra
  rw [successors_build hb hi, edges_eq, List.map_append, map_targetEdges hg, map_fallEdge hg]
  unfold ahead
  congr 1
  · congr 1
    exact List.filter_congr fun t ht => isSome_byStart_target hmem ht
  · split_ifs
    · refine List.filter_congr fun t ht => isSome_byStart fun j hj ha => ?_
      rw [List.mem_singleton.mp ht] at ha ⊢
      exact hno.startsBlock_stop hb hi hj ha
    · rfl

/-- Inside a block only the next instruction is ahead. -/
theorem ahead_of_joined {ls rest : List Instruction} {ms : List Address} {i j : Instruction}
    {is : List Instruction} (h : is = ls ++ i :: j :: rest) (hij : joined ms i j = true) :
    ahead is i = [j.address] := by
  obtain ⟨hend, hstop, -⟩ := joined_eq_true.mp hij
  have htargets : liveTargets i = [] := by
    unfold liveTargets
    refine if_neg fun ht => ?_
    rw [InstructionKind.endsBlock_of_targetEdge? ht] at hend
    cases hend
  have hfall : i.kind.fallsThrough = true := by
    cases hk : i.kind <;> simp_all [InstructionKind.endsBlock, InstructionKind.fallsThrough]
  have hdec : isDecoded is j.address = true :=
    isDecoded_iff.mpr ⟨j, by rw [h]; simp, rfl⟩
  unfold ahead
  rw [htargets, if_pos hfall, ← hstop]
  simp [hdec]

end Ahead

end BlockGraph

/-! ### Where a path goes on -/

open BlockGraph

/-- A path from `root` may enter a block that starts at the address. -/
def passes (input : WalkInput) (root a : Address) : Bool :=
  !(input.stopAtEntryPoints && a != root && input.entryPoints.contains a)

section Onward
variable {stream : List Instruction} {overrides : Table InstructionKind} {extra : List Address}
  {input : WalkInput} (hgraph : input.graph = build stream overrides extra)
include hgraph

theorem wellFormed_of_build : input.graph.WellFormed := by
  rw [hgraph]
  exact build_wellFormed stream overrides extra

theorem onward_of_joined {ls rest : List Instruction} {i j : Instruction}
    (h : decoded stream overrides = ls ++ i :: j :: rest)
    (hij : joined (leaders (decoded stream overrides) extra) i j = true) (root : Address) :
    onward input root i.address = ahead (decoded stream overrides) i := by
  obtain ⟨n, as, bs, hn⟩ := build_joined h hij
  rw [← hgraph] at hn
  rw [onward_inside (wellFormed_of_build hgraph) hn, ahead_of_joined h hij]

theorem exits_eq_filter_ahead (hno : NoOverlap stream) {n : Nat} {as : List Instruction}
    {i : Instruction} (hs : (build stream overrides extra).instructionsOf n = as ++ [i])
    (root : Address) :
    exits input root n = (ahead (decoded stream overrides) i).filter (passes input root) := by
  have hin : i ∈ (build stream overrides extra).instructionsOf n := by rw [hs]; simp
  have hmem := mem_decoded_of_mem hin
  obtain ⟨b, hb, -⟩ := exists_block_of_mem hin
  rw [instructionsOf_of_getElem? hb] at hs
  have hi : ((build stream overrides extra).slice b).getLast? = some i := by rw [hs]; simp
  have hsucc : input.graph.successors n = b.successors.map (·.target) := by
    unfold BlockGraph.successors
    rw [hgraph, hb]
    rfl
  unfold exits
  rw [hsucc, ← map_successors hno hb hi hmem, ← List.filterMap_eq_filter, List.filterMap_map,
    List.filterMap_map]
  refine List.filterMap_congr fun e he => ?_
  rw [successors_build hb hi] at he
  obtain ⟨a, ha⟩ := exists_start_of_mem_edges he
  have hg := build_wellFormed stream overrides extra
  have hstart : (build stream overrides extra).edgeStart e = a := edgeStart_of_get? hg ha e.kind
  obtain ⟨d, hd, rfl⟩ := (hg.starts a e.target).mp ha
  simp only [Function.comp_apply, mayEnter, hgraph, hd, hstart, Option.guard, passes,
    Option.map_some]

theorem onward_of_cut (hno : NoOverlap stream) {n : Nat} {as : List Instruction} {i : Instruction}
    (hs : (build stream overrides extra).instructionsOf n = as ++ [i]) (root : Address) :
    onward input root i.address =
      (ahead (decoded stream overrides) i).filter (passes input root) := by
  have hn : input.graph.instructionsOf n = as ++ [i] := by rw [hgraph]; exact hs
  rw [onward_last (wellFormed_of_build hgraph) hn, exits_eq_filter_ahead hgraph hno hs]

theorem onward_of_not_decoded {a : Address} (h : ∀ i ∈ decoded stream overrides, i.address ≠ a)
    (root : Address) : onward input root a = [] := by
  unfold onward
  cases hn : input.graph.blockContaining? a with
  | none => rfl
  | some n =>
    obtain ⟨i, hi, ha⟩ := (wellFormed_of_build hgraph).blockContaining?_eq_some.mp hn
    rw [hgraph] at hi
    exact absurd ha (h i (mem_decoded_of_mem hi))

end Onward

section Finer
variable {is : List Instruction} (his : Increasing is) {extra extra' : List Address}
  {ls rest : List Instruction} {i j : Instruction} (hs : is = ls ++ i :: j :: rest)
include his hs

theorem joined_of_subset (hsub : ∀ a ∈ extra, a ∈ extra')
    (h : joined (leaders is extra') i j = true) : joined (leaders is extra) i j = true := by
  by_contra hcut
  rw [Bool.not_eq_true, joined_eq_false his hs] at hcut
  have hcut' : joined (leaders is extra') i j = false :=
    (joined_eq_false his hs).mpr (hcut.imp_right (Or.imp_left (hsub _)))
  rw [h] at hcut'
  cases hcut'

/-- Neighbours that only the finer leaders cut are cut by a leader that is new. -/
theorem mem_extra_of_cut (h : joined (leaders is extra) i j = true)
    (h' : joined (leaders is extra') i j = false) : j.address ∈ extra' ∧ j.address ∉ extra := by
  have hnot : ¬ Leads is extra j := by
    rw [← joined_eq_false his hs, h]
    exact Bool.noConfusion
  unfold Leads at hnot
  simp only [not_or] at hnot
  rcases (joined_eq_false his hs).mp h' with hfirst | hextra | htarget | hbehind
  · exact absurd hfirst hnot.1
  · exact ⟨hextra, hnot.2.1⟩
  · exact absurd htarget hnot.2.2.1
  · exact absurd hbehind hnot.2.2.2

end Finer

/-- The walk over another graph. -/
def WalkInput.on (input : WalkInput) (g : BlockGraph) : WalkInput := { input with graph := g }

theorem WalkInput.graph_on (input : WalkInput) (g : BlockGraph) : (input.on g).graph = g := rfl

theorem passes_on (input : WalkInput) (g : BlockGraph) (root : Address) :
    passes (input.on g) root = passes input root := rfl

theorem stepInstruction_on (input : WalkInput) (g : BlockGraph) (i : Instruction) (s : StateValue) :
    stepInstruction (input.on g) i s = stepInstruction input i s := rfl

/-- **More leaders do not change where a path goes on.** -/
theorem onward_finer {stream : List Instruction} (overrides : Table InstructionKind)
    {extra extra' : List Address} (input : WalkInput) (hno : NoOverlap stream)
    (hsub : ∀ a ∈ extra, a ∈ extra')
    (hstop : input.stopAtEntryPoints = false ∨
      ∀ a ∈ extra', a ∉ extra → a ∉ input.entryPoints) (root a : Address) :
    onward (input.on (build stream overrides extra)) root a =
      onward (input.on (build stream overrides extra')) root a := by
  have hc := input.graph_on (build stream overrides extra)
  have hf := input.graph_on (build stream overrides extra')
  by_cases hdec : ∃ i ∈ decoded stream overrides, i.address = a
  · obtain ⟨i, hi, rfl⟩ := hdec
    obtain ⟨ls, rest, hs⟩ := List.append_of_mem hi
    cases rest with
    | nil =>
      obtain ⟨n, as, hn⟩ := build_last extra hs
      obtain ⟨m, bs, hm⟩ := build_last extra' hs
      rw [onward_of_cut hc hno hn, onward_of_cut hf hno hm, passes_on, passes_on]
    | cons j rest =>
      cases hij : joined (leaders (decoded stream overrides) extra) i j with
      | false =>
        have hij' : joined (leaders (decoded stream overrides) extra') i j = false := by
          refine Bool.eq_false_iff.mpr fun h => ?_
          rw [joined_of_subset (pairwise_decoded stream overrides) hs hsub h] at hij
          cases hij
        obtain ⟨⟨n, as, hn⟩, -⟩ := build_cut hs hij
        obtain ⟨⟨m, bs, hm⟩, -⟩ := build_cut hs hij'
        rw [onward_of_cut hc hno hn, onward_of_cut hf hno hm, passes_on, passes_on]
      | true =>
        rw [onward_of_joined hc hs hij]
        cases hij' : joined (leaders (decoded stream overrides) extra') i j with
        | true => rw [onward_of_joined hf hs hij']
        | false =>
          -- the new leader is no entry point, so the path goes on across the new boundary
          obtain ⟨hnew, hold⟩ :=
            mem_extra_of_cut (pairwise_decoded stream overrides) hs hij hij'
          obtain ⟨⟨m, bs, hm⟩, -⟩ := build_cut hs hij'
          have hgo : passes input root j.address = true := by
            unfold passes
            rcases hstop with hoff | hentry
            · simp [hoff]
            · simp [hentry j.address hnew hold]
          rw [onward_of_cut hf hno hm, passes_on, ahead_of_joined hs hij, List.filter_singleton,
            hgo]
          rfl
  · have hdec' : ∀ i ∈ decoded stream overrides, i.address ≠ a := fun i hi ha => hdec ⟨i, hi, ha⟩
    rw [onward_of_not_decoded hc hdec', onward_of_not_decoded hf hdec']

/-! ### Runs -/

/-- A run depends on the graph only through its instructions and through where paths go on. -/
theorem Runs.congr {input input' : WalkInput}
    (hat : ∀ a, input'.graph.instructionAt? a = input.graph.instructionAt? a)
    (hstep : ∀ i s, stepInstruction input' i s = stepInstruction input i s)
    (hon : ∀ root a, onward input' root a = onward input root a) {p : Pass} {cs : List Carried}
    {r : Except StateError Pass} (h : Runs input p cs r) : Runs input' p cs r := by
  induction h with
  | done p => exact .done p
  | lost hi _ ih => exact .lost (by rw [hat]; exact hi) ih
  | meet hi hp _ ih => exact .meet (by rw [hat]; exact hi) hp ih
  | visit hi hp hs _ ih =>
    refine .visit (by rw [hat]; exact hi) hp (by rw [hstep]; exact hs) ?_
    unfold sendOn at ih ⊢
    rw [hon]
    exact ih
  | fail hi hp hs => exact .fail (by rw [hat]; exact hi) hp (by rw [hstep]; exact hs)

/-- **A run has one result.** -/
theorem Runs.unique {input : WalkInput} {p : Pass} {cs : List Carried}
    {r r' : Except StateError Pass} (h : Runs input p cs r) (h' : Runs input p cs r') : r = r' := by
  induction h generalizing r' with
  | done p =>
    cases h'
    rfl
  | lost hi _ ih =>
    cases h' with
    | lost _ hrun => exact ih hrun
    | meet hi' => rw [hi] at hi'; cases hi'
    | visit hi' => rw [hi] at hi'; cases hi'
    | fail hi' => rw [hi] at hi'; cases hi'
  | meet hi hp _ ih =>
    cases h' with
    | lost hi' => rw [hi] at hi'; cases hi'
    | meet _ hp' hrun =>
      rw [hp] at hp'
      cases hp'
      exact ih hrun
    | visit _ hp' => rw [hp] at hp'; cases hp'
    | fail _ hp' => rw [hp] at hp'; cases hp'
  | visit hi hp hs _ ih =>
    cases h' with
    | lost hi' => rw [hi] at hi'; cases hi'
    | meet _ hp' => rw [hp] at hp'; cases hp'
    | visit hi' _ hs' hrun =>
      rw [hi] at hi'
      cases hi'
      rw [hs] at hs'
      cases hs'
      exact ih hrun
    | fail hi' _ hs' =>
      rw [hi] at hi'
      cases hi'
      rw [hs] at hs'
      cases hs'
  | fail hi hp hs =>
    cases h' with
    | lost hi' => rw [hi] at hi'; cases hi'
    | meet _ hp' => rw [hp] at hp'; cases hp'
    | visit hi' _ hs' =>
      rw [hi] at hi'
      cases hi'
      rw [hs] at hs'
      cases hs'
    | fail hi' _ hs' =>
      rw [hi] at hi'
      cases hi'
      rw [hs] at hs'
      cases hs'
      rfl

/-! ### Two calculations -/

/-- The pass over finer blocks is the same, but for the questions whether to stop. -/
theorem propagate_finer {stream : List Instruction} (overrides : Table InstructionKind)
    {extra extra' : List Address} (input : WalkInput) (hcancel : ∀ k, input.cancelled k = false)
    (hno : NoOverlap stream) (hsub : ∀ a ∈ extra, a ∈ extra')
    (hstop : input.stopAtEntryPoints = false ∨
      ∀ a ∈ extra', a ∉ extra → a ∉ input.entryPoints) (seeds : List (Address × StateValue)) :
    (propagate (input.on (build stream overrides extra)) seeds).map Pass.quiet =
      (propagate (input.on (build stream overrides extra')) seeds).map Pass.quiet := by
  have hruns : ∀ ls, Runs (input.on (build stream overrides ls)) .start
      (seeds.map Carried.ofSeed)
      ((propagate (input.on (build stream overrides ls)) seeds).map Pass.quiet) :=
    fun ls => runs_propagate (build_wellFormed stream overrides ls) seeds fun _ _ => hcancel
  refine Runs.unique ?_ (hruns extra')
  refine (hruns extra).congr (fun a => ?_) (fun i s => ?_) fun root a => ?_
  · rw [input.graph_on, input.graph_on]
    unfold instructionAt?
    rw [instructions_build, instructions_build, byAddress_build, byAddress_build]
  · rw [stepInstruction_on, stepInstruction_on]
  · exact (onward_finer overrides input hno hsub hstop root a).symm

namespace Calculator

/-- What a calculation keeps of a pass does not count the questions whether to stop. -/
theorem calculate_on {c : Calculator} (hready : c.prepared = true) (input : CalculatorInput)
    (g : BlockGraph) (cancelled : Nat → Bool) :
    c.calculate { input with graph := g } cancelled =
      c.conclude ((propagate ((c.walkInput input cancelled).on g) c.seeds).map Pass.quiet) := by
  have hwalk : c.walkInput { input with graph := g } cancelled =
      (c.walkInput input cancelled).on g := rfl
  unfold calculate
  rw [if_pos hready, hwalk]
  cases propagate ((c.walkInput input cancelled).on g) c.seeds <;> rfl

/-- **Block boundaries do not influence states.** With more leaders, none of them an entry point
where paths stop, a calculation gives the same tables and the same fixups, or the same error. -/
theorem calculate_finer {stream : List Instruction} {overrides : Table InstructionKind}
    {extra extra' : List Address} (c : Calculator) (input : CalculatorInput)
    (hno : NoOverlap stream) (hsub : ∀ a ∈ extra, a ∈ extra')
    (hstop : c.stopAtEntryPoints = false ∨ ∀ a ∈ extra', a ∉ extra → a ∉ input.entryPoints) :
    c.calculate { input with graph := .build stream overrides extra } (fun _ => false) =
      c.calculate { input with graph := .build stream overrides extra' } (fun _ => false) := by
  by_cases hready : c.prepared = true
  · have hpass := propagate_finer overrides (c.walkInput input fun _ => false) (fun _ => rfl) hno
      hsub hstop c.seeds
    rw [calculate_on hready, calculate_on hready, hpass]
  · unfold calculate
    rw [if_neg hready, if_neg hready]

end Calculator

/-! ### A straight line with a jump back

Three instructions form one block, or two blocks if the second one is a leader. The seed stands in
the middle, and the jump leads back to an entry point where its path stops. -/

namespace Straight

def stream : List Instruction :=
  [⟨0x10, [1], .sequential, [], none⟩, ⟨0x11, [2], .sequential, [], none⟩,
    ⟨0x12, [4], .directBranch, [0x10], none⟩]

def input (extra : List Address) : CalculatorInput where
  graph := .build stream .empty extra
  annotations := .ofAnnotations []
  memory := []
  entryPoints := [0x10]

def before : Calculator := ⟨⟨.xor, true⟩, true, [(0x11, ⟨[0]⟩)], true, .empty, .empty⟩

def after : Calculator :=
  { before with
    pre := ⟨[(0x11, ⟨[0]⟩), (0x12, ⟨[2]⟩)]⟩
    post := ⟨[(0x11, ⟨[2]⟩), (0x12, ⟨[6]⟩)]⟩ }

theorem calculate_before : before.calculate (input []) (fun _ => false) = (after, .ok []) := by cbv

theorem noOverlap_stream : NoOverlap stream := ⟨by decide, by decide⟩

theorem finer_before :
    (input []).graph.blocks.length = 1 ∧ (input [0x11]).graph.blocks.length = 2 ∧
    before.calculate (input [0x11]) (fun _ => false) = (after, .ok []) := by
  have hentry : ∀ a ∈ ([0x11] : List Address), a ∉ ([] : List Address) →
      a ∉ (input []).entryPoints := by
    intro a ha _
    rw [List.mem_singleton.mp ha]
    decide
  refine ⟨rfl, rfl, ?_⟩
  rw [← calculate_before]
  exact (Calculator.calculate_finer before (input []) noOverlap_stream (List.forall_mem_nil _)
    (Or.inr hentry)).symm

end Straight

end FlowState
