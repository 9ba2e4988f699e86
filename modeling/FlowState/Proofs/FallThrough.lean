import FlowState.Proofs.BlockCutting
import FlowState.Proofs.FirstOccurrences

/-! # Fall-through edges

Behind an instruction through which execution falls there is an edge to the block that starts where
the instruction stops, if such a block there is (`fallsInto_iff_startsBlock`). So the edge is there
exactly if the instruction at that address leads a block. In a stream whose encodings do not overlap
(`NoOverlap`) that instruction is the next one (`NoOverlap.neighbour`), and behind the last one of a
block the next one leads. Where encodings overlap, the instruction at that address may stand inside
a block behind yet another instruction that stops there, and the edge is lost. -/

namespace FlowState

namespace BlockGraph

/-! ### Streams without overlap -/

/-- **The encodings of a stream do not overlap**: each one stops before the addresses end, and at
the latest where an instruction at a higher address lies. -/
structure NoOverlap (stream : List Instruction) : Prop where
  bounded : ∀ i ∈ stream, i.bytes ≠ [] → i.address.toNat + i.bytes.length < UInt64.size
  apart : ∀ i ∈ stream, ∀ j ∈ stream, i.bytes ≠ [] → j.bytes ≠ [] → i.address < j.address →
    i.address.toNat + i.bytes.length ≤ j.address.toNat

section NoOverlap
variable {stream : List Instruction} {overrides : Table InstructionKind}

/-- A decoded instruction has the address and the bytes of one in the stream. -/
theorem exists_source {i : Instruction} (hi : i ∈ decoded stream overrides) :
    ∃ s ∈ stream, s.address = i.address ∧ s.bytes = i.bytes ∧ s.bytes ≠ [] := by
  obtain ⟨s, hs, rfl⟩ := mem_decoded.mp hi
  obtain ⟨hmem, ha, hne⟩ := chosen?_some hs
  exact ⟨s, hmem, ha, (bytes_override overrides s).symm, hne⟩

theorem NoOverlap.toNat_stop (h : NoOverlap stream) {i : Instruction}
    (hi : i ∈ decoded stream overrides) :
    i.stop.toNat = i.address.toNat + i.bytes.length := by
  obtain ⟨s, hs, ha, hb, hne⟩ := exists_source hi
  have hlt := h.bounded s hs hne
  rw [ha, hb] at hlt
  unfold Instruction.stop
  rw [Address.toNat_advance]
  unfold UInt64.size at hlt
  omega

theorem NoOverlap.address_lt_stop (h : NoOverlap stream) {i : Instruction}
    (hi : i ∈ decoded stream overrides) : i.address < i.stop := by
  obtain ⟨s, -, -, hb, hne⟩ := exists_source hi
  rw [hb] at hne
  have := List.length_pos_of_ne_nil hne
  rw [UInt64.lt_iff_toNat_lt, h.toNat_stop hi]
  omega

theorem NoOverlap.stop_le (h : NoOverlap stream) {i j : Instruction}
    (hi : i ∈ decoded stream overrides) (hj : j ∈ decoded stream overrides)
    (hij : i.address < j.address) : i.stop ≤ j.address := by
  obtain ⟨s, hs, ha, hb, hne⟩ := exists_source hi
  obtain ⟨t, ht, ha', hb', hne'⟩ := exists_source hj
  have hle := h.apart s hs t ht hne hne' (by rw [ha, ha']; exact hij)
  rw [ha, ha', hb] at hle
  rw [UInt64.le_iff_toNat_le, h.toNat_stop hi]
  exact hle

/-- **The instruction where another one stops is the next one.** -/
theorem NoOverlap.neighbour (h : NoOverlap stream) {i j : Instruction}
    (hi : i ∈ decoded stream overrides) (hj : j ∈ decoded stream overrides)
    (hij : j.address = i.stop) : ∃ ls rest, decoded stream overrides = ls ++ i :: j :: rest := by
  have hord := pairwise_decoded stream overrides
  have hlt : i.address < j.address := by rw [hij]; exact h.address_lt_stop hi
  obtain ⟨ls, rest, hs⟩ := List.append_of_mem hi
  rw [hs] at hord
  obtain ⟨-, hrest, hfront⟩ := List.pairwise_append.mp hord
  obtain ⟨hbehind, hrest⟩ := List.pairwise_cons.mp hrest
  have hjrest : j ∈ rest := by
    rw [hs] at hj
    rcases List.mem_append.mp hj with hj | hj
    · exact absurd hlt (UInt64.lt_asymm (hfront j hj i List.mem_cons_self))
    · rcases List.mem_cons.mp hj with rfl | hj
      · exact absurd hlt (UInt64.lt_irrefl _)
      · exact hj
  cases rest with
  | nil => cases hjrest
  | cons k rest =>
    rcases List.mem_cons.mp hjrest with rfl | hj'
    · exact ⟨ls, rest, hs⟩
    · -- the next instruction would lie before `j`, and so before `i` stops
      have hk : k ∈ decoded stream overrides := by rw [hs]; simp
      have hik := h.stop_le hi hk (hbehind k List.mem_cons_self)
      rw [← hij] at hik
      exact absurd ((List.pairwise_cons.mp hrest).1 j hj') (UInt64.not_lt.mpr hik)

end NoOverlap

/-! ### Edges behind an instruction -/

theorem foldl_pushUnique (es : List Edge) : es.foldl pushUnique [] = es.eraseDups := by
  induction es using List.reverseRecOn with
  | nil => simp
  | append_singleton es e ih =>
    rw [List.foldl_append, ih]
    change pushUnique es.eraseDups e = _
    unfold pushUnique
    by_cases h : e ∈ es
    · rw [if_pos (by simpa using h), FirstOccurrences.eraseDups_concat_of_mem h]
    · rw [if_neg (by simpa using h), FirstOccurrences.eraseDups_concat_of_not_mem h]

theorem mem_fallEdge {byStart : Table Nat} {i : Instruction} {e : Edge} :
    e ∈ fallEdge byStart i ↔ i.kind.fallsThrough = true ∧ e.kind = .fallthrough ∧
      byStart.get? i.stop = some e.target := by
  unfold fallEdge
  split_ifs with hf
  · rw [Option.mem_toList, Option.map_eq_some_iff]
    constructor
    · rintro ⟨n, hn, rfl⟩
      exact ⟨hf, rfl, hn⟩
    · rintro ⟨-, hk, hn⟩
      exact ⟨e.target, hn, by rw [← hk]⟩
  · simp [hf]

theorem mem_targetEdges {byStart : Table Nat} {i : Instruction} {e : Edge} :
    e ∈ targetEdges byStart i ↔
      i.kind.targetEdge? = some e.kind ∧ ∃ t ∈ i.targets, byStart.get? t = some e.target := by
  unfold targetEdges
  cases i.kind.targetEdge? with
  | none => simp
  | some kind =>
    simp only [List.mem_filterMap, Option.map_eq_some_iff, Option.some.injEq]
    constructor
    · rintro ⟨t, ht, n, hn, rfl⟩
      exact ⟨rfl, t, ht, hn⟩
    · rintro ⟨rfl, t, ht, hn⟩
      exact ⟨t, ht, e.target, hn, rfl⟩

theorem targetEdge?_ne_fallthrough (k : InstructionKind) : k.targetEdge? ≠ some .fallthrough := by
  cases k <;> simp [InstructionKind.targetEdge?]

theorem length_fallEdge_le (byStart : Table Nat) (i : Instruction) :
    (fallEdge byStart i).length ≤ 1 := by
  unfold fallEdge
  split_ifs
  · exact Option.length_toList_le
  · exact Nat.zero_le 1

/-- **The edges behind an instruction**: those to its targets, each once, and the one to where it
stops, which has another kind than they have. -/
theorem edges_eq (byStart : Table Nat) (i : Instruction) :
    edges byStart i = (targetEdges byStart i).eraseDups ++ fallEdge byStart i := by
  have hnew : (fallEdge byStart i).removeAll (targetEdges byStart i) = fallEdge byStart i := by
    refine List.filter_eq_self.mpr fun e he => ?_
    have hnot : e ∉ targetEdges byStart i := by
      intro ht
      have hk := (mem_targetEdges.mp ht).1
      rw [(mem_fallEdge.mp he).2.1] at hk
      exact targetEdge?_ne_fallthrough _ hk
    simpa using hnot
  have hone : (fallEdge byStart i).eraseDups = fallEdge byStart i := by
    have hle := length_fallEdge_le byStart i
    generalize fallEdge byStart i = es at hle ⊢
    rcases es with _ | ⟨e, _ | ⟨f, fs⟩⟩
    · simp
    · simp [List.eraseDups_cons]
    · simp at hle
  unfold edges
  rw [foldl_pushUnique, List.eraseDups_append, hnew, hone]

/-- The edges out of a block are those behind its last instruction. -/
theorem successors_build {stream : List Instruction} {overrides : Table InstructionKind}
    {extra : List Address} {n : Nat} {b : Block} {i : Instruction}
    (hb : (build stream overrides extra).blocks[n]? = some b)
    (hi : ((build stream overrides extra).slice b).getLast? = some i) :
    b.successors = edges (build stream overrides extra).byStart i := by
  have hg := build_wellFormed stream overrides extra
  rw [hg.getLast?_slice (List.mem_of_getElem? hb)] at hi
  unfold build at hb
  rw [blocks_link, List.getElem?_map, Option.map_eq_some_iff] at hb
  obtain ⟨d, -, rfl⟩ := hb
  have hlast : (unlinked (decoded stream overrides) extra).lastOf? d = some i := hi
  unfold linked
  rw [hlast]
  rfl

/-- A fall-through edge leads out of the block to one that starts at the address. -/
def FallsInto (g : BlockGraph) (b : Block) (a : Address) : Prop :=
  ∃ e ∈ b.successors, e.kind = .fallthrough ∧ ∃ d, g.blocks[e.target]? = some d ∧ d.start = a

section Edges
variable {stream : List Instruction} {overrides : Table InstructionKind} {extra : List Address}
  {n : Nat} {b : Block} {i : Instruction}

/-- The edge to where an instruction stops needs a block there, and nothing else. -/
theorem fallsInto_iff_startsBlock (hb : (build stream overrides extra).blocks[n]? = some b)
    (hi : ((build stream overrides extra).slice b).getLast? = some i)
    (hf : i.kind.fallsThrough = true) :
    (build stream overrides extra).FallsInto b i.stop ↔
      (build stream overrides extra).StartsBlock i.stop := by
  have hsucc := successors_build hb hi
  have hg := build_wellFormed stream overrides extra
  constructor
  · rintro ⟨e, -, -, d, hd, hs⟩
    exact ⟨e.target, hg.blockStartingAt?_eq_some.mpr ⟨d, hd, hs⟩⟩
  · rintro ⟨m, hm⟩
    refine ⟨⟨m, .fallthrough⟩, ?_, rfl, hg.blockStartingAt?_eq_some.mp hm⟩
    rw [hsucc, edges_eq]
    exact List.mem_append_right _ (mem_fallEdge.mpr ⟨hf, rfl, hm⟩)

theorem NoOverlap.startsBlock_stop (h : NoOverlap stream)
    (hb : (build stream overrides extra).blocks[n]? = some b)
    (hi : ((build stream overrides extra).slice b).getLast? = some i) {j : Instruction}
    (hj : j ∈ decoded stream overrides) (hij : j.address = i.stop) :
    (build stream overrides extra).StartsBlock i.stop := by
  have hg := build_wellFormed stream overrides extra
  obtain ⟨as, has⟩ := List.getLast?_eq_some_iff.mp hi
  have hn : (build stream overrides extra).instructionsOf n = as ++ [i] := by
    rw [instructionsOf_of_getElem? hb, has]
  have hin : i ∈ (build stream overrides extra).instructionsOf n := by rw [hn]; simp
  obtain ⟨ls, rest, hs⟩ := h.neighbour (mem_decoded_of_mem hin) hj hij
  rw [← hij]
  rcases build_neighbours hs with ⟨-, m, bs, cs, hm⟩ | ⟨-, -, hstart⟩
  · -- then `j` would stand behind `i` in the block, but `i` is its last instruction
    have hnm : n = m := hg.block_eq hin (j := i) (by rw [hm]; simp) rfl
    subst hnm
    have hdrop := hg.dropWhile_instructionsOf hm
    rw [hg.dropWhile_instructionsOf hn] at hdrop
    cases hdrop
  · exact hstart

/-- **When fall-through is kept.** A block whose last instruction falls through to a decoded one has
an edge to a block that starts there, exactly if something makes the decoded instruction lead; and
it always has one if the encodings of the stream do not overlap. -/
theorem fallsInto_iff_leads {j : Instruction}
    (hb : (build stream overrides extra).blocks[n]? = some b)
    (hi : ((build stream overrides extra).slice b).getLast? = some i)
    (hf : i.kind.fallsThrough = true)
    (hj : (build stream overrides extra).instructionAt? i.stop = some j) :
    ((build stream overrides extra).FallsInto b i.stop ↔
      Leads (build stream overrides extra).instructions extra j) ∧
    (NoOverlap stream → (build stream overrides extra).FallsInto b i.stop) := by
  obtain ⟨hmem, ha⟩ := (build_wellFormed stream overrides extra).instructionAt?_eq_some.mp hj
  rw [instructions_build] at hmem ⊢
  rw [fallsInto_iff_startsBlock hb hi hf]
  refine ⟨?_, fun h => h.startsBlock_stop hb hi hmem ha⟩
  rw [← ha]
  exact startsBlock_iff_leads hmem

end Edges

/-! ### Two instructions that stop at one address

The second instruction lies inside the first one, and both stop at the third one, which goes on in
the block of the second. -/

namespace Overlap

def stream : List Instruction :=
  [⟨0x10, [1, 2, 3, 4], .sequential, [], none⟩, ⟨0x12, [3, 4], .sequential, [], none⟩,
    ⟨0x14, [5], .return, [], none⟩]

/-- The block of the first instruction. -/
def outer : Block := ⟨0, 0x10, 0x14, 0, 1, .sequential, []⟩

theorem blocks_zero : (build stream .empty []).blocks[0]? = some outer := rfl

/-- The instruction where the first block stops is decoded, but no edge leads there. -/
theorem fallthrough_lost :
    (build stream .empty []).blocks[0]? = some outer ∧ outer.terminator.fallsThrough = true ∧
    (build stream .empty []).instructionAt? outer.stop = some ⟨0x14, [5], .return, [], none⟩ ∧
    ¬ (build stream .empty []).FallsInto outer outer.stop := by
  refine ⟨blocks_zero, rfl, rfl, ?_⟩
  rintro ⟨e, he, -⟩
  cases he

/-- The block of the first instruction if the third one is a leader. -/
def outerLed : Block := { outer with successors := [⟨2, .fallthrough⟩] }

theorem blocks_zero_led : (build stream .empty [0x14]).blocks[0]? = some outerLed := rfl

theorem fallsInto_led :
    (build stream .empty [0x14]).blocks[0]? = some outerLed ∧ ¬ NoOverlap stream ∧
    (build stream .empty [0x14]).FallsInto outerLed 0x14 := by
  refine ⟨blocks_zero_led, fun h => ?_, ?_⟩
  · have := h.apart _ List.mem_cons_self _ (List.mem_cons_of_mem _ List.mem_cons_self)
      (by decide) (by decide) (by decide)
    exact absurd this (by decide)
  · have hthird : (build stream .empty [0x14]).instructionAt? 0x14 =
        some ⟨0x14, [5], .return, [], none⟩ := rfl
    exact (fallsInto_iff_leads blocks_zero_led rfl rfl hthird).1.mpr
      (Or.inr (Or.inl List.mem_cons_self))

end Overlap

end BlockGraph

end FlowState
