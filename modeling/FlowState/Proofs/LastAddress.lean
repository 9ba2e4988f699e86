import FlowState.Proofs.Targets

/-! # The last address

No sum of addresses runs past the last address. So an instruction stops behind its own address,
however long it is, unless it lies at the last address: there it stops where it starts
(`Instruction.address_lt_stop_iff`). This is the one place where the end of an instruction is not
behind it. An instruction there is outside the interval of its block (`covers_iff`), and if it
starts a block and execution falls through it, the block falls into itself (`fallsForward_iff`).
Below the last address fall-through goes forward, and every instruction lies in its block. -/

namespace FlowState

theorem Address.le_last (a : Address) : a ≤ last := by
  have ha := a.toNat_lt
  rw [UInt64.le_iff_toNat_le, toNat_last]
  omega

theorem Address.eq_last_of_le {a : Address} (h : last ≤ a) : a = last :=
  UInt64.le_antisymm a.le_last h

/-- An instruction stops behind its address, unless that is the last one. -/
theorem Instruction.address_lt_stop_iff {i : Instruction} (h : i.bytes ≠ []) :
    i.address < i.stop ↔ i.address ≠ Address.last := by
  have hlen := List.length_pos_of_ne_nil h
  have ha := i.address.toNat_lt
  unfold stop
  rw [UInt64.lt_iff_toNat_lt, Address.toNat_advance, ne_eq, ← UInt64.toNat_inj, Address.toNat_last]
  omega

theorem Instruction.stop_of_last {i : Instruction} (h : i.address = Address.last) :
    i.stop = Address.last := by
  refine Address.eq_last_of_le ?_
  rw [← h]
  exact i.address_le_stop

namespace BlockGraph

/-! ### Addresses in a block -/

section Built
variable {stream : List Instruction} {overrides : Table InstructionKind} {extra : List Address}
  {n : Nat} {b : Block}

theorem bytes_ne_nil {j : Instruction} (hb : (build stream overrides extra).blocks[n]? = some b)
    (hj : j ∈ (build stream overrides extra).slice b) : j.bytes ≠ [] := by
  rw [← instructionsOf_of_getElem? hb] at hj
  obtain ⟨s, -, -, hbytes, hne⟩ := exists_source (mem_decoded_of_mem hj)
  rw [← hbytes]
  exact hne

/-- **An instruction lies in the interval of its block**, unless it lies at the last address. -/
theorem covers_iff {j : Instruction} (hb : (build stream overrides extra).blocks[n]? = some b)
    (hj : j ∈ (build stream overrides extra).slice b) :
    b.covers j.address = true ↔ j.address ≠ Address.last := by
  have hg := build_wellFormed stream overrides extra
  obtain ⟨i, hi, hl, hstop, -⟩ := hg.exists_last hb
  have hbelow : j.address < i.stop ↔ j.address ≠ Address.last := by
    rcases hg.eq_last_or_lt hb hl hj with rfl | hlt
    · exact Instruction.address_lt_stop_iff (bytes_ne_nil hb hj)
    · have hstop := UInt64.lt_of_lt_of_le hlt i.address_le_stop
      have hlast := UInt64.ne_of_lt (UInt64.lt_of_lt_of_le hlt i.address.le_last)
      exact ⟨fun _ => hlast, fun _ => hstop⟩
  unfold Block.covers
  rw [Bool.and_eq_true, decide_eq_true_eq, decide_eq_true_eq, hstop, hbelow]
  exact and_iff_right (hg.start_le hb hj)

/-! ### Fall-through -/

/-- Fall-through leads from the block to blocks behind its last instruction. -/
def FallsForward (g : BlockGraph) (b : Block) : Prop :=
  ∀ i ∈ (g.slice b).getLast?, ∀ e ∈ b.successors, e.kind = .fallthrough →
    ∃ d, g.blocks[e.target]? = some d ∧ i.address < d.start

/-- A fall-through edge leads to the block that starts where the last instruction stops. -/
theorem mem_successors_fallthrough {i : Instruction}
    (hb : (build stream overrides extra).blocks[n]? = some b)
    (hi : ((build stream overrides extra).slice b).getLast? = some i) {e : Edge}
    (hk : e.kind = .fallthrough) :
    e ∈ b.successors ↔ i.kind.fallsThrough = true ∧ ∃ d,
      (build stream overrides extra).blocks[e.target]? = some d ∧ d.start = i.stop := by
  have hg := build_wellFormed stream overrides extra
  rw [successors_build hb hi, edges_eq, List.mem_append, List.mem_eraseDups, mem_fallEdge]
  constructor
  · rintro (h | ⟨hf, -, h⟩)
    · have hkind := (mem_targetEdges.mp h).1
      rw [hk] at hkind
      exact absurd hkind (targetEdge?_ne_fallthrough _)
    · exact ⟨hf, hg.blockStartingAt?_eq_some.mp h⟩
  · rintro ⟨hf, hd⟩
    exact Or.inr ⟨hf, hk, hg.blockStartingAt?_eq_some.mpr hd⟩

/-- A block that holds the instruction at the last address starts there if any block does. -/
theorem start_eq_last {i : Instruction} {m : Nat} {d : Block}
    (hb : (build stream overrides extra).blocks[n]? = some b)
    (hi : i ∈ (build stream overrides extra).slice b) (hlast : i.address = Address.last)
    (hd : (build stream overrides extra).blocks[m]? = some d) (hs : d.start = Address.last) :
    b.start = Address.last := by
  have hg := build_wellFormed stream overrides extra
  obtain ⟨k, rest, hk, hstart⟩ := hg.head_of_getElem? hd
  have hin : i ∈ (build stream overrides extra).instructionsOf n := by
    rw [instructionsOf_of_getElem? hb]
    exact hi
  have hkm : k ∈ (build stream overrides extra).instructionsOf m := by
    rw [instructionsOf_of_getElem? hd, hk]
    exact List.mem_cons_self
  have hsame : n = m := hg.block_eq hin hkm (by rw [hlast, hstart, hs])
  subst hsame
  obtain rfl : b = d := Option.some.inj (hb.symm.trans hd)
  exact hs

/-- **Fall-through goes forward**, unless the block starts at the last address and execution falls
through it: then the block falls into itself. -/
theorem fallsForward_iff (hb : (build stream overrides extra).blocks[n]? = some b) :
    (build stream overrides extra).FallsForward b ↔
      (b.start = Address.last → b.terminator.fallsThrough = false) := by
  have hg := build_wellFormed stream overrides extra
  obtain ⟨i, hmem, hi, -, hterm⟩ := hg.exists_last hb
  constructor
  · intro h hstart
    by_contra hf
    rw [Bool.not_eq_false, hterm] at hf
    have hlast : i.address = Address.last := by
      refine Address.eq_last_of_le ?_
      rw [← hstart]
      exact hg.start_le hb hmem
    have hloop : (⟨n, .fallthrough⟩ : Edge) ∈ b.successors := by
      refine (mem_successors_fallthrough hb hi rfl).mpr ⟨hf, b, hb, ?_⟩
      rw [hstart, Instruction.stop_of_last hlast]
    obtain ⟨d, hd, hlt⟩ := h i hi _ hloop rfl
    obtain rfl : b = d := Option.some.inj (hb.symm.trans hd)
    rw [hlast, hstart] at hlt
    exact UInt64.lt_irrefl _ hlt
  · intro h j hj e he hk
    obtain rfl : i = j := Option.some.inj (hi.symm.trans hj)
    obtain ⟨hf, d, hd, hs⟩ := (mem_successors_fallthrough hb hi hk).mp he
    refine ⟨d, hd, ?_⟩
    rw [hs, Instruction.address_lt_stop_iff (bytes_ne_nil hb hmem)]
    intro hlast
    have hstart : b.start = Address.last :=
      start_eq_last hb hmem hlast hd (hs.trans (Instruction.stop_of_last hlast))
    rw [hterm] at h
    rw [h hstart] at hf
    cases hf

/-! ### All blocks -/

/-- Where an instruction of the stream has bytes, an instruction is decoded. -/
theorem exists_decoded (overrides : Table InstructionKind) {s : Instruction} (hs : s ∈ stream)
    (hne : s.bytes ≠ []) : ∃ i ∈ decoded stream overrides, i.address = s.address := by
  have hsome : (chosen? stream s.address).isSome = true := by
    unfold chosen?
    rw [List.find?_isSome]
    exact ⟨s, hs, by simpa using hne⟩
  obtain ⟨t, ht⟩ := Option.isSome_iff_exists.mp hsome
  have ha := (chosen?_some ht).2.1
  refine ⟨override overrides t, mem_decoded.mpr ⟨t, ?_, rfl⟩, ?_⟩
  · rw [address_override, ha, ht]
  · rw [address_override, ha]

end Built

/-- The stream has no instruction with bytes at an address if no block has one. -/
theorem forall_instructions_ne_iff (stream : List Instruction) (overrides : Table InstructionKind)
    (extra : List Address) (a : Address) :
    (∀ b ∈ (build stream overrides extra).blocks, ∀ i ∈ (build stream overrides extra).slice b,
      i.address ≠ a) ↔
      ∀ s ∈ stream, s.bytes ≠ [] → s.address ≠ a := by
  have hparts := (build_wellFormed stream overrides extra).flatMap_slice
  constructor
  · rintro h s hs hne rfl
    obtain ⟨i, hi, ha⟩ := exists_decoded overrides hs hne
    rw [← instructions_build stream overrides extra, ← hparts] at hi
    obtain ⟨b, hb, hib⟩ := List.mem_flatMap.mp hi
    exact h b hb i hib ha
  · rintro h b hb i hi rfl
    have hdec : i ∈ (build stream overrides extra).instructions := by
      rw [← hparts]
      exact List.mem_flatMap.mpr ⟨b, hb, hi⟩
    rw [instructions_build] at hdec
    obtain ⟨s, hs, ha, -, hne⟩ := exists_source hdec
    exact h s hs hne ha

/-- **The graph goes forward**: fall-through leads to blocks behind the last instruction, and each
instruction lies in the interval of its block. -/
structure Forward (g : BlockGraph) : Prop where
  falls : ∀ b ∈ g.blocks, g.FallsForward b
  covered : ∀ b ∈ g.blocks, ∀ i ∈ g.slice b, b.covers i.address = true

/-- **Up to the last address the graph goes forward.** It does so exactly if no instruction of the
stream that has bytes lies at the last address. If one does, the graph fails at this instruction
only: it is outside its block, and the block falls into itself if it starts there and falls
through. -/
theorem build_forward_iff (stream : List Instruction) (overrides : Table InstructionKind)
    (extra : List Address) :
    ((build stream overrides extra).Forward ↔
      ∀ s ∈ stream, s.bytes ≠ [] → s.address ≠ Address.last) ∧
    ∀ b ∈ (build stream overrides extra).blocks,
      ((build stream overrides extra).FallsForward b ↔
        (b.start = Address.last → b.terminator.fallsThrough = false)) ∧
      ∀ i ∈ (build stream overrides extra).slice b,
        (b.covers i.address = true ↔ i.address ≠ Address.last) := by
  refine ⟨?_, fun b hb => ?_⟩
  · rw [← forall_instructions_ne_iff stream overrides extra]
    constructor
    · intro h b hb i hi
      obtain ⟨n, hn⟩ := List.mem_iff_getElem?.mp hb
      exact (covers_iff hn hi).mp (h.covered b hb i hi)
    · intro h
      refine ⟨fun b hb => ?_, fun b hb i hi => ?_⟩
      · obtain ⟨n, hn⟩ := List.mem_iff_getElem?.mp hb
        obtain ⟨k, rest, hk, hs⟩ := (build_wellFormed stream overrides extra).head_of_getElem? hn
        have hne : k.address ≠ Address.last := h b hb k (by rw [hk]; exact List.mem_cons_self)
        exact (fallsForward_iff hn).mpr fun hstart => absurd (hs.trans hstart) hne
      · obtain ⟨n, hn⟩ := List.mem_iff_getElem?.mp hb
        exact (covers_iff hn hi).mpr (h b hb i hi)
  · obtain ⟨n, hn⟩ := List.mem_iff_getElem?.mp hb
    exact ⟨fallsForward_iff hn, fun i hi => covers_iff hn hi⟩

-- an instruction that runs past the last address still lies in its block
example : (build [⟨0xfffffffffffffffe, [1, 2, 3, 4], .return, [], none⟩] .empty []).blocks.map
    (·.covers 0xfffffffffffffffe) = [true] := rfl

/-! ### An instruction at the last address -/

namespace Topmost

def stream : List Instruction := [⟨0xffffffffffffffff, [0x90], .sequential, [], none⟩]

/-- The block of the instruction, with an edge to itself. -/
def loop : Block :=
  ⟨0, 0xffffffffffffffff, 0xffffffffffffffff, 0, 1, .sequential, [⟨0, .fallthrough⟩]⟩

/-- The block falls back to where it starts, and its instruction is outside its interval. -/
theorem last_falls_back :
    (build stream .empty []).blocks = [loop] ∧ loop.start = 0xffffffffffffffff ∧
    ¬ (build stream .empty []).FallsForward loop ∧ loop.covers 0xffffffffffffffff = false ∧
    ¬ (build stream .empty []).Forward := by
  have hblocks : (build stream .empty []).blocks = [loop] := rfl
  have hback : ¬ (build stream .empty []).FallsForward loop := by
    intro h
    obtain ⟨d, hd, hlt⟩ := h _ rfl ⟨0, .fallthrough⟩ List.mem_cons_self rfl
    obtain rfl : loop = d := Option.some.inj hd
    exact absurd hlt (by decide)
  refine ⟨hblocks, rfl, hback, rfl, fun h => hback (h.falls loop ?_)⟩
  rw [hblocks]
  exact List.mem_cons_self

end Topmost

end BlockGraph

end FlowState
