import FlowState.Proofs.CutPass

/-! # Graphs that are built from a stream

The instructions of a built graph stand in strictly increasing order of their addresses, its blocks
tile them, and its tables lead to the blocks and to the instructions (`build_wellFormed`). So an
address belongs to one instruction, in one block, and the look-ups by address find exactly that one
(`instructionAt?_eq_some`, `blockContaining?_eq_some`, `blockStartingAt?_eq_some`). -/

namespace FlowState

namespace BlockGraph

/-- **The parts of a graph agree**: the addresses increase, the blocks tile the instructions and
start and end with their own, and the tables lead to them. -/
structure WellFormed (g : BlockGraph) : Prop where
  increasing : g.instructions.Pairwise fun i j => i.address < j.address
  tiled : Tiles 0 g.blocks g.instructions.length
  ids : ∀ (n : Nat) (b : Block), g.blocks[n]? = some b → b.id = n
  framed : ∀ b ∈ g.blocks, Framed g.instructions b
  starts : ∀ (a : Address) (n : Nat),
    g.byStart.get? a = some n ↔ ∃ b, g.blocks[n]? = some b ∧ b.start = a
  addresses : ∀ (a : Address) (k : Nat),
    g.byAddress.get? a = some k ↔ ∃ i, g.instructions[k]? = some i ∧ i.address = a
  members : ∀ k n : Nat, g.blockOf[k]? = some n ↔
    ∃ b, g.blocks[n]? = some b ∧ b.first ≤ k ∧ k < b.limit

/-! ### Building -/

theorem unlinked_wellFormed {is : List Instruction} (his : Increasing is) (extra : List Address) :
    (unlinked is extra).WellFormed := by
  obtain ⟨h, hfirst, -⟩ := cuts_cut his (leaders is extra)
  have htiled := h.tiled
  rw [hfirst] at htiled
  exact ⟨his, htiled, h.ids, h.framed, h.starts, fun a k => get?_indexed his, h.members⟩

/-- The edges out of a block are those behind its last instruction. -/
def linked (g : BlockGraph) (b : Block) : Block :=
  { b with successors := ((g.lastOf? b).map (edges g.byStart)).getD [] }

theorem blocks_link (g : BlockGraph) : (link g).blocks = g.blocks.map g.linked := rfl

theorem exists_linked {g : BlockGraph} {n : Nat} {p : Block → Prop}
    (hp : ∀ b, p (g.linked b) ↔ p b) :
    (∃ b, (link g).blocks[n]? = some b ∧ p b) ↔ ∃ b, g.blocks[n]? = some b ∧ p b := by
  rw [blocks_link, List.getElem?_map]
  simp only [Option.map_eq_some_iff]
  constructor
  · rintro ⟨_, ⟨b, hb, rfl⟩, hpb⟩
    exact ⟨b, hb, (hp b).mp hpb⟩
  · rintro ⟨b, hb, hpb⟩
    exact ⟨_, ⟨b, hb, rfl⟩, (hp b).mpr hpb⟩

/-- **Linking changes nothing but the edges.** -/
theorem WellFormed.link {g : BlockGraph} (hg : g.WellFormed) : (link g).WellFormed where
  increasing := hg.increasing
  tiled := hg.tiled.map (f := g.linked) (fun _ => rfl) fun _ => rfl
  ids n b hb := by
    rw [blocks_link, List.getElem?_map, Option.map_eq_some_iff] at hb
    obtain ⟨d, hd, rfl⟩ := hb
    exact hg.ids n d hd
  framed b hb := by
    obtain ⟨d, hd, rfl⟩ := List.mem_map.mp hb
    exact hg.framed d hd
  starts a n := (hg.starts a n).trans (exists_linked fun _ => Iff.rfl).symm
  addresses := hg.addresses
  members k n := (hg.members k n).trans (exists_linked fun _ => Iff.rfl).symm

section Build
variable (stream : List Instruction) (overrides : Table InstructionKind) (extra : List Address)

/-- **A built graph is well-formed.** -/
theorem build_wellFormed : (build stream overrides extra).WellFormed :=
  (unlinked_wellFormed (pairwise_decoded stream overrides) extra).link

theorem instructions_build :
    (build stream overrides extra).instructions = decoded stream overrides := rfl

theorem byAddress_build :
    (build stream overrides extra).byAddress = indexed (decoded stream overrides) := rfl

end Build

/-! ### Instructions of blocks -/

theorem instructionsOf_of_getElem? {g : BlockGraph} {n : Nat} {b : Block}
    (h : g.blocks[n]? = some b) : g.instructionsOf n = g.slice b := by
  simp [instructionsOf, h]

theorem exists_block_of_mem {g : BlockGraph} {n : Nat} {i : Instruction}
    (h : i ∈ g.instructionsOf n) : ∃ b, g.blocks[n]? = some b ∧ i ∈ g.slice b := by
  unfold instructionsOf at h
  cases hb : g.blocks[n]? with
  | none => simp [hb] at h
  | some b => exact ⟨b, rfl, by simpa [hb] using h⟩

theorem getElem?_slice {g : BlockGraph} {b : Block} {k : Nat} (hk : b.first + k < b.limit) :
    (g.slice b)[k]? = g.instructions[b.first + k]? := by
  unfold slice
  rw [List.getElem?_take_of_lt (by omega), List.getElem?_drop]

theorem mem_slice {g : BlockGraph} {b : Block} {i : Instruction} :
    i ∈ g.slice b ↔ ∃ k, b.first ≤ k ∧ k < b.limit ∧ g.instructions[k]? = some i := by
  unfold slice
  rw [List.mem_iff_getElem?]
  constructor
  · rintro ⟨k, hk⟩
    rw [List.getElem?_take] at hk
    split at hk
    next hlt =>
      rw [List.getElem?_drop] at hk
      exact ⟨b.first + k, by omega, by omega, hk⟩
    · cases hk
  · rintro ⟨k, hk, hk', hi⟩
    refine ⟨k - b.first, ?_⟩
    rw [List.getElem?_take_of_lt (by omega), List.getElem?_drop, Nat.add_sub_cancel' hk, hi]

theorem mem_instructions_of_mem {g : BlockGraph} {n : Nat} {i : Instruction}
    (h : i ∈ g.instructionsOf n) : i ∈ g.instructions := by
  obtain ⟨b, -, hi⟩ := exists_block_of_mem h
  obtain ⟨k, -, -, hk⟩ := mem_slice.mp hi
  exact List.mem_of_getElem? hk

/-- **An edge leads from one block to another.** -/
def Follows (g : BlockGraph) (n m : Nat) : Prop :=
  ∃ b, g.blocks[n]? = some b ∧ ∃ e ∈ b.successors, e.target = m

theorem mem_successors {g : BlockGraph} {n m : Nat} : m ∈ g.successors n ↔ g.Follows n m := by
  unfold successors Follows
  cases hb : g.blocks[n]? with
  | none => simp
  | some b => simp

section WellFormed
variable {g : BlockGraph} (hg : g.WellFormed)
include hg

/-- The parts of the blocks make up all instructions. -/
theorem WellFormed.flatMap_slice : g.blocks.flatMap g.slice = g.instructions := by
  have := hg.tiled.flatMap_slice g.instructions
  rwa [List.drop_zero, Nat.sub_zero, List.take_length] at this

theorem WellFormed.mem_instructions {i : Instruction} :
    i ∈ g.instructions ↔ ∃ n, i ∈ g.instructionsOf n := by
  refine ⟨fun hi => ?_, fun ⟨n, hn⟩ => mem_instructions_of_mem hn⟩
  obtain ⟨k, hk⟩ := List.mem_iff_getElem?.mp hi
  obtain ⟨n, b, hb, hkb⟩ :=
    hg.tiled.exists_block (Nat.zero_le k) (List.getElem?_eq_some_iff.mp hk).1
  refine ⟨n, ?_⟩
  rw [instructionsOf_of_getElem? hb]
  exact mem_slice.mpr ⟨k, hkb.1, hkb.2, hk⟩

theorem WellFormed.pairwise_instructionsOf (n : Nat) :
    (g.instructionsOf n).Pairwise fun i j => i.address < j.address := by
  unfold instructionsOf
  cases hb : g.blocks[n]? with
  | none => simp
  | some b => exact (hg.increasing.drop).take

/-- Two instructions at one address stand in one block. -/
theorem WellFormed.block_eq {n m : Nat} {i j : Instruction} (hi : i ∈ g.instructionsOf n)
    (hj : j ∈ g.instructionsOf m) (h : i.address = j.address) : n = m := by
  obtain ⟨b, hb, hi⟩ := exists_block_of_mem hi
  obtain ⟨d, hd, hj⟩ := exists_block_of_mem hj
  obtain ⟨k, hk, hk', hi⟩ := mem_slice.mp hi
  obtain ⟨l, hl, hl', hj⟩ := mem_slice.mp hj
  obtain rfl := index_eq hg.increasing hi hj h
  exact hg.tiled.position_eq hb hd ⟨hk, hk'⟩ ⟨hl, hl'⟩

/-- The addresses in front of an instruction in its block are other ones. -/
theorem WellFormed.ne_of_mem_front {n : Nat} {ls rest : List Instruction} {i j : Instruction}
    (h : g.instructionsOf n = ls ++ i :: rest) (hj : j ∈ ls) : j.address ≠ i.address := by
  have hp := hg.pairwise_instructionsOf n
  rw [h] at hp
  have hlt : j.address < i.address := (List.pairwise_append.mp hp).2.2 j hj i (by simp)
  intro heq
  rw [heq] at hlt
  exact UInt64.lt_irrefl _ hlt

theorem WellFormed.dropWhile_instructionsOf {n : Nat} {ls rest : List Instruction} {i : Instruction}
    (h : g.instructionsOf n = ls ++ i :: rest) :
    (g.instructionsOf n).dropWhile (fun j => j.address != i.address) = i :: rest := by
  rw [h, List.dropWhile_append_of_pos fun j hj => by simpa using hg.ne_of_mem_front h hj]
  simp

/-! ### Look-ups -/

/-- **The instruction at an address.** -/
theorem WellFormed.instructionAt?_eq_some {a : Address} {i : Instruction} :
    g.instructionAt? a = some i ↔ i ∈ g.instructions ∧ i.address = a := by
  unfold instructionAt?
  simp only [Option.bind_eq_some_iff, hg.addresses]
  constructor
  · rintro ⟨k, ⟨j, hj, ha⟩, hi⟩
    rw [hi, Option.some.injEq] at hj
    exact ⟨List.mem_of_getElem? hi, by rw [hj, ha]⟩
  · rintro ⟨hi, ha⟩
    obtain ⟨k, hk⟩ := List.mem_iff_getElem?.mp hi
    exact ⟨k, ⟨i, hk, ha⟩, hk⟩

theorem WellFormed.instructionAt?_of_mem {n : Nat} {i : Instruction} (h : i ∈ g.instructionsOf n) :
    g.instructionAt? i.address = some i :=
  hg.instructionAt?_eq_some.mpr ⟨mem_instructions_of_mem h, rfl⟩

theorem WellFormed.blockContaining?_iff_index {a : Address} {n : Nat} :
    g.blockContaining? a = some n ↔ ∃ b k i, g.blocks[n]? = some b ∧ b.first ≤ k ∧ k < b.limit ∧
      g.instructions[k]? = some i ∧ i.address = a := by
  unfold blockContaining?
  simp only [Option.bind_eq_some_iff, hg.addresses, hg.members]
  constructor
  · rintro ⟨k, ⟨i, hi, ha⟩, b, hb, hk, hk'⟩
    exact ⟨b, k, i, hb, hk, hk', hi, ha⟩
  · rintro ⟨b, k, i, hb, hk, hk', hi, ha⟩
    exact ⟨k, ⟨i, hi, ha⟩, b, hb, hk, hk'⟩

/-- **The block with an instruction at an address.** -/
theorem WellFormed.blockContaining?_eq_some {a : Address} {n : Nat} :
    g.blockContaining? a = some n ↔ ∃ i ∈ g.instructionsOf n, i.address = a := by
  rw [hg.blockContaining?_iff_index]
  constructor
  · rintro ⟨b, k, i, hb, hk, hk', hi, ha⟩
    refine ⟨i, ?_, ha⟩
    rw [instructionsOf_of_getElem? hb]
    exact mem_slice.mpr ⟨k, hk, hk', hi⟩
  · rintro ⟨i, hi, ha⟩
    obtain ⟨b, hb, hi⟩ := exists_block_of_mem hi
    obtain ⟨k, hk, hk', hi⟩ := mem_slice.mp hi
    exact ⟨b, k, i, hb, hk, hk', hi, ha⟩

/-- **The block that starts at an address.** -/
theorem WellFormed.blockStartingAt?_eq_some {a : Address} {n : Nat} :
    g.blockStartingAt? a = some n ↔ ∃ b, g.blocks[n]? = some b ∧ b.start = a := hg.starts a n

theorem WellFormed.blockStartingAt?_iff_index {a : Address} {n : Nat} :
    g.blockStartingAt? a = some n ↔
      ∃ b i, g.blocks[n]? = some b ∧ g.instructions[b.first]? = some i ∧ i.address = a := by
  rw [hg.blockStartingAt?_eq_some]
  refine exists_congr fun b => ?_
  constructor
  · rintro ⟨hb, rfl⟩
    obtain ⟨i, -, hi, -, hs, -⟩ := hg.framed b (List.mem_of_getElem? hb)
    exact ⟨i, hb, hi, hs.symm⟩
  · rintro ⟨i, hb, hi, ha⟩
    obtain ⟨j, -, hj, -, hs, -⟩ := hg.framed b (List.mem_of_getElem? hb)
    rw [hi, Option.some.injEq] at hj
    exact ⟨hb, by rw [hs, ← hj, ha]⟩

theorem WellFormed.lt_of_blockStartingAt? {a : Address} {n : Nat}
    (h : g.blockStartingAt? a = some n) : n < g.blocks.length := by
  obtain ⟨b, hb, -⟩ := hg.blockStartingAt?_eq_some.mp h
  exact (List.getElem?_eq_some_iff.mp hb).1

/-! ### The ends of a block -/

theorem WellFormed.head_of_getElem? {n : Nat} {b : Block} (hb : g.blocks[n]? = some b) :
    ∃ i rest, g.slice b = i :: rest ∧ i.address = b.start := by
  have hmem := List.mem_of_getElem? hb
  obtain ⟨-, hlt, -⟩ := hg.tiled.bounds hmem
  obtain ⟨i, -, hi, -, hs, -⟩ := hg.framed b hmem
  have hhead : (g.slice b).head? = some i := by
    rw [List.head?_eq_getElem?, getElem?_slice (by omega), Nat.add_zero, hi]
  obtain ⟨rest, hrest⟩ := List.head?_eq_some_iff.mp hhead
  exact ⟨i, rest, hrest, hs.symm⟩

theorem WellFormed.length_slice {b : Block} (hb : b ∈ g.blocks) :
    (g.slice b).length = b.limit - b.first := by
  obtain ⟨-, hlt, hle⟩ := hg.tiled.bounds hb
  unfold slice
  rw [List.length_take, List.length_drop]
  omega

theorem WellFormed.getLast?_slice {b : Block} (hb : b ∈ g.blocks) :
    (g.slice b).getLast? = g.instructions[b.limit - 1]? := by
  obtain ⟨-, hlt, -⟩ := hg.tiled.bounds hb
  rw [List.getLast?_eq_getElem?, hg.length_slice hb, getElem?_slice (by omega)]
  congr 1
  omega

/-- A block ends with its last instruction. -/
theorem WellFormed.exists_last {n : Nat} {b : Block} (hb : g.blocks[n]? = some b) :
    ∃ i ∈ g.slice b, (g.slice b).getLast? = some i ∧ b.stop = i.stop ∧ b.terminator = i.kind := by
  have hmem := List.mem_of_getElem? hb
  obtain ⟨-, l, -, hl, -, hstop, hkind⟩ := hg.framed b hmem
  have hlast : (g.slice b).getLast? = some l := (hg.getLast?_slice hmem).trans hl
  exact ⟨l, List.mem_of_getLast? hlast, hlast, hstop, hkind⟩

/-- No instruction lies before the start of its block. -/
theorem WellFormed.start_le {n : Nat} {b : Block} {j : Instruction} (hb : g.blocks[n]? = some b)
    (hj : j ∈ g.slice b) : b.start ≤ j.address := by
  obtain ⟨i, rest, hi, hs⟩ := hg.head_of_getElem? hb
  have hp := hg.pairwise_instructionsOf n
  rw [instructionsOf_of_getElem? hb, hi] at hp
  rw [hi] at hj
  rw [← hs]
  rcases List.mem_cons.mp hj with rfl | hj
  · exact UInt64.le_refl _
  · exact UInt64.le_of_lt (List.rel_of_pairwise_cons hp hj)

theorem WellFormed.eq_last_or_lt {n : Nat} {b : Block} {i j : Instruction}
    (hb : g.blocks[n]? = some b) (hi : (g.slice b).getLast? = some i)
    (hj : j ∈ g.slice b) : j = i ∨ j.address < i.address := by
  obtain ⟨front, hfront⟩ := List.getLast?_eq_some_iff.mp hi
  have hp := hg.pairwise_instructionsOf n
  rw [instructionsOf_of_getElem? hb, hfront] at hp
  rw [hfront] at hj
  rcases List.mem_append.mp hj with hj | hj
  · exact Or.inr ((List.pairwise_append.mp hp).2.2 j hj i List.mem_cons_self)
  · exact Or.inl (List.mem_singleton.mp hj)

end WellFormed

end BlockGraph

end FlowState
