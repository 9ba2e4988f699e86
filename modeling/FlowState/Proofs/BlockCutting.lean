import FlowState.Proofs.BuiltGraph

/-! # Cutting into blocks

The pass over the instructions collects the addresses of those that something makes lead
(`Leads`, `mem_leaders`). Two neighbours stand in one block if they are `joined`; else the first one
ends a block and the second one starts a block (`build_neighbours`). So an instruction starts a
block exactly if something makes it lead (`startsBlock_iff_leads`). -/

namespace FlowState

namespace BlockGraph

/-! ### Leaders -/

/-- The instruction in front of it ends a block or does not reach up to it. -/
def LeadsBehind (is : List Instruction) (i : Instruction) : Prop :=
  ∃ ls j rest, is = ls ++ j :: i :: rest ∧ (j.kind.endsBlock = true ∨ j.stop ≠ i.address)

/-- **What makes an instruction start a block**: it is the first one, it is asked for, it is a
target that counts, or the instruction in front of it ends a block or does not reach up to it. -/
def Leads (is : List Instruction) (extra : List Address) (i : Instruction) : Prop :=
  is.head? = some i ∨ i.address ∈ extra ∨
  (∃ j ∈ is, j.kind.targetEdge?.isSome ∧ i.address ∈ j.targets) ∨ LeadsBehind is i

theorem mem_liveTargets {i : Instruction} {a : Address} :
    a ∈ liveTargets i ↔ i.kind.targetEdge?.isSome ∧ a ∈ i.targets := by
  unfold liveTargets
  split_ifs with h <;> simp [h]

theorem leadsBehind_cons {i j : Instruction} {is : List Instruction} :
    LeadsBehind (i :: is) j ↔
      is.head? = some j ∧ (i.kind.endsBlock = true ∨ i.stop ≠ j.address) ∨ LeadsBehind is j := by
  constructor
  · rintro ⟨ls, k, rest, his, hk⟩
    cases ls with
    | nil =>
      obtain ⟨rfl, rfl⟩ := List.cons.inj his
      exact Or.inl ⟨rfl, hk⟩
    | cons l ls => exact Or.inr ⟨ls, k, rest, (List.cons.inj his).2, hk⟩
  · rintro (⟨hj, hi⟩ | ⟨ls, k, rest, rfl, hk⟩)
    · obtain ⟨rest, rfl⟩ := List.head?_eq_some_iff.mp hj
      exact ⟨[], i, rest, rfl, hi⟩
    · exact ⟨i :: ls, k, rest, rfl, hk⟩

theorem mem_leadersBehind {known : Table Nat} {i : Instruction} {next : Option Instruction}
    {a : Address} : a ∈ leadersBehind known i next ↔
      a ∈ liveTargets i ∧ known.contains a = true ∨
      ∃ j, next = some j ∧ (i.kind.endsBlock = true ∨ i.stop ≠ j.address) ∧ j.address = a := by
  unfold leadersBehind
  rw [List.mem_append, List.mem_filter]
  refine or_congr_right ?_
  cases next with
  | none => simp
  | some j =>
    have hends : (i.kind.endsBlock || j.address != i.stop) = true ↔
        (i.kind.endsBlock = true ∨ i.stop ≠ j.address) := by
      rw [Bool.or_eq_true, bne_iff_ne, ne_comm]
    simp only [hends, Option.some.injEq, exists_eq_left']
    split_ifs with h
    · rw [List.mem_singleton, and_iff_right h, eq_comm]
    · exact iff_of_false List.not_mem_nil fun h' => h h'.1

theorem mem_collectLeaders {known : Table Nat} {is : List Instruction} {a : Address} :
    a ∈ collectLeaders known is ↔
      (∃ j ∈ is, a ∈ liveTargets j ∧ known.contains a = true) ∨
      ∃ j, LeadsBehind is j ∧ j.address = a := by
  induction is with
  | nil => simp [collectLeaders, LeadsBehind]
  | cons i is ih =>
    rw [collectLeaders, List.mem_append, mem_leadersBehind, ih]
    simp only [List.exists_mem_cons_iff, leadsBehind_cons, or_and_right, exists_or, and_assoc]
    exact or_or_or_comm

/-- **The pass collects what leads.** -/
theorem mem_leaders {is : List Instruction} (his : Increasing is) {extra : List Address}
    {i : Instruction} (hi : i ∈ is) : i.address ∈ leaders is extra ↔ Leads is extra i := by
  have hknown : (indexed is).contains i.address = true :=
    (contains_indexed his).mpr ⟨i, hi, rfl⟩
  have hfirst : i.address ∈ (is.head?.map (·.address)).toList ↔ is.head? = some i := by
    rw [Option.mem_toList, Option.map_eq_some_iff]
    constructor
    · rintro ⟨j, hj, ha⟩
      rw [hj, eq_of_address_eq his (List.mem_of_mem_head? hj) hi ha]
    · intro h
      exact ⟨i, h, rfl⟩
  have hbehind : (∃ j, LeadsBehind is j ∧ j.address = i.address) ↔ LeadsBehind is i := by
    constructor
    · rintro ⟨j, hj, ha⟩
      have hmem : j ∈ is := by
        obtain ⟨ls, p, rest, rfl, -⟩ := hj
        simp
      rwa [← eq_of_address_eq his hmem hi ha]
    · intro h
      exact ⟨i, h, rfl⟩
  unfold leaders
  rw [List.mem_append, List.mem_append, hfirst, List.mem_filter, mem_collectLeaders, hbehind,
    or_assoc]
  simp only [hknown, and_true, mem_liveTargets]
  exact Iff.rfl

/-! ### Neighbours -/

/-- Two neighbours that stand in one block. -/
def joined (ls : List Address) (i j : Instruction) : Bool := !endsHere ls i (some j)

theorem joined_eq_true {ls : List Address} {i j : Instruction} :
    joined ls i j = true ↔ i.kind.endsBlock = false ∧ j.address = i.stop ∧ j.address ∉ ls := by
  simp [joined, endsHere]

/-- **Neighbours are cut** exactly if something makes the second one lead. -/
theorem joined_eq_false {is : List Instruction} (his : Increasing is) {extra : List Address}
    {ls rest : List Instruction} {i j : Instruction} (h : is = ls ++ i :: j :: rest) :
    joined (leaders is extra) i j = false ↔ Leads is extra j := by
  have hj : j ∈ is := by rw [h]; simp
  rw [← mem_leaders his hj, ← Bool.not_eq_true, joined_eq_true, not_and_or, not_and_or, not_not,
    Bool.not_eq_false]
  refine ⟨?_, fun hl => Or.inr (Or.inr hl)⟩
  rintro (hend | hstop | hl)
  · exact (mem_leaders his hj).mpr (Or.inr (Or.inr (Or.inr ⟨ls, i, rest, h, Or.inl hend⟩)))
  · exact (mem_leaders his hj).mpr
      (Or.inr (Or.inr (Or.inr ⟨ls, i, rest, h, Or.inr (Ne.symm hstop)⟩)))
  · exact hl

/-- A block starts at the address. -/
def StartsBlock (g : BlockGraph) (a : Address) : Prop := ∃ n, g.blockStartingAt? a = some n

theorem exists_append_of_getElem? {α : Type} {l : List α} {k : Nat} {x y : α}
    (hx : l[k]? = some x) (hy : l[k + 1]? = some y) : ∃ as bs, l = as ++ x :: y :: bs := by
  obtain ⟨hk, rfl⟩ := List.getElem?_eq_some_iff.mp hx
  obtain ⟨hk', rfl⟩ := List.getElem?_eq_some_iff.mp hy
  refine ⟨l.take k, l.drop (k + 2), ?_⟩
  rw [← List.drop_eq_getElem_cons hk', ← List.drop_eq_getElem_cons hk, List.take_append_drop]

section WellFormed
variable {g : BlockGraph} (hg : g.WellFormed)
include hg

theorem WellFormed.startsBlock_of_first {k : Nat} {b : Block} {i : Instruction} (hb : b ∈ g.blocks)
    (hk : b.first = k) (hi : g.instructions[k]? = some i) : g.StartsBlock i.address := by
  obtain ⟨n, hn⟩ := List.mem_iff_getElem?.mp hb
  exact ⟨n, hg.blockStartingAt?_iff_index.mpr ⟨b, i, hn, by rw [hk]; exact hi, rfl⟩⟩

/-- Behind a block the next one starts. -/
theorem WellFormed.startsBlock_limit {b : Block} {i : Instruction} (hb : b ∈ g.blocks)
    (hi : g.instructions[b.limit]? = some i) : g.StartsBlock i.address := by
  obtain ⟨n, hn⟩ := List.mem_iff_getElem?.mp hb
  obtain ⟨m, d, hd, hfirst, hlimit⟩ :=
    hg.tiled.exists_block (Nat.zero_le _) (List.getElem?_eq_some_iff.mp hi).1
  have hbounds := hg.tiled.bounds hb
  refine hg.startsBlock_of_first (List.mem_of_getElem? hd) ?_ hi
  rcases Nat.lt_or_ge d.first b.limit with hlt | hge
  · -- then the last instruction of the first block would lie in both
    have hnm := hg.tiled.position_eq (k := b.limit - 1) hn hd (by omega) (by omega)
    rw [hnm, hd, Option.some.injEq] at hn
    rw [hn] at hlimit
    omega
  · omega

/-- An instruction behind another one of its block starts no block. -/
theorem WellFormed.not_startsBlock_of_behind {n : Nat} {as bs : List Instruction}
    {i j : Instruction} (h : g.instructionsOf n = as ++ i :: j :: bs) :
    ¬ g.StartsBlock j.address := by
  rintro ⟨m, hm⟩
  obtain ⟨b, hb, hstart⟩ := hg.blockStartingAt?_eq_some.mp hm
  obtain ⟨k, rest, hk, hks⟩ := hg.head_of_getElem? hb
  have hbm := instructionsOf_of_getElem? hb
  have hmn : m = n := by
    refine hg.block_eq (i := k) (j := j) ?_ ?_ (hks.trans hstart)
    · rw [hbm, hk]; exact List.mem_cons_self
    · rw [h]; simp
  subst hmn
  -- the first instruction of the block stands in front of `j`
  have hfront : k ∈ as ++ [i] := by
    rw [h, hk] at hbm
    cases as with
    | nil =>
      rw [← (List.cons.inj hbm).1]
      exact List.mem_singleton_self _
    | cons l as =>
      rw [← (List.cons.inj hbm).1]
      exact List.mem_cons_self
  rw [List.append_cons] at h
  exact hg.ne_of_mem_front h hfront (hks.trans hstart)

end WellFormed

section Built
variable {stream : List Instruction} {overrides : Table InstructionKind} {extra : List Address}

theorem mem_decoded_of_mem {n : Nat} {i : Instruction}
    (h : i ∈ (build stream overrides extra).instructionsOf n) : i ∈ decoded stream overrides :=
  mem_instructions_of_mem h

/-- A block ends behind an instruction exactly where the pass ends one. -/
theorem exists_limit_iff {k : Nat} (hk : k < (decoded stream overrides).length) :
    (∃ b ∈ (build stream overrides extra).blocks, b.limit = k + 1) ↔
      EndsAt (decoded stream overrides) (leaders (decoded stream overrides) extra) k := by
  obtain ⟨hc, -, hindex⟩ := cuts_cut (pairwise_decoded stream overrides)
    (leaders (decoded stream overrides) extra)
  rw [← hc.ends k (by rw [hindex]; exact hk)]
  constructor
  · rintro ⟨b, hb, hl⟩
    obtain ⟨d, hd, rfl⟩ := List.mem_map.mp hb
    exact ⟨d, hd, hl⟩
  · rintro ⟨d, hd, hl⟩
    exact ⟨_, List.mem_map_of_mem hd, hl⟩

theorem startsBlock_of_first {i : Instruction} {rest : List Instruction}
    (h : decoded stream overrides = i :: rest) :
    (build stream overrides extra).StartsBlock i.address := by
  have hg := build_wellFormed stream overrides extra
  have hi : (build stream overrides extra).instructions[0]? = some i := by
    rw [instructions_build, h]
    rfl
  obtain ⟨n, b, hb, hfirst, -⟩ :=
    hg.tiled.exists_block (Nat.zero_le 0) (List.getElem?_eq_some_iff.mp hi).1
  exact hg.startsBlock_of_first (List.mem_of_getElem? hb) (Nat.le_zero.mp hfirst) hi

/-- **Neighbours** stand in one block if they are joined; else the first one ends a block, and the
second one starts one. -/
theorem build_neighbours {ls rest : List Instruction} {i j : Instruction}
    (h : decoded stream overrides = ls ++ i :: j :: rest) :
    (joined (leaders (decoded stream overrides) extra) i j = true ∧
      ∃ n as bs, (build stream overrides extra).instructionsOf n = as ++ i :: j :: bs) ∨
    (joined (leaders (decoded stream overrides) extra) i j = false ∧
      (∃ n as, (build stream overrides extra).instructionsOf n = as ++ [i]) ∧
      (build stream overrides extra).StartsBlock j.address) := by
  have hg := build_wellFormed stream overrides extra
  have hi : (decoded stream overrides)[ls.length]? = some i := by rw [h]; simp
  have hj : (decoded stream overrides)[ls.length + 1]? = some j := by rw [h]; simp
  have hlt := (List.getElem?_eq_some_iff.mp hi).1
  have hends : EndsAt (decoded stream overrides) (leaders (decoded stream overrides) extra)
      ls.length ↔ joined (leaders (decoded stream overrides) extra) i j = false := by
    simp [EndsAt, hi, hj, joined]
  cases hij : joined (leaders (decoded stream overrides) extra) i j with
  | true =>
    obtain ⟨n, b, hb, hfirst, hlimit⟩ := hg.tiled.exists_block (Nat.zero_le ls.length) hlt
    -- no block ends between the two, so the block of the first one goes on
    have hnot : b.limit ≠ ls.length + 1 := by
      intro hl
      have hend := hends.mp ((exists_limit_iff hlt).mp ⟨b, List.mem_of_getElem? hb, hl⟩)
      rw [hij] at hend
      cases hend
    refine Or.inl ⟨rfl, n, ?_⟩
    rw [instructionsOf_of_getElem? hb]
    refine exists_append_of_getElem? (k := ls.length - b.first) ?_ ?_
    · rw [getElem?_slice (by omega), Nat.add_sub_cancel' hfirst]
      exact hi
    · rw [getElem?_slice (by omega), ← Nat.add_assoc, Nat.add_sub_cancel' hfirst]
      exact hj
  | false =>
    obtain ⟨b, hb, hl⟩ := (exists_limit_iff hlt).mpr (hends.mpr hij)
    obtain ⟨n, hn⟩ := List.mem_iff_getElem?.mp hb
    have hlast : ((build stream overrides extra).slice b).getLast? = some i := by
      rw [hg.getLast?_slice hb, hl]
      exact hi
    obtain ⟨as, has⟩ := List.getLast?_eq_some_iff.mp hlast
    refine Or.inr ⟨rfl, ⟨n, as, ?_⟩, hg.startsBlock_limit hb (by rw [hl]; exact hj)⟩
    rw [instructionsOf_of_getElem? hn, has]

theorem build_joined {ls rest : List Instruction} {i j : Instruction}
    (h : decoded stream overrides = ls ++ i :: j :: rest)
    (hij : joined (leaders (decoded stream overrides) extra) i j = true) :
    ∃ n as bs, (build stream overrides extra).instructionsOf n = as ++ i :: j :: bs := by
  rcases build_neighbours h with ⟨-, hin⟩ | ⟨hij', -⟩
  · exact hin
  · rw [hij] at hij'
    cases hij'

theorem build_cut {ls rest : List Instruction} {i j : Instruction}
    (h : decoded stream overrides = ls ++ i :: j :: rest)
    (hij : joined (leaders (decoded stream overrides) extra) i j = false) :
    (∃ n as, (build stream overrides extra).instructionsOf n = as ++ [i]) ∧
      (build stream overrides extra).StartsBlock j.address := by
  rcases build_neighbours h with ⟨hij', -⟩ | ⟨-, hcut⟩
  · rw [hij] at hij'
    cases hij'
  · exact hcut

/-- The last instruction of all ends a block. -/
theorem build_last (extra : List Address) {ls : List Instruction} {i : Instruction}
    (h : decoded stream overrides = ls ++ [i]) :
    ∃ n as, (build stream overrides extra).instructionsOf n = as ++ [i] := by
  have hg := build_wellFormed stream overrides extra
  have hi : i ∈ (build stream overrides extra).instructions := by
    rw [instructions_build, h]; simp
  obtain ⟨n, hn⟩ := hg.mem_instructions.mp hi
  obtain ⟨as, bs, hs⟩ := List.append_of_mem hn
  cases bs with
  | nil => exact ⟨n, as, hs⟩
  | cons j bs =>
    -- an instruction behind `i` would have a higher address
    have hij : i.address < j.address := by
      have hp := hg.pairwise_instructionsOf n
      rw [hs] at hp
      exact (List.pairwise_cons.mp (List.pairwise_append.mp hp).2.1).1 j List.mem_cons_self
    have hj : j ∈ ls ++ [i] := by
      rw [← h]
      exact mem_decoded_of_mem (n := n) (by rw [hs]; simp)
    have hp := pairwise_decoded stream overrides
    rw [h] at hp
    rcases List.mem_append.mp hj with hj | hj
    · exact absurd hij (UInt64.lt_asymm ((List.pairwise_append.mp hp).2.2 j hj i (by simp)))
    · rw [List.mem_singleton.mp hj] at hij
      exact absurd hij (UInt64.lt_irrefl _)

/-- **An instruction starts a block** exactly if something makes it lead. -/
theorem startsBlock_iff_leads {i : Instruction} (hi : i ∈ decoded stream overrides) :
    (build stream overrides extra).StartsBlock i.address ↔
      Leads (decoded stream overrides) extra i := by
  have his := pairwise_decoded stream overrides
  have hg := build_wellFormed stream overrides extra
  obtain ⟨ls, rest, hs⟩ := List.append_of_mem hi
  rcases List.eq_nil_or_concat' ls with rfl | ⟨ls, p, rfl⟩
  · exact iff_of_true (startsBlock_of_first hs) (Or.inl (by rw [hs]; rfl))
  · rw [List.append_assoc, List.singleton_append] at hs
    rw [← joined_eq_false his hs]
    rcases build_neighbours hs with ⟨hij, n, as, bs, hn⟩ | ⟨hij, -, hstart⟩
    · exact iff_of_false (hg.not_startsBlock_of_behind hn) (by rw [hij]; exact Bool.noConfusion)
    · exact iff_of_true hstart hij

end Built

/-! ### The partition -/

/-- **A partition of the decoded instructions into blocks** that are as long as they may be. The
block of index `n` has the instructions from its first index up to its limit. -/
structure Partition (stream : List Instruction) (overrides : Table InstructionKind)
    (extra : List Address) (g : BlockGraph) : Prop where
  /-- At each address the first instruction of the stream that is not empty is decoded. -/
  decoded : ∀ i, i ∈ g.instructions ↔
    ∃ s, chosen? stream i.address = some s ∧ override overrides s = i
  increasing : g.instructions.Pairwise fun i j => i.address < j.address
  ids : ∀ (n : Nat) (b : Block), g.blocks[n]? = some b → b.id = n
  /-- The ranges of the blocks follow one another from the first instruction to the last one. -/
  nonempty : ∀ b ∈ g.blocks, b.first < b.limit
  first : ∀ b, g.blocks.head? = some b → b.first = 0
  next : ∀ (n : Nat) (b d : Block), g.blocks[n]? = some b → g.blocks[n + 1]? = some d →
    d.first = b.limit
  last : ∀ b, g.blocks.getLast? = some b → b.limit = g.instructions.length
  empty : g.blocks = [] ↔ g.instructions = []
  /-- A block starts where its first instruction does and ends with its last one. -/
  ends : ∀ b ∈ g.blocks, ∃ i l, g.instructions[b.first]? = some i ∧
    g.instructions[b.limit - 1]? = some l ∧
    b.start = i.address ∧ b.stop = l.stop ∧ b.terminator = l.kind
  parts : g.blocks.flatMap (fun b => g.instructionsOf b.id) = g.instructions
  instruction : ∀ a i, g.instructionAt? a = some i ↔ i ∈ g.instructions ∧ i.address = a
  containing : ∀ a n, g.blockContaining? a = some n ↔ ∃ b k i, g.blocks[n]? = some b ∧
    b.first ≤ k ∧ k < b.limit ∧ g.instructions[k]? = some i ∧ i.address = a
  starting : ∀ a n, g.blockStartingAt? a = some n ↔ ∃ b i, g.blocks[n]? = some b ∧
    g.instructions[b.first]? = some i ∧ i.address = a
  maximal : ∀ i ∈ g.instructions, (∃ n, g.blockStartingAt? i.address = some n) ↔
    Leads g.instructions extra i

/-- The graph of every stream is a partition of its decoded instructions. -/
theorem build_partition (stream : List Instruction) (overrides : Table InstructionKind)
    (extra : List Address) :
    Partition stream overrides extra (build stream overrides extra) := by
  have hg := build_wellFormed stream overrides extra
  have hi := instructions_build stream overrides extra
  refine
    { decoded := fun i => by rw [hi]; exact mem_decoded
      increasing := hg.increasing
      ids := hg.ids
      nonempty := fun b hb => (hg.tiled.bounds hb).2.1
      first := fun b hb => hg.tiled.head hb
      next := fun n b d hb hd => hg.tiled.next hb hd
      last := fun b hb => hg.tiled.last hb
      empty := ?_
      ends := hg.framed
      parts := ?_
      instruction := fun a i => hg.instructionAt?_eq_some
      containing := fun a n => hg.blockContaining?_iff_index
      starting := fun a n => hg.blockStartingAt?_iff_index
      maximal := fun i hmem => startsBlock_iff_leads hmem }
  · rw [hg.tiled.eq_nil_iff, eq_comm, List.length_eq_zero_iff]
  · rw [← hg.flatMap_slice]
    refine List.flatMap_congr fun b hb => ?_
    obtain ⟨n, hn⟩ := List.mem_iff_getElem?.mp hb
    rw [hg.ids n b hn, instructionsOf_of_getElem? hn]

end BlockGraph

end FlowState
