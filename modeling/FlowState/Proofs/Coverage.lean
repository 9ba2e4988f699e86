import FlowState.Proofs.Arrivals

/-! # The addresses that get a state

If every seed is the start of a block, the addresses with a state are those of the blocks that the
seeds reach (`Runs.mem_keys_iff`). A path of the state walk stays in the reach of its seed
(`covers_onward`). Conversely the addresses with a state contain the seeds and what follows them: a
block that is entered is passed to its end (`Runs.block_covered`), and the blocks behind it are
entered. With the stop rule on, the walk from a seed may enter the block of that seed where the walk
from another seed may not; but that block has its states from its own seed. -/

namespace FlowState

/-- The address is that of an instruction in a block that the seed reaches. -/
def Covers (input : WalkInput) (root a : Address) : Prop :=
  ∃ n ∈ input.graph.reach root input.entryPoints input.stopAtEntryPoints,
    ∃ i ∈ input.graph.instructionsOf n, i.address = a

section Coverage
variable {input : WalkInput} (hg : input.graph.WellFormed)
include hg

/-! ### Paths stay in the reach -/

theorem covers_seed {root : Address} {n : Nat} (h : input.graph.blockStartingAt? root = some n) :
    Covers input root root := by
  refine ⟨n, (BlockGraph.mem_reach_iff hg).mpr ⟨n, h, .refl⟩, ?_⟩
  obtain ⟨b, hb, rfl⟩ := hg.blockStartingAt?_eq_some.mp h
  obtain ⟨i, rest, hi, hs⟩ := hg.head_of_getElem? hb
  exact ⟨i, by rw [BlockGraph.instructionsOf_of_getElem? hb, hi]; exact List.mem_cons_self, hs⟩

theorem covers_onward {root a b : Address} (h : Covers input root a)
    (hb : b ∈ onward input root a) : Covers input root b := by
  obtain ⟨n, hn, i, hi, rfl⟩ := h
  rcases onward_cases hg hb with ⟨m, ls, j, k, rest, hs, hj, rfl⟩ | ⟨m, ls, j, hs, hj, he⟩
  · have hnm : m = n := hg.block_eq (i := j) (by rw [hs]; simp) hi hj
    subst hnm
    exact ⟨m, hn, k, by rw [hs]; simp, rfl⟩
  · have hnm : m = n := hg.block_eq (i := j) (by rw [hs]; simp) hi hj
    subst hnm
    obtain ⟨k, hk, hmay, d, hd, rfl⟩ := mem_exits.mp he
    obtain ⟨l, rest, hl, hstart⟩ := hg.head_of_getElem? hd
    refine ⟨k, BlockGraph.mem_reach_of_enters hg hn ⟨hk, hmay⟩, l, ?_, hstart⟩
    rw [BlockGraph.instructionsOf_of_getElem? hd, hl]
    exact List.mem_cons_self

theorem Runs.covered {seeds : List (Address × StateValue)} {q : Pass}
    (hseeds : ∀ e ∈ seeds, (∃ i, input.graph.instructionAt? e.1 = some i) →
      ∃ n, input.graph.blockStartingAt? e.1 = some n)
    (h : Runs input .start (seeds.map Carried.ofSeed) (.ok q)) {a : Address}
    (ha : a ∈ q.pre.keys) : ∃ e ∈ seeds, Covers input e.1 a := by
  refine (Runs.invariant (I := fun p cs =>
    (∀ a ∈ p.pre.keys, ∃ e ∈ seeds, Covers input e.1 a) ∧
    ∀ c ∈ cs, (∃ i, input.graph.instructionAt? c.address = some i) →
      (∃ e ∈ seeds, e.1 = c.root) ∧ Covers input c.root c.address) ?_ ?_ ?_ h ?_).1 a ha
  · rintro p c cs ⟨hp, hcs⟩
    exact ⟨hp, fun d hd => hcs d (List.mem_cons_of_mem c hd)⟩
  · rintro p c cs first - ⟨hp, hcs⟩
    rw [Pass.pre_meet]
    exact ⟨hp, fun d hd => hcs d (List.mem_cons_of_mem c hd)⟩
  · rintro p c cs i fixup post hi - - ⟨hp, hcs⟩
    obtain ⟨⟨e, he, hroot⟩, hc⟩ := hcs c List.mem_cons_self ⟨i, hi⟩
    refine ⟨fun b hb => ?_, fun d hd hdec => ?_⟩
    · rw [Pass.pre_visit, Table.mem_keys, Table.get?_insert] at hb
      split_ifs at hb with hbc
      · rw [hbc]
        exact ⟨e, he, by rw [hroot]; exact hc⟩
      · exact hp b (Table.mem_keys.mpr hb)
    · rcases List.mem_append.mp hd with hd | hd
      · obtain ⟨b, hb, rfl⟩ := List.mem_map.mp hd
        exact ⟨⟨e, he, hroot⟩, covers_onward hg hc hb⟩
      · exact hcs d (List.mem_cons_of_mem c hd) hdec
  · refine ⟨fun b hb => absurd hb List.not_mem_nil, fun c hc hdec => ?_⟩
    obtain ⟨e, he, rfl⟩ := List.mem_map.mp hc
    obtain ⟨n, hn⟩ := hseeds e he hdec
    exact ⟨⟨e, he, rfl⟩, covers_seed hg hn⟩

/-! ### The reach is passed -/

/-- A block that is entered at an instruction is passed from there on. -/
theorem Runs.rest_covered {cs : List Carried} {q : Pass} (h : Runs input .start cs (.ok q))
    {n : Nat} {ls rest : List Instruction} {i : Instruction}
    (hs : input.graph.instructionsOf n = ls ++ i :: rest) (hi : i.address ∈ q.pre.keys) :
    ∀ j ∈ rest, j.address ∈ q.pre.keys := by
  induction rest generalizing ls i with
  | nil => intro j hj; cases hj
  | cons k rest ih =>
    obtain ⟨v, root, -, hon⟩ := h.receives_of_mem hg hi
    rw [onward_inside hg hs] at hon
    obtain ⟨s, hk, -⟩ := hon k.address (List.mem_singleton_self _)
    have hk := Table.mem_keys_of_get? hk
    have hs' : input.graph.instructionsOf n = (ls ++ [i]) ++ k :: rest := by rw [hs]; simp
    intro j hj
    rcases List.mem_cons.mp hj with rfl | hj
    · exact hk
    · exact ih hs' hk j hj

theorem Runs.block_covered {cs : List Carried} {q : Pass} (h : Runs input .start cs (.ok q))
    {n : Nat} {b : Block} (hb : input.graph.blocks[n]? = some b) (hstart : b.start ∈ q.pre.keys) :
    ∀ i ∈ input.graph.instructionsOf n, i.address ∈ q.pre.keys := by
  obtain ⟨i, rest, hi, hs⟩ := hg.head_of_getElem? hb
  have hsplit : input.graph.instructionsOf n = [] ++ i :: rest := by
    rw [BlockGraph.instructionsOf_of_getElem? hb, hi]; rfl
  rw [← hs] at hstart
  intro j hj
  rw [hsplit] at hj
  rcases List.mem_cons.mp hj with rfl | hj
  · exact hstart
  · exact h.rest_covered hg hsplit hstart j hj

/-- From a block that is passed every block behind it is entered, but for the start of the path. -/
theorem Runs.exit_covered {cs : List Carried} {q : Pass} (h : Runs input .start cs (.ok q))
    {n m : Nat} {b d : Block} (hb : input.graph.blocks[n]? = some b)
    (hn : ∀ i ∈ input.graph.instructionsOf n, i.address ∈ q.pre.keys)
    (hm : input.graph.Follows n m) (hd : input.graph.blocks[m]? = some d)
    (hstop : input.stopAtEntryPoints = false ∨ d.start ∉ input.entryPoints) :
    d.start ∈ q.pre.keys := by
  obtain ⟨i, hi, hlast, -⟩ := hg.exists_last hb
  rw [← BlockGraph.instructionsOf_of_getElem? hb] at hi
  obtain ⟨v, root, -, hon⟩ := h.receives_of_mem hg (hn i hi)
  obtain ⟨s, hs, -⟩ :=
    hon d.start (mem_onward_of_leadsTo hg ⟨n, b, m, hb, hlast, hm, hd⟩ hstop root)
  exact Table.mem_keys_of_get? hs

theorem Runs.reach_covered {seeds : List (Address × StateValue)} {q : Pass}
    (h : Runs input .start (seeds.map Carried.ofSeed) (.ok q)) {e : Address × StateValue}
    (he : e ∈ seeds) {n : Nat}
    (hn : n ∈ input.graph.reach e.1 input.entryPoints input.stopAtEntryPoints) :
    ∀ i ∈ input.graph.instructionsOf n, i.address ∈ q.pre.keys := by
  obtain ⟨m, hm, hpath⟩ := (BlockGraph.mem_reach_iff hg).mp hn
  obtain ⟨b, hb, hstart⟩ := hg.blockStartingAt?_eq_some.mp hm
  have hseed : e.1 ∈ q.pre.keys := by
    obtain ⟨i, rest, hi, hs⟩ := hg.head_of_getElem? hb
    have hdec : input.graph.instructionAt? e.1 = some i := by
      rw [← hstart, ← hs]
      refine hg.instructionAt?_of_mem (n := m) ?_
      rw [BlockGraph.instructionsOf_of_getElem? hb, hi]
      exact List.mem_cons_self
    obtain ⟨s, hs, -⟩ := h.receives .start (List.mem_map.mpr ⟨e, he, rfl⟩) ⟨i, hdec⟩
    exact Table.mem_keys_of_get? hs
  clear hn
  induction hpath with
  | refl => exact h.block_covered hg hb (by rw [hstart]; exact hseed)
  | tail _ hedge ih =>
    obtain ⟨⟨c, hc, hout⟩, hmay⟩ := hedge
    obtain ⟨d, hd, hback | hstop⟩ := BlockGraph.mayEnter_iff.mp hmay
    -- the edge leads back to the seed, or the stop rule lets every path pass
    · exact h.block_covered hg hd (by rw [hback]; exact hseed)
    · exact h.block_covered hg hd (h.exit_covered hg hc ih ⟨c, hc, hout⟩ hd hstop)

/-- **The addresses with a state** are those that the seeds cover. -/
theorem Runs.mem_keys_iff {seeds : List (Address × StateValue)} {q : Pass}
    (hseeds : ∀ e ∈ seeds, (∃ i, input.graph.instructionAt? e.1 = some i) →
      ∃ n, input.graph.blockStartingAt? e.1 = some n)
    (h : Runs input .start (seeds.map Carried.ofSeed) (.ok q)) {a : Address} :
    a ∈ q.pre.keys ↔ ∃ e ∈ seeds, Covers input e.1 a := by
  constructor
  · exact h.covered hg hseeds
  · rintro ⟨e, he, n, hn, i, hi, rfl⟩
    exact h.reach_covered hg he hn i hi

end Coverage

/-! ### The law of a calculation -/

namespace Calculator

theorem mem_keys_of_calculate {stream : List Instruction} {overrides : Table InstructionKind}
    {extra : List Address} {c c' : Calculator} {input : CalculatorInput} {cancelled : Nat → Bool}
    {fixups : List Fixup} (hg : input.graph = .build stream overrides extra)
    (hseeds : ∀ e ∈ c.seeds, (∃ i, input.graph.instructionAt? e.1 = some i) →
      ∃ n, input.graph.blockStartingAt? e.1 = some n)
    (h : c.calculate input cancelled = (c', .ok fixups)) :
    c'.pre.Sorted ∧ ∀ a, a ∈ c'.pre.keys ↔
      ∃ e ∈ c.seeds, ∃ n ∈ input.graph.reach e.1 input.entryPoints c.stopAtEntryPoints,
        ∃ i ∈ input.graph.instructionsOf n, i.address = a := by
  have hw : input.graph.WellFormed := by rw [hg]; exact BlockGraph.build_wellFormed _ _ _
  obtain ⟨q, hr, hpre, -, -⟩ := runs_of_calculate hw h
  rw [hpre]
  exact ⟨(hr.lawful .start).pre_sorted, fun a => hr.mem_keys_iff hw hseeds⟩

/-- **The state walk and the boundary walk agree on reach.** If every decoded seed starts a block,
the addresses with a state are those of the instructions in the blocks that the seeds reach. So they
are the same for any two calculations on one graph, with the same entry points and stop rule and
with seeds at the same addresses, in whatever order and with whatever states, update functions,
annotations and memories. -/
theorem calculate_coverage {stream : List Instruction} {overrides : Table InstructionKind}
    {extra : List Address} {c c' : Calculator} {input : CalculatorInput} {cancelled : Nat → Bool}
    {fixups : List Fixup} (hg : input.graph = .build stream overrides extra)
    (hseeds : ∀ e ∈ c.seeds, (∃ i, input.graph.instructionAt? e.1 = some i) →
      ∃ n, input.graph.blockStartingAt? e.1 = some n)
    (h : c.calculate input cancelled = (c', .ok fixups)) :
    (∀ a, a ∈ c'.pre.keys ↔
      ∃ e ∈ c.seeds, ∃ n ∈ input.graph.reach e.1 input.entryPoints c.stopAtEntryPoints,
        ∃ i ∈ input.graph.instructionsOf n, i.address = a) ∧
    ∀ (d d' : Calculator) (input' : CalculatorInput) (cancelled' : Nat → Bool)
      (fixups' : List Fixup), input'.graph = input.graph →
      input'.entryPoints = input.entryPoints → d.stopAtEntryPoints = c.stopAtEntryPoints →
      (∀ a, a ∈ d.seeds.map (·.1) ↔ a ∈ c.seeds.map (·.1)) →
      d.calculate input' cancelled' = (d', .ok fixups') → d'.pre.keys = c'.pre.keys := by
  obtain ⟨hsort, hkeys⟩ := mem_keys_of_calculate hg hseeds h
  refine ⟨hkeys, fun d d' input' cancelled' fixups' hgraph hentry hstop hsame hd => ?_⟩
  have hseeds' : ∀ e ∈ d.seeds, (∃ i, input'.graph.instructionAt? e.1 = some i) →
      ∃ n, input'.graph.blockStartingAt? e.1 = some n := by
    intro e he hdec
    obtain ⟨f, hf, hfe⟩ := List.mem_map.mp ((hsame e.1).mp (List.mem_map_of_mem he))
    rw [hgraph, ← hfe] at hdec ⊢
    exact hseeds f hf hdec
  obtain ⟨hsort', hkeys'⟩ := mem_keys_of_calculate (hgraph.trans hg) hseeds' hd
  refine hsort'.keys_ext hsort fun a => ?_
  rw [hkeys, hkeys', hgraph, hentry, hstop]
  constructor
  · rintro ⟨e, he, hn⟩
    obtain ⟨f, hf, hfe⟩ := List.mem_map.mp ((hsame e.1).mp (List.mem_map_of_mem he))
    exact ⟨f, hf, by rw [hfe]; exact hn⟩
  · rintro ⟨e, he, hn⟩
    obtain ⟨f, hf, hfe⟩ := List.mem_map.mp ((hsame e.1).mpr (List.mem_map_of_mem he))
    exact ⟨f, hf, by rw [hfe]; exact hn⟩

end Calculator

/-! ### Two seeds that stop each other

Both ends of the loop are entry points and seeds, and the stop rule is on: neither walk enters the
start of the other one. -/

namespace Loop

def inputStopped : CalculatorInput := { input with entryPoints := [0x10, 0x12] }

def beforeStopped : Calculator :=
  { before with stopAtEntryPoints := true, seeds := [(0x12, ⟨[7]⟩), (0x10, ⟨[0]⟩)] }

def afterStopped : Calculator :=
  { beforeStopped with
    pre := ⟨[(0x10, ⟨[0]⟩), (0x11, ⟨[1]⟩), (0x12, ⟨[7]⟩)]⟩
    post := ⟨[(0x10, ⟨[1]⟩), (0x11, ⟨[9]⟩), (0x12, ⟨[3]⟩)]⟩ }

def fixupsStopped : List Fixup := [⟨0x11, .injection, some ⟨[9]⟩, ⟨[3]⟩, .acceptExpected⟩]

theorem calculate_beforeStopped :
    beforeStopped.calculate inputStopped (fun _ => false) = (afterStopped, .ok fixupsStopped) := by
  cbv

theorem starts_block_of_seed : ∀ e ∈ beforeStopped.seeds,
    (∃ i, inputStopped.graph.instructionAt? e.1 = some i) →
      ∃ n, inputStopped.graph.blockStartingAt? e.1 = some n := by
  intro e he _
  rcases List.mem_cons.mp he with rfl | he
  · exact ⟨2, rfl⟩
  · rw [List.mem_singleton.mp he]
    exact ⟨0, rfl⟩

theorem coverage_stopped :
    beforeStopped.calculate inputStopped (fun _ => false) = (afterStopped, .ok fixupsStopped) ∧
    ∀ a, a ∈ afterStopped.pre.keys ↔ ∃ e ∈ beforeStopped.seeds,
      ∃ n ∈ inputStopped.graph.reach e.1 inputStopped.entryPoints beforeStopped.stopAtEntryPoints,
        ∃ i ∈ inputStopped.graph.instructionsOf n, i.address = a :=
  ⟨calculate_beforeStopped,
    (Calculator.calculate_coverage (rfl : inputStopped.graph = .build stream .empty [])
      starts_block_of_seed calculate_beforeStopped).1⟩

end Loop

end FlowState
