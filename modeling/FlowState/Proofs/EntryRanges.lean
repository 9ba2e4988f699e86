import FlowState.Proofs.FunctionRegions
import Mathlib.Data.List.Forall2

/-! # Ranges of entry points

The range of an entry point runs from its address to the highest end among the blocks that it
reaches. It is never turned around: if the entry point reaches any block, it reaches the one that
starts at its address, which ends no earlier (`WellFormed.start_le_stop`), however far below the
entry the other blocks lie. So every entry point lies in its own range (`spans_rangeOf`).

A look-up by address goes from a range to its name and from the name to a function. The names of the
functions are distinct, and every range has the name of one of them (`named_reconstruct`). So a
look-up finds the function of the first range that covers the address (`Named.functionAt?_eq_some`),
and it finds one wherever a range is (`Named.exists_functionAt?`). -/

namespace FlowState

/-! ### The greatest address -/

namespace Address

theorem foldl_greater (as : List Address) (a : Address) :
    (as.foldl (fun x y => if x < y then y else x) a = a ∨
        as.foldl (fun x y => if x < y then y else x) a ∈ as) ∧
      a ≤ as.foldl (fun x y => if x < y then y else x) a ∧
      ∀ b ∈ as, b ≤ as.foldl (fun x y => if x < y then y else x) a := by
  induction as generalizing a with
  | nil => exact ⟨Or.inl rfl, UInt64.le_refl a, fun b hb => by cases hb⟩
  | cons c as ih =>
    rw [List.foldl_cons]
    obtain ⟨hmem, hle, hall⟩ := ih (if a < c then c else a)
    have hc : c ≤ if a < c then c else a := by
      split_ifs with h
      · exact UInt64.le_refl c
      · exact UInt64.not_lt.mp h
    have ha : a ≤ if a < c then c else a := by
      split_ifs with h
      · exact UInt64.le_of_lt h
      · exact UInt64.le_refl a
    refine ⟨?_, UInt64.le_trans ha hle, ?_⟩
    · rcases hmem with heq | hmem
      · rw [heq]
        split_ifs
        · exact Or.inr List.mem_cons_self
        · exact Or.inl rfl
      · exact Or.inr (List.mem_cons_of_mem c hmem)
    · intro b hb
      rcases List.mem_cons.mp hb with rfl | hb
      · exact UInt64.le_trans hc hle
      · exact hall b hb

theorem greatest?_eq_some {as : List Address} {m : Address} (h : greatest? as = some m) :
    m ∈ as ∧ ∀ a ∈ as, a ≤ m := by
  cases as with
  | nil => cases h
  | cons a as =>
    obtain ⟨hmem, hle, hall⟩ := foldl_greater as a
    rw [Option.some.inj h] at hmem hle hall
    refine ⟨?_, fun b hb => ?_⟩
    · rcases hmem with rfl | hmem
      · exact List.mem_cons_self
      · exact List.mem_cons_of_mem a hmem
    · rcases List.mem_cons.mp hb with rfl | hb
      · exact hle
      · exact hall b hb

theorem greatest?_eq_none {as : List Address} : greatest? as = none ↔ as = [] := by
  cases as <;> simp [greatest?]

end Address

/-! ### Blocks that are reached -/

namespace BlockGraph

/-- A block does not end in front of its start. -/
theorem WellFormed.start_le_stop {g : BlockGraph} (hg : g.WellFormed) {n : Nat} {b : Block}
    (hb : g.blocks[n]? = some b) : b.start ≤ b.stop := by
  obtain ⟨i, hi, -, hstop, -⟩ := hg.exists_last hb
  rw [hstop]
  exact UInt64.le_trans (hg.start_le hb hi) i.address_le_stop

/-- Only the set of the entry points matters. -/
theorem reach_congr (g : BlockGraph) (entry : Address) {as bs : List Address} (stop : Bool)
    (h : ∀ a, a ∈ as ↔ a ∈ bs) : g.reach entry as stop = g.reach entry bs stop := by
  have hmay : g.mayEnter entry as stop = g.mayEnter entry bs stop := by
    funext n
    rw [Bool.eq_iff_iff, mayEnter_iff, mayEnter_iff]
    simp only [h]
  unfold reach
  rw [hmay]

section Reach
variable {g : BlockGraph} {entry : Address} {entryPoints : List Address} {stop : Bool}

theorem exists_block_of_mem_reach (hg : g.WellFormed) {n : Nat}
    (h : n ∈ g.reach entry entryPoints stop) : ∃ b, g.blocks[n]? = some b := by
  obtain ⟨m, hm, hpath⟩ := (mem_reach_iff hg).mp h
  rcases Relation.ReflTransGen.cases_tail hpath with rfl | ⟨k, -, hedge⟩
  · exact ⟨_, List.getElem?_eq_getElem (hg.lt_of_blockStartingAt? hm)⟩
  · exact ⟨_, List.getElem?_eq_getElem (lt_of_mayEnter hedge.2)⟩

/-- If any block is reached, then the one at the entry is. -/
theorem exists_entry_block (hg : g.WellFormed) (h : g.reach entry entryPoints stop ≠ []) :
    ∃ n ∈ g.reach entry entryPoints stop, ∃ b, g.blocks[n]? = some b ∧ b.start = entry := by
  obtain ⟨k, hk⟩ := List.exists_mem_of_ne_nil _ h
  obtain ⟨n, hn, -⟩ := (mem_reach_iff hg).mp hk
  exact ⟨n, (mem_reach_iff hg).mpr ⟨n, hn, .refl⟩, hg.blockStartingAt?_eq_some.mp hn⟩

end Reach

/-- The address is the highest end of some blocks, or the entry if there are no blocks. -/
def HighestEnd (g : BlockGraph) (blocks : List Nat) (entry a : Address) : Prop :=
  (blocks = [] ∧ a = entry) ∨
    (∃ n ∈ blocks, ∃ b, g.blocks[n]? = some b ∧ b.stop = a) ∧
      ∀ n ∈ blocks, ∃ b, g.blocks[n]? = some b ∧ b.stop ≤ a

end BlockGraph

theorem EntryRange.contains_iff {r : EntryRange} {a : Address} :
    r.contains a = true ↔ r.start ≤ a ∧ a ≤ r.stop := by
  simp [EntryRange.contains]

namespace Boundaries

/-! ### One range -/

/-- **The range of an entry point**: from its address to the highest end among the blocks that it
reaches. -/
structure Spans (g : BlockGraph) (es : List EntryPoint) (stop : Bool) (e : EntryPoint)
    (r : EntryRange) : Prop where
  name_eq : r.name = e.name
  start_eq : r.start = e.address
  ordered : r.start ≤ r.stop
  highest : g.HighestEnd (g.reach e.address (es.map (·.address)) stop) e.address r.stop

theorem highestEnd_rangeOf {g : BlockGraph} {e : EntryPoint} {blocks : List Nat}
    (hblocks : ∀ n ∈ blocks, ∃ b, g.blocks[n]? = some b) :
    g.HighestEnd blocks e.address (rangeOf g e blocks).stop := by
  unfold rangeOf
  simp only
  cases hmax : Address.greatest? ((blocks.filterMap fun n => g.blocks[n]?).map Block.stop) with
  | none =>
    left
    rw [Address.greatest?_eq_none, List.map_eq_nil_iff, List.filterMap_eq_nil_iff] at hmax
    refine ⟨List.eq_nil_iff_forall_not_mem.mpr fun n hn => ?_, rfl⟩
    obtain ⟨b, hb⟩ := hblocks n hn
    rw [hmax n hn] at hb
    cases hb
  | some m =>
    right
    obtain ⟨hmem, hall⟩ := Address.greatest?_eq_some hmax
    refine ⟨?_, fun n hn => ?_⟩
    · obtain ⟨b, hb, rfl⟩ := List.mem_map.mp hmem
      obtain ⟨n, hn, hnb⟩ := List.mem_filterMap.mp hb
      exact ⟨n, hn, b, hnb, rfl⟩
    · obtain ⟨b, hb⟩ := hblocks n hn
      exact ⟨b, hb, hall _ (List.mem_map_of_mem (List.mem_filterMap.mpr ⟨n, hn, hb⟩))⟩

/-- **Every entry point has its range.** -/
theorem spans_rangeOf {g : BlockGraph} (hg : g.WellFormed) (es : List EntryPoint) (stop : Bool)
    (e : EntryPoint) :
    Spans g es stop e (rangeOf g e (g.reach e.address (es.map (·.address)) stop)) := by
  have hblocks : ∀ n ∈ g.reach e.address (es.map (·.address)) stop, ∃ b, g.blocks[n]? = some b :=
    fun n hn => BlockGraph.exists_block_of_mem_reach hg hn
  have hhigh := highestEnd_rangeOf (e := e) hblocks
  refine ⟨rfl, rfl, ?_, hhigh⟩
  rcases hhigh with ⟨-, hstop⟩ | ⟨⟨k, hk, -⟩, hall⟩
  · rw [hstop]
    exact UInt64.le_refl _
  · -- the block at the entry ends behind the entry, and no higher than the range
    obtain ⟨n, hn, b, hb, hstart⟩ := BlockGraph.exists_entry_block hg (List.ne_nil_of_mem hk)
    obtain ⟨c, hc, hle⟩ := hall n hn
    rw [hb, Option.some.injEq] at hc
    subst hc
    have := hg.start_le_stop hb
    rw [hstart] at this
    exact UInt64.le_trans this hle

theorem ranges_reconstruct (g : BlockGraph) (es : List EntryPoint) (stop : Bool) :
    (reconstruct g es stop).ranges = es.eraseDups.map fun e =>
      rangeOf g e (g.reach e.address (es.map (·.address)) stop) := by
  refine List.map_congr_left fun e _ => congrArg (rangeOf g e) ?_
  refine BlockGraph.reach_congr g e.address stop fun a => ?_
  simp only [List.mem_map, List.mem_eraseDups]

/-! ### Look-ups -/

/-- The names of the functions are distinct, and each range has the name of one of them. -/
structure Named (b : Boundaries) : Prop where
  distinct : (b.functions.map (·.name)).Nodup
  owned : ∀ r ∈ b.ranges, ∃ f ∈ b.functions, f.name = r.name

theorem named_reconstruct (g : BlockGraph) (es : List EntryPoint) (stop : Bool) :
    (reconstruct g es stop).Named := by
  have hgroup := grouped_reconstruct g es stop
  constructor
  · rw [hgroup.names]
    exact FirstOccurrences.nodup_eraseDups _
  · intro r hr
    rw [ranges_reconstruct] at hr
    obtain ⟨e, he, rfl⟩ := List.mem_map.mp hr
    exact hgroup.mem_names.mpr (List.mem_map.mpr ⟨e, he, rfl⟩)

section Named
variable {b : Boundaries} (hb : b.Named)
include hb

theorem Named.functionNamed?_eq_some {name : String} {f : Function} :
    b.functionNamed? name = some f ↔ f ∈ b.functions ∧ f.name = name := by
  unfold functionNamed?
  constructor
  · intro h
    exact ⟨List.mem_of_find?_eq_some h, by simpa using List.find?_some h⟩
  · rintro ⟨hf, rfl⟩
    cases hfind : b.functions.find? fun d => d.name == f.name with
    | none => exact absurd (List.find?_eq_none.mp hfind f hf) (by simp)
    | some d =>
      have hd : d.name = f.name := by simpa using List.find?_some hfind
      rw [List.inj_on_of_nodup_map hb.distinct (List.mem_of_find?_eq_some hfind) hf hd]

/-- **A look-up takes the function of the first range** that covers the address. -/
theorem Named.functionAt?_eq_some {a : Address} {f : Function} :
    b.functionAt? a = some f ↔ ∃ front r rest, b.ranges = front ++ r :: rest ∧
      (∀ q ∈ front, ¬ (q.start ≤ a ∧ a ≤ q.stop)) ∧ (r.start ≤ a ∧ a ≤ r.stop) ∧
        f ∈ b.functions ∧ f.name = r.name := by
  unfold functionAt?
  rw [Option.bind_eq_some_iff]
  constructor
  · rintro ⟨r, hr, hf⟩
    obtain ⟨hcover, front, rest, heq, hfront⟩ := List.find?_eq_some_iff_append.mp hr
    refine ⟨front, r, rest, heq, fun q hq hin => ?_, EntryRange.contains_iff.mp hcover,
      hb.functionNamed?_eq_some.mp hf⟩
    have := hfront q hq
    rw [EntryRange.contains_iff.mpr hin] at this
    cases this
  · rintro ⟨front, r, rest, heq, hfront, hcover, hf⟩
    refine ⟨r, List.find?_eq_some_iff_append.mpr ⟨EntryRange.contains_iff.mpr hcover, front, rest,
      heq, fun q hq => ?_⟩, hb.functionNamed?_eq_some.mpr hf⟩
    rw [Bool.not_eq_true', Bool.eq_false_iff, Ne, EntryRange.contains_iff]
    exact hfront q hq

/-- **A look-up finds a function exactly where a range is.** -/
theorem Named.exists_functionAt? {a : Address} :
    (∃ f, b.functionAt? a = some f) ↔ ∃ r ∈ b.ranges, r.start ≤ a ∧ a ≤ r.stop := by
  constructor
  · rintro ⟨f, hf⟩
    obtain ⟨front, r, rest, heq, -, hcover, -⟩ := hb.functionAt?_eq_some.mp hf
    exact ⟨r, by simp [heq], hcover⟩
  · rintro ⟨r, hr, hcover⟩
    cases hfind : b.ranges.find? fun q => q.contains a with
    | none => exact absurd (EntryRange.contains_iff.mpr hcover) (List.find?_eq_none.mp hfind r hr)
    | some q =>
      obtain ⟨f, hf, hname⟩ := hb.owned q (List.mem_of_find?_eq_some hfind)
      refine ⟨f, ?_⟩
      unfold functionAt?
      rw [hfind, Option.bind_some, hb.functionNamed?_eq_some]
      exact ⟨hf, hname⟩

end Named

/-- The functions have the entry points among them. -/
theorem mem_entryPoints_reconstruct (g : BlockGraph) {es : List EntryPoint} (stop : Bool)
    {e : EntryPoint} :
    e ∈ (reconstruct g es stop).functions.flatMap (·.entryPoints) ↔ e ∈ es := by
  have hgroup := grouped_reconstruct g es stop
  rw [List.mem_flatMap, ← List.mem_eraseDups (l := es)]
  constructor
  · rintro ⟨f, hf, he⟩
    rw [(hgroup.collects f hf).entryPoints] at he
    exact (List.mem_filter.mp he).1
  · intro he
    obtain ⟨f, hf, hname⟩ := hgroup.mem_names.mpr (List.mem_map.mpr ⟨e, he, rfl⟩)
    refine ⟨f, hf, ?_⟩
    rw [(hgroup.collects f hf).entryPoints]
    exact List.mem_filter.mpr ⟨he, by simp [hname]⟩

theorem exists_entryPointAt? (g : BlockGraph) {es : List EntryPoint} (stop : Bool) {e : EntryPoint}
    (he : e ∈ es) : ∃ d ∈ es, (reconstruct g es stop).entryPointAt? e.address = some d ∧
      d.address = e.address := by
  unfold entryPointAt?
  cases hfind : ((reconstruct g es stop).functions.flatMap (·.entryPoints)).find?
      fun d => d.address == e.address with
  | none =>
    have hnone := List.find?_eq_none.mp hfind e ((mem_entryPoints_reconstruct g stop).mpr he)
    exact absurd hnone (by simp)
  | some d =>
    have hd := (mem_entryPoints_reconstruct g stop).mp (List.mem_of_find?_eq_some hfind)
    exact ⟨d, hd, rfl, by simpa using List.find?_some hfind⟩

/-! ### Reconstruction -/

/-- **The ranges of entry points and the look-ups by address.** -/
structure Located (g : BlockGraph) (es : List EntryPoint) (stop : Bool) (b : Boundaries) :
    Prop where
  /-- One range for each entry point, in the order of their first appearance. -/
  ranges : List.Forall₂ (Spans g es stop) es.eraseDups b.ranges
  found : ∀ a, (∃ f, b.functionAt? a = some f) ↔ ∃ r ∈ b.ranges, r.start ≤ a ∧ a ≤ r.stop
  /-- What is found is the function with the name of the first range that covers the address. -/
  first : ∀ a f, b.functionAt? a = some f ↔ ∃ front r rest, b.ranges = front ++ r :: rest ∧
    (∀ q ∈ front, ¬ (q.start ≤ a ∧ a ≤ q.stop)) ∧ (r.start ≤ a ∧ a ≤ r.stop) ∧
      f ∈ b.functions ∧ f.name = r.name
  function : ∀ e ∈ es, ∃ f, b.functionAt? e.address = some f
  entry : ∀ e ∈ es, ∃ d ∈ es, b.entryPointAt? e.address = some d ∧ d.address = e.address

/-- In every built graph the entry points have their ranges, and are found by their addresses. -/
theorem reconstruct_located (stream : List Instruction) (overrides : Table InstructionKind)
    (extra : List Address) (es : List EntryPoint) (stop : Bool) :
    Located (.build stream overrides extra) es stop
      (reconstruct (.build stream overrides extra) es stop) := by
  have hg := BlockGraph.build_wellFormed stream overrides extra
  have hnamed := named_reconstruct (.build stream overrides extra) es stop
  have hranges := ranges_reconstruct (.build stream overrides extra) es stop
  refine
    { ranges := ?_
      found := fun a => hnamed.exists_functionAt?
      first := fun a f => hnamed.functionAt?_eq_some
      function := fun e he => hnamed.exists_functionAt?.mpr ?_
      entry := fun e he => exists_entryPointAt? _ stop he }
  · rw [hranges, List.forall₂_map_right_iff]
    exact List.forall₂_same.mpr fun e _ => spans_rangeOf hg es stop e
  · have hspans := spans_rangeOf hg es stop e
    refine ⟨_, ?_, by rw [hspans.start_eq]; exact UInt64.le_refl _,
      by rw [← hspans.start_eq]; exact hspans.ordered⟩
    rw [hranges]
    exact List.mem_map_of_mem (List.mem_eraseDups.mpr he)

end Boundaries

end FlowState
