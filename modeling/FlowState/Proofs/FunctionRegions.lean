import FlowState.Boundaries
import FlowState.Proofs.BuiltGraph
import FlowState.Proofs.FirstOccurrences
import FlowState.Proofs.ReachedBlocks

/-! # Functions are regions

The functions of some entry points are their groups by name (`Grouped`): one more entry point
extends the function of its name, or adds a function at the end (`Grouped.addReach`). Each walk from
an entry point stops at all other ones, also at those of its own function. The walks together still
give the whole region of the function, the blocks at the end of a path that stays out of the other
functions' entry points (`reaches_iff_exists_reach`): where a path passes an entry point of the
function, the walk from there takes over. -/

namespace FlowState

namespace BlockGraph

theorem nodup_walk {g : BlockGraph} {enter : Nat → Bool} {visited stack : List Nat}
    (h : visited.Nodup) : (g.walk enter visited stack).Nodup := by
  induction visited, stack using walk.induct g enter with
  | case1 visited =>
    rw [walk]
    exact h
  | case2 visited n stack hn ih =>
    have hv : n ∉ visited := by simpa using hn.2
    rw [walk_visit hn.1 hv]
    exact ih (List.nodup_cons.mpr ⟨hv, h⟩)
  | case3 visited n stack hn ih =>
    rw [walk_skip (by simpa using hn)]
    exact ih h

theorem nodup_reach (g : BlockGraph) (entry : Address) (entryPoints : List Address) (stop : Bool) :
    (g.reach entry entryPoints stop).Nodup := by
  unfold reach
  split
  · exact List.nodup_reverse.mpr (nodup_walk List.nodup_nil)
  · exact List.nodup_nil

end BlockGraph

/-! ### Groups by name -/

namespace Boundaries

/-- The function holds the entry points of its name, in their order, and their blocks, each once. -/
structure Collects (blocksOf : EntryPoint → List Nat) (es : List EntryPoint) (f : Function) :
    Prop where
  entryPoints : f.entryPoints = es.filter fun e => e.name == f.name
  nodup : f.blocks.Nodup
  blocks : ∀ n, n ∈ f.blocks ↔ ∃ e ∈ f.entryPoints, n ∈ blocksOf e

/-- The functions are the groups of the entry points, in the order of their names. -/
structure Grouped (blocksOf : EntryPoint → List Nat) (es : List EntryPoint) (fs : List Function) :
    Prop where
  names : fs.map (·.name) = (es.map (·.name)).eraseDups
  collects : ∀ f ∈ fs, Collects blocksOf es f

section Grouped
variable {blocksOf : EntryPoint → List Nat} {es : List EntryPoint} {e : EntryPoint}

theorem Collects.of_ne {f : Function} (h : Collects blocksOf es f) (hne : f.name ≠ e.name) :
    Collects blocksOf (es ++ [e]) f := by
  refine ⟨?_, h.nodup, h.blocks⟩
  have hno : [e].filter (fun d => d.name == f.name) = [] := by simp [Ne.symm hne]
  rw [List.filter_append, hno, List.append_nil]
  exact h.entryPoints

theorem Collects.extend {f : Function} (h : Collects blocksOf es f) (hname : f.name = e.name)
    (hnd : (blocksOf e).Nodup) : Collects blocksOf (es ++ [e]) (extend f e (blocksOf e)) := by
  unfold Boundaries.extend
  refine ⟨?_, ?_, fun n => ?_⟩
  · rw [List.filter_append, ← h.entryPoints]
    simp [hname]
  · refine h.nodup.append (hnd.filter _) ?_
    intro n hn hn'
    have := (List.mem_filter.mp hn').2
    simp [hn] at this
  · -- a block of the new entry point is there already, or it is added now
    simp only [List.mem_append, List.mem_filter, h.blocks n, List.mem_singleton]
    constructor
    · rintro (⟨d, hd, hn⟩ | ⟨hn, -⟩)
      · exact ⟨d, Or.inl hd, hn⟩
      · exact ⟨e, Or.inr rfl, hn⟩
    · rintro ⟨d, hd | rfl, hn⟩
      · exact Or.inl ⟨d, hd, hn⟩
      · by_cases hold : n ∈ f.blocks
        · exact Or.inl ((h.blocks n).mp hold)
        · exact Or.inr ⟨hn, by simpa using hold⟩

theorem Collects.new (hnew : e.name ∉ es.map (·.name)) : Collects blocksOf es ⟨e.name, [], []⟩ := by
  refine ⟨?_, List.nodup_nil, by simp⟩
  refine (List.filter_eq_nil_iff.mpr fun d hd hn => hnew ?_).symm
  exact List.mem_map.mpr ⟨d, hd, by simpa using hn⟩

theorem Grouped.mem_names {fs : List Function} (h : Grouped blocksOf es fs) {name : String} :
    (∃ f ∈ fs, f.name = name) ↔ name ∈ es.map (·.name) := by
  rw [← List.mem_eraseDups (l := es.map (·.name)), ← h.names, List.mem_map]

/-- **One more entry point.** -/
theorem Grouped.addReach {fs : List Function} (h : Grouped blocksOf es fs)
    (hnd : (blocksOf e).Nodup) : Grouped blocksOf (es ++ [e]) (addReach fs e (blocksOf e)) := by
  unfold Boundaries.addReach
  split_ifs with hany
  · obtain ⟨f, hf, hfe⟩ := List.any_eq_true.mp hany
    have hmem : e.name ∈ es.map (·.name) := h.mem_names.mp ⟨f, hf, by simpa using hfe⟩
    refine ⟨?_, fun d hd => ?_⟩
    · rw [List.map_append, List.map_singleton, FirstOccurrences.eraseDups_concat_of_mem hmem,
        ← h.names, List.map_map]
      refine List.map_congr_left fun d _ => ?_
      rw [Function.comp_apply]
      split_ifs <;> rfl
    · obtain ⟨c, hc, rfl⟩ := List.mem_map.mp hd
      split_ifs with hce
      · exact (h.collects c hc).extend (by simpa using hce) hnd
      · exact (h.collects c hc).of_ne (by simpa using hce)
  · have hnew : e.name ∉ es.map (·.name) := by
      intro hmem
      obtain ⟨f, hf, hfe⟩ := h.mem_names.mpr hmem
      exact hany (List.any_eq_true.mpr ⟨f, hf, by simpa using hfe⟩)
    refine ⟨?_, fun d hd => ?_⟩
    · rw [List.map_append, List.map_append, h.names, List.map_singleton, List.map_singleton,
        FirstOccurrences.eraseDups_concat_of_not_mem hnew]
      rfl
    · rcases List.mem_append.mp hd with hd | hd
      · refine (h.collects d hd).of_ne fun hde => hnew ?_
        exact h.mem_names.mp ⟨d, hd, hde⟩
      · rw [List.mem_singleton.mp hd]
        exact (Collects.new hnew).extend rfl hnd

theorem Grouped.foldl (hnd : ∀ e, (blocksOf e).Nodup) (ds : List EntryPoint) :
    ∀ {es : List EntryPoint} {fs : List Function}, Grouped blocksOf es fs →
      Grouped blocksOf (es ++ ds)
        (ds.foldl (fun fs e => Boundaries.addReach fs e (blocksOf e)) fs) := by
  induction ds with
  | nil =>
    intro es fs h
    rw [List.append_nil]
    exact h
  | cons d ds ih =>
    intro es fs h
    rw [List.foldl_cons, List.append_cons]
    exact ih (h.addReach (hnd d))

end Grouped

/-- The functions of a graph are the groups of its entry points, with the blocks they reach. -/
theorem grouped_reconstruct (g : BlockGraph) (es : List EntryPoint) (stop : Bool) :
    Grouped (fun e => g.reach e.address (es.eraseDups.map (·.address)) stop) es.eraseDups
      (reconstruct g es stop).functions := by
  have hnone : Grouped (fun e => g.reach e.address (es.eraseDups.map (·.address)) stop) [] [] :=
    ⟨by simp, fun f hf => by cases hf⟩
  exact hnone.foldl (fun e => BlockGraph.nodup_reach g _ _ _) es.eraseDups

end Boundaries

/-! ### Regions -/

namespace Function

theorem isEntryPoint_iff {f : Function} {a : Address} :
    f.isEntryPoint a = true ↔ ∃ e ∈ f.entryPoints, e.address = a := by
  simp [isEntryPoint]

/-- An edge that stays in the region of a function: with the stop rule on it enters no block that
starts at an entry point of other functions only. -/
def Within (f : Function) (g : BlockGraph) (es : List EntryPoint) (stop : Bool) (n m : Nat) :
    Prop :=
  g.Follows n m ∧ ∃ b, g.blocks[m]? = some b ∧
    (stop = true → (∃ e ∈ es, e.address = b.start) → f.isEntryPoint b.start = true)

/-- **The region of a function**: the blocks at the end of a path from the block of one of its entry
points. -/
def Reaches (f : Function) (g : BlockGraph) (es : List EntryPoint) (stop : Bool) (n : Nat) : Prop :=
  ∃ e ∈ f.entryPoints, ∃ m, g.blockStartingAt? e.address = some m ∧
    Relation.ReflTransGen (f.Within g es stop) m n

section Reaches
variable {f : Function} {g : BlockGraph} {es : List EntryPoint} {stop : Bool}

/-- A walk from an entry point of the function stays in its region. -/
theorem within_of_enters {e : EntryPoint} (he : e ∈ f.entryPoints) {n m : Nat}
    (h : g.Enters e.address (es.eraseDups.map (·.address)) stop n m) : f.Within g es stop n m := by
  obtain ⟨hm, hmay⟩ := h
  obtain ⟨b, hb, hcase⟩ := BlockGraph.mayEnter_iff.mp hmay
  refine ⟨hm, b, hb, fun hstop => ?_⟩
  rintro ⟨d, hd, hda⟩
  rcases hcase with hback | hoff | hnone
  · exact isEntryPoint_iff.mpr ⟨e, he, hback.symm⟩
  · rw [hstop] at hoff
    cases hoff
  · exact absurd (List.mem_map.mpr ⟨d, List.mem_eraseDups.mpr hd, hda⟩) hnone

/-- **The walks from the entry points together** give the region. -/
theorem reaches_iff_exists_reach (hg : g.WellFormed) {n : Nat} :
    f.Reaches g es stop n ↔
      ∃ e ∈ f.entryPoints, n ∈ g.reach e.address (es.eraseDups.map (·.address)) stop := by
  constructor
  · rintro ⟨e, he, m, hm, hpath⟩
    induction hpath with
    | refl => exact ⟨e, he, (BlockGraph.mem_reach_iff hg).mpr ⟨m, hm, .refl⟩⟩
    | @tail k l _ hedge ih =>
      obtain ⟨d, hd, hk⟩ := ih
      obtain ⟨hl, b, hb, hin⟩ := hedge
      by_cases hblock : stop = true ∧ b.start ∈ es.eraseDups.map (·.address)
      · -- the block starts at an entry point of the function, and the walk from there begins
        obtain ⟨hstop, hmem⟩ := hblock
        obtain ⟨c, hc, hcb⟩ := List.mem_map.mp hmem
        obtain ⟨c', hc', hcb'⟩ :=
          isEntryPoint_iff.mp (hin hstop ⟨c, List.mem_eraseDups.mp hc, hcb⟩)
        have hl' := hg.blockStartingAt?_eq_some.mpr ⟨b, hb, hcb'.symm⟩
        exact ⟨c', hc', (BlockGraph.mem_reach_iff hg).mpr ⟨l, hl', .refl⟩⟩
      · refine ⟨d, hd, BlockGraph.mem_reach_of_enters hg hk ⟨hl, BlockGraph.mayEnter_iff.mpr
          ⟨b, hb, Or.inr ?_⟩⟩⟩
        rcases Bool.eq_false_or_eq_true stop with hstop | hstop
        · exact Or.inr fun hmem => hblock ⟨hstop, hmem⟩
        · exact Or.inl hstop
  · rintro ⟨e, he, hn⟩
    obtain ⟨m, hm, hpath⟩ := (BlockGraph.mem_reach_iff hg).mp hn
    exact ⟨e, he, m, hm, Relation.ReflTransGen.mono (fun _ _ => within_of_enters he) m n hpath⟩

/-- With the stop rule on, the region holds no block of an entry point but its own. -/
theorem reaches_entry_iff (hg : g.WellFormed) {e : EntryPoint} (he : e ∈ es) {n : Nat}
    (hn : g.blockStartingAt? e.address = some n) :
    f.Reaches g es true n ↔ f.isEntryPoint e.address = true := by
  obtain ⟨b, hb, hstart⟩ := hg.blockStartingAt?_eq_some.mp hn
  constructor
  · rintro ⟨d, hd, m, hm, hpath⟩
    rcases Relation.ReflTransGen.cases_tail hpath with rfl | ⟨k, -, -, c, hc, hin⟩
    · obtain ⟨c, hc, hcd⟩ := hg.blockStartingAt?_eq_some.mp hm
      rw [hb, Option.some.injEq] at hc
      rw [isEntryPoint_iff]
      exact ⟨d, hd, by rw [← hstart, hc, hcd]⟩
    · rw [hb, Option.some.injEq] at hc
      subst hc
      rw [← hstart]
      exact hin rfl ⟨e, he, hstart.symm⟩
  · intro h
    obtain ⟨d, hd, hda⟩ := isEntryPoint_iff.mp h
    exact ⟨d, hd, n, by rw [hda]; exact hn, .refl⟩

end Reaches

end Function

/-! ### Reconstruction -/

namespace Boundaries

/-- **The functions of a graph are exact and maximal.** -/
structure Exact (g : BlockGraph) (es : List EntryPoint) (stop : Bool) (fs : List Function) :
    Prop where
  /-- The names stand in the order of their first appearance. -/
  names : fs.map (·.name) = (es.map (·.name)).eraseDups
  distinct : (fs.map (·.name)).Nodup
  entryPoints : ∀ f ∈ fs, f.entryPoints = es.eraseDups.filter fun e => e.name == f.name
  owner : ∀ e ∈ es, ∃ f ∈ fs, f.name = e.name ∧ ∀ f' ∈ fs, e ∈ f'.entryPoints ↔ f' = f
  nodup : ∀ f ∈ fs, f.blocks.Nodup
  region : ∀ f ∈ fs, ∀ n, n ∈ f.blocks ↔ f.Reaches g es stop n
  /-- With the stop rule on, the block of an entry point belongs to its own functions only. -/
  entry : stop = true → ∀ f ∈ fs, ∀ e ∈ es, ∀ n, g.blockStartingAt? e.address = some n →
    (n ∈ f.blocks ↔ f.isEntryPoint e.address = true)

/-- The functions of every built graph are exact and maximal. -/
theorem reconstruct_exact (stream : List Instruction) (overrides : Table InstructionKind)
    (extra : List Address) (es : List EntryPoint) (stop : Bool) :
    Exact (.build stream overrides extra) es stop
      (reconstruct (.build stream overrides extra) es stop).functions := by
  have hg := BlockGraph.build_wellFormed stream overrides extra
  have hgroup := grouped_reconstruct (.build stream overrides extra) es stop
  have hnames := hgroup.names
  rw [FirstOccurrences.eraseDups_map_eraseDups] at hnames
  have hdistinct : ((reconstruct (.build stream overrides extra) es stop).functions.map
      (·.name)).Nodup := by
    rw [hnames]
    exact FirstOccurrences.nodup_eraseDups _
  have hregion : ∀ f ∈ (reconstruct (.build stream overrides extra) es stop).functions, ∀ n,
      n ∈ f.blocks ↔ f.Reaches (.build stream overrides extra) es stop n := by
    intro f hf n
    rw [(hgroup.collects f hf).blocks n, Function.reaches_iff_exists_reach hg]
  refine
    { names := hnames
      distinct := hdistinct
      entryPoints := fun f hf => (hgroup.collects f hf).entryPoints
      owner := fun e he => ?_
      nodup := fun f hf => (hgroup.collects f hf).nodup
      region := hregion
      entry := fun hstop f hf e he n hn => ?_ }
  · obtain ⟨f, hf, hfe⟩ := hgroup.mem_names.mpr
      (List.mem_map.mpr ⟨e, List.mem_eraseDups.mpr he, rfl⟩)
    refine ⟨f, hf, hfe, fun f' hf' => ?_⟩
    rw [(hgroup.collects f' hf').entryPoints, List.mem_filter, List.mem_eraseDups, beq_iff_eq,
      ← hfe]
    constructor
    · rintro ⟨-, hname⟩
      exact List.inj_on_of_nodup_map hdistinct hf' hf hname.symm
    · rintro rfl
      exact ⟨he, rfl⟩
  · rw [hregion f hf n, hstop]
    exact Function.reaches_entry_iff hg he hn

end Boundaries

end FlowState
