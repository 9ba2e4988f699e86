import FlowState.Proofs.SeedOrder

/-! # Later seeds

Seeds that are set at new addresses stand behind those that are there (`seeds_seedAll`). A pass from
all of them is the pass from the earlier ones and then a run from what it leaves, and a run only
adds (`propagate_append`): it keeps the states that are written and appends to the fixups. So what
the earlier seeds give is never rewritten. -/

namespace FlowState

/-- The pass from the seeds behind others goes on from what these leave. -/
theorem propagate_append {input : WalkInput} (hg : input.graph.WellFormed)
    {seeds rest : List (Address × StateValue)} {q : Pass}
    (h : propagate input (seeds ++ rest) = .ok q) :
    ∃ p, propagate input seeds = .ok p ∧ p.Extends q := by
  have hsplit : propagate input (seeds ++ rest) =
      propagate input seeds >>= rest.foldlM (seedStep input) := List.foldlM_append
  cases hp : propagate input seeds with
  | error e =>
    rw [hsplit, hp] at h
    cases h
  | ok p =>
    rw [hsplit, hp] at h
    have hrest : rest.foldlM (seedStep input) p = .ok q := h
    have hfirst := runs_propagate hg seeds fun e he => by
      rw [hp] at he
      cases he
    have hlater := runs_foldlM hg rest p fun e he => by
      rw [hrest] at he
      cases he
    rw [hp] at hfirst
    rw [hrest] at hlater
    -- the questions whether to stop are set to zero on both sides, the tables are as they are
    have hext : p.quiet.Extends q.quiet := hlater.extends (hfirst.lawful .start)
    exact ⟨p, rfl, hext.pre, hext.post, hext.fixups⟩

namespace Calculator

/-- Some seeds are set one after the other. -/
def seedAll (c : Calculator) (seeds : List (Address × StateValue)) : Calculator :=
  seeds.foldl (fun c e => c.seed e.1 e.2) c

theorem walkInput_seed (c : Calculator) (a : Address) (s : StateValue) (input : CalculatorInput)
    (cancelled : Nat → Bool) :
    (c.seed a s).walkInput input cancelled = c.walkInput input cancelled := by
  unfold seed
  split <;> rfl

theorem walkInput_seedAll (c : Calculator) (seeds : List (Address × StateValue))
    (input : CalculatorInput) (cancelled : Nat → Bool) :
    (c.seedAll seeds).walkInput input cancelled = c.walkInput input cancelled := by
  unfold seedAll
  induction seeds generalizing c with
  | nil => rfl
  | cons e seeds ih => rw [List.foldl_cons, ih, walkInput_seed]

theorem prepared_seedAll (c : Calculator) (seeds : List (Address × StateValue)) :
    (c.seedAll seeds).prepared = c.prepared := by
  unfold seedAll
  induction seeds generalizing c with
  | nil => rfl
  | cons e seeds ih => rw [List.foldl_cons, ih, prepared_seed]

/-- A seed at another address than the first ones leaves them as they are, at their places. -/
theorem seeds_seed {c : Calculator} {first rest : List (Address × StateValue)} {a : Address}
    (hc : c.seeds = first ++ rest) (hnew : ∀ e ∈ first, e.1 ≠ a) (s : StateValue) :
    ∃ rest', (c.seed a s).seeds = first ++ rest' := by
  unfold seed
  split
  · refine ⟨rest.map fun e => if e.1 == a then (a, s) else e, ?_⟩
    have hkeep : first.map (fun e => if e.1 == a then (a, s) else e) = first := by
      refine (List.map_congr_left fun e he => ?_).trans (List.map_id first)
      rw [if_neg (by simpa using hnew e he)]
      rfl
    rw [hc, List.map_append, hkeep]
  · exact ⟨rest ++ [(a, s)], by rw [hc, List.append_assoc]⟩

/-- **Seeds at new addresses stand behind the others.** -/
theorem seeds_seedAll {c : Calculator} {first rest later : List (Address × StateValue)}
    (hc : c.seeds = first ++ rest) (hnew : ∀ e ∈ first, ∀ f ∈ later, e.1 ≠ f.1) :
    ∃ rest', (c.seedAll later).seeds = first ++ rest' := by
  induction later generalizing c rest with
  | nil => exact ⟨rest, hc⟩
  | cons f later ih =>
    obtain ⟨rest', hf⟩ := seeds_seed hc (fun e he => hnew e he f List.mem_cons_self) f.2
    exact ih hf fun e he g hg => hnew e he g (List.mem_cons_of_mem f hg)

/-- **Later seeds never rewrite earlier results.** If a calculation with further seeds at new
addresses succeeds, then the one without them does, and its tables and its fixups are kept. -/
theorem calculate_later_seeds {stream : List Instruction} {overrides : Table InstructionKind}
    {extra : List Address} {c d : Calculator} {input : CalculatorInput} {cancelled : Nat → Bool}
    {later : List (Address × StateValue)} {fixups : List Fixup}
    (hg : input.graph = .build stream overrides extra)
    (hnew : ∀ e ∈ c.seeds, ∀ f ∈ later, e.1 ≠ f.1)
    (h : (c.seedAll later).calculate input cancelled = (d, .ok fixups)) :
    ∃ c' earlier, c.calculate input cancelled = (c', .ok earlier) ∧
      (∀ a v, c'.pre.get? a = some v → d.pre.get? a = some v) ∧
      (∀ a v, c'.post.get? a = some v → d.post.get? a = some v) ∧ earlier <+: fixups := by
  obtain ⟨q, hready, hq, rfl, rfl⟩ := calculate_eq_ok h
  obtain ⟨rest, hrest⟩ := seeds_seedAll (List.append_nil c.seeds).symm hnew
  rw [walkInput_seedAll, hrest] at hq
  have hw : (c.walkInput input cancelled).graph.WellFormed := by
    change input.graph.WellFormed
    rw [hg]
    exact BlockGraph.build_wellFormed _ _ _
  obtain ⟨p, hp, hext⟩ := propagate_append hw hq
  refine ⟨{ c with pre := p.pre, post := p.post }, p.fixups, ?_, fun _ _ => hext.pre,
    fun _ _ => hext.post, hext.fixups⟩
  unfold calculate
  rw [prepared_seedAll] at hready
  rw [if_pos hready, hp, conclude]

end Calculator

/-! ### A seed in front of another

The first seed is the jump back of the loop, whose path stops at once at the entry point that it
jumps to. A seed there reaches all of the loop, and it meets the first one with another state. -/

namespace Loop

def inputEntry : CalculatorInput := { input with entryPoints := [0x10] }

def fromBack : Calculator := ⟨⟨.xor, true⟩, true, [(0x12, ⟨[7]⟩)], true, .empty, .empty⟩

def fromBoth : Calculator :=
  ⟨⟨.xor, true⟩, true, [(0x12, ⟨[7]⟩), (0x10, ⟨[0]⟩)], true,
    ⟨[(0x10, ⟨[0]⟩), (0x11, ⟨[1]⟩), (0x12, ⟨[7]⟩)]⟩,
    ⟨[(0x10, ⟨[1]⟩), (0x11, ⟨[9]⟩), (0x12, ⟨[3]⟩)]⟩⟩

def fixupsBoth : List Fixup :=
  [⟨0x12, .mergeConflict, some ⟨[7]⟩, ⟨[1]⟩, .unresolved⟩,
    ⟨0x11, .injection, some ⟨[9]⟩, ⟨[3]⟩, .acceptExpected⟩]

theorem calculate_fromBoth :
    (fromBack.seedAll [(0x10, ⟨[0]⟩)]).calculate inputEntry (fun _ => false) =
      (fromBoth, .ok fixupsBoth) := by cbv

theorem first_seed_kept :
    (fromBack.seedAll [(0x10, ⟨[0]⟩)]).calculate inputEntry (fun _ => false) =
      (fromBoth, .ok fixupsBoth) ∧
    ∃ c' earlier, fromBack.calculate inputEntry (fun _ => false) = (c', .ok earlier) ∧
      (∀ a v, c'.pre.get? a = some v → fromBoth.pre.get? a = some v) ∧
      (∀ a v, c'.post.get? a = some v → fromBoth.post.get? a = some v) ∧
      earlier <+: fixupsBoth :=
  ⟨calculate_fromBoth, Calculator.calculate_later_seeds
    (rfl : inputEntry.graph = .build stream .empty []) (by decide) calculate_fromBoth⟩

end Loop

end FlowState
