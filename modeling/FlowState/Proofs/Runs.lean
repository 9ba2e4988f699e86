import FlowState.Proofs.BuiltGraph
import FlowState.Proofs.ReachedBlocks
import FlowState.State.Calculator

/-! # The state walk, one instruction at a time

`Runs input p cs r` says that a pass `p` with the states `cs` on their way ends in `r`. The first
state on its way is looked at: nothing happens where nothing is decoded (`lost`), it meets the state
that is there (`meet`), or it is written and its successors are put in front (`visit`, `fail`). The
blocks of the graph occur only in `onward`, the addresses that a path goes on to.

The walk over blocks, worklists and seeds is such a run with the seeds on their way in their order
(`runs_propagate`): the rest of a block is followed by `visit` after `visit` (`Runs.of_walkRun`),
the worklist of a seed is a part of the states on their way (`runs_follow`), and the seeds behind it
come last. How often a pass was asked whether to stop is of no account here, so the number is set to
zero (`Pass.quiet`). -/

namespace FlowState

/-! ### The pass -/

namespace Pass

/-- An instruction is passed: the states before and behind it are written, and its fixup is
noted. -/
def visit (p : Pass) (a : Address) (pre : StateValue) (fixup : Option Fixup) (post : StateValue) :
    Pass :=
  { p with
    pre := p.pre.insert a pre
    post := p.post.insert a post
    fixups := p.fixups ++ fixup.toList }

/-- The pass as if nobody had asked whether to stop. -/
def quiet (p : Pass) : Pass := { p with polls := 0 }

@[simp] theorem pre_visit (p : Pass) (a : Address) (s t : StateValue) (f : Option Fixup) :
    (p.visit a s f t).pre = p.pre.insert a s := rfl

@[simp] theorem post_visit (p : Pass) (a : Address) (s t : StateValue) (f : Option Fixup) :
    (p.visit a s f t).post = p.post.insert a t := rfl

@[simp] theorem fixups_visit (p : Pass) (a : Address) (s t : StateValue) (f : Option Fixup) :
    (p.visit a s f t).fixups = p.fixups ++ f.toList := rfl

@[simp] theorem pre_meet (p : Pass) (a : Address) (s t : StateValue) :
    (p.meet a s t).pre = p.pre := by
  unfold meet; split <;> rfl

@[simp] theorem post_meet (p : Pass) (a : Address) (s t : StateValue) :
    (p.meet a s t).post = p.post := by
  unfold meet; split <;> rfl

theorem meet_self (p : Pass) (a : Address) (s : StateValue) : p.meet a s s = p := by
  simp [meet]

@[simp] theorem quiet_poll (p : Pass) : p.poll.quiet = p.quiet := rfl

@[simp] theorem quiet_visit (p : Pass) (a : Address) (s t : StateValue) (f : Option Fixup) :
    (p.visit a s f t).quiet = p.quiet.visit a s f t := rfl

@[simp] theorem quiet_meet (p : Pass) (a : Address) (s t : StateValue) :
    (p.meet a s t).quiet = p.quiet.meet a s t := by
  unfold meet
  rw [show p.quiet.hasConflict a = p.hasConflict a from rfl]
  split <;> rfl

end Pass

/-! ### The run -/

/-- A state on its way: the seed where its path starts, and the address where it arrives. -/
structure Carried where
  root : Address
  address : Address
  state : StateValue

/-- The state that a seed sends on its way. -/
def Carried.ofSeed (s : Address × StateValue) : Carried := ⟨s.1, s.1, s.2⟩

/-- The starts of the blocks that a path from `root` enters behind a block. -/
def exits (input : WalkInput) (root : Address) (n : Nat) : List Address :=
  (input.graph.successors n).filterMap fun m =>
    if input.graph.mayEnter root input.entryPoints input.stopAtEntryPoints m then
      (input.graph.blocks[m]?).map Block.start
    else none

/-- **Where a path from `root` goes on behind an instruction**: to the next instruction of the
block, and from the last one to the blocks that follow. -/
def onward (input : WalkInput) (root a : Address) : List Address :=
  match input.graph.blockContaining? a with
  | none => []
  | some n =>
    match ((input.graph.instructionsOf n).dropWhile fun i => i.address != a).tail with
    | j :: _ => [j.address]
    | [] => exits input root n

/-- The states that are sent on from an address. -/
def sendOn (input : WalkInput) (root a : Address) (s : StateValue) : List Carried :=
  (onward input root a).map fun b => ⟨root, b, s⟩

/-- **A run of the walk.** -/
inductive Runs (input : WalkInput) : Pass → List Carried → Except StateError Pass → Prop where
  | done (p : Pass) : Runs input p [] (.ok p)
  | lost {p : Pass} {c : Carried} {cs : List Carried} {r : Except StateError Pass} :
      input.graph.instructionAt? c.address = none → Runs input p cs r → Runs input p (c :: cs) r
  | meet {p : Pass} {c : Carried} {cs : List Carried} {r : Except StateError Pass}
      {i : Instruction} {first : StateValue} :
      input.graph.instructionAt? c.address = some i → p.pre.get? c.address = some first →
      Runs input (p.meet c.address first c.state) cs r → Runs input p (c :: cs) r
  | visit {p : Pass} {c : Carried} {cs : List Carried} {r : Except StateError Pass}
      {i : Instruction} {fixup : Option Fixup} {post : StateValue} :
      input.graph.instructionAt? c.address = some i → p.pre.get? c.address = none →
      stepInstruction input i c.state = .ok (fixup, post) →
      Runs input (p.visit c.address c.state fixup post)
        (sendOn input c.root c.address post ++ cs) r →
      Runs input p (c :: cs) r
  | fail {p : Pass} {c : Carried} {cs : List Carried} {i : Instruction} {e : StateError} :
      input.graph.instructionAt? c.address = some i → p.pre.get? c.address = none →
      stepInstruction input i c.state = .error e → Runs input p (c :: cs) (.error e)

/-- A run goes on with what is on its way behind. -/
theorem Runs.append {input : WalkInput} {p : Pass} {cs ds : List Carried}
    {x r : Except StateError Pass} (h : Runs input p cs x)
    (hok : ∀ q, x = .ok q → Runs input q ds r) (herr : ∀ e, x = .error e → r = .error e) :
    Runs input p (cs ++ ds) r := by
  induction h with
  | done p => exact hok p rfl
  | lost ha _ ih => exact .lost ha (ih hok herr)
  | meet ha hp _ ih => exact .meet ha hp (ih hok herr)
  | visit ha hp hs _ ih =>
    refine .visit ha hp hs ?_
    have hr := ih hok herr
    rwa [List.append_assoc] at hr
  | fail ha hp hs =>
    rw [herr _ rfl]
    exact .fail ha hp hs

/-- **What every step keeps holds at the end of a run.** -/
theorem Runs.invariant {input : WalkInput} {I : Pass → List Carried → Prop}
    (lost : ∀ {p c cs}, I p (c :: cs) → I p cs)
    (meet : ∀ {p c cs first}, p.pre.get? c.address = some first → I p (c :: cs) →
      I (p.meet c.address first c.state) cs)
    (visit : ∀ {p c cs i fixup post}, input.graph.instructionAt? c.address = some i →
      p.pre.get? c.address = none → stepInstruction input i c.state = .ok (fixup, post) →
      I p (c :: cs) → I (p.visit c.address c.state fixup post)
        (sendOn input c.root c.address post ++ cs))
    {p q : Pass} {cs : List Carried} (h : Runs input p cs (.ok q)) (hp : I p cs) : I q [] := by
  generalize hr : Except.ok q = r at h
  induction h with
  | done p =>
    cases hr
    exact hp
  | lost _ _ ih => exact ih (lost hp) hr
  | meet _ hf _ ih => exact ih (meet hf hp) hr
  | visit hi hn hs _ ih => exact ih (visit hi hn hs hp) hr
  | fail => cases hr

/-! ### Where a path goes on -/

section Onward
variable {input : WalkInput} (hg : input.graph.WellFormed)
include hg

theorem onward_inside {n : Nat} {ls rest : List Instruction} {i j : Instruction}
    (h : input.graph.instructionsOf n = ls ++ i :: j :: rest) (root : Address) :
    onward input root i.address = [j.address] := by
  have hn : input.graph.blockContaining? i.address = some n :=
    hg.blockContaining?_eq_some.mpr ⟨i, by rw [h]; simp, rfl⟩
  unfold onward
  simp only [hn, hg.dropWhile_instructionsOf h, List.tail_cons]

theorem onward_last {n : Nat} {ls : List Instruction} {i : Instruction}
    (h : input.graph.instructionsOf n = ls ++ [i]) (root : Address) :
    onward input root i.address = exits input root n := by
  have hn : input.graph.blockContaining? i.address = some n :=
    hg.blockContaining?_eq_some.mpr ⟨i, by rw [h]; simp, rfl⟩
  unfold onward
  simp only [hn, hg.dropWhile_instructionsOf h, List.tail_cons]

/-- A path goes on inside a block, or leaves it behind its last instruction. -/
theorem onward_cases {root a b : Address} (h : b ∈ onward input root a) :
    (∃ n ls i j rest, input.graph.instructionsOf n = ls ++ i :: j :: rest ∧ i.address = a ∧
      j.address = b) ∨
    ∃ n ls i, input.graph.instructionsOf n = ls ++ [i] ∧ i.address = a ∧
      b ∈ exits input root n := by
  cases hn : input.graph.blockContaining? a with
  | none => simp [onward, hn] at h
  | some n =>
    obtain ⟨i, hi, rfl⟩ := hg.blockContaining?_eq_some.mp hn
    obtain ⟨ls, rest, hs⟩ := List.append_of_mem hi
    cases rest with
    | nil =>
      rw [onward_last hg hs] at h
      exact Or.inr ⟨n, ls, i, hs, rfl, h⟩
    | cons j rest =>
      rw [onward_inside hg hs, List.mem_singleton] at h
      exact Or.inl ⟨n, ls, i, j, rest, hs, rfl, h.symm⟩

end Onward

theorem mem_exits {input : WalkInput} {root a : Address} {n : Nat} :
    a ∈ exits input root n ↔ ∃ m, input.graph.Follows n m ∧
      input.graph.mayEnter root input.entryPoints input.stopAtEntryPoints m = true ∧
        ∃ b, input.graph.blocks[m]? = some b ∧ b.start = a := by
  unfold exits
  simp only [List.mem_filterMap, BlockGraph.mem_successors]
  refine exists_congr fun m => and_congr_right fun _ => ?_
  split_ifs with h <;> simp [h]

/-! ### The walk is a run -/

/-- One instruction of `walkRun`, in the words of a run. -/
theorem walkRun_meet {input : WalkInput} {p : Pass} {i : Instruction} {first : StateValue}
    (h : p.pre.get? i.address = some first) (is : List Instruction) (s : StateValue) :
    walkRun input p (i :: is) s = .ok (p.meet i.address first s, none) := by
  unfold walkRun
  simp only [h]

theorem walkRun_fail {input : WalkInput} {p : Pass} {i : Instruction} {s : StateValue}
    {e : StateError} (h : p.pre.get? i.address = none) (hs : stepInstruction input i s = .error e)
    (is : List Instruction) : walkRun input p (i :: is) s = .error e := by
  unfold walkRun
  simp only [h, hs]

theorem walkRun_visit {input : WalkInput} {p : Pass} {i : Instruction} {s post : StateValue}
    {fixup : Option Fixup} (h : p.pre.get? i.address = none)
    (hs : stepInstruction input i s = .ok (fixup, post)) (is : List Instruction) :
    walkRun input p (i :: is) s = walkRun input (p.visit i.address s fixup post) is post := by
  rw [walkRun]
  simp only [h, hs]
  congr 1
  cases fixup with
  | none => simp [Pass.visit, Pass.enter, Pass.leave]
  | some f => rfl

/-- The states on their way behind a block: none if the path stops, else one for each exit. -/
def leaving (input : WalkInput) (root : Address) (n : Nat) : Option StateValue → List Carried
  | none => []
  | some s => (exits input root n).map fun a => ⟨root, a, s⟩

/-- The rest of a block is passed instruction by instruction. -/
theorem Runs.of_walkRun {input : WalkInput} (hg : input.graph.WellFormed) {n : Nat} {root : Address}
    {cs : List Carried} {r : Except StateError Pass} {ls is : List Instruction} {i : Instruction}
    {p : Pass} {s : StateValue} (h : input.graph.instructionsOf n = ls ++ i :: is)
    (hok : ∀ q o, walkRun input p (i :: is) s = .ok (q, o) →
      Runs input q.quiet (leaving input root n o ++ cs) r)
    (herr : ∀ e, walkRun input p (i :: is) s = .error e → r = .error e) :
    Runs input p.quiet (⟨root, i.address, s⟩ :: cs) r := by
  have hi := hg.instructionAt?_of_mem (n := n) (i := i) (by rw [h]; simp)
  cases hp : p.pre.get? i.address with
  | some first =>
    refine .meet hi hp ?_
    rw [← Pass.quiet_meet]
    exact hok _ _ (walkRun_meet hp is s)
  | none =>
    cases hs : stepInstruction input i s with
    | error e =>
      rw [herr e (walkRun_fail hp hs is)]
      exact .fail hi hp hs
    | ok x =>
      refine .visit hi hp hs ?_
      have hv := walkRun_visit hp hs is
      rw [hv] at hok herr
      unfold sendOn
      -- behind the last instruction the path leaves the block, else the rest is passed as before
      cases is with
      | nil =>
        rw [onward_last hg h]
        exact hok _ _ rfl
      | cons j is =>
        have hrest : input.graph.instructionsOf n = (ls ++ [i]) ++ j :: is := by rw [h]; simp
        rw [onward_inside hg h, ← Pass.quiet_visit]
        exact Runs.of_walkRun hg hrest hok herr
termination_by is.length

/-- The arrival is at an instruction of its block. -/
def Arrival.Placed (g : BlockGraph) (w : Arrival) : Prop :=
  ∃ ls i rest, g.instructionsOf w.block = ls ++ i :: rest ∧ i.address = w.address

/-- The state that an arrival carries. -/
def Carried.ofArrival (root : Address) (w : Arrival) : Carried := ⟨root, w.address, w.state⟩

section Follow
variable {input : WalkInput} (hg : input.graph.WellFormed)
include hg

theorem runFrom_of_split {n : Nat} {ls rest : List Instruction} {i : Instruction}
    (h : input.graph.instructionsOf n = ls ++ i :: rest) :
    runFrom input.graph n i.address = i :: rest := by
  unfold runFrom
  simp only [hg.dropWhile_instructionsOf h, List.isEmpty_cons, Bool.false_eq_true, if_false]

theorem placed_start {m : Nat} {b : Block} (hb : input.graph.blocks[m]? = some b) (s : StateValue) :
    Arrival.Placed input.graph ⟨m, b.start, s⟩ := by
  obtain ⟨i, rest, hi, hs⟩ := hg.head_of_getElem? hb
  exact ⟨[], i, rest, by rw [BlockGraph.instructionsOf_of_getElem? hb, hi]; rfl, hs⟩

theorem placed_arrivals {root : Address} {n : Nat} {s : StateValue} {w : Arrival}
    (h : w ∈ arrivals input root n s) : w.Placed input.graph := by
  obtain ⟨m, -, hm⟩ := List.mem_filterMap.mp h
  cases hb : input.graph.blocks[m]? with
  | none => simp [hb] at hm
  | some b =>
    simp only [hb] at hm
    split_ifs at hm
    cases hm
    exact placed_start hg hb s

theorem placed_seed {a : Address} {n : Nat} (h : input.graph.blockContaining? a = some n)
    (s : StateValue) : Arrival.Placed input.graph ⟨n, a, s⟩ := by
  obtain ⟨i, hi, rfl⟩ := hg.blockContaining?_eq_some.mp h
  obtain ⟨ls, rest, hs⟩ := List.append_of_mem hi
  exact ⟨ls, i, rest, hs, rfl⟩

omit hg in
theorem map_arrivals (root : Address) (n : Nat) (s : StateValue) :
    (arrivals input root n s).map (Carried.ofArrival root) = leaving input root n (some s) := by
  unfold arrivals leaving exits
  dsimp only
  rw [List.map_filterMap, List.map_filterMap]
  refine List.filterMap_congr fun m _ => ?_
  unfold BlockGraph.mayEnter
  cases input.graph.blocks[m]? with
  | none => rfl
  | some b =>
    dsimp only
    split <;> simp_all [Carried.ofArrival]

/-- The first path of a worklist is followed through its block. -/
theorem runs_arrival {root : Address} {p : Pass} {w : Arrival} (hw : w.Placed input.graph)
    {i : Instruction} {is : List Instruction}
    (hr : runFrom input.graph w.block w.address = i :: is) {cs : List Carried}
    {r : Except StateError Pass}
    (hok : ∀ q o, walkRun input p.poll (i :: is) w.state = .ok (q, o) →
      Runs input q.quiet (leaving input root w.block o ++ cs) r)
    (herr : ∀ e, walkRun input p.poll (i :: is) w.state = .error e → r = .error e) :
    Runs input p.quiet (Carried.ofArrival root w :: cs) r := by
  obtain ⟨ls, j, rest, hs, ha⟩ := hw
  rw [← ha, runFrom_of_split hg hs] at hr
  cases hr
  rw [Carried.ofArrival, ← ha, ← Pass.quiet_poll]
  exact Runs.of_walkRun hg hs hok herr

omit hg in
/-- One path of a worklist. -/
theorem follow_cons (root : Address) {p : Pass} {w : Arrival} (work : List Arrival)
    {i : Instruction} {is : List Instruction} (hstop : input.cancelled p.polls = false)
    (hr : runFrom input.graph w.block w.address = i :: is) :
    follow input root p (w :: work) =
      match walkRun input p.poll (i :: is) w.state with
      | .error e => .error e
      | .ok (q, none) => follow input root q work
      | .ok (q, some s) => follow input root q (arrivals input root w.block s ++ work) := by
  rw [follow, if_neg (by simp [hstop])]
  split
  · rename_i h
    rw [hr] at h
    cases h
  · rename_i j js h
    rw [hr] at h
    cases h
    split <;> rename_i hx <;> simp only [hx]

/-- **The worklist of a seed is a run.** A pass that is told to stop is left out. -/
theorem runs_follow {root : Address} {p : Pass} {work : List Arrival}
    (hw : ∀ w ∈ work, w.Placed input.graph)
    (hc : ∀ e, follow input root p work = .error e → ∀ k, input.cancelled k = false) :
    Runs input p.quiet (work.map (Carried.ofArrival root))
      ((follow input root p work).map Pass.quiet) := by
  induction p, work using follow.induct input root with
  | case1 p =>
    rw [follow]
    exact .done _
  | case2 p w work hstop =>
    rw [follow, if_pos hstop] at hc
    exact absurd (hc _ rfl p.polls) (by simp [hstop])
  | case3 p w work hstop hr ih =>
    obtain ⟨ls, i, rest, hs, ha⟩ := hw w List.mem_cons_self
    rw [← ha, runFrom_of_split hg hs] at hr
    cases hr
  | case4 p w work hstop i is hr e hx =>
    have hf := follow_cons root work (by simpa using hstop) hr
    rw [hx] at hf
    rw [hf]
    refine runs_arrival hg (hw w List.mem_cons_self) hr ?_ ?_
    · intro q o hq
      rw [hx] at hq
      cases hq
    · intro e' he
      rw [hx] at he
      cases he
      rfl
  | case5 p w work hstop i is hr q hx ih =>
    have hf := follow_cons root work (by simpa using hstop) hr
    rw [hx] at hf
    rw [hf] at hc ⊢
    refine runs_arrival hg (hw w List.mem_cons_self) hr ?_ ?_
    · intro q' o hq
      rw [hx] at hq
      cases hq
      exact ih (fun v hv => hw v (List.mem_cons_of_mem w hv)) hc
    · intro e he
      rw [hx] at he
      cases he
  | case6 p w work hstop i is hr q s hx ih =>
    have hf := follow_cons root work (by simpa using hstop) hr
    rw [hx] at hf
    rw [hf] at hc ⊢
    refine runs_arrival hg (hw w List.mem_cons_self) hr ?_ ?_
    · intro q' o hq
      rw [hx] at hq
      cases hq
      rw [← map_arrivals, ← List.map_append]
      refine ih (fun v hv => ?_) hc
      rcases List.mem_append.mp hv with hv | hv
      · exact placed_arrivals hg hv
      · exact hw v (List.mem_cons_of_mem w hv)
    · intro e he
      rw [hx] at he
      cases he

theorem runs_seedStep (seed : Address × StateValue) (p : Pass)
    (hc : ∀ e, seedStep input p seed = .error e → ∀ k, input.cancelled k = false) :
    Runs input p.quiet [Carried.ofSeed seed] ((seedStep input p seed).map Pass.quiet) := by
  unfold seedStep at hc ⊢
  cases hn : input.graph.blockContaining? seed.1 with
  | none =>
    refine .lost ?_ (.done _)
    cases hi : input.graph.instructionAt? seed.1 with
    | none => exact hi
    | some i =>
      obtain ⟨hi, ha⟩ := hg.instructionAt?_eq_some.mp hi
      obtain ⟨n, hi⟩ := hg.mem_instructions.mp hi
      rw [hg.blockContaining?_eq_some.mpr ⟨i, hi, ha⟩] at hn
      cases hn
  | some n =>
    simp only [hn] at hc ⊢
    refine runs_follow hg ?_ hc
    intro w hw
    rw [List.mem_singleton.mp hw]
    exact placed_seed hg hn seed.2

theorem runs_foldlM (seeds : List (Address × StateValue)) (p : Pass)
    (hc : ∀ e, seeds.foldlM (seedStep input) p = .error e → ∀ k, input.cancelled k = false) :
    Runs input p.quiet (seeds.map Carried.ofSeed)
      ((seeds.foldlM (seedStep input) p).map Pass.quiet) := by
  induction seeds generalizing p with
  | nil => exact .done _
  | cons seed seeds ih =>
    rw [List.foldlM_cons] at hc ⊢
    rw [List.map_cons, ← List.singleton_append]
    cases hx : seedStep input p seed with
    | error e =>
      rw [hx] at hc
      have hs := runs_seedStep hg seed p fun _ _ => hc e rfl
      rw [hx] at hs
      refine hs.append ?_ ?_
      · intro q hq
        cases hq
      · intro e' he
        cases he
        rfl
    | ok q =>
      rw [hx] at hc
      have hs := runs_seedStep hg seed p fun e he => by
        rw [hx] at he
        cases he
      rw [hx] at hs
      refine hs.append ?_ ?_
      · intro q' hq
        cases hq
        exact ih q hc
      · intro e he
        cases he

/-- **A pass is a run** with the seeds on their way in their order, unless it is told to stop. -/
theorem runs_propagate (seeds : List (Address × StateValue))
    (hc : ∀ e, propagate input seeds = .error e → ∀ k, input.cancelled k = false) :
    Runs input .start (seeds.map Carried.ofSeed) ((propagate input seeds).map Pass.quiet) :=
  runs_foldlM hg seeds .start hc

end Follow

/-- The run of a calculation that succeeds. -/
theorem Calculator.runs_of_calculate {c c' : Calculator} {input : CalculatorInput}
    {cancelled : Nat → Bool} {fixups : List Fixup} (hg : input.graph.WellFormed)
    (h : c.calculate input cancelled = (c', .ok fixups)) :
    ∃ q : Pass, Runs (c.walkInput input cancelled) .start (c.seeds.map Carried.ofSeed) (.ok q) ∧
      c'.pre = q.pre ∧ c'.post = q.post ∧ fixups = q.fixups := by
  obtain ⟨p, -, hp, rfl, rfl⟩ := calculate_eq_ok h
  have hw : (c.walkInput input cancelled).graph.WellFormed := hg
  have hr := runs_propagate hw c.seeds fun e he => by
    rw [hp] at he
    cases he
  rw [hp] at hr
  exact ⟨p.quiet, hr, rfl, rfl, rfl⟩

/-- A calculation that nobody stops has a run, and it succeeds if the run does. -/
theorem Calculator.exists_runs {c : Calculator} {input : CalculatorInput}
    (hg : input.graph.WellFormed) (hready : c.prepared = true) :
    ∃ r, Runs (c.walkInput input fun _ => false) .start (c.seeds.map Carried.ofSeed) r ∧
      ∀ q, r = .ok q → ∃ c', c.calculate input (fun _ => false) = (c', .ok q.fixups) ∧
        c'.pre = q.pre ∧ c'.post = q.post := by
  have hw : (c.walkInput input fun _ => false).graph.WellFormed := hg
  refine ⟨_, runs_propagate hw c.seeds fun _ _ _ => rfl, fun q hq => ?_⟩
  unfold calculate
  rw [if_pos hready]
  cases hp : propagate (c.walkInput input fun _ => false) c.seeds with
  | error e =>
    rw [hp] at hq
    cases hq
  | ok p =>
    rw [hp] at hq
    cases hq
    exact ⟨_, rfl, rfl, rfl⟩

end FlowState
