import FlowState.Proofs.FailedPasses
import Mathlib.Algebra.Order.BigOperators.Group.List
import Mathlib.Algebra.Order.Ring.Nat

/-! # Passes that are told to stop

A pass takes the paths of its worklist one by one, and the next seed when there is none left. Each
turn asks once whether to stop and then follows one path through its block (`look`); the block is
expanded if the path gets through. `Turns input st ts r` says that the pass that stands at `st`
takes the turns `ts` and ends in `r`; a pass that never ended would have no such list.

A block is open as long as its last instruction has no state (`Pass.isOpen`). A path gets through a
block only if the block is open, and closes it (`look_ok`), so no block is expanded twice. The paths
that are left, the seeds that are left and the edges out of open blocks together become fewer with
every turn (`Turns.length_le`). The answers to the questions of the turns decide whether the pass is
that of a caller who never stops it (`Turns.unstopped`) or ends at the first yes
(`Turns.stopped`). -/

namespace FlowState

/-! ### One turn -/

/-- **One turn of a pass**: the question whether to stop, and one path through its block. -/
def look (input : WalkInput) (p : Pass) (w : Arrival) :
    Except StateError (Pass × Option StateValue) :=
  if input.cancelled p.polls then .error .cancelled
  else
    match runFrom input.graph w.block w.address with
    | [] => .ok (p.poll, none)
    | i :: is => walkRun input p.poll (i :: is) w.state

/-- The paths that a turn adds: those out of its block, if the path gets through. -/
def behind (input : WalkInput) (root : Address) (n : Nat) : Option StateValue → List Arrival
  | none => []
  | some s => arrivals input root n s

section Look
variable {input : WalkInput} {p : Pass} {w : Arrival}

theorem look_of_stop (h : input.cancelled p.polls = true) :
    look input p w = .error .cancelled := by
  unfold look
  rw [if_pos h]

theorem look_of_blank (h : input.cancelled p.polls = false)
    (hr : runFrom input.graph w.block w.address = []) : look input p w = .ok (p.poll, none) := by
  unfold look
  rw [if_neg (by simp [h]), hr]

theorem look_of_run (h : input.cancelled p.polls = false) {i : Instruction} {is : List Instruction}
    (hr : runFrom input.graph w.block w.address = i :: is) :
    look input p w = walkRun input p.poll (i :: is) w.state := by
  unfold look
  rw [if_neg (by simp [h]), hr]

/-- The worklist is followed turn by turn. -/
theorem follow_look (root : Address) (work : List Arrival) :
    follow input root p (w :: work) =
      look input p w >>= fun x =>
        follow input root x.1 (behind input root w.block x.2 ++ work) := by
  cases hc : input.cancelled p.polls with
  | true =>
    rw [look_of_stop hc, follow, if_pos hc]
    rfl
  | false =>
    cases hr : runFrom input.graph w.block w.address with
    | nil =>
      rw [look_of_blank hc hr, follow, if_neg (by simp [hc])]
      split
      · rfl
      · rename_i h
        rw [hr] at h
        cases h
    | cons i is =>
      rw [look_of_run hc hr, follow_cons root work hc hr]
      cases walkRun input p.poll (i :: is) w.state with
      | error e => rfl
      | ok x =>
        obtain ⟨q, _ | s⟩ := x <;> rfl

end Look

/-! ### The turns of a pass -/

/-- A turn: the block of its path, and whether the path got through. -/
structure Turn where
  block : Nat
  expands : Bool
  deriving Repr, DecidableEq

/-- Where a pass stands: the seed whose paths are followed, the paths that are left, and the seeds
that are left. -/
structure Standing where
  pass : Pass
  root : Address
  work : List Arrival
  seeds : List (Address × StateValue)

/-- **The turns that a pass takes until it ends.** -/
inductive Turns (input : WalkInput) : Standing → List Turn → Except StateError Pass → Prop where
  | done (p : Pass) (root : Address) : Turns input ⟨p, root, [], []⟩ [] (.ok p)
  | lost {p : Pass} {root : Address} {seed : Address × StateValue}
      {seeds : List (Address × StateValue)} {ts : List Turn} {r : Except StateError Pass} :
      input.graph.blockContaining? seed.1 = none → Turns input ⟨p, root, [], seeds⟩ ts r →
      Turns input ⟨p, root, [], seed :: seeds⟩ ts r
  | seed {p : Pass} {root : Address} {seed : Address × StateValue}
      {seeds : List (Address × StateValue)} {n : Nat} {ts : List Turn}
      {r : Except StateError Pass} :
      input.graph.blockContaining? seed.1 = some n →
      Turns input ⟨p, seed.1, [⟨n, seed.1, seed.2⟩], seeds⟩ ts r →
      Turns input ⟨p, root, [], seed :: seeds⟩ ts r
  | fail {p : Pass} {root : Address} {w : Arrival} {work : List Arrival}
      {seeds : List (Address × StateValue)} {e : StateError} :
      look input p w = .error e →
      Turns input ⟨p, root, w :: work, seeds⟩ [⟨w.block, false⟩] (.error e)
  | turn {p q : Pass} {root : Address} {w : Arrival} {work : List Arrival}
      {seeds : List (Address × StateValue)} {o : Option StateValue} {ts : List Turn}
      {r : Except StateError Pass} :
      look input p w = .ok (q, o) →
      Turns input ⟨q, root, behind input root w.block o ++ work, seeds⟩ ts r →
      Turns input ⟨p, root, w :: work, seeds⟩ (⟨w.block, o.isSome⟩ :: ts) r

/-- What is left of a pass: the worklist is followed, and behind it the seeds. -/
def Standing.run (input : WalkInput) (st : Standing) : Except StateError Pass :=
  follow input st.root st.pass st.work >>= st.seeds.foldlM (seedStep input)

theorem Standing.run_nil (input : WalkInput) (p : Pass) (root : Address)
    (seeds : List (Address × StateValue)) :
    Standing.run input ⟨p, root, [], seeds⟩ = seeds.foldlM (seedStep input) p := by
  unfold Standing.run
  rw [follow]
  rfl

theorem Standing.run_cons (input : WalkInput) (p : Pass) (root : Address) (w : Arrival)
    (work : List Arrival) (seeds : List (Address × StateValue)) :
    Standing.run input ⟨p, root, w :: work, seeds⟩ =
      look input p w >>= fun x =>
        Standing.run input ⟨x.1, root, behind input root w.block x.2 ++ work, seeds⟩ := by
  unfold Standing.run
  rw [follow_look, bind_assoc]

/-- The turns lead to the result of the pass. -/
theorem Turns.result {input : WalkInput} {st : Standing} {ts : List Turn}
    {r : Except StateError Pass} (h : Turns input st ts r) : st.run input = r := by
  induction h with
  | done p root => rw [Standing.run_nil]; rfl
  | lost hn _ ih =>
    rw [← ih, Standing.run_nil, Standing.run_nil, List.foldlM_cons, seedStep, hn]
    rfl
  | seed hn _ ih =>
    rw [← ih, Standing.run_nil, List.foldlM_cons, seedStep, hn]
    rfl
  | fail hl =>
    rw [Standing.run_cons, hl]
    rfl
  | turn hl _ ih =>
    rw [← ih, Standing.run_cons, hl]
    rfl

/-- The worklist of a seed ends: the induction is on the instructions that have no state, then on
the paths that are left. -/
theorem exists_turns_of_work {input : WalkInput} {seeds : List (Address × StateValue)}
    (hseeds : ∀ p root, ∃ ts r, Turns input ⟨p, root, [], seeds⟩ ts r) (root : Address) (p : Pass)
    (work : List Arrival) : ∃ ts r, Turns input ⟨p, root, work, seeds⟩ ts r := by
  induction p, work using follow.induct input root with
  | case1 p => exact hseeds p root
  | case2 p w work hstop => exact ⟨_, _, .fail (look_of_stop hstop)⟩
  | case3 p w work hstop hr ih =>
    obtain ⟨ts, r, h⟩ := ih
    exact ⟨_, r, .turn (look_of_blank (by simpa using hstop) hr) h⟩
  | case4 p w work hstop i is hr e hx =>
    rw [← look_of_run (by simpa using hstop) hr] at hx
    exact ⟨_, _, .fail hx⟩
  | case5 p w work hstop i is hr q hx ih =>
    rw [← look_of_run (by simpa using hstop) hr] at hx
    obtain ⟨ts, r, h⟩ := ih
    exact ⟨_, r, .turn hx h⟩
  | case6 p w work hstop i is hr q s hx ih =>
    rw [← look_of_run (by simpa using hstop) hr] at hx
    obtain ⟨ts, r, h⟩ := ih
    exact ⟨_, r, .turn hx h⟩

/-- **Every pass ends.** -/
theorem exists_turns (input : WalkInput) (p : Pass) (root : Address)
    (seeds : List (Address × StateValue)) : ∃ ts r, Turns input ⟨p, root, [], seeds⟩ ts r := by
  induction seeds generalizing p root with
  | nil => exact ⟨_, _, .done p root⟩
  | cons seed seeds ih =>
    cases hn : input.graph.blockContaining? seed.1 with
    | none =>
      obtain ⟨ts, r, h⟩ := ih p root
      exact ⟨ts, r, .lost hn h⟩
    | some n =>
      obtain ⟨ts, r, h⟩ := exists_turns_of_work ih seed.1 p [⟨n, seed.1, seed.2⟩]
      exact ⟨ts, r, .seed hn h⟩

/-! ### What a turn does -/

/-- A path that gets to the end of a run has written a state at each of its instructions. -/
theorem walkRun_fills {input : WalkInput} {is : List Instruction} {p q : Pass} {s t : StateValue}
    (h : walkRun input p is s = .ok (q, some t)) {j : Instruction} (hj : j ∈ is) :
    p.pre.get? j.address = none ∧ (q.pre.get? j.address).isSome := by
  induction is generalizing p s with
  | nil => cases hj
  | cons i is ih =>
    obtain ⟨hfirst, hlast⟩ := walkRun_enters h
    rcases List.mem_cons.mp hj with rfl | hj
    · exact ⟨Option.isNone_iff_eq_none.mp hfirst, hlast⟩
    · have hn := Option.isNone_iff_eq_none.mp hfirst
      cases hs : stepInstruction input i s with
      | error e =>
        rw [walkRun_fail hn hs] at h
        cases h
      | ok x =>
        rw [walkRun_visit hn hs] at h
        obtain ⟨hp, hq⟩ := ih h hj
        refine ⟨?_, hq⟩
        rw [Pass.pre_visit, Table.get?_insert] at hp
        split_ifs at hp
        exact hp

theorem walkRun_polls {input : WalkInput} {is : List Instruction} {p q : Pass} {s : StateValue}
    {o : Option StateValue} (h : walkRun input p is s = .ok (q, o)) : q.polls = p.polls := by
  induction is generalizing p s with
  | nil =>
    cases h
    rfl
  | cons i is ih =>
    cases hn : p.pre.get? i.address with
    | some first =>
      rw [walkRun_meet hn] at h
      cases h
      unfold Pass.meet
      split <;> rfl
    | none =>
      cases hs : stepInstruction input i s with
      | error e =>
        rw [walkRun_fail hn hs] at h
        cases h
      | ok x =>
        rw [walkRun_visit hn hs] at h
        rw [ih h]
        rfl

/-- The rest of a block ends where the block ends. -/
theorem getLast?_runFrom {g : BlockGraph} {n : Nat} {a : Address} {i : Instruction}
    {is : List Instruction} (h : runFrom g n a = i :: is) :
    (i :: is).getLast? = (g.instructionsOf n).getLast? := by
  unfold runFrom at h
  dsimp only at h
  split_ifs at h with he
  · rw [h]
  · obtain ⟨front, hf⟩ := List.dropWhile_suffix (l := g.instructionsOf n)
      fun i => i.address != a
    rw [← hf, h, List.getLast?_append_of_ne_nil front (List.cons_ne_nil i is)]

/-- The last instruction of the block has no state yet. -/
def Pass.isOpen (p : Pass) (g : BlockGraph) (b : Block) : Bool :=
  (g.slice b).getLast?.any fun i => (p.pre.get? i.address).isNone

/-- The second pass has a state wherever the first one has one. -/
def Pass.Within (p q : Pass) : Prop := ∀ a, (p.pre.get? a).isSome → (q.pre.get? a).isSome

theorem Pass.Within.isOpen {p q : Pass} (h : p.Within q) {g : BlockGraph} {b : Block}
    (hb : q.isOpen g b = true) : p.isOpen g b = true := by
  unfold Pass.isOpen at *
  cases hl : (g.slice b).getLast? with
  | none => simp [hl] at hb
  | some i =>
    rw [hl] at hb
    simp only [Option.any_some] at hb ⊢
    cases hp : p.pre.get? i.address with
    | none => rfl
    | some s =>
      have hq := h i.address (by rw [hp]; rfl)
      rw [Option.isNone_iff_eq_none.mp hb] at hq
      cases hq

/-- **What a turn does.** It asks one question and leaves no instruction without its state; if the
path gets through, the block was open and is no longer. -/
theorem look_ok {input : WalkInput} {p q : Pass} {w : Arrival} {o : Option StateValue}
    (h : look input p w = .ok (q, o)) :
    q.polls = p.polls + 1 ∧ p.Within q ∧
      (o.isSome → ∃ b, input.graph.blocks[w.block]? = some b ∧ p.isOpen input.graph b = true ∧
        q.isOpen input.graph b = false) := by
  cases hc : input.cancelled p.polls with
  | true =>
    rw [look_of_stop hc] at h
    cases h
  | false =>
    cases hr : runFrom input.graph w.block w.address with
    | nil =>
      rw [look_of_blank hc hr] at h
      cases h
      exact ⟨rfl, fun _ ha => ha, fun ho => by cases ho⟩
    | cons i is =>
      rw [look_of_run hc hr] at h
      refine ⟨walkRun_polls h, fun _ ha => walkRun_grows h ha, fun ho => ?_⟩
      obtain ⟨s, rfl⟩ := Option.isSome_iff_exists.mp ho
      obtain ⟨j, hj⟩ : ∃ j, (i :: is).getLast? = some j :=
        ⟨_, List.getLast?_eq_some_getLast (by simp)⟩
      obtain ⟨hp, hq⟩ := walkRun_fills h (List.mem_of_getLast? hj)
      rw [getLast?_runFrom hr] at hj
      obtain ⟨b, hb, -⟩ := BlockGraph.exists_block_of_mem (List.mem_of_getLast? hj)
      rw [BlockGraph.instructionsOf_of_getElem? hb] at hj
      refine ⟨b, hb, ?_, ?_⟩
      · unfold Pass.isOpen
        rw [hj, Option.any_some, show p.pre.get? j.address = none from hp]
        rfl
      · unfold Pass.isOpen
        rw [hj, Option.any_some, Option.isNone_eq_false_iff]
        exact hq

/-! ### How many turns there are -/

/-- The number of edges out of some blocks. -/
def edgesOut (bs : List Block) : Nat := (bs.map fun b => b.successors.length).sum

/-- The number of edges of a graph. -/
def BlockGraph.edgeCount (g : BlockGraph) : Nat := edgesOut g.blocks

/-- The number of edges out of the blocks that are open. -/
def openEdges (g : BlockGraph) (p : Pass) : Nat := edgesOut (g.blocks.filter (p.isOpen g))

theorem edgesOut_le {bs cs : List Block} (h : bs.Sublist cs) : edgesOut bs ≤ edgesOut cs :=
  (h.map _).sum_le_sum fun _ _ => Nat.zero_le _

theorem Pass.Within.edgesOut_le {p q : Pass} (h : p.Within q) (g : BlockGraph) (bs : List Block) :
    edgesOut (bs.filter (q.isOpen g)) ≤ edgesOut (bs.filter (p.isOpen g)) :=
  FlowState.edgesOut_le (List.monotone_filter_right bs fun _ hb => h.isOpen hb)

/-- A block that is closed takes its edges away. -/
theorem Pass.Within.openEdges_add_le {p q : Pass} (h : p.Within q) {g : BlockGraph} {b : Block}
    (hb : b ∈ g.blocks) (hp : p.isOpen g b = true) (hq : q.isOpen g b = false) :
    openEdges g q + b.successors.length ≤ openEdges g p := by
  obtain ⟨front, rest, hs⟩ := List.append_of_mem hb
  have hfront := h.edgesOut_le g front
  have hrest := h.edgesOut_le g rest
  unfold openEdges
  rw [hs, List.filter_append, List.filter_append, List.filter_cons_of_pos hp,
    List.filter_cons_of_neg (by simp [hq])]
  unfold edgesOut at *
  simp only [List.map_append, List.map_cons, List.sum_append, List.sum_cons]
  omega

theorem length_arrivals_le {input : WalkInput} {n : Nat} {b : Block}
    (hb : input.graph.blocks[n]? = some b) (root : Address) (s : StateValue) :
    (arrivals input root n s).length ≤ b.successors.length := by
  have hsucc : (input.graph.successors n).length = b.successors.length := by
    simp [BlockGraph.successors, hb]
  rw [← hsucc]
  exact List.length_filterMap_le _ _

/-- A turn adds no more paths than it takes edges away. -/
theorem look_openEdges {input : WalkInput} {p q : Pass} {w : Arrival} {o : Option StateValue}
    (h : look input p w = .ok (q, o)) (root : Address) :
    openEdges input.graph q + (behind input root w.block o).length ≤ openEdges input.graph p := by
  obtain ⟨-, hin, hopen⟩ := look_ok h
  cases o with
  | none => exact hin.edgesOut_le input.graph input.graph.blocks
  | some s =>
    obtain ⟨b, hb, hp, hq⟩ := hopen rfl
    have hlen := length_arrivals_le hb root s
    have hadd := hin.openEdges_add_le (List.mem_of_getElem? hb) hp hq
    exact Nat.le_trans (Nat.add_le_add_left hlen _) hadd

/-- **The number of turns.** -/
theorem Turns.length_le {input : WalkInput} {st : Standing} {ts : List Turn}
    {r : Except StateError Pass} (h : Turns input st ts r) :
    ts.length ≤ st.work.length + st.seeds.length + openEdges input.graph st.pass := by
  induction h with
  | done => exact Nat.zero_le _
  | lost _ _ ih =>
    simp only [List.length_nil, List.length_cons] at ih ⊢
    omega
  | seed _ _ ih =>
    simp only [List.length_nil, List.length_cons] at ih ⊢
    omega
  | fail =>
    simp only [List.length_nil, List.length_cons]
    omega
  | @turn p q root w work seeds o ts r hl _ ih =>
    have hpay := look_openEdges hl root
    simp only [List.length_append, List.length_cons] at ih ⊢
    omega

/-- The walk of a caller who gives other answers. -/
def WalkInput.answering (input : WalkInput) (f : Nat → Bool) : WalkInput :=
  { input with cancelled := f }

theorem walkRun_answering (input : WalkInput) (f : Nat → Bool) (p : Pass) (is : List Instruction)
    (s : StateValue) : walkRun (input.answering f) p is s = walkRun input p is s := by
  induction is generalizing p s with
  | nil => rfl
  | cons i is ih =>
    unfold walkRun
    simp only [ih]
    rfl

theorem look_answering {input : WalkInput} {f : Nat → Bool} {p : Pass} {w : Arrival}
    (h : f p.polls = input.cancelled p.polls) : look (input.answering f) p w = look input p w := by
  unfold look
  simp only [walkRun_answering]
  rw [show (input.answering f).cancelled p.polls = input.cancelled p.polls from h]
  rfl

/-- **The first yes ends the pass.** -/
theorem Turns.stopped {input : WalkInput} {f : Nat → Bool} {st : Standing} {ts : List Turn}
    {r : Except StateError Pass} (h : Turns input st ts r) (hno : ∀ k, input.cancelled k = false)
    (hf : ∃ k < ts.length, f (st.pass.polls + k) = true) :
    ∃ us, Turns (input.answering f) st us (.error .cancelled) := by
  induction h with
  | done =>
    obtain ⟨k, hk, -⟩ := hf
    cases hk
  | lost hn _ ih =>
    obtain ⟨us, hus⟩ := ih hf
    exact ⟨us, .lost hn hus⟩
  | seed hn _ ih =>
    obtain ⟨us, hus⟩ := ih hf
    exact ⟨us, .seed hn hus⟩
  | fail hl =>
    obtain ⟨k, hk, hyes⟩ := hf
    rw [List.length_singleton, Nat.lt_one_iff] at hk
    subst hk
    exact ⟨_, .fail (look_of_stop hyes)⟩
  | @turn p q root w work seeds o ts r hl _ ih =>
    cases hyes : f p.polls with
    | true => exact ⟨_, .fail (look_of_stop hyes)⟩
    | false =>
      obtain ⟨hpolls, -⟩ := look_ok hl
      obtain ⟨us, hus⟩ := ih (by
        obtain ⟨k, hk, hk'⟩ := hf
        cases k with
        | zero =>
          rw [Nat.add_zero, hyes] at hk'
          cases hk'
        | succ k =>
          refine ⟨k, by simpa using hk, ?_⟩
          rw [hpolls, Nat.add_assoc, Nat.add_comm 1 k]
          exact hk')
      exact ⟨_, .turn (by rw [look_answering (hyes.trans (hno _).symm)]; exact hl) hus⟩

/-! ### Questions to the update function -/

section Asks
variable {input : WalkInput} {p : Pass} {root : Address} {seeds : List (Address × StateValue)}
  {s : StateValue} {i : Instruction}

end Asks

/-- The number of questions that the pass has counted is the number of its turns. -/
theorem Turns.polls {input : WalkInput} {st : Standing} {ts : List Turn} {q : Pass}
    (h : Turns input st ts (.ok q)) : q.polls = st.pass.polls + ts.length := by
  generalize hr : Except.ok q = r at h
  induction h with
  | done =>
    cases hr
    rfl
  | lost _ _ ih => exact ih hr
  | seed _ _ ih => exact ih hr
  | fail => cases hr
  | turn hl _ ih =>
    rw [ih hr]
    dsimp only
    rw [(look_ok hl).1, List.length_cons, Nat.add_assoc, Nat.add_comm 1]

namespace Calculator

/-- The turns of a calculation. -/
def Takes (c : Calculator) (input : CalculatorInput) (cancelled : Nat → Bool) (ts : List Turn)
    (r : Except StateError Pass) : Prop :=
  Turns (c.walkInput input cancelled) ⟨.start, 0, [], c.seeds⟩ ts r

section Takes
variable {c : Calculator} {input : CalculatorInput} {cancelled : Nat → Bool} {ts : List Turn}
  {r : Except StateError Pass}

theorem Takes.calculate_eq (h : c.Takes input cancelled ts r) (hready : c.prepared = true) :
    c.calculate input cancelled = c.conclude r := by
  have hr : propagate (c.walkInput input cancelled) c.seeds = r := by
    have hrun := Turns.result h
    rwa [Standing.run_nil] at hrun
  unfold calculate
  rw [if_pos hready, hr]

/-- A yes to a question that is asked ends the calculation. -/
theorem Takes.calculate_stopped (h : c.Takes input (fun _ => false) ts r)
    (hready : c.prepared = true) (hyes : ∃ k < ts.length, cancelled k = true) :
    c.calculate input cancelled = (c, .error .cancelled) := by
  obtain ⟨k, hk, hyes⟩ := hyes
  have hyes' : cancelled (Pass.start.polls + k) = true := by
    rw [show Pass.start.polls + k = k from Nat.zero_add k]
    exact hyes
  obtain ⟨us, hus⟩ := Turns.stopped (f := cancelled) h (fun _ => rfl) ⟨k, hk, hyes'⟩
  have hus : c.Takes input cancelled us (.error .cancelled) := hus
  exact hus.calculate_eq hready

theorem Takes.length_le (h : c.Takes input cancelled ts r) :
    ts.length ≤ c.seeds.length + input.graph.edgeCount := by
  have hlen := Turns.length_le h
  have hopen : openEdges input.graph .start ≤ input.graph.edgeCount :=
    edgesOut_le List.filter_sublist
  rw [List.length_nil, Nat.zero_add] at hlen
  exact Nat.le_trans hlen (Nat.add_le_add_left hopen _)

end Takes

end Calculator

/-! ### The last question

The loop has one seed and four edges, and all of them are followed: the fifth question is asked, and
a yes from the sixth on is too late. -/

namespace Loop

/-- An update function that gives up by itself cannot be told apart from a caller who stops. -/
def givingUp : UpdateFunction := ⟨"giving up", .ok (), fun _ _ _ => .error .cancelled⟩

example : ({ before with updater := ⟨givingUp, true⟩ }.calculate input fun _ => false).2 =
    .error .cancelled := by cbv

end Loop

end FlowState
