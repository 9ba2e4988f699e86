import FlowState.Annotation.Store
import FlowState.Memory
import FlowState.State.Fixup
import FlowState.State.Update

/-! # The state walk

The state is carried from the seeds over the blocks of a graph. The first state that arrives at an
instruction stays there. A path that arrives later stops; if it brings another state, this is noted
once for the instruction. Load references compare the state with a constant of the image, or replace
it. A pass fills new tables, and nothing of it is kept if it fails. -/

namespace FlowState

/-- What a pass reads. -/
structure WalkInput where
  graph : BlockGraph
  annotations : AnnotationStore
  memory : Memory
  entryPoints : List Address
  /-- Blocks that start at an entry point are not entered. -/
  stopAtEntryPoints : Bool
  update : StateValue → Instruction → Except StateError StateValue
  /-- The answer to each question whether to stop, by the number of questions before it. -/
  cancelled : Nat → Bool

/-- The states before and behind the instructions, the fixups, and the number of questions asked. -/
structure Pass where
  pre : Table StateValue
  post : Table StateValue
  fixups : List Fixup
  polls : Nat
  deriving Repr, DecidableEq

namespace Pass

/-- The pass before it starts. -/
def start : Pass := ⟨.empty, .empty, [], 0⟩

/-- One more fixup. -/
def note (p : Pass) (f : Fixup) : Pass := { p with fixups := p.fixups ++ [f] }

/-- There is a note of a conflict at the address. -/
def hasConflict (p : Pass) (a : Address) : Bool :=
  p.fixups.any fun f => f.address == a && f.kind == .mergeConflict

/-- A path arrives with a state where another path came first. -/
def meet (p : Pass) (a : Address) (first arriving : StateValue) : Pass :=
  if first = arriving || p.hasConflict a then p
  else p.note ⟨a, .mergeConflict, some first, arriving, .unresolved⟩

/-- The state before an instruction. -/
def enter (p : Pass) (a : Address) (s : StateValue) : Pass := { p with pre := p.pre.insert a s }

/-- The state behind an instruction. -/
def leave (p : Pass) (a : Address) (s : StateValue) : Pass := { p with post := p.post.insert a s }

@[simp] theorem pre_note (p : Pass) (f : Fixup) : (p.note f).pre = p.pre := rfl

@[simp] theorem pre_leave (p : Pass) (a : Address) (s : StateValue) :
    (p.leave a s).pre = p.pre := rfl

end Pass

/-! ### One instruction -/

/-- The state that a reference compares with its constant. -/
def LoadReference.subject (r : LoadReference) (pre post : StateValue) : StateValue :=
  match r.updateType with
  | .signatureLoad => pre
  | .constantLoad | .constInjection => post

/-- The fixup of a reference whose constant differs. -/
def LoadReference.mismatch (r : LoadReference) (a : Address) (expected computed : StateValue) :
    Fixup :=
  match r.updateType with
  | .signatureLoad | .constantLoad => ⟨a, .referenceMismatch, some expected, computed, .unresolved⟩
  | .constInjection => ⟨a, .injection, some expected, computed, .acceptExpected⟩

/-- The state behind an instruction with a reference whose constant can be read. -/
def LoadReference.settle (r : LoadReference) (expected post : StateValue) : StateValue :=
  match r.updateType with
  | .constInjection => expected
  | _ => post

/-- The reference at an instruction is looked at: the fixup it gives, and the state behind. -/
def auditReference (memory : Memory) (r : LoadReference) (a : Address) (pre post : StateValue) :
    Except StateError (Option Fixup × StateValue) :=
  match r.dataLoad with
  | none => .error (.missingReference a)
  | some data =>
    match memory.read? data pre.width with
    | none => .ok (some ⟨a, .missingReference, none, post, .unresolved⟩, post)
    | some bytes =>
      let expected : StateValue := ⟨bytes⟩
      let computed := r.subject pre post
      .ok (if computed = expected then none else some (r.mismatch a expected computed),
        r.settle expected post)

/-- **One instruction**: the fixup it gives, and the state behind it. -/
def stepInstruction (input : WalkInput) (i : Instruction) (s : StateValue) :
    Except StateError (Option Fixup × StateValue) :=
  match input.update s i with
  | .error e => .error e
  | .ok post =>
    match input.annotations.loadReferenceAt? i.address with
    | none => .ok (none, post)
    | some r => auditReference input.memory r i.address s post

/-! ### One block -/

/-- The rest of a block from an arrival on: the pass behind it, and the state at its end unless the
path stops. -/
def walkRun (input : WalkInput) (p : Pass) : List Instruction → StateValue →
    Except StateError (Pass × Option StateValue)
  | [], s => .ok (p, some s)
  | i :: is, s =>
    match p.pre.get? i.address with
    | some first => .ok (p.meet i.address first s, none)
    | none =>
      match stepInstruction input i s with
      | .error e => .error e
      | .ok (fixup, post) =>
        let entered := p.enter i.address s
        let noted := match fixup with
          | some f => entered.note f
          | none => entered
        walkRun input (noted.leave i.address post) is post

/-- The instructions of a block from the arrival on. -/
def runFrom (g : BlockGraph) (n : Nat) (arrival : Address) : List Instruction :=
  let is := g.instructionsOf n
  let rest := is.dropWhile fun i => i.address != arrival
  if rest.isEmpty then is else rest

/-! ### The worklist -/

/-- The instructions that have no state yet. -/
def openInstructions (g : BlockGraph) (p : Pass) : List Instruction :=
  g.instructions.filter fun i => (p.pre.get? i.address).isNone

/-- Each step leaves the states before instructions as they are, or adds to them. -/
theorem walkRun_grows {input : WalkInput} {p q : Pass} {is : List Instruction} {s : StateValue}
    {o : Option StateValue} (h : walkRun input p is s = .ok (q, o)) {a : Address}
    (ha : (p.pre.get? a).isSome) : (q.pre.get? a).isSome := by
  induction is generalizing p s with
  | nil =>
    simp only [walkRun, Except.ok.injEq, Prod.mk.injEq] at h
    rw [← h.1]; exact ha
  | cons i is ih =>
    unfold walkRun at h
    split at h
    · simp only [Except.ok.injEq, Prod.mk.injEq] at h
      rw [← h.1]
      unfold Pass.meet
      split <;> exact ha
    · split at h
      · simp at h
      · apply ih h
        rw [Pass.pre_leave]
        split <;> simp only [Pass.pre_note, Pass.enter, Table.get?_insert] <;> split <;> simp_all

/-- A path that reaches the end of a run has entered its first instruction. -/
theorem walkRun_enters {input : WalkInput} {p q : Pass} {i : Instruction} {is : List Instruction}
    {s t : StateValue} (h : walkRun input p (i :: is) s = .ok (q, some t)) :
    (p.pre.get? i.address).isNone ∧ (q.pre.get? i.address).isSome := by
  unfold walkRun at h
  split at h
  · simp at h
  · rename_i hn
    split at h
    · simp at h
    · refine ⟨by simp [hn], walkRun_grows h ?_⟩
      rw [Pass.pre_leave]
      split <;> simp [Pass.enter]

theorem mem_instructions_of_runFrom {g : BlockGraph} {n : Nat} {arrival : Address} {i : Instruction}
    (h : i ∈ runFrom g n arrival) : i ∈ g.instructions := by
  have hi : i ∈ g.instructionsOf n := by
    unfold runFrom at h
    simp only at h
    split at h
    · exact h
    · exact (List.dropWhile_sublist _).subset h
  unfold BlockGraph.instructionsOf at hi
  cases hb : g.blocks[n]? with
  | none => simp [hb] at hi
  | some b =>
    simp only [hb, Option.map_some, Option.getD_some] at hi
    exact List.mem_of_mem_drop (List.mem_of_mem_take hi)

/-- What has no state in a later pass had none before. -/
theorem openInstructions_filter {g : BlockGraph} {p q : Pass}
    (h : ∀ a, (p.pre.get? a).isSome → (q.pre.get? a).isSome) :
    openInstructions g q =
      (openInstructions g p).filter fun i => (q.pre.get? i.address).isNone := by
  unfold openInstructions
  rw [List.filter_filter]
  refine List.filter_congr fun i _ => ?_
  cases hp : p.pre.get? i.address with
  | none => simp
  | some s =>
    have hq := h i.address (by rw [hp]; rfl)
    cases hq' : q.pre.get? i.address with
    | none => simp [hq'] at hq
    | some t => rfl

theorem length_open_lt {input : WalkInput} {g : BlockGraph} {p q : Pass} {n : Nat}
    {arrival : Address}
    {i : Instruction} {is : List Instruction} {s t : StateValue}
    (hr : runFrom g n arrival = i :: is) (h : walkRun input p (i :: is) s = .ok (q, some t)) :
    (openInstructions g q).length < (openInstructions g p).length := by
  obtain ⟨h1, h2⟩ := walkRun_enters h
  rw [openInstructions_filter fun a ha => walkRun_grows h ha]
  refine List.length_filter_lt_length_iff_exists.mpr ⟨i, ?_, ?_⟩
  · have hi : i ∈ runFrom g n arrival := by
      rw [hr]
      exact List.mem_cons_self
    exact List.mem_filter.mpr ⟨mem_instructions_of_runFrom hi, h1⟩
  · rw [Option.isNone_iff_eq_none]
    intro hq
    rw [hq] at h2
    cases h2

theorem openInstructions_of_pre {g : BlockGraph} {p q : Pass} (h : p.pre = q.pre) :
    openInstructions g p = openInstructions g q := by
  unfold openInstructions
  rw [h]

/-- A path that is to be followed: a block, where it is entered, and the state there. -/
structure Arrival where
  block : Nat
  address : Address
  state : StateValue
  deriving Repr, DecidableEq

/-- The paths out of a block, in the order of its edges. -/
def arrivals (input : WalkInput) (seed : Address) (n : Nat) (s : StateValue) : List Arrival :=
  (input.graph.successors n).filterMap fun m =>
    match input.graph.blocks[m]? with
    | none => none
    | some b =>
      if input.stopAtEntryPoints && b.start != seed && input.entryPoints.contains b.start then none
      else some ⟨m, b.start, s⟩

/-- One more question whether to stop. -/
def Pass.poll (p : Pass) : Pass := { p with polls := p.polls + 1 }

/-- Follows the paths from one seed, the last one that was found first. -/
def follow (input : WalkInput) (seed : Address) (p : Pass) (work : List Arrival) :
    Except StateError Pass :=
  match work with
  | [] => .ok p
  | w :: work =>
    if input.cancelled p.polls then .error .cancelled
    else
      match _hr : runFrom input.graph w.block w.address with
      | [] => follow input seed p.poll work
      | i :: is =>
        match _h : walkRun input p.poll (i :: is) w.state with
        | .error e => .error e
        | .ok (q, none) => follow input seed q work
        | .ok (q, some s) => follow input seed q (arrivals input seed w.block s ++ work)
termination_by ((openInstructions input.graph p).length, work.length)
decreasing_by
  · rw [openInstructions_of_pre (q := p) rfl]
    exact Prod.Lex.right _ (by simp)
  · have hle : (openInstructions input.graph q).length ≤
        (openInstructions input.graph p).length := by
      rw [← openInstructions_of_pre (p := p.poll) (q := p) rfl]
      rw [openInstructions_filter (q := q) fun a ha => walkRun_grows _h ha]
      exact List.length_filter_le _ _
    rcases Nat.lt_or_eq_of_le hle with hlt | heq
    · exact Prod.Lex.left _ _ hlt
    · rw [heq]; exact Prod.Lex.right _ (by simp)
  · apply Prod.Lex.left
    have := length_open_lt _hr _h
    rwa [openInstructions_of_pre (p := p.poll) (q := p) rfl] at this

/-- One more seed: nothing happens unless it is a decoded instruction. -/
def seedStep (input : WalkInput) (p : Pass) (seed : Address × StateValue) :
    Except StateError Pass :=
  match input.graph.blockContaining? seed.1 with
  | none => .ok p
  | some n => follow input seed.1 p [⟨n, seed.1, seed.2⟩]

/-- **A pass from the seeds in their order.** -/
def propagate (input : WalkInput) (seeds : List (Address × StateValue)) : Except StateError Pass :=
  seeds.foldlM (seedStep input) .start

end FlowState
