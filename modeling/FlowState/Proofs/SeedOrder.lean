import FlowState.Proofs.Arrivals

/-! # The order of the seeds

With the stop rule off, a pass without conflicts solves the equations of the flow: the state of a
seed is the state before its instruction, and the state behind an instruction is the state before
each instruction that follows it (`Solves`, `Runs.solves`). Every other run from the same seeds
writes only states of this solution, so it neither fails nor meets another state (`Solves.run`). Two
such runs hence write the same tables, and their fixups are those of the same steps
(`Pass.Audited`), in whatever order the seeds come. -/

namespace FlowState

/-! ### Solutions of the flow equations -/

/-- **The tables solve the equations** of the flow from the seeds. -/
structure Solves (input : WalkInput) (seeds : List (Address × StateValue)) (q : Pass) : Prop where
  lawful : q.Lawful input
  seed : ∀ e ∈ seeds, (∃ i, input.graph.instructionAt? e.1 = some i) → q.pre.get? e.1 = some e.2
  next : ∀ {a v}, q.post.get? a = some v → ∀ root, ∀ b ∈ onward input root a,
    q.pre.get? b = some v

theorem Receives.eq {pre : Table StateValue} {fixups : List Fixup} {a : Address} {v : StateValue}
    (h : Receives pre fixups a v) (hno : ∀ f ∈ fixups, f.kind ≠ .mergeConflict) :
    pre.get? a = some v := by
  obtain ⟨s, hs, rfl | ⟨f, hf, -, hk⟩⟩ := h
  · exact hs
  · exact absurd hk (hno f hf)

/-- Without the stop rule all paths go on alike, whichever seed they come from. -/
theorem onward_eq {input : WalkInput} (hstop : input.stopAtEntryPoints = false)
    (root root' a : Address) : onward input root a = onward input root' a := by
  have hex : exits input root = exits input root' := by
    unfold exits BlockGraph.mayEnter
    simp only [hstop, Bool.false_and]
  unfold onward
  rw [hex]

theorem Runs.solves {input : WalkInput} (hg : input.graph.WellFormed)
    (hstop : input.stopAtEntryPoints = false) {seeds : List (Address × StateValue)} {q : Pass}
    (h : Runs input .start (seeds.map Carried.ofSeed) (.ok q))
    (hno : ∀ f ∈ q.fixups, f.kind ≠ .mergeConflict) : Solves input seeds q := by
  refine ⟨h.lawful .start, fun e he hd => ?_, fun {a v} hv root b hb => ?_⟩
  · exact (h.receives .start (List.mem_map.mpr ⟨e, he, rfl⟩) hd).eq hno
  · obtain ⟨root', hon⟩ := h.receives_onward hg .start rfl hv
    rw [onward_eq hstop root root'] at hb
    exact (hon b hb).eq hno

/-- A run that carries only states of a solution writes only such states, and it succeeds. -/
theorem Solves.carry {input : WalkInput} {seeds : List (Address × StateValue)} {q : Pass}
    (hq : Solves input seeds q) {p : Pass} {cs : List Carried} {r : Except StateError Pass}
    (h : Runs input p cs r)
    (hpre : ∀ {a s}, p.pre.get? a = some s → q.pre.get? a = some s)
    (hno : ∀ f ∈ p.fixups, f.kind ≠ .mergeConflict)
    (hcs : ∀ c ∈ cs, (∃ i, input.graph.instructionAt? c.address = some i) →
      q.pre.get? c.address = some c.state) :
    ∃ p', r = .ok p' ∧ (∀ {a s}, p'.pre.get? a = some s → q.pre.get? a = some s) ∧
      ∀ f ∈ p'.fixups, f.kind ≠ .mergeConflict := by
  induction h with
  | done p => exact ⟨p, rfl, hpre, hno⟩
  | @lost p c cs r ha hrun ih =>
    exact ih hpre hno fun d hd => hcs d (List.mem_cons_of_mem c hd)
  | @meet p c cs r i first hi hf hrun ih =>
    have hc := hcs c List.mem_cons_self ⟨i, hi⟩
    rw [hpre hf] at hc
    cases hc
    rw [Pass.meet_self] at ih
    exact ih hpre hno fun d hd => hcs d (List.mem_cons_of_mem c hd)
  | @visit p c cs r i fixup post hi hn hs hrun ih =>
    have hc := hcs c List.mem_cons_self ⟨i, hi⟩
    -- the step is the one that the solution records, so the state behind it is the same
    obtain ⟨j, fixup', t, hj, ht, hx⟩ := hq.lawful.of_pre hc
    rw [hi] at hj
    cases hj
    rw [hs] at hx
    cases hx
    refine ih (fun {a s} ha => ?_) (fun f hf => ?_) (fun d hd hdec => ?_)
    · rw [Pass.pre_visit, Table.get?_insert] at ha
      split_ifs at ha with hac
      · cases ha
        rw [hac]; exact hc
      · exact hpre ha
    · rcases List.mem_append.mp hf with hf | hf
      · exact hno f hf
      · rw [Option.mem_toList.mp hf] at hs
        exact stepInstruction_kind hs
    · rcases List.mem_append.mp hd with hd | hd
      · obtain ⟨b, hb, rfl⟩ := List.mem_map.mp hd
        exact hq.next ht c.root b hb
      · exact hcs d (List.mem_cons_of_mem c hd) hdec
  | @fail p c cs i e hi hn hs =>
    obtain ⟨j, fixup', t, hj, -, hx⟩ := hq.lawful.of_pre (hcs c List.mem_cons_self ⟨i, hi⟩)
    rw [hi] at hj
    cases hj
    rw [hs] at hx
    cases hx

/-- **A run from the seeds of a solution** stays in the solution. -/
theorem Solves.run {input : WalkInput} {seeds : List (Address × StateValue)} {q : Pass}
    (hq : Solves input seeds q) {r : Except StateError Pass}
    (h : Runs input .start (seeds.map Carried.ofSeed) r) :
    ∃ p, r = .ok p ∧ (∀ {a s}, p.pre.get? a = some s → q.pre.get? a = some s) ∧
      ∀ f ∈ p.fixups, f.kind ≠ .mergeConflict := by
  refine hq.carry h (fun ha => by cases ha) (fun f hf => by cases hf) fun c hc hdec => ?_
  obtain ⟨e, he, rfl⟩ := List.mem_map.mp hc
  exact hq.seed e he hdec

theorem Solves.of_subset {input : WalkInput} {seeds seeds' : List (Address × StateValue)}
    {q : Pass} (hq : Solves input seeds q) (h : ∀ e, e ∈ seeds' → e ∈ seeds) :
    Solves input seeds' q :=
  ⟨hq.lawful, fun e he => hq.seed e (h e he), hq.next⟩

theorem Pass.Lawful.tables_eq {input : WalkInput} {p q : Pass} (hp : p.Lawful input)
    (hq : q.Lawful input) (h : ∀ a, p.pre.get? a = q.pre.get? a) :
    p.pre = q.pre ∧ p.post = q.post := by
  refine ⟨hp.pre_sorted.ext hq.pre_sorted h, hp.post_sorted.ext hq.post_sorted fun a => ?_⟩
  rcases hp.law a with ⟨hn, hn'⟩ | ⟨i, s, fixup, t, hi, hs, ht, hx⟩
  · rw [hn', hq.post_eq_none (by rw [← h a]; exact hn)]
  · rw [h a] at hs
    obtain ⟨j, fixup', t', hj, ht', hx'⟩ := hq.of_pre hs
    rw [hi] at hj
    cases hj
    rw [hx] at hx'
    cases hx'
    rw [ht, ht']

/-! ### The fixups of the steps -/

/-- The fixup of the step at an address with a state. -/
def stepFixups (input : WalkInput) (e : Address × StateValue) : List Fixup :=
  match input.graph.instructionAt? e.1 with
  | none => []
  | some i =>
    match stepInstruction input i e.2 with
    | .error _ => []
    | .ok (fixup, _) => fixup.toList

/-- The fixups besides conflicts are those of the steps, each once. -/
def Pass.Audited (input : WalkInput) (p : Pass) : Prop :=
  (p.fixups.filter fun f => f.kind != .mergeConflict).Perm
    (p.pre.entries.flatMap (stepFixups input))

theorem Pass.Audited.meet {input : WalkInput} {p : Pass} (h : p.Audited input) (a : Address)
    (first s : StateValue) : (p.meet a first s).Audited input := by
  unfold Pass.Audited
  rw [Pass.pre_meet]
  unfold Pass.meet
  split
  · exact h
  · unfold Pass.note
    have hnone : ([⟨a, .mergeConflict, some first, s, .unresolved⟩] : List Fixup).filter
        (fun f => f.kind != .mergeConflict) = [] := rfl
    rw [List.filter_append, hnone, List.append_nil]
    exact h

theorem Pass.Audited.visit {input : WalkInput} {p : Pass} (h : p.Audited input) {a : Address}
    {i : Instruction} {s t : StateValue} {fixup : Option Fixup}
    (hi : input.graph.instructionAt? a = some i) (ha : p.pre.get? a = none)
    (hs : stepInstruction input i s = .ok (fixup, t)) : (p.visit a s fixup t).Audited input := by
  have hstep : stepFixups input (a, s) = fixup.toList := by
    unfold stepFixups
    simp only [hi, hs]
  have hkeep : fixup.toList.filter (fun f => f.kind != .mergeConflict) = fixup.toList := by
    refine List.filter_eq_self.mpr fun f hf => ?_
    rw [Option.mem_toList.mp hf] at hs
    simpa using stepInstruction_kind hs
  unfold Pass.Audited
  rw [Pass.fixups_visit, Pass.pre_visit, List.filter_append, hkeep]
  have hold := List.Perm.append_left fixup.toList h
  have hnew := (Table.perm_insert ha s).flatMap_right (stepFixups input)
  rw [List.flatMap_cons, hstep] at hnew
  exact (List.perm_append_comm.trans hold).trans hnew.symm

theorem Runs.audited {input : WalkInput} {cs : List Carried} {q : Pass}
    (h : Runs input .start cs (.ok q)) : q.Audited input :=
  Runs.invariant (I := fun p _ => p.Audited input) (fun h => h) (fun _ h => h.meet _ _ _)
    (fun hi ha hs h => h.visit hi ha hs) h (List.Perm.refl _)

/-- Without conflicts all fixups are those of the steps. -/
theorem Pass.Audited.perm {input : WalkInput} {p q : Pass} (hp : p.Audited input)
    (hq : q.Audited input) (h : p.pre = q.pre) (hp' : ∀ f ∈ p.fixups, f.kind ≠ .mergeConflict)
    (hq' : ∀ f ∈ q.fixups, f.kind ≠ .mergeConflict) : p.fixups.Perm q.fixups := by
  unfold Pass.Audited at hp hq
  rw [List.filter_eq_self.mpr fun f hf => by simpa using hp' f hf] at hp
  rw [List.filter_eq_self.mpr fun f hf => by simpa using hq' f hf] at hq
  rw [h] at hp
  exact hp.trans hq.symm

/-! ### Two calculations -/

/-- **A result without conflicts does not depend on the order of the seeds.** The calculation from
the seeds in another order succeeds without conflicts as well, with the same tables and with the
same fixups in some order. -/
theorem Calculator.calculate_seed_order {stream : List Instruction}
    {overrides : Table InstructionKind} {extra : List Address} {c c' : Calculator}
    {input : CalculatorInput} {fixups : List Fixup} {seeds : List (Address × StateValue)}
    (hg : input.graph = .build stream overrides extra) (hstop : c.stopAtEntryPoints = false)
    (hperm : c.seeds.Perm seeds) (h : c.calculate input (fun _ => false) = (c', .ok fixups))
    (hno : ∀ f ∈ fixups, f.kind ≠ .mergeConflict) :
    ∃ d' fixups', Calculator.calculate { c with seeds := seeds } input (fun _ => false) =
        (d', .ok fixups') ∧
      (∀ f ∈ fixups', f.kind ≠ .mergeConflict) ∧ d'.pre = c'.pre ∧ d'.post = c'.post ∧
      fixups'.Perm fixups := by
  have hw : input.graph.WellFormed := by rw [hg]; exact BlockGraph.build_wellFormed _ _ _
  obtain ⟨q, hr, hpre, hpost, hfix⟩ := runs_of_calculate hw h
  rw [hfix] at hno
  have hq := hr.solves hw hstop hno
  have hready : c.prepared = true := prepared_of_calculate h
  obtain ⟨r, hr', hok⟩ := exists_runs (c := { c with seeds := seeds }) hw hready
  have hr' : Runs (c.walkInput input fun _ => false) .start (seeds.map Carried.ofSeed) r := hr'
  obtain ⟨p, rfl, hin, hno'⟩ := (hq.of_subset fun e he => hperm.mem_iff.mpr he).run hr'
  -- the second run solves the equations too, so the first one stays in its tables as well
  have hp := hr'.solves hw hstop hno'
  obtain ⟨q', hqq, hin', -⟩ := (hp.of_subset fun e he => hperm.mem_iff.mp he).run hr
  cases hqq
  have hsame : ∀ a, p.pre.get? a = q.pre.get? a := fun a =>
    Option.ext fun s => ⟨fun hs => hin hs, fun hs => hin' hs⟩
  obtain ⟨hpre', hpost'⟩ := hp.lawful.tables_eq hq.lawful hsame
  obtain ⟨d', hd, hdpre, hdpost⟩ := hok p rfl
  refine ⟨d', p.fixups, hd, hno', ?_, ?_, ?_⟩
  · rw [hdpre, hpre, hpre']
  · rw [hdpost, hpost, hpost']
  · rw [hfix]
    exact hr'.audited.perm hr.audited hpre' hno' hno

/-! ### A loop that agrees with itself

Two instructions that cancel each other, with a jump back: a seed at each of them brings the state
that the other one sends there. The constant that the first one refers to differs from its state. -/

namespace Circle

/-- An instruction and the jump back to it. -/
def stream : List Instruction :=
  [⟨0x10, [6], .sequential, [], none⟩, ⟨0x11, [6], .directBranch, [0x10], none⟩]

def input : CalculatorInput where
  graph := .build stream .empty []
  annotations := .ofAnnotations [⟨0x10, .loadReference ⟨.signatureLoad, none, some 0x20⟩⟩]
  memory := [⟨"data", 0x20, [9], false⟩]
  entryPoints := []

/-- The seeds, the one in the middle of the block first. -/
def before : Calculator :=
  ⟨⟨.xor, true⟩, false, [(0x11, ⟨[6]⟩), (0x10, ⟨[0]⟩)], true, .empty, .empty⟩

def after : Calculator :=
  { before with
    pre := ⟨[(0x10, ⟨[0]⟩), (0x11, ⟨[6]⟩)]⟩
    post := ⟨[(0x10, ⟨[6]⟩), (0x11, ⟨[0]⟩)]⟩ }

def fixups : List Fixup := [⟨0x10, .referenceMismatch, some ⟨[9]⟩, ⟨[0]⟩, .unresolved⟩]

theorem calculate_before : before.calculate input (fun _ => false) = (after, .ok fixups) := by cbv

theorem seed_order_reversed :
    before.calculate input (fun _ => false) = (after, .ok fixups) ∧
    ∃ d' fixups', Calculator.calculate { before with seeds := before.seeds.reverse } input
        (fun _ => false) = (d', .ok fixups') ∧
      (∀ f ∈ fixups', f.kind ≠ .mergeConflict) ∧ d'.pre = after.pre ∧ d'.post = after.post ∧
      fixups'.Perm fixups :=
  ⟨calculate_before, Calculator.calculate_seed_order (rfl : input.graph = .build stream .empty [])
    rfl (List.reverse_perm _).symm calculate_before (by decide)⟩

end Circle

end FlowState
