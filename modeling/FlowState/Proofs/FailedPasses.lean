import FlowState.Proofs.Arrivals

/-! # Passes that fail

A pass with a built-in function fails exactly if a seed reaches a load reference that has no address
of its data. The update functions themselves never fail: that a calculator is prepared implies that
its function is, whatever was done to it before (`Calculator.Made.sound`).

A run fails at an instruction where a state arrives, and states arrive only where their seeds reach
(`Runs.exists_failed`). Conversely a run that succeeds has a state wherever a seed reaches
(`Runs.reachable_mem_keys`), whichever path came first, so each reference there has an address. -/

namespace FlowState

/-! ### Calculators with a built-in function -/

/-- The built-in functions never refuse a state once they are prepared. -/
theorem Updater.exists_update {u : Updater} (hf : u.function ∈ UpdateRegistry.builtin.functions)
    (hr : u.ready = true) (s : StateValue) (i : Instruction) : ∃ t, u.update s i = .ok t := by
  obtain ⟨f, ready⟩ := u
  simp only [UpdateRegistry.builtin, List.mem_cons, List.not_mem_nil, or_false] at hf hr
  subst hr
  rcases hf with rfl | rfl | rfl <;> exact ⟨_, rfl⟩

namespace Calculator

/-- **What can be done to a calculator** with a built-in function: it is made with some options and
gets others, seeds are set, and it is prepared, released and run in any order. -/
inductive Made : Calculator → Prop where
  | new {u : Updater} (stop : Bool) :
      u.function ∈ UpdateRegistry.builtin.functions → Made (.ofUpdater u stop)
  | options {c : Calculator} (stop : Bool) : Made c → Made { c with stopAtEntryPoints := stop }
  | seed {c : Calculator} (a : Address) (s : StateValue) : Made c → Made (c.seed a s)
  | prepare {c : Calculator} : Made c → Made c.prepare.1
  | cleanup {c : Calculator} : Made c → Made c.cleanup
  | calculate {c : Calculator} (input : CalculatorInput) (cancelled : Nat → Bool) :
      Made c → Made (c.calculate input cancelled).1

/-- **A prepared calculator has a prepared function.** -/
theorem Made.sound {c : Calculator} (h : c.Made) :
    c.updater.function ∈ UpdateRegistry.builtin.functions ∧
      (c.prepared = true → c.updater.ready = true) := by
  induction h with
  | new stop hu => exact ⟨hu, fun hp => by cases hp⟩
  | options stop _ ih => exact ih
  | seed a s _ ih =>
    rw [updater_seed, prepared_seed]
    exact ih
  | @prepare c _ ih =>
    cases hp : c.prepare.2 with
    | error e =>
      rw [prepare_of_error hp]
      exact ih
    | ok x =>
      rw [updater_of_prepare hp]
      exact ⟨ih.1, fun _ => rfl⟩
  | cleanup _ ih => exact ⟨ih.1, fun hp => by cases hp⟩
  | @calculate c input cancelled _ ih =>
    rw [updater_calculate, prepared_calculate]
    exact ih

end Calculator

/-! ### Where a seed reaches -/

/-- **The addresses that a seed reaches**: its own if it is decoded, the next one in a block, and
behind a block the starts of those that follow. With the stop rule the start must be that of the
seed, or no entry point. -/
inductive Reachable (g : BlockGraph) (entryPoints : List Address) (stop : Bool) (root : Address) :
    Address → Prop where
  | seed {i : Instruction} : g.instructionAt? root = some i → Reachable g entryPoints stop root root
  | next {i j : Instruction} : Reachable g entryPoints stop root i.address → g.NextInBlock i j →
      Reachable g entryPoints stop root j.address
  | edge {i : Instruction} {d : Block} : Reachable g entryPoints stop root i.address →
      g.LeadsTo i d → (d.start = root ∨ stop = false ∨ d.start ∉ entryPoints) →
      Reachable g entryPoints stop root d.start

/-- A walk reaches the address from a seed. -/
abbrev WalkInput.Reaches (input : WalkInput) (root a : Address) : Prop :=
  Reachable input.graph input.entryPoints input.stopAtEntryPoints root a

theorem Reachable.decoded {g : BlockGraph} {entryPoints : List Address} {stop : Bool}
    {root a : Address} (h : Reachable g entryPoints stop root a) :
    ∃ i, g.instructionAt? root = some i := by
  induction h with
  | seed hi => exact ⟨_, hi⟩
  | next _ _ ih => exact ih
  | edge _ _ _ ih => exact ih

section Walk
variable {input : WalkInput} (hg : input.graph.WellFormed)
include hg

/-- A path goes on only to what its seed reaches. -/
theorem Reachable.onward {root a b : Address} (h : input.Reaches root a)
    (hb : b ∈ onward input root a) : input.Reaches root b := by
  rcases link_of_mem_onward hg hb with ⟨i, j, hij, rfl, rfl⟩ | ⟨i, d, hid, rfl, rfl, hstop⟩
  · exact .next h hij
  · exact .edge h hid hstop

/-- **A run that succeeds has a state wherever a seed reaches.** -/
theorem Runs.reachable_mem_keys {seeds : List (Address × StateValue)} {q : Pass}
    (h : Runs input .start (seeds.map Carried.ofSeed) (.ok q)) {e : Address × StateValue}
    (he : e ∈ seeds) {a : Address} (ha : input.Reaches e.1 a) : a ∈ q.pre.keys := by
  have hseed : (∃ i, input.graph.instructionAt? e.1 = some i) → e.1 ∈ q.pre.keys := by
    intro hdec
    obtain ⟨s, hs, -⟩ := h.receives .start (List.mem_map.mpr ⟨e, he, rfl⟩) hdec
    exact Table.mem_keys_of_get? hs
  induction ha with
  | seed hi => exact hseed ⟨_, hi⟩
  | next _ hij ih =>
    obtain ⟨v, root, -, hon⟩ := h.receives_of_mem hg ih
    obtain ⟨s, hs, -⟩ := hon _ (mem_onward_of_next hg hij root)
    exact Table.mem_keys_of_get? hs
  | edge hi hid hstop ih =>
    -- the instruction may have been passed from another seed, which does not enter this one
    rcases hstop with hback | hstop
    · rw [hback]
      exact hseed hi.decoded
    · obtain ⟨v, root, -, hon⟩ := h.receives_of_mem hg ih
      obtain ⟨s, hs, -⟩ := hon _ (mem_onward_of_leadsTo hg hid hstop root)
      exact Table.mem_keys_of_get? hs

end Walk

/-! ### Where a run fails -/

/-- If the state arrives at an instruction, its path starts at a seed that reaches it. -/
def Carried.OnPath (input : WalkInput) (seeds : List (Address × StateValue)) (c : Carried) : Prop :=
  (∃ i, input.graph.instructionAt? c.address = some i) →
    (∃ e ∈ seeds, e.1 = c.root) ∧ input.Reaches c.root c.address

theorem Carried.onPath_ofSeed {input : WalkInput} {seeds : List (Address × StateValue)} :
    ∀ c ∈ seeds.map Carried.ofSeed, c.OnPath input seeds := by
  rintro c hc ⟨i, hi⟩
  obtain ⟨e, he, rfl⟩ := List.mem_map.mp hc
  exact ⟨⟨e, he, rfl⟩, .seed hi⟩

/-- **A run fails where a seed reaches.** -/
theorem Runs.exists_failed {input : WalkInput} (hg : input.graph.WellFormed)
    {seeds : List (Address × StateValue)} {p : Pass} {cs : List Carried} {e : StateError}
    (h : Runs input p cs (.error e)) (hcs : ∀ c ∈ cs, c.OnPath input seeds) :
    ∃ s ∈ seeds, ∃ a i v, input.Reaches s.1 a ∧ input.graph.instructionAt? a = some i ∧
      stepInstruction input i v = .error e := by
  generalize hr : Except.error e = r at h
  induction h with
  | done => cases hr
  | lost _ _ ih => exact ih (fun d hd => hcs d (List.mem_cons_of_mem _ hd)) hr
  | meet _ _ _ ih => exact ih (fun d hd => hcs d (List.mem_cons_of_mem _ hd)) hr
  | @visit p c cs r i fixup post hi _ _ _ ih =>
    refine ih (fun d hd => ?_) hr
    rcases List.mem_append.mp hd with hd | hd
    · obtain ⟨b, hb, rfl⟩ := List.mem_map.mp hd
      obtain ⟨hroot, hreach⟩ := hcs c List.mem_cons_self ⟨i, hi⟩
      exact fun _ => ⟨hroot, hreach.onward hg hb⟩
    · exact hcs d (List.mem_cons_of_mem c hd)
  | @fail p c cs i e' hi _ hs =>
    cases hr
    obtain ⟨⟨s, hmem, hroot⟩, hreach⟩ := hcs c List.mem_cons_self ⟨i, hi⟩
    exact ⟨s, hmem, c.address, i, c.state, by rw [hroot]; exact hreach, hi, hs⟩

/-- The load reference at the address has no address of its data. -/
def AnnotationStore.Dangling (annotations : AnnotationStore) (a : Address) : Prop :=
  ∃ r, annotations.loadReferenceAt? a = some r ∧ r.dataLoad = none

theorem dangling_of_step_error {input : WalkInput} {i : Instruction} {s u : StateValue}
    {e : StateError} (hu : input.update s i = .ok u) (h : stepInstruction input i s = .error e) :
    input.annotations.Dangling i.address ∧ e = .missingReference i.address := by
  unfold stepInstruction at h
  cases hr : input.annotations.loadReferenceAt? i.address with
  | none => simp [hu, hr] at h
  | some r =>
    simp only [hu, hr] at h
    unfold auditReference at h
    cases hd : r.dataLoad with
    | none =>
      simp only [hd, Except.error.injEq] at h
      exact ⟨⟨r, hr, hd⟩, h.symm⟩
    | some data => cases hm : input.memory.read? data s.width <;> simp [hd, hm] at h

theorem not_dangling_of_step {input : WalkInput} {i : Instruction} {s t : StateValue}
    {fixup : Option Fixup} (h : stepInstruction input i s = .ok (fixup, t)) :
    ¬ input.annotations.Dangling i.address := by
  rintro ⟨r, hr, hd⟩
  obtain ⟨u, -, ⟨hn, -⟩ | ⟨r', data, hr', hd', -⟩⟩ := stepInstruction_ok h
  · rw [hr] at hn
    cases hn
  · rw [hr] at hr'
    cases hr'
    rw [hd] at hd'
    cases hd'

namespace Calculator

/-- **A seed reaches a reference without data.** -/
def Meets (c : Calculator) (input : CalculatorInput) (a : Address) : Prop :=
  (∃ e ∈ c.seeds, Reachable input.graph input.entryPoints c.stopAtEntryPoints e.1 a) ∧
    input.annotations.Dangling a

theorem runs_of_calculate_error {c : Calculator} {input : CalculatorInput} {e : StateError}
    (hg : input.graph.WellFormed) (hready : c.prepared = true)
    (h : (c.calculate input fun _ => false).2 = .error e) :
    Runs (c.walkInput input fun _ => false) .start (c.seeds.map Carried.ofSeed) (.error e) := by
  unfold calculate at h
  rw [if_pos hready, conclude_error_iff] at h
  have hw : (c.walkInput input fun _ => false).graph.WellFormed := hg
  have hr := runs_propagate hw c.seeds fun _ _ _ => rfl
  rwa [h] at hr

/-- **When a pass fails.** A prepared calculator with a built-in function fails on a graph exactly
if a decoded seed reaches a reference without data under the stop rule; and its error is that such a
reference lacks its data. -/
theorem calculate_error_iff {stream : List Instruction} {overrides : Table InstructionKind}
    {extra : List Address} {c : Calculator} {input : CalculatorInput}
    (hg : input.graph = .build stream overrides extra) (hmade : c.Made)
    (hready : c.prepared = true) :
    ((∃ e, (c.calculate input fun _ => false).2 = .error e) ↔ ∃ a, c.Meets input a) ∧
    ∀ e, (c.calculate input fun _ => false).2 = .error e →
      ∃ a, c.Meets input a ∧ e = .missingReference a := by
  have hw : input.graph.WellFormed := by rw [hg]; exact BlockGraph.build_wellFormed _ _ _
  have hw' : (c.walkInput input fun _ => false).graph.WellFormed := hw
  obtain ⟨hf, hr⟩ := hmade.sound
  have hcause : ∀ e, (c.calculate input fun _ => false).2 = .error e →
      ∃ a, c.Meets input a ∧ e = .missingReference a := by
    intro e he
    have hrun := runs_of_calculate_error hw hready he
    obtain ⟨s, hs, a, i, v, hreach, hi, hx⟩ := hrun.exists_failed hw' Carried.onPath_ofSeed
    obtain ⟨u, hu⟩ := Updater.exists_update hf (hr hready) v i
    obtain ⟨hdang, hmsg⟩ := dangling_of_step_error hu hx
    have hia : i.address = a := (hw.instructionAt?_eq_some.mp hi).2
    rw [hia] at hdang hmsg
    exact ⟨a, ⟨⟨s, hs, hreach⟩, hdang⟩, hmsg⟩
  refine ⟨⟨?_, ?_⟩, hcause⟩
  · rintro ⟨e, he⟩
    obtain ⟨a, ha, -⟩ := hcause e he
    exact ⟨a, ha⟩
  · rintro ⟨a, ⟨s, hs, hreach⟩, hdang⟩
    cases hc : (c.calculate input fun _ => false).2 with
    | error e => exact ⟨e, rfl⟩
    | ok fixups =>
      -- a pass that succeeds has passed the instruction, so its reference has data
      obtain ⟨q, hrun, -⟩ := runs_of_calculate hw (Prod.ext rfl hc)
      obtain ⟨v, hv⟩ := Table.exists_get?_of_mem_keys (hrun.reachable_mem_keys hw' hs hreach)
      obtain ⟨i, fixup, t, hi, -, hx⟩ := (hrun.lawful .start).of_pre hv
      have hia : i.address = a := (hw.instructionAt?_eq_some.mp hi).2
      rw [← hia] at hdang
      exact absurd hdang (not_dangling_of_step hx)

end Calculator

/-! ### A reference behind a branch

With the stop rule on, the instruction behind the branch is not entered; but the branch jumps over
it, to a reference without data. -/

namespace Loop

def inputDangling : CalculatorInput :=
  { input with
    annotations := .ofAnnotations [⟨0x12, .loadReference ⟨.signatureLoad, none, none⟩⟩]
    entryPoints := [0x11] }

/-- The checksum from the branch on. -/
def checksum : Calculator := ⟨⟨.crc32c, true⟩, true, [(0x10, ⟨[0]⟩)], true, .empty, .empty⟩

theorem made_checksum : checksum.Made := by
  have hnew := Calculator.Made.new (u := ⟨.crc32c, false⟩) true
    (by simp [UpdateRegistry.builtin] : UpdateFunction.crc32c ∈ UpdateRegistry.builtin.functions)
  exact (hnew.seed 0x10 ⟨[0]⟩).prepare

theorem meets_dangling : checksum.Meets inputDangling 0x12 := by
  let branch : Instruction := ⟨0x10, [1], .conditionalBranch, [0x12], none⟩
  let front : Block := ⟨0, 0x10, 0x11, 0, 1, .conditionalBranch,
    [⟨2, .conditionalJump⟩, ⟨1, .fallthrough⟩]⟩
  let back : Block := ⟨2, 0x12, 0x13, 2, 3, .directBranch, [⟨0, .jump⟩]⟩
  have hseed : Reachable inputDangling.graph inputDangling.entryPoints checksum.stopAtEntryPoints
      0x10 branch.address := .seed (i := branch) rfl
  have hfront : inputDangling.graph.blocks[0]? = some front := rfl
  have hlead : inputDangling.graph.LeadsTo branch back :=
    ⟨0, front, 2, hfront, rfl, ⟨front, hfront, _, List.mem_cons_self, rfl⟩, rfl⟩
  have hjump := hseed.edge hlead (Or.inr (Or.inr (by decide)))
  exact ⟨⟨(0x10, ⟨[0]⟩), List.mem_cons_self, hjump⟩, ⟨.signatureLoad, none, none⟩, rfl, rfl⟩

theorem fails_dangling : checksum.Made ∧ checksum.Meets inputDangling 0x12 ∧
    ∃ a, checksum.Meets inputDangling a ∧
      (checksum.calculate inputDangling fun _ => false).2 = .error (.missingReference a) := by
  obtain ⟨hiff, hcause⟩ := Calculator.calculate_error_iff
    (rfl : inputDangling.graph = .build stream .empty []) made_checksum rfl
  obtain ⟨e, he⟩ := hiff.mpr ⟨0x12, meets_dangling⟩
  obtain ⟨a, ha, rfl⟩ := hcause e he
  exact ⟨made_checksum, meets_dangling, a, ha, he⟩

end Loop

end FlowState
