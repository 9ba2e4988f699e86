import FlowState.Proofs.SeedOrder

/-! # The audit of the load references

Besides conflicts, a pass has the fixups of its steps, one step for each address that it reaches
(`Pass.Audited`). The fixup of a step is at the address of its instruction
(`address_of_mem_stepFixups`), so those at one address are the one of its own step, or none
(`auditsAt_reached`, `auditsAt_unreached`): however often a path arrives there, the reference is
looked at once. What this one fixup is follows from the outcomes of a step. -/

namespace FlowState

/-- The fixups at an address besides conflicts. -/
def auditsAt (fixups : List Fixup) (a : Address) : List Fixup :=
  fixups.filter fun f => f.address == a && f.kind != .mergeConflict

/-! ### The fixups of one address -/

/-- In a sorted table one entry only is at an address. -/
theorem Table.Sorted.flatMap_entries {α β : Type} {t : Table α} (ht : t.Sorted) {a : Address}
    {v : α} (h : t.get? a = some v) {f : Address × α → List β} (hf : ∀ e, e.1 ≠ a → f e = []) :
    t.entries.flatMap f = f (a, v) := by
  obtain ⟨es, fs, hes⟩ := List.append_of_mem (mem_entries_of_get? h)
  have hp : (es ++ (a, v) :: fs).Pairwise fun e f => e.1 < f.1 := by rw [← hes]; exact ht
  obtain ⟨-, hfs, hlt⟩ := List.pairwise_append.mp hp
  have hbefore : es.flatMap f = [] := by
    refine List.flatMap_eq_nil_iff.mpr fun e he => hf e ?_
    exact UInt64.ne_of_lt (hlt e he (a, v) List.mem_cons_self)
  have hbehind : fs.flatMap f = [] := by
    refine List.flatMap_eq_nil_iff.mpr fun e he => hf e ?_
    exact (UInt64.ne_of_lt ((List.pairwise_cons.mp hfs).1 e he)).symm
  rw [hes, List.flatMap_append, List.flatMap_cons, hbefore, hbehind, List.nil_append,
    List.append_nil]

@[simp] theorem LoadReference.address_mismatch (r : LoadReference) (a : Address)
    (expected computed : StateValue) : (r.mismatch a expected computed).address = a := by
  unfold mismatch
  split <;> rfl

/-- The fixup of a step is at its instruction. -/
theorem stepInstruction_address {input : WalkInput} {i : Instruction} {s t : StateValue} {f : Fixup}
    (h : stepInstruction input i s = .ok (some f, t)) : f.address = i.address := by
  obtain ⟨u, -, ⟨-, hf, -⟩ | ⟨r, data, -, -, ⟨-, hf, -⟩ | ⟨bytes, -, hf, -⟩⟩⟩ :=
    stepInstruction_ok h
  · cases hf
  · cases hf
    rfl
  · split_ifs at hf
    cases hf
    exact r.address_mismatch _ _ _

/-- The fixups at an address are those of the steps that are there. -/
theorem Pass.Audited.perm_auditsAt {input : WalkInput} {p : Pass} (h : p.Audited input)
    (a : Address) : (auditsAt p.fixups a).Perm (p.pre.entries.flatMap fun e =>
      (stepFixups input e).filter fun f => f.address == a) := by
  have hp := List.Perm.filter (fun f : Fixup => f.address == a) h
  rw [List.filter_filter, List.filter_flatMap] at hp
  exact hp

section Audits
variable {input : WalkInput} (hg : input.graph.WellFormed)
include hg

theorem address_of_mem_stepFixups {e : Address × StateValue} {f : Fixup}
    (h : f ∈ stepFixups input e) : f.address = e.1 := by
  unfold stepFixups at h
  cases hi : input.graph.instructionAt? e.1 with
  | none => simp [hi] at h
  | some i =>
    cases hx : stepInstruction input i e.2 with
    | error x => simp [hi, hx] at h
    | ok x =>
      obtain ⟨fixup, t⟩ := x
      simp only [hi, hx, Option.mem_toList] at h
      rw [h] at hx
      rw [stepInstruction_address hx]
      exact (hg.instructionAt?_eq_some.mp hi).2

theorem filter_stepFixups_of_ne {e : Address × StateValue} {a : Address} (h : e.1 ≠ a) :
    ((stepFixups input e).filter fun f => f.address == a) = [] := by
  refine List.filter_eq_nil_iff.mpr fun f hf => ?_
  rw [address_of_mem_stepFixups hg hf, beq_iff_eq]
  exact h

theorem filter_stepFixups_self (a : Address) (s : StateValue) :
    ((stepFixups input (a, s)).filter fun f => f.address == a) = stepFixups input (a, s) :=
  List.filter_eq_self.mpr fun _ hf => beq_iff_eq.mpr (address_of_mem_stepFixups hg hf)

/-- Nothing is noted where the pass does not come. -/
theorem auditsAt_unreached {q : Pass} (h : q.Audited input) {a : Address} (ha : a ∉ q.pre.keys) :
    auditsAt q.fixups a = [] := by
  have hp := h.perm_auditsAt a
  rw [List.flatMap_eq_nil_iff.mpr fun e he => filter_stepFixups_of_ne hg ?_] at hp
  · exact List.perm_nil.mp hp
  · rintro rfl
    exact ha (List.mem_map_of_mem he)

/-- **Where the pass comes, the fixup of the one step is noted.** -/
theorem auditsAt_reached {q : Pass} (hq : q.Lawful input) (h : q.Audited input) {a : Address}
    {s t : StateValue} {i : Instruction} {fixup : Option Fixup} (hs : q.pre.get? a = some s)
    (hi : input.graph.instructionAt? a = some i)
    (hx : stepInstruction input i s = .ok (fixup, t)) :
    auditsAt q.fixups a = fixup.toList := by
  have hstep : stepFixups input (a, s) = fixup.toList := by
    unfold stepFixups
    simp only [hi, hx]
  have hp := h.perm_auditsAt a
  rw [hq.pre_sorted.flatMap_entries hs fun e he => filter_stepFixups_of_ne hg he,
    filter_stepFixups_self hg, hstep] at hp
  cases fixup with
  | none => exact List.perm_nil.mp hp
  | some f => exact List.perm_singleton.mp hp

end Audits

/-! ### The audit of a calculation -/

/-- **What a reference calls for** at an address, where its constant is looked for at `data`: `s` is
the state before the instruction, `t` the one behind it, and `u` the updated state. -/
def LoadReference.findings (r : LoadReference) (memory : Memory) (a data : Address)
    (s t u : StateValue) : List Fixup :=
  match memory.read? data s.width, r.updateType with
  | none, _ => [⟨a, .missingReference, none, t, .unresolved⟩]
  | some e, .signatureLoad =>
    if s = ⟨e⟩ then [] else [⟨a, .referenceMismatch, some ⟨e⟩, s, .unresolved⟩]
  | some e, .constantLoad =>
    if t = ⟨e⟩ then [] else [⟨a, .referenceMismatch, some ⟨e⟩, t, .unresolved⟩]
  | some e, .constInjection =>
    if u = ⟨e⟩ then [] else [⟨a, .injection, some ⟨e⟩, u, .acceptExpected⟩]

/-- The fixup of a step is what the reference calls for. -/
theorem toList_fixup_of_step {input : WalkInput} {i : Instruction} {s t : StateValue}
    {fixup : Option Fixup} {r : LoadReference} (h : stepInstruction input i s = .ok (fixup, t))
    (hr : input.annotations.loadReferenceAt? i.address = some r) :
    ∃ data u, r.dataLoad = some data ∧ input.update s i = .ok u ∧
      fixup.toList = r.findings input.memory i.address data s t u := by
  obtain ⟨u, hu, ⟨hn, -, -⟩ | ⟨r', data, hr', hd, ho⟩⟩ := stepInstruction_ok h
  · rw [hr] at hn
    cases hn
  · rw [hr] at hr'
    cases hr'
    refine ⟨data, u, hd, hu, ?_⟩
    unfold LoadReference.findings
    rcases ho with ⟨hm, hf, ht⟩ | ⟨bytes, hm, hf, ht⟩
    · rw [hm, hf, ht]
      rfl
    · rw [hm, hf]
      unfold LoadReference.subject LoadReference.mismatch
      unfold LoadReference.settle at ht
      -- the state behind the instruction is the updated one, unless the constant is injected
      cases hk : r.updateType with
      | signatureLoad =>
        dsimp only
        split_ifs <;> rfl
      | constantLoad =>
        rw [hk] at ht
        dsimp only at ht ⊢
        rw [ht]
        split_ifs <;> rfl
      | constInjection =>
        dsimp only
        split_ifs <;> rfl

/-- **The references are audited exactly.** Besides conflicts there is nothing at an address without
a state or without a reference; and at every other one there is what its reference calls for. -/
structure AuditLaw (update : StateValue → Instruction → Except StateError StateValue)
    (input : CalculatorInput) (pre post : Table StateValue) (fixups : List Fixup) : Prop where
  unreached : ∀ a, a ∉ pre.keys → auditsAt fixups a = []
  unreferenced : ∀ a, input.annotations.loadReferenceAt? a = none → auditsAt fixups a = []
  audited : ∀ a r, input.annotations.loadReferenceAt? a = some r → a ∈ pre.keys →
    ∃ data i s t u, r.dataLoad = some data ∧ input.graph.instructionAt? a = some i ∧
      pre.get? a = some s ∧ post.get? a = some t ∧ update s i = .ok u ∧
      auditsAt fixups a = r.findings input.memory a data s t u

/-- The fixups of every calculation obey the audit law. -/
theorem Calculator.calculate_audit_law {stream : List Instruction}
    {overrides : Table InstructionKind} {extra : List Address} {c c' : Calculator}
    {input : CalculatorInput} {cancelled : Nat → Bool} {fixups : List Fixup}
    (hg : input.graph = .build stream overrides extra)
    (h : c.calculate input cancelled = (c', .ok fixups)) :
    AuditLaw c.updater.update input c'.pre c'.post fixups := by
  have hw : input.graph.WellFormed := by rw [hg]; exact BlockGraph.build_wellFormed _ _ _
  have hw' : (c.walkInput input cancelled).graph.WellFormed := hw
  obtain ⟨q, hr, hpre, hpost, hfix⟩ := runs_of_calculate hw h
  have hq := hr.lawful .start
  rw [hpre, hpost, hfix]
  refine ⟨fun a ha => auditsAt_unreached hw' hr.audited ha, fun a ha => ?_, fun a r ha hk => ?_⟩
  · by_cases hk : a ∈ q.pre.keys
    · obtain ⟨s, hs⟩ := Table.exists_get?_of_mem_keys hk
      obtain ⟨i, fixup, t, hi, -, hx⟩ := hq.of_pre hs
      have hia : i.address = a := (hw.instructionAt?_eq_some.mp hi).2
      obtain ⟨u, -, ⟨-, hf, -⟩ | ⟨r, data, hr', -⟩⟩ := stepInstruction_ok hx
      · rw [auditsAt_reached hw' hq hr.audited hs hi hx, hf]
        rfl
      · rw [hia] at hr'
        have hr' : input.annotations.loadReferenceAt? a = some r := hr'
        rw [ha] at hr'
        cases hr'
    · exact auditsAt_unreached hw' hr.audited hk
  · obtain ⟨s, hs⟩ := Table.exists_get?_of_mem_keys hk
    obtain ⟨i, fixup, t, hi, ht, hx⟩ := hq.of_pre hs
    have hia : i.address = a := (hw.instructionAt?_eq_some.mp hi).2
    rw [← hia] at ha
    obtain ⟨data, u, hd, hu, hf⟩ := toList_fixup_of_step hx ha
    refine ⟨data, i, s, t, u, hd, hi, hs, ht, hu, ?_⟩
    rw [auditsAt_reached hw' hq hr.audited hs hi hx, hf, hia]
    rfl

theorem Loop.audit_law_after : before.calculate input (fun _ => false) = (after, .ok fixups) ∧
    AuditLaw before.updater.update input after.pre after.post fixups :=
  ⟨calculate_before,
    Calculator.calculate_audit_law (rfl : input.graph = .build stream .empty []) calculate_before⟩

end FlowState
