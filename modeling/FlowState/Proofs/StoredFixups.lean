import FlowState.Proofs.HexText
import FlowState.Proofs.StepLaw
import FlowState.Proofs.StoredAnnotations

/-! # Fixups in the database

A fixup is stored with texts for its values, and its record is read back as the fixup, unless a
value is empty: the text of an empty value is a mark without digits, and no such text is read
(`StateValue.parse?_text`). The built-in update functions never give an empty state, and a constant
is as wide as the state it is compared with. So a pass whose seeds are not empty has no empty state
anywhere (`Runs.hasBytes`), and its fixups are all got back. -/

namespace FlowState

/-! ### Records -/

/-- The values of a fixup have bytes. -/
def Fixup.HasBytes (f : Fixup) : Prop := f.computed.width ≠ 0 ∧ f.expected.map (·.width) ≠ some 0

instance (f : Fixup) : Decidable f.HasBytes :=
  inferInstanceAs (Decidable (f.computed.width ≠ 0 ∧ f.expected.map (·.width) ≠ some 0))

/-- **The record of a fixup is read as the fixup**, unless one of its values is empty. -/
theorem FixupRecord.fixup?_ofFixup (f : Fixup) :
    (ofFixup f).fixup? = if f.HasBytes then some f else none := by
  obtain ⟨a, kind, expected, computed, resolution⟩ := f
  unfold fixup? ofFixup Fixup.HasBytes
  simp only [FixupKind.ofName?_name, Resolution.ofName?_name, StateValue.parse?_text]
  cases expected with
  | none => by_cases hc : computed.width = 0 <;> simp [hc]
  | some v =>
    by_cases hv : v.width = 0 <;> by_cases hc : computed.width = 0 <;>
      simp [StateValue.parse?_text, hv, hc]

/-! ### Passes without empty states -/

theorem UpdateFunction.width_xorState (s : StateValue) (bs : List UInt8) :
    (xorState s bs).width ≠ 0 := by
  unfold xorState
  split <;> simp [StateValue.width]

theorem UpdateFunction.width_ofLowWord (s : StateValue) (n : UInt32) :
    (ofLowWord s n).width ≠ 0 := by
  have hwidth : (ofLowWord s n).width = max s.width 4 := StateValue.width_ofWord _ _
  omega

/-- A built-in function never gives an empty state. -/
theorem UpdateFunction.width_update {f : UpdateFunction}
    (hf : f ∈ UpdateRegistry.builtin.functions) {ready : Bool} {s t : StateValue} {i : Instruction}
    (h : f.update ready s i = .ok t) : t.width ≠ 0 := by
  simp only [UpdateRegistry.builtin, List.mem_cons, List.not_mem_nil, or_false] at hf
  rcases hf with rfl | rfl | rfl
  · cases h
    exact width_xorState s i.bytes
  · cases h
    exact width_ofLowWord s _
  · cases ready with
    | false => cases h
    | true =>
      cases h
      exact width_ofLowWord s _

section Step
variable {input : WalkInput}
  (hu : ∀ s i t, input.update s i = .ok t → t.width ≠ 0)
include hu

/-- From a state with bytes a step gives a state with bytes, and so does its fixup. -/
theorem stepInstruction_hasBytes {i : Instruction} {s t : StateValue} {fixup : Option Fixup}
    (h : stepInstruction input i s = .ok (fixup, t)) (hs : s.width ≠ 0) :
    t.width ≠ 0 ∧ ∀ f ∈ fixup, f.HasBytes := by
  obtain ⟨u, hupdate, ⟨-, rfl, rfl⟩ | ⟨r, data, -, -, ⟨-, rfl, rfl⟩ | ⟨bytes, hread, rfl, rfl⟩⟩⟩ :=
    stepInstruction_ok h
  · exact ⟨hu s i _ hupdate, by simp⟩
  · have hpost := hu s i _ hupdate
    refine ⟨hpost, ?_⟩
    rintro f ⟨⟩
    exact ⟨hpost, by simp⟩
  · have hpost := hu s i _ hupdate
    -- the constant is as wide as the state before the instruction
    have hbytes : (⟨bytes⟩ : StateValue).width ≠ 0 := by
      rw [show (⟨bytes⟩ : StateValue).width = s.width from Memory.length_of_read? hread]
      exact hs
    have hsubject : (r.subject s u).width ≠ 0 := by
      unfold LoadReference.subject
      split <;> assumption
    have hsettle : (r.settle ⟨bytes⟩ u).width ≠ 0 := by
      unfold LoadReference.settle
      split <;> assumption
    refine ⟨hsettle, fun f hf => ?_⟩
    split_ifs at hf
    · cases hf
    · cases hf
      unfold LoadReference.mismatch
      split <;> exact ⟨hsubject, by simpa using hbytes⟩

/-- **No state and no fixup of a pass is empty** if no seed is. -/
theorem Runs.hasBytes {q : Pass} {cs : List Carried} (hr : Runs input .start cs (.ok q))
    (hcs : ∀ c ∈ cs, c.state.width ≠ 0) : ∀ f ∈ q.fixups, f.HasBytes := by
  -- the states before instructions, the fixups and the states on their way all have bytes
  have hall := hr.invariant (I := fun p cs =>
    (∀ a s, p.pre.get? a = some s → s.width ≠ 0) ∧ (∀ f ∈ p.fixups, f.HasBytes) ∧
      ∀ c ∈ cs, c.state.width ≠ 0) ?lost ?meet ?visit ?start
  case start =>
    refine ⟨fun a s h => ?_, by simp [Pass.start], hcs⟩
    simp [Pass.start] at h
  case lost =>
    rintro p c cs ⟨hpre, hfix, hway⟩
    exact ⟨hpre, hfix, fun d hd => hway d (List.mem_cons_of_mem c hd)⟩
  case meet =>
    rintro p c cs first hfirst ⟨hpre, hfix, hway⟩
    refine ⟨by simpa using hpre, fun f hf => ?_, fun d hd => hway d (List.mem_cons_of_mem c hd)⟩
    unfold Pass.meet at hf
    split at hf
    · exact hfix f hf
    · rcases List.mem_append.mp hf with hf | hf
      · exact hfix f hf
      · rw [List.mem_singleton.mp hf]
        exact ⟨hway c List.mem_cons_self, by simpa using hpre _ _ hfirst⟩
  case visit =>
    rintro p c cs i fixup post - - hstep ⟨hpre, hfix, hway⟩
    have hc := hway c List.mem_cons_self
    obtain ⟨hpost, hnew⟩ := stepInstruction_hasBytes hu hstep hc
    refine ⟨fun a s hs => ?_, fun f hf => ?_, fun d hd => ?_⟩
    · rw [Pass.pre_visit, Table.get?_insert] at hs
      split_ifs at hs
      · cases hs
        exact hc
      · exact hpre a s hs
    · rw [Pass.fixups_visit, List.mem_append, Option.mem_toList] at hf
      exact hf.elim (hfix f) (hnew f)
    · rcases List.mem_append.mp hd with hd | hd
      · obtain ⟨b, -, rfl⟩ := List.mem_map.mp hd
        exact hpost
      · exact hway d (List.mem_cons_of_mem c hd)
  exact hall.2.1

end Step

/-! ### Rows -/

namespace Database

/-- The fixups that are stored under a new number are listed under it. -/
theorem listFixups_of_insert {d : Database} {rows : List FixupRow} (hd : d.fixups = some rows)
    {run : Int} (hrun : ∀ r ∈ rows, r.run ≠ run) (fs : List FixupRecord) :
    ∃ d', d.insertFixups run fs = .ok d' ∧ d'.listFixups run = .ok fs := by
  have hnone : ((fs.mapIdx (fixupRow run)).any fun n =>
      rows.any fun r => r.run == n.run && r.index == n.index) = false := by
    rw [List.any_eq_false]
    intro n hn
    obtain ⟨k, hk, rfl⟩ := List.mem_mapIdx.mp hn
    simp only [Bool.not_eq_true, List.any_eq_false, Bool.and_eq_true, beq_iff_eq, not_and]
    exact fun r hr h => absurd h (hrun r hr)
  have hold : rows.filter (fun r => r.run == run) = [] := by
    rw [List.filter_eq_nil_iff]
    intro r hr
    simpa using hrun r hr
  have hnew : (fs.mapIdx (fixupRow run)).filter (fun r => r.run == run) =
      fs.mapIdx (fixupRow run) :=
    filter_mapIdx_of_forall (fun _ _ => by simp [fixupRow]) fs
  have hsort : ((fs.mapIdx (fixupRow run)).mergeSort fun a b => a.index ≤ b.index) =
      fs.mapIdx (fixupRow run) := by
    apply mergeSort_mapIdx
    intro i j f g hij
    simp [fixupRow, hij]
  refine ⟨{ d with fixups := some (rows ++ fs.mapIdx (fixupRow run)) }, ?_, ?_⟩
  · unfold insertFixups
    rw [hd]
    change (if _ then _ else _) = _
    rw [hnone]
    rfl
  · have hread : (fs.mapIdx (fixupRow run)).map (fun r : FixupRow => FixupRecord.mk
        r.address.toUInt64 r.kind r.expected r.computed r.resolution) = fs := by
      rw [List.mapIdx_eq_zipIdx_map, List.map_map]
      simp [Function.comp_def, fixupRow]
    change Except.ok (List.map _ (List.mergeSort (List.filter _ (rows ++ _)) _)) = _
    rw [List.filter_append, hold, hnew, List.nil_append, hsort, hread]

end Database

/-- **Stored fixups are got back, unless a value is empty.** The fixups of a calculation with a
built-in function are stored under a new number, all of them are listed in their order, and each is
read as the fixup it was if its values have bytes, and not at all otherwise. From seeds with bytes
all fixups are read. -/
theorem Calculator.fixups_got_back {stream : List Instruction} {overrides : Table InstructionKind}
    {extra : List Address} {c c' : Calculator} {input : CalculatorInput} {cancelled : Nat → Bool}
    {fixups : List Fixup} (hg : input.graph = .build stream overrides extra)
    (hu : c.updater.function ∈ UpdateRegistry.builtin.functions)
    (h : c.calculate input cancelled = (c', .ok fixups))
    {d : Database} {rows : List FixupRow} (hd : d.fixups = some rows)
    {run : Int} (hrun : ∀ r ∈ rows, r.run ≠ run) :
    ∃ d' rs, d.insertFixups run (fixups.map .ofFixup) = .ok d' ∧ d'.listFixups run = .ok rs ∧
      rs.map FixupRecord.fixup? = fixups.map (fun f => if f.HasBytes then some f else none) ∧
      ((∀ s ∈ c.seeds, s.2.width ≠ 0) → rs.map FixupRecord.fixup? = fixups.map some) := by
  obtain ⟨d', hinsert, hlist⟩ := Database.listFixups_of_insert hd hrun (fixups.map .ofFixup)
  have hread : (fixups.map FixupRecord.ofFixup).map FixupRecord.fixup? =
      fixups.map (fun f => if f.HasBytes then some f else none) := by
    rw [List.map_map]
    exact List.map_congr_left fun f _ => FixupRecord.fixup?_ofFixup f
  refine ⟨d', _, hinsert, hlist, hread, fun hseeds => ?_⟩
  have hw : input.graph.WellFormed := by rw [hg]; exact BlockGraph.build_wellFormed _ _ _
  obtain ⟨q, hr, -, -, rfl⟩ := runs_of_calculate hw h
  have hbytes : ∀ f ∈ q.fixups, f.HasBytes := by
    refine hr.hasBytes (fun s i t ht => UpdateFunction.width_update hu ht) ?_
    intro e he
    obtain ⟨s, hs, rfl⟩ := List.mem_map.mp he
    exact hseeds s hs
  rw [hread]
  exact List.map_congr_left fun f hf => if_pos (hbytes f hf)

theorem Loop.fixups_listed : ∃ d' rs,
    Database.blank.createSecond.insertFixups 1 (fixups.map .ofFixup) = .ok d' ∧
      d'.listFixups 1 = .ok rs ∧ rs.map FixupRecord.fixup? = fixups.map some := by
  have hnone : ∀ r ∈ ([] : List FixupRow), r.run ≠ 1 := by simp
  obtain ⟨d', rs, hinsert, hlist, -, hall⟩ := Calculator.fixups_got_back
    (rfl : input.graph = .build stream .empty []) (by simp [before, UpdateRegistry.builtin])
    calculate_before (rfl : Database.blank.createSecond.fixups = some []) hnone
  exact ⟨d', rs, hinsert, hlist, hall (by decide)⟩

/-! An instruction that jumps to itself, with the empty state at first and another one later. -/

namespace Narrow

def input : CalculatorInput where
  graph := .build [⟨0x10, [1], .directBranch, [0x10], none⟩] .empty []
  annotations := .ofAnnotations []
  memory := []
  entryPoints := []

def before : Calculator := ⟨⟨.xor, true⟩, false, [(0x10, .zero 0)], true, .empty, .empty⟩

def after : Calculator := { before with pre := ⟨[(0x10, ⟨[]⟩)]⟩, post := ⟨[(0x10, ⟨[1]⟩)]⟩ }

def conflict : Fixup := ⟨0x10, .mergeConflict, some ⟨[]⟩, ⟨[1]⟩, .unresolved⟩

/-- The conflict is stored and listed, but its record is not read. -/
theorem conflict_not_read : before.calculate input (fun _ => false) = (after, .ok [conflict]) ∧
    ∃ d' rs, Database.blank.createSecond.insertFixups 1 [.ofFixup conflict] = .ok d' ∧
      d'.listFixups 1 = .ok rs ∧ rs.map FixupRecord.fixup? = [none] := by
  have hnone : ∀ r ∈ ([] : List FixupRow), r.run ≠ 1 := by simp
  obtain ⟨d', hinsert, hlist⟩ := Database.listFixups_of_insert
    (rfl : Database.blank.createSecond.fixups = some []) hnone [.ofFixup conflict]
  refine ⟨by cbv, ?_⟩
  refine ⟨d', _, hinsert, hlist, ?_⟩
  rw [List.map_singleton, FixupRecord.fixup?_ofFixup, if_neg (by decide)]

end Narrow

end FlowState
