import FlowState.Proofs.Runs
import Mathlib.Data.List.Permutation

/-! # The law of one instruction

In every pass the states before and behind an instruction are those of one step of it: a table that
a run makes is `Lawful`. The step is the update function, and behind it the constant of a load
reference that injects one (`Injected`); `stepInstruction_ok` lists what it can do. -/

namespace FlowState

/-! ### What a step can do -/

/-- **The outcomes of a step.** There is no load reference, or its constant cannot be read, or it is
compared and perhaps injected. -/
theorem stepInstruction_ok {input : WalkInput} {i : Instruction} {s t : StateValue}
    {fixup : Option Fixup} (h : stepInstruction input i s = .ok (fixup, t)) :
    ∃ u, input.update s i = .ok u ∧
      ((input.annotations.loadReferenceAt? i.address = none ∧ fixup = none ∧ t = u) ∨
      ∃ r data, input.annotations.loadReferenceAt? i.address = some r ∧ r.dataLoad = some data ∧
        ((input.memory.read? data s.width = none ∧
          fixup = some ⟨i.address, .missingReference, none, u, .unresolved⟩ ∧ t = u) ∨
        ∃ bytes, input.memory.read? data s.width = some bytes ∧
          fixup = (if r.subject s u = ⟨bytes⟩ then none
            else some (r.mismatch i.address ⟨bytes⟩ (r.subject s u))) ∧
          t = r.settle ⟨bytes⟩ u)) := by
  unfold stepInstruction at h
  cases hu : input.update s i with
  | error e => simp [hu] at h
  | ok u =>
    refine ⟨u, rfl, ?_⟩
    cases hr : input.annotations.loadReferenceAt? i.address with
    | none =>
      simp only [hu, hr, Except.ok.injEq, Prod.mk.injEq] at h
      exact Or.inl ⟨rfl, h.1.symm, h.2.symm⟩
    | some r =>
      simp only [hu, hr] at h
      unfold auditReference at h
      cases hd : r.dataLoad with
      | none => simp [hd] at h
      | some data =>
        refine Or.inr ⟨r, data, rfl, hd, ?_⟩
        cases hm : input.memory.read? data s.width with
        | none =>
          simp only [hd, hm, Except.ok.injEq, Prod.mk.injEq] at h
          exact Or.inl ⟨rfl, h.1.symm, h.2.symm⟩
        | some bytes =>
          simp only [hd, hm, Except.ok.injEq, Prod.mk.injEq] at h
          exact Or.inr ⟨bytes, rfl, h.1.symm, h.2.symm⟩

/-- A load reference puts the bytes behind the instruction at an address. -/
def Injected (annotations : AnnotationStore) (memory : Memory) (a : Address) (width : Nat)
    (bytes : List UInt8) : Prop :=
  ∃ r data, annotations.loadReferenceAt? a = some r ∧ r.updateType = .constInjection ∧
    r.dataLoad = some data ∧ memory.read? data width = some bytes

theorem injected_iff {annotations : AnnotationStore} {memory : Memory} {a data : Address}
    {width : Nat} {r : LoadReference} (hr : annotations.loadReferenceAt? a = some r)
    (hd : r.dataLoad = some data) {bytes : List UInt8} :
    Injected annotations memory a width bytes ↔
      r.updateType = .constInjection ∧ memory.read? data width = some bytes := by
  constructor
  · rintro ⟨r', data', hr', hk, hd', hm⟩
    rw [hr] at hr'
    cases hr'
    rw [hd] at hd'
    cases hd'
    exact ⟨hk, hm⟩
  · rintro ⟨hk, hm⟩
    exact ⟨r, data, hr, hk, hd, hm⟩

theorem LoadReference.settle_of_ne {r : LoadReference} (h : r.updateType ≠ .constInjection)
    (expected post : StateValue) : r.settle expected post = post := by
  unfold settle
  split
  · exact absurd ‹_› h
  · rfl

theorem LoadReference.settle_of_eq {r : LoadReference} (h : r.updateType = .constInjection)
    (expected post : StateValue) : r.settle expected post = expected := by
  unfold settle
  rw [h]

/-- **The state behind an instruction**: the injected bytes, else the updated state. -/
theorem stepInstruction_post {input : WalkInput} {i : Instruction} {s t : StateValue}
    {fixup : Option Fixup} (h : stepInstruction input i s = .ok (fixup, t)) :
    ∃ u, input.update s i = .ok u ∧
      (∀ bytes, Injected input.annotations input.memory i.address s.width bytes → t = ⟨bytes⟩) ∧
      ((∀ bytes, ¬ Injected input.annotations input.memory i.address s.width bytes) → t = u) := by
  obtain ⟨u, hu, ⟨hr, -, ht⟩ | ⟨r, data, hr, hd, ⟨hm, -, ht⟩ | ⟨bytes, hm, -, ht⟩⟩⟩ :=
    stepInstruction_ok h
  · refine ⟨u, hu, ?_, fun _ => ht⟩
    rintro bytes ⟨r, data, hr', -⟩
    rw [hr] at hr'
    cases hr'
  · refine ⟨u, hu, fun bytes hi => ?_, fun _ => ht⟩
    have hread := ((injected_iff hr hd).mp hi).2
    rw [hm] at hread
    cases hread
  · refine ⟨u, hu, fun bytes' hi => ?_, fun hno => ?_⟩
    · obtain ⟨hk, hread⟩ := (injected_iff hr hd).mp hi
      rw [hm] at hread
      cases hread
      rw [ht, LoadReference.settle_of_eq hk]
    · rw [ht]
      refine LoadReference.settle_of_ne (fun hk => ?_) _ _
      exact hno bytes ((injected_iff hr hd).mpr ⟨hk, hm⟩)

/-- The fixup of a step is never a conflict. -/
theorem stepInstruction_kind {input : WalkInput} {i : Instruction} {s t : StateValue} {f : Fixup}
    (h : stepInstruction input i s = .ok (some f, t)) : f.kind ≠ .mergeConflict := by
  obtain ⟨u, -, ⟨-, hf, -⟩ | ⟨r, data, -, -, ⟨-, hf, -⟩ | ⟨bytes, -, hf, -⟩⟩⟩ :=
    stepInstruction_ok h
  · cases hf
  · cases hf
    intro hk
    cases hk
  · split_ifs at hf
    cases hf
    unfold LoadReference.mismatch
    split <;> intro hk <;> cases hk

/-! ### The tables of a pass -/

/-- The tables are in order, and the states at an address are those of a step of its instruction. -/
structure Pass.Lawful (input : WalkInput) (p : Pass) : Prop where
  pre_sorted : p.pre.Sorted
  post_sorted : p.post.Sorted
  law : ∀ a, (p.pre.get? a = none ∧ p.post.get? a = none) ∨
    ∃ i s fixup t, input.graph.instructionAt? a = some i ∧ p.pre.get? a = some s ∧
      p.post.get? a = some t ∧ stepInstruction input i s = .ok (fixup, t)

namespace Pass.Lawful

variable {input : WalkInput} {p : Pass}

theorem start : Lawful input .start :=
  ⟨Table.sorted_empty, Table.sorted_empty, fun _ => Or.inl ⟨rfl, rfl⟩⟩

theorem meet (h : Lawful input p) (a : Address) (first s : StateValue) :
    Lawful input (p.meet a first s) := by
  refine ⟨?_, ?_, fun b => ?_⟩
  · rw [pre_meet]; exact h.pre_sorted
  · rw [post_meet]; exact h.post_sorted
  · rw [pre_meet, post_meet]; exact h.law b

theorem visit (h : Lawful input p) {a : Address} {i : Instruction} {s t : StateValue}
    {fixup : Option Fixup} (hi : input.graph.instructionAt? a = some i)
    (hs : stepInstruction input i s = .ok (fixup, t)) : Lawful input (p.visit a s fixup t) := by
  refine ⟨h.pre_sorted.insert a s, h.post_sorted.insert a t, fun b => ?_⟩
  rw [pre_visit, post_visit, Table.get?_insert, Table.get?_insert]
  split_ifs with hb
  · rw [hb]
    exact Or.inr ⟨i, s, fixup, t, hi, rfl, rfl, hs⟩
  · exact h.law b

theorem of_pre (h : Lawful input p) {a : Address} {s : StateValue} (hs : p.pre.get? a = some s) :
    ∃ i fixup t, input.graph.instructionAt? a = some i ∧ p.post.get? a = some t ∧
      stepInstruction input i s = .ok (fixup, t) := by
  rcases h.law a with ⟨hn, -⟩ | ⟨i, s', fixup, t, hi, hp, hq, hx⟩
  · rw [hs] at hn
    cases hn
  · rw [hs] at hp
    cases hp
    exact ⟨i, fixup, t, hi, hq, hx⟩

theorem mem_keys (h : Lawful input p) (a : Address) : a ∈ p.pre.keys ↔ a ∈ p.post.keys := by
  rw [Table.mem_keys, Table.mem_keys]
  rcases h.law a with ⟨hp, hq⟩ | ⟨i, s, fixup, t, -, hp, hq, -⟩ <;> simp [hp, hq]

theorem post_eq_none (h : Lawful input p) {a : Address} (ha : p.pre.get? a = none) :
    p.post.get? a = none := by
  rw [Table.get?_eq_none] at ha ⊢
  exact fun hq => ha ((h.mem_keys a).mpr hq)

end Pass.Lawful

/-- The tables of a run are lawful. -/
theorem Runs.lawful {input : WalkInput} {p q : Pass} {cs : List Carried}
    (h : Runs input p cs (.ok q)) (hp : p.Lawful input) : q.Lawful input :=
  Runs.invariant (I := fun p _ => p.Lawful input) (fun h => h) (fun _ h => h.meet _ _ _)
    (fun hi _ hs h => h.visit hi hs) h hp

/-! ### The law of a calculation -/

/-- **The step law** of two tables: they have the same addresses, an instruction is decoded at each
of them, and the state behind it is the updated state before it, unless a constant is injected. -/
structure StepLaw (update : StateValue → Instruction → Except StateError StateValue)
    (input : CalculatorInput) (pre post : Table StateValue) : Prop where
  keys : pre.keys = post.keys
  step : ∀ a ∈ pre.keys, ∃ i s t u, input.graph.instructionAt? a = some i ∧
    pre.get? a = some s ∧ post.get? a = some t ∧ update s i = .ok u ∧
    (∀ bytes, Injected input.annotations input.memory a s.width bytes → t = ⟨bytes⟩) ∧
    ((∀ bytes, ¬ Injected input.annotations input.memory a s.width bytes) → t = u)

/-- The tables of every calculation obey the step law. -/
theorem Calculator.calculate_step_law {stream : List Instruction}
    {overrides : Table InstructionKind} {extra : List Address} {c c' : Calculator}
    {input : CalculatorInput} {cancelled : Nat → Bool} {fixups : List Fixup}
    (hg : input.graph = .build stream overrides extra)
    (h : c.calculate input cancelled = (c', .ok fixups)) :
    StepLaw c.updater.update input c'.pre c'.post := by
  have hw : input.graph.WellFormed := by rw [hg]; exact BlockGraph.build_wellFormed _ _ _
  obtain ⟨q, hr, hpre, hpost, -⟩ := runs_of_calculate hw h
  have hq := hr.lawful .start
  rw [hpre, hpost]
  refine ⟨hq.pre_sorted.keys_ext hq.post_sorted hq.mem_keys, fun a ha => ?_⟩
  obtain ⟨s, hs⟩ := Table.exists_get?_of_mem_keys ha
  obtain ⟨i, fixup, t, hi, ht, hx⟩ := hq.of_pre hs
  obtain ⟨u, hu, hinj, hupd⟩ := stepInstruction_post hx
  have hia : i.address = a := (hw.instructionAt?_eq_some.mp hi).2
  rw [hia] at hinj hupd
  exact ⟨i, s, t, u, hi, hs, ht, hu, hinj, hupd⟩

/-! ### A loop with two paths

A branch jumps over an instruction to a jump back to the branch. The instruction in between has a
constant injected behind it, so both ends of the loop are reached with two states. -/

namespace Loop

/-- The branch, the instruction that it jumps over, and the jump back. -/
def stream : List Instruction :=
  [⟨0x10, [1], .conditionalBranch, [0x12], none⟩, ⟨0x11, [2], .sequential, [], none⟩,
    ⟨0x12, [4], .directBranch, [0x10], none⟩]

def input : CalculatorInput where
  graph := .build stream .empty []
  annotations := .ofAnnotations [⟨0x11, .loadReference ⟨.constInjection, none, some 0x20⟩⟩]
  memory := [⟨"data", 0x20, [9], false⟩]
  entryPoints := []

/-- The running exclusive or, from the branch on. -/
def before : Calculator := ⟨⟨.xor, true⟩, false, [(0x10, ⟨[0]⟩)], true, .empty, .empty⟩

def after : Calculator :=
  { before with
    pre := ⟨[(0x10, ⟨[0]⟩), (0x11, ⟨[1]⟩), (0x12, ⟨[1]⟩)]⟩
    post := ⟨[(0x10, ⟨[1]⟩), (0x11, ⟨[9]⟩), (0x12, ⟨[5]⟩)]⟩ }

def fixups : List Fixup :=
  [⟨0x10, .mergeConflict, some ⟨[0]⟩, ⟨[5]⟩, .unresolved⟩,
    ⟨0x11, .injection, some ⟨[9]⟩, ⟨[3]⟩, .acceptExpected⟩,
    ⟨0x12, .mergeConflict, some ⟨[1]⟩, ⟨[9]⟩, .unresolved⟩]

theorem calculate_before : before.calculate input (fun _ => false) = (after, .ok fixups) := by cbv

theorem step_law_after : before.calculate input (fun _ => false) = (after, .ok fixups) ∧
    StepLaw before.updater.update input after.pre after.post :=
  ⟨calculate_before,
    Calculator.calculate_step_law (rfl : input.graph = .build stream .empty []) calculate_before⟩

end Loop

end FlowState
