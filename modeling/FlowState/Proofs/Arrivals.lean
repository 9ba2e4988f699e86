import FlowState.Proofs.StepLaw

/-! # No disagreement goes unnoted

Every state that a pass sends on its way arrives: at its address it is the state that stays there,
or a conflict is noted there (`Runs.receives`). So the states of the seeds, and those behind each
instruction that is passed, are received where they go (`Runs.receives_onward`). Conversely a
conflict is noted once for an address, with the state that stays there and another one that was sent
there (`Pass.Explained`). -/

namespace FlowState

/-! ### Edges between instructions -/

namespace BlockGraph

/-- The second instruction stands right behind the first one in a block. -/
def NextInBlock (g : BlockGraph) (i j : Instruction) : Prop :=
  ∃ b ∈ g.blocks, ∃ ls rest, g.slice b = ls ++ i :: j :: rest

/-- The instruction is the last one of a block, which the other block follows. -/
def LeadsTo (g : BlockGraph) (i : Instruction) (d : Block) : Prop :=
  ∃ n b m, g.blocks[n]? = some b ∧ (g.slice b).getLast? = some i ∧ g.Follows n m ∧
    g.blocks[m]? = some d

/-- The instruction at the first address comes before that at the second one on some path. -/
def Precedes (g : BlockGraph) (a a' : Address) : Prop :=
  (∃ i j, g.NextInBlock i j ∧ i.address = a ∧ j.address = a') ∨
    ∃ i d, g.LeadsTo i d ∧ i.address = a ∧ d.start = a'

end BlockGraph

section Onward
variable {input : WalkInput} (hg : input.graph.WellFormed)
include hg

theorem mem_onward_of_next {i j : Instruction} (h : input.graph.NextInBlock i j) (root : Address) :
    j.address ∈ onward input root i.address := by
  obtain ⟨b, hb, ls, rest, hs⟩ := h
  obtain ⟨n, hn⟩ := List.mem_iff_getElem?.mp hb
  rw [← BlockGraph.instructionsOf_of_getElem? hn] at hs
  rw [onward_inside hg hs]
  exact List.mem_singleton_self _

theorem mem_onward_of_leadsTo {i : Instruction} {d : Block} (h : input.graph.LeadsTo i d)
    (hstop : input.stopAtEntryPoints = false ∨ d.start ∉ input.entryPoints) (root : Address) :
    d.start ∈ onward input root i.address := by
  obtain ⟨n, b, m, hn, hl, hm, hd⟩ := h
  obtain ⟨ls, hs⟩ := List.getLast?_eq_some_iff.mp hl
  rw [← BlockGraph.instructionsOf_of_getElem? hn] at hs
  rw [onward_last hg hs, mem_exits]
  exact ⟨m, hm, BlockGraph.mayEnter_iff.mpr ⟨d, hd, Or.inr hstop⟩, d, hd, rfl⟩

/-- **A path goes on over an edge** between instructions, and the stop rule lets it pass. -/
theorem link_of_mem_onward {root a b : Address} (h : b ∈ onward input root a) :
    (∃ i j, input.graph.NextInBlock i j ∧ i.address = a ∧ j.address = b) ∨
    ∃ i d, input.graph.LeadsTo i d ∧ i.address = a ∧ d.start = b ∧
      (d.start = root ∨ input.stopAtEntryPoints = false ∨ d.start ∉ input.entryPoints) := by
  rcases onward_cases hg h with ⟨n, ls, i, j, rest, hs, ha, hb⟩ | ⟨n, ls, i, hs, ha, he⟩
  · obtain ⟨c, hc, -⟩ := BlockGraph.exists_block_of_mem (n := n) (i := i) (by rw [hs]; simp)
    rw [BlockGraph.instructionsOf_of_getElem? hc] at hs
    exact Or.inl ⟨i, j, ⟨c, List.mem_of_getElem? hc, ls, rest, hs⟩, ha, hb⟩
  · obtain ⟨c, hc, -⟩ := BlockGraph.exists_block_of_mem (n := n) (i := i) (by rw [hs]; simp)
    rw [BlockGraph.instructionsOf_of_getElem? hc] at hs
    obtain ⟨m, hm, hmay, d, hd, hb⟩ := mem_exits.mp he
    obtain ⟨d', hd', hstop⟩ := BlockGraph.mayEnter_iff.mp hmay
    rw [hd] at hd'
    cases hd'
    exact Or.inr ⟨i, d, ⟨n, c, m, hc, by rw [hs]; simp, hm, hd⟩, ha, hb, hstop⟩

theorem precedes_of_mem_onward {root a b : Address} (h : b ∈ onward input root a) :
    input.graph.Precedes a b := by
  rcases link_of_mem_onward hg h with hnext | ⟨i, d, hid, ha, hb, -⟩
  · exact Or.inl hnext
  · exact Or.inr ⟨i, d, hid, ha, hb⟩

theorem decoded_of_mem_onward {root a b : Address} (h : b ∈ onward input root a) :
    ∃ i, input.graph.instructionAt? b = some i := by
  rcases onward_cases hg h with ⟨n, ls, i, j, rest, hs, -, rfl⟩ | ⟨n, ls, i, -, -, he⟩
  · exact ⟨j, hg.instructionAt?_of_mem (n := n) (by rw [hs]; simp)⟩
  · obtain ⟨m, -, -, d, hd, rfl⟩ := mem_exits.mp he
    obtain ⟨j, rest, hj, hs⟩ := hg.head_of_getElem? hd
    rw [← hs]
    refine ⟨j, hg.instructionAt?_of_mem (n := m) ?_⟩
    rw [BlockGraph.instructionsOf_of_getElem? hd, hj]
    exact List.mem_cons_self

end Onward

/-! ### A run only adds -/

/-- Everything that is written and noted in the first pass is so in the second one. -/
structure Pass.Extends (p q : Pass) : Prop where
  pre : ∀ {a s}, p.pre.get? a = some s → q.pre.get? a = some s
  post : ∀ {a s}, p.post.get? a = some s → q.post.get? a = some s
  fixups : p.fixups <+: q.fixups

namespace Pass

theorem Extends.refl (p : Pass) : p.Extends p := ⟨id, id, List.prefix_refl _⟩

theorem Extends.trans {p q r : Pass} (h : p.Extends q) (k : q.Extends r) : p.Extends r :=
  ⟨fun ha => k.pre (h.pre ha), fun ha => k.post (h.post ha), h.fixups.trans k.fixups⟩

theorem extends_note (p : Pass) (f : Fixup) : p.Extends (p.note f) :=
  ⟨id, id, List.prefix_append _ _⟩

theorem extends_meet (p : Pass) (a : Address) (first s : StateValue) :
    p.Extends (p.meet a first s) := by
  unfold meet
  split
  · exact .refl p
  · exact p.extends_note _

theorem Lawful.extends_visit {input : WalkInput} {p : Pass} (h : p.Lawful input) {a : Address}
    (ha : p.pre.get? a = none) (s t : StateValue) (fixup : Option Fixup) :
    p.Extends (p.visit a s fixup t) := by
  refine ⟨fun {b u} hb => ?_, fun {b u} hb => ?_, List.prefix_append _ _⟩
  · rw [pre_visit, Table.get?_insert_of_ne _ _ _, hb]
    rintro rfl
    rw [ha] at hb
    cases hb
  · rw [post_visit, Table.get?_insert_of_ne _ _ _, hb]
    rintro rfl
    rw [h.post_eq_none ha] at hb
    cases hb

end Pass

theorem Runs.extends {input : WalkInput} {p q : Pass} {cs : List Carried} (hp : p.Lawful input)
    (h : Runs input p cs (.ok q)) : p.Extends q := by
  refine (Runs.invariant (I := fun r _ => r.Lawful input ∧ p.Extends r) id ?_ ?_ h
    ⟨hp, .refl p⟩).2
  · rintro r c cs first - ⟨hr, he⟩
    exact ⟨hr.meet _ _ _, he.trans (r.extends_meet _ _ _)⟩
  · rintro r c cs i fixup post hi hn hs ⟨hr, he⟩
    exact ⟨hr.visit hi hs, he.trans (hr.extends_visit hn _ _ _)⟩

/-! ### What is sent on its way arrives -/

/-- **The state is received at the address**: it is the state that stays there, or a conflict is
noted there. -/
def Receives (pre : Table StateValue) (fixups : List Fixup) (a : Address) (v : StateValue) : Prop :=
  ∃ s, pre.get? a = some s ∧ (v = s ∨ ∃ f ∈ fixups, f.address = a ∧ f.kind = .mergeConflict)

namespace Pass

theorem hasConflict_iff {p : Pass} {a : Address} :
    p.hasConflict a = true ↔ ∃ f ∈ p.fixups, f.address = a ∧ f.kind = .mergeConflict := by
  simp [hasConflict]

theorem Extends.receives {p q : Pass} (h : p.Extends q) {a : Address} {v : StateValue}
    (hv : Receives p.pre p.fixups a v) : Receives q.pre q.fixups a v := by
  obtain ⟨s, hs, hc⟩ := hv
  refine ⟨s, h.pre hs, hc.imp_right ?_⟩
  rintro ⟨f, hf, hfa⟩
  exact ⟨f, h.fixups.subset hf, hfa⟩

theorem receives_meet {p : Pass} {a : Address} {first : StateValue}
    (h : p.pre.get? a = some first) (s : StateValue) :
    Receives (p.meet a first s).pre (p.meet a first s).fixups a s := by
  refine ⟨first, by rw [pre_meet]; exact h, ?_⟩
  unfold meet
  split_ifs with hc
  · rw [Bool.or_eq_true, decide_eq_true_eq] at hc
    exact hc.imp Eq.symm hasConflict_iff.mp
  · exact Or.inr ⟨_, List.mem_append_right _ (List.mem_singleton_self _), rfl, rfl⟩

end Pass

/-- **Every state on its way arrives**, wherever an instruction is decoded. -/
theorem Runs.receives {input : WalkInput} {p q : Pass} {cs : List Carried} (hp : p.Lawful input)
    (h : Runs input p cs (.ok q)) {c : Carried} (hc : c ∈ cs)
    (hd : ∃ i, input.graph.instructionAt? c.address = some i) :
    Receives q.pre q.fixups c.address c.state := by
  generalize hr : Except.ok q = r at h
  induction h with
  | done => cases hc
  | lost ha _ ih =>
    rcases List.mem_cons.mp hc with rfl | hc
    · obtain ⟨i, hi⟩ := hd
      rw [ha] at hi
      cases hi
    · exact ih hp hc hr
  | meet _ hf hrun ih =>
    subst hr
    rcases List.mem_cons.mp hc with rfl | hc
    · exact (hrun.extends (hp.meet _ _ _)).receives (Pass.receives_meet hf _)
    · exact ih (hp.meet _ _ _) hc rfl
  | visit hi hn hs hrun ih =>
    subst hr
    rcases List.mem_cons.mp hc with rfl | hc
    · refine (hrun.extends (hp.visit hi hs)).receives ⟨_, ?_, Or.inl rfl⟩
      rw [Pass.pre_visit, Table.get?_insert_self]
    · exact ih (hp.visit hi hs) (List.mem_append_right _ hc) rfl
  | fail => cases hr

/-- **The state behind an instruction that a run passes is received where its path goes on.** -/
theorem Runs.receives_onward {input : WalkInput} (hg : input.graph.WellFormed) {p q : Pass}
    {cs : List Carried} (hp : p.Lawful input) (h : Runs input p cs (.ok q)) {a : Address}
    {v : StateValue} (ha : p.pre.get? a = none) (hv : q.post.get? a = some v) :
    ∃ root, ∀ b ∈ onward input root a, Receives q.pre q.fixups b v := by
  generalize hr : Except.ok q = r at h
  induction h with
  | done =>
    cases hr
    rw [hp.post_eq_none ha] at hv
    cases hv
  | lost _ _ ih => exact ih hp ha hr
  | meet _ _ _ ih => exact ih (hp.meet _ _ _) (by rw [Pass.pre_meet]; exact ha) hr
  | @visit p c cs r i fixup post hi hn hs hrun ih =>
    subst hr
    have hp' := hp.visit hi hs
    -- either the instruction is passed in this step, and its successors are on their way now
    by_cases hac : a = c.address
    · subst hac
      have hpost : q.post.get? c.address = some post :=
        (hrun.extends hp').post (by rw [Pass.post_visit, Table.get?_insert_self])
      rw [hpost] at hv
      cases hv
      refine ⟨c.root, fun b hb => ?_⟩
      have hmem : (⟨c.root, b, v⟩ : Carried) ∈ sendOn input c.root c.address v ++ cs :=
        List.mem_append_left _ (List.mem_map.mpr ⟨b, hb, rfl⟩)
      exact hrun.receives hp' hmem (decoded_of_mem_onward hg hb)
    · refine ih hp' ?_ rfl
      rw [Pass.pre_visit, Table.get?_insert_of_ne _ hac]
      exact ha
  | fail => cases hr

/-- What a whole pass sends on from an address that it reaches. -/
theorem Runs.receives_of_mem {input : WalkInput} (hg : input.graph.WellFormed) {q : Pass}
    {cs : List Carried} (h : Runs input .start cs (.ok q)) {a : Address} (ha : a ∈ q.pre.keys) :
    ∃ v root, q.post.get? a = some v ∧ ∀ b ∈ onward input root a, Receives q.pre q.fixups b v := by
  obtain ⟨v, hv⟩ := Table.exists_get?_of_mem_keys (((h.lawful .start).mem_keys a).mp ha)
  obtain ⟨root, hon⟩ := h.receives_onward hg .start rfl hv
  exact ⟨v, root, hv, hon⟩

/-! ### Conflicts are explained -/

/-- The state comes to the address from a seed, or from an instruction before it. -/
def Origin (g : BlockGraph) (seeds : List (Address × StateValue)) (post : Table StateValue)
    (a : Address) (v : StateValue) : Prop :=
  (a, v) ∈ seeds ∨ ∃ b, post.get? b = some v ∧ g.Precedes b a

/-- **The conflicts of a pass**: one for an address at most, between the state there and another one
that came there. -/
structure Pass.Explained (g : BlockGraph) (seeds : List (Address × StateValue)) (p : Pass) :
    Prop where
  unique : ((p.fixups.filter fun f => f.kind == .mergeConflict).map (·.address)).Nodup
  cause : ∀ f ∈ p.fixups, f.kind = .mergeConflict → ∃ s, p.pre.get? f.address = some s ∧
    f.expected = some s ∧ f.computed ≠ s ∧ Origin g seeds p.post f.address f.computed

section Explained
variable {g : BlockGraph} {seeds : List (Address × StateValue)}

theorem Origin.mono {p q : Pass} (h : p.Extends q) {a : Address} {v : StateValue}
    (ho : Origin g seeds p.post a v) : Origin g seeds q.post a v := by
  refine ho.imp_right ?_
  rintro ⟨b, hb, hba⟩
  exact ⟨b, h.post hb, hba⟩

theorem Pass.Explained.start : Pass.Explained g seeds .start :=
  ⟨List.nodup_nil, fun f hf => by cases hf⟩

theorem Pass.Explained.meet {p : Pass} (h : p.Explained g seeds) {a : Address}
    {first s : StateValue} (ha : p.pre.get? a = some first) (ho : Origin g seeds p.post a s) :
    (p.meet a first s).Explained g seeds := by
  unfold Pass.meet
  split_ifs with hc
  · exact h
  · rw [Bool.or_eq_true, decide_eq_true_eq, not_or] at hc
    obtain ⟨hne, hno⟩ := hc
    refine ⟨?_, fun f hf hk => ?_⟩
    · have hfresh : a ∉ (p.fixups.filter fun f => f.kind == .mergeConflict).map (·.address) := by
        intro hm
        obtain ⟨f, hf, hfa⟩ := List.mem_map.mp hm
        obtain ⟨hf, hk⟩ := List.mem_filter.mp hf
        exact hno (Pass.hasConflict_iff.mpr ⟨f, hf, hfa, by simpa using hk⟩)
      unfold Pass.note
      rw [List.filter_append, List.map_append]
      exact h.unique.append (List.nodup_singleton a) (by simpa using hfresh)
    · rcases List.mem_append.mp hf with hf | hf
      · exact h.cause f hf hk
      · rw [List.mem_singleton.mp hf]
        exact ⟨first, ha, rfl, Ne.symm hne, ho⟩

theorem Pass.Explained.visit {input : WalkInput} {p : Pass} (h : p.Explained g seeds)
    (hp : p.Lawful input) {a : Address} {i : Instruction} {s t : StateValue}
    {fixup : Option Fixup} (ha : p.pre.get? a = none)
    (hs : stepInstruction input i s = .ok (fixup, t)) :
    (p.visit a s fixup t).Explained g seeds := by
  have he := hp.extends_visit ha s t fixup
  have hk : ∀ f ∈ fixup.toList, f.kind ≠ .mergeConflict := by
    intro f hf
    rw [Option.mem_toList.mp hf] at hs
    exact stepInstruction_kind hs
  refine ⟨?_, fun f hf hfk => ?_⟩
  · have hnone : fixup.toList.filter (fun f => f.kind == .mergeConflict) = [] :=
      List.filter_eq_nil_iff.mpr fun f hf => by simpa using hk f hf
    rw [Pass.fixups_visit, List.filter_append, hnone, List.append_nil]
    exact h.unique
  · rcases List.mem_append.mp hf with hf | hf
    · obtain ⟨u, hu, hx, hne, ho⟩ := h.cause f hf hfk
      exact ⟨u, he.pre hu, hx, hne, ho.mono he⟩
    · exact absurd hfk (hk f hf)

end Explained

/-- What is on its way comes from a seed or from an instruction that is passed, so conflicts do. -/
theorem Runs.explained {input : WalkInput} (hg : input.graph.WellFormed)
    {seeds : List (Address × StateValue)} {q : Pass}
    (h : Runs input .start (seeds.map Carried.ofSeed) (.ok q)) :
    q.Explained input.graph seeds := by
  refine (Runs.invariant (I := fun p cs => p.Lawful input ∧ p.Explained input.graph seeds ∧
    ∀ c ∈ cs, Origin input.graph seeds p.post c.address c.state) ?_ ?_ ?_ h ?_).2.1
  · rintro p c cs ⟨hp, hx, ho⟩
    exact ⟨hp, hx, fun d hd => ho d (List.mem_cons_of_mem c hd)⟩
  · rintro p c cs first hf ⟨hp, hx, ho⟩
    refine ⟨hp.meet _ _ _, hx.meet hf (ho c List.mem_cons_self), fun d hd => ?_⟩
    exact (ho d (List.mem_cons_of_mem c hd)).mono (p.extends_meet _ _ _)
  · rintro p c cs i fixup post hi hn hs ⟨hp, hx, ho⟩
    refine ⟨hp.visit hi hs, hx.visit hp hn hs, fun d hd => ?_⟩
    rcases List.mem_append.mp hd with hd | hd
    · obtain ⟨b, hb, rfl⟩ := List.mem_map.mp hd
      refine Or.inr ⟨c.address, ?_, precedes_of_mem_onward hg hb⟩
      rw [Pass.post_visit, Table.get?_insert_self]
    · exact (ho d (List.mem_cons_of_mem c hd)).mono (hp.extends_visit hn _ _ _)
  · refine ⟨.start, .start, fun c hc => ?_⟩
    obtain ⟨⟨a, v⟩, hs, rfl⟩ := List.mem_map.mp hc
    exact Or.inl hs

/-! ### The law of a calculation -/

/-- **No disagreement goes unnoted.** The state of a seed, and the state behind an instruction that
is reached, are received wherever they go; and a conflict is noted once for an address, between the
state before the instruction there and another one that came there. -/
structure Settled (c : Calculator) (input : CalculatorInput) (pre post : Table StateValue)
    (fixups : List Fixup) : Prop where
  seed : ∀ a v, (a, v) ∈ c.seeds → (∃ i, input.graph.instructionAt? a = some i) →
    Receives pre fixups a v
  next : ∀ i j, input.graph.NextInBlock i j → i.address ∈ pre.keys →
    ∃ v, post.get? i.address = some v ∧ Receives pre fixups j.address v
  edge : ∀ i d, input.graph.LeadsTo i d →
    (c.stopAtEntryPoints = false ∨ d.start ∉ input.entryPoints) → i.address ∈ pre.keys →
    ∃ v, post.get? i.address = some v ∧ Receives pre fixups d.start v
  unique : ((fixups.filter fun f => f.kind == .mergeConflict).map (·.address)).Nodup
  cause : ∀ f ∈ fixups, f.kind = .mergeConflict → ∃ s, pre.get? f.address = some s ∧
    f.expected = some s ∧ f.computed ≠ s ∧
    Origin input.graph c.seeds post f.address f.computed

/-- The tables and fixups of every calculation are settled. -/
theorem Calculator.calculate_settled {stream : List Instruction}
    {overrides : Table InstructionKind} {extra : List Address} {c c' : Calculator}
    {input : CalculatorInput} {cancelled : Nat → Bool} {fixups : List Fixup}
    (hg : input.graph = .build stream overrides extra)
    (h : c.calculate input cancelled = (c', .ok fixups)) :
    Settled c input c'.pre c'.post fixups := by
  have hw : input.graph.WellFormed := by rw [hg]; exact BlockGraph.build_wellFormed _ _ _
  obtain ⟨q, hr, hpre, hpost, hfix⟩ := runs_of_calculate hw h
  have hx := Runs.explained hw hr
  rw [hpre, hpost, hfix]
  refine ⟨?_, ?_, ?_, hx.unique, hx.cause⟩
  · intro a v hs hd
    exact hr.receives .start (List.mem_map.mpr ⟨(a, v), hs, rfl⟩) hd
  · intro i j hij hi
    obtain ⟨v, root, hv, hon⟩ := hr.receives_of_mem hw hi
    exact ⟨v, hv, hon _ (mem_onward_of_next hw hij root)⟩
  · intro i d hid hstop hi
    obtain ⟨v, root, hv, hon⟩ := hr.receives_of_mem hw hi
    exact ⟨v, hv, hon _ (mem_onward_of_leadsTo hw hid hstop root)⟩

theorem Loop.settled_after : before.calculate input (fun _ => false) = (after, .ok fixups) ∧
    Settled before input after.pre after.post fixups :=
  ⟨calculate_before,
    Calculator.calculate_settled (rfl : input.graph = .build stream .empty []) calculate_before⟩

end FlowState
