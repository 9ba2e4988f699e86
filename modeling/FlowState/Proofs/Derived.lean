import FlowState.Proofs.FirstOccurrences
import FlowState.Proofs.SessionHistory

/-! # What a session derives

A session keeps an index of its annotations, a graph and functions, and all three depend on the
annotations. As long as the configuration stays, the index and the graph are up to date after every
run (`Derived.step`): the index has the annotations at each address, and the graph is the one of the
last stream that was decoded, under the annotations as they are. A change of the annotations
rebuilds graph and functions only if instructions are there. Without any, the graph is empty
whatever the annotations say, so it cannot go stale; but the functions then stay those of the entry
points at the time of the decoding (`knownEntryPoints`), and they are up to date exactly if the
entry points are still the same. -/

namespace FlowState

theorem BlockGraph.build_nil (overrides : Table InstructionKind) (extra : List Address) :
    build [] overrides extra = empty := rfl

/-! ### Entry points of functions -/

theorem Boundaries.entryPoints_reconstruct (g : BlockGraph) (es : List EntryPoint) (stop : Bool) :
    (reconstruct g es stop).ranges.map (fun x => (⟨x.start, x.name⟩ : EntryPoint)) =
      es.eraseDups := by
  unfold reconstruct rangeOf
  rw [List.map_map]
  exact List.map_id _

theorem AnnotationStore.eraseDups_entryPoints (store : AnnotationStore) :
    store.entryPoints.eraseDups = store.entryPoints := by
  have h := FirstOccurrences.eraseDups_map_eraseDups id
    (store.annotations.filterMap Annotation.entryPoint?)
  rw [List.map_id, List.map_id] at h
  exact h

/-- Functions that are equal have the same entry points. -/
theorem Boundaries.entryPoints_inj {g g' : BlockGraph} {t t' : AnnotationStore} {stop stop' : Bool}
    (h : reconstruct g t.entryPoints stop = reconstruct g' t'.entryPoints stop') :
    t.entryPoints = t'.entryPoints := by
  have he := congrArg (fun b => b.ranges.map fun x => (⟨x.start, x.name⟩ : EntryPoint)) h
  simp only [entryPoints_reconstruct, AnnotationStore.eraseDups_entryPoints] at he
  exact he

namespace Session

/-! ### The graph -/

/-- **The index and the graph of a session are up to date**, if the stream was decoded last. -/
structure UpToDate (s : Session) (stream : List Instruction) : Prop where
  clean : s.annotations.dirty = false
  /-- The index has the handles of the annotations at each address, in increasing order. -/
  indexed : ∀ a, (s.annotations.handlesAt a).Pairwise (· < ·) ∧
    ∀ k, k ∈ s.annotations.handlesAt a ↔ ∃ n, (k, n) ∈ s.annotations.entries ∧ n.address = a
  graph : s.graph = .build stream s.annotations.overrides
    (s.annotations.entryPoints.map (·.address) ++ s.seedAddresses)

/-- Building the index and the graph once more would change nothing. -/
structure Rebuilt (s : Session) (stream : List Instruction) : Prop where
  indexed : s.annotations.reindex = s.annotations
  graph : s.graph = .build stream s.annotations.overrides
    (s.annotations.entryPoints.map (·.address) ++ s.seedAddresses)

section Rebuilt
variable {s : Session}

theorem Rebuilt.upToDate {stream : List Instruction} (h : s.Rebuilt stream) :
    s.UpToDate stream := by
  have hindex : s.annotations.entries.foldl AnnotationStore.file .empty = s.annotations.index :=
    congrArg AnnotationStore.index h.indexed
  refine ⟨congrArg AnnotationStore.dirty h.indexed.symm, fun a => ⟨?_, fun k => ?_⟩, h.graph⟩
  · unfold AnnotationStore.handlesAt
    rw [← hindex]
    exact AnnotationStore.pairwise_filedAt _ a .empty List.Pairwise.nil
  · unfold AnnotationStore.handlesAt
    rw [← hindex, AnnotationStore.mem_filedAt]
    exact or_iff_right List.not_mem_nil

theorem rebuild_of_indexed (h : s.annotations.reindex = s.annotations) :
    s.rebuild =
      { s with
        graph := .build s.decoded s.annotations.overrides
          (s.annotations.entryPoints.map (·.address) ++ s.seedAddresses)
        boundaries := .reconstruct (.build s.decoded s.annotations.overrides
          (s.annotations.entryPoints.map (·.address) ++ s.seedAddresses))
          s.annotations.entryPoints s.config.reconstructStop } := by
  have hclean : s.annotations.dirty = false := by
    rw [← h]
    rfl
  unfold rebuild
  simp only [hclean, Bool.false_eq_true, if_false]

theorem rebuilt_rebuild (h : s.annotations.reindex = s.annotations) :
    s.rebuild.Rebuilt s.decoded := by
  rw [rebuild_of_indexed h]
  exact ⟨h, rfl⟩

theorem boundaries_rebuild (h : s.annotations.reindex = s.annotations) :
    s.rebuild.boundaries =
      .reconstruct s.rebuild.graph s.annotations.entryPoints s.config.reconstructStop := by
  rw [rebuild_of_indexed h]

theorem annotations_rebuild (h : s.annotations.reindex = s.annotations) :
    s.rebuild.annotations = s.annotations := by
  rw [rebuild_of_indexed h]

theorem Rebuilt.withAnnotations (h : s.Rebuilt s.decoded) (store : AnnotationStore) :
    (s.withAnnotations store).Rebuilt s.decoded := by
  rw [withAnnotations_eq]
  split_ifs with hd
  · have hnil : s.decoded = [] := List.isEmpty_iff.mp hd
    have hgraph := h.graph
    rw [hnil, BlockGraph.build_nil] at hgraph
    refine ⟨rfl, ?_⟩
    rw [hnil, BlockGraph.build_nil]
    exact hgraph
  · exact rebuilt_rebuild rfl

theorem decoded_withAnnotations (s : Session) (store : AnnotationStore) :
    (s.withAnnotations store).decoded = s.decoded := by
  rw [withAnnotations_eq]
  split_ifs <;> rfl

theorem config_withAnnotations (s : Session) (store : AnnotationStore) :
    (s.withAnnotations store).config = s.config := by
  rw [withAnnotations_eq]
  split_ifs <;> rfl

end Rebuilt

/-! ### Runs -/

/-- The stream that was decoded last since a file was loaded; it is empty if there is none. -/
def lastStream (r : Registry) (log : List Event) : List Instruction :=
  ((lastDecoding? log).map (Event.stream r)).getD []

/-- The entry points that the functions of a session go by, if an event decoded last: where it gave
no instructions, those of that time. -/
def knownEntryPoints (r : Registry) (e : Event) (s : Session) : List EntryPoint :=
  if (e.stream r).isEmpty then e.before.annotations.entryPoints else s.annotations.entryPoints

/-- What holds of a session after the events of a run under a fixed configuration. -/
structure Derived (r : Registry) (config : SessionConfig) (log : List Event) (s : Session) :
    Prop where
  fixed : s.config = config
  decoded : s.decoded = lastStream r log
  rebuilt : s.Rebuilt (lastStream r log)
  boundaries : ∀ e, lastDecoding? log = some e →
    s.boundaries = .reconstruct s.graph (knownEntryPoints r e s) config.reconstructStop

section Derived
variable {r : Registry} {config : SessionConfig} {log : List Event} {s : Session}

theorem Derived.of_quiet {e : Event} (h : Derived r config log s) (hl : e.loads = false)
    (hd : e.decodes = false) : Derived r config (e :: log) s := by
  have hlast : lastDecoding? (e :: log) = lastDecoding? log :=
    lastSinceLoad?_of_not_mem log hl hd
  have hstream : lastStream r (e :: log) = lastStream r log := by
    unfold lastStream
    rw [hlast]
  refine ⟨h.fixed, ?_, ?_, ?_⟩
  · rw [hstream]
    exact h.decoded
  · rw [hstream]
    exact h.rebuilt
  · rw [hlast]
    exact h.boundaries

theorem derived_new (r : Registry) (config : SessionConfig) :
    Derived r config [] (.new config) :=
  ⟨rfl, rfl, ⟨rfl, rfl⟩, fun _ he => by cases he⟩

theorem derived_withImage {e : Event} (h : Derived r config log s) (hl : e.loads = true)
    (i : Image) : Derived r config (e :: log) (s.withImage i) := by
  have hlast : lastDecoding? (e :: log) = none := lastSinceLoad?_of_loads log hl
  have hstream : lastStream r (e :: log) = [] := by
    unfold lastStream
    rw [hlast]
    rfl
  refine ⟨h.fixed, ?_, ?_, ?_⟩
  · rw [hstream]
    rfl
  · rw [hstream]
    exact ⟨rfl, rfl⟩
  · intro e' he'
    rw [hlast] at he'
    cases he'

theorem derived_withDecoded {o : Outcome Reply} {d : Decoded} (h : Derived r config log s)
    (hd : s.decodeImage r = .ok d) (hev : Event.decodes ⟨s, .disassemble, o⟩ = true) :
    Derived r config (⟨s, .disassemble, o⟩ :: log) (s.withDecoded d) := by
  have hlast : lastDecoding? (⟨s, .disassemble, o⟩ :: log) = some ⟨s, .disassemble, o⟩ :=
    lastSinceLoad?_of_mem log rfl hev
  have hstream : lastStream r (⟨s, .disassemble, o⟩ :: log) = d.instructions := by
    unfold lastStream Event.stream
    rw [hlast, Option.map_some, Option.getD_some, hd]
  let t : Session := { s with decoded := d.instructions, skipped := d.skipped }
  have hindexed : t.annotations.reindex = t.annotations := h.rebuilt.indexed
  refine ⟨h.fixed, ?_, ?_, ?_⟩
  · rw [hstream]
    rfl
  · rw [hstream]
    exact rebuilt_rebuild hindexed
  · intro e he
    rw [hlast, Option.some.injEq] at he
    subst he
    have hsame : (s.withDecoded d).annotations = s.annotations := annotations_rebuild hindexed
    have hknown : knownEntryPoints r ⟨s, .disassemble, o⟩ (s.withDecoded d) =
        s.annotations.entryPoints := by
      unfold knownEntryPoints
      rw [hsame, ite_self]
    rw [hknown, ← h.fixed]
    exact boundaries_rebuild hindexed

theorem derived_withStates (h : Derived r config log s) (c : Calculator) (fixups : List Fixup) :
    Derived r config log { s with states := some c, fixups := fixups } :=
  ⟨h.fixed, h.decoded, ⟨h.rebuilt.indexed, h.rebuilt.graph⟩, h.boundaries⟩

/-- A change of the annotations rebuilds the functions if there are instructions. -/
theorem derived_withAnnotations (h : Derived r config log s) (store : AnnotationStore) :
    Derived r config log (s.withAnnotations store) := by
  have hdecoded := h.decoded
  refine ⟨?_, ?_, ?_, ?_⟩
  · rw [config_withAnnotations]
    exact h.fixed
  · rw [decoded_withAnnotations]
    exact hdecoded
  · have hup := h.rebuilt
    rw [← hdecoded] at hup ⊢
    exact hup.withAnnotations store
  · intro e he
    have hold := h.boundaries e he
    have hstream : e.stream r = s.decoded := by
      rw [hdecoded]
      unfold lastStream
      rw [he]
      rfl
    unfold knownEntryPoints at hold ⊢
    rw [hstream] at hold ⊢
    rw [withAnnotations_eq]
    by_cases hd : s.decoded.isEmpty
    · rw [if_pos hd] at hold
      rw [if_pos hd, if_pos hd]
      exact hold
    · rw [if_neg hd, if_neg hd, ← h.fixed]
      exact boundaries_rebuild rfl

/-- **Every step under a fixed configuration keeps what a session derives.** -/
theorem Derived.step {op : Operation} {o : Outcome Reply} (h : Derived r config log s)
    (hop : op.configures = false) (hstep : Step r s op o) :
    Derived r config (⟨s, op, o⟩ :: log) o.session := by
  cases hstep with
  | notLoaded _ => exact h.of_quiet rfl rfl
  | loaded _ => exact derived_withImage h rfl _
  | notDecoded hd => exact h.of_quiet rfl (not_aborts_of_decodeImage hd)
  | decoded hd => exact derived_withDecoded h hd (decodes_decoded _ _ _)
  | notPassed _ => exact h.of_quiet rfl rfl
  | passed _ => exact (derived_withStates h _ _).of_quiet rfl rfl
  | refused he _ => exact h.of_quiet (not_loads_of_edits he _) (not_decodes_of_edits he _)
  | kept he _ => exact h.of_quiet (not_loads_of_edits he _) (not_decodes_of_edits he _)
  | changed he store _ =>
    exact (derived_withAnnotations h store).of_quiet (not_loads_of_edits he _)
      (not_decodes_of_edits he _)
  | configured _ => cases hop

end Derived

theorem derived_after (r : Registry) (config : SessionConfig) (ops : List Operation)
    (hfixed : ∀ op ∈ ops, op.configures = false) :
    Derived r config (history r config ops) (after r config ops) :=
  history_induction (motive := Derived r config) (derived_new r config)
    (fun _ _ _ _ hop h hstep => h.step hop hstep) ops hfixed

/-- **The graph is never stale**: after every run under a fixed configuration it is that of the last
stream since a file was loaded, with the overrides, entry points and seeds as they are. -/
theorem graph_up_to_date (r : Registry) (config : SessionConfig) (ops : List Operation)
    (hfixed : ∀ op ∈ ops, op.configures = false) :
    (after r config ops).UpToDate (lastStream r (history r config ops)) :=
  (derived_after r config ops hfixed).rebuilt.upToDate

namespace Listed

/-- The second instruction is made an entry point after the decoding. -/
def annotated : List Operation :=
  [.load path (some content), .disassemble, .annotateNew "entrypoint" 17]

theorem annotated_fixed : ∀ op ∈ annotated, op.configures = false := by
  simp [annotated, Operation.configures]

theorem blocks_annotated :
    (after .builtin {} annotated).graph.blocks.map (·.start) = [16, 17] := by
  unfold after annotated
  rw [history_load load_content]
  rfl

theorem up_to_date_annotated :
    (∀ op ∈ annotated, op.configures = false) ∧
    (after .builtin {} annotated).graph.blocks.map (·.start) = [16, 17] ∧
    (after .builtin {} annotated).UpToDate
      (lastStream .builtin (history .builtin {} annotated)) :=
  ⟨annotated_fixed, blocks_annotated, graph_up_to_date .builtin {} annotated annotated_fixed⟩

end Listed

/-- **When the functions are up to date.** After a decoding that completed they are those of the
graph and the entry points as they are, exactly if the decoding gave instructions or the entry
points are still those of its time. -/
theorem boundaries_up_to_date_iff (r : Registry) (config : SessionConfig) (ops : List Operation)
    (hfixed : ∀ op ∈ ops, op.configures = false) {e : Event}
    (he : lastDecoding? (history r config ops) = some e) :
    (after r config ops).boundaries = .reconstruct (after r config ops).graph
        (after r config ops).annotations.entryPoints config.reconstructStop ↔
      e.stream r ≠ [] ∨
        e.before.annotations.entryPoints = (after r config ops).annotations.entryPoints := by
  have h := (derived_after r config ops hfixed).boundaries e he
  unfold knownEntryPoints at h
  rw [h]
  by_cases hd : (e.stream r).isEmpty
  · have hnil : e.stream r = [] := List.isEmpty_iff.mp hd
    rw [if_pos hd]
    constructor
    · intro heq
      exact Or.inr (Boundaries.entryPoints_inj heq)
    · rintro (hne | heq)
      · exact absurd hnil hne
      · rw [heq]
  · rw [if_neg hd]
    have hne : e.stream r ≠ [] := fun hnil => hd (List.isEmpty_iff.mpr hnil)
    exact ⟨fun _ => Or.inl hne, fun _ => rfl⟩

namespace Listed

theorem decoding_annotated : ∃ e, lastDecoding? (history .builtin {} annotated) = some e ∧
    e.stream .builtin = image.listing := by
  unfold annotated
  rw [history_load load_content]
  exact ⟨_, rfl, rfl⟩

theorem functions_annotated :
    (∃ e, lastDecoding? (history .builtin {} annotated) = some e) ∧
    (after .builtin {} annotated).boundaries =
      .reconstruct (after .builtin {} annotated).graph
        (after .builtin {} annotated).annotations.entryPoints true := by
  obtain ⟨e, he, hstream⟩ := decoding_annotated
  refine ⟨⟨e, he⟩, (boundaries_up_to_date_iff .builtin {} annotated annotated_fixed he).mpr ?_⟩
  rw [hstream]
  exact Or.inl (List.cons_ne_nil _ _)

end Listed

/-! ### A listing without instructions

It decodes to nothing, and then another entry point is added. -/

namespace Bare

def content : List UInt8 := Text.toBytes "\x7b\"entry\": 16, \"instructions\": []\x7d"

def image : Image where
  path := ⟨"a.json"⟩
  architecture := .listing
  entry := some 16
  segments := []
  symbols := []
  listing := []

theorem load_content : Registry.builtin.load ⟨"a.json"⟩ (some content) = .ok image := by
  with_unfolding_all rfl

def annotated : List Operation :=
  [.load ⟨"a.json"⟩ (some content), .disassemble, .annotateNew "entrypoint" 32]

/-- The new entry point has no function, although the decoding completed before it was added. -/
theorem functions_stale :
    (∀ op ∈ annotated, op.configures = false) ∧
    (∃ e, lastDecoding? (history .builtin {} annotated) = some e) ∧
    (after .builtin {} annotated).annotations.entryPoints = [⟨16, "entry"⟩, ⟨32, "sub_20"⟩] ∧
    (after .builtin {} annotated).boundaries.functionAt? 32 = none ∧
    (after .builtin {} annotated).boundaries ≠
      .reconstruct (after .builtin {} annotated).graph
        (after .builtin {} annotated).annotations.entryPoints true := by
  have hstale : (after .builtin {} annotated).boundaries.ranges.map (·.start) = [16] := by
    unfold after annotated
    rw [history_load load_content]
    rfl
  have heps : (after .builtin {} annotated).annotations.entryPoints =
      [⟨16, "entry"⟩, ⟨32, "sub_20"⟩] := by
    unfold after annotated
    rw [history_load load_content]
    rfl
  refine ⟨by simp [annotated, Operation.configures], ?_, heps, ?_, fun h => ?_⟩
  · unfold annotated
    rw [history_load load_content]
    exact ⟨_, rfl⟩
  · unfold after annotated
    rw [history_load load_content]
    rfl
  · rw [h, heps] at hstale
    cases hstale

end Bare

end Session

end FlowState
