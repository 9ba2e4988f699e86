import FlowState.Proofs.SessionHistory
import Mathlib.Data.List.Permutation

/-! # Reported states

An operation that fails leaves no trace, but for a decoder that stops early (`perform_atomic`). The
states, the fixups and the name of the update function that a session reports come from one pass:
the last one that succeeded since a file was loaded (`provenance_after`). Such a pass is a whole
calculation over the graph, the annotations and the memory that the session had then
(`gives_of_pass`), and no other operation touches what it left (`Reports.of_eq`). -/

namespace FlowState

/-! ### The update function of a pass -/

theorem Calculator.updater_foldl_seed (as : List Address) (v : StateValue) (c : Calculator) :
    (as.foldl (fun c a => c.seed a v) c).updater = c.updater := by
  induction as generalizing c with
  | nil => rfl
  | cons a as ih => rw [List.foldl_cons, ih, updater_seed]

theorem Session.updater_seeded (s : Session) (u : Updater) : (s.seeded u).updater = u :=
  Calculator.updater_foldl_seed _ _ _

theorem UpdateRegistry.name_of_create {r : UpdateRegistry} {name : String} {u : Updater}
    (h : r.create name = .ok u) : u.function.name = name := by
  unfold create at h
  split at h
  · next f hf =>
    cases h
    simpa using List.find?_some hf
  · cases h

namespace Session

/-! ### What a pass gives -/

/-- What a pass leaves: the name of its update function, its tables and its fixups. -/
structure PassResult where
  name : String
  pre : Table StateValue
  post : Table StateValue
  fixups : List Fixup

/-- **What a pass over a session gives**: the result of a whole calculation, by the update function
that is asked for, over the graph, the annotations and the memory of the session. -/
def Gives (r : Registry) (s : Session) (cancelled : Nat → Bool) (p : PassResult) : Prop :=
  ∃ i c c', s.supportedImage r = .ok i ∧ s.updateFunctionName r i = .ok p.name ∧
    s.calculator r i = .ok c ∧
    c.calculate ⟨s.graph, s.annotations, i.segments, s.annotations.entryPoints.map (·.address)⟩
      cancelled = (c', .ok p.fixups) ∧
    c'.pre = p.pre ∧ c'.post = p.post

section Pass
variable {r : Registry} {s : Session}

theorem updateFunctionName_of_calculator {i : Image} {c : Calculator}
    (h : s.calculator r i = .ok c) :
    s.updateFunctionName r i = .ok c.updater.function.name := by
  unfold calculator at h
  obtain ⟨name, hname, h⟩ := bind_ok_iff.mp h
  obtain ⟨u, hu, h⟩ := bind_ok_iff.mp h
  have hcreate := UpdateRegistry.name_of_create (mapError_ok_iff.mp hu)
  rcases hp : (s.seeded u).prepare with ⟨c', prepared⟩
  rw [hp] at h
  obtain ⟨x, hx, h⟩ := bind_ok_iff.mp h
  cases h
  have hprep := Calculator.updater_of_prepare (c := s.seeded u) (x := x)
    (by rw [hp]; exact mapError_ok_iff.mp hx)
  rw [hp, updater_seeded] at hprep
  rw [hname, hprep, ← hcreate]

theorem gives_of_pass {cancelled : Nat → Bool} {c : Calculator} {fixups : List Fixup}
    (h : s.pass r cancelled = .ok (c, fixups)) :
    Gives r s cancelled ⟨c.updater.function.name, c.pre, c.post, fixups⟩ := by
  unfold pass at h
  obtain ⟨i, hi, h⟩ := bind_ok_iff.mp h
  split_ifs at h
  obtain ⟨c₀, hc, h⟩ := bind_ok_iff.mp h
  obtain ⟨fs, hcalc, h⟩ := bind_ok_iff.mp h
  have hcalc := mapError_ok_iff.mp hcalc
  cases h
  have hname := updateFunctionName_of_calculator hc
  rw [← Calculator.updater_calculate] at hname
  exact ⟨i, c₀, _, hi, hname, hc, Prod.ext rfl hcalc, rfl, rfl⟩

end Pass

/-! ### Operations that fail -/

/-- **An operation that fails changes nothing and tells nobody**, unless a decoder stopped early. -/
theorem perform_atomic {r : Registry} {s : Session} {op : Operation} {e : SessionError}
    (h : (s.perform r op).result = .error e) (he : e.aborts = false) :
    (s.perform r op).session = s ∧ (s.perform r op).events = [] := by
  have hstep := perform_step r s op
  generalize s.perform r op = o at h hstep ⊢
  cases hstep with
  | notLoaded _ => exact ⟨rfl, rfl⟩
  | notDecoded _ => exact ⟨rfl, rfl⟩
  | notPassed _ => exact ⟨rfl, rfl⟩
  | refused _ _ => exact ⟨rfl, rfl⟩
  | decoded _ =>
    unfold decodedReply at h
    split at h
    · cases h
      cases he
    · cases h
  | loaded _ => cases h
  | passed _ => cases h
  | kept _ _ => cases h
  | changed _ _ _ => cases h
  | configured _ => cases h

/-! ### What a session reports -/

/-- **A session reports a result**, or that there is none. -/
structure Reports (s : Session) (p : Option PassResult) : Prop where
  pre : ∀ a, s.preState? a = p.bind fun p => p.pre.get? a
  post : ∀ a, s.postState? a = p.bind fun p => p.post.get? a
  fixups : s.fixups = (p.map (·.fixups)).getD []
  name : s.updateFunction? = p.map (·.name)

/-- The session reports what the pass of an event gave and answered, or nothing. -/
def Provenance (r : Registry) (s : Session) : Option Event → Prop
  | none => s.Reports none
  | some e => ∃ cancelled p, e.operation = .calculate cancelled ∧ Gives r e.before cancelled p ∧
      e.outcome.result = .ok (.fixups p.fixups) ∧ s.Reports (some p)

section Reports
variable {r : Registry} {s s' : Session}

theorem Reports.of_eq {p : Option PassResult} (h : s.Reports p) (hs : s'.states = s.states)
    (hf : s'.fixups = s.fixups) : s'.Reports p := by
  refine ⟨fun a => ?_, fun a => ?_, ?_, ?_⟩
  · rw [← h.pre a]
    unfold preState?
    rw [hs]
  · rw [← h.post a]
    unfold postState?
    rw [hs]
  · rw [hf, h.fixups]
  · rw [← h.name]
    unfold updateFunction?
    rw [hs]

theorem reports_none (hs : s.states = none) (hf : s.fixups = []) : s.Reports none :=
  ⟨fun a => by simp [preState?, hs], fun a => by simp [postState?, hs], hf,
    by simp [updateFunction?, hs]⟩

theorem reports_some {c : Calculator} {fixups : List Fixup} (hs : s.states = some c)
    (hf : s.fixups = fixups) :
    s.Reports (some ⟨c.updater.function.name, c.pre, c.post, fixups⟩) :=
  ⟨fun a => by simp [preState?, hs], fun a => by simp [postState?, hs], hf,
    by simp [updateFunction?, hs]⟩

theorem states_withAnnotations (s : Session) (store : AnnotationStore) :
    (s.withAnnotations store).states = s.states := by
  rw [withAnnotations_eq]
  split_ifs <;> rfl

theorem fixups_withAnnotations (s : Session) (store : AnnotationStore) :
    (s.withAnnotations store).fixups = s.fixups := by
  rw [withAnnotations_eq]
  split_ifs <;> rfl

/-- An event that neither loads nor calculates, over which states and fixups stay. -/
theorem Provenance.of_quiet {log : List Event} {e : Event} (h : Provenance r s (lastPass? log))
    (hl : e.loads = false) (hc : e.calculates = false) (hs : s'.states = s.states)
    (hf : s'.fixups = s.fixups) : Provenance r s' (lastPass? (e :: log)) := by
  unfold lastPass? at h ⊢
  rw [lastSinceLoad?_of_not_mem log hl hc]
  cases hlast : lastSinceLoad? Event.calculates log with
  | none =>
    rw [hlast] at h
    exact Reports.of_eq h hs hf
  | some e =>
    rw [hlast] at h
    obtain ⟨cancelled, p, hop, hp, hres, hrep⟩ := h
    exact ⟨cancelled, p, hop, hp, hres, hrep.of_eq hs hf⟩

theorem Provenance.step {log : List Event} {op : Operation} {o : Outcome Reply}
    (h : Provenance r s (lastPass? log)) (hstep : Step r s op o) :
    Provenance r o.session (lastPass? (⟨s, op, o⟩ :: log)) := by
  cases hstep with
  | notLoaded _ => exact h.of_quiet rfl rfl rfl rfl
  | loaded _ =>
    unfold lastPass?
    rw [lastSinceLoad?_of_loads log rfl]
    exact reports_none rfl rfl
  | notDecoded _ => exact h.of_quiet rfl rfl rfl rfl
  | decoded _ => exact h.of_quiet rfl rfl rfl rfl
  | notPassed _ => exact h.of_quiet rfl rfl rfl rfl
  | @passed cancelled c fixups hpass =>
    unfold lastPass?
    rw [lastSinceLoad?_of_mem log rfl rfl]
    exact ⟨cancelled, _, rfl, gives_of_pass hpass, rfl, reports_some rfl rfl⟩
  | refused hop _ =>
    exact h.of_quiet (not_loads_of_edits hop _) (not_calculates_of_edits hop _) rfl rfl
  | kept hop _ =>
    exact h.of_quiet (not_loads_of_edits hop _) (not_calculates_of_edits hop _) rfl rfl
  | changed hop store _ =>
    exact h.of_quiet (not_loads_of_edits hop _) (not_calculates_of_edits hop _)
      (states_withAnnotations s store) (fixups_withAnnotations s store)
  | configured _ => exact h.of_quiet rfl rfl rfl rfl

end Reports

/-- **After every run** a session reports the last pass that succeeded since a file was loaded. -/
theorem provenance_after (r : Registry) (config : SessionConfig) (ops : List Operation) :
    Provenance r (after r config ops) (lastPass? (history r config ops)) :=
  history_induction (p := fun _ => True)
    (motive := fun log s => Provenance r s (lastPass? log)) (reports_none rfl rfl)
    (fun _ _ _ _ _ h hstep => h.step hstep) ops fun _ _ => trivial

/-- Operations are all-or-nothing, and what a session reports is the result of one pass. -/
theorem operations_all_or_nothing (r : Registry) :
    (∀ (s : Session) (op : Operation) (e : SessionError), (s.perform r op).result = .error e →
      e.aborts = false → (s.perform r op).session = s ∧ (s.perform r op).events = []) ∧
    ∀ (config : SessionConfig) (ops : List Operation),
      Provenance r (after r config ops) (lastPass? (history r config ops)) :=
  ⟨fun _ _ _ h he => perform_atomic h he, provenance_after r⟩

namespace Listed

def calculated : List Operation :=
  [.load path (some content), .disassemble, .calculate fun _ => false]

/-- The session with the listing decoded. -/
def decoded : Session := withDecoded (withImage (.new {}) image) ⟨image.listing, none, 0⟩

def input : CalculatorInput := ⟨decoded.graph, decoded.annotations, [], [16]⟩

/-- The calculator that a pass starts with, and the one that it ends with. -/
def ready : Calculator := ⟨⟨.xor, true⟩, false, [(16, ⟨[0, 0, 0, 0]⟩)], true, .empty, .empty⟩

def done : Calculator :=
  { ready with
    pre := ⟨[(16, ⟨[0, 0, 0, 0]⟩), (17, ⟨[0xaa, 0, 0, 0]⟩)]⟩
    post := ⟨[(16, ⟨[0xaa, 0, 0, 0]⟩), (17, ⟨[0x69, 0, 0, 0]⟩)]⟩ }

/-- The session after the pass. -/
def reported : Session := { decoded with states := some done.cleanup }

/-- A pass does not look at the states of the last one. -/
theorem pass_decoded (states : Option Calculator) (cancelled : Nat → Bool) :
    pass .builtin cancelled { decoded with states := states } =
      ((ready.calculate input cancelled).2.mapError .ofState).map
        fun fixups => ((ready.calculate input cancelled).1.cleanup, fixups) := by
  with_unfolding_all rfl

theorem calculate_ready : ready.calculate input (fun _ => false) = (done, .ok []) := by cbv

theorem calculate_stopped :
    ready.calculate input (fun _ => true) = (ready, .error .cancelled) := by cbv

theorem perform_decoded : decoded.perform .builtin (.calculate fun _ => false) =
    ⟨reported, [.states], .ok (.fixups [])⟩ := by
  have hpass : decoded.pass .builtin (fun _ => false) = .ok (done.cleanup, []) := by
    rw [show decoded = { decoded with states := none } from rfl, pass_decoded, calculate_ready]
    rfl
  change (calculate .builtin (fun _ => false) decoded).replying _ = _
  rw [calculate, hpass]
  rfl

theorem history_calculated : ∃ log, history .builtin {} calculated =
    ⟨decoded, .calculate fun _ => false, ⟨reported, [.states], .ok (.fixups [])⟩⟩ :: log := by
  unfold calculated
  rw [history_load load_content, ← perform_decoded]
  exact ⟨_, by with_unfolding_all rfl⟩

theorem after_calculated : after .builtin {} calculated = reported := by
  obtain ⟨log, hlog⟩ := history_calculated
  unfold after
  rw [hlog]
  rfl

theorem preState_calculated :
    (after .builtin {} calculated).preState? 17 = some ⟨[0xaa, 0, 0, 0]⟩ := by
  rw [after_calculated]
  rfl

theorem lastPass_calculated : (lastPass? (history .builtin {} calculated)).isSome := by
  obtain ⟨log, hlog⟩ := history_calculated
  rw [hlog]
  rfl

theorem cancelled_calculated :
    ((after .builtin {} calculated).perform .builtin (.calculate fun _ => true)).result =
      .error (.state .cancelled) := by
  rw [after_calculated]
  change (calculate .builtin (fun _ => true) _).result.map _ = _
  rw [reported, calculate, pass_decoded, calculate_stopped]
  rfl

/-- A second pass that is cancelled leaves the states of the first one. -/
theorem states_kept_calculated :
    ((after .builtin {} calculated).perform .builtin (.calculate fun _ => true)).session =
      after .builtin {} calculated ∧
    ((after .builtin {} calculated).perform .builtin (.calculate fun _ => true)).events = [] ∧
    (after .builtin {} calculated).preState? 17 = some ⟨[0xaa, 0, 0, 0]⟩ ∧
    ∃ e, lastPass? (history .builtin {} calculated) = some e ∧
      Provenance .builtin (after .builtin {} calculated) (some e) := by
  obtain ⟨hfail, hrun⟩ := operations_all_or_nothing .builtin
  obtain ⟨hsame, hquiet⟩ := hfail (after .builtin {} calculated) _ _ cancelled_calculated rfl
  obtain ⟨e, he⟩ := Option.isSome_iff_exists.mp lastPass_calculated
  have hprov := hrun {} calculated
  rw [he] at hprov
  exact ⟨hsame, hquiet, preState_calculated, e, he, hprov⟩

end Listed

end Session

end FlowState
