import FlowState.Proofs.Results
import FlowState.Proofs.StoreHistory
import FlowState.Session
import Mathlib.Data.List.Induction

/-! # Histories of sessions

A session is used by one `Operation` after another, and any of them may fail. What one operation can
do is said once, by the relation `Step`, which has one rule for each way that an operation ends
(`perform_step`). A `history` lists the events of a run with the latest one first. What holds at the
start and is kept by every step holds after every run (`history_induction`).

Two events of a history matter later on: the last decoding that completed and the last pass that
succeeded, each only if no file was loaded since (`lastDecoding?`, `lastPass?`). -/

namespace FlowState

namespace Session

/-! ### Operations -/

/-- What can be asked of a session. -/
inductive Operation where
  | load (path : Path) (content : Option (List UInt8))
  | disassemble
  | calculate (cancelled : Nat → Bool)
  | annotateNew (kind : String) (a : Address)
  | annotateWith (kind : String) (a : Address) (fields : Json)
  | annotate (a : Annotation)
  | unannotate (handle : Handle)
  | editAnnotations (edit : AnnotationStore → AnnotationStore)
  | loadAnnotations (source : Except AnnotationError (List Annotation))
  | configure (config : SessionConfig)

/-- What an operation answers. -/
inductive Reply where
  | done
  | handle (h : Handle)
  | removed (a : Option Annotation)
  | count (n : Nat)
  | fixups (fs : List Fixup)

end Session

/-- The outcome with its answer read as a reply. -/
def Outcome.replying {α : Type} (o : Outcome α) (f : α → Session.Reply) : Outcome Session.Reply :=
  ⟨o.session, o.events, o.result.map f⟩

namespace Session

/-- **Performs an operation.** -/
def perform (r : Registry) (s : Session) : Operation → Outcome Reply
  | .load p content => (s.load r p content).replying fun _ => .done
  | .disassemble => (s.disassemble r).replying fun _ => .done
  | .calculate cancelled => (s.calculate r cancelled).replying .fixups
  | .annotateNew kind a => (s.annotateNew kind a).replying .handle
  | .annotateWith kind a fields => (s.annotateWith kind a fields).replying .handle
  | .annotate a => (s.annotate a).replying .handle
  | .unannotate handle => (s.unannotate handle).replying .removed
  | .editAnnotations edit => (s.editAnnotations fun t => (edit t, ())).replying fun _ => .done
  | .loadAnnotations source => (s.loadAnnotations source).replying .count
  | .configure config => ⟨{ s with config := config }, [], .ok .done⟩

/-- The operation is about annotations. -/
def Operation.edits : Operation → Bool
  | .load _ _ | .disassemble | .calculate _ | .configure _ => false
  | _ => true

/-- The operation changes the configuration. -/
def Operation.configures : Operation → Bool
  | .configure _ => true
  | _ => false

end Session

/-- The error tells that a decoder stopped early. -/
def SessionError.aborts : SessionError → Bool
  | .decodeAborted _ _ => true
  | _ => false

namespace Session

/-! ### Steps -/

/-- The session with the image of a file. -/
def withImage (s : Session) (i : Image) : Session :=
  { new s.config with image := some i, annotations := mergeImage s.annotations i }

theorem load_of_ok {r : Registry} {p : Path} {content : Option (List UInt8)} {image : Image}
    (h : r.load p content = .ok image) (s : Session) :
    s.load r p content = ⟨s.withImage image, [.annotations, .states], .ok ()⟩ := by
  unfold load
  rw [h]
  rfl

/-- The session with what a decoder gave. -/
def withDecoded (s : Session) (d : Decoded) : Session :=
  rebuild { s with decoded := d.instructions, skipped := d.skipped }

theorem withAnnotations_eq (s : Session) (store : AnnotationStore) :
    s.withAnnotations store = if s.decoded.isEmpty then { s with annotations := store.reindex }
      else rebuild { s with annotations := store.reindex } := rfl

/-- What a decoding that completed answers. -/
def decodedReply (d : Decoded) : Except SessionError Reply :=
  match d.fault with
  | some fault => .error (.decodeAborted fault d.instructions.length)
  | none => .ok .done

/-- **What an operation can do to a session**: one rule for each way that it ends. -/
inductive Step (r : Registry) (s : Session) : Operation → Outcome Reply → Prop where
  | notLoaded {p : Path} {content : Option (List UInt8)} {e : ImageError}
      (h : r.load p content = .error e) : Step r s (.load p content) (s.failed (.load e))
  | loaded {p : Path} {content : Option (List UInt8)} {i : Image} (h : r.load p content = .ok i) :
      Step r s (.load p content) ⟨s.withImage i, [.annotations, .states], .ok .done⟩
  | notDecoded {e : SessionError} (h : s.decodeImage r = .error e) :
      Step r s .disassemble (s.failed e)
  | decoded {d : Decoded} (h : s.decodeImage r = .ok d) :
      Step r s .disassemble ⟨s.withDecoded d, [], decodedReply d⟩
  | notPassed {cancelled : Nat → Bool} {e : SessionError} (h : s.pass r cancelled = .error e) :
      Step r s (.calculate cancelled) (s.failed e)
  | passed {cancelled : Nat → Bool} {c : Calculator} {fixups : List Fixup}
      (h : s.pass r cancelled = .ok (c, fixups)) :
      Step r s (.calculate cancelled)
        ⟨{ s with states := some c, fixups := fixups }, [.states], .ok (.fixups fixups)⟩
  | refused {op : Operation} (hop : op.edits = true) (e : AnnotationError) :
      Step r s op (s.failed (.ofAnnotationError e))
  | kept {op : Operation} (hop : op.edits = true) (reply : Reply) :
      Step r s op ⟨s, [], .ok reply⟩
  | changed {op : Operation} (hop : op.edits = true) (store : AnnotationStore) (reply : Reply) :
      Step r s op ⟨s.withAnnotations store, [.annotations], .ok reply⟩
  | configured (config : SessionConfig) :
      Step r s (.configure config) ⟨{ s with config := config }, [], .ok .done⟩

section Perform
variable (r : Registry) (s : Session)

theorem step_load (p : Path) (content : Option (List UInt8)) :
    Step r s (.load p content) (s.perform r (.load p content)) := by
  change Step r s _ ((s.load r p content).replying fun _ => .done)
  unfold load
  cases h : r.load p content with
  | error e => exact .notLoaded h
  | ok i => exact .loaded h

theorem step_disassemble : Step r s .disassemble (s.perform r .disassemble) := by
  change Step r s _ ((s.disassemble r).replying fun _ => .done)
  unfold disassemble
  cases h : s.decodeImage r with
  | error e => exact .notDecoded h
  | ok d =>
    have hstep := Step.decoded h
    unfold decodedReply at hstep
    cases hf : d.fault with
    | none =>
      simp only [hf] at hstep ⊢
      exact hstep
    | some fault =>
      simp only [hf] at hstep ⊢
      exact hstep

theorem step_calculate (cancelled : Nat → Bool) :
    Step r s (.calculate cancelled) (s.perform r (.calculate cancelled)) := by
  change Step r s _ ((s.calculate r cancelled).replying .fixups)
  unfold calculate
  cases h : s.pass r cancelled with
  | error e => exact .notPassed h
  | ok p => exact .passed h

theorem step_added {op : Operation} (hop : op.edits = true)
    (made : Except AnnotationError Annotation) :
    Step r s op ((s.added (s.annotations.insertMade made)).replying .handle) := by
  cases made with
  | error e => exact .refused hop e
  | ok a => exact .changed hop (s.annotations.insert a).1 (.handle (s.annotations.insert a).2)

theorem step_unannotate (handle : Handle) :
    Step r s (.unannotate handle) (s.perform r (.unannotate handle)) := by
  change Step r s _ ((s.unannotate handle).replying .removed)
  unfold unannotate
  cases h : s.annotations.get? handle with
  | none =>
    rw [AnnotationStore.remove_of_none h]
    exact .kept rfl (.removed none)
  | some a =>
    obtain ⟨front, rest, hplace, hp⟩ := AnnotationStore.exists_place h
    rw [AnnotationStore.remove_of_place hplace hp]
    exact .changed rfl _ (.removed (some a))

theorem step_loadAnnotations (source : Except AnnotationError (List Annotation)) :
    Step r s (.loadAnnotations source) (s.perform r (.loadAnnotations source)) := by
  cases source with
  | error e => exact .refused rfl e
  | ok as => exact .changed rfl (.ofAnnotations as) (.count as.length)

/-- **Every operation is a step.** -/
theorem perform_step (op : Operation) : Step r s op (s.perform r op) := by
  cases op with
  | load p content => exact step_load r s p content
  | disassemble => exact step_disassemble r s
  | calculate cancelled => exact step_calculate r s cancelled
  | annotateNew kind a => exact step_added r s rfl _
  | annotateWith kind a fields => exact step_added r s rfl _
  | annotate a => exact step_added r s rfl _
  | unannotate handle => exact step_unannotate r s handle
  | editAnnotations edit => exact .changed rfl (edit s.annotations) .done
  | loadAnnotations source => exact step_loadAnnotations r s source
  | configure config => exact .configured config

end Perform

/-! ### Events -/

/-- An operation in a run: the session it was asked of, and what it left behind. -/
structure Event where
  before : Session
  operation : Operation
  outcome : Outcome Reply

namespace Event

/-- A file was loaded. -/
def loads (e : Event) : Bool :=
  match e.operation, e.outcome.result with
  | .load _ _, .ok _ => true
  | _, _ => false

/-- A decoding completed, be it that the decoder stopped early. -/
def decodes (e : Event) : Bool :=
  match e.operation, e.outcome.result with
  | .disassemble, .ok _ => true
  | .disassemble, .error err => err.aborts
  | _, _ => false

/-- A pass succeeded. -/
def calculates (e : Event) : Bool :=
  match e.operation, e.outcome.result with
  | .calculate _, .ok _ => true
  | _, _ => false

/-- The instructions that the decoder gives for the session before the event. -/
def stream (r : Registry) (e : Event) : List Instruction :=
  match e.before.decodeImage r with
  | .ok d => d.instructions
  | .error _ => []

end Event

section Kinds
variable {r : Registry} {s : Session}

theorem not_loads_of_edits {op : Operation} (hop : op.edits = true) (o : Outcome Reply) :
    Event.loads ⟨s, op, o⟩ = false := by
  cases op <;> simp_all [Operation.edits, Event.loads]

theorem not_decodes_of_edits {op : Operation} (hop : op.edits = true) (o : Outcome Reply) :
    Event.decodes ⟨s, op, o⟩ = false := by
  cases op <;> simp_all [Operation.edits, Event.decodes]

theorem not_calculates_of_edits {op : Operation} (hop : op.edits = true) (o : Outcome Reply) :
    Event.calculates ⟨s, op, o⟩ = false := by
  cases op <;> simp_all [Operation.edits, Event.calculates]

theorem decodes_decoded (d : Decoded) (t : Session) (es : List ChangeEvent) :
    Event.decodes ⟨s, .disassemble, ⟨t, es, decodedReply d⟩⟩ = true := by
  unfold decodedReply
  cases d.fault <;> rfl

/-- A decoder that cannot start has not stopped early. -/
theorem not_aborts_of_decodeImage {e : SessionError} (h : s.decodeImage r = .error e) :
    e.aborts = false := by
  unfold decodeImage at h
  rcases bind_error_iff.mp h with h | ⟨i, -, h⟩
  · unfold supportedImage at h
    split at h
    · cases h
      rfl
    · split_ifs at h
      cases h
      rfl
  · split at h
    · cases h
      rfl
    · obtain ⟨x, -, rfl⟩ := mapError_error_iff.mp h
      rfl

end Kinds

/-! ### Histories -/

/-- The session after the events, the latest one first, of a run that starts with a new session. -/
def current (config : SessionConfig) : List Event → Session
  | [] => .new config
  | e :: _ => e.outcome.session

/-- The events with one more operation performed. -/
def record (r : Registry) (config : SessionConfig) (log : List Event) (op : Operation) :
    List Event :=
  ⟨current config log, op, (current config log).perform r op⟩ :: log

/-- **The events of a run**, the latest one first. -/
def history (r : Registry) (config : SessionConfig) (ops : List Operation) : List Event :=
  ops.foldl (record r config) []

/-- The session after a run. -/
def after (r : Registry) (config : SessionConfig) (ops : List Operation) : Session :=
  current config (history r config ops)

theorem history_concat (r : Registry) (config : SessionConfig) (ops : List Operation)
    (op : Operation) :
    history r config (ops ++ [op]) = record r config (history r config ops) op := by
  unfold history
  rw [List.foldl_append]
  rfl

/-- A run that starts with a file. -/
theorem history_load {r : Registry} {p : Path} {content : Option (List UInt8)} {i : Image}
    (h : r.load p content = .ok i) (config : SessionConfig) (ops : List Operation) :
    history r config (.load p content :: ops) = ops.foldl (record r config)
      [⟨.new config, .load p content,
        ⟨withImage (.new config) i, [.annotations, .states], .ok .done⟩⟩] := by
  have hperform : (Session.new config).perform r (.load p content) =
      ⟨withImage (.new config) i, [.annotations, .states], .ok .done⟩ := by
    change ((Session.new config).load r p content).replying _ = _
    rw [load_of_ok h]
    rfl
  unfold history
  rw [List.foldl_cons, ← hperform]
  rfl

/-- **What every step keeps holds after every run** of operations of a kind. -/
theorem history_induction {r : Registry} {config : SessionConfig} {p : Operation → Prop}
    {motive : List Event → Session → Prop} (start : motive [] (.new config))
    (step : ∀ log s op o, p op → motive log s → Step r s op o →
      motive (⟨s, op, o⟩ :: log) o.session)
    (ops : List Operation) (hops : ∀ op ∈ ops, p op) :
    motive (history r config ops) (after r config ops) := by
  induction ops using List.reverseRecOn with
  | nil => exact start
  | append_singleton ops op ih =>
    have hlog := ih fun op' h => hops op' (List.mem_append_left _ h)
    have hop := hops op (List.mem_append_right _ (List.mem_singleton_self op))
    unfold after
    rw [history_concat]
    exact step _ _ op _ hop hlog (perform_step r _ op)

/-- The last event of a kind since a file was loaded. -/
def lastSinceLoad? (p : Event → Bool) (log : List Event) : Option Event :=
  (log.takeWhile fun e => !e.loads).find? p

/-- The last decoding that completed since a file was loaded. -/
def lastDecoding? : List Event → Option Event := lastSinceLoad? Event.decodes

/-- The last pass that succeeded since a file was loaded. -/
def lastPass? : List Event → Option Event := lastSinceLoad? Event.calculates

theorem lastSinceLoad?_of_loads {p : Event → Bool} {e : Event} (log : List Event)
    (h : e.loads = true) : lastSinceLoad? p (e :: log) = none := by
  simp [lastSinceLoad?, h]

theorem lastSinceLoad?_of_mem {p : Event → Bool} {e : Event} (log : List Event)
    (h : e.loads = false) (hp : p e = true) : lastSinceLoad? p (e :: log) = some e := by
  simp [lastSinceLoad?, h, hp]

theorem lastSinceLoad?_of_not_mem {p : Event → Bool} {e : Event} (log : List Event)
    (h : e.loads = false) (hp : p e = false) :
    lastSinceLoad? p (e :: log) = lastSinceLoad? p log := by
  simp [lastSinceLoad?, h, hp]

/-! ### A listing

Two instructions, the first of which is the entry. -/

namespace Listed

def path : Path := ⟨"a.json"⟩

def content : List UInt8 :=
  Text.toBytes "[16,[],[],[[16,\"aa\"],[17,\"c3\"]]]"

def image : Image where
  path := path
  architecture := .listing
  entry := some 16
  segments := []
  symbols := []
  listing := [⟨16, [0xaa], .unknown, [], none⟩, ⟨17, [0xc3], .unknown, [], none⟩]

theorem load_content : Registry.builtin.load path (some content) = .ok image := by
  with_unfolding_all rfl

end Listed

end Session

end FlowState
