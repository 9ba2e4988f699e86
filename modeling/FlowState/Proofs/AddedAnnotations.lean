import FlowState.Proofs.RemovedAnnotations
import FlowState.Proofs.StoreHistory

/-! # Added annotations

What the arguments of a command ask for (`requested`) does not depend on the project. If it is an
annotation, it is stored behind all that the opened binary has, the entry points of the image
included. So the next time the image finds its entry points among the stored annotations, and adds
none (`listed_append`). If it is none, the command has opened the binary and nothing else: the
database may have got new tables and an architecture, but no row of an annotation has changed
(`Opening.rowsOf_put`). -/

namespace FlowState

namespace Command

/-! ### What is asked for -/

/-- The annotation of a kind at an address, with the fields of a text or else with new ones; nothing
if the text cannot be read. -/
def made? (kind : String) (a : Address) (fields : Option String) :
    Option (Except AnnotationError Annotation) :=
  match fields with
  | none => some <| Annotation.fresh kind a
  | some text => Json.ofText? text |>.map fun j => Annotation.ofFields kind a j

def unreadableFields : Failure := ["Failed to parse --fields as JSON", outsideCause]

/-- Why an annotation is refused. -/
def refusal (e : AnnotationError) : Failure := (SessionError.ofAnnotationError e).messages

/-- **The annotation that arguments ask for**, or why there is none: the address is looked at first,
then the text of the fields, and then the kind and the fields. -/
def requested (kind address : String) (fields : Option String) : Except Failure Annotation :=
  match Address.read address with
  | .error e => .error e.messages
  | .ok a =>
    match made? kind a fields with
    | none => .error unreadableFields
    | some (.error e) => .error (refusal e)
    | some (.ok n) => .ok n

/-- What is printed when an annotation is added. -/
def addedLine (n : Annotation) : String :=
  "Added " ++ n.kind.name ++ " at " ++ n.address.text ++ ": " ++ n.describe

theorem requested_eq_ok {kind address : String} {fields : Option String} {n : Annotation}
    (h : requested kind address fields = .ok n) :
    ∃ a, Address.read address = .ok a ∧ made? kind a fields = some (.ok n) := by
  unfold requested at h
  split at h
  · cases h
  · next a ha =>
    split at h
    · cases h
    · cases h
    · next hn =>
      cases h
      exact ⟨a, ha, hn⟩

theorem requested_eq_error {kind address : String} {fields : Option String} {f : Failure}
    (h : requested kind address fields = .error f) :
    (∃ e, Address.read address = .error e ∧ f = e.messages) ∨
    ∃ a, Address.read address = .ok a ∧
      ((made? kind a fields = none ∧ f = unreadableFields) ∨
        ∃ e, made? kind a fields = some (.error e) ∧ f = refusal e) := by
  unfold requested at h
  split at h
  · next e he =>
    cases h
    exact .inl ⟨e, he, rfl⟩
  · next a ha =>
    refine .inr ⟨a, ha, ?_⟩
    split at h
    · next hn =>
      cases h
      exact .inl ⟨hn, rfl⟩
    · next e he =>
      cases h
      exact .inr ⟨e, he, rfl⟩
    · cases h

/-! ### One more annotation in a session -/

section Annotated
variable {s : Session} {kind : String} {a : Address} {fields : Option String}
  {ls : List String} {w : Workspace}

theorem gives_annotated {made : Except AnnotationError Annotation}
    (h : made? kind a fields = some made) :
    Gives (annotated s kind a fields) ls w (s.added (s.annotations.insertMade made)) ls w := by
  cases fields with
  | none =>
    cases h
    exact gives_pure.mpr ⟨rfl, rfl, rfl⟩
  | some text =>
    obtain ⟨j, hj, rfl⟩ := Option.map_eq_some_iff.mp h
    unfold annotated
    simp only [hj]
    exact gives_pure.mpr ⟨rfl, rfl, rfl⟩

theorem fails_annotated (h : made? kind a fields = none) :
    Fails (annotated s kind a fields) ls w unreadableFields ls w := by
  cases fields with
  | none => cases h
  | some text =>
    have hj : Json.ofText? text = none := Option.map_eq_none_iff.mp h
    unfold annotated
    simp only [hj]
    exact fails_throw _

/-- The session with one more annotation, where nothing is decoded yet. -/
theorem added_insert (hs : s.decoded = []) (n : Annotation) :
    s.added (s.annotations.insertMade (.ok n)) =
      ⟨{ s with annotations := (s.annotations.insert n).1.reindex }, [.annotations],
        .ok s.annotations.nextHandle⟩ := by
  unfold Session.added AnnotationStore.insertMade Session.changed Session.withAnnotations
  simp only [hs, List.isEmpty_nil, if_true]
  rfl

end Annotated

end Command

/-- What is found under the handle of an annotation that is added behind others: the annotation
itself, as long as no other one has the same word for a handle. -/
def Command.announced (as : List Annotation) (n : Annotation) : Annotation :=
  ((as ++ [n])[(UInt64.ofNat as.length).toNat]?).getD n

theorem Command.announced_eq {as : List Annotation} (h : as.length < UInt64.size) (n : Annotation) :
    announced as n = n := by
  unfold announced
  rw [UInt64.toNat_ofNat_of_lt' h]
  simp

theorem AnnotationStore.InOrder.get?_insert {s : AnnotationStore} (h : s.InOrder) (n : Annotation) :
    (s.insert n).1.reindex.get? s.nextHandle = some (Command.announced s.annotations n) := by
  refine (h.insert n).reindex.get? ?_
  have hlt : (UInt64.ofNat s.annotations.length).toNat < (s.annotations ++ [n]).length := by
    have hle := Nat.mod_le s.annotations.length UInt64.size
    rw [UInt64.toNat_ofNat', List.length_append, List.length_singleton]
    exact Nat.lt_succ_of_le hle
  rw [annotations_reindex, annotations_insert, h.next_eq, Command.announced,
    List.getElem?_eq_getElem hlt]
  rfl

/-- **Merging an image again** after an annotation was added behind adds nothing. -/
theorem Session.listed_append (stored : List Annotation) (image : Image) (n : Annotation) :
    listed (listed stored image ++ [n]) image = listed stored image ++ [n] := by
  apply foldl_withEntry_of_forall
  intro e he
  rw [hasEntryAt_append, hasEntryAt_listed stored he, Bool.true_or]

/-! ### Rows that stay -/

namespace Database

theorem annotations_of_openTables {d db : Database} (h : d.openTables = .ok db) :
    db.annotations.getD [] = d.annotations.getD [] := by
  unfold openTables at h
  split at h
  · cases h
  · cases h
    split_ifs <;> rfl

theorem annotations_of_recorded {db db' : Database} {b : BinaryRecord} {arch : String}
    (h : Project.recorded db b arch = .ok db') : db'.annotations = db.annotations := by
  unfold Project.recorded at h
  split_ifs at h
  · cases h
    rfl
  · cases hupdate : db.updateArch b.name arch with
    | error e =>
      rw [hupdate] at h
      cases h
    | ok r =>
      obtain ⟨db₁, n⟩ := r
      rw [hupdate] at h
      obtain rfl : db₁ = db' := Except.ok.inj h
      obtain ⟨t, t', -, -, rfl⟩ := updateArch_eq_ok hupdate
      rfl

end Database

/-- The rows of the annotations of a binary, in the database in a file. -/
def Directory.rowsOf (d : Directory) (q : Path) (binary : String) : List AnnotationRow :=
  Database.annotationRows (((d.databaseOf? q).bind Database.annotations).getD []) binary

theorem Directory.rowsOf_put {d : Directory} {place : Place} {before db : Database}
    {binary : String} (hfile : d.fileAt? place = some (.database before))
    (h : Database.annotationRows (db.annotations.getD []) binary =
      Database.annotationRows (before.annotations.getD []) binary) (q : Path) :
    (d.put place (.database db)).rowsOf q binary = d.rowsOf q binary := by
  unfold rowsOf databaseOf?
  rw [read?_put]
  split_ifs with hq
  · have hread : d.read? q = some (.database before) := by
      rw [read?, hq, Option.bind_some, hfile]
    rw [hread]
    exact h
  · rfl

/-- **A database that keeps the rows of the open project** keeps those that were there before. -/
theorem Opening.rowsOf_put {r : Registry} {root : Path} {binary : String} {d : Directory}
    {p : Project} {place : Place} {image : Image} {stored : List Annotation}
    (h : Opening r root binary d p place image stored) {db : Database} {other : String}
    (hrows : Database.annotationRows (db.annotations.getD []) other =
      Database.annotationRows (p.database.annotations.getD []) other) (q : Path) :
    (d.put place (.database db)).rowsOf q other = d.rowsOf q other := by
  obtain ⟨before, db₀, b, hfile, htables, -, -, -, hrecorded⟩ := h.held
  refine Directory.rowsOf_put hfile ?_ q
  rw [hrows, Database.annotations_of_recorded hrecorded,
    Database.annotations_of_openTables htables]

/-! ### The command -/

namespace Command

open Project Session

section Annotate
variable {r : Registry} {root : Path} {binary : String} {w : Workspace} {p : Project}
  {place : Place} {image : Image} {stored : List Annotation}
  (h : Opening r root binary w.directory p place image stored) {kind address : String}
  {fields : Option String}
include h

/-- What is asked for is stored behind the annotations of the opened binary. -/
theorem run_annotate {n : Annotation} (hn : requested kind address fields = .ok n) :
    ∃ db, p.database.saveAnnotations binary (listed stored image ++ [n]) = .ok db ∧
      (run (annotate r root binary kind address fields) : StateM Workspace Printed) w =
        (⟨[addedLine (announced (listed stored image) n)], none⟩,
          { w with directory := w.directory.put place (.database db) }) := by
  have horder : (openSession {} stored image).annotations.InOrder := mergeImage_inOrder _ image
  obtain ⟨a, ha, hmade⟩ := requested_eq_ok hn
  have hadded := added_insert (s := openSession {} stored image) rfl n
  obtain ⟨db, hsave, hwrite⟩ := gives_saveAnnotations_of h (listed stored image ++ [n])
  refine ⟨db, hsave, ?_⟩
  apply Gives.run
  unfold annotate
  rw [gives_bind_of (gives_openBinary_of h), gives_bind_of (gives_ofResult.mpr ⟨ha, rfl, rfl⟩),
    gives_bind_of (gives_annotated hmade), hadded]
  rw [gives_bind_of (gives_ofResult.mpr ⟨rfl, rfl, rfl⟩)]
  simp only [AnnotationStore.annotations_reindex, AnnotationStore.annotations_insert,
    annotations_openSession, horder.get?_insert]
  rw [gives_bind_of hwrite]
  exact gives_print _

/-- If nothing can be made of what is asked for, the binary has been opened and nothing else. -/
theorem run_annotate_refused {f : Failure} (hf : requested kind address fields = .error f) :
    (run (annotate r root binary kind address fields) : StateM Workspace Printed) w =
      (⟨[], some f⟩, { w with directory := w.directory.put place (.database p.database) }) := by
  apply Fails.run
  unfold annotate
  rw [fails_bind_of (gives_openBinary_of h)]
  rcases requested_eq_error hf with ⟨e, he, rfl⟩ | ⟨a, ha, hrest⟩
  · rw [he]
    exact (fails_ofResult _ _).bind
  · rw [fails_bind_of (gives_ofResult.mpr ⟨ha, rfl, rfl⟩)]
    rcases hrest with ⟨hnone, rfl⟩ | ⟨e, he, rfl⟩
    · exact (fails_annotated hnone).bind
    · rw [fails_bind_of (gives_annotated he)]
      exact (fails_ofResult _ _).bind

theorem gives_openWith_of_save {as : List Annotation} {db : Database}
    (hsave : p.database.saveAnnotations binary as = .ok db) (config : SessionConfig) :
    Gives (openWith r root binary config) []
      { w with directory := w.directory.put place (.database db) }
      ({ p with database := db }, openSession config as image) []
      { w with directory := w.directory.put place (.database db) } := by
  refine gives_openWith.mpr ⟨place, image, as, h.save hsave, rfl, rfl, ?_⟩
  rw [Directory.put_put]

theorem rowsOf_of_save {as : List Annotation} {db : Database}
    (hsave : p.database.saveAnnotations binary as = .ok db) {other : String} (hne : other ≠ binary)
    (q : Path) :
    (w.directory.put place (.database db)).rowsOf q other = w.directory.rowsOf q other := by
  obtain ⟨rows, hrows, rfl⟩ := Database.saveAnnotations_eq_ok hsave
  refine h.rowsOf_put ?_ q
  rw [hrows]
  exact Database.annotationRows_others rows as hne

end Annotate

/-- **Annotating appends.** Let a binary be opened. If the arguments ask for an annotation, the
command adds it, before or after the binary was opened; the next time, with whatever settings, the
binary has the annotations that it had and this one behind them; and those of the other binaries
stay. If they do not, the command fails with what is wrong about them, and the annotations of all
binaries stay. The line that is printed is that of the annotation, as long as there are words for
the handles. -/
theorem open_after_annotate {r : Registry} {root : Path} {binary : String} {config : SessionConfig}
    {w w₁ : Workspace} {p : Project} {s : Session}
    (h : Gives (openWith r root binary config) [] w (p, s) [] w₁) (kind address : String)
    (fields : Option String) :
    (∀ n, requested kind address fields = .ok n → ∃ w₂ m,
      (∀ w₀, w₀ = w ∨ w₀ = w₁ →
        (run (annotate r root binary kind address fields) : StateM Workspace Printed) w₀ =
          (⟨[addedLine m], none⟩, w₂)) ∧
      (s.annotations.annotations.length < UInt64.size → m = n) ∧
      (∀ config', ∃ p' s', Gives (openWith r root binary config') [] w₂ (p', s') [] w₂ ∧
        s'.annotations.annotations = s.annotations.annotations ++ [n]) ∧
      ∀ q other, other ≠ binary → w₂.directory.rowsOf q other = w.directory.rowsOf q other) ∧
    ∀ f, requested kind address fields = .error f →
      (∀ w₀, w₀ = w ∨ w₀ = w₁ →
        (run (annotate r root binary kind address fields) : StateM Workspace Printed) w₀ =
          (⟨[], some f⟩, w₁)) ∧
      ∀ q other, w₁.directory.rowsOf q other = w.directory.rowsOf q other := by
  obtain ⟨place, image, stored, hopening, rfl, -, rfl⟩ := gives_openWith.mp h
  rw [annotations_openSession]
  refine ⟨fun n hn => ?_, fun f hf => ⟨?_, fun q other => hopening.rowsOf_put rfl q⟩⟩
  · obtain ⟨db, hsave, hrun⟩ := run_annotate hopening hn
    refine ⟨_, _, ?_, fun hlt => announced_eq hlt n,
      fun config' => ⟨_, _, gives_openWith_of_save hopening hsave config', ?_⟩,
      fun q other hne => rowsOf_of_save hopening hsave hne q⟩
    · rintro w₀ (rfl | rfl)
      · exact hrun
      · obtain ⟨db', hsave', hrun'⟩ := run_annotate
          (w := { w with directory := w.directory.put place (.database p.database) })
          hopening.again hn
        cases hsave.symm.trans hsave'
        rw [Directory.put_put] at hrun'
        exact hrun'
    · rw [annotations_openSession, listed_append]
  · rintro w₀ (rfl | rfl)
    · exact run_annotate_refused hopening hf
    · have hrun := run_annotate_refused
        (w := { w with directory := w.directory.put place (.database p.database) })
        hopening.again hf
      rw [Directory.put_put] at hrun
      exact hrun

namespace Firmware

/-- An entry point is added where the image has one; and a kind that there is not is refused. -/
theorem entry_added : ∃ w₁ w₂ p s,
    (run (annotate .builtin root "fw" "entrypoint" "0x10" none) :
        StateM Workspace Printed) workspace =
      (⟨["Added entrypoint at 0x00000010: sub_10"], none⟩, w₂) ∧
    Gives (openBinary .builtin root "fw") [] w₂ (p, s) [] w₂ ∧
    s.annotations.annotations = [note, entry, ⟨0x10, .entryPoint "sub_10"⟩] ∧
    (run (annotate .builtin root "fw" "label" "0x10" none) : StateM Workspace Printed) workspace =
      (⟨[], some (refusal (.invalidKind "label"))⟩, w₁) ∧
    ∀ q other, w₁.directory.rowsOf q other = workspace.directory.rowsOf q other := by
  have hopen : Gives (openWith .builtin root "fw" {}) [] workspace _ [] _ :=
    gives_openBinary_of opening
  have hasked : requested "entrypoint" "0x10" none = .ok ⟨0x10, .entryPoint "sub_10"⟩ := by
    decide +kernel
  have hrefused : requested "label" "0x10" none = .error (refusal (.invalidKind "label")) := by
    decide +kernel
  obtain ⟨w₂, m, hrun, hm, hnext, -⟩ :=
    (open_after_annotate hopen "entrypoint" "0x10" none).1 _ hasked
  cases hm (by decide)
  obtain ⟨p, s, hagain, hs⟩ := hnext {}
  obtain ⟨hfail, hrows⟩ := (open_after_annotate hopen "label" "0x10" none).2 _ hrefused
  have hline : addedLine ⟨0x10, .entryPoint "sub_10"⟩ =
      "Added entrypoint at 0x00000010: sub_10" := by decide +kernel
  rw [← hline]
  exact ⟨_, w₂, p, s, hrun _ (.inl rfl), hagain, hs, hfail _ (.inl rfl), hrows⟩

end Firmware

end Command

end FlowState
