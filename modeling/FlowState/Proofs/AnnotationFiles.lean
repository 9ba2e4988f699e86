import FlowState.Annotation.Folder
import FlowState.Proofs.JsonText
import FlowState.Proofs.WrittenFiles

/-! # Annotations and their files

An annotation is got back from its fields (`Payload.ofFields_toFields`), its record from the
document of the record, and a JSON file holds the documents of all records in their order
(`AnnotationFile.records_print`). So the annotations that are saved to a JSON file are the ones that
are loaded from it. -/

namespace FlowState

/-! ### Fields -/

theorem Json.word?_word (a : UInt64) : (Json.word a).word? = some a :=
  Text.wordOfNat?_toNat a

theorem Json.optionalWord?_word (a : UInt64) : (Json.word a).optionalWord? = some (some a) := by
  change (Json.word a).word?.map some = _
  rw [Json.word?_word, Option.map_some]

namespace Payload

theorem read?_loadReference (r : LoadReference) :
    read? .loadReference (toFields (.loadReference r)) = some (.loadReference r) := by
  obtain ⟨t, a, d⟩ := r
  have ht : (Json.text t.name).updateType? = some t := UpdateType.ofName?_name t
  rcases a with _ | a <;> rcases d with _ | d <;>
    simp [toFields, read?, Json.fields?, Json.member?, readField, ht, Json.optionalWord?_word]

/-- **A payload is got back from its fields.** -/
theorem ofFields_toFields (p : Payload) : ofFields p.kind p.toFields = .ok p := by
  have hread : read? p.kind p.toFields = some p := by
    cases p with
    | comment text => rfl
    | entryPoint name => rfl
    | instructionType k =>
      simp [kind, toFields, read?, Json.fields?, Json.member?, readField, Json.text?,
        InstructionKind.ofDotted_dotted]
    | loadReference r => exact read?_loadReference r
  have hfields : ∃ ms, p.toFields = .object ms := by cases p <;> exact ⟨_, rfl⟩
  obtain ⟨ms, hms⟩ := hfields
  unfold ofFields
  rw [hms] at hread ⊢
  simp only [hread]

/-- The fields are one level deep, and their numbers are words. -/
theorem fits_toFields (p : Payload) {room : Nat} (h : room ≠ 0) : p.toFields.fits room = true := by
  cases p with
  | comment text => simp [toFields, Json.fits, Json.fitsMembers, Json.fitsMember, h]
  | entryPoint name => simp [toFields, Json.fits, Json.fitsMembers, Json.fitsMember, h]
  | instructionType k => simp [toFields, Json.fits, Json.fitsMembers, Json.fitsMember, h]
  | loadReference r =>
    obtain ⟨t, a, d⟩ := r
    rcases a with _ | a <;> rcases d with _ | d <;>
      simp [toFields, Json.fits, Json.fitsMembers, Json.fitsMember, Json.fits_word, h]

end Payload

theorem Annotation.ofFields_toFields (a : Annotation) :
    ofFields a.kind.name a.address a.payload.toFields = .ok a := by
  unfold ofFields
  rw [AnnotationKind.ofName_name]
  change (Payload.ofFields a.payload.kind a.payload.toFields >>= _) = _
  rw [Payload.ofFields_toFields]
  rfl

/-! ### Records -/

namespace AnnotationRecord

theorem read_ofNote (a : Annotation) : (ofNote a).read = .ok a := a.ofFields_toFields

theorem mapM_read_ofNote (as : List Annotation) : (as.map ofNote).mapM read = .ok as := by
  have hread : read ∘ ofNote = fun a => pure a := funext read_ofNote
  rw [List.mapM_map, hread, List.mapM_pure, List.map_id']
  rfl

end AnnotationRecord

/-! ### Documents -/

namespace Document

theorem text?_ofJson (s : String) : (ofJson (.text s)).text? = some s := by
  rw [ofJson, text?, Text.charsOfGlyphs?_map_some, Option.map_some, String.ofList_toList]

theorem word?_ofJson (a : UInt64) : (ofJson (.word a)).word? = some a := by
  change (ofJson (.number (.ofNat a.toNat))).word? = some a
  rw [ofJson]
  exact Json.word?_word a

/-- What is read item by item is got back item by item. -/
theorem mapM_map_of_read {α β γ : Type} {read : γ → Option β} {f : α → γ} {g : α → β}
    (h : ∀ a, read (f a) = some (g a)) (as : List α) : (as.map f).mapM read = some (as.map g) := by
  have hread : read ∘ f = fun a => pure (g a) := funext h
  rw [List.mapM_map, hread, List.mapM_pure]
  rfl

/-- Entries with texts as names have these names, whatever stands there. -/
theorem named?_map (f : Json → Document) (ms : List (String × Json)) :
    named? (ms.map fun m => (m.1.toList.map some, f m.2)) =
      some (ms.map fun m => (m.1, f m.2)) := by
  refine mapM_map_of_read (fun m => ?_) ms
  rw [Text.charsOfGlyphs?_map_some, Option.map_some, String.ofList_toList]

theorem named?_ofMembers (ms : List (String × Json)) :
    named? (ofMembers ms) = some (ms.map fun m => (m.1, ofJson m.2)) := by
  have hmap : ofMembers ms = ms.map fun m => (m.1.toList.map some, ofJson m.2) := by
    induction ms with
    | nil => rfl
    | cons m ms ih => rw [ofMembers, ofMember, ih, List.map_cons]
  rw [hmap, named?_map]

theorem fields?_ofJson (names : List String) (ms : List (String × Json)) :
    fields? names (ofJson (.object ms)) =
      names.mapM (unique? (ms.map fun m => (m.1, ofJson m.2))) := by
  rw [ofJson, fields?, named?_ofMembers]
  rfl

theorem listOf?_ofItems {α β : Type} {read : Document → Option β} {f : α → Json} {g : α → β}
    (h : ∀ a, read (ofJson (f a)) = some (g a)) (as : List α) :
    (ofJson (.array (as.map f))).listOf? read = some (as.map g) := by
  rw [ofJson, ofItems_eq_map, List.map_map]
  exact mapM_map_of_read h as

end Document

theorem AnnotationRecord.ofDocument?_toJson {r : AnnotationRecord} {room : Nat}
    (h : r.fields.fits room = true) :
    ofDocument? room (Document.ofJson r.toJson) = some r := by
  have hfields := Json.json?_ofJson room r.fields h
  unfold ofDocument? toJson members
  rw [Document.fields?_ofJson]
  simp [Document.unique?, Document.required?, Document.withDefault?, Document.text?_ofJson,
    Document.word?_ofJson, hfields]

theorem AnnotationRecord.ofDocument?_ofNote (a : Annotation) {room : Nat} (h : room ≠ 0) :
    ofDocument? room (Document.ofJson (ofNote a).toJson) = some (ofNote a) :=
  ofDocument?_toJson (a.payload.fits_toFields h)

/-! ### Files -/

namespace AnnotationFile

theorem records_print (as : List Annotation) :
    records .json (print .json as).toList = .ok (as.map AnnotationRecord.ofNote) := by
  have hread := Json.read?_pretty (.array (as.map fun a => (AnnotationRecord.ofNote a).toJson))
  have hlist := Document.listOf?_ofItems (f := fun a => (AnnotationRecord.ofNote a).toJson)
    (fun a => AnnotationRecord.ofDocument?_ofNote a (show fieldRoom .json ≠ 0 by decide)) as
  unfold Text.glyphsOf at hread
  unfold records print
  simp only [hread, Option.bind_some, hlist]

theorem makeFolder_cases (p : Path) (w : Workspace) :
    (∃ w₁, (makeFolder p : StateM Workspace _) w = (.ok (), w₁)) ∨
    ∃ q w₁, (makeFolder p : StateM Workspace _) w = (.error (.io q), w₁) := by
  unfold makeFolder
  cases p.parent?.filter fun q => !q.text.isEmpty with
  | none => exact .inl ⟨w, rfl⟩
  | some q =>
    by_cases hmade : (w.directory.createFolders q).2 = true
    · refine .inl ⟨{ w with directory := (w.directory.createFolders q).1 }, ?_⟩
      simp only [bind, StateT.bind, Files.createFolders, hmade]
      rfl
    · refine .inr ⟨q.text, { w with directory := (w.directory.createFolders q).1 }, ?_⟩
      simp only [bind, StateT.bind, Files.createFolders, hmade]
      rfl

section Formatted
variable {p : Path} {f : FileFormat} (hf : format p = .ok f) (as : List Annotation)
include hf

theorem write_of_format : write p as = .ok (print f as) := by
  unfold write
  rw [hf]
  rfl

theorem read_of_records
    (h : records f (print f as).toList = .ok (as.map AnnotationRecord.ofNote)) :
    read p (some (Text.toBytes (print f as))) = .ok as := by
  unfold read
  rw [hf, Option.bind_some, Text.ofBytes?_toBytes]
  change (records f (print f as).toList >>= fun rs => rs.mapM AnnotationRecord.read) = _
  rw [h]
  exact AnnotationRecord.mapM_read_ofNote as

/-- What becomes of a workspace, once the folders are made. -/
theorem save_of_format {w w₁ : Workspace}
    (h : (makeFolder p : StateM Workspace _) w = (.ok (), w₁)) :
    (save p as : StateM Workspace _) w =
      match w₁.directory.write? p (.bytes (Text.toBytes (print f as))) with
      | some d => (.ok (), { w₁ with directory := d })
      | none => (.error (.io p.text), w₁) := by
  unfold save
  rw [write_of_format hf]
  simp only [bind, StateT.bind, h, Files.write]
  cases w₁.directory.write? p (.bytes (Text.toBytes (print f as))) with
  | some d => rfl
  | none => rfl

/-- The text of the annotations has been written, or the files did not take it. -/
theorem save_of_format_cases (w : Workspace) :
    (∃ (w₁ : Workspace) (d : Directory),
      w₁.directory.write? p (.bytes (Text.toBytes (print f as))) = some d ∧
      (save p as : StateM Workspace _) w = (.ok (), { w₁ with directory := d })) ∨
    ∃ q w', (save p as : StateM Workspace _) w = (.error (.io q), w') := by
  rcases makeFolder_cases p w with ⟨w₁, hmade⟩ | ⟨q, w₁, hmade⟩
  · rw [save_of_format hf as hmade]
    cases hw : w₁.directory.write? p (.bytes (Text.toBytes (print f as))) with
    | some d => exact .inl ⟨w₁, d, hw, rfl⟩
    | none => exact .inr ⟨p.text, w₁, rfl⟩
  · refine .inr ⟨q, w₁, ?_⟩
    unfold save
    rw [write_of_format hf]
    simp only [bind, StateT.bind, hmade]
    rfl

end Formatted

section Saved
variable {p : Path} (hp : p.hasExtension FileFormat.jsonWords = true) (as : List Annotation)
include hp

theorem format_json : format p = .ok .json := by
  simp [format, FileFormat.ofPath?, hp]

theorem write_json : write p as = .ok (print .json as) := write_of_format (format_json hp) as

theorem read_print : read p (some (Text.toBytes (print .json as))) = .ok as :=
  read_of_records (format_json hp) as (records_print as)

theorem save_of_made {w w₁ : Workspace} (h : (makeFolder p : StateM Workspace _) w = (.ok (), w₁)) :
    (save p as : StateM Workspace _) w =
      match w₁.directory.write? p (.bytes (Text.toBytes (print .json as))) with
      | some d => (.ok (), { w₁ with directory := d })
      | none => (.error (.io p.text), w₁) :=
  save_of_format (format_json hp) as h

theorem save_cases (w : Workspace) :
    (∃ (w₁ : Workspace) (d : Directory),
      w₁.directory.write? p (.bytes (Text.toBytes (print .json as))) = some d ∧
      (save p as : StateM Workspace _) w = (.ok (), { w₁ with directory := d })) ∨
    ∃ q w', (save p as : StateM Workspace _) w = (.error (.io q), w') :=
  save_of_format_cases (format_json hp) as w

/-- **A JSON file of annotations gives them back.** Whatever the annotations are, they have a text,
and reading that text gives the same annotations in the same order. So does loading the file after
they were saved to it, and saving fails only where the files do not take the text. -/
theorem load_of_save_json :
    (∃ text, write p as = .ok text ∧ read p (some (Text.toBytes text)) = .ok as) ∧
    (∀ w w' : Workspace, (save p as : StateM Workspace _) w = (.ok (), w') →
      (load p : StateM Workspace _) w' = (.ok as, w')) ∧
    ∀ (w w' : Workspace) (e : AnnotationError),
      (save p as : StateM Workspace _) w = (.error e, w') → ∃ q, e = .io q := by
  refine ⟨⟨_, write_json hp as, read_print hp as⟩, ?_, ?_⟩
  · intro w w' hsaved
    rcases save_cases hp as w with ⟨w₁, d, hw, h⟩ | ⟨q, w₁, h⟩
    · obtain rfl : { w₁ with directory := d } = w' := congrArg Prod.snd (h.symm.trans hsaved)
      have hcontent : d.read? p = some (.bytes (Text.toBytes (print .json as))) :=
        Directory.read?_of_write? hw
      change (read p ((d.read? p).map FileContent.toBytes), _) = _
      rw [hcontent, Option.map_some]
      exact congrArg (·, _) (read_print hp as)
    · cases h.symm.trans hsaved
  · intro w w' e hfailed
    rcases save_cases hp as w with ⟨w₁, d, hw, h⟩ | ⟨q, w₁, h⟩
    · cases h.symm.trans hfailed
    · cases h.symm.trans hfailed
      exact ⟨q, rfl⟩

end Saved

namespace Kinds

/-- An annotation of each kind, with texts and addresses that are hard to write. -/
def notes : List Annotation :=
  [⟨0, .comment "a \"quoted\" \\ text\nwith \x00, \x7f, é and 😀"⟩,
    ⟨0xffffffffffffffff, .entryPoint ""⟩,
    ⟨0x8000000000000000, .instructionType .return⟩,
    ⟨16, .loadReference ⟨.constInjection, none, some 0xfffffffffffffffe⟩⟩]

/-- A file in a folder that is not there yet. -/
def file : Path := ⟨"notes/all.json"⟩

def workspace : Workspace := ⟨.empty [['w']], ""⟩

theorem notes_saved : ∃ w', (save file notes : StateM Workspace _) workspace = (.ok (), w') ∧
    (load file : StateM Workspace _) w' = (.ok notes, w') := by
  have hp : file.hasExtension FileFormat.jsonWords = true := rfl
  have hsaved : ∃ w', (save file notes : StateM Workspace _) workspace = (.ok (), w') := by
    have hmade : (makeFolder file : StateM Workspace _) workspace =
        (.ok (), ⟨⟨[['w']], [[['w']], [['w'], "notes".toList]], []⟩, ""⟩) := rfl
    have hplace : (⟨[['w']], [[['w']], [['w'], "notes".toList]], []⟩ : Directory).place? file =
        some [['w'], "notes".toList, "all.json".toList] := rfl
    rw [save_of_made hp notes hmade]
    simp only [Directory.write?, hplace]
    exact ⟨_, rfl⟩
  obtain ⟨w', hw'⟩ := hsaved
  exact ⟨w', hw', (load_of_save_json hp notes).2.1 workspace w' hw'⟩

end Kinds

end AnnotationFile

end FlowState
