import FlowState.Proofs.AnnotationFiles
import FlowState.Proofs.RecordDocuments

/-! # Annotations in YAML files

An annotation is printed as a record in lines, and the lines are read as the document of that
record (`Yaml.read?_print`). What is left are the scalars, whose type the reader has to find out:
the digits of an address are a word again (`Yaml.word?_toDigits`), and a text is written without
quotation marks only if it stands for itself (`Yaml.value?_of_not_isTyped`). So the annotations that
are saved to a YAML file are the ones that are loaded from it, as from a JSON file. -/

namespace FlowState

/-! ### Words -/

theorem Text.natOfDigits?_toDigits (n : Nat) : natOfDigits? 10 (Nat.toDigits 10 n) = some n :=
  (natOfDigits?_eq_some_iff (by decide)).mpr (denotes_toDigits (by decide) n)

namespace Yaml

/-- The digits of a number have no sign, no mark of a base and no zero in front of them. -/
theorem toDigits_unmarked (n : Nat) :
    Text.dropPlus (Nat.toDigits 10 n) = Nat.toDigits 10 n ∧ marked? (Nat.toDigits 10 n) = none ∧
    isSigned (Nat.toDigits 10 n) = false ∧ isPaddedDigits (Nat.toDigits 10 n) = false := by
  by_cases hn : n = 0
  · subst hn
    decide
  obtain ⟨d, ds, hds, hdigit⟩ := Json.exists_digit n
  have hplus : d ≠ '+' := ne_of_isDigit hdigit rfl
  have hminus : d ≠ '-' := ne_of_isDigit hdigit rfl
  have hzero : d ≠ '0' := by
    rintro rfl
    exact Json.head_toDigits hn (by rw [hds]; rfl)
  have hsign : isSign d = false := by simp [isSign, hplus, hminus]
  rw [hds]
  refine ⟨?_, ?_, hsign, ?_⟩
  · simp [Text.dropPlus, hplus]
  · simp [marked?, hzero]
  · simp [isPaddedDigits, dropSign, hsign, hzero]

theorem natural?_toDigits {bound n : Nat} (h : n < bound) :
    natural? bound (Nat.toDigits 10 n) = some n := by
  obtain ⟨hplus, hmarked, hsigned, hpadded⟩ := toDigits_unmarked n
  simp only [natural?, hplus, hmarked, hsigned, hpadded, Text.natOfDigits?_toDigits,
    Option.filter_none, Option.filter_some, h, decide_true, if_true, Bool.or_false,
    Bool.false_eq_true, if_false]

theorem word?_toDigits (a : UInt64) : word? (Nat.toDigits 10 a.toNat) = some a := by
  rw [word?, natural?_toDigits a.toNat_lt, Option.bind_some, Text.wordOfNat?_toNat]

theorem wordChars_word (a : UInt64) : wordChars (.word a) = Nat.toDigits 10 a.toNat := by
  simp [wordChars, Json.word, Json.ofNat, JsonNumber.ofNat, JsonNumber.chars]

theorem value?_toDigits (a : UInt64) : value? (Nat.toDigits 10 a.toNat) = some (.word a) := by
  obtain ⟨d, ds, hds, hdigit⟩ := Json.exists_digit a.toNat
  have hne (c : Char) (hc : c.isDigit = false) : d ≠ c := ne_of_isDigit hdigit hc
  have hnull : isNull (d :: ds) = false := by
    simp [isNull, hne 'n' rfl, hne 'N' rfl, hne '~' rfl]
  have hbool : bool? (d :: ds) = none := by
    simp [bool?, hne 't' rfl, hne 'T' rfl, hne 'f' rfl, hne 'F' rfl]
  have hinteger : integer? (Nat.toDigits 10 a.toNat) = some (some (.ofNat a.toNat)) := by
    rw [integer?, natural?_toDigits a.toNat_lt]
  rw [hds] at hinteger ⊢
  simp only [value?, List.isEmpty_cons, hnull, hbool, hinteger, Bool.or_false, Bool.false_eq_true,
    if_false, Option.map_some]
  rfl

/-- A scalar that is not typed stands for its own text. -/
theorem value?_of_not_isTyped {s : List Char} (h : isTyped s = false) :
    value? s = some (.text (String.ofList s)) := by
  simp only [isTyped, Bool.or_eq_false_iff, Option.isSome_eq_false_iff, Option.isNone_iff_eq_none]
    at h
  obtain ⟨⟨⟨⟨⟨hempty, hnull⟩, hbool⟩, hinteger⟩, hpadded⟩, hfloat⟩ := h
  simp [value?, hempty, hnull, hbool, hinteger, hpadded, hfloat]

theorem not_isTyped_of_styleOf {s : List Char} (h : Scan.styleOf s = .plain) :
    isTyped s = false := by
  unfold Scan.styleOf at h
  split_ifs at h with hliteral hplain
  simp only [isPlain, Bool.and_eq_true, Bool.not_eq_true'] at hplain
  exact hplain.1.1.1.1.1.1

end Yaml

/-! ### Documents -/

namespace Document

theorem text?_ofRecord (s : String) : (ofRecord (.text s)).text? = some s := by
  rw [ofRecord, text?, String.ofList_toList]

theorem word?_ofRecord (a : UInt64) : (ofRecord (.word a)).word? = some a := by
  change Yaml.word? (Yaml.wordChars (.word a)) = some a
  rw [Yaml.wordChars_word, Yaml.word?_toDigits]

theorem named?_ofRecordMembers (ms : List (String × Json)) :
    named? (ofRecordMembers ms) = some (ms.map fun m => (m.1, ofRecord m.2)) := by
  have hmap : ofRecordMembers ms = ms.map fun m => (m.1.toList.map some, ofRecord m.2) := by
    induction ms with
    | nil => rfl
    | cons m ms ih => rw [ofRecordMembers, ofRecordMember, ih, List.map_cons]
  rw [hmap, named?_map]

theorem fields?_ofRecord (names : List String) (ms : List (String × Json)) :
    fields? names (ofRecord (.object ms)) =
      names.mapM (unique? (ms.map fun m => (m.1, ofRecord m.2))) := by
  rw [ofRecord, fields?, named?_ofRecordMembers]
  rfl

/-! ### Free-form values -/

theorem json?_text (room : Nat) (s : String) :
    json? room (ofRecord (.text s)) = some (.text s) := by
  rw [ofRecord, json?, scalarJson?]
  split_ifs with hplain
  · rw [Yaml.value?_of_not_isTyped (Yaml.not_isTyped_of_styleOf hplain), String.ofList_toList]
  · rw [String.ofList_toList]

theorem json?_word (room : Nat) (a : UInt64) :
    json? room (ofRecord (.word a)) = some (.word a) := by
  change Yaml.value? (Yaml.wordChars (.word a)) = _
  rw [Yaml.wordChars_word, Yaml.value?_toDigits]

theorem jsonMembers?_ofRecordMembers {room : Nat} {ms : List (String × Json)}
    (h : ∀ m ∈ ms, json? room (ofRecord m.2) = some m.2) :
    jsonMembers? room (ofRecordMembers ms) = some ms := by
  induction ms with
  | nil => rfl
  | cons m ms ih =>
    have hmember : jsonMember? room (ofRecordMember m) = some m := by
      rw [ofRecordMember, jsonMember?, Text.charsOfGlyphs?_map_some, h m (by simp)]
      simp [String.ofList_toList]
    rw [ofRecordMembers, jsonMembers?, hmember, ih fun n hn => h n (by simp [hn])]
    rfl

theorem json?_object {room : Nat} (hroom : room ≠ 0) {ms : List (String × Json)}
    (h : ∀ m ∈ ms, json? (room - 1) (ofRecord m.2) = some m.2) :
    json? room (ofRecord (.object ms)) = some (.object ms) := by
  rw [ofRecord, json?, jsonMembers?_ofRecordMembers h]
  simp [hroom]

end Document

namespace Payload

theorem json?_toFields (p : Payload) {room : Nat} (h : room ≠ 0) :
    Document.json? room (Document.ofRecord p.toFields) = some p.toFields := by
  cases p with
  | comment text => exact Document.json?_object h (by simp [Document.json?_text])
  | entryPoint name => exact Document.json?_object h (by simp [Document.json?_text])
  | instructionType k => exact Document.json?_object h (by simp [Document.json?_text])
  | loadReference r =>
    obtain ⟨t, a, d⟩ := r
    refine Document.json?_object h ?_
    rcases a with _ | a <;> rcases d with _ | d <;> simp [Document.json?_text, Document.json?_word]

end Payload

/-! ### Lines -/

/-- The names of a record and of its fields are plain and short. -/
theorem AnnotationRecord.isMember_key {k : String} (v : Json)
    (hk : k ∈ ["type", "address", "fields", "comment", "name", "instruction_type", "addr_load",
      "data_load", "update_type"]) : Yaml.isMember (k, v) = Yaml.isRecord v := by
  have hkey : Yaml.isPlain k.toList = true ∧ k.toList.length ≤ Yaml.Scan.keyLimit := by
    revert k
    decide +kernel
  rw [Yaml.isMember, hkey.1, decide_eq_true hkey.2, Bool.true_and, Bool.true_and]

theorem Payload.isRecord_toFields (p : Payload) : Yaml.isRecord p.toFields = true := by
  have hword (a : UInt64) : Yaml.isRecord (.word a) = true := rfl
  cases p with
  | comment text =>
    simp [toFields, Yaml.isRecord, Yaml.areMembers, AnnotationRecord.isMember_key]
  | entryPoint name =>
    simp [toFields, Yaml.isRecord, Yaml.areMembers, AnnotationRecord.isMember_key]
  | instructionType k =>
    simp [toFields, Yaml.isRecord, Yaml.areMembers, AnnotationRecord.isMember_key]
  | loadReference r =>
    obtain ⟨t, a, d⟩ := r
    rcases a with _ | a <;> rcases d with _ | d <;>
      simp [toFields, Yaml.isRecord, Yaml.areMembers, AnnotationRecord.isMember_key, hword]

namespace AnnotationRecord

theorem isItem_ofNote (a : Annotation) : Yaml.Scan.IsItem (ofNote a).toJson := by
  have haddress : Yaml.isRecord (.word (ofNote a).address) = true := rfl
  have hfields : Yaml.isRecord (ofNote a).fields = true := a.payload.isRecord_toFields
  refine ⟨_, _, rfl, ?_⟩
  simp [Yaml.areMembers, isMember_key, Yaml.isRecord, haddress, hfields]

theorem ofDocument?_ofRecord (a : Annotation) {room : Nat} (h : room ≠ 0) :
    ofDocument? room (Document.ofRecord (ofNote a).toJson) = some (ofNote a) := by
  have hfields := a.payload.json?_toFields h
  unfold ofDocument? toJson members
  rw [Document.fields?_ofRecord]
  simp [Document.unique?, Document.required?, Document.withDefault?, Document.text?_ofRecord,
    Document.word?_ofRecord, ofNote, hfields]

end AnnotationRecord

/-! ### Files -/

namespace AnnotationFile

theorem records_print_yaml (as : List Annotation) :
    records .yaml (print .yaml as).toList = .ok (as.map AnnotationRecord.ofNote) := by
  have hitems : ∀ x ∈ as.map fun a => (AnnotationRecord.ofNote a).toJson, Yaml.Scan.IsItem x := by
    simpa using fun a _ => AnnotationRecord.isItem_ofNote a
  have hread := Yaml.read?_print hitems
  have hroom : fieldRoom .yaml ≠ 0 := by decide
  have hlist : (Document.sequence .absent ((as.map fun a =>
      (AnnotationRecord.ofNote a).toJson).map Document.ofRecord)).listOf?
        (AnnotationRecord.ofDocument? (fieldRoom .yaml)) =
          some (as.map AnnotationRecord.ofNote) := by
    rw [List.map_map]
    exact Document.mapM_map_of_read (fun a => AnnotationRecord.ofDocument?_ofRecord a hroom) as
  unfold records print
  simp only [hread, Option.bind_some, hlist]

section SavedYaml
variable {p : Path} (hp : p.hasExtension FileFormat.yamlWords = true) (as : List Annotation)
include hp

theorem format_yaml : format p = .ok .yaml := by
  have hjson : p.hasExtension FileFormat.jsonWords = false := by
    unfold Path.hasExtension at hp ⊢
    cases he : p.extension? with
    | none => rfl
    | some e =>
      simp only [he, FileFormat.yamlWords, List.contains_iff_mem, List.mem_cons,
        List.not_mem_nil, or_false] at hp
      rcases hp with h | h <;> simp only [h] <;> decide
  simp [format, FileFormat.ofPath?, hjson, hp]

theorem read_print_yaml : read p (some (Text.toBytes (print .yaml as))) = .ok as :=
  read_of_records (format_yaml hp) as (records_print_yaml as)

/-- **A YAML file of annotations gives them back.** Whatever the annotations are, they have a text,
and reading that text gives the same annotations in the same order. So does loading the file after
they were saved to it, and saving fails only where the files do not take the text. -/
theorem load_of_save_yaml :
    (∃ text, write p as = .ok text ∧ read p (some (Text.toBytes text)) = .ok as) ∧
    (∀ w w' : Workspace, (save p as : StateM Workspace _) w = (.ok (), w') →
      (load p : StateM Workspace _) w' = (.ok as, w')) ∧
    ∀ (w w' : Workspace) (e : AnnotationError),
      (save p as : StateM Workspace _) w = (.error e, w') → ∃ q, e = .io q := by
  refine ⟨⟨_, write_of_format (format_yaml hp) as, read_print_yaml hp as⟩, ?_, ?_⟩
  · intro w w' hsaved
    rcases save_of_format_cases (format_yaml hp) as w with ⟨w₁, d, hw, h⟩ | ⟨q, w₁, h⟩
    · obtain rfl : { w₁ with directory := d } = w' := congrArg Prod.snd (h.symm.trans hsaved)
      have hcontent : d.read? p = some (.bytes (Text.toBytes (print .yaml as))) :=
        Directory.read?_of_write? hw
      change (read p ((d.read? p).map FileContent.toBytes), _) = _
      rw [hcontent, Option.map_some]
      exact congrArg (·, _) (read_print_yaml hp as)
    · cases h.symm.trans hsaved
  · intro w w' e hfailed
    rcases save_of_format_cases (format_yaml hp) as w with ⟨w₁, d, hw, h⟩ | ⟨q, w₁, h⟩
    · cases h.symm.trans hfailed
    · cases h.symm.trans hfailed
      exact ⟨q, rfl⟩

end SavedYaml

namespace Scalars

/-- Texts that YAML could take for something else, and annotations of the other kinds. -/
def notes : List Annotation :=
  [⟨0, .comment ""⟩, ⟨1, .comment "0x1F"⟩, ⟨2, .comment "~"⟩, ⟨3, .comment "true"⟩,
    ⟨4, .comment " a: b # c "⟩, ⟨5, .comment "- one\n\n  two \n\tthree\n"⟩,
    ⟨6, .comment "\x00 \x7f \"quoted\" it's é 😀"⟩, ⟨0xffffffffffffffff, .entryPoint "1e3"⟩,
    ⟨0x8000000000000000, .instructionType .return⟩,
    ⟨16, .loadReference ⟨.constInjection, none, some 0xfffffffffffffffe⟩⟩]

/-- A file in a folder that is not there yet. -/
def file : Path := ⟨"notes/all.yml"⟩

theorem notes_saved_yaml : file.hasExtension FileFormat.yamlWords = true ∧
    ∃ w', (save file notes : StateM Workspace _) Kinds.workspace = (.ok (), w') ∧
      (load file : StateM Workspace _) w' = (.ok notes, w') := by
  have hp : file.hasExtension FileFormat.yamlWords = true := rfl
  have hsaved : ∃ w', (save file notes : StateM Workspace _) Kinds.workspace = (.ok (), w') := by
    have hmade : (makeFolder file : StateM Workspace _) Kinds.workspace =
        (.ok (), ⟨⟨[['w']], [[['w']], [['w'], "notes".toList]], []⟩, ""⟩) := rfl
    have hplace : (⟨[['w']], [[['w']], [['w'], "notes".toList]], []⟩ : Directory).place? file =
        some [['w'], "notes".toList, "all.yml".toList] := rfl
    rw [save_of_format (format_yaml hp) notes hmade]
    simp only [Directory.write?, hplace]
    exact ⟨_, rfl⟩
  obtain ⟨w', hw'⟩ := hsaved
  exact ⟨hp, w', hw', (load_of_save_yaml hp notes).2.1 Kinds.workspace w' hw'⟩

end Scalars

end AnnotationFile

end FlowState
