import FlowState.Proofs.AnnotationFiles
import FlowState.Proofs.Results
import FlowState.Project.Database

/-! # Annotations in the database

The annotations of a binary are rows that are numbered by their places. A row holds the fields as a
text and the address as a signed number, and both are got back from it (`annotationOfRow_row`). One
save replaces the rows of its binary and leaves all others, so after any number of saves each binary
has the annotations that were saved for it last. -/

namespace FlowState

/-! ### Rows in the order of their places -/

/-- Rows that are numbered by their places are in order. -/
theorem mergeSort_mapIdx {α β : Type} {row : Nat → α → β} {le : β → β → Bool}
    (h : ∀ i j a b, i ≤ j → le (row i a) (row j b) = true) (as : List α) :
    (as.mapIdx row).mergeSort le = as.mapIdx row := by
  apply List.mergeSort_of_pairwise
  rw [List.pairwise_iff_getElem]
  intro i j hi hj hij
  rw [List.getElem_mapIdx, List.getElem_mapIdx]
  exact h i j _ _ (by omega)

/-- Rows of one owner among the rows of others. -/
theorem filter_mapIdx_of_forall {α β : Type} {row : Nat → α → β} {p : β → Bool}
    (h : ∀ i a, p (row i a) = true) (as : List α) : (as.mapIdx row).filter p = as.mapIdx row := by
  rw [List.filter_eq_self]
  intro r hr
  obtain ⟨i, hi, rfl⟩ := List.mem_mapIdx.mp hr
  exact h i _

namespace Database

theorem annotationOfRow_row (binary : String) (n : Nat) (a : Annotation) :
    annotationOfRow (annotationRow binary n a) = .ok a := by
  have hfields : Json.ofText? a.payload.toFields.compact = some a.payload.toFields :=
    Json.ofText?_compact (a.payload.fits_toFields (by decide))
  unfold annotationOfRow annotationRow
  simp only [hfields, UInt64.toUInt64_toInt64]
  exact a.ofFields_toFields

/-! ### One save -/

section Save
variable {d d' : Database} {binary : String} {as : List Annotation}

theorem saveAnnotations_eq_ok (h : d.saveAnnotations binary as = .ok d') :
    ∃ rows, d.annotations = some rows ∧ d' = { d with
      annotations := some (rows.filter (fun r => r.binary != binary) ++
        as.mapIdx (annotationRow binary)) } := by
  unfold saveAnnotations at h
  cases hrows : d.annotations with
  | none =>
    rw [hrows] at h
    cases h
  | some rows =>
    rw [hrows] at h
    cases h
    exact ⟨rows, rfl, rfl⟩

theorem exists_saveAnnotations (h : d.annotations.isSome) (binary : String) (as : List Annotation) :
    ∃ d', d.saveAnnotations binary as = .ok d' ∧ d'.annotations.isSome := by
  obtain ⟨rows, hrows⟩ := Option.isSome_iff_exists.mp h
  unfold saveAnnotations
  rw [hrows]
  exact ⟨_, rfl, rfl⟩

theorem annotationRows_saved (rows : List AnnotationRow) (binary : String) (as : List Annotation) :
    annotationRows (rows.filter (fun r => r.binary != binary) ++ as.mapIdx (annotationRow binary))
      binary = as.mapIdx (annotationRow binary) := by
  have hothers : (rows.filter fun r => r.binary != binary).filter (fun r => r.binary == binary) =
      [] := by
    rw [List.filter_filter, List.filter_eq_nil_iff]
    intro r _
    simp
  have hnew : (as.mapIdx (annotationRow binary)).filter (fun r => r.binary == binary) =
      as.mapIdx (annotationRow binary) :=
    filter_mapIdx_of_forall (fun _ _ => by simp [annotationRow]) as
  unfold annotationRows
  rw [List.filter_append, hothers, hnew, List.nil_append]
  apply mergeSort_mapIdx
  intro i j a b hij
  simpa [annotationRow] using hij

theorem annotationRows_others (rows : List AnnotationRow) (as : List Annotation) {other : String}
    (h : other ≠ binary) :
    annotationRows (rows.filter (fun r => r.binary != binary) ++ as.mapIdx (annotationRow binary))
      other = annotationRows rows other := by
  have hothers : (rows.filter fun r => r.binary != binary).filter (fun r => r.binary == other) =
      rows.filter fun r => r.binary == other := by
    rw [List.filter_filter]
    congr 1
    funext r
    by_cases hr : r.binary = other
    · simp [hr, h]
    · simp [hr]
  have hnew : (as.mapIdx (annotationRow binary)).filter (fun r => r.binary == other) = [] := by
    rw [List.filter_eq_nil_iff]
    intro r hr
    obtain ⟨i, hi, rfl⟩ := List.mem_mapIdx.mp hr
    simpa [annotationRow] using h.symm
  unfold annotationRows
  rw [List.filter_append, hothers, hnew, List.append_nil]

/-- What was saved for a binary is loaded for it. -/
theorem loadAnnotations_of_save (h : d.saveAnnotations binary as = .ok d') :
    d'.loadAnnotations binary = .ok as := by
  obtain ⟨rows, -, rfl⟩ := saveAnnotations_eq_ok h
  change ((annotationRows _ binary).mapM annotationOfRow).mapError _ = _
  rw [annotationRows_saved, mapM_mapIdx (annotationOfRow_row binary)]
  rfl

/-- A save for a binary leaves the annotations of the others. -/
theorem loadAnnotations_of_save_other (h : d.saveAnnotations binary as = .ok d') {other : String}
    (hne : other ≠ binary) : d'.loadAnnotations other = d.loadAnnotations other := by
  obtain ⟨rows, hrows, rfl⟩ := saveAnnotations_eq_ok h
  unfold loadAnnotations
  rw [hrows]
  change ((annotationRows _ other).mapM annotationOfRow).mapError _ =
    ((annotationRows rows other).mapM annotationOfRow).mapError _
  rw [annotationRows_others rows as hne]

theorem isSome_of_loadAnnotations (h : d.loadAnnotations binary = .ok as) :
    d.annotations.isSome := by
  unfold loadAnnotations at h
  cases hrows : d.annotations with
  | none =>
    rw [hrows] at h
    cases h
  | some rows => rfl

theorem loadAnnotations_of_no_rows (h : d.annotations = some []) (binary : String) :
    d.loadAnnotations binary = .ok [] := by
  unfold loadAnnotations
  rw [h]
  change ((annotationRows [] binary).mapM annotationOfRow).mapError _ = _
  rw [annotationRows, List.filter_nil, List.mergeSort_nil]
  rfl

end Save

/-! ### Many saves -/

/-- Saves annotations for one binary after the other. -/
def saveAll (d : Database) (saves : List (String × List Annotation)) :
    Except DatabaseError Database :=
  saves.foldlM (fun d s => d.saveAnnotations s.1 s.2) d

/-- The last annotations that were saved for a binary. -/
def lastSaved? (saves : List (String × List Annotation)) (binary : String) :
    Option (List Annotation) :=
  ((saves.filter fun s => s.1 == binary).getLast?).map (·.2)

theorem lastSaved?_cons (s : String × List Annotation) (saves : List (String × List Annotation))
    (binary : String) : lastSaved? (s :: saves) binary =
      match lastSaved? saves binary with
      | some as => some as
      | none => if s.1 = binary then some s.2 else none := by
  unfold lastSaved?
  by_cases hs : s.1 = binary
  · rw [List.filter_cons_of_pos (by simpa using hs), List.getLast?_cons]
    cases (saves.filter fun s => s.1 == binary).getLast? <;> simp [hs]
  · rw [List.filter_cons_of_neg (by simpa using hs)]
    cases (saves.filter fun s => s.1 == binary).getLast? <;> simp [hs]

/-- The last save for a binary counts, and without one the binary has what it had. -/
theorem exists_saveAll {d : Database} (h : d.annotations.isSome)
    (saves : List (String × List Annotation)) :
    ∃ d', d.saveAll saves = .ok d' ∧ ∀ binary, d'.loadAnnotations binary =
      match lastSaved? saves binary with
      | some as => .ok as
      | none => d.loadAnnotations binary := by
  induction saves generalizing d with
  | nil => exact ⟨d, rfl, fun _ => rfl⟩
  | cons s saves ih =>
    obtain ⟨d₁, hsave, h₁⟩ := exists_saveAnnotations h s.1 s.2
    obtain ⟨d', hall, hload⟩ := ih h₁
    refine ⟨d', ?_, fun binary => ?_⟩
    · unfold saveAll at hall ⊢
      rw [List.foldlM_cons, hsave]
      exact hall
    · rw [hload, lastSaved?_cons]
      cases lastSaved? saves binary with
      | some as => rfl
      | none =>
        -- No later save is for this binary: the first one is, or leaves it.
        by_cases hs : s.1 = binary
        · simp only [hs, if_true]
          exact hs ▸ loadAnnotations_of_save hsave
        · simp only [hs, if_false]
          exact loadAnnotations_of_save_other hsave (Ne.symm hs)

/-- **Saved annotations are kept apart and whole.** In a new database any saves succeed, and each
binary has the list that was saved for it last, or none. In a database with annotations the binaries
without a save have what they had. -/
theorem loadAnnotations_saveAll (saves : List (String × List Annotation)) :
    (∃ d d', blank.openTables = .ok d ∧ d.saveAll saves = .ok d' ∧
      ∀ binary, d'.loadAnnotations binary = .ok ((lastSaved? saves binary).getD [])) ∧
    ∀ d : Database, d.annotations.isSome → ∃ d', d.saveAll saves = .ok d' ∧
      ∀ binary, d'.loadAnnotations binary =
        match lastSaved? saves binary with
        | some as => .ok as
        | none => d.loadAnnotations binary := by
  refine ⟨?_, fun d h => exists_saveAll h saves⟩
  have hnew : blank.openTables = .ok blank.createFirst.createSecond := rfl
  obtain ⟨d', hsaved, hload⟩ := exists_saveAll (d := blank.createFirst.createSecond) rfl saves
  refine ⟨_, d', hnew, hsaved, fun binary => ?_⟩
  rw [hload]
  cases lastSaved? saves binary with
  | some as => rfl
  | none => exact loadAnnotations_of_no_rows rfl binary

namespace Interleaved

def first : Annotation := ⟨0xffffffffffffffff, .comment "a \"top\" \\ é"⟩

def second : Annotation := ⟨0x8000000000000000, .loadReference ⟨.signatureLoad, some 0, none⟩⟩

/-- A database with annotations of one binary. -/
def held : Database := ⟨2, some .empty, some [annotationRow "rom" 0 first], some .empty, some []⟩

/-- Saves for two other binaries. -/
def saves : List (String × List Annotation) :=
  [("fw", [first]), ("boot", [first, second, first]), ("fw", [second, first])]

theorem saves_held : ∃ d', held.saveAll saves = .ok d' ∧
    d'.loadAnnotations "fw" = .ok [second, first] ∧
    d'.loadAnnotations "boot" = .ok [first, second, first] ∧
    d'.loadAnnotations "rom" = held.loadAnnotations "rom" := by
  obtain ⟨d', hsaved, hload⟩ := (loadAnnotations_saveAll saves).2 held rfl
  exact ⟨d', hsaved, hload "fw", hload "boot", hload "rom"⟩

end Interleaved

end Database

end FlowState
