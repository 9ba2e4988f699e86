import FlowState.Proofs.OpenedBinaries
import Mathlib.Data.List.InsertIdx

/-! # Removed annotations

Handles in a store that was only added to are the places of the annotations, so removing by a handle
leaves out the annotation at a place. What is left is stored, but the next time the image is loaded
on top of it, and the image puts back an entry point where it has one and the rest has none
(`restored?`). -/

namespace FlowState

/-! ### Handles in order -/

namespace AnnotationStore

/-- The handles are the places of the annotations. -/
structure InOrder (s : AnnotationStore) : Prop where
  entries_eq : s.entries = s.annotations.mapIdx fun i a => (UInt64.ofNat i, a)
  next_eq : s.nextHandle = UInt64.ofNat s.annotations.length

theorem annotations_insert (s : AnnotationStore) (a : Annotation) :
    (s.insert a).1.annotations = s.annotations ++ [a] := by
  simp [insert, annotations]

theorem annotations_reindex (s : AnnotationStore) : s.reindex.annotations = s.annotations := rfl

theorem InOrder.insert {s : AnnotationStore} (h : s.InOrder) (a : Annotation) :
    (s.insert a).1.InOrder := by
  constructor
  · rw [annotations_insert, List.mapIdx_concat, ← h.entries_eq, ← h.next_eq]
    rfl
  · rw [annotations_insert, List.length_append, UInt64.ofNat_add, ← h.next_eq]
    rfl

theorem InOrder.reindex {s : AnnotationStore} (h : s.InOrder) : s.reindex.InOrder :=
  ⟨h.entries_eq, h.next_eq⟩

theorem inOrder_empty : empty.InOrder := ⟨rfl, rfl⟩

theorem foldl_insert {s : AnnotationStore} (h : s.InOrder) (as : List Annotation) :
    (as.foldl (fun s a => (s.insert a).1) s).InOrder ∧
      (as.foldl (fun s a => (s.insert a).1) s).annotations = s.annotations ++ as := by
  induction as generalizing s with
  | nil => exact ⟨h, by simp⟩
  | cons a as ih =>
    obtain ⟨horder, has⟩ := ih (h.insert a)
    refine ⟨horder, ?_⟩
    rw [List.foldl_cons, has, annotations_insert, List.append_assoc]
    rfl

theorem inOrder_ofAnnotations (as : List Annotation) : (ofAnnotations as).InOrder :=
  (foldl_insert inOrder_empty as).1.reindex

theorem annotations_ofAnnotations (as : List Annotation) : (ofAnnotations as).annotations = as :=
  (foldl_insert inOrder_empty as).2

theorem InOrder.position? {s : AnnotationStore} (h : s.InOrder) {k : Handle}
    (hk : k.toNat < s.annotations.length) : s.position? k = some k.toNat := by
  unfold AnnotationStore.position?
  rw [h.entries_eq, List.findIdx?_eq_some_iff_getElem]
  refine ⟨by simpa using hk, by simp, fun j hj => ?_⟩
  -- an earlier place has another word for its handle
  have hlt : j < UInt64.size := hj.trans k.toNat_lt
  simp only [List.getElem_mapIdx, beq_iff_eq]
  intro hjk
  rw [← hjk, UInt64.toNat_ofNat_of_lt' hlt] at hj
  exact Nat.lt_irrefl j hj

section Remove
variable {s : AnnotationStore} (h : s.InOrder) {k : Handle} {a : Annotation}
  (hk : s.annotations[k.toNat]? = some a)
include h hk

theorem InOrder.getElem? : s.entries[k.toNat]? = some (k, a) := by
  rw [h.entries_eq, List.getElem?_mapIdx, hk, Option.map_some, UInt64.ofNat_toNat]

theorem InOrder.handleAt? : s.handleAt? k.toNat = some k := by
  unfold AnnotationStore.handleAt?
  rw [h.getElem? hk]
  rfl

theorem InOrder.get? : s.get? k = some a := by
  obtain ⟨hlt, -⟩ := List.getElem?_eq_some_iff.mp hk
  have hposition := h.position? hlt
  unfold AnnotationStore.position? at hposition
  unfold AnnotationStore.get?
  rw [List.find?_eq_bind_findIdx?_getElem?, hposition, Option.bind_some, h.getElem? hk]
  rfl

/-- **Removing by the handle at a place** leaves out the annotation there. -/
theorem InOrder.remove :
    ∃ t, s.remove k = (t, some a) ∧ t.annotations = s.annotations.eraseIdx k.toNat := by
  obtain ⟨hlt, -⟩ := List.getElem?_eq_some_iff.mp hk
  unfold AnnotationStore.remove
  rw [h.position? hlt]
  simp only [h.getElem? hk]
  refine ⟨_, rfl, ?_⟩
  exact (List.eraseIdx_map _ _ _).symm

end Remove

end AnnotationStore

/-! ### Entry points of the image -/

namespace Session

/-- The annotation of an entry point. -/
def noteOf (e : EntryPoint) : Annotation := ⟨e.address, .entryPoint e.name⟩

/-- There is an entry point at an address. -/
def hasEntryAt (as : List Annotation) (a : Address) : Bool :=
  as.any fun n => n.address == a && n.entryPoint?.isSome

/-- Annotations with one more entry point, unless there is one at its address. -/
def withEntry (as : List Annotation) (e : EntryPoint) : List Annotation :=
  if hasEntryAt as e.address then as else as ++ [noteOf e]

/-- Annotations and behind them the entry points of an image where they have none. -/
def listed (stored : List Annotation) (image : Image) : List Annotation :=
  (imageEntryPoints image).foldl withEntry stored

/-- **The entry point that an image puts back** behind annotations: the first one of the image at an
address without one. -/
def restored? (image : Image) (rest : List Annotation) : Option Annotation :=
  ((imageEntryPoints image).find? fun e => !hasEntryAt rest e.address).map noteOf

theorem hasEntryAt_append (as bs : List Annotation) (a : Address) :
    hasEntryAt (as ++ bs) a = (hasEntryAt as a || hasEntryAt bs a) := List.any_append

theorem hasEntryAt_noteOf (e : EntryPoint) : hasEntryAt [noteOf e] e.address = true := by
  simp [hasEntryAt, noteOf, Annotation.entryPoint?]

theorem addEntryPoint_inOrder {s : AnnotationStore} (h : s.InOrder) (e : EntryPoint) :
    (addEntryPoint s e).InOrder ∧ (addEntryPoint s e).annotations = withEntry s.annotations e := by
  unfold addEntryPoint withEntry
  rw [show s.hasEntryPointAt e.address = hasEntryAt s.annotations e.address from rfl]
  split_ifs with he
  · exact ⟨h, rfl⟩
  · exact ⟨h.insert _, AnnotationStore.annotations_insert s _⟩

theorem foldl_addEntryPoint {s : AnnotationStore} (h : s.InOrder) (es : List EntryPoint) :
    (es.foldl addEntryPoint s).InOrder ∧
      (es.foldl addEntryPoint s).annotations = es.foldl withEntry s.annotations := by
  induction es generalizing s with
  | nil => exact ⟨h, rfl⟩
  | cons e es ih =>
    obtain ⟨horder, has⟩ := addEntryPoint_inOrder h e
    rw [List.foldl_cons, List.foldl_cons, ← has]
    exact ih horder

theorem mergeImage_inOrder (s : AnnotationStore) (image : Image) : (mergeImage s image).InOrder :=
  (foldl_addEntryPoint (AnnotationStore.inOrder_ofAnnotations _) _).1.reindex

theorem annotations_mergeImage (s : AnnotationStore) (image : Image) :
    (mergeImage s image).annotations = listed s.annotations image := by
  have hfold := (foldl_addEntryPoint (AnnotationStore.inOrder_ofAnnotations s.annotations)
    (imageEntryPoints image)).2
  rw [AnnotationStore.annotations_ofAnnotations] at hfold
  exact hfold

theorem hasEntryAt_withEntry (as : List Annotation) (e : EntryPoint) (a : Address) :
    hasEntryAt (withEntry as e) a = (hasEntryAt as a || e.address == a) := by
  have hnote : hasEntryAt [noteOf e] a = (e.address == a) := by
    simp [hasEntryAt, noteOf, Annotation.entryPoint?]
  unfold withEntry
  split_ifs with he
  · by_cases hea : e.address = a
    · rw [← hea, he, Bool.true_or]
    · rw [beq_false_of_ne hea, Bool.or_false]
  · rw [hasEntryAt_append, hnote]

/-- An address has an entry point if it had one before or one was added there. -/
theorem hasEntryAt_foldl (es : List EntryPoint) (as : List Annotation) (a : Address) :
    hasEntryAt (es.foldl withEntry as) a = (hasEntryAt as a || es.any fun e => e.address == a) := by
  induction es generalizing as with
  | nil => simp
  | cons e es ih =>
    rw [List.foldl_cons, ih, hasEntryAt_withEntry, List.any_cons, Bool.or_assoc]

/-- Every entry point of the image is there once they were added. -/
theorem hasEntryAt_listed (stored : List Annotation) {image : Image} {e : EntryPoint}
    (he : e ∈ imageEntryPoints image) : hasEntryAt (listed stored image) e.address = true := by
  rw [listed, hasEntryAt_foldl, List.any_eq_true.mpr ⟨e, he, by simp⟩, Bool.or_true]

theorem foldl_withEntry_of_forall {es : List EntryPoint} {as : List Annotation}
    (h : ∀ e ∈ es, hasEntryAt as e.address = true) : es.foldl withEntry as = as := by
  induction es with
  | nil => rfl
  | cons e es ih =>
    rw [List.foldl_cons, withEntry, if_pos (h e List.mem_cons_self)]
    exact ih fun e' he' => h e' (List.mem_cons_of_mem e he')

/-- If entry points are missing at one address only, one of them is put back. -/
theorem foldl_withEntry {es : List EntryPoint} {rest : List Annotation} {x : Address}
    (h : ∀ e ∈ es, hasEntryAt rest e.address = false → e.address = x) :
    es.foldl withEntry rest =
      rest ++ ((es.find? fun e => !hasEntryAt rest e.address).map noteOf).toList := by
  -- once one entry point was put back, nothing is missing any more
  induction es with
  | nil => simp
  | cons e es ih =>
    have htail : ∀ e' ∈ es, hasEntryAt rest e'.address = false → e'.address = x :=
      fun e' he' => h e' (List.mem_cons_of_mem e he')
    rw [List.foldl_cons, withEntry]
    by_cases he : hasEntryAt rest e.address = true
    · rw [if_pos he, ih htail, List.find?_cons_of_neg (by simp [he])]
    · have hx : e.address = x := h e List.mem_cons_self (by simpa using he)
      rw [if_neg he, List.find?_cons_of_pos (by simpa using he)]
      apply foldl_withEntry_of_forall
      intro e' he'
      rw [hasEntryAt_append]
      cases hrest : hasEntryAt rest e'.address with
      | true => rfl
      | false =>
        rw [htail e' he' hrest, ← hx, hasEntryAt_noteOf]
        rfl

/-- An entry point that is missing without a place was at this place. -/
theorem entryAt_of_eraseIdx {as : List Annotation} {i : Nat} {x : Address}
    (h : hasEntryAt as x = true) (hrest : hasEntryAt (as.eraseIdx i) x = false) :
    ∃ a, as[i]? = some a ∧ a.address = x ∧ a.entryPoint?.isSome := by
  obtain ⟨n, hn, hx⟩ := List.any_eq_true.mp h
  obtain ⟨j, hj⟩ := List.mem_iff_getElem?.mp hn
  simp only [Bool.and_eq_true, beq_iff_eq] at hx
  by_cases hji : j = i
  · exact ⟨n, hji ▸ hj, hx⟩
  · have hmem : n ∈ as.eraseIdx i := List.mem_eraseIdx_iff_getElem?.mpr ⟨j, hji, hj⟩
    have hno := List.any_eq_false.mp hrest n hmem
    simp [hx.1, hx.2] at hno

/-- **Merging an image again** after a place was left out puts at most one entry point back, and
only where one was. -/
theorem listed_eraseIdx {stored : List Annotation} {image : Image} {i : Nat} {a : Annotation}
    (hi : (listed stored image)[i]? = some a) :
    listed ((listed stored image).eraseIdx i) image = (listed stored image).eraseIdx i ++
        (restored? image ((listed stored image).eraseIdx i)).toList ∧
      ∀ b ∈ restored? image ((listed stored image).eraseIdx i),
        a.entryPoint?.isSome ∧ b.address = a.address := by
  have hmissing : ∀ e ∈ imageEntryPoints image,
      hasEntryAt ((listed stored image).eraseIdx i) e.address = false →
        e.address = a.address ∧ a.entryPoint?.isSome := by
    intro e he hrest
    obtain ⟨a', ha', hx, hentry⟩ := entryAt_of_eraseIdx (hasEntryAt_listed stored he) hrest
    cases hi.symm.trans ha'
    exact ⟨hx.symm, hentry⟩
  refine ⟨foldl_withEntry fun e he hrest => (hmissing e he hrest).1, ?_⟩
  intro b hb
  obtain ⟨e, he, rfl⟩ := Option.map_eq_some_iff.mp hb
  have hno : hasEntryAt ((listed stored image).eraseIdx i) e.address = false := by
    simpa using List.find?_some he
  obtain ⟨hx, hentry⟩ := hmissing e (List.mem_of_find?_eq_some he) hno
  exact ⟨hentry, hx⟩

end Session

/-! ### The commands -/

namespace Command

open Project Session

/-- What a list of annotations looks like. -/
def shown (binary : String) (json : Bool) (as : List Annotation) : List String :=
  if json then [(Json.array (as.mapIdx annotationJson)).pretty]
  else listLines s!"Annotations for {binary}:" (as.mapIdx annotationLine)

/-- What is printed when an annotation is removed. -/
def removedLine (a : Annotation) : String := "Removed " ++ a.kind.name ++ " at " ++ a.address.text

theorem annotations_openSession (config : SessionConfig) (stored : List Annotation)
    (image : Image) :
    (openSession config stored image).annotations.annotations = listed stored image := by
  have hmerge := annotations_mergeImage (AnnotationStore.ofAnnotations stored).reindex image
  rw [AnnotationStore.annotations_reindex, AnnotationStore.annotations_ofAnnotations] at hmerge
  exact hmerge

section Open
variable {r : Registry} {root : Path} {binary : String} {w : Workspace} {p : Project}
  {place : Place} {image : Image} {stored : List Annotation}
  (h : Opening r root binary w.directory p place image stored)
include h

theorem gives_openBinary_of : Gives (openBinary r root binary) [] w
    (p, openSession {} stored image) []
    { w with directory := w.directory.put place (.database p.database) } :=
  gives_openBinary.mpr ⟨place, image, stored, h, rfl, rfl, rfl⟩

/-- The list of an opened binary. -/
theorem run_listAnnotations (json : Bool) :
    (run (listAnnotations r root binary json) : StateM Workspace Printed) w =
      (⟨shown binary json (listed stored image), none⟩,
        { w with directory := w.directory.put place (.database p.database) }) := by
  apply Gives.run
  unfold listAnnotations shown
  rw [gives_bind_of (gives_openBinary_of h), ← annotations_openSession {}]
  cases json with
  | true => exact gives_print _
  | false => exact gives_printAll _

section Remove
variable {i : UInt64} {a : Annotation} (hi : (listed stored image)[i.toNat]? = some a)
include hi

/-- Removing stores what is left. -/
theorem run_removeAnnotationAt : ∃ db,
    p.database.saveAnnotations binary ((listed stored image).eraseIdx i.toNat) = .ok db ∧
    (run (removeAnnotationAt r root binary i) : StateM Workspace Printed) w =
      (⟨[removedLine a], none⟩, { w with directory := w.directory.put place (.database db) }) := by
  have horder : (openSession {} stored image).annotations.InOrder := mergeImage_inOrder _ image
  rw [← annotations_openSession {}] at hi ⊢
  obtain ⟨t, hremove, ht⟩ := horder.remove hi
  obtain ⟨db, hsave, hwrite⟩ := gives_saveAnnotations_of h t.annotations
  have hunannotate : (openSession {} stored image).unannotate i =
      ⟨{ openSession {} stored image with annotations := t.reindex }, [.annotations],
        .ok (some a)⟩ := by
    unfold unannotate
    rw [hremove]
    rfl
  refine ⟨db, ht ▸ hsave, ?_⟩
  apply Gives.run
  unfold removeAnnotationAt
  rw [gives_bind_of (gives_openBinary_of h)]
  simp only [horder.handleAt? hi, hunannotate]
  rw [gives_bind_of (gives_ofResult.mpr ⟨rfl, rfl, rfl⟩)]
  simp only [AnnotationStore.annotations_reindex]
  rw [gives_bind_of hwrite]
  exact gives_print _

/-- The list once what is left has been stored: the image is merged into it again. -/
theorem run_listAnnotations_of_save {db : Database}
    (hsave : p.database.saveAnnotations binary ((listed stored image).eraseIdx i.toNat) = .ok db)
    (json : Bool) :
    (run (listAnnotations r root binary json) : StateM Workspace Printed)
        { w with directory := w.directory.put place (.database db) } =
      (⟨shown binary json ((listed stored image).eraseIdx i.toNat ++
        (restored? image ((listed stored image).eraseIdx i.toNat)).toList), none⟩,
        { w with directory := w.directory.put place (.database db) }) := by
  have hlist := run_listAnnotations (w := { w with
    directory := w.directory.put place (.database db) }) (h.save hsave) json
  rw [hlist, Directory.put_put, (listed_eraseIdx hi).1]

end Remove

end Open

/-- **Removing an annotation and listing again.** A binary that can be opened is listed; removing
the annotation at a place succeeds, before or after a listing; and the next listing shows the others
in their order, and behind them the entry point that the image puts back, if it puts one back. It
does so only where an entry point was removed. -/
theorem list_after_remove {r : Registry} {root : Path} {binary : String} {w w₁ : Workspace}
    {p : Project} {s : Session} (h : Gives (openBinary r root binary) [] w (p, s) [] w₁) :
    (∀ json, (run (listAnnotations r root binary json) : StateM Workspace Printed) w =
      (⟨shown binary json s.annotations.annotations, none⟩, w₁)) ∧
    ∃ image, s.image = some image ∧
      ∀ (i : UInt64) (a : Annotation), s.annotations.annotations[i.toNat]? = some a →
        ∃ w₂, (∀ w₀, w₀ = w ∨ w₀ = w₁ →
            (run (removeAnnotationAt r root binary i) : StateM Workspace Printed) w₀ =
              (⟨[removedLine a], none⟩, w₂)) ∧
          (∀ json, (run (listAnnotations r root binary json) : StateM Workspace Printed) w₂ =
            (⟨shown binary json (s.annotations.annotations.eraseIdx i.toNat ++
              (restored? image (s.annotations.annotations.eraseIdx i.toNat)).toList), none⟩, w₂)) ∧
          ∀ b ∈ restored? image (s.annotations.annotations.eraseIdx i.toNat),
            a.entryPoint?.isSome ∧ b.address = a.address := by
  obtain ⟨place, image, stored, hopening, rfl, -, rfl⟩ := gives_openBinary.mp h
  rw [annotations_openSession]
  refine ⟨run_listAnnotations hopening, image, rfl, fun i a hi => ?_⟩
  obtain ⟨db, hsave, hremove⟩ := run_removeAnnotationAt hopening hi
  refine ⟨_, ?_, run_listAnnotations_of_save hopening hi hsave, (listed_eraseIdx hi).2⟩
  rintro w₀ (rfl | rfl)
  · exact hremove
  · -- the listing has stored the database of the open project, and the binary is opened again
    obtain ⟨hversion, hload, -⟩ := hopening.database_held
    have hagain := hopening.replace hversion rfl hload
    obtain ⟨db', hsave', hremove'⟩ := run_removeAnnotationAt
      (w := { w with directory := w.directory.put place (.database p.database) }) hagain hi
    cases hsave.symm.trans hsave'
    rw [Directory.put_put] at hremove'
    exact hremove'

/-! A project with a listing whose entry is at `0x10`, and with a stored comment. -/

namespace Firmware

def root : Path := ⟨"/p"⟩

def note : Annotation := ⟨0x20, .comment "loop"⟩

def image : Image := ⟨⟨"/p/fw.json"⟩, .listing, some 0x10, [], [], []⟩

def known : BinaryRecord := ⟨"fw", "fw.json", none, none⟩

def base : Database := ⟨2, some ⟨[(1, known)], 1⟩, some [], some .empty, some []⟩

def database : Database := { base with annotations := some [Database.annotationRow "fw" 0 note] }

def place : Place := ["p".toList, ".statewalk".toList, "project.db".toList]

def configText : String := "[\"Firmware\",null,\"0.1.0\",[\".statewalk/project.db\"]]"

def listingText : String := "[16,[],[],[]]"

def directory : Directory where
  current := []
  folders := [["p".toList], ["p".toList, ".statewalk".toList]]
  files := [(["p".toList, ".statewalk".toList, "project.json".toList],
      .bytes (Text.toBytes configText)),
    (place, .database database),
    (["p".toList, "fw.json".toList],
      .bytes (Text.toBytes listingText))]

def project : Project where
  layout := ⟨root⟩
  config := { name := "Firmware", database := ⟨".statewalk/project.db"⟩ }
  databasePath := ⟨"/p/.statewalk/project.db"⟩
  database := { database with binaries := some ⟨[(1, { known with arch := some "listing" })], 1⟩ }

/-- The places do not depend on the files, and are found without them. -/
theorem place?_directory (p : Path) :
    directory.place? p = { directory with files := [] }.place? p :=
  (directory.place?_files [] p).symm

theorem configOf?_project : directory.configOf? project.layout = some project.config := by
  have hpath : project.layout.config = ⟨"/p/.statewalk/project.json"⟩ := by decide +kernel
  have hplace : directory.place? ⟨"/p/.statewalk/project.json"⟩ =
      some ["p".toList, ".statewalk".toList, "project.json".toList] := by
    rw [place?_directory]
    decide +kernel
  have hbytes : directory.bytes? project.layout.config = some (Text.toBytes configText) := by
    rw [hpath, Directory.bytes?, Directory.read?, hplace]
    rfl
  have htext : ProjectConfig.ofText? configText = some project.config := by decide +kernel
  rw [Directory.configOf?, hbytes, Option.bind_some, Text.ofBytes?_toBytes, Option.bind_some, htext]

theorem load_listing : Registry.builtin.load (project.layout.resolve ⟨known.path⟩)
    (directory.bytes? (project.layout.resolve ⟨known.path⟩)) = .ok image := by
  have hpath : project.layout.resolve ⟨known.path⟩ = ⟨"/p/fw.json"⟩ := by decide +kernel
  have hplace : directory.place? ⟨"/p/fw.json"⟩ = some ["p".toList, "fw.json".toList] := by
    rw [place?_directory]
    decide +kernel
  have hbytes : directory.bytes? ⟨"/p/fw.json"⟩ = some (Text.toBytes listingText) := by
    rw [Directory.bytes?, Directory.read?, hplace]
    rfl
  rw [hpath, hbytes]
  with_unfolding_all rfl

theorem rootOf_directory : directory.rootOf root = root := by
  have hplace : directory.place? root = some ["p".toList] := by
    rw [place?_directory]
    decide +kernel
  have hthere : directory.exists? root = true := by
    rw [Directory.exists?, Directory.isFolder, hplace]
    rfl
  have hcanonical : directory.canonical? root = some root := by
    rw [Directory.canonical?, if_pos hthere, hplace]
    decide +kernel
  rw [Directory.rootOf, if_neg (by decide +kernel), hcanonical]
  rfl

theorem opening : Opening .builtin root "fw" directory project place image [note] := by
  refine ⟨?_, configOf?_project, ?_, ?_, ?_, ?_⟩
  · rw [rootOf_directory]
    rfl
  · decide +kernel
  · rw [place?_directory]
    decide +kernel
  · decide +kernel
  · refine ⟨database, database, known, ?_, ?_, ?_, ?_, load_listing, ?_⟩
    · rfl
    · exact Database.openTables_of_version rfl
    · rfl
    · have hsave : base.saveAnnotations "fw" [note] = .ok database := rfl
      exact Database.loadAnnotations_of_save hsave
    · rfl

def workspace : Workspace := ⟨directory, ""⟩

def entry : Annotation := ⟨0x10, .entryPoint "entry"⟩

/-- The comment is removed, and the entry point is left. -/
theorem comment_removed : ∃ w₂,
    (run (removeAnnotationAt .builtin root "fw" 0) : StateM Workspace Printed) workspace =
      (⟨["Removed comment at 0x00000020"], none⟩, w₂) ∧
    (run (listAnnotations .builtin root "fw" false) : StateM Workspace Printed) w₂ =
      (⟨["Annotations for fw:", "[0] 0x00000010 entrypoint entry"], none⟩, w₂) := by
  have hopen : Gives (openBinary .builtin root "fw") [] workspace _ [] _ :=
    gives_openBinary_of opening
  obtain ⟨image', himage, hall⟩ := (list_after_remove hopen).2
  cases himage
  obtain ⟨w₂, hremove, hlist, -⟩ := hall 0 note rfl
  have hline : removedLine note = "Removed comment at 0x00000020" := by decide +kernel
  have hshown : shown "fw" false ([entry] ++ (restored? image [entry]).toList) =
      ["Annotations for fw:", "[0] 0x00000010 entrypoint entry"] := by decide +kernel
  refine ⟨w₂, ?_, ?_⟩
  · rw [hremove workspace (.inl rfl), hline]
  · rw [← hshown]
    exact hlist false

/-- The entry point is removed, but the next listing shows it again. -/
theorem entry_put_back : ∃ w₁ w₂,
    (run (listAnnotations .builtin root "fw" false) : StateM Workspace Printed) workspace =
      (⟨["Annotations for fw:", "[0] 0x00000020 comment    loop",
        "[1] 0x00000010 entrypoint entry"], none⟩, w₁) ∧
    (run (removeAnnotationAt .builtin root "fw" 1) : StateM Workspace Printed) workspace =
      (⟨["Removed entrypoint at 0x00000010"], none⟩, w₂) ∧
    (run (listAnnotations .builtin root "fw" false) : StateM Workspace Printed) w₂ =
      (⟨["Annotations for fw:", "[0] 0x00000020 comment    loop",
        "[1] 0x00000010 entrypoint entry"], none⟩, w₂) := by
  have hi : (listed [note] image)[UInt64.toNat 1]? = some entry := rfl
  obtain ⟨db, hsave, hremove⟩ := run_removeAnnotationAt (w := workspace) opening hi
  have hlist := run_listAnnotations (w := workspace) opening false
  have hagain := run_listAnnotations_of_save (w := workspace) opening hi hsave false
  have hline : removedLine entry = "Removed entrypoint at 0x00000010" := by decide +kernel
  have hshown : shown "fw" false [note, entry] = ["Annotations for fw:",
      "[0] 0x00000020 comment    loop", "[1] 0x00000010 entrypoint entry"] := by decide +kernel
  rw [← hshown, ← hline]
  exact ⟨_, _, hlist, hremove, hagain⟩

end Firmware

end Command

end FlowState
