import FlowState.Proofs.RemovedAnnotations
import FlowState.Proofs.SessionHistory

/-! # Merged images

Loading a file puts the entry points of the image behind the annotations of the session, one after
another, and each only if there is none at its address yet. That test is made against a list that
grows, but what comes out can be said at once (`foldl_withEntry_eq`): the entry points at addresses
where the annotations had none, and of several at one address the first one (`firsts`). An address
has an entry point in the end exactly if it had one before or the image names it
(`hasEntryAt_foldl`). So a second merge of the same image finds nothing to add, and since the
handles are the places of the annotations it leaves the whole session as it is
(`withImage_withImage`). -/

namespace FlowState

/-- Two stores with the handles in order are the same if their annotations are. -/
theorem AnnotationStore.InOrder.reindex_eq {s t : AnnotationStore} (hs : s.InOrder) (ht : t.InOrder)
    (h : s.annotations = t.annotations) : s.reindex = t.reindex := by
  unfold AnnotationStore.reindex
  rw [hs.entries_eq, ht.entries_eq, hs.next_eq, ht.next_eq, h]

namespace Session

/-! ### What an image brings along -/

/-- The entry points that are the first ones at their addresses. -/
def firsts : List EntryPoint → List EntryPoint
  | [] => []
  | e :: es => e :: (firsts es).filter fun d => d.address != e.address

/-- The symbols as entry points: the first one at each address where the annotations have none. -/
def symbolEntries (before : List Annotation) (image : Image) : List EntryPoint :=
  firsts ((image.symbols.map fun x => ⟨x.address, x.name⟩).filter fun e =>
    !hasEntryAt before e.address)

/-- The entry of the image as an entry point, if neither an entry point nor a symbol is there. -/
def freeEntry (before : List Annotation) (image : Image) : Option EntryPoint :=
  let free (a : Address) : Bool :=
    !hasEntryAt before a && !image.symbols.any fun x => x.address == a
  (image.entry.filter free).map fun a => ⟨a, "entry"⟩

/-- **The entry points that an image brings along.** -/
def brought (before : List Annotation) (image : Image) : List EntryPoint :=
  symbolEntries before image ++ (freeEntry before image).toList

section Firsts
variable (es : List EntryPoint)

theorem firsts_sublist : (firsts es).Sublist es := by
  induction es with
  | nil => exact List.Sublist.refl []
  | cons e es ih => exact (List.filter_sublist.trans ih).cons_cons e

theorem nodup_firsts : ((firsts es).map (·.address)).Nodup := by
  induction es with
  | nil => exact List.nodup_nil
  | cons e es ih =>
    rw [firsts, List.map_cons, List.nodup_cons]
    refine ⟨fun h => ?_, ih.sublist (List.filter_sublist.map _)⟩
    obtain ⟨d, hd, hde⟩ := List.mem_map.mp h
    have hne := (List.mem_filter.mp hd).2
    simp [hde] at hne

/-- The first ones at some addresses, whether those are picked before or after. -/
theorem firsts_filter (p : Address → Bool) :
    firsts (es.filter fun e => p e.address) = (firsts es).filter fun e => p e.address := by
  induction es with
  | nil => rfl
  | cons e es ih =>
    rw [firsts]
    cases he : p e.address with
    | true =>
      rw [List.filter_cons_of_pos (by simp [he]), List.filter_cons_of_pos (by simp [he]), firsts,
        ih, List.filter_comm]
    | false =>
      -- of those at the address of `e` none is picked, so none had to be left out for it
      have hkeep : ∀ d ∈ (firsts es).filter (fun d => p d.address),
          (d.address != e.address) = true := by
        intro d hd
        have hp := (List.mem_filter.mp hd).2
        rw [bne_iff_ne]
        intro hde
        rw [hde, he] at hp
        cases hp
      rw [List.filter_cons_of_neg (by simp [he]), List.filter_cons_of_neg (by simp [he]), ih,
        List.filter_comm, List.filter_eq_self.mpr hkeep]

end Firsts

/-! ### One entry point after another -/

/-- **The growing list in one piece.** -/
theorem foldl_withEntry_eq (es : List EntryPoint) (as : List Annotation) :
    es.foldl withEntry as =
      as ++ (firsts (es.filter fun e => !hasEntryAt as e.address)).map noteOf := by
  induction es generalizing as with
  | nil => simp [firsts]
  | cons e es ih =>
    rw [List.foldl_cons, ih]
    by_cases he : hasEntryAt as e.address = true
    · rw [withEntry, if_pos he, List.filter_cons_of_neg (by simp [he])]
    · have hnew : (es.filter fun d => !hasEntryAt (withEntry as e) d.address) =
          (es.filter fun d => !hasEntryAt as d.address).filter fun d => d.address != e.address := by
        rw [List.filter_filter]
        refine List.filter_congr fun d _ => ?_
        rw [hasEntryAt_withEntry, Bool.not_or, Bool.and_comm, bne, Bool.beq_comm]
      rw [hnew, firsts_filter _ fun a => a != e.address, withEntry, if_neg he,
        List.filter_cons_of_pos (by simpa using he), firsts, List.map_cons, List.append_assoc,
        List.singleton_append]

/-- **What is listed after a merge**: the annotations, and behind them what the image brings. -/
theorem listed_eq (before : List Annotation) (image : Image) :
    listed before image = before ++ (brought before image).map noteOf := by
  unfold listed imageEntryPoints brought
  rw [List.foldl_append, List.map_append, ← List.append_assoc, symbolEntries, ← foldl_withEntry_eq]
  cases hentry : image.entry with
  | none => simp [freeEntry, hentry]
  | some a =>
    -- an entry point is there if the annotations had one or a symbol has put one there
    have hthere :
        hasEntryAt ((image.symbols.map fun x => ⟨x.address, x.name⟩).foldl withEntry before) a =
          (hasEntryAt before a || image.symbols.any fun x => x.address == a) := by
      rw [hasEntryAt_foldl, List.any_map]
      rfl
    generalize (image.symbols.map fun x => ⟨x.address, x.name⟩).foldl withEntry before = as at *
    change withEntry as ⟨a, "entry"⟩ = _
    rw [withEntry, freeEntry, hentry, Option.filter_some, ← Bool.not_or, ← hthere]
    cases hasEntryAt as a <;> simp

theorem noteOf_injective : Function.Injective noteOf := by
  intro d e h
  injection h with haddress hpayload
  injection hpayload with hname
  cases d
  cases e
  simp_all

/-- The symbols and the entry may be taken together. -/
theorem brought_eq (before : List Annotation) (image : Image) : brought before image =
    firsts ((imageEntryPoints image).filter fun e => !hasEntryAt before e.address) := by
  have hlisted := listed_eq before image
  rw [listed, foldl_withEntry_eq] at hlisted
  exact noteOf_injective.list_map (List.append_cancel_left hlisted).symm

/-! ### Loading -/

/-- **An image is merged into annotations** without loss and without repetition. -/
structure Merges (before : List Annotation) (image : Image) (after : List Annotation) : Prop where
  after_eq : after = before ++ (brought before image).map noteOf
  /-- Nothing is brought to an address twice, or to one that has an entry point. -/
  once : ((brought before image).map (·.address)).Nodup
  fresh : ∀ e ∈ brought before image, hasEntryAt before e.address = false
  symbols : ∀ x ∈ image.symbols, hasEntryAt after x.address = true
  entry : ∀ a ∈ image.entry, hasEntryAt after a = true

theorem merges_listed (before : List Annotation) (image : Image) :
    Merges before image (listed before image) where
  after_eq := listed_eq before image
  once := by
    rw [brought_eq]
    exact nodup_firsts _
  fresh e he := by
    rw [brought_eq] at he
    simpa using (List.mem_filter.mp ((firsts_sublist _).subset he)).2
  symbols x hx :=
    hasEntryAt_listed before (e := ⟨x.address, x.name⟩)
      (List.mem_append_left _ (List.mem_map_of_mem hx))
  entry a ha := by
    refine hasEntryAt_listed before (e := ⟨a, "entry"⟩) (List.mem_append_right _ ?_)
    simp [Option.mem_def.mp ha]

/-- A second merge finds nothing to add. -/
theorem listed_listed (before : List Annotation) (image : Image) :
    listed (listed before image) image = listed before image :=
  foldl_withEntry_of_forall fun _ he => hasEntryAt_listed before he

theorem mergeImage_mergeImage (s : AnnotationStore) (image : Image) :
    mergeImage (mergeImage s image) image = mergeImage s image := by
  have horder : ∀ as : List Annotation, ((imageEntryPoints image).foldl addEntryPoint
      (.ofAnnotations as)).InOrder ∧ ((imageEntryPoints image).foldl addEntryPoint
        (.ofAnnotations as)).annotations = listed as image := by
    intro as
    have hfold := foldl_addEntryPoint (AnnotationStore.inOrder_ofAnnotations as)
      (imageEntryPoints image)
    rw [AnnotationStore.annotations_ofAnnotations] at hfold
    exact hfold
  refine (horder _).1.reindex_eq (horder _).1 ?_
  rw [(horder _).2, (horder _).2, annotations_mergeImage, listed_listed]

/-- **An image that is loaded again** changes nothing. -/
theorem withImage_withImage (s : Session) (image : Image) :
    (s.withImage image).withImage image = s.withImage image := by
  unfold withImage
  rw [mergeImage_mergeImage]
  rfl

theorem exists_image_of_load {r : Registry} {p : Path} {content : Option (List UInt8)} {s : Session}
    (h : (s.load r p content).result = .ok ()) : ∃ image, r.load p content = .ok image := by
  unfold load at h
  cases hload : r.load p content with
  | error e =>
    rw [hload] at h
    cases h
  | ok image => exact ⟨image, rfl⟩

/-- **Loading merges the annotations.** Whatever the session was, a file that is loaded gives an
image, and the image is merged into the annotations. Loading the same image again right away, from
wherever it comes, leaves the session as it is. -/
theorem load_merges {r : Registry} {p : Path} {content : Option (List UInt8)} {s : Session}
    (h : (s.load r p content).result = .ok ()) :
    ∃ image, r.load p content = .ok image ∧ (s.load r p content).session.image = some image ∧
      Merges s.annotations.annotations image
        (s.load r p content).session.annotations.annotations ∧
      ∀ (r' : Registry) (p' : Path) (content' : Option (List UInt8)),
        r'.load p' content' = .ok image →
          ((s.load r p content).session.load r' p' content').result = .ok () ∧
            ((s.load r p content).session.load r' p' content').session =
              (s.load r p content).session := by
  obtain ⟨image, himage⟩ := exists_image_of_load h
  rw [load_of_ok himage]
  refine ⟨image, himage, rfl, ?_, fun r' p' content' hagain => ?_⟩
  · change Merges _ image (mergeImage s.annotations image).annotations
    rw [annotations_mergeImage]
    exact merges_listed _ image
  · rw [load_of_ok hagain]
    exact ⟨rfl, withImage_withImage s image⟩

/-! ### A listing with symbols -/

namespace Labelled

def path : Path := ⟨"a.json"⟩

def content : List UInt8 :=
  Text.toBytes "[32,[[\"main\",16],[\"start\",16],[\"aux\",48],[\"io\",64]],[],[]]"

/-- Two symbols share an address, and no symbol is at the entry. -/
def image : Image where
  path := path
  architecture := .listing
  entry := some 32
  segments := []
  symbols := [⟨"main", 16⟩, ⟨"start", 16⟩, ⟨"aux", 48⟩, ⟨"io", 64⟩]
  listing := []

theorem load_content : Registry.builtin.load path (some content) = .ok image := by
  with_unfolding_all rfl

/-- The annotations before: an entry point of another name where a symbol is, and a comment. -/
def notes : List Annotation := [⟨48, .entryPoint "mine"⟩, ⟨16, .comment "here"⟩]

def session : Session := { Session.new {} with annotations := .ofAnnotations notes }

theorem brought_notes :
    brought notes image = [⟨16, "main"⟩, ⟨64, "io"⟩, ⟨32, "entry"⟩] := by
  decide

theorem symbols_merged : (session.load .builtin path (some content)).result = .ok () ∧
    (session.load .builtin path (some content)).session.annotations.annotations = notes ++
      [⟨16, .entryPoint "main"⟩, ⟨64, .entryPoint "io"⟩, ⟨32, .entryPoint "entry"⟩] ∧
    ((session.load .builtin path (some content)).session.load .builtin path
      (some content)).session = (session.load .builtin path (some content)).session := by
  have hload : (session.load .builtin path (some content)).result = .ok () := by
    rw [load_of_ok load_content]
  obtain ⟨i, hi, -, hmerges, hagain⟩ := load_merges hload
  rw [load_content, Except.ok.injEq] at hi
  subst hi
  refine ⟨hload, ?_, (hagain _ _ _ load_content).2⟩
  have hnotes : session.annotations.annotations = notes :=
    AnnotationStore.annotations_ofAnnotations notes
  rw [hmerges.after_eq, hnotes, brought_notes]
  rfl

end Labelled

end Session

end FlowState
