import FlowState.Annotation.Store
import Mathlib.Data.List.Sort

/-! # Histories of the annotation store

A store is changed by one `Change` after another. What one change can do is said once, by the
relation `Step`, which has one rule for each way that a change ends (`perform_step`). From it come
the invariant `Sound`, kept by every step that has a handle left: the handles stand in increasing
order below the next one, and the index of a store that is not dirty is that of its annotations.

Handles are words. `RoomFor` says that a store has enough of them left for some changes; then the
next handle counts the additions (`toNat_nextHandle_after`) and never starts again from zero.

The index is read in the order of the handles, and the annotations stand in the order in which they
were added. By the invariant the two orders are one (`Sound.handlesAt_eq`), so the first load
reference at an address is the first one in the collection (`Sound.loadReferenceAt?_eq`). A handle
that was given out resolves to the annotation that it was given to until that one is removed, and to
nothing from then on (`get?_after`). -/

namespace FlowState

namespace AnnotationStore

/-! ### Changes -/

/-- What is done to a store. -/
inductive Change where
  | insert (a : Annotation)
  | add (kind : String) (anchor : Address) (fields : Json)
  | create (kind : String) (anchor : Address)
  /-- The annotation of a handle gets another address or payload. -/
  | replace (handle : Handle) (a : Annotation)
  | remove (handle : Handle)
  | clear
  | reindex

/-- **Makes a change**: the store, and the handle that is given out. -/
def perform (s : AnnotationStore) : Change → AnnotationStore × Option Handle
  | .insert a => ((s.insert a).1, some (s.insert a).2)
  | .add kind anchor fields => (s.add kind anchor fields).map id Except.toOption
  | .create kind anchor => (s.create kind anchor).map id Except.toOption
  | .replace handle a => ((s.replace handle a).1, none)
  | .remove handle => ((s.remove handle).1, none)
  | .clear => (s.clear, none)
  | .reindex => (s.reindex, none)

/-- The store after some changes. -/
def after (s : AnnotationStore) (cs : List Change) : AnnotationStore :=
  cs.foldl (fun s c => (s.perform c).1) s

/-- The handles that some changes give out, in their order. -/
def handed (s : AnnotationStore) : List Change → List Handle
  | [] => []
  | c :: cs => (s.perform c).2.toList ++ (s.perform c).1.handed cs

/-- The annotation that a change adds. -/
def Change.adds? : Change → Option Annotation
  | .insert a => some a
  | .add kind anchor fields => Except.toOption <| Annotation.ofFields kind anchor fields
  | .create kind anchor => Except.toOption <| Annotation.fresh kind anchor
  | .replace _ _ | .remove _ | .clear | .reindex => none

/-- How many annotations some changes add. -/
def additions (cs : List Change) : Nat := cs.countP fun c => c.adds?.isSome

/-- The change fails, or there is no annotation under its handle. -/
def Refuses (s : AnnotationStore) : Change → Prop
  | .add kind anchor fields => ∃ e, (s.add kind anchor fields).2 = .error e
  | .create kind anchor => ∃ e, (s.create kind anchor).2 = .error e
  | .replace handle _ | .remove handle => s.get? handle = none
  | .insert _ | .clear | .reindex => False

/-- The change takes the annotation of a handle away or replaces it. -/
def Change.Touches (k : Handle) : Change → Prop
  | .replace handle _ | .remove handle => handle = k
  | .clear => True
  | .insert _ | .add _ _ _ | .create _ _ | .reindex => False

/-! ### Steps -/

/-- **The place of a handle**: what stands before the first annotation under it, this annotation,
and what stands behind it. -/
structure Place (s : AnnotationStore) (k : Handle) (front : List (Handle × Annotation))
    (a : Annotation) (rest : List (Handle × Annotation)) : Prop where
  entries : s.entries = front ++ (k, a) :: rest
  first : ∀ e ∈ front, e.1 ≠ k

/-- The store with other annotations, of which the index does not know. -/
def holding (s : AnnotationStore) (entries : List (Handle × Annotation)) : AnnotationStore :=
  { s with entries := entries, dirty := true }

/-- **What a change can do to a store**: one rule for each way that it ends. -/
inductive Step (s : AnnotationStore) : Change → AnnotationStore → Option Handle → Prop where
  | refused {c : Change} (h : s.Refuses c) : Step s c s none
  | added {c : Change} {a : Annotation} (h : c.adds? = some a) :
      Step s c (s.insert a).1 (some s.nextHandle)
  | replaced {k : Handle} {a b : Annotation} {front rest : List (Handle × Annotation)}
      (h : s.Place k front b rest) :
      Step s (.replace k a) (s.holding (front ++ (k, a) :: rest)) none
  | removed {k : Handle} {b : Annotation} {front rest : List (Handle × Annotation)}
      (h : s.Place k front b rest) : Step s (.remove k) (s.holding (front ++ rest)) none
  | cleared : Step s .clear s.clear none
  | reindexed : Step s .reindex s.reindex none

theorem insertMade_error_iff {s : AnnotationStore} {made : Except AnnotationError Annotation} :
    (∃ e, (s.insertMade made).2 = .error e) ↔ made.toOption = none := by
  cases made with
  | ok a => exact iff_of_false (by rintro ⟨e, ⟨⟩⟩) (by intro h; cases h)
  | error e => exact iff_of_true ⟨e, rfl⟩ rfl

/-- An addition is refused exactly if no annotation was made. -/
theorem adds?_eq_none_of_refuses {s : AnnotationStore} {c : Change} (h : s.Refuses c) :
    c.adds? = none := by
  cases c with
  | add kind anchor fields => exact insertMade_error_iff.mp h
  | create kind anchor => exact insertMade_error_iff.mp h
  | replace _ _ | remove _ => rfl
  | insert _ | clear | reindex => cases h

theorem perform_made (s : AnnotationStore) {made : Except AnnotationError Annotation}
    {a : Annotation} (h : made.toOption = some a) :
    (s.insertMade made).map id Except.toOption = ((s.insert a).1, some s.nextHandle) := by
  cases made with
  | error e => cases h
  | ok b =>
    cases h
    rfl

theorem perform_of_adds {c : Change} {a : Annotation} (h : c.adds? = some a)
    (s : AnnotationStore) : s.perform c = ((s.insert a).1, some s.nextHandle) := by
  cases c with
  | insert b =>
    cases h
    rfl
  | add kind anchor fields => exact s.perform_made h
  | create kind anchor => exact s.perform_made h
  | replace _ _ | remove _ | clear | reindex => cases h

theorem insertMade_of_error {s : AnnotationStore} {made : Except AnnotationError Annotation}
    (h : ∃ e, (s.insertMade made).2 = .error e) :
    (s.insertMade made).map id Except.toOption = (s, none) := by
  cases made with
  | error e => rfl
  | ok a =>
    obtain ⟨e, he⟩ := h
    cases he

theorem position?_eq_none {s : AnnotationStore} {k : Handle} (h : s.get? k = none) :
    s.position? k = none := by
  unfold get? at h
  rw [Option.map_eq_none_iff, List.find?_eq_none] at h
  exact List.findIdx?_eq_none_iff.mpr fun e he => by simpa using h e he

theorem remove_of_none {s : AnnotationStore} {k : Handle} (h : s.get? k = none) :
    s.remove k = (s, none) := by
  unfold remove
  rw [position?_eq_none h]

theorem perform_of_refuses {s : AnnotationStore} {c : Change} (h : s.Refuses c) :
    s.perform c = (s, none) := by
  cases c with
  | add kind anchor fields => exact insertMade_of_error h
  | create kind anchor => exact insertMade_of_error h
  | replace k a =>
    rw [perform, replace, position?_eq_none h]
  | remove k => rw [perform, remove_of_none h]
  | insert _ | clear | reindex => cases h

/-- A handle that resolves has a place. -/
theorem exists_place {s : AnnotationStore} {k : Handle} {a : Annotation} (h : s.get? k = some a) :
    ∃ front rest, s.Place k front a rest ∧ s.position? k = some front.length := by
  obtain ⟨e, he, rfl⟩ := Option.map_eq_some_iff.mp h
  obtain ⟨hk, front, rest, hentries, hfront⟩ := List.find?_eq_some_iff_append.mp he
  have hk : e.1 = k := by simpa using hk
  have hfront : ∀ d ∈ front, d.1 ≠ k := fun d hd => by simpa using hfront d hd
  refine ⟨front, rest, ⟨?_, hfront⟩, ?_⟩
  · rw [hentries, ← hk]
  · unfold position?
    rw [hentries, List.findIdx?_append, List.findIdx?_eq_none_iff.mpr (by simpa using hfront),
      Option.none_or, List.findIdx?_cons, if_pos (by simpa using hk)]
    simp

section Place
variable {s : AnnotationStore} {k : Handle} {a : Annotation}
  {front rest : List (Handle × Annotation)}

theorem remove_of_place (h : s.Place k front a rest) (hp : s.position? k = some front.length) :
    s.remove k = (s.holding (front ++ rest), some a) := by
  unfold remove
  rw [hp]
  simp only [h.entries, List.eraseIdx_append_of_length_le (Nat.le_refl _), Nat.sub_self,
    List.eraseIdx_cons_zero, List.getElem?_append_right (Nat.le_refl _), List.getElem?_cons_zero]
  rfl

theorem replace_of_place (h : s.Place k front a rest) (hp : s.position? k = some front.length)
    (b : Annotation) : s.replace k b = (s.holding (front ++ (k, b) :: rest), true) := by
  unfold replace
  rw [hp]
  simp only [h.entries, List.set_append_right _ _ (Nat.le_refl _), Nat.sub_self, List.set_cons_zero]
  rfl

end Place

theorem perform_step (s : AnnotationStore) (c : Change) :
    Step s c (s.perform c).1 (s.perform c).2 := by
  have hadds : (∃ a, c.adds? = some a) ∨ s.Refuses c →
      Step s c (s.perform c).1 (s.perform c).2 := by
    rintro (⟨a, ha⟩ | hr)
    · rw [perform_of_adds ha]
      exact .added ha
    · rw [perform_of_refuses hr]
      exact .refused hr
  have hmade : ∀ made : Except AnnotationError Annotation,
      (∃ a, made.toOption = some a) ∨ ∃ e, (s.insertMade made).2 = .error e := by
    intro made
    cases made with
    | error e => exact .inr ⟨e, rfl⟩
    | ok a => exact .inl ⟨a, rfl⟩
  cases c with
  | insert a => exact .added rfl
  | add kind anchor fields => exact hadds (hmade _)
  | create kind anchor => exact hadds (hmade _)
  | replace k a =>
    cases hk : s.get? k with
    | none => exact hadds (.inr hk)
    | some b =>
      obtain ⟨front, rest, hplace, hp⟩ := exists_place hk
      rw [perform, replace_of_place hplace hp]
      exact .replaced hplace
  | remove k =>
    cases hk : s.get? k with
    | none => exact hadds (.inr hk)
    | some a =>
      obtain ⟨front, rest, hplace, hp⟩ := exists_place hk
      rw [perform, remove_of_place hplace hp]
      exact .removed hplace
  | clear => exact .cleared
  | reindex => exact .reindexed

/-! ### Handles that are left -/

/-- There is a handle for each annotation that some changes add, and one more. -/
def RoomFor (s : AnnotationStore) (cs : List Change) : Prop :=
  s.nextHandle.toNat + additions cs < UInt64.size

theorem additions_cons (c : Change) (cs : List Change) :
    additions (c :: cs) = additions cs + if c.adds?.isSome then 1 else 0 := List.countP_cons

theorem additions_of_adds {c : Change} {a : Annotation} (h : c.adds? = some a) (cs : List Change) :
    additions (c :: cs) = additions cs + 1 := by
  rw [additions_cons, h]
  rfl

theorem toNat_add_one {n : Handle} (h : n.toNat + 1 < UInt64.size) :
    (n + 1).toNat = n.toNat + 1 := by
  rw [UInt64.toNat_add]
  exact Nat.mod_eq_of_lt h

/-- A handle that a step gives out is the next one. -/
theorem Step.nextHandle {s t : AnnotationStore} {c : Change} {o : Option Handle}
    (h : Step s c t o) :
    (o = none ∧ t.nextHandle = s.nextHandle ∧ c.adds? = none) ∨
      (o = some s.nextHandle ∧ t.nextHandle = s.nextHandle + 1 ∧ c.adds?.isSome) := by
  cases h with
  | added h => exact .inr ⟨rfl, rfl, by rw [h]; rfl⟩
  | refused h => exact .inl ⟨rfl, rfl, adds?_eq_none_of_refuses h⟩
  | replaced _ | removed _ | cleared | reindexed => exact .inl ⟨rfl, rfl, rfl⟩

/-- A step counts what it adds. -/
theorem RoomFor.toNat_nextHandle {s : AnnotationStore} {c : Change} {cs : List Change}
    (h : s.RoomFor (c :: cs)) : (s.perform c).1.nextHandle.toNat + additions cs =
      s.nextHandle.toNat + additions (c :: cs) := by
  unfold RoomFor at h
  rw [additions_cons] at h ⊢
  rcases (s.perform_step c).nextHandle with ⟨-, hn, ha⟩ | ⟨-, hn, ha⟩
  · rw [hn, ha]
    rfl
  · rw [if_pos ha] at h ⊢
    rw [hn, toNat_add_one (by omega)]
    omega

theorem RoomFor.perform {s : AnnotationStore} {c : Change} {cs : List Change}
    (h : s.RoomFor (c :: cs)) : (s.perform c).1.RoomFor cs := by
  have hnext := h.toNat_nextHandle
  unfold RoomFor at h ⊢
  omega

theorem RoomFor.nextHandle_le {s : AnnotationStore} {c : Change} {cs : List Change}
    (h : s.RoomFor (c :: cs)) : s.nextHandle ≤ (s.perform c).1.nextHandle := by
  have hnext := h.toNat_nextHandle
  rw [additions_cons] at hnext
  exact UInt64.le_iff_toNat_le.mpr (by omega)

/-- **The next handle counts the additions.** -/
theorem toNat_nextHandle_after {s : AnnotationStore} {cs : List Change} (h : s.RoomFor cs) :
    (s.after cs).nextHandle.toNat = s.nextHandle.toNat + additions cs := by
  induction cs generalizing s with
  | nil => rfl
  | cons c cs ih => exact (ih h.perform).trans h.toNat_nextHandle

theorem length_handed (s : AnnotationStore) (cs : List Change) :
    (s.handed cs).length = additions cs := by
  induction cs generalizing s with
  | nil => rfl
  | cons c cs ih =>
    rw [handed, List.length_append, ih, additions_cons]
    rcases (s.perform_step c).nextHandle with ⟨ho, -, ha⟩ | ⟨ho, -, ha⟩
    · rw [ho, ha]
      exact Nat.zero_add _
    · rw [ho, if_pos ha]
      exact Nat.add_comm 1 _

theorem handed_bounds {s : AnnotationStore} {cs : List Change} (h : s.RoomFor cs) :
    ∀ k ∈ s.handed cs, s.nextHandle ≤ k ∧ k < (s.after cs).nextHandle := by
  induction cs generalizing s with
  | nil => intro k hk; cases hk
  | cons c cs ih =>
    intro k hk
    rcases List.mem_append.mp hk with hk | hk
    · have hk : (s.perform c).2 = some k := Option.mem_toList.mp hk
      rcases (s.perform_step c).nextHandle with ⟨hno, -, -⟩ | ⟨hsome, -, ha⟩
      · rw [hk] at hno
        cases hno
      · rw [hk] at hsome
        cases hsome
        refine ⟨UInt64.le_refl _, UInt64.lt_iff_toNat_lt.mpr ?_⟩
        rw [toNat_nextHandle_after h, additions_cons, if_pos ha]
        omega
    · obtain ⟨hle, hlt⟩ := ih h.perform k hk
      exact ⟨UInt64.le_trans h.nextHandle_le hle, hlt⟩

/-- **No handle is given out twice.** -/
theorem pairwise_handed {s : AnnotationStore} {cs : List Change} (h : s.RoomFor cs) :
    (s.handed cs).Pairwise (· < ·) := by
  induction cs generalizing s with
  | nil => exact List.Pairwise.nil
  | cons c cs ih =>
    rw [handed, List.pairwise_append]
    refine ⟨?_, ih h.perform, fun k hk m hm => ?_⟩
    · cases (s.perform c).2 <;> simp
    · have hm := (handed_bounds h.perform m hm).1
      have hk : (s.perform c).2 = some k := Option.mem_toList.mp hk
      have hnext := h.toNat_nextHandle
      rcases (s.perform_step c).nextHandle with ⟨hno, -, -⟩ | ⟨hsome, -, ha⟩
      · rw [hk] at hno
        cases hno
      · rw [hk] at hsome
        cases hsome
        rw [additions_cons, if_pos ha] at hnext
        exact UInt64.lt_of_lt_of_le (UInt64.lt_iff_toNat_lt.mpr (by omega)) hm

/-! ### The invariant -/

/-- **The representation of a store.** -/
structure Sound (s : AnnotationStore) : Prop where
  increasing : (s.entries.map (·.1)).Pairwise (· < ·)
  below : ∀ k ∈ s.entries.map (·.1), k < s.nextHandle
  filed : ∀ a, (s.handlesAt a).Pairwise (· < ·)
  indexed : s.dirty = false → s.index = s.entries.foldl file .empty

theorem mem_placeHandle {n k : Handle} {ms : List Handle} :
    k ∈ placeHandle n ms ↔ k = n ∨ k ∈ ms := by
  induction ms with
  | nil => simp [placeHandle]
  | cons m ms ih =>
    unfold placeHandle
    split_ifs with hlt heq
    · exact List.mem_cons
    · subst heq
      simp
    · rw [List.mem_cons, ih, List.mem_cons]
      tauto

theorem pairwise_placeHandle (n : Handle) {ms : List Handle} (h : ms.Pairwise (· < ·)) :
    (placeHandle n ms).Pairwise (· < ·) := by
  induction ms with
  | nil => simp [placeHandle]
  | cons m ms ih =>
    obtain ⟨hm, hms⟩ := List.pairwise_cons.mp h
    unfold placeHandle
    split_ifs with hlt heq
    · refine List.pairwise_cons.mpr ⟨fun k hk => ?_, h⟩
      rcases List.mem_cons.mp hk with rfl | hk
      · exact hlt
      · exact UInt64.lt_trans hlt (hm k hk)
    · exact h
    · refine List.pairwise_cons.mpr ⟨fun k hk => ?_, ih hms⟩
      rcases mem_placeHandle.mp hk with rfl | hk
      · exact UInt64.lt_of_le_of_ne (UInt64.not_lt.mp hlt) (Ne.symm heq)
      · exact hm k hk

theorem filedAt_file (index : Table (List Handle)) (e : Handle × Annotation) (a : Address) :
    filedAt (file index e) a =
      if e.2.address = a then placeHandle e.1 (filedAt index a) else filedAt index a := by
  unfold file
  by_cases ha : e.2.address = a
  · rw [if_pos ha, ← ha]
    unfold filedAt
    rw [Table.get?_insert_self]
    rfl
  · rw [if_neg ha]
    unfold filedAt
    rw [Table.get?_insert_of_ne _ (Ne.symm ha)]

/-- Every index that is built has its handles in increasing order. -/
theorem pairwise_filedAt (es : List (Handle × Annotation)) (a : Address) :
    ∀ index : Table (List Handle), (filedAt index a).Pairwise (· < ·) →
      (filedAt (es.foldl file index) a).Pairwise (· < ·) := by
  induction es with
  | nil => exact fun index h => h
  | cons e es ih =>
    intro index h
    refine ih _ ?_
    rw [filedAt_file]
    split_ifs
    · exact pairwise_placeHandle e.1 h
    · exact h

/-- An index that is built has the handles of the annotations at each address. -/
theorem mem_filedAt {es : List (Handle × Annotation)} {index : Table (List Handle)} {a : Address}
    {k : Handle} : k ∈ filedAt (es.foldl file index) a ↔
      k ∈ filedAt index a ∨ ∃ n, (k, n) ∈ es ∧ n.address = a := by
  induction es generalizing index with
  | nil => simp
  | cons e es ih =>
    rw [List.foldl_cons, ih, filedAt_file]
    by_cases ha : e.2.address = a
    · rw [if_pos ha, mem_placeHandle]
      constructor
      · rintro ((rfl | hk) | ⟨n, hn, hna⟩)
        · exact .inr ⟨e.2, List.mem_cons_self, ha⟩
        · exact .inl hk
        · exact .inr ⟨n, List.mem_cons_of_mem e hn, hna⟩
      · rintro (hk | ⟨n, hn, hna⟩)
        · exact .inl (.inr hk)
        · rcases List.mem_cons.mp hn with rfl | hn
          · exact .inl (.inl rfl)
          · exact .inr ⟨n, hn, hna⟩
    · rw [if_neg ha]
      refine or_congr_right (exists_congr fun n => and_congr_left fun hna => ?_)
      rw [List.mem_cons, or_iff_right]
      rintro rfl
      exact ha hna

theorem sound_empty : empty.Sound :=
  ⟨List.Pairwise.nil, fun _ hk => absurd hk List.not_mem_nil, fun _ => List.Pairwise.nil,
    fun _ => rfl⟩

/-- Every step that leaves a handle keeps the representation. -/
theorem Sound.step {s t : AnnotationStore} {c : Change} {o : Option Handle} (h : s.Sound)
    (hroom : s.RoomFor [c]) (hs : Step s c t o) : t.Sound := by
  cases hs with
  | refused _ => exact h
  | @added c a hc =>
    have hmap : (s.insert a).1.entries.map (·.1) = s.entries.map (·.1) ++ [s.nextHandle] := by
      simp [insert]
    have hnext : s.nextHandle < s.nextHandle + 1 := by
      unfold RoomFor at hroom
      rw [additions_of_adds hc] at hroom
      rw [UInt64.lt_iff_toNat_lt, toNat_add_one (by omega)]
      omega
    refine ⟨?_, fun k hk => ?_, h.filed, fun hd => by cases hd⟩
    · rw [hmap, List.pairwise_append]
      refine ⟨h.increasing, List.pairwise_singleton _ _, fun k hk m hm => ?_⟩
      rw [List.mem_singleton.mp hm]
      exact h.below k hk
    · change k < s.nextHandle + 1
      rw [hmap] at hk
      rcases List.mem_append.mp hk with hk | hk
      · exact UInt64.lt_trans (h.below k hk) hnext
      · rw [List.mem_singleton.mp hk]
        exact hnext
  | @replaced k a b front rest hplace =>
    have hmap : (s.holding (front ++ (k, a) :: rest)).entries.map (·.1) = s.entries.map (·.1) := by
      rw [hplace.entries]
      simp [holding]
    refine ⟨?_, fun m hm => ?_, h.filed, fun hd => by cases hd⟩
    · rw [hmap]
      exact h.increasing
    · rw [hmap] at hm
      exact h.below m hm
  | @removed k b front rest hplace =>
    have hsub : ((s.holding (front ++ rest)).entries.map (·.1)).Sublist (s.entries.map (·.1)) := by
      rw [hplace.entries]
      exact ((List.sublist_cons_self _ _).append_left front).map _
    exact ⟨h.increasing.sublist hsub, fun m hm => h.below m (hsub.subset hm), h.filed,
      fun hd => by cases hd⟩
  | cleared =>
    exact ⟨List.Pairwise.nil, fun _ hk => absurd hk List.not_mem_nil, fun _ => List.Pairwise.nil,
      fun _ => rfl⟩
  | reindexed =>
    exact ⟨h.increasing, h.below, fun a => pairwise_filedAt s.entries a .empty List.Pairwise.nil,
      fun _ => rfl⟩

theorem RoomFor.head {s : AnnotationStore} {c : Change} {cs : List Change}
    (h : s.RoomFor (c :: cs)) : s.RoomFor [c] := by
  unfold RoomFor at h ⊢
  rw [additions_cons] at h ⊢
  exact Nat.lt_of_le_of_lt (by simp [additions]) h

theorem Sound.after {s : AnnotationStore} (h : s.Sound) {cs : List Change} (hroom : s.RoomFor cs) :
    (s.after cs).Sound := by
  induction cs generalizing s with
  | nil => exact h
  | cons c cs ih => exact ih (h.step hroom.head (s.perform_step c)) hroom.perform

/-! ### What a handle resolves to -/

theorem get?_insert_of_lt (s : AnnotationStore) (a : Annotation) {k : Handle}
    (hk : k < s.nextHandle) : (s.insert a).1.get? k = s.get? k := by
  have hne : (s.nextHandle == k) = false := beq_eq_false_iff_ne.mpr (UInt64.ne_of_lt hk).symm
  unfold get? insert
  rw [List.find?_append, List.find?_cons_of_neg (by simp [hne]), List.find?_nil, Option.or_none]

theorem Sound.get?_insert_self {s : AnnotationStore} (h : s.Sound) (a : Annotation) :
    (s.insert a).1.get? s.nextHandle = some a := by
  have hno : s.entries.find? (fun e => e.1 == s.nextHandle) = none := by
    rw [List.find?_eq_none]
    intro e he heq
    exact UInt64.ne_of_lt (h.below e.1 (List.mem_map_of_mem he)) (beq_iff_eq.mp heq)
  unfold get? insert
  rw [List.find?_append, hno, Option.none_or, List.find?_cons_of_pos (by simp)]
  rfl

section Place
variable {s : AnnotationStore} {k : Handle} {a : Annotation}
  {front rest : List (Handle × Annotation)}

/-- What stands at the place of a handle does not count for others. -/
theorem get?_holding_of_ne {m : Handle} (hm : m ≠ k) (b : Annotation) :
    (s.holding (front ++ (k, b) :: rest)).get? m = (s.holding (front ++ rest)).get? m := by
  unfold get? holding
  rw [List.find?_append, List.find?_append,
    List.find?_cons_of_neg (by simpa using Ne.symm hm)]

theorem Place.get?_of_ne (h : s.Place k front a rest) {m : Handle} (hm : m ≠ k) :
    s.get? m = (s.holding (front ++ rest)).get? m := by
  rw [← get?_holding_of_ne hm a, ← h.entries]
  rfl

theorem Place.get?_replaced (h : s.Place k front a rest) (b : Annotation) :
    (s.holding (front ++ (k, b) :: rest)).get? k = some b := by
  have hno : front.find? (fun e => e.1 == k) = none :=
    List.find?_eq_none.mpr fun e he => by simpa using h.first e he
  unfold get? holding
  rw [List.find?_append, hno, Option.none_or, List.find?_cons_of_pos (by simp)]
  rfl

/-- There is no second annotation under the handle. -/
theorem Sound.get?_removed (hs : s.Sound) (h : s.Place k front a rest) :
    (s.holding (front ++ rest)).get? k = none := by
  have hinc := hs.increasing
  rw [h.entries, List.map_append, List.map_cons, List.pairwise_append, List.pairwise_cons] at hinc
  obtain ⟨-, ⟨hrest, -⟩, -⟩ := hinc
  unfold get? holding
  rw [Option.map_eq_none_iff, List.find?_eq_none]
  intro e he heq
  have heq : e.1 = k := beq_iff_eq.mp heq
  rcases List.mem_append.mp he with he | he
  · exact h.first e he heq
  · exact UInt64.ne_of_lt (hrest e.1 (List.mem_map_of_mem he)) heq.symm

end Place

/-- What a step does to a handle that was given out before. -/
theorem Sound.get?_step {s t : AnnotationStore} {c : Change} {o : Option Handle} (hs : s.Sound)
    (h : Step s c t o) {k : Handle} (hk : k < s.nextHandle) : t.get? k = s.get? k ∨
      (c.Touches k ∧ (t.get? k = none ∨ ((s.get? k).isSome ∧ ∃ a, c = .replace k a))) := by
  cases h with
  | refused _ => exact .inl rfl
  | @added c a _ => exact .inl (s.get?_insert_of_lt a hk)
  | @replaced m a b front rest hm =>
    by_cases hmk : k = m
    · subst hmk
      have hsome : (s.get? k).isSome := by
        have hself := hm.get?_replaced b
        rw [← hm.entries] at hself
        exact Option.isSome_iff_exists.mpr ⟨b, hself⟩
      exact .inr ⟨rfl, .inr ⟨hsome, a, rfl⟩⟩
    · rw [get?_holding_of_ne hmk, ← hm.get?_of_ne hmk]
      exact .inl rfl
  | @removed m b front rest hm =>
    by_cases hmk : k = m
    · subst hmk
      exact .inr ⟨rfl, .inl (hs.get?_removed hm)⟩
    · exact .inl (hm.get?_of_ne hmk).symm
  | cleared => exact .inr ⟨trivial, .inl rfl⟩
  | reindexed => exact .inl rfl

/-- **A handle is not given to another annotation**: unless the annotation under it is replaced, it
resolves to what it resolved to before, or to nothing. -/
theorem Sound.get?_after {s : AnnotationStore} (hs : s.Sound) {k : Handle} (hk : k < s.nextHandle)
    {cs : List Change} (hroom : s.RoomFor cs) (hcs : s.get? k = none ∨ ∀ a, .replace k a ∉ cs) :
    (s.after cs).get? k = none ∨ (s.after cs).get? k = s.get? k := by
  induction cs generalizing s with
  | nil => exact .inr rfl
  | cons c cs ih =>
    have ih := ih (hs.step hroom.head (s.perform_step c))
      (UInt64.lt_of_lt_of_le hk hroom.nextHandle_le) hroom.perform
    rcases hs.get?_step (s.perform_step c) hk with he | ⟨-, hn | ⟨hsome, a, rfl⟩⟩
    · rw [← he] at hcs ⊢
      exact ih (hcs.imp_right fun hno a ha => hno a (List.mem_cons_of_mem c ha))
    · exact .inl ((ih (.inl hn)).elim id fun he => he.trans hn)
    · rcases hcs with hn | hno
      · rw [hn] at hsome
        cases hsome
      · exact absurd List.mem_cons_self (hno a)

theorem Sound.get?_after_of_untouched {s : AnnotationStore} (hs : s.Sound) {k : Handle}
    (hk : k < s.nextHandle) {cs : List Change} (hroom : s.RoomFor cs)
    (hcs : ∀ c ∈ cs, ¬ c.Touches k) : (s.after cs).get? k = s.get? k := by
  induction cs generalizing s with
  | nil => rfl
  | cons c cs ih =>
    have hrest := ih (hs.step hroom.head (s.perform_step c))
      (UInt64.lt_of_lt_of_le hk hroom.nextHandle_le) hroom.perform
      fun d hd => hcs d (List.mem_cons_of_mem c hd)
    rcases hs.get?_step (s.perform_step c) hk with he | ⟨ht, -⟩
    · exact hrest.trans he
    · exact absurd ht (hcs c List.mem_cons_self)

/-- **What does not resolve any more** never does so again, also after one more change. -/
theorem Sound.get?_after_of_none {s : AnnotationStore} (hs : s.Sound) {k : Handle}
    (hk : k < s.nextHandle) {c : Change} (hc : c.adds? = none)
    (h : (s.perform c).1.get? k = none) {cs : List Change} (hroom : s.RoomFor cs) :
    ((s.perform c).1.after cs).get? k = none := by
  have hroom : s.RoomFor (c :: cs) := by
    unfold RoomFor at hroom ⊢
    rwa [additions_cons, hc]
  have hafter := (hs.step hroom.head (s.perform_step c)).get?_after
    (UInt64.lt_of_lt_of_le hk hroom.nextHandle_le) hroom.perform (.inl h)
  exact hafter.elim id fun he => he.trans h

theorem Sound.get?_remove {s : AnnotationStore} (hs : s.Sound) (k : Handle) :
    (s.perform (.remove k)).1.get? k = none := by
  rw [perform]
  cases hk : s.get? k with
  | none =>
    rw [remove_of_none hk]
    exact hk
  | some a =>
    obtain ⟨front, rest, hplace, hp⟩ := exists_place hk
    rw [remove_of_place hplace hp]
    exact hs.get?_removed hplace

/-! ### The index -/

/-- The annotations at an address, with their handles. -/
def entriesAt (s : AnnotationStore) (a : Address) : List (Handle × Annotation) :=
  s.entries.filter fun e => e.2.address == a

/-- A handle above all others is placed behind them. -/
theorem placeHandle_of_lt {n : Handle} {ms : List Handle} (h : ∀ m ∈ ms, m < n) :
    placeHandle n ms = ms ++ [n] := by
  induction ms with
  | nil => rfl
  | cons m ms ih =>
    have hm := h m List.mem_cons_self
    rw [placeHandle, if_neg (UInt64.lt_asymm hm), if_neg (UInt64.ne_of_lt hm).symm,
      ih fun k hk => h k (List.mem_cons_of_mem m hk)]
    rfl

/-- Handles in increasing order are filed as they stand. -/
theorem filedAt_foldl {es : List (Handle × Annotation)} {index : Table (List Handle)} (a : Address)
    (h : (filedAt index a ++ es.map (·.1)).Pairwise (· < ·)) : filedAt (es.foldl file index) a =
      filedAt index a ++ (es.filter fun e => e.2.address == a).map (·.1) := by
  induction es generalizing index with
  | nil => simp
  | cons e es ih =>
    rw [List.map_cons] at h
    obtain ⟨hfiled, htail, hacross⟩ := List.pairwise_append.mp h
    have hplace : placeHandle e.1 (filedAt index a) = filedAt index a ++ [e.1] :=
      placeHandle_of_lt fun m hm => hacross m hm e.1 List.mem_cons_self
    rw [List.foldl_cons]
    by_cases ha : e.2.address = a
    · have hstep : filedAt (file index e) a = filedAt index a ++ [e.1] := by
        rw [filedAt_file, if_pos ha, hplace]
      rw [ih (by rwa [hstep, List.append_assoc]), hstep, List.append_assoc,
        List.filter_cons_of_pos (by simpa using ha)]
      rfl
    · have hstep : filedAt (file index e) a = filedAt index a := by
        rw [filedAt_file, if_neg ha]
      have hskip : (filedAt index a ++ es.map (·.1)).Pairwise (· < ·) :=
        h.sublist ((List.sublist_cons_self _ _).append_left _)
      rw [ih (by rwa [hstep]), hstep, List.filter_cons_of_neg (by simpa using ha)]

section Clean
variable {s : AnnotationStore} (h : s.Sound)
include h

theorem Sound.get?_eq_some {k : Handle} {n : Annotation} :
    s.get? k = some n ↔ (k, n) ∈ s.entries := by
  constructor
  · intro hn
    obtain ⟨e, he, rfl⟩ := Option.map_eq_some_iff.mp hn
    have hk : e.1 = k := by simpa using List.find?_some he
    rw [← hk]
    exact List.mem_of_find?_eq_some he
  · intro hmem
    have hsome : (s.entries.find? fun e => e.1 == k).isSome := by
      rw [List.find?_isSome]
      exact ⟨(k, n), hmem, by simp⟩
    obtain ⟨e, he⟩ := Option.isSome_iff_exists.mp hsome
    have hk : e.1 = k := by simpa using List.find?_some he
    -- two entries under one handle are the same
    have hinj := List.inj_on_of_nodup_map (h.increasing.imp fun hlt => UInt64.ne_of_lt hlt)
      (List.mem_of_find?_eq_some he) hmem hk
    unfold get?
    rw [he, hinj]
    rfl

variable (hd : s.dirty = false)
include hd

/-- **The handles at an address stand in the order of the annotations there.** -/
theorem Sound.handlesAt_eq (a : Address) : s.handlesAt a = (s.entriesAt a).map (·.1) := by
  unfold handlesAt
  rw [h.indexed hd]
  exact filedAt_foldl a h.increasing

theorem Sound.mem_handlesAt {a : Address} {k : Handle} :
    k ∈ s.handlesAt a ↔ ∃ n, s.get? k = some n ∧ n.address = a := by
  rw [h.handlesAt_eq hd]
  simp only [entriesAt, List.mem_map, List.mem_filter, beq_iff_eq, h.get?_eq_some]
  constructor
  · rintro ⟨e, ⟨he, ha⟩, rfl⟩
    exact ⟨e.2, he, ha⟩
  · rintro ⟨n, hn, ha⟩
    exact ⟨(k, n), ⟨hn, ha⟩, rfl⟩

theorem Sound.indexedAt_eq (a : Address) : s.indexedAt a = (s.entriesAt a).map (·.2) := by
  unfold indexedAt
  rw [h.handlesAt_eq hd, List.filterMap_map, ← List.filterMap_eq_map]
  refine List.filterMap_congr fun e he => ?_
  exact h.get?_eq_some.mpr (List.mem_filter.mp he).1

/-- **The first load reference at an address** is the first one in the collection. -/
theorem Sound.loadReferenceAt?_eq (a : Address) : s.loadReferenceAt? a =
    (s.annotations.filter fun n => n.address == a).findSome? Annotation.loadReference? := by
  unfold loadReferenceAt? annotations
  rw [h.indexedAt_eq hd, List.filter_map]
  rfl

end Clean

/-! ### The law of a history -/

/-- **What a store keeps to**, once some handles have been given out. Later changes may add
annotations as long as there are words for their handles. -/
structure Faithful (s : AnnotationStore) (given : List Handle) : Prop where
  /-- The handles of the collection are in increasing order. -/
  increasing : (s.entries.map (·.1)).Pairwise (· < ·)
  below : ∀ k ∈ s.entries.map (·.1), k < s.nextHandle
  /-- No handle was given out twice. -/
  given_increasing : given.Pairwise (· < ·)
  given_below : ∀ k ∈ given, k < s.nextHandle
  /-- An addition puts its annotation at the end, under a handle that is new. -/
  adds : ∀ c a, c.adds? = some a → ∃ k, k ∉ given ∧ (s.perform c).2 = some k ∧
    (s.perform c).1.entries = s.entries ++ [(k, a)] ∧ (s.perform c).1.get? k = some a
  replaces : ∀ k a, (s.get? k).isSome → (s.perform (.replace k a)).1.get? k = some a
  /-- A handle that was given out resolves to the same annotation until that one is touched. -/
  keeps : ∀ k ∈ given, ∀ later, given.length + additions later < UInt64.size →
    (∀ c ∈ later, ¬ c.Touches k) → (s.after later).get? k = s.get? k
  /-- It is not given to another annotation. -/
  owns : ∀ k ∈ given, ∀ later, given.length + additions later < UInt64.size →
    (∀ a, .replace k a ∉ later) →
    (s.after later).get? k = none ∨ (s.after later).get? k = s.get? k
  /-- What does not resolve any more never does so again. -/
  forgets : ∀ k ∈ given, s.get? k = none → ∀ later, given.length + additions later < UInt64.size →
    (s.after later).get? k = none
  removes : ∀ k ∈ given, ∀ later, given.length + additions later < UInt64.size →
    ((s.perform (.remove k)).1.after later).get? k = none
  clears : ∀ k ∈ given, ∀ later, given.length + additions later < UInt64.size →
    ((s.perform .clear).1.after later).get? k = none
  /-- The handles at an address are those of the annotations there. -/
  at_iff : s.dirty = false → ∀ a k, k ∈ s.handlesAt a ↔ ∃ n, s.get? k = some n ∧ n.address = a
  at_increasing : ∀ a, (s.handlesAt a).Pairwise (· < ·)
  reference : s.dirty = false → ∀ a, s.loadReferenceAt? a =
    (s.annotations.filter fun n => n.address == a).findSome? Annotation.loadReference?
  /-- The index can be rebuilt, and nothing else is changed by that. -/
  reindexes : (s.perform .reindex).1.dirty = false ∧
    (s.perform .reindex).1.entries = s.entries ∧
    (s.perform .reindex).1.nextHandle = s.nextHandle
  /-- What fails, or finds no annotation under its handle, changes nothing. -/
  refuses : ∀ c, s.Refuses c → s.perform c = (s, none)

/-- **Every history of changes leaves a faithful store**, as long as there are words for the
handles. -/
theorem faithful_after (done : List Change) (hroom : additions done < UInt64.size) :
    (empty.after done).Faithful (empty.handed done) := by
  have hroom : empty.RoomFor done := by
    unfold RoomFor
    rwa [show empty.nextHandle.toNat = 0 from rfl, Nat.zero_add]
  have hs : (empty.after done).Sound := sound_empty.after hroom
  have hbelow : ∀ k ∈ empty.handed done, k < (empty.after done).nextHandle :=
    fun k hk => (handed_bounds hroom k hk).2
  have hlater : ∀ later, (empty.handed done).length + additions later < UInt64.size →
      (empty.after done).RoomFor later := by
    intro later h
    have hnext := toNat_nextHandle_after hroom
    rw [length_handed] at h
    unfold RoomFor
    rwa [hnext, show empty.nextHandle.toNat = 0 from rfl, Nat.zero_add]
  refine
    { increasing := hs.increasing
      below := hs.below
      given_increasing := pairwise_handed hroom
      given_below := hbelow
      adds := fun c a hc => ?_
      replaces := fun k a hk => ?_
      keeps := fun k hk later hl hno =>
        hs.get?_after_of_untouched (hbelow k hk) (hlater later hl) hno
      owns := fun k hk later hl hno => hs.get?_after (hbelow k hk) (hlater later hl) (.inr hno)
      forgets := fun k hk hn later hl =>
        (hs.get?_after (hbelow k hk) (hlater later hl) (.inl hn)).elim id fun he => he.trans hn
      removes := fun k hk later hl =>
        hs.get?_after_of_none (hbelow k hk) rfl (hs.get?_remove k) (hlater later hl)
      clears := fun k hk later hl => hs.get?_after_of_none (hbelow k hk) rfl rfl (hlater later hl)
      at_iff := fun hd a k => hs.mem_handlesAt hd
      at_increasing := hs.filed
      reference := fun hd a => hs.loadReferenceAt?_eq hd a
      reindexes := ⟨rfl, rfl, rfl⟩
      refuses := fun c hc => perform_of_refuses hc }
  · rw [perform_of_adds hc]
    refine ⟨_, fun hk => ?_, rfl, rfl, hs.get?_insert_self a⟩
    exact UInt64.lt_irrefl _ (hbelow _ hk)
  · obtain ⟨b, hb⟩ := Option.isSome_iff_exists.mp hk
    obtain ⟨front, rest, hplace, hp⟩ := exists_place hb
    rw [perform, replace_of_place hplace hp]
    exact hplace.get?_replaced a

namespace Notes

def note : Annotation := ⟨0x10, .comment "start"⟩

def moved : Annotation := ⟨0x20, .comment "start"⟩

/-- Two notes at one address, of which the first is moved and the second removed. -/
def history : List Change :=
  [.insert note, .insert note, .replace 0 moved, .remove 1, .add "unknown" 0x10 .null, .reindex]

/-- The notes have the first two handles, and the second one is gone for good. -/
theorem removed_for_good :
    additions history < UInt64.size ∧ empty.handed history = [0, 1] ∧
    ∀ later, 2 + additions later < UInt64.size →
      ((empty.after history).after later).get? 1 = none := by
  have hroom : additions history < UInt64.size := by decide
  exact ⟨hroom, rfl, fun later hl =>
    (faithful_after history hroom).forgets 1 (by decide) rfl later hl⟩

end Notes

end AnnotationStore

end FlowState
