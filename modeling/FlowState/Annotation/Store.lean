import FlowState.Address.Table
import FlowState.Annotation
import Std.Data.HashMap

/-! # The annotation store

Annotations in the order in which they were added, each under a handle of its own.
Look-ups by address go through an index that is rebuilt on request: until then it shows the
annotations as they were, and the store is dirty. Two stores are compared by counting their
annotations, whatever their order. -/

namespace FlowState

/-- What an annotation of a store is known by. -/
abbrev Handle := UInt64

/-- The annotations of an image. -/
structure AnnotationStore where
  entries : List (Handle × Annotation)
  nextHandle : Handle
  /-- The handles at each address, in increasing order, at the last time the index was built. -/
  index : Table (List Handle)
  dirty : Bool
  deriving Repr, DecidableEq

namespace AnnotationStore

/-- The store without annotations. -/
def empty : AnnotationStore := ⟨[], 0, .empty, false⟩

instance : Inhabited AnnotationStore := ⟨empty⟩

/-- The annotations in their order. -/
def annotations (s : AnnotationStore) : List Annotation := s.entries.map (·.2)

/-! ### Changes

A change gives the store that it leaves behind, also if it fails. -/

/-- **Adds an annotation** under the next handle. Handles are words, so the one behind the last word
is zero again. -/
def insert (s : AnnotationStore) (a : Annotation) : AnnotationStore × Handle :=
  ({ s with
      entries := s.entries ++ [(s.nextHandle, a)]
      nextHandle := s.nextHandle + 1
      dirty := true }, s.nextHandle)

/-- Adds the annotation that was made, if it was. -/
def insertMade (s : AnnotationStore) (made : Except AnnotationError Annotation) :
    AnnotationStore × Except AnnotationError Handle :=
  match made with
  | .error e => (s, .error e)
  | .ok a => ((s.insert a).1, .ok (s.insert a).2)

/-- Adds an annotation from the name of its kind and its fields. -/
def add (s : AnnotationStore) (kind : String) (anchor : Address) (fields : Json) :
    AnnotationStore × Except AnnotationError Handle :=
  s.insertMade <| Annotation.ofFields kind anchor fields

/-- Adds a new annotation of a kind. -/
def create (s : AnnotationStore) (kind : String) (anchor : Address) :
    AnnotationStore × Except AnnotationError Handle :=
  s.insertMade <| Annotation.fresh kind anchor

/-- **The annotation of a handle.** -/
def get? (s : AnnotationStore) (handle : Handle) : Option Annotation :=
  (s.entries.find? fun e => e.1 == handle).map (·.2)

/-- The place of the first annotation under a handle. -/
def position? (s : AnnotationStore) (handle : Handle) : Option Nat :=
  s.entries.findIdx? fun e => e.1 == handle

/-- **Removes the annotation of a handle**; the store stays as it is if there is none. -/
def remove (s : AnnotationStore) (handle : Handle) : AnnotationStore × Option Annotation :=
  match s.position? handle with
  | none => (s, none)
  | some k =>
    ({ s with entries := s.entries.eraseIdx k, dirty := true }, (s.entries[k]?).map (·.2))

/-- Puts another annotation under a handle, if it has one. -/
def replace (s : AnnotationStore) (handle : Handle) (a : Annotation) : AnnotationStore × Bool :=
  match s.position? handle with
  | none => (s, false)
  | some k => ({ s with entries := s.entries.set k (handle, a), dirty := true }, true)

/-- Removes everything; the next handle stays. -/
def clear (s : AnnotationStore) : AnnotationStore :=
  { s with entries := [], index := .empty, dirty := false }

/-- Places a handle among handles in increasing order, each once. -/
def placeHandle (n : Handle) : List Handle → List Handle
  | [] => [n]
  | m :: ms => if n < m then n :: m :: ms else if n = m then m :: ms else m :: placeHandle n ms

/-- The handles at an address, as an index has them. -/
def filedAt (index : Table (List Handle)) (a : Address) : List Handle := (index.get? a).getD []

/-- An index with one more handle at the address of its annotation. -/
def file (index : Table (List Handle)) (e : Handle × Annotation) : Table (List Handle) :=
  index.insert e.2.address (placeHandle e.1 (filedAt index e.2.address))

/-- **Builds the index** from the annotations as they are. -/
def reindex (s : AnnotationStore) : AnnotationStore :=
  { s with index := s.entries.foldl file .empty, dirty := false }

/-- The store of some annotations, indexed. -/
def ofAnnotations (as : List Annotation) : AnnotationStore :=
  (as.foldl (fun s a => (s.insert a).1) empty).reindex

/-! ### Look-up -/

/-- The handle at a position. -/
def handleAt? (s : AnnotationStore) (n : Nat) : Option Handle := (s.entries[n]?).map (·.1)

/-- The handles at an address in increasing order, as the index has them. -/
def handlesAt (s : AnnotationStore) (a : Address) : List Handle := filedAt s.index a

/-- The annotations under the handles that the index has at an address. -/
def indexedAt (s : AnnotationStore) (a : Address) : List Annotation :=
  (s.handlesAt a).filterMap s.get?

/-- The addresses that load references at an address tie together, in increasing order. -/
def associated (s : AnnotationStore) (a : Address) : List Address :=
  Address.sorted <| (s.indexedAt a).flatMap fun n =>
    match n.loadReference? with
    | some r => n.address :: r.addrLoad.toList ++ r.dataLoad.toList
    | none => []

/-- **The first load reference at an address.** -/
def loadReferenceAt? (s : AnnotationStore) (a : Address) : Option LoadReference :=
  (s.indexedAt a).findSome? Annotation.loadReference?

/-- The entry points, each once. -/
def entryPoints (s : AnnotationStore) : List EntryPoint :=
  (s.annotations.filterMap Annotation.entryPoint?).eraseDups

/-- There is an entry point at an address. -/
def hasEntryPointAt (s : AnnotationStore) (a : Address) : Bool :=
  s.annotations.any fun n => n.address == a && n.entryPoint?.isSome

/-- The kinds that are asked for by address; the last one at an address counts. -/
def overrides (s : AnnotationStore) : Table InstructionKind :=
  Table.ofList <| s.annotations.filterMap fun n =>
    match n.payload with
    | .instructionType k => some (n.address, k)
    | _ => none

/-! ### Comparison -/

/-- How often annotations are counted; one that is not counted has no entry. -/
abbrev Tally := Std.HashMap Annotation Int

/-- Counts an annotation `d` times more. -/
def Tally.count (d : Int) (counts : Tally) (a : Annotation) : Tally :=
  counts.alter a fun n => some (n.getD 0 + d)

/-- Every annotation of the first list counted up, and every one of the second list down. -/
def Tally.difference (as bs : List Annotation) : Tally :=
  bs.foldl (count (-1)) (as.foldl (count 1) ∅)

/-- **The two stores hold the same annotations**, each as often, in whatever order. -/
def sameContents (s t : AnnotationStore) : Bool :=
  s.entries.length == t.entries.length &&
    (Tally.difference s.annotations t.annotations).all fun _ n => n == 0

end AnnotationStore

end FlowState
