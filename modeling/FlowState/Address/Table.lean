import FlowState.Address

/-! # Tables over addresses

A table maps addresses to values and lists them in increasing order of the addresses. Writing at an
address that has a value replaces it. -/

namespace FlowState

/-- A map from addresses, listed in increasing order. -/
structure Table (α : Type) where
  entries : List (Address × α)
  deriving Repr, DecidableEq

namespace Table

variable {α : Type}

/-- The table without entries. -/
def empty : Table α := ⟨[]⟩

instance : Inhabited (Table α) := ⟨empty⟩

/-- Places a value among entries in increasing order. -/
def insertEntry (a : Address) (v : α) : List (Address × α) → List (Address × α)
  | [] => [(a, v)]
  | e :: es =>
    if a < e.1 then (a, v) :: e :: es
    else if a = e.1 then (a, v) :: es
    else e :: insertEntry a v es

/-- **The table with the value written at the address.** -/
def insert (t : Table α) (a : Address) (v : α) : Table α := ⟨insertEntry a v t.entries⟩

/-- **The value at the address.** -/
def get? (t : Table α) (a : Address) : Option α := (t.entries.find? fun e => e.1 == a).map (·.2)

/-- The address has a value. -/
def contains (t : Table α) (a : Address) : Bool := (t.get? a).isSome

/-- The addresses with a value, in increasing order. -/
def keys (t : Table α) : List Address := t.entries.map (·.1)

/-- The table of a list of values; the last one at an address stays. -/
def ofList (es : List (Address × α)) : Table α := es.foldl (fun t e => t.insert e.1 e.2) empty

/-! ### Look-up after writing -/

theorem find?_insertEntry_self (a : Address) (v : α) (es : List (Address × α)) :
    (insertEntry a v es).find? (fun e => e.1 == a) = some (a, v) := by
  induction es with
  | nil => simp [insertEntry]
  | cons e es ih =>
    unfold insertEntry
    split
    · simp
    · split
      · simp
      · rename_i h
        have : (e.1 == a) = false := by simpa using Ne.symm h
        simp [this, ih]

theorem find?_insertEntry_of_ne {a b : Address} (h : b ≠ a) (v : α) (es : List (Address × α)) :
    (insertEntry a v es).find? (fun e => e.1 == b) = es.find? (fun e => e.1 == b) := by
  have hab : (a == b) = false := by simpa using Ne.symm h
  induction es with
  | nil => simp [insertEntry, hab]
  | cons e es ih =>
    unfold insertEntry
    split
    · simp [List.find?_cons, hab]
    · split
      · rename_i he
        simp [hab, ← he]
      · simp [List.find?_cons, ih]

@[simp] theorem get?_insert_self (t : Table α) (a : Address) (v : α) :
    (t.insert a v).get? a = some v := by
  simp [get?, insert, find?_insertEntry_self]

theorem get?_insert_of_ne (t : Table α) {a b : Address} (h : b ≠ a) (v : α) :
    (t.insert a v).get? b = t.get? b := by
  simp [get?, insert, find?_insertEntry_of_ne h]

theorem get?_insert (t : Table α) (a b : Address) (v : α) :
    (t.insert a v).get? b = if b = a then some v else t.get? b := by
  split
  · rename_i h; subst h; simp
  · rename_i h; exact get?_insert_of_ne t h v

@[simp] theorem get?_empty (a : Address) : (empty : Table α).get? a = none := rfl

end Table

/-- The addresses in increasing order, each once. -/
def Address.sorted (as : List Address) : List Address :=
  (Table.ofList (as.map fun a => (a, ()))).keys

end FlowState
