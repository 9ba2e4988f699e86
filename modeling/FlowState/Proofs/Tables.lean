import FlowState.Address.Table
import Mathlib.Data.List.Sort

/-! # Tables in order

A table that is made by writing into the empty one lists its addresses in strictly increasing order
(`Sorted.insert`). Such a table is determined by its look-ups (`Sorted.ext`), and its keys by the
addresses that have a value (`Sorted.keys_ext`). Writing at a new address adds one entry and leaves
the other ones as they are (`perm_insert`). -/

namespace FlowState

namespace Table

variable {α β : Type}

/-- The addresses are listed in strictly increasing order. -/
def Sorted (t : Table α) : Prop := t.entries.Pairwise fun e f => e.1 < f.1

theorem sorted_empty : (empty : Table α).Sorted := List.Pairwise.nil

/-! ### Entries and look-ups -/

theorem mem_keys {t : Table α} {a : Address} : a ∈ t.keys ↔ (t.get? a).isSome := by
  simp [keys, get?]

theorem mem_keys_of_get? {t : Table α} {a : Address} {v : α} (h : t.get? a = some v) :
    a ∈ t.keys := by
  rw [mem_keys, h]; rfl

theorem exists_get?_of_mem_keys {t : Table α} {a : Address} (h : a ∈ t.keys) :
    ∃ v, t.get? a = some v := Option.isSome_iff_exists.mp (mem_keys.mp h)

theorem get?_eq_none {t : Table α} {a : Address} : t.get? a = none ↔ a ∉ t.keys := by
  rw [mem_keys]; simp

theorem mem_entries_of_get? {t : Table α} {a : Address} {v : α} (h : t.get? a = some v) :
    (a, v) ∈ t.entries := by
  obtain ⟨e, he, rfl⟩ := Option.map_eq_some_iff.mp h
  have ha : e.1 = a := by simpa using List.find?_some he
  rw [← ha]
  exact List.mem_of_find?_eq_some he

theorem Sorted.get?_of_mem {t : Table α} (ht : t.Sorted) {a : Address} {v : α}
    (h : (a, v) ∈ t.entries) : t.get? a = some v := by
  obtain ⟨es, fs, hes⟩ := List.append_of_mem h
  have hp : (es ++ (a, v) :: fs).Pairwise fun e f => e.1 < f.1 := by rw [← hes]; exact ht
  have hne : ∀ e ∈ es, ¬ (e.1 == a) = true := by
    intro e he hea
    have hlt : e.1 < a := (List.pairwise_append.mp hp).2.2 e he (a, v) (by simp)
    rw [beq_iff_eq.mp hea] at hlt
    exact UInt64.lt_irrefl a hlt
  unfold get?
  rw [hes, List.find?_append, List.find?_eq_none.mpr hne]
  simp

theorem Sorted.get?_eq_some {t : Table α} (ht : t.Sorted) {a : Address} {v : α} :
    t.get? a = some v ↔ (a, v) ∈ t.entries :=
  ⟨mem_entries_of_get?, ht.get?_of_mem⟩

/-- **A sorted table is its look-ups.** -/
theorem Sorted.ext {t u : Table α} (ht : t.Sorted) (hu : u.Sorted)
    (h : ∀ a, t.get? a = u.get? a) : t = u := by
  have hirr : Std.Irrefl fun e f : Address × α => e.1 < f.1 := ⟨fun e => UInt64.lt_irrefl e.1⟩
  have hanti : Std.Antisymm fun e f : Address × α => e.1 < f.1 :=
    ⟨fun e f hef hfe => absurd hfe (UInt64.lt_asymm hef)⟩
  have hent : t.entries = u.entries := by
    refine List.Pairwise.eq_of_mem_iff ht hu ?_
    rintro ⟨a, v⟩
    rw [← ht.get?_eq_some, ← hu.get?_eq_some, h a]
  cases t
  cases u
  exact congrArg Table.mk hent

theorem Sorted.pairwise_keys {t : Table α} (ht : t.Sorted) : t.keys.Pairwise (· < ·) :=
  List.pairwise_map.mpr ht

theorem Sorted.keys_ext {t : Table α} {u : Table β} (ht : t.Sorted) (hu : u.Sorted)
    (h : ∀ a, a ∈ t.keys ↔ a ∈ u.keys) : t.keys = u.keys := by
  have hirr : Std.Irrefl fun a b : Address => a < b := ⟨UInt64.lt_irrefl⟩
  have hanti : Std.Antisymm fun a b : Address => a < b :=
    ⟨fun a b hab hba => absurd hba (UInt64.lt_asymm hab)⟩
  exact ht.pairwise_keys.eq_of_mem_iff hu.pairwise_keys h

/-! ### Writing -/

theorem mem_insertEntry {a : Address} {v : α} {es : List (Address × α)} {e : Address × α}
    (h : e ∈ insertEntry a v es) : e = (a, v) ∨ e ∈ es := by
  induction es with
  | nil => exact Or.inl (List.mem_singleton.mp h)
  | cons f es ih =>
    unfold insertEntry at h
    split_ifs at h
    · exact List.mem_cons.mp h
    · rcases List.mem_cons.mp h with h | h
      · exact Or.inl h
      · exact Or.inr (List.mem_cons_of_mem f h)
    · rcases List.mem_cons.mp h with rfl | h
      · exact Or.inr List.mem_cons_self
      · exact (ih h).imp_right (List.mem_cons_of_mem f)

theorem Sorted.insert {t : Table α} (ht : t.Sorted) (a : Address) (v : α) :
    (t.insert a v).Sorted := by
  obtain ⟨es⟩ := t
  unfold Sorted Table.insert at *
  dsimp only at *
  induction es with
  | nil => exact List.pairwise_singleton _ _
  | cons e es ih =>
    obtain ⟨he, hes⟩ := List.pairwise_cons.mp ht
    unfold insertEntry
    split_ifs with hlt heq
    · refine List.pairwise_cons.mpr ⟨fun f hf => ?_, ht⟩
      rcases List.mem_cons.mp hf with rfl | hf
      · exact hlt
      · exact UInt64.lt_trans hlt (he f hf)
    · subst heq
      exact List.pairwise_cons.mpr ⟨he, hes⟩
    · refine List.pairwise_cons.mpr ⟨fun f hf => ?_, ih hes⟩
      rcases mem_insertEntry hf with rfl | hf
      · exact UInt64.lt_of_le_of_ne (UInt64.not_lt.mp hlt) (Ne.symm heq)
      · exact he f hf

/-- **Writing at a new address** adds one entry. -/
theorem perm_insert {t : Table α} {a : Address} (h : t.get? a = none) (v : α) :
    (t.insert a v).entries.Perm ((a, v) :: t.entries) := by
  have hne : ∀ e ∈ t.entries, a ≠ e.1 := by
    rintro e he rfl
    exact get?_eq_none.mp h (List.mem_map_of_mem he)
  obtain ⟨es⟩ := t
  unfold Table.insert
  dsimp only at hne ⊢
  clear h
  induction es with
  | nil => exact List.Perm.refl _
  | cons e es ih =>
    unfold insertEntry
    split_ifs with hlt heq
    · exact List.Perm.refl _
    · exact absurd heq (hne e List.mem_cons_self)
    · have hes := ih fun f hf => hne f (List.mem_cons_of_mem e hf)
      exact (hes.cons e).trans (List.Perm.swap _ _ _)

end Table

end FlowState
