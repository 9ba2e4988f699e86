import FlowState.Graph
import FlowState.Proofs.Tables
import Mathlib.Data.List.Induction

/-! # Decoded streams

Sorting keeps the order of the instructions at one address (`filter_sort`), so the first one of them
that is not empty stays the first one, and it is the one that is left when neighbours at one address
are merged (`find?_arena`). So the decoded instructions are those that are chosen in the stream
(`mem_decoded`), and their addresses increase strictly (`pairwise_decoded`). Where they do, an
address has one instruction and one index (`find?_address_eq_some`, `get?_indexed`). -/

namespace FlowState

namespace BlockGraph

/-- The addresses increase from instruction to instruction. -/
abbrev Increasing (is : List Instruction) : Prop := is.Pairwise fun i j => i.address < j.address

/-! ### Sorting -/

theorem mem_place {i j : Instruction} {is : List Instruction} :
    j ∈ place i is ↔ j = i ∨ j ∈ is := by
  induction is with
  | nil => simp [place]
  | cons k is ih =>
    rw [place]
    split
    · exact List.mem_cons
    · rw [List.mem_cons, ih, List.mem_cons, or_left_comm]

theorem pairwise_place (i : Instruction) {is : List Instruction}
    (h : is.Pairwise fun j k => j.address ≤ k.address) :
    (place i is).Pairwise fun j k => j.address ≤ k.address := by
  induction is with
  | nil => exact List.pairwise_singleton _ i
  | cons k is ih =>
    obtain ⟨hk, his⟩ := List.pairwise_cons.mp h
    rw [place]
    split
    next hle =>
      refine List.pairwise_cons.mpr ⟨fun j hj => ?_, h⟩
      rcases List.mem_cons.mp hj with rfl | hj
      · exact hle
      · exact UInt64.le_trans hle (hk j hj)
    next hlt =>
      refine List.pairwise_cons.mpr ⟨fun j hj => ?_, ih his⟩
      rcases mem_place.mp hj with rfl | hj
      · exact UInt64.le_of_lt (UInt64.not_le.mp hlt)
      · exact hk j hj

theorem pairwise_sort (is : List Instruction) :
    (sort is).Pairwise fun i j => i.address ≤ j.address := by
  induction is with
  | nil => exact List.Pairwise.nil
  | cons i is ih => exact pairwise_place i ih

theorem filter_place (a : Address) (i : Instruction) (is : List Instruction) :
    (place i is).filter (fun j => j.address == a) = (i :: is).filter fun j => j.address == a := by
  induction is with
  | nil => rfl
  | cons k is ih =>
    rw [place]
    split
    · rfl
    next hlt =>
      rw [List.filter_cons, ih]
      by_cases hk : k.address = a
      · -- then `i` lies behind the address
        have hi : i.address ≠ a := by
          rintro rfl
          exact hlt (by rw [hk]; exact UInt64.le_refl _)
        simp [hk, hi]
      · simp [List.filter_cons, hk]

/-- **Sorting keeps the order at each address.** -/
theorem filter_sort (a : Address) (is : List Instruction) :
    (sort is).filter (fun j => j.address == a) = is.filter fun j => j.address == a := by
  induction is with
  | nil => rfl
  | cons i is ih =>
    change (place i (sort is)).filter _ = _
    rw [filter_place, List.filter_cons, List.filter_cons, ih]

/-! ### Neighbours at one address -/

theorem mem_of_mem_dedupFrom {i j : Instruction} {is : List Instruction}
    (h : j ∈ dedupFrom i is) : j ∈ i :: is := by
  induction is generalizing i with
  | nil => exact h
  | cons k is ih =>
    rw [dedupFrom] at h
    split at h
    · exact List.cons_subset_cons i (List.subset_cons_self k is) (ih h)
    · rcases List.mem_cons.mp h with rfl | h
      · exact List.mem_cons_self
      · exact List.mem_cons_of_mem i (ih h)

theorem increasing_dedupFrom {i : Instruction} {is : List Instruction}
    (h : (i :: is).Pairwise fun j k => j.address ≤ k.address) : Increasing (dedupFrom i is) := by
  induction is generalizing i with
  | nil => exact List.pairwise_singleton _ i
  | cons k is ih =>
    obtain ⟨hi, hk⟩ := List.pairwise_cons.mp h
    rw [dedupFrom]
    split
    · exact ih (List.pairwise_cons.mpr
        ⟨fun j hj => hi j (List.mem_cons_of_mem k hj), hk.of_cons⟩)
    next hne =>
      refine List.pairwise_cons.mpr ⟨fun j hj => ?_, ih hk⟩
      have hik := UInt64.lt_of_le_of_ne (hi k List.mem_cons_self) (Ne.symm hne)
      rcases List.mem_cons.mp (mem_of_mem_dedupFrom hj) with rfl | hj
      · exact hik
      · exact UInt64.lt_of_lt_of_le hik (List.rel_of_pairwise_cons hk hj)

theorem increasing_dedup {is : List Instruction}
    (h : is.Pairwise fun i j => i.address ≤ j.address) : Increasing (dedup is) := by
  cases is with
  | nil => exact List.Pairwise.nil
  | cons i is => exact increasing_dedupFrom h

/-- Merging keeps the first instruction at each address, in whichever order they come. -/
theorem find?_dedupFrom (a : Address) (i : Instruction) (is : List Instruction) :
    (dedupFrom i is).find? (fun j => j.address == a) = (i :: is).find? fun j => j.address == a := by
  induction is generalizing i with
  | nil => rfl
  | cons k is ih =>
    rw [dedupFrom]
    split
    next hk =>
      rw [ih, List.find?_cons, List.find?_cons, List.find?_cons, hk]
      cases i.address == a <;> rfl
    · simp only [List.find?_cons (a := i), ih]

theorem find?_dedup (a : Address) (is : List Instruction) :
    (dedup is).find? (fun j => j.address == a) = is.find? fun j => j.address == a := by
  cases is with
  | nil => rfl
  | cons i is => exact find?_dedupFrom a i is

/-! ### What is chosen -/

/-- The instruction of a stream that counts at an address: the first one that is not empty. -/
def chosen? (stream : List Instruction) (a : Address) : Option Instruction :=
  stream.find? fun i => i.address == a && !i.bytes.isEmpty

/-- **The arena has what is chosen.** -/
theorem find?_arena (stream : List Instruction) (a : Address) :
    (arena stream).find? (fun i => i.address == a) = chosen? stream a := by
  have hfilter : ∀ is : List Instruction, is.find? (fun i => i.address == a && !i.bytes.isEmpty) =
      (is.filter fun i => i.address == a).find? fun i => !i.bytes.isEmpty := by
    intro is
    rw [List.find?_filter]
    simp only [Bool.decide_and, Bool.decide_eq_true]
  unfold arena chosen?
  calc (dedup ((sort stream).filter fun i => !i.bytes.isEmpty)).find? (fun i => i.address == a)
      = (sort stream).find? (fun i => i.address == a && !i.bytes.isEmpty) := by
        rw [find?_dedup, List.find?_filter]
        simp only [Bool.decide_and, Bool.decide_eq_true, Bool.and_comm]
    _ = (stream.filter fun i => i.address == a).find? (fun i => !i.bytes.isEmpty) := by
        rw [hfilter, filter_sort]
    _ = stream.find? (fun i => i.address == a && !i.bytes.isEmpty) := (hfilter stream).symm

theorem increasing_arena (stream : List Instruction) : Increasing (arena stream) :=
  increasing_dedup ((pairwise_sort stream).filter _)

theorem chosen?_some {stream : List Instruction} {a : Address} {s : Instruction}
    (h : chosen? stream a = some s) : s ∈ stream ∧ s.address = a ∧ s.bytes ≠ [] := by
  refine ⟨List.mem_of_find?_eq_some h, ?_⟩
  have := List.find?_some h
  simpa using this

/-! ### One instruction at each address -/

section Increasing
variable {is : List Instruction} (his : Increasing is)
include his

theorem eq_of_address_eq {i j : Instruction} (hi : i ∈ is) (hj : j ∈ is)
    (h : i.address = j.address) : i = j := by
  have hnd : (is.map (·.address)).Nodup := by
    refine List.pairwise_map.mpr (his.imp fun hlt heq => ?_)
    rw [heq] at hlt
    exact UInt64.lt_irrefl _ hlt
  exact List.inj_on_of_nodup_map hnd hi hj h

theorem find?_address_eq_some {a : Address} {i : Instruction} :
    is.find? (fun j => j.address == a) = some i ↔ i ∈ is ∧ i.address = a := by
  constructor
  · intro h
    exact ⟨List.mem_of_find?_eq_some h, by simpa using List.find?_some h⟩
  · rintro ⟨hi, rfl⟩
    cases hf : is.find? fun j => j.address == i.address with
    | none => exact absurd (List.find?_eq_none.mp hf i hi) (by simp)
    | some j =>
      have hj : j.address = i.address := by simpa using List.find?_some hf
      rw [eq_of_address_eq his (List.mem_of_find?_eq_some hf) hi hj]

theorem lt_of_getElem?_lt {k l : Nat} {i j : Instruction} (hkl : k < l) (hi : is[k]? = some i)
    (hj : is[l]? = some j) : i.address < j.address := by
  obtain ⟨hk, rfl⟩ := List.getElem?_eq_some_iff.mp hi
  obtain ⟨hl, rfl⟩ := List.getElem?_eq_some_iff.mp hj
  exact List.pairwise_iff_getElem.mp his k l hk hl hkl

theorem index_eq {k l : Nat} {i j : Instruction} (hi : is[k]? = some i) (hj : is[l]? = some j)
    (h : i.address = j.address) : k = l := by
  rcases Nat.lt_trichotomy k l with hlt | heq | hlt
  · exact absurd (lt_of_getElem?_lt his hlt hi hj) (by rw [h]; exact UInt64.lt_irrefl _)
  · exact heq
  · exact absurd (lt_of_getElem?_lt his hlt hj hi) (by rw [h]; exact UInt64.lt_irrefl _)

end Increasing

/-! ### The decoded instructions -/

@[simp] theorem address_override (overrides : Table InstructionKind) (i : Instruction) :
    (override overrides i).address = i.address := by
  unfold override
  split <;> rfl

@[simp] theorem bytes_override (overrides : Table InstructionKind) (i : Instruction) :
    (override overrides i).bytes = i.bytes := by
  unfold override
  split <;> rfl

theorem pairwise_decoded (stream : List Instruction) (overrides : Table InstructionKind) :
    Increasing (decoded stream overrides) := by
  unfold decoded Increasing
  rw [List.pairwise_map]
  simp only [address_override]
  exact increasing_arena stream

/-- **The decoded instructions** are those that count, each with the kind that is asked for. -/
theorem mem_decoded {stream : List Instruction} {overrides : Table InstructionKind}
    {i : Instruction} : i ∈ decoded stream overrides ↔
      ∃ s, chosen? stream i.address = some s ∧ override overrides s = i := by
  unfold decoded
  rw [List.mem_map]
  refine exists_congr fun s => and_congr_left ?_
  rintro rfl
  rw [address_override, ← find?_arena, find?_address_eq_some (increasing_arena stream),
    and_iff_left rfl]

/-! ### Indices -/

theorem get?_ofList_append {α : Type} (es : List (Address × α)) (a b : Address) (v : α) :
    (Table.ofList (es ++ [(a, v)])).get? b =
      if b = a then some v else (Table.ofList es).get? b := by
  unfold Table.ofList
  rw [List.foldl_append]
  exact Table.get?_insert _ a b v

/-- **The index of the instruction at an address.** -/
theorem get?_indexed {is : List Instruction} (his : Increasing is) {a : Address} {k : Nat} :
    (indexed is).get? a = some k ↔ ∃ i, is[k]? = some i ∧ i.address = a := by
  unfold indexed
  induction is using List.reverseRecOn with
  | nil => simp [Table.ofList]
  | append_singleton is j ih =>
    have hfront := (List.pairwise_append.mp his).1
    have hj : (is ++ [j])[is.length]? = some j := List.getElem?_concat_length
    rw [List.zipIdx_append, List.map_append]
    simp only [List.zipIdx_cons, List.zipIdx_nil, List.map_cons, List.map_nil, Nat.zero_add]
    rw [get?_ofList_append]
    split
    next h =>
      subst h
      rw [Option.some.injEq]
      constructor
      · rintro rfl
        exact ⟨j, hj, rfl⟩
      · rintro ⟨i, hi, ha⟩
        exact (index_eq his hi hj ha).symm
    next h =>
      rw [ih hfront]
      refine exists_congr fun i => and_congr_left fun ha => ?_
      rcases Nat.lt_trichotomy k is.length with hk | hk | hk
      · rw [List.getElem?_append_left hk]
      · subst hk
        rw [hj, List.getElem?_eq_none (Nat.le_refl _), Option.some.injEq]
        exact iff_of_false (by simp) fun hij => h (by rw [← ha, hij])
      · rw [List.getElem?_eq_none (by omega),
          List.getElem?_eq_none (by rw [List.length_append, List.length_singleton]; omega)]

theorem contains_indexed {is : List Instruction} (his : Increasing is) {a : Address} :
    (indexed is).contains a = true ↔ ∃ i ∈ is, i.address = a := by
  unfold Table.contains
  rw [Option.isSome_iff_exists]
  simp only [get?_indexed his, List.mem_iff_getElem?]
  constructor
  · rintro ⟨k, i, hk, ha⟩
    exact ⟨i, ⟨k, hk⟩, ha⟩
  · rintro ⟨i, ⟨k, hk⟩, ha⟩
    exact ⟨k, i, hk, ha⟩

end BlockGraph

end FlowState
