import FlowState.Annotation.Store
import Mathlib.Data.List.Basic

/-! # Stores that are compared

Two stores are compared by counting: every annotation of the first one up, every annotation of the
second one down. What one count does to the tally (`Tally.getD_count`) gives what a whole pass over
a list does (`Tally.getD_foldl_count`), so that after both passes the tally holds the difference of
the two multiplicities. A tally is balanced if all that it holds is zero (`Tally.all_zero_iff`); an
annotation that it does not hold was in neither list. -/

namespace FlowState

namespace AnnotationStore

/-! ### Counting -/

/-- One count changes the number of one annotation. -/
theorem Tally.getD_count (d : Int) (counts : Tally) (a b : Annotation) :
    (count d counts a).getD b 0 = counts.getD b 0 + if a = b then d else 0 := by
  unfold count
  rw [Std.HashMap.getD_alter]
  by_cases h : a = b
  · subst h
    rw [if_pos (beq_self_eq_true a), if_pos rfl, Option.getD_some,
      Std.HashMap.getD_eq_getD_getElem?]
  · rw [if_neg (by simpa using h), if_neg h, Int.add_zero]

/-- **A pass over a list** changes the number of each annotation by its multiplicity. -/
theorem Tally.getD_foldl_count (d : Int) (as : List Annotation) (b : Annotation) :
    ∀ counts : Tally, (as.foldl (count d) counts).getD b 0 = counts.getD b 0 + d * as.count b := by
  induction as with
  | nil =>
    intro counts
    simp
  | cons a as ih =>
    intro counts
    rw [List.foldl_cons, ih, getD_count, List.count_cons]
    by_cases h : a = b
    · have hbeq : (a == b) = true := by simpa using h
      rw [if_pos h, if_pos hbeq, Int.natCast_add, Int.natCast_one, Int.mul_add, Int.mul_one]
      omega
    · have hbeq : ¬ (a == b) = true := by simpa using h
      rw [if_neg h, if_neg hbeq, Nat.add_zero, Int.add_zero]

/-- Both passes leave the difference of the multiplicities. -/
theorem Tally.getD_difference (as bs : List Annotation) (a : Annotation) :
    (difference as bs).getD a 0 = (as.count a : Int) - bs.count a := by
  unfold difference
  rw [getD_foldl_count, getD_foldl_count, Std.HashMap.getD_empty]
  omega

/-- Nothing is left over if every annotation has the number zero, whether the tally holds it or
not. -/
theorem Tally.all_zero_iff (counts : Tally) :
    (counts.all fun _ n => n == 0) = true ↔ ∀ a, counts.getD a 0 = 0 := by
  have hheld : ∀ a (ha : a ∈ counts), counts.getD a 0 = counts[a] := by
    intro a ha
    rw [Std.HashMap.getD_eq_getD_getElem?, Std.HashMap.getElem?_eq_some_getElem ha,
      Option.getD_some]
  rw [Std.HashMap.all_eq_true_iff_forall_mem_getElem]
  constructor
  · intro h a
    by_cases ha : a ∈ counts
    · rw [hheld a ha]
      simpa using h a ha
    · exact Std.HashMap.getD_eq_fallback ha
  · intro h a ha
    rw [← hheld a ha]
    simpa using h a

theorem Tally.difference_all_zero_iff (as bs : List Annotation) :
    ((difference as bs).all fun _ n => n == 0) = true ↔ as.Perm bs := by
  rw [all_zero_iff, List.perm_iff_count]
  constructor
  · intro h a
    have hzero := h a
    rw [getD_difference] at hzero
    omega
  · intro h a
    have hcount := h a
    rw [getD_difference]
    omega

/-! ### Comparing -/

/-- **Stores are the same if the annotations of one are those of the other in some order**, each
with the same address and payload and as often. Handles, marks and the order do not count. -/
theorem sameContents_iff_perm (s t : AnnotationStore) :
    s.sameContents t = true ↔ s.annotations.Perm t.annotations := by
  unfold sameContents
  rw [Bool.and_eq_true, Tally.difference_all_zero_iff, and_iff_right_iff_imp]
  intro h
  -- the test of the lengths is there to save the counting
  have hlen := h.length_eq
  unfold annotations at hlen
  rw [List.length_map, List.length_map] at hlen
  simpa using hlen

end AnnotationStore

end FlowState
