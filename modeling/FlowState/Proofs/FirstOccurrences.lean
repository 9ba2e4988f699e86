import Mathlib.Data.List.Nodup

/-! # First occurrences

`List.eraseDups` keeps the first occurrence of each element. A proof about it takes the first
element and goes on with the other ones that differ from it (`eraseDups_induction`). Erasing
commutes with filters (`filter_eraseDups`) and with maps that keep the elements apart
(`eraseDups_map`), and before any other map it changes nothing (`eraseDups_map_eraseDups`). -/

namespace FlowState

namespace FirstOccurrences

variable {α β : Type} [BEq α] [LawfulBEq α] [BEq β] [LawfulBEq β]

omit [LawfulBEq α] in
/-- The induction that `eraseDups` follows. -/
theorem eraseDups_induction {motive : List α → Prop} (nil : motive [])
    (cons : ∀ a l, motive (l.filter fun b => !b == a) → motive (a :: l)) : ∀ l, motive l
  | [] => nil
  | a :: l => cons a l (eraseDups_induction nil cons (l.filter fun b => !b == a))
termination_by l => l.length
decreasing_by
  have := List.length_filter_le (fun b => !b == a) l
  simp only [List.length_cons]
  omega

theorem nodup_eraseDups (l : List α) : l.eraseDups.Nodup := by
  induction l using eraseDups_induction with
  | nil => simp
  | cons a l ih =>
    rw [List.eraseDups_cons, List.nodup_cons]
    refine ⟨fun h => ?_, ih⟩
    have := (List.mem_filter.mp (List.mem_eraseDups.mp h)).2
    simp at this

theorem filter_eraseDups (p : α → Bool) (l : List α) :
    l.eraseDups.filter p = (l.filter p).eraseDups := by
  induction l using eraseDups_induction with
  | nil => simp
  | cons a l ih =>
    rw [List.eraseDups_cons]
    cases hp : p a with
    | true =>
      rw [List.filter_cons_of_pos hp, List.filter_cons_of_pos hp, List.eraseDups_cons, ih,
        List.filter_comm]
    | false =>
      have hne : ∀ b ∈ l.filter p, (!b == a) = true := by
        intro b hb
        have hpb := (List.mem_filter.mp hb).2
        simp only [Bool.not_eq_true', beq_eq_false_iff_ne]
        rintro rfl
        rw [hp] at hpb
        cases hpb
      rw [List.filter_cons_of_neg (by simp [hp]), List.filter_cons_of_neg (by simp [hp]), ih,
        List.filter_comm, List.filter_eq_self.mpr hne]

theorem eraseDups_concat_of_mem {l : List α} {a : α} (h : a ∈ l) :
    (l ++ [a]).eraseDups = l.eraseDups := by
  rw [List.eraseDups_append]
  simp [List.removeAll, h]

theorem eraseDups_concat_of_not_mem {l : List α} {a : α} (h : a ∉ l) :
    (l ++ [a]).eraseDups = l.eraseDups ++ [a] := by
  rw [List.eraseDups_append]
  simp [List.removeAll, h, List.eraseDups_cons]

/-- A map that keeps the elements apart keeps their first occurrences. -/
theorem eraseDups_map {f : α → β} (l : List α)
    (hf : ∀ a ∈ l, ∀ b ∈ l, f a = f b → a = b) : (l.map f).eraseDups = l.eraseDups.map f := by
  induction l using eraseDups_induction with
  | nil => simp
  | cons a l ih =>
    have hrest : (l.map f).filter (fun b => !b == f a) = (l.filter fun b => !b == a).map f := by
      rw [List.filter_map]
      congr 1
      refine List.filter_congr fun b hb => ?_
      have hinj := hf b (List.mem_cons_of_mem a hb) a List.mem_cons_self
      by_cases hba : b = a
      · simp [hba]
      · have hne : f b ≠ f a := fun h => hba (hinj h)
        simp [hba, hne]
    rw [List.map_cons, List.eraseDups_cons, List.eraseDups_cons, List.map_cons, hrest, ih]
    intro b hb c hc
    exact hf b (List.mem_cons_of_mem a (List.mem_filter.mp hb).1) c
      (List.mem_cons_of_mem a (List.mem_filter.mp hc).1)

/-- The first occurrences of the images are those of the images of the first occurrences. -/
theorem eraseDups_map_eraseDups (f : α → β) (l : List α) :
    (l.eraseDups.map f).eraseDups = (l.map f).eraseDups := by
  induction l using eraseDups_induction with
  | nil => simp
  | cons a l ih =>
    -- the images of the elements that equal the first one are erased together with its image
    have hsame : (l.filter fun b => !b == a).filter ((fun y => !y == f a) ∘ f) =
        l.filter ((fun y => !y == f a) ∘ f) := by
      rw [List.filter_filter]
      refine List.filter_congr fun b _ => ?_
      by_cases hba : b = a <;> simp [hba]
    rw [List.eraseDups_cons, List.map_cons, List.eraseDups_cons, List.map_cons,
      List.eraseDups_cons, ← filter_eraseDups, ih, filter_eraseDups, List.filter_map,
      List.filter_map, hsame]

/-- If the results of a partial function can be taken back, their first occurrences are those of the
elements that have a result. -/
theorem map_eraseDups_filterMap {f : α → Option β} {s : β → α}
    (h : ∀ a b, f a = some b → s b = a) (l : List α) :
    (l.filterMap f).eraseDups.map s = (l.filter fun a => (f a).isSome).eraseDups := by
  have hback : (l.filterMap f).map s = l.filter fun a => (f a).isSome := by
    rw [List.map_filterMap, ← List.filterMap_eq_filter]
    refine List.filterMap_congr fun a _ => ?_
    cases hf : f a with
    | none => simp [Option.guard, hf]
    | some b => simp [Option.guard, hf, h a b hf]
  rw [← hback, eraseDups_map]
  intro b hb c hc hbc
  obtain ⟨x, -, hx⟩ := List.mem_filterMap.mp hb
  obtain ⟨y, -, hy⟩ := List.mem_filterMap.mp hc
  rw [h x b hx, h y c hy] at hbc
  rw [hbc, hy, Option.some.injEq] at hx
  exact hx.symm

end FirstOccurrences

end FlowState
