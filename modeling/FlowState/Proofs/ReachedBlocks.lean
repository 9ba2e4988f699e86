import FlowState.Graph.Reach
import FlowState.Proofs.BuiltGraph
import Mathlib.Logic.Relation
import Mathlib.Tactic.ByContra

/-! # The blocks that are reached

The depth-first walk over the blocks visits exactly the blocks at the end of a path of edges that
may be entered (`mem_reach_iff`). It visits no other block (`mem_walk_path`); and at its end every
block that was to be looked at is visited, and so is every block behind a block that it has visited
on its way (`walk_closed`). -/

namespace FlowState

namespace BlockGraph

/-- An edge that a walk from `entry` follows. -/
def Enters (g : BlockGraph) (entry : Address) (entryPoints : List Address) (stop : Bool)
    (n m : Nat) : Prop :=
  g.Follows n m ∧ g.mayEnter entry entryPoints stop m = true

/-- A block may be entered if it starts at the entry, the stop rule is off, or no entry point is
there. -/
theorem mayEnter_iff {g : BlockGraph} {entry : Address} {entryPoints : List Address} {stop : Bool}
    {n : Nat} : g.mayEnter entry entryPoints stop n = true ↔
      ∃ b, g.blocks[n]? = some b ∧ (b.start = entry ∨ stop = false ∨ b.start ∉ entryPoints) := by
  unfold mayEnter
  cases hb : g.blocks[n]? with
  | none => simp
  | some b => cases stop <;> simp [or_iff_not_imp_left]

theorem lt_of_mayEnter {g : BlockGraph} {entry : Address} {entryPoints : List Address} {stop : Bool}
    {n : Nat} (h : g.mayEnter entry entryPoints stop n = true) : n < g.blocks.length := by
  obtain ⟨b, hb, -⟩ := mayEnter_iff.mp h
  exact (List.getElem?_eq_some_iff.mp hb).1

section Walk
variable {g : BlockGraph} {enter : Nat → Bool}

theorem walk_visit {visited stack : List Nat} {n : Nat} (hn : n < g.blocks.length)
    (hv : n ∉ visited) :
    g.walk enter visited (n :: stack) = g.walk enter (n :: visited)
      ((g.successors n).filter (fun m => !(n :: visited).contains m && enter m) ++ stack) := by
  rw [walk, dif_pos ⟨hn, by simpa using hv⟩]

theorem walk_skip {visited stack : List Nat} {n : Nat} (h : ¬ (n < g.blocks.length ∧ n ∉ visited)) :
    g.walk enter visited (n :: stack) = g.walk enter visited stack := by
  rw [walk, dif_neg (by simpa using h)]

/-- Only blocks at the end of a path are visited. -/
theorem mem_walk_path {visited stack : List Nat} {x : Nat} (h : x ∈ g.walk enter visited stack) :
    x ∈ visited ∨
      ∃ n ∈ stack, Relation.ReflTransGen (fun n m => g.Follows n m ∧ enter m) n x := by
  induction visited, stack using walk.induct g enter with
  | case1 visited =>
    rw [walk] at h
    exact Or.inl h
  | case2 visited n stack hn ih =>
    rw [walk_visit hn.1 (by simpa using hn.2)] at h
    rcases ih h with hx | ⟨m, hm, hpath⟩
    · rcases List.mem_cons.mp hx with rfl | hx
      · exact Or.inr ⟨x, List.mem_cons_self, .refl⟩
      · exact Or.inl hx
    · rcases List.mem_append.mp hm with hm | hm
      · obtain ⟨hm, he⟩ := List.mem_filter.mp hm
        rw [Bool.and_eq_true] at he
        exact Or.inr ⟨n, List.mem_cons_self, hpath.head ⟨mem_successors.mp hm, he.2⟩⟩
      · exact Or.inr ⟨m, List.mem_cons_of_mem n hm, hpath⟩
  | case3 visited n stack hn ih =>
    rw [walk_skip (by simpa using hn)] at h
    refine (ih h).imp_right ?_
    rintro ⟨m, hm, hpath⟩
    exact ⟨m, List.mem_cons_of_mem n hm, hpath⟩

/-- What was visited stays so, what was to be looked at is visited, and so is what follows a block
that was not visited before. -/
theorem walk_closed (g : BlockGraph) (enter : Nat → Bool) (visited stack : List Nat) :
    (∀ x ∈ visited, x ∈ g.walk enter visited stack) ∧
    (∀ x ∈ stack, x < g.blocks.length → x ∈ g.walk enter visited stack) ∧
    ∀ x ∈ g.walk enter visited stack, x ∉ visited → ∀ y ∈ g.successors x, enter y = true →
      y < g.blocks.length → y ∈ g.walk enter visited stack := by
  induction visited, stack using walk.induct g enter with
  | case1 visited =>
    rw [walk]
    exact ⟨fun x hx => hx, fun x hx => absurd hx List.not_mem_nil, fun x hx hn => absurd hx hn⟩
  | case2 visited n stack hn ih =>
    obtain ⟨hvis, hstack, hclosed⟩ := ih
    rw [walk_visit hn.1 (by simpa using hn.2)]
    refine ⟨fun x hx => hvis x (List.mem_cons_of_mem n hx), fun x hx hlt => ?_, ?_⟩
    · rcases List.mem_cons.mp hx with rfl | hx
      · exact hvis x List.mem_cons_self
      · exact hstack x (List.mem_append_right _ hx) hlt
    · intro x hx hxv y hy he hlt
      by_cases hxn : x = n
      · subst hxn
        -- the block is visited now: what follows it is visited already, or it is put on the stack
        by_cases hyv : y ∈ x :: visited
        · exact hvis y hyv
        · refine hstack y (List.mem_append_left _ (List.mem_filter.mpr ⟨hy, ?_⟩)) hlt
          simp only [List.contains_eq_mem, he, Bool.and_true, Bool.not_eq_true',
            decide_eq_false_iff_not]
          exact hyv
      · exact hclosed x hx (by simp [hxn, hxv]) y hy he hlt
  | case3 visited n stack hn ih =>
    obtain ⟨hvis, hstack, hclosed⟩ := ih
    rw [walk_skip (by simpa using hn)]
    refine ⟨hvis, fun x hx hlt => ?_, hclosed⟩
    rcases List.mem_cons.mp hx with rfl | hx
    · refine hvis x ?_
      by_contra hxv
      exact hn ⟨hlt, by simpa using hxv⟩
    · exact hstack x hx hlt

end Walk

/-- **The reach of an entry** is the set of blocks at the end of a path from its block. -/
theorem mem_reach_iff {g : BlockGraph} (hg : g.WellFormed) {entry : Address}
    {entryPoints : List Address} {stop : Bool} {n : Nat} : n ∈ g.reach entry entryPoints stop ↔
      ∃ m, g.blockStartingAt? entry = some m ∧
        Relation.ReflTransGen (g.Enters entry entryPoints stop) m n := by
  unfold reach
  cases hm : g.blockStartingAt? entry with
  | none => simp
  | some m =>
    simp only [List.mem_reverse, Option.some.injEq, exists_eq_left']
    constructor
    · intro h
      rcases mem_walk_path h with h | ⟨k, hk, hpath⟩
      · cases h
      · rw [List.mem_singleton.mp hk] at hpath
        exact hpath
    · intro hpath
      obtain ⟨-, hstack, hclosed⟩ := walk_closed g (g.mayEnter entry entryPoints stop) [] [m]
      induction hpath with
      | refl => exact hstack m List.mem_cons_self (hg.lt_of_blockStartingAt? hm)
      | tail _ hedge ih =>
        exact hclosed _ ih List.not_mem_nil _ (mem_successors.mpr hedge.1) hedge.2
          (lt_of_mayEnter hedge.2)

/-- The reach goes on over every edge that may be entered. -/
theorem mem_reach_of_enters {g : BlockGraph} (hg : g.WellFormed) {entry : Address}
    {entryPoints : List Address} {stop : Bool} {n m : Nat} (h : n ∈ g.reach entry entryPoints stop)
    (he : g.Enters entry entryPoints stop n m) : m ∈ g.reach entry entryPoints stop := by
  obtain ⟨k, hk, hpath⟩ := (mem_reach_iff hg).mp h
  exact (mem_reach_iff hg).mpr ⟨k, hk, hpath.tail he⟩

end BlockGraph

end FlowState
