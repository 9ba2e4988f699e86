import Mathlib.Data.List.Basic

/-! # Computations that may fail

When a computation in `Except` succeeds and when it fails, by its parts. -/

namespace FlowState

section Bind
variable {ε ε' α β : Type}

theorem bind_ok_iff {x : Except ε α} {f : α → Except ε β} {b : β} :
    x >>= f = .ok b ↔ ∃ a, x = .ok a ∧ f a = .ok b := by
  cases x with
  | error e => simp [bind, Except.bind]
  | ok a => simp [bind, Except.bind]

theorem bind_error_iff {x : Except ε α} {f : α → Except ε β} {e : ε} :
    x >>= f = .error e ↔ x = .error e ∨ ∃ a, x = .ok a ∧ f a = .error e := by
  cases x with
  | error e => simp [bind, Except.bind]
  | ok a => simp [bind, Except.bind]

theorem mapError_ok_iff {x : Except ε α} {f : ε → ε'} {a : α} :
    x.mapError f = .ok a ↔ x = .ok a := by
  cases x <;> simp [Except.mapError]

theorem mapError_error_iff {x : Except ε α} {f : ε → ε'} {e : ε'} :
    x.mapError f = .error e ↔ ∃ y, x = .error y ∧ f y = e := by
  cases x <;> simp [Except.mapError]

/-- Either all parts have a result, or one of them fails and the whole does so with its error. -/
theorem mapM_cases (f : α → Except ε β) : ∀ xs : List α,
    (∃ ys, xs.mapM f = .ok ys) ∧ (∀ x ∈ xs, ∃ y, f x = .ok y) ∨
    ∃ x ∈ xs, ∃ e, f x = .error e ∧ xs.mapM f = .error e
  | [] => .inl ⟨⟨[], rfl⟩, by simp⟩
  | x :: xs => by
    rw [List.mapM_cons]
    cases hx : f x with
    | error e => exact .inr ⟨x, by simp, e, hx, rfl⟩
    | ok y =>
      rcases mapM_cases f xs with ⟨⟨ys, hys⟩, hall⟩ | ⟨x', hx', e, he, hxs⟩
      · refine .inl ⟨⟨y :: ys, by rw [hys]; rfl⟩, ?_⟩
        simp only [List.forall_mem_cons]
        exact ⟨⟨y, hx⟩, hall⟩
      · exact .inr ⟨x', by simp [hx'], e, he, by rw [hxs]; rfl⟩

/-- Parts that are written with their places are read back. -/
theorem mapM_mapIdx {row : Nat → α → β} {read : β → Except ε α}
    (h : ∀ i a, read (row i a) = .ok a) (as : List α) : (as.mapIdx row).mapM read = .ok as := by
  have hread : (read ∘ fun p : α × Nat => row p.2 p.1) = fun p => pure p.1 :=
    funext fun p => h p.2 p.1
  rw [List.mapIdx_eq_zipIdx_map, List.mapM_map, hread, List.mapM_pure, List.zipIdx_map_fst]
  rfl

end Bind

end FlowState
