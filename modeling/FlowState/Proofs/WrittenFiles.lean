import FlowState.Files
import Mathlib.Data.List.Basic

/-! # Written files

Writing a file puts a content at a place and touches nothing else: where a path leads, and which
folders there are, does not depend on the files (`place?_files`). So a file that was written is read
as it was written, and a file at another place as before. Where a file is replaced, even the
question what is there is answered as before (`exists?_put`). -/

namespace FlowState

namespace Directory

/-- The content at a place is set. -/
def put (d : Directory) (place : Place) (content : FileContent) : Directory :=
  { d with files := d.files.filter (fun f => f.1 != place) ++ [(place, content)] }

theorem follow?_files (d : Directory) (files : List (Place × FileContent)) (here : Place)
    (ps : List Path.Part) : { d with files := files }.follow? here ps = d.follow? here ps := by
  have hfolder : { d with files := files }.isFolderAt = d.isFolderAt := rfl
  induction ps generalizing here with
  | nil => rfl
  | cons p ps ih => cases p <;> simp only [follow?, ih, hfolder]

/-- **A path leads to the same place** whatever files there are. -/
theorem place?_files (d : Directory) (files : List (Place × FileContent)) (p : Path) :
    { d with files := files }.place? p = d.place? p := by
  unfold place?
  rw [follow?_files]
  rfl

section Put
variable (d : Directory) (place : Place) (content : FileContent)

theorem place?_put (p : Path) : (d.put place content).place? p = d.place? p :=
  place?_files d _ p

theorem isFolder_put (p : Path) : (d.put place content).isFolder p = d.isFolder p := by
  unfold isFolder
  rw [place?_put]
  rfl

theorem fileAt?_put_self : (d.put place content).fileAt? place = some content := by
  unfold fileAt? put
  rw [List.find?_append]
  have hnone : (d.files.filter fun f => f.1 != place).find? (fun f => f.1 == place) = none := by
    rw [List.find?_eq_none]
    intro f hf
    have hne := (List.mem_filter.mp hf).2
    simpa using hne
  simp [hnone]

theorem fileAt?_put_of_ne {place' : Place} (h : place' ≠ place) :
    (d.put place content).fileAt? place' = d.fileAt? place' := by
  unfold fileAt? put
  have hold : (d.files.filter fun f => f.1 != place).find? (fun f => f.1 == place') =
      d.files.find? (fun f => f.1 == place') := by
    rw [List.find?_filter]
    congr 1
    funext f
    by_cases hf : f.1 = place'
    · simp [hf, h]
    · simp [hf]
  have hnew : (place == place') = false := by simpa using Ne.symm h
  rw [List.find?_append, hold]
  simp [hnew]

theorem read?_put (p : Path) : (d.put place content).read? p =
    if d.place? p = some place then some content else d.read? p := by
  unfold read?
  rw [place?_put]
  split_ifs with h
  · rw [h, Option.bind_some, fileAt?_put_self]
  · cases hp : d.place? p with
    | none => rfl
    | some place' =>
      have hne : place' ≠ place := by
        rintro rfl
        exact h hp
      rw [Option.bind_some, Option.bind_some, fileAt?_put_of_ne d place content hne]

/-- **What is there is the same** if there was a file at the place before. -/
theorem exists?_put (h : (d.fileAt? place).isSome) (p : Path) :
    (d.put place content).exists? p = d.exists? p := by
  unfold exists?
  rw [isFolder_put, read?_put]
  split_ifs with hp
  · have hread : d.read? p = d.fileAt? place := by
      unfold read?
      rw [hp, Option.bind_some]
    rw [hread, h]
    rfl
  · rfl

theorem canonical?_put (h : (d.fileAt? place).isSome) (p : Path) :
    (d.put place content).canonical? p = d.canonical? p := by
  unfold canonical?
  rw [exists?_put d place content h, place?_put]

end Put

theorem write?_eq_some {d d' : Directory} {p : Path} {content : FileContent} :
    d.write? p content = some d' ↔
      ∃ place, d.place? p = some place ∧ d.isFolderAt place = false ∧ d' = d.put place content := by
  unfold write?
  cases d.place? p with
  | none => simp
  | some place =>
    by_cases hf : d.isFolderAt place = true
    · simp [hf]
    · simp only [hf, Bool.false_eq_true, if_false, Option.some.injEq, put]
      constructor
      · rintro rfl
        exact ⟨place, rfl, by simpa using hf, rfl⟩
      · rintro ⟨place', rfl, -, rfl⟩
        rfl

theorem put_put (d : Directory) (place : Place) (a b : FileContent) :
    (d.put place a).put place b = d.put place b := by
  unfold put
  simp [List.filter_append, List.filter_filter]

theorem write?_put {d : Directory} {p : Path} {place : Place} (hplace : d.place? p = some place)
    (hfree : d.isFolderAt place = false) (a b : FileContent) :
    (d.put place a).write? p b = some (d.put place b) := by
  refine write?_eq_some.mpr ⟨place, ?_, hfree, (put_put d place a b).symm⟩
  rw [place?_put, hplace]

/-- **A written file is read as it was written.** -/
theorem read?_of_write? {d d' : Directory} {p : Path} {content : FileContent}
    (h : d.write? p content = some d') : d'.read? p = some content := by
  obtain ⟨place, hp, -, rfl⟩ := write?_eq_some.mp h
  rw [read?_put, if_pos hp]

end Directory

end FlowState
