import FlowState.Proofs.CommandRuns
import Mathlib.Data.Int.Order.Basic
import Mathlib.Order.Basic

/-! # Databases of earlier versions

A version defines tables (`Database.HasOwnTables`). A database of version 0, 1 or 2 is opened with
all four tables and with every row that it had, and one of a later version is refused before its
file is touched. A version below zero is neither: it is not refused, it is not the version that gets
the first tables, and it is early enough for the others. Such a database is marked as current
without binaries and annotations (`Database.isCurrent_iff`). -/

namespace FlowState

namespace Database

/-- Which tables there are: binaries, annotations, runs and fixups. -/
def tables (d : Database) : List Bool :=
  [d.binaries.isSome, d.annotations.isSome, d.runs.isSome, d.fixups.isSome]

/-- **The tables are those that the version defines.** Nothing is said of later versions. -/
structure HasOwnTables (d : Database) : Prop where
  unversioned : d.version ≤ 0 → d.tables = [false, false, false, false]
  first : d.version = 1 → d.tables = [true, true, false, false]
  second : d.version = 2 → d.tables = [true, true, true, true]

/-- The database is of the current version and has all its tables. -/
def IsCurrent (d : Database) : Prop :=
  d.version = currentVersion ∧ d.tables = [true, true, true, true]

/-- Every table that there is stays with all its rows. -/
structure Keeps (d d' : Database) : Prop where
  binaries : ∀ t, d.binaries = some t → d'.binaries = some t
  annotations : ∀ t, d.annotations = some t → d'.annotations = some t
  runs : ∀ t, d.runs = some t → d'.runs = some t
  fixups : ∀ t, d.fixups = some t → d'.fixups = some t

theorem Keeps.refl (d : Database) : Keeps d d :=
  ⟨fun _ h => h, fun _ h => h, fun _ h => h, fun _ h => h⟩

theorem Keeps.trans {d e f : Database} (h : Keeps d e) (h' : Keeps e f) : Keeps d f :=
  ⟨fun t ht => h'.binaries t (h.binaries t ht), fun t ht => h'.annotations t (h.annotations t ht),
    fun t ht => h'.runs t (h.runs t ht), fun t ht => h'.fixups t (h.fixups t ht)⟩

theorem keeps_createFirst (d : Database) : Keeps d d.createFirst := by
  refine ⟨fun t ht => ?_, fun t ht => ?_, fun _ ht => ht, fun _ ht => ht⟩
  · simp [createFirst, ht]
  · simp [createFirst, ht]

theorem keeps_createSecond (d : Database) : Keeps d d.createSecond := by
  refine ⟨fun _ ht => ht, fun _ ht => ht, fun t ht => ?_, fun t ht => ?_⟩
  · simp [createSecond, ht]
  · simp [createSecond, ht]

/-! ### The four ways of opening -/

theorem openTables_later {d : Database} (h : 2 < d.version) :
    d.openTables = .error (.unsupportedVersion d.version) :=
  if_pos h

theorem openTables_second {d : Database} (h : d.version = 2) : d.openTables = .ok d := by
  simp [openTables, currentVersion, h]

theorem openTables_unversioned {d : Database} (h : d.version = 0) :
    d.openTables = .ok d.createFirst.createSecond := by
  simp [openTables, currentVersion, h, createFirst]

/-- The first version, and every version below zero. -/
theorem openTables_other {d : Database} (h : d.version < 2) (h0 : d.version ≠ 0) :
    d.openTables = .ok d.createSecond := by
  have hlater : ¬ currentVersion < d.version := by
    unfold currentVersion
    omega
  rw [openTables, if_neg hlater]
  simp [h0, h]

theorem openTables_cases {d : Database} (h : d.version ≤ 2) :
    (d.version = 2 ∧ d.openTables = .ok d) ∨
    (d.version = 0 ∧ d.openTables = .ok d.createFirst.createSecond) ∨
    ((d.version = 1 ∨ d.version < 0) ∧ d.openTables = .ok d.createSecond) := by
  rcases eq_or_lt_of_le h with h2 | h2
  · exact .inl ⟨h2, openTables_second h2⟩
  · by_cases h0 : d.version = 0
    · exact .inr (.inl ⟨h0, openTables_unversioned h0⟩)
    · exact .inr (.inr ⟨by omega, openTables_other h2 h0⟩)

/-- **A database that is opened gets the current version and keeps its rows.** -/
theorem exists_openTables {d : Database} (h : d.version ≤ 2) :
    ∃ d', d.openTables = .ok d' ∧ d'.version = 2 ∧ Keeps d d' := by
  rcases openTables_cases h with ⟨h2, hopen⟩ | ⟨-, hopen⟩ | ⟨-, hopen⟩
  · exact ⟨d, hopen, h2, .refl d⟩
  · exact ⟨_, hopen, rfl, (keeps_createFirst d).trans (keeps_createSecond _)⟩
  · exact ⟨_, hopen, rfl, keeps_createSecond d⟩

/-- It gets all tables unless its version is below zero. -/
theorem isCurrent_iff {d d' : Database} (htables : d.HasOwnTables) (hopen : d.openTables = .ok d') :
    d'.IsCurrent ↔ 0 ≤ d.version := by
  have hle : d.version ≤ 2 := by
    by_contra hlater
    rw [openTables_later (not_le.mp hlater)] at hopen
    cases hopen
  rcases openTables_cases hle with ⟨h2, h⟩ | ⟨h0, h⟩ | ⟨h1, h⟩
  · obtain rfl : d = d' := Except.ok.inj (h.symm.trans hopen)
    exact iff_of_true ⟨h2, htables.second h2⟩ (by omega)
  · obtain rfl : d.createFirst.createSecond = d' := Except.ok.inj (h.symm.trans hopen)
    exact iff_of_true ⟨rfl, rfl⟩ (by omega)
  · obtain rfl : d.createSecond = d' := Except.ok.inj (h.symm.trans hopen)
    have hbefore : d.createSecond.tables = [d.binaries.isSome, d.annotations.isSome, true, true] :=
      rfl
    rcases h1 with h1 | h1
    · have hown := htables.first h1
      simp only [tables, List.cons.injEq, and_true] at hown
      refine iff_of_true ⟨rfl, ?_⟩ (by omega)
      rw [hbefore, hown.1, hown.2.1]
    · have hown := htables.unversioned h1.le
      simp only [tables, List.cons.injEq, and_true] at hown
      refine iff_of_false (fun hcurrent => ?_) (by omega)
      have hall := hcurrent.2
      rw [hbefore, hown.1] at hall
      cases hall

end Database

/-! ### Files -/

namespace Project

open Command

variable {w : Workspace} {p : Path} {d : Database} (ls : List String)

/-- A database that can be opened is stored in its file. -/
theorem exists_gives_openDatabase (hread : w.directory.read? p = some (.database d))
    (hfile : w.directory.isFolder p = false) {d' : Database} (hopen : d.openTables = .ok d') :
    ∃ w', Gives (openDatabase p) ls w d' ls w' ∧ w'.directory.read? p = some (.database d') := by
  obtain ⟨place, hplace, -⟩ := Option.bind_eq_some_iff.mp hread
  have hfree : w.directory.isFolderAt place = false := by
    rwa [Directory.isFolder, hplace] at hfile
  have hwrite : w.directory.write? p (.database d') =
      some (w.directory.put place (.database d')) :=
    Directory.write?_eq_some.mpr ⟨place, hplace, hfree, rfl⟩
  have hbefore : w.directory.databaseOf? p = some d := by
    unfold Directory.databaseOf?
    rw [hread]
    rfl
  refine ⟨{ w with directory := w.directory.put place (.database d') }, ?_,
    Directory.read?_of_write? hwrite⟩
  exact gives_openDatabase.mpr ⟨d, hbefore, hopen, gives_store.mpr ⟨_, hwrite, rfl, rfl⟩⟩

/-- A database that is refused is left as it is, and so is all else. -/
theorem fails_openDatabase (hread : w.directory.read? p = some (.database d)) {e : DatabaseError}
    (hopen : d.openTables = .error e) : Fails (openDatabase p) ls w e.messages ls w := by
  unfold openDatabase
  rw [fails_bind_of (gives_read? p), hread]
  change Fails (Command.ofResult DatabaseError.messages d.openTables >>= _) ls w _ ls w
  rw [hopen]
  exact (fails_ofResult _ e).bind

/-- **When opening a database makes it current.** A file holds a database with the tables of its
version. Opening it gives a current database with every row exactly if the version is 0, 1 or 2, and
then the file holds that database. A later version is refused, and nothing changes. A version below
zero is opened too and keeps its rows, but what is opened has the current version without the tables
of it. -/
theorem openDatabase_current_iff (hread : w.directory.read? p = some (.database d))
    (hfile : w.directory.isFolder p = false) (htables : d.HasOwnTables) :
    ((∃ d' ls' w', Gives (openDatabase p) ls w d' ls' w' ∧ d'.IsCurrent) ↔
      0 ≤ d.version ∧ d.version ≤ 2) ∧
    (d.version ≤ 2 → ∃ d' w', Gives (openDatabase p) ls w d' ls w' ∧
      w'.directory.read? p = some (.database d') ∧ d'.version = 2 ∧ d.Keeps d' ∧
      (d'.IsCurrent ↔ 0 ≤ d.version)) ∧
    (2 < d.version →
      Fails (openDatabase p) ls w (DatabaseError.unsupportedVersion d.version).messages ls w) := by
  have hopened : d.version ≤ 2 → ∃ d' w', Gives (openDatabase p) ls w d' ls w' ∧
      w'.directory.read? p = some (.database d') ∧ d'.version = 2 ∧ d.Keeps d' ∧
      (d'.IsCurrent ↔ 0 ≤ d.version) := by
    intro hle
    obtain ⟨d', hopen, hversion, hkeeps⟩ := Database.exists_openTables hle
    obtain ⟨w', hgives, hstored⟩ := exists_gives_openDatabase ls hread hfile hopen
    exact ⟨d', w', hgives, hstored, hversion, hkeeps, Database.isCurrent_iff htables hopen⟩
  have hrefused : 2 < d.version →
      Fails (openDatabase p) ls w (DatabaseError.unsupportedVersion d.version).messages ls w :=
    fun hlater => fails_openDatabase ls hread (Database.openTables_later hlater)
  refine ⟨⟨?_, ?_⟩, hopened, hrefused⟩
  · rintro ⟨d', ls', w', hgives, hcurrent⟩
    have hle : d.version ≤ 2 := by
      by_contra hlater
      have hfails := hrefused (not_le.mp hlater)
      unfold Fails at hfails
      unfold Gives at hgives
      rw [hfails] at hgives
      cases hgives
    obtain ⟨e, w₁, hgives', -, -, -, hiff⟩ := hopened hle
    have hsame : ((Except.ok e, ls), w₁) = ((Except.ok d', ls'), w') := hgives'.symm.trans hgives
    simp only [Prod.mk.injEq, Except.ok.injEq] at hsame
    rw [hsame.1.1] at hiff
    exact ⟨hiff.mp hcurrent, hle⟩
  · rintro ⟨hpos, hle⟩
    obtain ⟨d', w', hgives, -, -, -, hiff⟩ := hopened hle
    exact ⟨d', ls, w', hgives, hiff.mpr hpos⟩

end Project

/-! A database of the first version in a file, and one of a version that there never was. -/

namespace Upgraded

def database : Database :=
  ⟨1, some ⟨[(3, ⟨"fw", "fw.elf", none, none⟩)], 3⟩,
    some [⟨"fw", 0, "comment", 16, "\x7b\"comment\":\"loop\"\x7d"⟩], none, none⟩

def file : Path := ⟨"p.db"⟩

def workspace : Workspace :=
  ⟨{ Directory.empty [['w']] with files := [([['w'], file.chars], .database database)] }, ""⟩

theorem rows_kept : database.HasOwnTables ∧ ∃ d' w',
    Command.Gives (Project.openDatabase file) [] workspace d' [] w' ∧ d'.IsCurrent ∧
      database.Keeps d' := by
  have htables : database.HasOwnTables :=
    ⟨fun h => absurd h (by decide), fun _ => rfl, fun h => absurd h (by decide)⟩
  have hplace : workspace.directory.place? file = some [['w'], file.chars] := by
    unfold workspace
    rw [Directory.place?_files]
    decide +kernel
  have hread : workspace.directory.read? file = some (.database database) := by
    rw [Directory.read?, hplace]
    rfl
  have hfile : workspace.directory.isFolder file = false := by
    rw [Directory.isFolder, hplace]
    rfl
  obtain ⟨d', w', hgives, -, -, hkeeps, hiff⟩ :=
    (Project.openDatabase_current_iff [] hread hfile htables).2.1 (by decide)
  exact ⟨htables, d', w', hgives, hiff.mpr (by decide), hkeeps⟩

/-- A database without tables, whose version is below zero. -/
def stale : Database := { Database.blank with version := -1 }

/-- It is opened and has the current version, but no binaries can be listed or added. -/
theorem stale_opened : stale.HasOwnTables ∧ ¬ (0 ≤ stale.version ∧ stale.version ≤ 2) ∧
    ∃ d', stale.openTables = .ok d' ∧ d'.version = Database.currentVersion ∧
      d'.listBinaries = .error .sql ∧ ∀ b, d'.insertBinary b = .error .sql := by
  refine ⟨⟨fun _ => rfl, fun h => absurd h (by decide), fun h => absurd h (by decide)⟩, by decide,
    stale.createSecond, rfl, rfl, rfl, fun _ => rfl⟩

end Upgraded

end FlowState
