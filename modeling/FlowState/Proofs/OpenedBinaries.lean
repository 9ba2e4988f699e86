import FlowState.Proofs.CommandRuns
import FlowState.Proofs.StoredAnnotations

/-! # Opened binaries

An `Opening` is what a directory has to hold for a binary to be opened, and commands open a binary
exactly when there is one (`Command.gives_openWith`). All that they change is the database, and to
everyone who reads bytes a database is the same whatever is in it. So after the database was
replaced the binary is opened in the same way, with the annotations that are in the new one
(`Opening.replace`). -/

namespace FlowState

/-! ### Databases that were opened -/

namespace Database

theorem version_of_openTables {d db : Database} (h : d.openTables = .ok db) : db.version = 2 := by
  unfold openTables currentVersion at h
  by_cases hlater : 2 < d.version
  · simp [hlater] at h
  · by_cases hzero : d.version = 0
    · obtain rfl : d.createFirst.createSecond = db := by simpa [hzero, createFirst] using h
      rfl
    · by_cases hold : d.version < 2
      · obtain rfl : d.createSecond = db := by simpa [hlater, hzero, hold] using h
        rfl
      · obtain rfl : d = db := by simpa [hlater, hzero, hold] using h
        omega

theorem openTables_of_version {d : Database} (h : d.version = 2) : d.openTables = .ok d := by
  unfold openTables currentVersion
  simp [h]

theorem findBinary_of_blank {db : Database} (h : blank.openTables = .ok db) (name : String) :
    db.findBinary name = .ok none := by
  cases h
  rfl

/-- A binary with an architecture set if it has the name. -/
def setArch (name arch : String) (b : BinaryRecord) : BinaryRecord :=
  if b.name == name then { b with arch := some arch } else b

theorem name_setArch (name arch : String) (b : BinaryRecord) :
    (setArch name arch b).name = b.name := by
  unfold setArch
  split <;> rfl

theorem updateArch_eq_ok {d db : Database} {name arch : String} {n : Nat}
    (h : d.updateArch name arch = .ok (db, n)) : ∃ t t' : Numbered BinaryRecord,
      d.binaries = some t ∧ t'.values = t.values.map (setArch name arch) ∧
        db = { d with binaries := some t' } := by
  unfold updateArch at h
  cases hb : d.binaries with
  | none =>
    rw [hb] at h
    cases h
  | some t =>
    rw [hb] at h
    cases h
    refine ⟨t, _, rfl, ?_, rfl⟩
    rw [Numbered.values, Numbered.values, List.map_map, List.map_map]
    refine List.map_congr_left fun r _ => ?_
    simp only [Function.comp_apply, setArch]
    split <;> rfl

/-- The architecture of a binary is set, and its name and path stay. -/
theorem findBinary_of_updateArch {d db : Database} {name arch : String} {b : BinaryRecord} {n : Nat}
    (hfind : d.findBinary name = .ok (some b)) (h : d.updateArch b.name arch = .ok (db, n)) :
    db.findBinary name = .ok (some { b with arch := some arch }) := by
  obtain ⟨t, t', ht, hvalues, rfl⟩ := updateArch_eq_ok h
  unfold findBinary at hfind ⊢
  rw [ht] at hfind
  have hfirst : t.values.find? (fun c => c.name == name) = some b := Except.ok.inj hfind
  have hname : ((fun c : BinaryRecord => c.name == name) ∘ setArch b.name arch) =
      fun c => c.name == name := by
    funext c
    rw [Function.comp_apply, name_setArch]
  change Except.ok (t'.values.find? fun c => c.name == name) = _
  rw [hvalues, List.find?_map, hname, hfirst]
  simp [setArch]

theorem loadAnnotations_congr {d db : Database} (h : d.annotations = db.annotations)
    (binary : String) : d.loadAnnotations binary = db.loadAnnotations binary := by
  unfold loadAnnotations
  rw [h]

end Database

/-! ### Opening a binary -/

/-- **What it takes to open a binary**: at the root there are a configuration and a file with a
database that knows the binary, its annotations can be read, and its image can be loaded. The
project that is opened has the database with the architecture recorded. -/
structure Opening (r : Registry) (root : Path) (binary : String) (d : Directory) (p : Project)
    (place : Place) (image : Image) (stored : List Annotation) : Prop where
  layout_eq : p.layout = ⟨d.rootOf root⟩
  config_eq : d.configOf? p.layout = some p.config
  path_eq : p.databasePath = p.layout.resolve p.config.database
  place_eq : d.place? p.databasePath = some place
  free : d.isFolderAt place = false
  held : ∃ before db b, d.fileAt? place = some (.database before) ∧ before.openTables = .ok db ∧
    db.findBinary binary = .ok (some b) ∧ db.loadAnnotations binary = .ok stored ∧
    r.load (p.layout.resolve ⟨b.path⟩) (d.bytes? (p.layout.resolve ⟨b.path⟩)) = .ok image ∧
    Project.recorded db b image.architecture.name = .ok p.database

namespace Opening

variable {r : Registry} {root : Path} {binary : String} {d : Directory} {p : Project}
  {place : Place} {image : Image} {stored : List Annotation}

/-- The database of an opened project. -/
theorem database_held (h : Opening r root binary d p place image stored) :
    p.database.version = 2 ∧ p.database.loadAnnotations binary = .ok stored ∧
      ∃ b, p.database.findBinary binary = .ok (some b) ∧ b.arch = some image.architecture.name ∧
        r.load (p.layout.resolve ⟨b.path⟩) (d.bytes? (p.layout.resolve ⟨b.path⟩)) =
          .ok image := by
  obtain ⟨before, db, b, -, htables, hfind, hload, himage, hrecorded⟩ := h.held
  have hversion := Database.version_of_openTables htables
  unfold Project.recorded at hrecorded
  split_ifs at hrecorded with harch
  · cases hrecorded
    exact ⟨hversion, hload, b, hfind, harch, himage⟩
  · cases hupdate : db.updateArch b.name image.architecture.name with
    | error e =>
      rw [hupdate] at hrecorded
      cases hrecorded
    | ok r =>
      obtain ⟨db', n⟩ := r
      rw [hupdate] at hrecorded
      obtain rfl : db' = p.database := Except.ok.inj hrecorded
      have hfound := Database.findBinary_of_updateArch hfind hupdate
      obtain ⟨t, t', -, -, hdb⟩ := Database.updateArch_eq_ok hupdate
      refine ⟨?_, ?_, _, hfound, rfl, himage⟩
      · rw [hdb]
        exact hversion
      · rw [← hload]
        exact Database.loadAnnotations_congr (by rw [hdb]) binary

/-- A directory whose database was replaced is opened in the same way. -/
theorem replace (h : Opening r root binary d p place image stored) {db : Database}
    {as : List Annotation} (hversion : db.version = 2)
    (hbinaries : db.binaries = p.database.binaries)
    (hload : db.loadAnnotations binary = .ok as) :
    Opening r root binary (d.put place (.database db)) { p with database := db } place image
      as := by
  obtain ⟨before, _, _, hfile, -⟩ := h.held
  obtain ⟨-, -, b, hfind, harch, himage⟩ := h.database_held
  constructor
  · rw [Directory.rootOf_put hfile]
    exact h.layout_eq
  · rw [Directory.configOf?_put hfile]
    exact h.config_eq
  · exact h.path_eq
  · rw [Directory.place?_put]
    exact h.place_eq
  · exact h.free
  · refine ⟨db, db, b, Directory.fileAt?_put_self _ _ _, Database.openTables_of_version hversion,
      ?_, hload, ?_, if_pos harch⟩
    · unfold Database.findBinary at hfind ⊢
      rw [hbinaries]
      exact hfind
    · rw [Directory.bytes?_put hfile]
      exact himage

/-- Once it was opened, a binary is opened in the same way. -/
theorem again (h : Opening r root binary d p place image stored) :
    Opening r root binary (d.put place (.database p.database)) p place image stored := by
  obtain ⟨hversion, hload, -⟩ := h.database_held
  exact h.replace hversion rfl hload

/-- Once annotations were saved for it, a binary is opened with them. -/
theorem save (h : Opening r root binary d p place image stored) {db : Database}
    {as : List Annotation} (hsave : p.database.saveAnnotations binary as = .ok db) :
    Opening r root binary (d.put place (.database db)) { p with database := db } place image
      as := by
  obtain ⟨_, -, hdb⟩ := Database.saveAnnotations_eq_ok hsave
  exact h.replace (by rw [hdb]; exact h.database_held.1) (by rw [hdb])
    (Database.loadAnnotations_of_save hsave)

end Opening

theorem Directory.fileAt?_of_databaseOf? {d : Directory} {p : Path} {place : Place}
    {before db : Database} {name : String} {b : BinaryRecord}
    (hplace : d.place? p = some place) (hbefore : d.databaseOf? p = some before)
    (htables : before.openTables = .ok db) (hfind : db.findBinary name = .ok (some b)) :
    d.fileAt? place = some (.database before) := by
  -- a database without tables knows no binary
  have hblank : before ≠ .blank := by
    rintro rfl
    rw [Database.findBinary_of_blank htables] at hfind
    cases hfind
  have hread : d.read? p = d.fileAt? place := by
    rw [read?, hplace, Option.bind_some]
  unfold databaseOf? at hbefore
  rw [hread] at hbefore
  rcases hfile : d.fileAt? place with _ | ⟨_ | _⟩ | db'
  · rw [hfile] at hbefore
    exact absurd (Option.some.inj hbefore).symm hblank
  · rw [hfile] at hbefore
    exact absurd (Option.some.inj hbefore).symm hblank
  · rw [hfile] at hbefore
    cases hbefore
  · rw [hfile] at hbefore
    cases hbefore
    rfl

namespace Command

open Project

/-- Opens a binary with some settings. -/
def openWith (r : Registry) (root : Path) (binary : String) (config : SessionConfig) :
    Command (StateM Workspace) (Project × Session) := do
  let p ← Project.openAt root
  p.openBinary r binary config

/-- **A binary is opened exactly when there is an opening**, and then the database has been stored
with its tables and the architecture. -/
theorem gives_openWith {r : Registry} {root : Path} {binary : String} {config : SessionConfig}
    {ls ls' : List String} {w w' : Workspace} {x : Project × Session} :
    Gives (openWith r root binary config) ls w x ls' w' ↔
      ∃ place image stored, Opening r root binary w.directory x.1 place image stored ∧
        x.2 = openSession config stored image ∧ ls = ls' ∧
        { w with directory := w.directory.put place (.database x.1.database) } = w' := by
  unfold openWith
  rw [gives_bind]
  constructor
  · rintro ⟨p, ls₁, w₁, hopen, h⟩
    obtain ⟨hlayout, hconfig, hpath, hdatabase⟩ := gives_openAt.mp hopen
    obtain ⟨before, hbefore, htables, hstore⟩ := gives_openDatabase.mp hdatabase
    obtain ⟨d₁, hwrite, rfl, rfl⟩ := gives_store.mp hstore
    obtain ⟨place, hplace, hfree, rfl⟩ := Directory.write?_eq_some.mp hwrite
    obtain ⟨b, stored, image, hfind, hload, himage, hx, hrecord⟩ := Project.gives_openBinary.mp h
    have hfile := Directory.fileAt?_of_databaseOf? hplace hbefore htables hfind
    rw [Directory.bytes?_put hfile] at himage
    have hsession : x.2.image = some image := by rw [hx]; rfl
    obtain ⟨db, hdb, hp, rfl, rfl⟩ :=
      (gives_recordArchitecture_put hsession hplace hfree).mp hrecord
    rw [hp]
    exact ⟨place, image, stored, ⟨hlayout, hconfig, hpath, hplace, hfree,
      before, p.database, b, hfile, htables, hfind, hload, himage, hdb⟩, hx, rfl, rfl⟩
  · rintro ⟨place, image, stored, h, hx, rfl, rfl⟩
    obtain ⟨before, db, b, hfile, htables, hfind, hload, himage, hdb⟩ := h.held
    let p : Project := { x.1 with database := db }
    have hbefore : w.directory.databaseOf? p.databasePath = some before := by
      rw [Directory.databaseOf?, Directory.read?, h.place_eq, Option.bind_some, hfile]
      rfl
    have hstore : Gives (store p.databasePath db) ls w () ls
        { w with directory := w.directory.put place (.database db) } :=
      gives_store.mpr ⟨_, Directory.write?_eq_some.mpr ⟨place, h.place_eq, h.free, rfl⟩, rfl, rfl⟩
    refine ⟨p, ls, _, gives_openAt.mpr ⟨h.layout_eq, h.config_eq, h.path_eq,
      gives_openDatabase.mpr ⟨before, hbefore, htables, hstore⟩⟩, ?_⟩
    refine Project.gives_openBinary.mpr ⟨b, stored, image, hfind, hload, ?_, hx, ?_⟩
    · rw [Directory.bytes?_put hfile]
      exact himage
    · have hsession : x.2.image = some image := by rw [hx]; rfl
      have hplace : w.directory.place? p.databasePath = some place := h.place_eq
      exact (gives_recordArchitecture_put hsession hplace h.free).mpr
        ⟨x.1.database, hdb, rfl, rfl, rfl⟩

theorem gives_openBinary {r : Registry} {root : Path} {binary : String} {ls ls' : List String}
    {w w' : Workspace} {x : Project × Session} : Gives (openBinary r root binary) ls w x ls' w' ↔
      ∃ place image stored, Opening r root binary w.directory x.1 place image stored ∧
        x.2 = openSession {} stored image ∧ ls = ls' ∧
        { w with directory := w.directory.put place (.database x.1.database) } = w' :=
  gives_openWith

/-- The annotations of an opened binary are replaced, and its database is stored. -/
theorem gives_saveAnnotations_of {r : Registry} {root : Path} {binary : String} {w : Workspace}
    {p : Project} {place : Place} {image : Image} {stored : List Annotation}
    (h : Opening r root binary w.directory p place image stored) (as : List Annotation) :
    ∃ db, p.database.saveAnnotations binary as = .ok db ∧
      Gives (p.saveAnnotations binary as) []
        { w with directory := w.directory.put place (.database p.database) }
        { p with database := db } []
        { w with directory := w.directory.put place (.database db) } := by
  obtain ⟨-, hload, -⟩ := h.database_held
  obtain ⟨db, hsave, -⟩ := Database.exists_saveAnnotations
    (Database.isSome_of_loadAnnotations hload) binary as
  exact ⟨db, hsave, gives_saveAnnotations.mpr ⟨db, hsave, rfl, gives_store.mpr
    ⟨_, Directory.write?_put h.place_eq h.free _ _, rfl, rfl⟩⟩⟩

end Command

end FlowState
