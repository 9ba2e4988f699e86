import FlowState.Command.Annotations
import FlowState.Proofs.WrittenFiles

/-! # Commands in a workspace

`Gives c ls w a ls' w'` says that a command gives a value and does not fail. A command that is made
of parts gives a value exactly if its parts do (`gives_bind`), so each command that opens a project
or a binary is described by what it finds in the directory. It fails (`Fails`) with the first of its
parts that does. -/

namespace FlowState

/-! ### Commands in a workspace -/

namespace Command

section Gives
variable {α β : Type}

/-- In a workspace and behind some lines the command gives a value, and it leaves lines and a
workspace. -/
def Gives (c : Command (StateM Workspace) α) (ls : List String) (w : Workspace) (a : α)
    (ls' : List String) (w' : Workspace) : Prop :=
  c ls w = ((.ok a, ls'), w')

variable {c : Command (StateM Workspace) α} {f : α → Command (StateM Workspace) β}
  {ls ls' : List String} {w w' : Workspace} {a a' : α} {b : β}

@[simp] theorem gives_pure :
    Gives (pure a) ls w a' ls' w' ↔ a = a' ∧ ls = ls' ∧ w = w' := by
  change ((Except.ok a, ls), w) = ((Except.ok a', ls'), w') ↔ _
  simp [and_assoc]

@[simp] theorem not_gives_throw (e : Failure) : ¬ Gives (throw e) ls w a ls' w' := by
  change ¬ ((Except.error e, ls), w) = ((Except.ok a, ls'), w')
  simp

theorem gives_bind : Gives (c >>= f) ls w b ls' w' ↔
    ∃ a ls₁ w₁, Gives c ls w a ls₁ w₁ ∧ Gives (f a) ls₁ w₁ b ls' w' := by
  unfold Gives
  simp only [bind, ExceptT.bind, ExceptT.mk, StateT.bind]
  rcases c ls w with ⟨⟨e | a, ls₁⟩, w₁⟩
  · constructor
    · intro h
      cases h
    · rintro ⟨a, ls₂, w₂, h, -⟩
      cases h
  · constructor
    · exact fun h => ⟨a, ls₁, w₁, rfl, h⟩
    · rintro ⟨a', ls₂, w₂, h, hf⟩
      cases h
      exact hf

/-- What a command gives is known, and the rest goes on with it. -/
theorem gives_bind_of {ls₁ : List String} {w₁ : Workspace} (h : Gives c ls w a ls₁ w₁) :
    Gives (c >>= f) ls w b ls' w' ↔ Gives (f a) ls₁ w₁ b ls' w' := by
  rw [gives_bind]
  constructor
  · rintro ⟨a', ls₂, w₂, h', hf⟩
    cases h.symm.trans h'
    exact hf
  · exact fun hf => ⟨a, ls₁, w₁, h, hf⟩

@[simp] theorem gives_within (message : String) :
    Gives (within message c) ls w a ls' w' ↔ Gives c ls w a ls' w' := by
  unfold Gives within
  simp only [tryCatch, tryCatchThe, MonadExceptOf.tryCatch, ExceptT.tryCatch, ExceptT.mk, bind,
    StateT.bind]
  rcases c ls w with ⟨⟨e | a', ls₁⟩, w₁⟩
  · constructor
    · intro h
      cases h
    · intro h
      cases h
  · exact Iff.rfl

@[simp] theorem gives_ofResult {ε : Type} {messages : ε → Failure} {r : Except ε α} :
    Gives (ofResult messages r) ls w a ls' w' ↔ r = .ok a ∧ ls = ls' ∧ w = w' := by
  cases r with
  | error e => simp [ofResult]
  | ok x => simp [ofResult]

/-- The rest of a command goes on with a result that is there. -/
theorem gives_result_bind {ε : Type} {message : String} {messages : ε → Failure} {r : Except ε α} :
    Gives (within message (ofResult messages r) >>= f) ls w b ls' w' ↔
      ∃ a, r = .ok a ∧ Gives (f a) ls w b ls' w' := by
  simp only [gives_bind, gives_within, gives_ofResult]
  constructor
  · rintro ⟨a, ls₁, w₁, ⟨hr, rfl, rfl⟩, hf⟩
    exact ⟨a, hr, hf⟩
  · rintro ⟨a, hr, hf⟩
    exact ⟨a, ls, w, ⟨hr, rfl, rfl⟩, hf⟩

theorem gives_then_pure {d : Command (StateM Workspace) Unit} :
    Gives (do d; return a) ls w a' ls' w' ↔ a = a' ∧ Gives d ls w () ls' w' := by
  rw [gives_bind]
  constructor
  · rintro ⟨u, ls₁, w₁, hd, h⟩
    obtain ⟨rfl, rfl, rfl⟩ := gives_pure.mp h
    exact ⟨rfl, hd⟩
  · rintro ⟨rfl, hd⟩
    exact ⟨(), ls', w', hd, gives_pure.mpr ⟨rfl, rfl, rfl⟩⟩

theorem gives_current : Gives Files.current ls w w.directory.currentPath ls w := rfl

theorem gives_canonical? (p : Path) :
    Gives (Files.canonical? p) ls w (w.directory.canonical? p) ls w := rfl

theorem gives_read? (p : Path) : Gives (Files.read? p) ls w (w.directory.read? p) ls w := rfl

theorem gives_print (line : String) : Gives (print line) ls w () (ls ++ [line]) w := rfl

theorem gives_printAll (lines : List String) : Gives (printAll lines) ls w () (ls ++ lines) w := rfl

theorem gives_write (p : Path) (content : FileContent) : Gives (Files.write p content) ls w
    (w.directory.write? p content).isSome ls
    { w with directory := (w.directory.write? p content).getD w.directory } := by
  have hwrite : (Files.write p content : StateM Workspace Bool) w =
      ((w.directory.write? p content).isSome,
        { w with directory := (w.directory.write? p content).getD w.directory }) := by
    simp only [Files.write]
    cases w.directory.write? p content with
    | none => rfl
    | some d => rfl
  unfold Gives
  simp only [Files.write, ExceptT.lift, ExceptT.mk, StateT.lift, bind, StateT.bind, Functor.map,
    StateT.map] at hwrite ⊢
  rw [hwrite]
  rfl

/-- A command that gives a value does not fail. -/
theorem Gives.run (h : Gives c [] w a ls' w') :
    (Command.run c : StateM Workspace Printed) w = (⟨ls', none⟩, w') := by
  unfold Gives at h
  unfold Command.run ExceptT.run StateT.run
  simp only [bind, StateT.bind, h]
  rfl

end Gives

section Fails
variable {α β : Type}

/-- In a workspace and behind some lines the command fails, and it leaves lines and a workspace. -/
def Fails (c : Command (StateM Workspace) α) (ls : List String) (w : Workspace) (f : Failure)
    (ls' : List String) (w' : Workspace) : Prop :=
  c ls w = ((.error f, ls'), w')

variable {c : Command (StateM Workspace) α} {f : α → Command (StateM Workspace) β}
  {ls ls' : List String} {w w' : Workspace} {a : α} {e : Failure}

theorem fails_throw (e : Failure) :
    Fails (throw e : Command (StateM Workspace) α) ls w e ls w := rfl

theorem fails_ofResult {ε : Type} (messages : ε → Failure) (x : ε) :
    Fails (ofResult messages (.error x) : Command (StateM Workspace) α) ls w (messages x) ls w :=
  rfl

theorem Fails.bind (h : Fails c ls w e ls' w') : Fails (c >>= f) ls w e ls' w' := by
  unfold Fails at h ⊢
  simp only [Bind.bind, ExceptT.bind, ExceptT.mk, StateT.bind, h]
  rfl

theorem fails_bind_of {ls₁ : List String} {w₁ : Workspace} (h : Gives c ls w a ls₁ w₁) :
    Fails (c >>= f) ls w e ls' w' ↔ Fails (f a) ls₁ w₁ e ls' w' := by
  unfold Gives at h
  unfold Fails
  simp only [Bind.bind, ExceptT.bind, ExceptT.mk, StateT.bind, h]
  exact Iff.rfl

theorem Fails.run (h : Fails c [] w e ls' w') :
    (Command.run c : StateM Workspace Printed) w = (⟨ls', some e⟩, w') := by
  unfold Fails at h
  unfold Command.run ExceptT.run StateT.run
  simp only [Bind.bind, StateT.bind, h]
  rfl

end Fails

end Command

/-! ### What a directory tells about a project -/

namespace Directory

/-- The bytes of a file. -/
def bytes? (d : Directory) (p : Path) : Option (List UInt8) :=
  (d.read? p).map FileContent.toBytes

theorem map_read? (d : Directory) (p : Path) :
    (d.read? p).map FileContent.toBytes = d.bytes? p := rfl

/-- The root that a path names. -/
def rootOf (d : Directory) (p : Path) : Path :=
  if p.parts = [.here] then d.currentPath else (d.canonical? p).getD (d.currentPath.join p)

/-- The configuration of the project in a place. -/
def configOf? (d : Directory) (l : ProjectLayout) : Option ProjectConfig :=
  ((d.bytes? l.config).bind Text.ofBytes?).bind ProjectConfig.ofText?

/-- The database in a file, or one without tables if the file is missing. -/
def databaseOf? (d : Directory) (p : Path) : Option Database :=
  match d.read? p with
  | none => some .blank
  | some content => content.database?

section Put
variable {d : Directory} {place : Place} {db : Database} (h : d.fileAt? place = some (.database db))
  (db' : Database)
include h

/-- Databases look the same to those who read bytes. -/
theorem bytes?_put (p : Path) : (d.put place (.database db')).bytes? p = d.bytes? p := by
  unfold bytes?
  rw [read?_put]
  split_ifs with hp
  · have hread : d.read? p = some (.database db) := by
      rw [read?, hp, Option.bind_some, h]
    rw [hread]
    rfl
  · rfl

theorem configOf?_put (l : ProjectLayout) :
    (d.put place (.database db')).configOf? l = d.configOf? l := by
  unfold configOf?
  rw [bytes?_put h]

theorem rootOf_put (p : Path) : (d.put place (.database db')).rootOf p = d.rootOf p := by
  have hthere : (d.fileAt? place).isSome := by rw [h]; rfl
  unfold rootOf
  rw [canonical?_put d place _ hthere]
  rfl

end Put

end Directory

namespace Project

open Command

variable {ls ls' : List String} {w w' : Workspace}

theorem gives_root (p : Path) : Gives (root p) ls w (w.directory.rootOf p) ls w := by
  unfold root Directory.rootOf
  split_ifs with hp
  · exact gives_current
  · rw [gives_bind_of (gives_canonical? p)]
    cases w.directory.canonical? p with
    | none =>
      rw [gives_bind_of gives_current]
      rfl
    | some q => rfl

theorem gives_readConfig {l : ProjectLayout} {c : ProjectConfig} :
    Gives (readConfig l) ls w c ls' w' ↔
      w.directory.configOf? l = some c ∧ ls = ls' ∧ w = w' := by
  unfold readConfig Directory.configOf? Directory.bytes?
  rw [gives_bind_of (gives_read? _)]
  cases ((w.directory.read? l.config).map FileContent.toBytes).bind Text.ofBytes? with
  | none => simp
  | some text =>
    cases hc : ProjectConfig.ofText? text with
    | none => simp [hc]
    | some c' => simp [hc]

theorem gives_store {p : Path} {db : Database} {u : Unit} : Gives (store p db) ls w u ls' w' ↔
    ∃ d, w.directory.write? p (.database db) = some d ∧ ls = ls' ∧
      { w with directory := d } = w' := by
  unfold store
  rw [gives_bind_of (gives_write p _)]
  cases w.directory.write? p (.database db) with
  | none => simp
  | some d => simp

theorem gives_openDatabase {p : Path} {db : Database} :
    Gives (openDatabase p) ls w db ls' w' ↔ ∃ before, w.directory.databaseOf? p = some before ∧
      before.openTables = .ok db ∧ Gives (store p db) ls w () ls' w' := by
  have hrest : ∀ before : Database, Gives (do
        let d ← Command.ofResult DatabaseError.messages before.openTables
        store p d
        return d) ls w db ls' w' ↔
      before.openTables = .ok db ∧ Gives (store p db) ls w () ls' w' := by
    intro before
    cases before.openTables with
    | error e => simp [gives_bind]
    | ok d =>
      rw [gives_bind_of (gives_ofResult.mpr ⟨rfl, rfl, rfl⟩), gives_then_pure, Except.ok.injEq]
      refine and_congr_right fun hd => ?_
      rw [hd]
  unfold openDatabase Directory.databaseOf?
  rw [gives_bind_of (gives_read? p)]
  cases w.directory.read? p with
  | none =>
    simp only [pure_bind, hrest]
    simp
  | some content =>
    cases hc : content.database? with
    | none => simp [hc]
    | some d =>
      simp only [hc, pure_bind, hrest]
      simp

theorem gives_openAt {root : Path} {p : Project} : Gives (openAt root) ls w p ls' w' ↔
    p.layout = ⟨w.directory.rootOf root⟩ ∧ w.directory.configOf? p.layout = some p.config ∧
      p.databasePath = p.layout.resolve p.config.database ∧
      Gives (openDatabase p.databasePath) ls w p.database ls' w' := by
  unfold openAt
  rw [gives_bind_of (gives_root root), gives_bind]
  constructor
  · rintro ⟨config, ls₁, w₁, hread, h⟩
    obtain ⟨hconfig, rfl, rfl⟩ := gives_readConfig.mp hread
    obtain ⟨db, ls₂, w₂, hdb, hp⟩ := gives_bind.mp h
    obtain ⟨rfl, rfl, rfl⟩ := gives_pure.mp hp
    exact ⟨rfl, hconfig, rfl, (gives_within _).mp hdb⟩
  · rintro ⟨hlayout, hconfig, hpath, hdb⟩
    rw [hpath, hlayout] at hdb
    rw [hlayout] at hconfig hpath
    refine ⟨p.config, ls, w, gives_readConfig.mpr ⟨hconfig, rfl, rfl⟩, ?_⟩
    refine gives_bind.mpr ⟨p.database, ls', w', (gives_within _).mpr hdb, gives_pure.mpr ?_⟩
    refine ⟨?_, rfl, rfl⟩
    rw [← hpath, ← hlayout]

theorem gives_change {α : Type} {p : Project}
    {step : Database → Except DatabaseError (Database × α)} {x : Project × α} :
    Gives (p.change step) ls w x ls' w' ↔ ∃ db, step p.database = .ok (db, x.2) ∧
      x.1 = { p with database := db } ∧ Gives (store p.databasePath db) ls w () ls' w' := by
  unfold change
  cases step p.database with
  | error e => simp [gives_bind]
  | ok r =>
    obtain ⟨db, a⟩ := r
    rw [gives_bind_of (gives_ofResult.mpr ⟨rfl, rfl, rfl⟩), gives_then_pure]
    constructor
    · rintro ⟨rfl, hstore⟩
      exact ⟨db, rfl, rfl, hstore⟩
    · rintro ⟨db', hstep, hx, hstore⟩
      cases hstep
      exact ⟨Prod.ext hx.symm rfl, hstore⟩

theorem gives_saveAnnotations {p q : Project} {name : String} {as : List Annotation} :
    Gives (p.saveAnnotations name as) ls w q ls' w' ↔ ∃ db,
      p.database.saveAnnotations name as = .ok db ∧ q = { p with database := db } ∧
        Gives (store p.databasePath db) ls w () ls' w' := by
  unfold saveAnnotations
  cases p.database.saveAnnotations name as with
  | error e => simp
  | ok db =>
    rw [gives_then_pure]
    constructor
    · rintro ⟨rfl, hstore⟩
      exact ⟨db, rfl, rfl, hstore⟩
    · rintro ⟨db', hdb, rfl, hstore⟩
      cases hdb
      exact ⟨rfl, hstore⟩

/-- The session of an image on top of stored annotations. -/
def openSession (config : SessionConfig) (stored : List Annotation) (image : Image) : Session :=
  { Session.new config with
    image := some image
    annotations := Session.mergeImage (AnnotationStore.ofAnnotations stored).reindex image }

/-- The database once the architecture of a binary is recorded. -/
def recorded (db : Database) (b : BinaryRecord) (arch : String) : Except DatabaseError Database :=
  if b.arch = some arch then .ok db else (db.updateArch b.name arch).map (·.1)

theorem gives_recordArchitecture {p q : Project} {b : BinaryRecord} {s : Session} {image : Image}
    (hs : s.image = some image) : Gives (p.recordArchitecture b s) ls w q ls' w' ↔
      ∃ db, recorded p.database b image.architecture.name = .ok db ∧ q = { p with database := db } ∧
        ((b.arch = some image.architecture.name ∧ ls = ls' ∧ w = w') ∨
          (b.arch ≠ some image.architecture.name ∧
            Gives (store p.databasePath db) ls w () ls' w')) := by
  unfold recordArchitecture recorded
  rw [hs]
  simp only [Option.map_some]
  by_cases harch : b.arch = some image.architecture.name
  · simp only [harch, if_true, gives_pure]
    constructor
    · rintro ⟨rfl, rfl, rfl⟩
      exact ⟨p.database, rfl, rfl, .inl ⟨trivial, rfl, rfl⟩⟩
    · rintro ⟨db, hdb, rfl, ⟨-, rfl, rfl⟩ | ⟨hne, -⟩⟩
      · cases hdb
        exact ⟨rfl, rfl, rfl⟩
      · exact absurd rfl hne
  · simp only [harch, if_false, false_and, false_or, ne_eq, not_false_eq_true, true_and]
    rw [gives_bind]
    constructor
    · rintro ⟨x, ls₁, w₁, hchange, h⟩
      obtain ⟨rfl, rfl, rfl⟩ := gives_pure.mp h
      obtain ⟨db, hdb, hx, hstore⟩ := gives_change.mp ((gives_within _).mp hchange)
      exact ⟨db, by rw [hdb]; rfl, hx, hstore⟩
    · rintro ⟨db, hdb, rfl, hstore⟩
      cases hupdate : p.database.updateArch b.name image.architecture.name with
      | error e =>
        rw [hupdate] at hdb
        cases hdb
      | ok r =>
        rw [hupdate] at hdb
        cases hdb
        refine ⟨({ p with database := r.1 }, r.2), ls', w', (gives_within _).mpr ?_,
          gives_pure.mpr ⟨rfl, rfl, rfl⟩⟩
        exact gives_change.mpr ⟨r.1, hupdate, rfl, hstore⟩

/-- The same where the database of the project has just been stored. -/
theorem gives_recordArchitecture_put {p q : Project} {b : BinaryRecord} {s : Session}
    {image : Image} (hs : s.image = some image) {d : Directory} {place : Place}
    (hplace : d.place? p.databasePath = some place) (hfree : d.isFolderAt place = false) :
    Gives (p.recordArchitecture b s) ls
        { w with directory := d.put place (.database p.database) } q ls' w' ↔
      ∃ db, recorded p.database b image.architecture.name = .ok db ∧ q = { p with database := db } ∧
        ls = ls' ∧ { w with directory := d.put place (.database db) } = w' := by
  rw [gives_recordArchitecture hs]
  refine exists_congr fun db => and_congr_right fun hdb => and_congr_right fun _ => ?_
  unfold recorded at hdb
  split_ifs at hdb with harch
  · cases hdb
    simp [harch]
  · simp [harch, gives_store, Directory.write?_put hplace hfree]

theorem loadAnnotations_new (config : SessionConfig) (stored : List Annotation) :
    (Session.new config).loadAnnotations (.ok stored) =
      ⟨{ Session.new config with annotations := (AnnotationStore.ofAnnotations stored).reindex },
        [.annotations], .ok stored.length⟩ := rfl

theorem load_annotated (config : SessionConfig) (stored : List Annotation) {r : Registry} {p : Path}
    {content : Option (List UInt8)} {image : Image} (h : r.load p content = .ok image) :
    Session.load r p content { Session.new config with
        annotations := (AnnotationStore.ofAnnotations stored).reindex } =
      ⟨openSession config stored image, [.annotations, .states], .ok ()⟩ := by
  unfold Session.load
  rw [h]
  rfl

theorem gives_openBinary {p : Project} {r : Registry} {name : String} {config : SessionConfig}
    {x : Project × Session} : Gives (p.openBinary r name config) ls w x ls' w' ↔
      ∃ b stored image, p.database.findBinary name = .ok (some b) ∧
        p.database.loadAnnotations name = .ok stored ∧
        r.load (p.layout.resolve ⟨b.path⟩) (w.directory.bytes? (p.layout.resolve ⟨b.path⟩)) =
          .ok image ∧
        x.2 = openSession config stored image ∧
        Gives (p.recordArchitecture b x.2) ls w x.1 ls' w' := by
  unfold openBinary ask
  rw [gives_result_bind]
  constructor
  · rintro ⟨_ | b, hfind, h⟩
    · exact absurd h (not_gives_throw _)
    · cases hload : p.database.loadAnnotations name with
      | error e =>
        rw [hload] at h
        obtain ⟨n, hn, -⟩ := gives_result_bind.mp h
        cases hn
      | ok stored =>
        simp only [hload, Except.mapError, loadAnnotations_new] at h
        obtain ⟨-, -, h⟩ := gives_result_bind.mp h
        rw [gives_bind_of (gives_read? _)] at h
        obtain ⟨u, hloaded, h⟩ := gives_result_bind.mp h
        cases himage : r.load (p.layout.resolve ⟨b.path⟩)
            (w.directory.bytes? (p.layout.resolve ⟨b.path⟩)) with
        | error e =>
          unfold Session.load at hloaded
          rw [Directory.map_read?, himage] at hloaded
          cases hloaded
        | ok image =>
          rw [Directory.map_read?, load_annotated config stored himage] at h
          obtain ⟨q, ls₁, w₁, hrecord, hx⟩ := gives_bind.mp h
          obtain ⟨rfl, rfl, rfl⟩ := gives_pure.mp hx
          exact ⟨b, stored, image, hfind, rfl, himage, rfl, hrecord⟩
  · rintro ⟨b, stored, image, hfind, hload, himage, hx, hrecord⟩
    refine ⟨some b, hfind, ?_⟩
    simp only [hload, Except.mapError, loadAnnotations_new]
    refine gives_result_bind.mpr ⟨_, rfl, ?_⟩
    rw [gives_bind_of (gives_read? _), Directory.map_read?, load_annotated config stored himage]
    refine gives_result_bind.mpr ⟨_, rfl, ?_⟩
    rw [hx] at hrecord
    exact gives_bind.mpr ⟨x.1, ls', w', hrecord, gives_pure.mpr ⟨Prod.ext rfl hx.symm, rfl, rfl⟩⟩

end Project

end FlowState
