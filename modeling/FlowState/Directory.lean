import FlowState.Path
import FlowState.Project.Database

/-! # Directories

A tree of files and folders, and the folder that relative paths start from. A path leads to a place
if every part of it but the last is a folder. A file holds bytes or a project database. -/

namespace FlowState

/-- What a file holds. -/
inductive FileContent where
  | bytes (bs : List UInt8)
  | database (d : Database)

/-- The first bytes of a database as other readers see them. -/
def databaseMark : List UInt8 := Text.toBytes "SQLite format 3\x00"

/-- The bytes of a file. -/
def FileContent.toBytes : FileContent → List UInt8
  | .bytes bs => bs
  | .database _ => databaseMark

/-- The database in a file: an empty file is one without tables. -/
def FileContent.database? : FileContent → Option Database
  | .bytes [] => some .blank
  | .bytes _ => none
  | .database d => some d

/-- A place in the tree: the names from the root down to it. -/
abbrev Place := List (List Char)

/-- Files and folders. -/
structure Directory where
  /-- The folder that relative paths start from. -/
  current : Place
  folders : List Place
  files : List (Place × FileContent)

namespace Directory

/-- The tree with nothing but the current folder. -/
def empty (current : Place) : Directory :=
  ⟨current, (List.range current.length).map fun n => current.take (n + 1), []⟩

/-- The place is a folder. -/
def isFolderAt (d : Directory) (place : Place) : Bool :=
  place.isEmpty || d.folders.contains place

/-- The content of the file at a place. -/
def fileAt? (d : Directory) (place : Place) : Option FileContent :=
  (d.files.find? fun f => f.1 == place).map (·.2)

/-- A name that a file can have. -/
def isName (cs : List Char) : Bool :=
  !cs.contains '\x00' && (Text.toBytes (String.ofList cs)).length ≤ 255

/-- The place that parts lead to from a place. -/
def follow? (d : Directory) (here : Place) : List Path.Part → Option Place
  | [] => some here
  | p :: ps =>
    match p with
    | .root => d.follow? [] ps
    | .here => d.follow? here ps
    | .up => if d.isFolderAt here then d.follow? here.dropLast ps else none
    | .name cs =>
      if d.isFolderAt here && isName cs then d.follow? (here ++ [cs]) ps else none

/-- A path that only leads to a folder. -/
def asksFolder (p : Path) : Bool :=
  match p.chars.reverse with
  | '/' :: _ => true
  | '.' :: '/' :: _ => true
  | _ => false

/-- **The place of a path**, whether there is something or not. -/
def place? (d : Directory) (p : Path) : Option Place :=
  if p.text.isEmpty then none
  else (d.follow? d.current p.parts).filter fun place => !asksFolder p || d.isFolderAt place

/-- The path is a folder. -/
def isFolder (d : Directory) (p : Path) : Bool := (d.place? p).any d.isFolderAt

/-- The content of a file. -/
def read? (d : Directory) (p : Path) : Option FileContent := (d.place? p).bind d.fileAt?

/-- There is a file or a folder. -/
def exists? (d : Directory) (p : Path) : Bool := d.isFolder p || (d.read? p).isSome

/-- The absolute path of a place. -/
def pathOf (place : Place) : Path := .ofParts (.root :: place.map .name)

/-- The absolute path of what is there, without steps up. -/
def canonical? (d : Directory) (p : Path) : Option Path :=
  if d.exists? p then (d.place? p).map pathOf else none

/-- The folder that relative paths start from. -/
def currentPath (d : Directory) : Path := pathOf d.current

/-- **Writes a file**: refused where its folder is missing or a folder is. -/
def write? (d : Directory) (p : Path) (content : FileContent) : Option Directory :=
  match d.place? p with
  | none => none
  | some place =>
    if d.isFolderAt place then none
    else some { d with files := d.files.filter (fun f => f.1 != place) ++ [(place, content)] }

/-- Makes the folders that parts lead through from a place, up to the first that cannot be made. -/
def createFrom (d : Directory) (here : Place) : List Path.Part → Directory × Bool
  | [] => (d, true)
  | p :: ps =>
    match p with
    | .root => d.createFrom [] ps
    | .here => d.createFrom here ps
    | .up => d.createFrom here.dropLast ps
    | .name cs =>
      let there := here ++ [cs]
      if !isName cs || (d.fileAt? there).isSome then (d, false)
      else if d.isFolderAt there then d.createFrom there ps
      else { d with folders := d.folders ++ [there] }.createFrom there ps

/-- **Makes a folder** and all folders on the way to it: refused where a file is in the way. -/
def createFolders (d : Directory) (p : Path) : Directory × Bool :=
  d.createFrom d.current p.parts

/-- Removes a file, or a folder with all that is in it: nothing if there is neither. -/
def remove? (d : Directory) (p : Path) : Option Directory :=
  match d.place? p with
  | none => none
  | some place =>
    if d.exists? p then
      some { d with
        folders := d.folders.filter fun f => !place.isPrefixOf f
        files := d.files.filter fun f => !place.isPrefixOf f.1 }
    else none

end Directory

end FlowState
