import FlowState.Directory

/-! # Access to files

What a command asks of the files around it and of the clock. A workspace answers these questions
from a directory and a time that it holds. -/

namespace FlowState

/-- Access to files and to the clock. -/
class Files (m : Type → Type) where
  /-- The folder that relative paths start from. -/
  current : m Path
  /-- The absolute path of what is there, without steps up. -/
  canonical? : Path → m (Option Path)
  isFolder : Path → m Bool
  /-- There is a file or a folder. -/
  isThere : Path → m Bool
  /-- The content of a file. -/
  read? : Path → m (Option FileContent)
  /-- Writes a file: whether that was possible. -/
  write : Path → FileContent → m Bool
  /-- Makes a folder and all folders on the way to it: whether it is there now. -/
  createFolders : Path → m Bool
  /-- The time. -/
  now : m String

/-- A directory and a clock that stands still. -/
structure Workspace where
  directory : Directory
  clock : String

instance : Files (StateM Workspace) where
  current := fun w => (w.directory.currentPath, w)
  canonical? p := fun w => (w.directory.canonical? p, w)
  isFolder p := fun w => (w.directory.isFolder p, w)
  isThere p := fun w => (w.directory.exists? p, w)
  read? p := fun w => (w.directory.read? p, w)
  write p content := fun w =>
    match w.directory.write? p content with
    | some d => (true, { w with directory := d })
    | none => (false, w)
  createFolders p := fun w =>
    let (d, made) := w.directory.createFolders p
    (made, { w with directory := d })
  now := fun w => (w.clock, w)

instance {ε σ : Type} {m : Type → Type} [Monad m] [Files m] : Files (ExceptT ε (StateT σ m)) where
  current := ExceptT.lift (StateT.lift Files.current)
  canonical? p := ExceptT.lift (StateT.lift (Files.canonical? p))
  isFolder p := ExceptT.lift (StateT.lift (Files.isFolder p))
  isThere p := ExceptT.lift (StateT.lift (Files.isThere p))
  read? p := ExceptT.lift (StateT.lift (Files.read? p))
  write p content := ExceptT.lift (StateT.lift (Files.write p content))
  createFolders p := ExceptT.lift (StateT.lift (Files.createFolders p))
  now := ExceptT.lift (StateT.lift Files.now)

end FlowState
