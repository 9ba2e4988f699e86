import FlowState.CommandLine
import FlowState.Instant
import FlowState.Project.DatabaseFile
import Std.Time.DateTime.Timestamp

/-! # The program

Runs a command line on the files of the machine. -/

namespace FlowState

/-- An action that answers nothing where it fails. -/
def attempt? {α : Type} (action : IO α) : IO (Option α) := do
  try
    let a ← action
    return some a
  catch _ => return none

/-- The action was possible. -/
def attempt (action : IO Unit) : IO Bool := do
  let done ← attempt? action
  return done.isSome

/-- The time of the machine. -/
def machineTime : IO String := do
  let t ← Std.Time.Timestamp.now
  let n := t.toNanosecondsSinceUnixEpoch.val.toNat
  return Instant.text (n / 1000000000) (n % 1000000000)

instance : Files IO where
  current := do
    let here ← IO.currentDir
    return ⟨here.toString⟩
  canonical? p := do
    let found ← attempt? (IO.FS.realPath p.text)
    return found.map fun q => ⟨q.toString⟩
  isFolder p := do
    match ← attempt? (IO.FS.realPath p.text) with
    | some q => q.isDir
    | none => return false
  isThere p := do
    let found ← attempt? (IO.FS.realPath p.text)
    return found.isSome
  read? p := do
    let bytes ← attempt? (IO.FS.readBinFile p.text)
    return bytes.map fun bs => FileContent.ofStored bs.toList
  write p content := attempt (IO.FS.writeBinFile p.text ⟨content.stored.toArray⟩)
  createFolders p := attempt (IO.FS.createDirAll p.text)
  now := machineTime

end FlowState

/-- Runs the command line and ends with its code. -/
def main (words : List String) : IO UInt32 := do
  let exit ← FlowState.CommandLine.run .builtin words
  IO.print exit.printed.text
  IO.eprint exit.errorText
  return UInt32.ofNat exit.code
