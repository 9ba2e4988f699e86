import FlowState.Instruction
import FlowState.State.Checksum
import FlowState.State.Error
import FlowState.State.Value

/-! # Update functions

An update function takes the state before an instruction to the state behind it. It may have to be
prepared first, and it may refuse. Three functions are built in: the running exclusive or of all
bytes, the sum of all words, and the checksum. They are found by name, and each architecture has one
of its own. -/

namespace FlowState

/-- A way to carry the state over an instruction. -/
structure UpdateFunction where
  name : String
  /-- What preparation leads to. -/
  prepare : Except StateError Unit
  /-- The state behind an instruction; the truth value tells whether the function is prepared. -/
  update : Bool → StateValue → Instruction → Except StateError StateValue

/-- An update function in use, with the note whether it is prepared. -/
structure Updater where
  function : UpdateFunction
  ready : Bool := false

namespace Updater

/-- Prepares the function. -/
def prepare (u : Updater) : Except StateError Updater :=
  match u.function.prepare with
  | .ok () => .ok { u with ready := true }
  | .error e => .error e

/-- Releases what the preparation built. -/
def cleanup (u : Updater) : Updater := { u with ready := false }

/-- The state behind an instruction. -/
def update (u : Updater) (s : StateValue) (i : Instruction) : Except StateError StateValue :=
  u.function.update u.ready s i

end Updater

namespace UpdateFunction

/-! ### The built-in functions -/

/-- All bytes of the instruction are added to the lowest byte by exclusive or. -/
def xorState (s : StateValue) (bs : List UInt8) : StateValue :=
  match s.bytes with
  | [] => ⟨[bs.foldl (· ^^^ ·) 0]⟩
  | b :: rest => ⟨bs.foldl (· ^^^ ·) b :: rest⟩

/-- The words of the bytes, four at a time and the lowest byte first; the last one is filled up with
zeros. -/
def words : List UInt8 → List UInt32
  | a :: b :: c :: d :: r => UInt32.ofNat (StateValue.number [a, b, c, d]) :: words r
  | [] => []
  | r => [UInt32.ofNat (StateValue.number r)]

/-- The lowest 32 bits of a state. -/
def lowWord (s : StateValue) : UInt32 := s.toWord.toUInt32

/-- The value of a 32-bit word in the width of a state, which is widened to four bytes. -/
def ofLowWord (s : StateValue) (n : UInt32) : StateValue :=
  StateValue.ofWord n.toUInt64 (max s.width 4)

/-- All words of the instruction are added to the lowest 32 bits. -/
def sumState (s : StateValue) (bs : List UInt8) : StateValue :=
  ofLowWord s ((words bs).foldl (· + ·) (lowWord s))

/-- The checksum of the bytes, started from the lowest 32 bits. -/
def crcState (s : StateValue) (bs : List UInt8) : StateValue :=
  ofLowWord s (Checksum.run (lowWord s) bs)

/-- The running exclusive or. -/
def xor : UpdateFunction where
  name := "xor"
  prepare := .ok ()
  update _ s i := .ok (xorState s i.bytes)

/-- The running sum. -/
def sum : UpdateFunction where
  name := "sum"
  prepare := .ok ()
  update _ s i := .ok (sumState s i.bytes)

/-- The checksum, which needs its table. -/
def crc32c : UpdateFunction where
  name := "crc32c"
  prepare := .ok ()
  update ready s i := if ready then .ok (crcState s i.bytes) else .error .notPrepared

end UpdateFunction

/-! ### The registry -/

/-- The update functions by name, and the names of those that architectures use. -/
structure UpdateRegistry where
  functions : List UpdateFunction
  defaults : List (String × String)

namespace UpdateRegistry

/-- The registry without functions. -/
def empty : UpdateRegistry := ⟨[], []⟩

/-- Adds a function; one of the same name is replaced. -/
def register (r : UpdateRegistry) (f : UpdateFunction) : UpdateRegistry :=
  { r with functions := r.functions.filter (fun g => g.name != f.name) ++ [f] }

/-- Sets the function that an architecture uses. -/
def setDefault (r : UpdateRegistry) (arch name : String) : UpdateRegistry :=
  { r with defaults := r.defaults.filter (fun d => d.1 != arch) ++ [(arch, name)] }

/-- **The function of a name**, not yet prepared. -/
def create (r : UpdateRegistry) (name : String) : Except StateError Updater :=
  match r.functions.find? fun f => f.name == name with
  | some f => .ok { function := f }
  | none => .error (.unknownUpdateFunction name)

/-- The name of the function that an architecture uses. -/
def default? (r : UpdateRegistry) (arch : String) : Option String :=
  (r.defaults.find? fun d => d.1 == arch).map (·.2)

/-- The names of the functions in increasing order. -/
def names (r : UpdateRegistry) : List String :=
  (r.functions.map (·.name)).mergeSort (fun a b => a < b || a == b)

/-- The built-in functions and the architectures that use them. -/
def builtin : UpdateRegistry where
  functions := [.xor, .sum, .crc32c]
  defaults := [("x86", "crc32c"), ("x86_64", "crc32c"), ("arm", "crc32c"), ("thumb", "crc32c"),
    ("arm64", "crc32c"), ("riscv32", "sum"), ("riscv64", "sum"), ("listing", "xor")]

end UpdateRegistry

end FlowState
