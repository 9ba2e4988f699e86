import FlowState.Command.Analysis
import FlowState.Command.Annotations

/-! # The command line

The words of a command line are the name of a command and its options. An option is written `--name`
with its value behind an equals sign or as the next word, which then starts with no dash. A flag has
no value. Only options that say so may come twice, two dashes alone end the options, and the other
words are operands, which only some commands take. -/

namespace FlowState

namespace CommandLine

/-- What an option takes. -/
inductive Takes where
  /-- No value, and it comes once. -/
  | nothing
  /-- A value, and it comes once. -/
  | one
  /-- A value each time it comes. -/
  | many
  /-- A number, and it comes once. -/
  | number
  deriving Repr, DecidableEq

/-- An option of a command. -/
structure Switch where
  name : String
  takes : Takes
  deriving Repr, DecidableEq

/-- The commands. -/
inductive Verb where
  | initProject
  | projectInfo
  | addBinary
  | listBinaries
  | annotate
  | removeAnnotationAt
  | listAnnotations
  | importAnnotations
  | exportAnnotations
  | functions
  | calculate
  | states
  | listRuns
  deriving Repr, DecidableEq

namespace Verb

/-- All commands. -/
def all : List Verb :=
  [initProject, projectInfo, addBinary, listBinaries, annotate, removeAnnotationAt, listAnnotations,
    importAnnotations, exportAnnotations, functions, calculate, states, listRuns]

/-- The word for a command. -/
def name : Verb → String
  | initProject => "init-project"
  | projectInfo => "project-info"
  | addBinary => "add-binary"
  | listBinaries => "list-binaries"
  | annotate => "annotate"
  | removeAnnotationAt => "remove-annotation"
  | listAnnotations => "list-annotations"
  | importAnnotations => "import-annotations"
  | exportAnnotations => "export-annotations"
  | functions => "functions"
  | calculate => "calculate"
  | states => "states"
  | listRuns => "list-runs"

/-- The command that a word stands for. -/
def ofName? (s : String) : Option Verb := all.find? fun v => v.name == s

theorem ofName?_name (v : Verb) : ofName? v.name = some v := by cases v <;> decide

/-- The options of a calculation. -/
def calculation : List Switch :=
  [⟨"update-function", .one⟩, ⟨"seed", .one⟩, ⟨"seed-address", .many⟩,
    ⟨"stop-at-entrypoints", .nothing⟩]

/-- The options of a command besides those that all commands have. -/
def own : Verb → List Switch
  | initProject => [⟨"name", .one⟩]
  | projectInfo => [⟨"json", .nothing⟩]
  | addBinary =>
    [⟨"path", .one⟩, ⟨"name", .one⟩, ⟨"arch", .one⟩, ⟨"hash", .one⟩, ⟨"skip-hash", .nothing⟩]
  | listBinaries => [⟨"json", .nothing⟩]
  | annotate => [⟨"binary", .one⟩, ⟨"kind", .one⟩, ⟨"address", .one⟩, ⟨"fields", .one⟩]
  | removeAnnotationAt => [⟨"binary", .one⟩, ⟨"index", .number⟩]
  | listAnnotations => [⟨"binary", .one⟩, ⟨"json", .nothing⟩]
  | importAnnotations => [⟨"binary", .one⟩, ⟨"file", .one⟩]
  | exportAnnotations => [⟨"binary", .one⟩, ⟨"out", .one⟩, ⟨"format", .one⟩]
  | functions => [⟨"binary", .one⟩, ⟨"unbounded", .nothing⟩, ⟨"json", .nothing⟩]
  | calculate => ⟨"binary", .one⟩ :: ⟨"json", .nothing⟩ :: calculation
  | states => ⟨"binary", .one⟩ :: calculation
  | listRuns => [⟨"binary", .one⟩, ⟨"json", .nothing⟩]

/-- The options of a command. -/
def switches (v : Verb) : List Switch := ⟨"root", .one⟩ :: ⟨"verbose", .nothing⟩ :: v.own

/-- The command takes operands. -/
def takesOperands (v : Verb) : Bool := v = states

end Verb

/-! ### Words -/

/-- Why a command line is not a command to run. -/
inductive Stop where
  | usage
  | help
  | version
  deriving Repr, DecidableEq

/-- What stands behind the name of a command. -/
structure Arguments where
  /-- The names of the flags. -/
  flags : List String := []
  /-- The options with their values. -/
  values : List (String × String) := []
  operands : List String := []
  deriving Repr, DecidableEq

namespace Arguments

/-- The flag is there. -/
def flag (a : Arguments) (name : String) : Bool := a.flags.contains name

/-- The value of an option. -/
def value? (a : Arguments) (name : String) : Option String :=
  (a.values.find? fun v => v.1 == name).map (·.2)

/-- The values of an option. -/
def valuesOf (a : Arguments) (name : String) : List String :=
  (a.values.filter fun v => v.1 == name).map (·.2)

/-- One more flag, which must be new. -/
def addFlag (a : Arguments) (name : String) : Except Stop Arguments :=
  if a.flag name then .error .usage else .ok { a with flags := a.flags ++ [name] }

/-- One more option with its value. -/
def addValue (a : Arguments) (s : Switch) (value : String) : Except Stop Arguments :=
  if s.takes ≠ .many && (a.value? s.name).isSome then .error .usage
  else if s.takes = .number && (Text.word? 10 value.toList).isNone then .error .usage
  else .ok { a with values := a.values ++ [(s.name, value)] }

end Arguments

/-- What a word is. -/
inductive Word where
  /-- Two dashes alone. -/
  | rest
  /-- An option with the value behind its equals sign. -/
  | long (name : String) (value : Option String)
  /-- A dash and letters. -/
  | short (letters : List Char)
  | operand (text : String)
  deriving Repr, DecidableEq

/-- The word that a text is. -/
def Word.ofText (s : String) : Word :=
  match s.toList with
  | ['-', '-'] => .rest
  | '-' :: '-' :: cs =>
    let name := String.ofList (cs.takeWhile (· != '='))
    match cs.dropWhile (· != '=') with
    | [] => .long name none
    | _ :: value => .long name (some (String.ofList value))
  | '-' :: c :: cs => .short (c :: cs)
  | _ => .operand s

/-- The text can be the value of an option before it. -/
def isValue (s : String) : Bool :=
  match Word.ofText s with
  | .operand _ => true
  | _ => false

/-- The flags behind a dash. -/
def readShort (a : Arguments) : List Char → Except Stop Arguments
  | [] => .ok a
  | c :: cs =>
    if c = 'v' then (a.addFlag "verbose").bind fun a => readShort a cs
    else if c = 'h' then .error .help
    else .error .usage

/-- **The arguments of a command** behind those that are read already. -/
def readArguments (v : Verb) (a : Arguments) : List String → Except Stop Arguments
  | [] => .ok a
  | s :: ss =>
    match Word.ofText s with
    | .rest =>
      if v.takesOperands || ss.isEmpty then .ok { a with operands := a.operands ++ ss }
      else .error .usage
    | .short letters => (readShort a letters).bind fun a => readArguments v a ss
    | .operand text =>
      if v.takesOperands then readArguments v { a with operands := a.operands ++ [text] } ss
      else .error .usage
    | .long name value =>
      match v.switches.find? fun t => t.name == name with
      | none => if name = "help" && value.isNone then .error .help else .error .usage
      | some t =>
        if t.takes = .nothing then
          if value.isSome then .error .usage
          else (a.addFlag name).bind fun a => readArguments v a ss
        else
          match value, ss with
          | some x, ss => (a.addValue t x).bind fun a => readArguments v a ss
          | none, [] => .error .usage
          | none, x :: ss =>
            if isValue x then (a.addValue t x).bind fun a => readArguments v a ss
            else .error .usage

/-! ### Commands with their arguments -/

/-- A command with all it needs. -/
inductive Invocation where
  | initProject (name : Option String)
  | projectInfo (json : Bool)
  | addBinary (b : Command.NewBinary)
  | listBinaries (json : Bool)
  | annotate (binary kind address : String) (fields : Option String)
  | removeAnnotationAt (binary : String) (index : UInt64)
  | listAnnotations (binary : String) (json : Bool)
  | importAnnotations (binary : String) (file : Path)
  | exportAnnotations (binary : String) (out : Option Path) (format : String)
  | functions (binary : String) (bounded json : Bool)
  | calculate (binary : String) (o : Overrides) (json : Bool)
  | states (binary : String) (addresses : List String) (o : Overrides)
  | listRuns (binary : Option String) (json : Bool)

/-- What a calculation overrides. -/
def Arguments.overrides (a : Arguments) : Overrides :=
  ⟨a.value? "update-function", a.value? "seed", a.valuesOf "seed-address",
    a.flag "stop-at-entrypoints"⟩

/-- The command with the arguments, if those it needs are there. -/
def Invocation.ofArguments? (v : Verb) (a : Arguments) : Option Invocation :=
  let json := a.flag "json"
  match v with
  | .initProject => some (.initProject (a.value? "name"))
  | .projectInfo => some (.projectInfo json)
  | .addBinary => (a.value? "path").map fun p =>
    .addBinary ⟨⟨p⟩, a.value? "name", a.value? "arch", a.value? "hash", a.flag "skip-hash"⟩
  | .listBinaries => some (.listBinaries json)
  | .annotate => do
    let binary ← a.value? "binary"
    let kind ← a.value? "kind"
    let address ← a.value? "address"
    return .annotate binary kind address (a.value? "fields")
  | .removeAnnotationAt => do
    let binary ← a.value? "binary"
    let index ← (a.value? "index").bind fun s => Text.word? 10 s.toList
    return .removeAnnotationAt binary index
  | .listAnnotations => (a.value? "binary").map fun b => .listAnnotations b json
  | .importAnnotations => do
    let binary ← a.value? "binary"
    let file ← a.value? "file"
    return .importAnnotations binary ⟨file⟩
  | .exportAnnotations => (a.value? "binary").map fun b =>
    .exportAnnotations b ((a.value? "out").map Path.mk) ((a.value? "format").getD "json")
  | .functions => (a.value? "binary").map fun b => .functions b (!a.flag "unbounded") json
  | .calculate => (a.value? "binary").map fun b => .calculate b a.overrides json
  | .states => do
    let binary ← a.value? "binary"
    if a.operands.isEmpty then none else return .states binary a.operands a.overrides
  | .listRuns => some (.listRuns (a.value? "binary") json)

/-- Runs a command in the project at a root. -/
def Invocation.run {m : Type → Type} [Monad m] [Files m] (r : Registry) (root : Path) :
    Invocation → Command m Unit
  | .initProject name => Command.initProject root name
  | .projectInfo json => Command.projectInfo root json
  | .addBinary b => Command.addBinary root b
  | .listBinaries json => Command.listBinaries root json
  | .annotate binary kind address fields => Command.annotate r root binary kind address fields
  | .removeAnnotationAt binary index => Command.removeAnnotationAt r root binary index
  | .listAnnotations binary json => Command.listAnnotations r root binary json
  | .importAnnotations binary file => Command.importAnnotations root binary file
  | .exportAnnotations binary out format => Command.exportAnnotations r root binary out format
  | .functions binary bounded json => Command.functions r root binary bounded json
  | .calculate binary o json => Command.calculate r root binary o json
  | .states binary addresses o => Command.states r root binary addresses o
  | .listRuns binary json => Command.listRuns root binary json

/-- The command behind its name. -/
def readCommand (v : Verb) (ss : List String) : Except Stop (Path × Invocation) := do
  let a ← readArguments v {} ss
  match Invocation.ofArguments? v a with
  | some i => return (⟨(a.value? "root").getD "."⟩, i)
  | none => .error .usage

/-- The letters before the name of a command: whether they ask for more lines on the way. -/
def readTopShort (verbose : Bool) : List Char → Except Stop Bool
  | [] => .ok verbose
  | c :: cs =>
    if c = 'v' then (if verbose then .error .usage else readTopShort true cs)
    else if c = 'h' then .error .help
    else if c = 'V' then .error .version
    else .error .usage

/-- **The command that a command line asks for**, and the root of its project. -/
def read (verbose : Bool) : List String → Except Stop (Path × Invocation)
  | [] => .error .usage
  | s :: ss =>
    match Word.ofText s with
    | .rest => .error .usage
    | .short letters => (readTopShort verbose letters).bind fun verbose => read verbose ss
    | .long name value =>
      if value.isSome then .error .usage
      else if name = "verbose" then (if verbose then .error .usage else read true ss)
      else if name = "help" then .error .help
      else if name = "version" then .error .version
      else .error .usage
    | .operand text =>
      match Verb.ofName? text with
      | some v => readCommand v ss
      | none =>
        let topic := ss.length ≤ 1 && ss.all fun w => (Verb.ofName? w).isSome
        if text = "help" && topic then .error .help else .error .usage

end CommandLine

/-- How a command line ends. -/
structure Exit where
  /-- Zero after success, one after a failure, two if the command line is none. -/
  code : Nat
  printed : Printed
  deriving Repr, DecidableEq

namespace Exit

/-- The lines on the causes of a failure, which are numbered if there are several. -/
def causeLines : List String → List String
  | [] => []
  | [cause] => ["", "Caused by:", "    " ++ cause]
  | causes =>
    ["", "Caused by:"] ++ causes.mapIdx fun n cause => "    " ++ Text.decimal n ++ ": " ++ cause

/-- The lines on a failure. -/
def failureLines : Failure → List String
  | [] => []
  | message :: causes => ("Error: " ++ message) :: causeLines causes

/-- What is printed apart from the lines of the command: how to write a command line, or why the
command failed. -/
def errorText (e : Exit) : String :=
  let lines := match e.printed.failure with
    | none => []
    | some f => if e.code = 2 then f else failureLines f
  String.join (lines.map (· ++ "\n"))

end Exit

namespace CommandLine

/-- How to write a command line. -/
def usageLines : List String :=
  ["Usage: statewalk [-v] <COMMAND> [OPTIONS]", "", "Commands:"] ++
    Verb.all.map fun v => "  " ++ v.name

/-- **Runs a command line.** -/
def run {m : Type → Type} [Monad m] [Files m] (r : Registry) (words : List String) : m Exit :=
  match read false words with
  | .error .usage => return ⟨2, ⟨[], some usageLines⟩⟩
  | .error .help => return ⟨0, ⟨usageLines, none⟩⟩
  | .error .version => return ⟨0, ⟨["statewalk " ++ version], none⟩⟩
  | .ok (root, i) => do
    let printed ← (i.run r root).run
    return ⟨if printed.failure.isSome then 1 else 0, printed⟩

end CommandLine

end FlowState
