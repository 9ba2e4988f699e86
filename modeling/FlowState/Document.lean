import FlowState.Text.Utf8
import FlowState.Yaml.Schema

/-! # Documents

The tree that a JSON or a YAML text spells, before anything is asked of it. A reader asks for a
text, a word, a list or the fields of a record at each place, and what it does not ask for is passed
over: text with gaps or a number that is too large only matters where it is read. The two formats
differ in their scalars, whose type the place decides in YAML, and in that a JSON array may stand
for a record, its items taken as the fields in order. -/

namespace FlowState

open Text (Glyph)

/-- How a YAML scalar is written. -/
inductive ScalarStyle where
  | plain
  | literal
  | quoted
  deriving Repr, DecidableEq

/-- The tag of a YAML node, as far as a reader looks at it. -/
inductive NodeTag where
  /-- No tag. -/
  | absent
  | null
  | bool
  | int
  | float
  /-- Another tag of the core schema. -/
  | other
  /-- A tag of an application, which no value carries. -/
  | application
  deriving Repr, DecidableEq

/-- What a JSON or YAML text spells. -/
inductive Document where
  | null
  | bool (b : Bool)
  | number (n : JsonNumber)
  | text (units : List Glyph)
  | scalar (style : ScalarStyle) (tag : NodeTag) (chars : List Char)
  /-- An array, which may stand for a record. -/
  | array (items : List Document)
  /-- A list that is never a record. -/
  | sequence (tag : NodeTag) (items : List Document)
  | object (tag : NodeTag) (entries : List (List Glyph × Document))
  /-- A node inside itself. -/
  | cycle
  deriving Inhabited

namespace Document

/-- A YAML scalar with nothing in it and no quotes around it. -/
def isVoid : Document → Bool
  | .scalar .plain _ [] => true
  | _ => false

/-- **The text at a place.** A YAML scalar is its own text, whatever it looks like. -/
def text? : Document → Option String
  | .text units => (Text.charsOfGlyphs? units).map String.ofList
  | .scalar _ _ cs => some (String.ofList cs)
  | _ => none

/-- **The word at a place.** A YAML scalar in quotes is none. -/
def word? : Document → Option UInt64
  | .number n => n.word?
  | .scalar .plain _ cs => Yaml.word? cs
  | .scalar .literal .int cs => Yaml.word? cs
  | _ => none

/-- The truth value at a place. -/
def bool? : Document → Option Bool
  | .bool b => some b
  | .scalar .plain _ cs => Yaml.bool? cs
  | .scalar .literal .bool cs => Yaml.bool? cs
  | _ => none

/-- The items of a list; a place with nothing in it is an empty list. -/
def items? : Document → Option (List Document)
  | .array ds => some ds
  | .sequence _ ds => some ds
  | d => if d.isVoid then some [] else none

/-- A place that may be empty: null is nothing, all else is read. -/
def optional? {α : Type} (read : Document → Option α) : Document → Option (Option α)
  | .null => some none
  | d@(.scalar .plain tag cs) =>
    match tag with
    | .absent => if cs.isEmpty || Yaml.isNull cs then some none else (read d).map some
    | .null => if Yaml.isNull cs then some none else none
    | _ => (read d).map some
  | d => (read d).map some

/-- A list read item by item. -/
def listOf? {α : Type} (read : Document → Option α) (d : Document) : Option (List α) :=
  d.items?.bind fun ds => ds.mapM read

/-! ### Records -/

/-- The entry of a name: refused if the name comes twice. -/
def unique? (entries : List (String × Document)) (name : String) : Option (Option Document) :=
  match entries.filter fun e => e.1 == name with
  | [] => some none
  | [e] => some (some e.2)
  | _ => none

/-- The names of the entries as texts: refused if one of them is none. -/
def named? (entries : List (List Glyph × Document)) : Option (List (String × Document)) :=
  entries.mapM fun e => (Text.charsOfGlyphs? e.1).map fun cs => (String.ofList cs, e.2)

/-- **The fields of a record by their names in order**, each with what stands there. Entries of
other names are passed over. An array gives the fields in order and has no more items than names. -/
def fields? (names : List String) (d : Document) : Option (List (Option Document)) :=
  match d with
  | .object _ entries => do
    let named ← named? entries
    names.mapM (unique? named)
  | .array ds =>
    if ds.length ≤ names.length then
      some (ds.map some ++ List.replicate (names.length - ds.length) none)
    else none
  | d => if d.isVoid then some (names.map fun _ => none) else none

/-- A field that has to be there. -/
def required? {α : Type} (read : Document → Option α) : Option Document → Option α
  | none => none
  | some d => read d

/-- A field with a value of its own when it is not there. -/
def withDefault? {α : Type} (value : α) (read : Document → Option α) : Option Document → Option α
  | none => some value
  | some d => read d

/-! ### Free-form values -/

/-- The value of a YAML scalar in a free-form place. -/
def scalarJson? (style : ScalarStyle) (tag : NodeTag) (cs : List Char) : Option Json :=
  match tag with
  | .absent => if style = .plain then Yaml.value? cs else some (.text (String.ofList cs))
  | .null => if Yaml.isNull cs then some .null else none
  | .bool => (Yaml.bool? cs).map .bool
  | .int => (Yaml.integer? cs).bind fun n => n.map .number
  | .float => (Yaml.float? cs).map fun n => n.elim .null .number
  | .other => some (.text (String.ofList cs))
  | .application => none

mutual

/-- **The value of a document**, of at most `room` levels of lists and objects. -/
def json? (room : Nat) : Document → Option Json
  | .null => some .null
  | .bool b => some (.bool b)
  | .number n => if n.isFinite then some (.number n) else none
  | .text units => (Text.charsOfGlyphs? units).map fun cs => .text (String.ofList cs)
  | .scalar style tag cs => scalarJson? style tag cs
  | .array ds => if room = 0 then none else (jsonItems? (room - 1) ds).map .array
  | .sequence tag ds =>
    if room = 0 || tag = .application then none else (jsonItems? (room - 1) ds).map .array
  | .object tag es =>
    if room = 0 || tag = .application then none else (jsonMembers? (room - 1) es).map .object
  | .cycle => none

/-- The values of the items of a list. -/
def jsonItems? (room : Nat) : List Document → Option (List Json)
  | [] => some []
  | d :: ds => do
    let j ← json? room d
    let js ← jsonItems? room ds
    return j :: js

/-- The members of an object. -/
def jsonMembers? (room : Nat) : List (List Glyph × Document) → Option (List (String × Json))
  | [] => some []
  | e :: es => do
    let m ← jsonMember? room e
    let ms ← jsonMembers? room es
    return m :: ms

/-- A member of an object, whose name has to be a text. -/
def jsonMember? (room : Nat) : List Glyph × Document → Option (String × Json)
  | (units, d) => do
    let cs ← Text.charsOfGlyphs? units
    let j ← json? room d
    return (String.ofList cs, j)

end

end Document

end FlowState
