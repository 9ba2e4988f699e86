/-! # Paths

A path is a text whose parts are divided by slashes. Empty parts and a lone dot say nothing, apart
from a dot at the very start. A slash at the start makes the path absolute. -/

namespace FlowState

/-- The text of a path. -/
structure Path where
  text : String
  deriving Repr, DecidableEq, Inhabited

namespace Path

/-- A part of a path. -/
inductive Part where
  | root
  /-- A dot at the start. -/
  | here
  /-- Two dots. -/
  | up
  | name (chars : List Char)
  deriving Repr, DecidableEq

/-- The path of a list of characters. -/
def ofChars (cs : List Char) : Path := ⟨String.ofList cs⟩

/-- The characters of a path. -/
def chars (p : Path) : List Char := p.text.toList

/-- The texts between the slashes. -/
def pieces : List Char → List (List Char)
  | [] => [[]]
  | c :: cs =>
    if c == '/' then [] :: pieces cs
    else
      match pieces cs with
      | [] => [[c]]
      | w :: ws => (c :: w) :: ws

/-- The part that a piece is, if it says something. -/
def part? (piece : List Char) : Option Part :=
  if piece.isEmpty || piece == ['.'] then none
  else if piece == ['.', '.'] then some .up
  else some (.name piece)

/-- **The parts of a path.** -/
def parts (p : Path) : List Part :=
  match p.chars with
  | '/' :: cs => .root :: (pieces cs).filterMap part?
  | cs =>
    match pieces cs with
    | ['.'] :: ws => .here :: ws.filterMap part?
    | ws => ws.filterMap part?

/-- The path starts at the root. -/
def isAbsolute (p : Path) : Bool := p.chars.head? == some '/'

/-- The characters of a part. -/
def Part.chars : Part → List Char
  | .root => []
  | .here => ['.']
  | .up => ['.', '.']
  | .name cs => cs

/-- The path of a row of parts. -/
def ofParts : List Part → Path
  | [.root] => ofChars ['/']
  | ps => ofChars (['/'].intercalate (ps.map Part.chars))

/-- The last part, if it is a name. -/
def fileName? (p : Path) : Option (List Char) :=
  match p.parts.getLast? with
  | some (.name cs) => some cs
  | _ => none

/-- The end of the file name behind its last dot, unless the dot stands at its start. -/
def extension? (p : Path) : Option (List Char) := do
  let name ← p.fileName?
  let tail := (name.reverse.takeWhile (· != '.')).reverse
  if tail.length + 1 < name.length then some tail else none

/-- The path without its last part: nothing for the root and for a path without parts. -/
def parent? (p : Path) : Option Path :=
  match p.parts.reverse with
  | [] => none
  | .root :: _ => none
  | _ :: ps => some (ofParts ps.reverse)

/-- **A path seen from another**; an absolute path stays what it is. -/
def join (p q : Path) : Path :=
  if q.isAbsolute then q
  else
    match p.chars.getLast? with
    | none => q
    | some '/' => ⟨p.text ++ q.text⟩
    | some _ => ⟨p.text ++ "/" ++ q.text⟩

/-- The parts behind those of another path, if that one is where the path starts. -/
def under? (p base : Path) : Option (List Part) :=
  let ps := p.parts
  let bs := base.parts
  if bs.isPrefixOf ps then some (ps.drop bs.length) else none

/-- The extension is one of the words, which are lower-case, in any case. -/
def hasExtension (p : Path) (words : List (List Char)) : Bool :=
  match p.extension? with
  | some e => words.contains (e.map Char.toLower)
  | none => false

end Path

end FlowState
