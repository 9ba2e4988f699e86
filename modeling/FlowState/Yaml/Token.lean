import FlowState.Document
import FlowState.Yaml.Scalar

/-! # Tokens of a YAML text

The text as a row of tokens, in which indentation is spelled out: a block starts where a deeper
column is entered and ends where a shallower one is. Whether a scalar is the key of a mapping shows
only at the colon behind it. The place of each scalar that may be a key is kept until then, and the
token of the key is put in at that place. A key lies on one line and is not longer than 1024
characters. -/

namespace FlowState.Yaml

/-- A token of a YAML text. -/
inductive Token where
  | version (major minor : Nat)
  | tagHandle (handle start : List Char)
  | documentStart
  | documentEnd
  | blockSequence
  | blockMapping
  | blockEnd
  | flowSequence
  | flowSequenceEnd
  | flowMapping
  | flowMappingEnd
  | blockEntry
  | flowEntry
  | key
  | value
  | alias (name : List Char)
  | anchor (name : List Char)
  | tag (handle suffix : List Char)
  | scalar (style : ScalarStyle) (chars : List Char)
  deriving Repr, DecidableEq

/-- The place of a token that may turn out to be a key. -/
structure PendingKey where
  /-- Nothing but a key may stand there. -/
  required : Bool
  /-- The number of tokens before it. -/
  position : Nat
  index : Nat
  line : Nat
  column : Nat
  deriving Repr, DecidableEq

/-- How far a text is read. -/
structure Scan where
  cursor : Cursor
  /-- The tokens so far, the last one first. -/
  tokens : List Token
  /-- The column of the innermost block. -/
  indent : Int
  /-- The columns of the blocks around it. -/
  indents : List Int
  /-- A key may start here. -/
  keyAllowed : Bool
  /-- What may be a key in the innermost brackets. -/
  pending : Option PendingKey
  /-- What may be a key outside of them, bracket by bracket. -/
  outer : List (Option PendingKey)
  deriving Repr

namespace Scan

/-- The start of a text. -/
def start (cs : List Char) : Scan := ⟨Cursor.start cs, [], -1, [], true, none, []⟩

/-- The place is inside brackets. -/
def inFlow (s : Scan) : Bool := !s.outer.isEmpty

/-- One more token. -/
def push (s : Scan) (t : Token) : Scan := { s with tokens := t :: s.tokens }

/-- A token put in behind the first `position` tokens. -/
def insertAt (s : Scan) (position : Nat) (t : Token) : Scan :=
  { s with tokens := s.tokens.insertIdx (s.tokens.length - position) t }

/-- The longest key. -/
def keyLimit : Nat := 1024

/-- A pending key that has become too old at the cursor. -/
def isStale (c : Cursor) (k : PendingKey) : Bool :=
  decide (k.line < c.line) || decide (k.index + keyLimit < c.index)

/-- What is left of a pending key at the cursor: refused if a key is required. -/
def freshen? (c : Cursor) : Option PendingKey → Option (Option PendingKey)
  | none => some none
  | some k => if isStale c k then (if k.required then none else some none) else some (some k)

/-- Drops the pending keys that have become too old. -/
def freshenAll? (s : Scan) : Option Scan := do
  let pending ← freshen? s.cursor s.pending
  let outer ← s.outer.mapM (freshen? s.cursor)
  return { s with pending := pending, outer := outer }

/-- Gives up the pending key: refused if a key is required. -/
def dropKey? (s : Scan) : Option Scan :=
  match s.pending with
  | some k => if k.required then none else some { s with pending := none }
  | none => some s

/-- Notes that the next token may be a key. -/
def saveKey? (s : Scan) : Option Scan :=
  if s.keyAllowed then do
    let required := !s.inFlow && s.indent == (s.cursor.column : Int)
    let s ← s.dropKey?
    let key : PendingKey :=
      ⟨required, s.tokens.length, s.cursor.index, s.cursor.line, s.cursor.column⟩
    return { s with pending := some key }
  else some s

/-- Enters a block at a column that is deeper than the blocks around it. -/
def roll (s : Scan) (column : Nat) (position : Nat) (t : Token) : Scan :=
  if !s.inFlow && decide (s.indent < (column : Int)) then
    { s.insertAt position t with indent := column, indents := s.indent :: s.indents }
  else s

/-- Leaves the blocks that are deeper than a column. -/
def unrollBlocks (column : Int) : Int → List Int → List Token → Int × List Int × List Token
  | indent, [], ts => (indent, [], ts)
  | indent, i :: is, ts =>
    if column < indent then unrollBlocks column i is (.blockEnd :: ts) else (indent, i :: is, ts)

/-- Leaves the blocks that are deeper than a column; inside brackets columns do not count. -/
def unroll (s : Scan) (column : Int) : Scan :=
  if s.inFlow then s
  else
    let (indent, indents, tokens) := unrollBlocks column s.indent s.indents s.tokens
    { s with indent := indent, indents := indents, tokens := tokens }

/-- Moves the cursor. -/
def goto (s : Scan) (c : Cursor) : Scan := { s with cursor := c }

/-- Moves over a number of characters. -/
def skip (s : Scan) (n : Nat) : Scan := { s with cursor := s.cursor.move n }

/-! ### Between the tokens -/

/-- Moves over blanks, comments and breaks. Behind a break a key may start, unless it is inside
brackets. Where a key may start, a tabulator is no blank. -/
def toToken : Nat → Scan → Scan
  | 0, s => s
  | fuel + 1, s =>
    let white (c : Char) : Bool := c == ' ' || (c == '\t' && (s.inFlow || !s.keyAllowed))
    let c := s.cursor.moveWhile white
    let c := if c.startsWith '#' then c.moveWhile fun x => !isBreak x else c
    match c.peek? with
    | some x =>
      if isBreak x then
        toToken fuel { s with cursor := c.takeBreak.2, keyAllowed := s.keyAllowed || !s.inFlow }
      else s.goto c
    | none => s.goto c

/-! ### Marks, anchors and tags -/

/-- A character of a name. -/
def isNameChar (c : Char) : Bool := c.isAlphanum || c == '_' || c == '-'

/-- The characters that may follow the name of an anchor. -/
def endsName (r : List Char) : Bool :=
  endsWord r || match r with
    | c :: _ => c == '?' || c == ':' || c == ',' || c == ']' || c == '}' || c == '%' || c == '@'
        || c == '`'
    | [] => true

/-- The name behind an ampersand or an asterisk. -/
def anchorName? (s : Scan) : Option (List Char × Scan) :=
  let name := (s.cursor.rest.drop 1).takeWhile isNameChar
  let s := s.skip (1 + name.length)
  if name.isEmpty || !endsName s.cursor.rest then none else some (name, s)

/-- A character of a tag, besides the escapes behind a percent sign. -/
def isTagChar (wide : Bool) (c : Char) : Bool :=
  isNameChar c || c == ';' || c == '/' || c == '?' || c == ':' || c == '@' || c == '&' || c == '='
    || c == '+' || c == '$' || c == '.' || c == '%' || c == '!' || c == '~' || c == '*' || c == '\''
    || c == '(' || c == ')' || (wide && (c == ',' || c == '[' || c == ']'))

/-- The handle at the front: an exclamation mark, or one at both ends of a name. -/
def tagHandle (r : List Char) : List Char :=
  match r with
  | '!' :: r =>
    let name := r.takeWhile isNameChar
    match r.drop name.length with
    | '!' :: _ => '!' :: name ++ ['!']
    | _ => '!' :: name
  | _ => []

/-- The tag at the cursor: its handle, its suffix and the place behind it. -/
def readTag? (s : Scan) : Option (List Char × List Char × Scan) :=
  let r := s.cursor.rest
  let finish (handle suffix : List Char) (n : Nat) : Option (List Char × List Char × Scan) :=
    let s := s.skip n
    if endsWord s.cursor.rest || (s.inFlow && s.cursor.startsWith ',') then some (handle, suffix, s)
    else none
  match r with
  | '!' :: '<' :: r' =>
    let uri := r'.takeWhile (isTagChar true)
    match r'.drop uri.length with
    | '>' :: _ => if uri.isEmpty then none else finish [] uri (uri.length + 3)
    | _ => none
  | _ =>
    let handle := tagHandle r
    let suffix := (r.drop handle.length).takeWhile (isTagChar false)
    if 2 ≤ handle.length && handle.getLast? == some '!' then
      if suffix.isEmpty then none else finish handle suffix (handle.length + suffix.length)
    else
      let suffix := handle.drop 1 ++ suffix
      if suffix.isEmpty then finish [] ['!'] 1 else finish ['!'] suffix (suffix.length + 1)

/-! ### Directives -/

/-- The words of a directive line; a comment ends it. -/
def directiveWords (r : List Char) : List (List Char) :=
  let line := r.takeWhile fun x => !isBreak x
  let words := line.foldr (fun c (acc : List Char × List (List Char)) =>
    if isWhite c then ([], if acc.1.isEmpty then acc.2 else acc.1 :: acc.2)
    else (c :: acc.1, acc.2)) ([], [])
  let words := if words.1.isEmpty then words.2 else words.1 :: words.2
  words.takeWhile fun w => w.head? != some '#'

/-- The two numbers of a version. -/
def versionNumbers? (w : List Char) : Option (Nat × Nat) :=
  let major := w.takeWhile Char.isDigit
  match w.drop major.length with
  | '.' :: minor =>
    if major.length ≤ 9 && minor.length ≤ 9 then do
      let a ← Text.natOfDigits? 10 major
      let b ← Text.natOfDigits? 10 minor
      return (a, b)
    else none
  | _ => none

/-- The token of a directive. -/
def directive? (r : List Char) : Option Token :=
  match directiveWords r with
  | [name, version] =>
    if name == ['Y', 'A', 'M', 'L'] then (versionNumbers? version).map fun v => .version v.1 v.2
    else none
  | [name, handle, start] =>
    if name == ['T', 'A', 'G'] && tagHandle handle == handle && handle.getLast? == some '!'
        && start.all (isTagChar true) then
      some (.tagHandle handle start)
    else none
  | _ => none

/-! ### The next token -/

/-- Outside of all blocks, with no pending key and none to come. -/
def leaveAll? (s : Scan) : Option Scan := do
  let s ← (s.unroll (-1)).dropKey?
  return { s with keyAllowed := false }

/-- A bracket opens. -/
def openFlow? (s : Scan) (t : Token) : Option Scan := do
  let s ← s.saveKey?
  let s := { s with pending := none, outer := s.pending :: s.outer, keyAllowed := true }
  return (s.push t).skip 1

/-- A bracket closes. -/
def closeFlow? (s : Scan) (t : Token) : Option Scan := do
  let s ← s.dropKey?
  let s := match s.outer with
    | k :: ks => { s with pending := k, outer := ks }
    | [] => s
  return (({ s with keyAllowed := false }).push t).skip 1

/-- A hyphen that starts an item of a block. -/
def blockEntry? (s : Scan) : Option Scan :=
  if !s.inFlow && !s.keyAllowed then none
  else do
    let s ← (s.roll s.cursor.column s.tokens.length .blockSequence).dropKey?
    return (({ s with keyAllowed := true }).push .blockEntry).skip 1

/-- A question mark in front of a key. -/
def explicitKey? (s : Scan) : Option Scan :=
  if !s.inFlow && !s.keyAllowed then none
  else do
    let s ← (s.roll s.cursor.column s.tokens.length .blockMapping).dropKey?
    return (({ s with keyAllowed := !s.inFlow }).push .key).skip 1

/-- A colon in front of a value: the pending key becomes a key, and without one the value is that of
a key behind a question mark. -/
def mappingValue? (s : Scan) : Option Scan :=
  match s.pending with
  | some k =>
    let s := (s.insertAt k.position .key).roll k.column k.position .blockMapping
    some ((({ s with pending := none, keyAllowed := false }).push .value).skip 1)
  | none =>
    if !s.inFlow && !s.keyAllowed then none
    else
      let s := s.roll s.cursor.column s.tokens.length .blockMapping
      some ((({ s with keyAllowed := !s.inFlow }).push .value).skip 1)

/-- A scalar in quotes. -/
def quotedScalar? (s : Scan) (single : Bool) : Option Scan := do
  let s ← s.saveKey?
  let c := s.cursor.move 1
  let (cs, c) ← quotedLoop single (c.rest.length + 1) [] c
  return (({ s with keyAllowed := false }).push (.scalar .quoted cs)).goto c

/-- A scalar without quotes. Behind a break at its end a key may start. -/
def plainScalar? (s : Scan) : Option Scan := do
  let s ← s.saveKey?
  let (cs, broken, c) ←
    plainLoop s.inFlow (s.indent + 1).toNat (s.cursor.rest.length + 1) [] Gap.none s.cursor
  return (({ s with keyAllowed := broken }).push (.scalar .plain cs)).goto c

/-- A scalar of whole lines. A folded one counts as quoted. -/
def blockScalarToken? (s : Scan) (folded : Bool) : Option Scan := do
  let s ← s.dropKey?
  let (cs, c) ← blockScalar? folded s.indent (s.cursor.move 1)
  let style : ScalarStyle := if folded then .quoted else .literal
  return (({ s with keyAllowed := true }).push (.scalar style cs)).goto c

/-- The characters that no plain scalar starts with, besides those that depend on what follows. -/
def isIndicator (c : Char) : Bool :=
  isFlowMark c || c == '#' || c == '&' || c == '*' || c == '!' || c == '|' || c == '>' || c == '\''
    || c == '"' || c == '%' || c == '@' || c == '`'

/-- A plain scalar may start with the character. -/
def startsPlain (s : Scan) (c : Char) (r : List Char) : Bool :=
  if c == '-' then (match r with
    | [] => true
    | d :: _ => !isWhite d)
  else if c == '?' || c == ':' then !s.inFlow && !endsWord r
  else !(isWhite c || isBreak c || isIndicator c)

/-- **The next token** at a character. -/
def next? (s : Scan) (c : Char) (r : List Char) : Option Scan :=
  let word := endsWord r
  if s.cursor.column == 0 && c == '%' then do
    let s ← s.leaveAll?
    let t ← directive? r
    return (s.push t).goto (s.cursor.moveWhile fun x => !isBreak x)
  else if s.cursor.atMark '-' then do
    let s ← s.leaveAll?
    return (s.push .documentStart).skip 3
  else if s.cursor.atMark '.' then do
    let s ← s.leaveAll?
    return (s.push .documentEnd).skip 3
  else if c == '[' then s.openFlow? .flowSequence
  else if c == '{' then s.openFlow? .flowMapping
  else if c == ']' then s.closeFlow? .flowSequenceEnd
  else if c == '}' then s.closeFlow? .flowMappingEnd
  else if c == ',' then do
    let s ← s.dropKey?
    return (({ s with keyAllowed := true }).push .flowEntry).skip 1
  else if c == '-' && word then s.blockEntry?
  else if c == '?' && (s.inFlow || word) then s.explicitKey?
  else if c == ':' && (s.inFlow || word) then s.mappingValue?
  else if c == '*' then do
    let s ← s.saveKey?
    let (name, s) ← s.anchorName?
    return ({ s with keyAllowed := false }).push (.alias name)
  else if c == '&' then do
    let s ← s.saveKey?
    let (name, s) ← s.anchorName?
    return ({ s with keyAllowed := false }).push (.anchor name)
  else if c == '!' then do
    let s ← s.saveKey?
    let (handle, suffix, s) ← s.readTag?
    return ({ s with keyAllowed := false }).push (.tag handle suffix)
  else if c == '|' && !s.inFlow then s.blockScalarToken? false
  else if c == '>' && !s.inFlow then s.blockScalarToken? true
  else if c == '\'' then s.quotedScalar? true
  else if c == '"' then s.quotedScalar? false
  else if s.startsPlain c r then s.plainScalar?
  else none

/-- Reads all tokens; the blocks that are open at the end are left there. -/
def loop : Nat → Scan → Option (List Token)
  | 0, _ => none
  | fuel + 1, s => do
    let s := s.toToken (s.cursor.rest.length + 1)
    let s ← s.freshenAll?
    let s := s.unroll s.cursor.column
    match s.cursor.rest with
    | [] =>
      let s ← s.leaveAll?
      return s.tokens.reverse
    | c :: r =>
      let s ← s.next? c r
      loop fuel s

end Scan

/-- A character that may stand in a YAML text. -/
def isAllowed (c : Char) : Bool :=
  let n := c.toNat
  n == 0x09 || n == 0x0A || n == 0x0D || (0x20 ≤ n && n ≤ 0x7E) || n == 0x85
    || (0xA0 ≤ n && n ≤ 0xD7FF) || (0xE000 ≤ n && n ≤ 0xFFFD) || 0x10000 ≤ n

/-- **The tokens of a text**; a byte order mark at its start is passed over. -/
def tokens? (cs : List Char) : Option (List Token) :=
  if cs.all isAllowed then
    let cs := match cs with
      | '\uFEFF' :: r => r
      | cs => cs
    Scan.loop (cs.length + 1) (Scan.start cs)
  else none

end FlowState.Yaml
