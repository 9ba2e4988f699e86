/-! # Places in a YAML text

The characters that are still to be read, with the line and the column of the first of them. Five
characters break lines, and a carriage return with a line feed behind it is one break. -/

namespace FlowState.Yaml

/-- A blank or a tabulator. -/
def isWhite (c : Char) : Bool := c == ' ' || c == '\t'

/-- A character that breaks a line. -/
def isBreak (c : Char) : Bool :=
  c == '\n' || c == '\r' || c == '\x85' || c == '\u2028' || c == '\u2029'

/-- The word before these characters is at its end. -/
def endsWord : List Char → Bool
  | [] => true
  | c :: _ => isWhite c || isBreak c

/-- The line before these characters is at its end. -/
def endsLine : List Char → Bool
  | [] => true
  | c :: _ => isBreak c

/-- A place in a text. -/
structure Cursor where
  rest : List Char
  index : Nat
  line : Nat
  column : Nat
  deriving Repr, DecidableEq

namespace Cursor

/-- The start of a text. -/
def start (cs : List Char) : Cursor := ⟨cs, 0, 0, 0⟩

/-- The place some characters further on the same line. -/
def move (c : Cursor) (n : Nat) : Cursor :=
  { c with rest := c.rest.drop n, index := c.index + n, column := c.column + n }

/-- The place behind the characters of a kind on the same line. -/
def moveWhile (c : Cursor) (p : Char → Bool) : Cursor := c.move (c.rest.takeWhile p).length

/-- The first character. -/
def peek? (c : Cursor) : Option Char := c.rest.head?

/-- The first character is the given one. -/
def startsWith (c : Cursor) (x : Char) : Bool := c.rest.head? == some x

/-- The place at the start of the next line, and the break in between as it is kept: all breaks are
line feeds but the separators of lines and of paragraphs. -/
def takeBreak (c : Cursor) : List Char × Cursor :=
  let next (kept r : List Char) (n : Nat) : List Char × Cursor :=
    (kept, ⟨r, c.index + n, c.line + 1, 0⟩)
  match c.rest with
  | '\r' :: '\n' :: r => next ['\n'] r 2
  | '\u2028' :: r => next ['\u2028'] r 1
  | '\u2029' :: r => next ['\u2029'] r 1
  | x :: r => if isBreak x then next ['\n'] r 1 else ([], c)
  | [] => ([], c)

/-- A line starts here with three times the character as a word of its own. -/
def atMark (c : Cursor) (m : Char) : Bool :=
  c.column == 0 &&
    match c.rest with
    | x :: y :: z :: r => x == m && y == m && z == m && endsWord r
    | _ => false

/-- A mark of the start or the end of a document is here. -/
def atDocumentMark (c : Cursor) : Bool := c.atMark '-' || c.atMark '.'

end Cursor

/-! ### Gaps

What stands between the words of a scalar: blanks on one line, or breaks with blanks around them. A
single break is read as a blank; of several, the first one is dropped. -/

/-- Blanks and breaks between words. -/
structure Gap where
  blanks : List Char
  /-- The first break, if it is kept. -/
  first : List Char
  breaks : List Char
  /-- There is a break. -/
  broken : Bool
  deriving Repr, DecidableEq

namespace Gap

/-- Nothing between words. -/
def none : Gap := ⟨[], [], [], false⟩

/-- What a gap is read as. -/
def chars (g : Gap) : List Char :=
  if g.broken then
    if g.first == ['\n'] then (if g.breaks.isEmpty then [' '] else g.breaks)
    else g.first ++ g.breaks
  else g.blanks

end Gap

/-- Reads the blanks and breaks from here on. A tabulator before the least column of a new line is
refused. -/
def readGap (least : Nat) : Nat → Gap → Cursor → Option (Gap × Cursor)
  | 0, g, c => some (g, c)
  | fuel + 1, g, c =>
    match c.rest with
    | [] => some (g, c)
    | x :: _ =>
      if isWhite x then
        if g.broken && x == '\t' && c.column < least then Option.none
        else
          let g := if g.broken then g else { g with blanks := g.blanks ++ [x] }
          readGap least fuel g (c.move 1)
      else if isBreak x then
        let (kept, next) := c.takeBreak
        if g.broken then readGap least fuel { g with breaks := g.breaks ++ kept } next
        else readGap least fuel ⟨[], kept, g.breaks, true⟩ next
      else some (g, c)

end FlowState.Yaml
