import FlowState.Yaml.Cursor
import FlowState.Yaml.Schema

/-! # Printing YAML

Values in block style: each item and each member on a line of its own, the members of an object two
columns further in, the items of a list at the column of the name before them. A text is written
plain where that reads back as the same text, else in single quotation marks, or in double ones if
it has characters that need an escape. A text with a line feed is written as the lines it consists
of. No line is folded. -/

namespace FlowState.Yaml

/-- A character that is written as it is. -/
def isPrintable (c : Char) : Bool :=
  let n := c.toNat
  n == 0x0A || (0x20 ≤ n && n ≤ 0x7E) || (0xA0 ≤ n && n ≤ 0xD7FF) ||
    (0xE000 ≤ n && n ≤ 0xFFFD && n != 0xFEFF)

/-- Two neighbours of which the first passes one test and the second the other. -/
def hasPair (p q : Char → Bool) : List Char → Bool
  | a :: b :: r => (p a && q b) || hasPair p q (b :: r)
  | _ => false

/-- A space. -/
def isSpace (c : Char) : Bool := c == ' '

/-- A colon before a blank or a number sign behind one, which end a plain scalar. -/
def breaksPlain : List Char → Bool
  | a :: b :: r =>
    (a == ':' && endsWord (b :: r)) || (endsWord [a] && b == '#') || breaksPlain (b :: r)
  | [a] => a == ':'
  | [] => false

/-- The start of a text stands for something else where a scalar may stand. -/
def startsMark (s : List Char) : Bool :=
  match s with
  | [] => false
  | c :: r =>
    c == '#' || c == ',' || c == '[' || c == ']' || c == '{' || c == '}' || c == '&' || c == '*'
      || c == '!' || c == '|' || c == '>' || c == '\'' || c == '"' || c == '%' || c == '@'
      || c == '`'
      || ((c == '?' || c == ':' || c == '-') && endsWord r)
      || s.take 3 == ['-', '-', '-'] || s.take 3 == ['.', '.', '.']

/-- The text is written without quotation marks. -/
def isPlain (s : List Char) : Bool :=
  !isTyped s && s.all isPrintable && !s.any isBreak && s.head?.any (!isSpace ·)
    && s.getLast?.any (!isSpace ·) && !startsMark s && !breaksPlain s

/-- The text needs no escapes in quotation marks. -/
def isSingle (s : List Char) : Bool :=
  s.all isPrintable && !hasPair isBreak isSpace s && !hasPair isSpace isBreak s

/-- The text is written as the lines it consists of. -/
def isLiteral (s : List Char) : Bool :=
  s.any (· == '\n') && s.all isPrintable && !hasPair isSpace isBreak s && !s.getLast?.any isSpace

/-! ### Scalars -/

/-- Blanks up to a column. -/
def pad (column : Nat) : List Char := List.replicate column ' '

/-- A text in single quotation marks; behind a break the text goes on at the column. -/
def singleChars (column : Nat) (broken : Bool) : List Char → List Char
  | [] => if broken then pad column ++ ['\''] else ['\'']
  | c :: r =>
    if isBreak c then c :: singleChars column true r
    else (if broken && !isSpace c then pad column else []) ++
      (if c == '\'' then ['\'', '\''] else [c]) ++ singleChars column (broken && isSpace c) r

/-- The escapes of one letter. -/
def escapes : List (Char × Char) :=
  [('\x00', '0'), ('\x07', 'a'), ('\x08', 'b'), ('\t', 't'), ('\n', 'n'), ('\x0B', 'v'),
    ('\x0C', 'f'), ('\r', 'r'), ('\x1B', 'e'), ('"', '"'), ('\\', '\\'), ('\x85', 'N'),
    ('\xA0', '_'), ('\u2028', 'L'), ('\u2029', 'P')]

/-- A number in so many digits of base sixteen, in capitals. -/
def capitalHex (width n : Nat) : List Char := (Text.digitsPadded 16 width n).map Char.toUpper

/-- The characters that stand for a character in double quotation marks. -/
def doubleChar (c : Char) : List Char :=
  if isPrintable c && !isBreak c && c != '"' && c != '\\' then [c]
  else
    match escapes.find? fun e => e.1 == c with
    | some e => ['\\', e.2]
    | none =>
      let n := c.toNat
      if n ≤ 0xFF then '\\' :: 'x' :: capitalHex 2 n
      else if n ≤ 0xFFFF then '\\' :: 'u' :: capitalHex 4 n
      else '\\' :: 'U' :: capitalHex 8 n

/-- The lines of a text, each that is not empty indented to the column. -/
def literalLines (column : Nat) (fresh : Bool) : List Char → List Char
  | [] => if fresh then [] else ['\n']
  | c :: r =>
    if isBreak c then c :: literalLines column true r
    else (if fresh then pad column else []) ++ c :: literalLines column false r

/-- What is done with the breaks at the end of a text: they are dropped, all kept, or one is. -/
def chompMark (s : List Char) : List Char :=
  match s.reverse with
  | [] => ['-']
  | a :: r =>
    if !isBreak a then ['-']
    else match r with
      | [] => ['+']
      | b :: _ => if isBreak b then ['+'] else []

/-- The head of a text of whole lines: the number of columns where the first one does not show
it, and the mark of its end. -/
def literalHead (s : List Char) : List Char :=
  '|' :: (if s.head?.any fun c => isSpace c || isBreak c then ['2'] else []) ++ chompMark s

/-- **The scalar of a text**, with the break that ends it. Its own lines are at the column. -/
def scalarLine (column : Nat) (s : List Char) : List Char :=
  if isLiteral s then literalHead s ++ '\n' :: literalLines column true s
  else if isPlain s then s ++ ['\n']
  else if isSingle s && !s.any (· == '\n') then '\'' :: singleChars column false s ++ ['\n']
  else '"' :: s.flatMap doubleChar ++ ['"', '\n']

/-! ### Blocks -/

mutual

/-- A value behind the name of a member, whose object is at the column. -/
def memberValue (column : Nat) : Json → List Char
  | .object (m :: ms) => '\n' :: memberLines (column + 2) (m :: ms)
  | .array (x :: xs) => '\n' :: itemLines column (x :: xs)
  | .text s => ' ' :: scalarLine (column + 2) s.toList
  | .null => [' ', 'n', 'u', 'l', 'l', '\n']
  | .bool true => [' ', 't', 'r', 'u', 'e', '\n']
  | .bool false => [' ', 'f', 'a', 'l', 's', 'e', '\n']
  | .number n => ' ' :: n.chars ++ ['\n']
  | .object [] => [' ', '{', '}', '\n']
  | .array [] => [' ', '[', ']', '\n']

/-- The members of an object at the column. -/
def memberLines (column : Nat) : List (String × Json) → List Char
  | [] => []
  | m :: ms => memberLine column m ++ memberLines column ms

/-- A member of an object at the column. -/
def memberLine (column : Nat) : String × Json → List Char
  | (k, v) => pad column ++ (scalarLine column k.toList).dropLast ++ ':' :: memberValue column v

/-- The items of a list at the column. An object or a list starts on the line of its hyphen. -/
def itemLines (column : Nat) : List Json → List Char
  | [] => []
  | .object (m :: ms) :: xs =>
    pad column ++ '-' :: ' ' :: (memberLines (column + 2) (m :: ms)).drop (column + 2) ++
      itemLines column xs
  | .array (y :: ys) :: xs =>
    pad column ++ '-' :: ' ' :: (itemLines (column + 2) (y :: ys)).drop (column + 2) ++
      itemLines column xs
  | x :: xs => pad column ++ '-' :: memberValue column x ++ itemLines column xs

end

/-- **The text of a value.** -/
def print (j : Json) : String :=
  String.ofList <| match j with
    | .object (m :: ms) => memberLines 0 (m :: ms)
    | .array (x :: xs) => itemLines 0 (x :: xs)
    | j => (memberValue 0 j).drop 1

end FlowState.Yaml
