import FlowState.Text.Numeral
import FlowState.Text.Utf8
import FlowState.Yaml.Cursor

/-! # Scalars of a YAML text

Plain scalars end at a comment, at a colon that ends a word and, inside brackets, at an indicator of
the brackets. Quoted scalars end at their quote. Block scalars are the lines that are indented
deeply enough. -/

namespace FlowState.Yaml

/-! ### Plain scalars -/

/-- An indicator that separates items inside brackets. -/
def isFlowMark (c : Char) : Bool := c == ',' || c == '[' || c == ']' || c == '{' || c == '}'

/-- A plain scalar ends before the character. -/
def endsPlain (flow : Bool) (c : Char) (r : List Char) : Bool :=
  (c == ':' && endsWord r) || (flow && isFlowMark c)

/-- A colon inside brackets that is followed by an indicator, which is refused. -/
def isLostColon (flow : Bool) (c : Char) (r : List Char) : Bool :=
  flow && c == ':' &&
    match r with
    | d :: _ => isFlowMark d || d == '?'
    | [] => false

/-- The characters of a plain scalar up to a blank, a break or its end. -/
def plainRun? (flow : Bool) : List Char → Option (List Char)
  | [] => some []
  | c :: r =>
    if isWhite c || isBreak c then some []
    else if isLostColon flow c r then none
    else if endsPlain flow c r then some []
    else (plainRun? flow r).map (c :: ·)

/-- Reads a plain scalar word by word: its characters, whether it ends behind a break, and the place
behind it. -/
def plainLoop (flow : Bool) (least : Nat) : Nat → List Char → Gap → Cursor →
    Option (List Char × Bool × Cursor)
  | 0, acc, g, c => some (acc, g.broken, c)
  | fuel + 1, acc, g, c =>
    if c.atDocumentMark || c.startsWith '#' then some (acc, g.broken, c)
    else do
      let run ← plainRun? flow c.rest
      let acc := if run.isEmpty then acc else acc ++ g.chars ++ run
      let g := if run.isEmpty then g else Gap.none
      let c := c.move run.length
      match c.peek? with
      | none => some (acc, g.broken, c)
      | some x =>
        if isWhite x || isBreak x then
          let (g, c) ← readGap least (c.rest.length + 1) g c
          if !flow && c.column < least then some (acc, g.broken, c)
          else plainLoop flow least fuel acc g c
        else some (acc, g.broken, c)

/-! ### Quoted scalars -/

/-- The character behind a backslash. -/
def escaped? : Char → Option Char
  | '0' => some '\x00'
  | 'a' => some '\x07'
  | 'b' => some '\x08'
  | 't' => some '\t'
  | '\t' => some '\t'
  | 'n' => some '\n'
  | 'v' => some '\x0b'
  | 'f' => some '\x0c'
  | 'r' => some '\r'
  | 'e' => some '\x1b'
  | ' ' => some ' '
  | '"' => some '"'
  | '/' => some '/'
  | '\\' => some '\\'
  | 'N' => some '\x85'
  | '_' => some '\u00a0'
  | 'L' => some '\u2028'
  | 'P' => some '\u2029'
  | _ => none

/-- The number of digits behind a mark of a code point. -/
def codeWidth? : Char → Option Nat
  | 'x' => some 2
  | 'u' => some 4
  | 'U' => some 8
  | _ => none

/-- The character of a code point in the given number of hexadecimal digits at the front. -/
def codeChar? (width : Nat) (r : List Char) : Option Char :=
  if (r.take width).length = width then
    (Text.natOfDigits? 16 (r.take width)).bind Text.charOfCode?
  else none

/-- The characters in single quotes up to a blank, a break or the quote, and their rest. -/
def singleRun : List Char → List Char × List Char
  | [] => ([], [])
  | '\'' :: '\'' :: r =>
    let (cs, rest) := singleRun r
    ('\'' :: cs, rest)
  | c :: r =>
    if isWhite c || isBreak c || c == '\'' then ([], c :: r)
    else
      let (cs, rest) := singleRun r
      (c :: cs, rest)

/-- The characters in double quotes up to a blank, a break or the quote, their rest, and whether the
rest starts with a break behind a backslash. -/
def doubleRun? (r : List Char) : Option (List Char × List Char × Bool) :=
  match r with
  | [] => some ([], [], false)
  | c :: r =>
    if isWhite c || isBreak c || c == '"' then some ([], c :: r, false)
    else if c == '\\' then
      match r with
      | [] => none
      | e :: r' =>
        if isBreak e then some ([], e :: r', true)
        else
          match escaped? e, codeWidth? e with
          | some x, _ => (doubleRun? r').map fun (cs, rest) => (x :: cs, rest)
          | none, some width => do
            let x ← codeChar? width r'
            let (cs, rest) ← doubleRun? (r'.drop width)
            return (x :: cs, rest)
          | none, none => none
    else (doubleRun? r).map fun (cs, rest) => (c :: cs, rest)
termination_by r.length
decreasing_by all_goals (simp_wf <;> omega)

/-- Reads a quoted scalar word by word from behind its opening quote: its characters, and the place
behind the closing quote. -/
def quotedLoop (single : Bool) : Nat → List Char → Cursor → Option (List Char × Cursor)
  | 0, _, _ => none
  | fuel + 1, acc, c =>
    if c.atDocumentMark || c.rest.isEmpty then none
    else do
      let (run, rest, cut) ←
        if single then
          let (run, rest) := singleRun c.rest
          some (run, rest, false)
        else doubleRun? c.rest
      let acc := acc ++ run
      let c := c.move (c.rest.length - rest.length)
      match c.peek? with
      | none => none
      | some x =>
        if cut then
          let (_, next) := c.takeBreak
          let (g, c) ← readGap 0 (next.rest.length + 1) ⟨[], [], [], true⟩ next
          quotedLoop single fuel (acc ++ g.chars) c
        else if isWhite x || isBreak x then
          let (g, c) ← readGap 0 (c.rest.length + 1) Gap.none c
          quotedLoop single fuel (acc ++ g.chars) c
        else some (acc, c.move 1)

/-! ### Block scalars -/

/-- What happens to the breaks at the end of a block scalar. -/
inductive Chomping where
  | strip
  | clip
  | keep
  deriving Repr, DecidableEq

/-- The sign of a chomping. -/
def chomping? : Char → Option Chomping
  | '-' => some .strip
  | '+' => some .keep
  | _ => none

/-- The digit of an indentation; it is not zero. -/
def indentDigit? (c : Char) : Option Nat :=
  if '1' ≤ c ∧ c ≤ '9' then some (c.toNat - '0'.toNat) else none

/-- The signs behind the indicator of a block scalar, in either order, and the place behind them. -/
def blockHeader? (c : Cursor) : Option (Chomping × Nat × Cursor) :=
  match c.rest with
  | x :: r =>
    match chomping? x with
    | some chomp =>
      match r with
      | d :: _ =>
        if d.isDigit then (indentDigit? d).map fun n => (chomp, n, c.move 2)
        else some (chomp, 0, c.move 1)
      | [] => some (chomp, 0, c.move 1)
    | none =>
      if x.isDigit then do
        let n ← indentDigit? x
        match r with
        | s :: _ =>
          match chomping? s with
          | some chomp => some (chomp, n, c.move 2)
          | none => some (.clip, n, c.move 1)
        | [] => some (.clip, n, c.move 1)
      else some (.clip, 0, c)
  | [] => some (.clip, 0, c)

/-- Reads indentation and empty lines: the breaks, the deepest indentation and the place of the
first character that is neither. An indentation of zero is not known yet. -/
def blockBreaks (indent : Nat) : Nat → List Char → Nat → Cursor → Option (List Char × Nat × Cursor)
  | 0, acc, deepest, c => some (acc, deepest, c)
  | fuel + 1, acc, deepest, c =>
    let blanks := (c.rest.takeWhile (· == ' ')).length
    let c := c.move (if indent = 0 then blanks else min blanks (indent - c.column))
    let deepest := max deepest c.column
    match c.rest with
    | [] => some (acc, deepest, c)
    | x :: _ =>
      if x == '\t' && (indent = 0 || c.column < indent) then none
      else if isBreak x then
        let (kept, next) := c.takeBreak
        blockBreaks indent fuel (acc ++ kept) deepest next
      else some (acc, deepest, c)

/-- The line starts with a blank. -/
def startsWhite : List Char → Bool
  | [] => false
  | c :: _ => isWhite c

/-- Reads the lines of a block scalar: its characters, the break behind the last line, the breaks
behind that, and the place behind all of them. -/
def blockLines (folded : Bool) (indent : Nat) : Nat → List Char → List Char → List Char → Bool →
    Cursor → Option (List Char × List Char × List Char × Cursor)
  | 0, acc, leading, breaks, _, c => some (acc, leading, breaks, c)
  | fuel + 1, acc, leading, breaks, white, c =>
    if c.column != indent || c.rest.isEmpty then some (acc, leading, breaks, c)
    else do
      let here := startsWhite c.rest
      let joint :=
        if folded && leading == ['\n'] && !white && !here then
          (if breaks.isEmpty then [' '] else breaks)
        else leading ++ breaks
      let line := c.rest.takeWhile fun x => !isBreak x
      let (leading, c) := (c.move line.length).takeBreak
      let (breaks, _, c) ← blockBreaks indent (c.rest.length + 1) [] 0 c
      blockLines folded indent fuel (acc ++ joint ++ line) leading breaks here c

/-- **Reads a block scalar** from behind its indicator: its characters, and the place behind it. -/
def blockScalar? (folded : Bool) (parent : Int) (c : Cursor) : Option (List Char × Cursor) := do
  let (chomp, increment, c) ← blockHeader? c
  let c := c.moveWhile isWhite
  let c := if c.startsWith '#' then c.moveWhile fun x => !isBreak x else c
  if !endsLine c.rest then none
  else
    let (_, c) := c.takeBreak
    let given : Nat :=
      if increment = 0 then 0
      else if 0 ≤ parent then (parent + (increment : Int)).toNat
      else increment
    let (breaks, deepest, c) ← blockBreaks given (c.rest.length + 1) [] 0 c
    let indent := if given = 0 then max (max deepest (parent + 1).toNat) 1 else given
    let (acc, leading, breaks, c) ←
      blockLines folded indent (c.rest.length + 1) [] [] breaks false c
    let ending := match chomp with
      | .strip => []
      | .clip => leading
      | .keep => leading ++ breaks
    return (acc ++ ending, c)

end FlowState.Yaml
