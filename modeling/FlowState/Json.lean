import FlowState.Text.Numeral

/-! # JSON values

Values with exact numbers and with objects as lists of members. Two printings: the compact one, on
one line and without blanks, and the pretty one, with every item on a line of its own and two blanks
more for each level. Members are printed in their order; characters from U+0020 on are printed as
they are, apart from the quotation mark and the backslash. -/

namespace FlowState

/-- A number as it is written: an integer, or a mantissa with a power of ten. -/
structure JsonNumber where
  negative : Bool
  mantissa : Nat
  exponent : Option Int
  deriving Repr, DecidableEq

/-- A JSON value. -/
inductive Json where
  | null
  | bool (b : Bool)
  | number (n : JsonNumber)
  | text (s : String)
  | array (items : List Json)
  | object (members : List (String × Json))
  deriving Repr, BEq, Inhabited

namespace JsonNumber

/-- The literal of a natural number. -/
def ofNat (n : Nat) : JsonNumber := ⟨false, n, none⟩

/-- The literal of an integer. -/
def ofInt (n : Int) : JsonNumber := ⟨decide (n < 0), n.natAbs, none⟩

/-- The 64-bit word that an integer literal without sign denotes. -/
def word? (n : JsonNumber) : Option UInt64 :=
  if n.negative || n.exponent.isSome then none else Text.wordOfNat? n.mantissa

/-- The integer that a literal without a point and without a power of ten denotes. -/
def int? (n : JsonNumber) : Option Int :=
  if n.exponent.isSome then none else some (if n.negative then -(n.mantissa : Int) else n.mantissa)

/-- The digits that a power of ten adds to a mantissa decide the matter unless they are close to
the largest binary64 number, which lies between `10 ^ 308` and `10 ^ 309`. -/
def isFinite (n : JsonNumber) : Bool :=
  let e := n.exponent.getD 0
  let size : Int := (Nat.toDigits 10 n.mantissa).length + e
  if n.mantissa = 0 then true
  else if size ≤ 308 then true
  else if 310 ≤ size then false
  else
    let limit : Nat := (1 <<< 1024) - (1 <<< 970)
    if 0 ≤ e then n.mantissa * Nat.pow 10 e.toNat < limit
    else n.mantissa < limit * Nat.pow 10 (-e).toNat

/-- The characters of a number. -/
def chars (n : JsonNumber) : List Char :=
  (if n.negative then ['-'] else []) ++ Nat.toDigits 10 n.mantissa ++
    match n.exponent with
    | none => []
    | some e => 'e' :: (if e < 0 then ['-'] else []) ++ Nat.toDigits 10 e.natAbs

end JsonNumber

namespace Json

/-- The value of a natural number. -/
def ofNat (n : Nat) : Json := .number (.ofNat n)

/-- The value of a 64-bit word. -/
def word (a : UInt64) : Json := ofNat a.toNat

/-- `null` for nothing. -/
def ofOption {α : Type} (f : α → Json) : Option α → Json
  | none => .null
  | some a => f a

/-- The value of the last member with the name. -/
def member? (j : Json) (name : String) : Option Json :=
  match j with
  | .object ms => (ms.reverse.find? fun m => m.1 == name).map (·.2)
  | _ => none

/-- The text that a text value is. -/
def text? : Json → Option String
  | .text s => some s
  | _ => none

/-- The items of an array. -/
def items? : Json → Option (List Json)
  | .array xs => some xs
  | _ => none

/-! ### Printing -/

/-- The characters that stand for one character of a text. -/
def escapeChar (c : Char) : List Char :=
  if c = '"' then ['\\', '"']
  else if c = '\\' then ['\\', '\\']
  else if c = '\x08' then ['\\', 'b']
  else if c = '\t' then ['\\', 't']
  else if c = '\n' then ['\\', 'n']
  else if c = '\x0c' then ['\\', 'f']
  else if c = '\r' then ['\\', 'r']
  else if c.toNat < 0x20 then '\\' :: 'u' :: Text.digitsPadded 16 4 c.toNat
  else [c]

/-- A text in quotation marks. -/
def quote (s : String) : List Char := '"' :: s.toList.flatMap escapeChar ++ ['"']

mutual

/-- The characters of a value on one line. -/
def compactChars : Json → List Char
  | .null => ['n', 'u', 'l', 'l']
  | .bool true => ['t', 'r', 'u', 'e']
  | .bool false => ['f', 'a', 'l', 's', 'e']
  | .number n => n.chars
  | .text s => quote s
  | .array xs => '[' :: compactItems xs ++ [']']
  | .object ms => '{' :: compactMembers ms ++ ['}']

/-- The items of an array with commas between them. -/
def compactItems : List Json → List Char
  | [] => []
  | [x] => compactChars x
  | x :: xs => compactChars x ++ ',' :: compactItems xs

/-- The members of an object with commas between them. -/
def compactMembers : List (String × Json) → List Char
  | [] => []
  | [m] => compactMember m
  | m :: ms => compactMember m ++ ',' :: compactMembers ms

/-- A member of an object. -/
def compactMember : String × Json → List Char
  | (k, v) => quote k ++ ':' :: compactChars v

end

/-- A new line that is indented to the level. -/
def newline (level : Nat) : List Char := '\n' :: List.replicate (2 * level) ' '

mutual

/-- The characters of a value whose lines are indented from the level on. -/
def prettyChars (level : Nat) : Json → List Char
  | .null => ['n', 'u', 'l', 'l']
  | .bool true => ['t', 'r', 'u', 'e']
  | .bool false => ['f', 'a', 'l', 's', 'e']
  | .number n => n.chars
  | .text s => quote s
  | .array [] => ['[', ']']
  | .array (x :: xs) => '[' :: prettyItems (level + 1) (x :: xs) ++ newline level ++ [']']
  | .object [] => ['{', '}']
  | .object (m :: ms) => '{' :: prettyMembers (level + 1) (m :: ms) ++ newline level ++ ['}']

/-- The items of an array, each on a new line. -/
def prettyItems (level : Nat) : List Json → List Char
  | [] => []
  | [x] => newline level ++ prettyChars level x
  | x :: xs => newline level ++ prettyChars level x ++ ',' :: prettyItems level xs

/-- The members of an object, each on a new line. -/
def prettyMembers (level : Nat) : List (String × Json) → List Char
  | [] => []
  | [m] => newline level ++ prettyMember level m
  | m :: ms => newline level ++ prettyMember level m ++ ',' :: prettyMembers level ms

/-- A member of an object, with a blank after the colon. -/
def prettyMember (level : Nat) : String × Json → List Char
  | (k, v) => quote k ++ ':' :: ' ' :: prettyChars level v

end

/-- **The value on one line.** -/
def compact (j : Json) : String := String.ofList (compactChars j)

/-- **The value on indented lines.** -/
def pretty (j : Json) : String := String.ofList (prettyChars 0 j)

end Json

end FlowState
