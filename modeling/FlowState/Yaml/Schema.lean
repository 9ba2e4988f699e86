import FlowState.Json

/-! # The core schema

What an unquoted scalar stands for where its place does not decide it: null, a truth value, an
integer in one of four bases, a floating number, or else its own text. Digits behind a leading zero
are text, and so is a number with an underscore in it. -/

namespace FlowState.Yaml

/-- The spellings of null, apart from the empty scalar. -/
def isNull (s : List Char) : Bool :=
  s == ['n', 'u', 'l', 'l'] || s == ['N', 'u', 'l', 'l'] || s == ['N', 'U', 'L', 'L'] || s == ['~']

/-- The truth value that a scalar spells. -/
def bool? (s : List Char) : Option Bool :=
  if s == ['t', 'r', 'u', 'e'] || s == ['T', 'r', 'u', 'e'] || s == ['T', 'R', 'U', 'E'] then
    some true
  else if s == ['f', 'a', 'l', 's', 'e'] || s == ['F', 'a', 'l', 's', 'e']
      || s == ['F', 'A', 'L', 'S', 'E'] then
    some false
  else none

/-- A plus or a minus sign. -/
def isSign (c : Char) : Bool := c == '+' || c == '-'

/-- The text begins with a sign. -/
def isSigned : List Char → Bool
  | [] => false
  | c :: _ => isSign c

/-- The text without one leading sign. -/
def dropSign : List Char → List Char
  | [] => []
  | c :: cs => if isSign c then cs else c :: cs

/-- Decimal digits behind a leading zero, which are text and no number. -/
def isPaddedDigits (s : List Char) : Bool :=
  match dropSign s with
  | '0' :: d :: ds => (d :: ds).all Char.isDigit
  | _ => false

/-- The marks of the bases other than ten. -/
def baseMarks : List (Char × Nat) := [('x', 16), ('o', 8), ('b', 2)]

/-- The number behind the mark of a base. -/
def marked? (s : List Char) : Option Nat :=
  match s with
  | '0' :: m :: ds => do
    let (_, base) ← baseMarks.find? fun b => b.1 == m
    Text.natOfDigits? base ds
  | _ => none

/-- **The natural number that a scalar spells**, if it is below the bound. -/
def natural? (bound : Nat) (s : List Char) : Option Nat :=
  let u := Text.dropPlus s
  match (marked? u).filter (· < bound) with
  | some n => some n
  | none =>
    if isSigned u || isPaddedDigits s then none
    else (Text.natOfDigits? 10 u).filter (· < bound)

/-- The absolute value of the number that a scalar with a minus sign spells, if it is at most the
bound. -/
def negative? (bound : Nat) (s : List Char) : Option Nat :=
  match s with
  | '-' :: u =>
    match (marked? u).filter (· ≤ bound) with
    | some n => some n
    | none =>
      if isPaddedDigits s then none else (Text.natOfDigits? 10 u).filter (· ≤ bound)
  | _ => none

/-- The 64-bit word that a scalar spells. -/
def word? (s : List Char) : Option UInt64 := (natural? 0x10000000000000000 s).bind Text.wordOfNat?

/-- The value of a run of decimal digits; nothing counts as zero. -/
def digitsValue (ds : List Char) : Nat := ds.foldl (fun n c => n * 10 + (c.toNat - '0'.toNat)) 0

/-- The power of ten at the end of a floating number; nothing counts as zero. -/
def exponent? : List Char → Option Int
  | [] => some 0
  | c :: cs =>
    if c == 'e' || c == 'E' then
      match cs with
      | '-' :: ds => (Text.natOfDigits? 10 ds).map fun n => -(n : Int)
      | ds => (Text.natOfDigits? 10 (Text.dropPlus ds)).map Int.ofNat
    else none

/-- The finite number that a scalar without a plus sign spells in decimal notation. -/
def decimal? (s : List Char) : Option JsonNumber := do
  let negative := match s with
    | '-' :: _ => true
    | _ => false
  let u := if negative then s.drop 1 else s
  let whole := u.takeWhile Char.isDigit
  let rest := u.dropWhile Char.isDigit
  let (fraction, rest) := match rest with
    | '.' :: r => (r.takeWhile Char.isDigit, r.dropWhile Char.isDigit)
    | r => ([], r)
  if whole.isEmpty && fraction.isEmpty then none
  else
    let e ← exponent? rest
    let n : JsonNumber :=
      ⟨negative, digitsValue (whole ++ fraction), some (e - (fraction.length : Int))⟩
    if n.isFinite then some n else none

/-- **The floating number that a scalar spells**: a finite one, or none inside for an infinity and
for what is not a number. -/
def float? (s : List Char) : Option (Option JsonNumber) :=
  let u := Text.dropPlus s
  if s != u && isSigned u then none
  else if u == ['.', 'i', 'n', 'f'] || u == ['.', 'I', 'n', 'f'] || u == ['.', 'I', 'N', 'F'] then
    some none
  else if s == ['-', '.', 'i', 'n', 'f'] || s == ['-', '.', 'I', 'n', 'f']
      || s == ['-', '.', 'I', 'N', 'F'] then
    some none
  else if s == ['.', 'n', 'a', 'n'] || s == ['.', 'N', 'a', 'N'] || s == ['.', 'N', 'A', 'N'] then
    some none
  else (decimal? u).map some

/-- An integer of more than 64 and at most 128 bits, which no value can hold. -/
def isWide (s : List Char) : Bool :=
  (natural? (1 <<< 128) s).isSome || (negative? (1 <<< 127) s).isSome

/-- The integer that a scalar spells: refused inside if it is too wide. -/
def integer? (s : List Char) : Option (Option JsonNumber) :=
  match natural? 0x10000000000000000 s, negative? 0x8000000000000000 s with
  | some n, _ => some (some (.ofNat n))
  | none, some n => some (some (.ofInt (-(n : Int))))
  | none, none => if isWide s then some none else none

/-- **The value of an unquoted scalar.** Only an integer that is too wide has none. -/
def value? (s : List Char) : Option Json :=
  if s.isEmpty || isNull s then some .null
  else match bool? s with
    | some b => some (.bool b)
    | none =>
      match integer? s with
      | some n => n.map .number
      | none =>
        if isPaddedDigits s then some (.text (String.ofList s))
        else match float? s with
          | some (some n) => some (.number n)
          | some none => some .null
          | none => some (.text (String.ofList s))

/-- The scalar stands for something other than its own text. -/
def isTyped (s : List Char) : Bool :=
  s.isEmpty || isNull s || (bool? s).isSome || (integer? s).isSome || isPaddedDigits s
    || (float? s).isSome

end FlowState.Yaml
