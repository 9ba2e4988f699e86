import FlowState.Document

/-! # Reading JSON

The strict grammar: one value with blanks around it, no comments, no commas before a closing
bracket, no leading zeros, no control characters inside quotation marks. Reading recurses through
the brackets with fuel, and the length of the text is fuel enough, since every bracket takes a
character. -/

namespace FlowState.Json

open Text (Glyph)

/-- The blanks between the parts of a value. -/
def isSpace : Glyph → Bool
  | some c => c == ' ' || c == '\t' || c == '\n' || c == '\r'
  | none => false

/-- The glyphs from the first one on that is no blank. -/
def skipSpace (gs : List Glyph) : List Glyph := gs.dropWhile isSpace

/-! ### Texts -/

/-- A piece of a quoted text: a glyph as it stands, or a code unit behind `\u`. -/
inductive Piece where
  | glyph (g : Glyph)
  | unit (n : Nat)
  deriving Repr, DecidableEq

/-- The character behind a backslash. -/
def escaped? (c : Char) : Option Char :=
  match c with
  | '"' => some '"'
  | '\\' => some '\\'
  | '/' => some '/'
  | 'b' => some '\x08'
  | 'f' => some '\x0c'
  | 'n' => some '\n'
  | 'r' => some '\r'
  | 't' => some '\t'
  | _ => none

/-- The value of a hexadecimal digit. -/
def hexGlyph? : Glyph → Option Nat
  | some c => Text.hexDigit? c
  | none => none

/-- The code unit of four hexadecimal digits. -/
def codeUnit? (a b c d : Glyph) : Option Nat := do
  let a ← hexGlyph? a
  let b ← hexGlyph? b
  let c ← hexGlyph? c
  let d ← hexGlyph? d
  return ((a * 16 + b) * 16 + c) * 16 + d

/-- The pieces up to the closing quotation mark, and what follows it. -/
def pieces? : List Glyph → Option (List Piece × List Glyph)
  | [] => none
  | some '"' :: r => some ([], r)
  | some '\\' :: some 'u' :: a :: b :: c :: d :: r => do
    let n ← codeUnit? a b c d
    let (ps, rest) ← pieces? r
    return (.unit n :: ps, rest)
  | some '\\' :: some e :: r => do
    let c ← escaped? e
    let (ps, rest) ← pieces? r
    return (.glyph (some c) :: ps, rest)
  | some '\\' :: _ => none
  | some c :: r =>
    if c.toNat < 0x20 then none
    else do
      let (ps, rest) ← pieces? r
      return (.glyph (some c) :: ps, rest)
  | none :: r => do
    let (ps, rest) ← pieces? r
    return (.glyph none :: ps, rest)

/-- The first half of a surrogate pair. -/
def isHighUnit (n : Nat) : Bool := 0xD800 ≤ n && n ≤ 0xDBFF

/-- The second half of a surrogate pair. -/
def isLowUnit (n : Nat) : Bool := 0xDC00 ≤ n && n ≤ 0xDFFF

/-- The glyphs of the pieces: surrogate pairs are joined, and half a pair is a gap. -/
def joinPieces : List Piece → List Glyph
  | [] => []
  | .glyph g :: ps => g :: joinPieces ps
  | .unit h :: .unit l :: ps =>
    if isHighUnit h && isLowUnit l then
      Text.charOfCode? (0x10000 + (h - 0xD800) * 1024 + (l - 0xDC00)) :: joinPieces ps
    else Text.charOfCode? h :: joinPieces (.unit l :: ps)
  | .unit h :: ps => Text.charOfCode? h :: joinPieces ps
termination_by ps => ps.length

/-- The glyphs of a text up to its closing quotation mark, and what follows it. -/
def quoted? (gs : List Glyph) : Option (List Glyph × List Glyph) :=
  (pieces? gs).map fun (ps, r) => (joinPieces ps, r)

/-! ### Numbers -/

/-- A decimal digit. -/
def isDigitGlyph : Glyph → Bool
  | some c => c.isDigit
  | none => false

/-- The value of a decimal digit. -/
def digitOf : Glyph → Nat
  | some c => c.toNat - '0'.toNat
  | none => 0

/-- The number that a run of digits denotes. -/
def digitsValue (ds : List Glyph) : Nat := ds.foldl (fun n g => n * 10 + digitOf g) 0

/-- The digits at the front, and what follows them. -/
def digits (gs : List Glyph) : List Glyph × List Glyph :=
  (gs.takeWhile isDigitGlyph, gs.dropWhile isDigitGlyph)

/-- The digits behind a point, if there is one. -/
def fraction? (gs : List Glyph) : Option (List Glyph × List Glyph) :=
  match gs with
  | some '.' :: r =>
    let (ds, r) := digits r
    if ds.isEmpty then none else some (ds, r)
  | gs => some ([], gs)

/-- The power of ten behind `e`, if there is one. -/
def exponent? (gs : List Glyph) : Option (Option Int × List Glyph) :=
  let read (sign : Int) (r : List Glyph) : Option (Option Int × List Glyph) :=
    let (ds, r) := digits r
    if ds.isEmpty then none else some (some (sign * (digitsValue ds : Int)), r)
  match gs with
  | some 'e' :: some '-' :: r => read (-1) r
  | some 'e' :: some '+' :: r => read 1 r
  | some 'e' :: r => read 1 r
  | some 'E' :: some '-' :: r => read (-1) r
  | some 'E' :: some '+' :: r => read 1 r
  | some 'E' :: r => read 1 r
  | gs => some (none, gs)

/-- A number without its sign: no zero stands before another digit. -/
def unsigned? (negative : Bool) (gs : List Glyph) : Option (JsonNumber × List Glyph) := do
  let (whole, r) := digits gs
  if whole.isEmpty || (whole.head? == some (some '0') && whole.length != 1) then none
  else
    let (part, r) ← fraction? r
    let (power, r) ← exponent? r
    let exponent := if part.isEmpty && power.isNone then none
      else some (power.getD 0 - (part.length : Int))
    return (⟨negative, digitsValue (whole ++ part), exponent⟩, r)

/-- A number at the front. -/
def number? (gs : List Glyph) : Option (JsonNumber × List Glyph) :=
  match gs with
  | some '-' :: r => unsigned? true r
  | r => unsigned? false r

/-! ### Values -/

mutual

/-- The value at the front, and what follows it. -/
def valueAt? : Nat → List Glyph → Option (Document × List Glyph)
  | 0, _ => none
  | fuel + 1, gs =>
    match skipSpace gs with
    | some 'n' :: some 'u' :: some 'l' :: some 'l' :: r => some (.null, r)
    | some 't' :: some 'r' :: some 'u' :: some 'e' :: r => some (.bool true, r)
    | some 'f' :: some 'a' :: some 'l' :: some 's' :: some 'e' :: r => some (.bool false, r)
    | some '"' :: r => (quoted? r).map fun (us, r) => (.text us, r)
    | some '[' :: r =>
      match skipSpace r with
      | some ']' :: r => some (.array [], r)
      | r => (itemsAt? fuel r).map fun (ds, r) => (.array ds, r)
    | some '{' :: r =>
      match skipSpace r with
      | some '}' :: r => some (.object .absent [], r)
      | r => (entriesAt? fuel r).map fun (es, r) => (.object .absent es, r)
    | r => (number? r).map fun (n, r) => (.number n, r)

/-- The items up to the closing bracket, of which there is one at least. -/
def itemsAt? : Nat → List Glyph → Option (List Document × List Glyph)
  | 0, _ => none
  | fuel + 1, gs => do
    let (d, r) ← valueAt? fuel gs
    match skipSpace r with
    | some ',' :: r =>
      let (ds, r) ← itemsAt? fuel r
      return (d :: ds, r)
    | some ']' :: r => return ([d], r)
    | _ => none

/-- The entries up to the closing brace, of which there is one at least. -/
def entriesAt? : Nat → List Glyph → Option (List (List Glyph × Document) × List Glyph)
  | 0, _ => none
  | fuel + 1, gs =>
    match skipSpace gs with
    | some '"' :: r => do
      let (key, r) ← quoted? r
      match skipSpace r with
      | some ':' :: r =>
        let (d, r) ← valueAt? fuel r
        match skipSpace r with
        | some ',' :: r =>
          let (es, r) ← entriesAt? fuel r
          return ((key, d) :: es, r)
        | some '}' :: r => return ([(key, d)], r)
        | _ => none
      | _ => none
    | _ => none

end

/-- **The document that a JSON text spells.** -/
def read? (gs : List Glyph) : Option Document :=
  match valueAt? (gs.length + 1) gs with
  | some (d, r) => if (skipSpace r).isEmpty then some d else none
  | none => none

/-- The levels of brackets that a free-form value may have. -/
def depthLimit : Nat := 127

/-- **The free-form value that a JSON text spells.** -/
def ofText? (s : String) : Option Json :=
  (read? (Text.glyphsOf s)).bind (Document.json? depthLimit)

end FlowState.Json
