/-! # Characters in bytes

Files are bytes and texts are characters. Decoding never fails: a byte that is no part of a
well-formed UTF-8 sequence becomes a gap, so that a reader can pass over broken text in places where
the text does not matter and refuse it everywhere else. -/

namespace FlowState.Text

/-- A decoded character, or a gap where there is none. -/
abbrev Glyph := Option Char

/-- The character of a code point, if it is one. -/
def charOfCode? (n : Nat) : Option Char :=
  if h : n.isValidChar then some (Char.ofNatAux n h) else none

/-- The payload of a continuation byte. -/
def continuation? (b : UInt8) : Option Nat :=
  if 0x80 ≤ b.toNat ∧ b.toNat ≤ 0xBF then some (b.toNat - 0x80) else none

/-- A character of two bytes. -/
def twoBytes? (a b : UInt8) : Option Char := do
  let y ← continuation? b
  if 0xC2 ≤ a.toNat ∧ a.toNat ≤ 0xDF then charOfCode? ((a.toNat - 0xC0) * 64 + y) else none

/-- A character of three bytes; the shortest form only. -/
def threeBytes? (a b c : UInt8) : Option Char := do
  let y ← continuation? b
  let z ← continuation? c
  let n := (a.toNat - 0xE0) * 4096 + y * 64 + z
  if 0xE0 ≤ a.toNat ∧ a.toNat ≤ 0xEF ∧ 0x800 ≤ n then charOfCode? n else none

/-- A character of four bytes; the shortest form only. -/
def fourBytes? (a b c d : UInt8) : Option Char := do
  let x ← continuation? b
  let y ← continuation? c
  let z ← continuation? d
  let n := (a.toNat - 0xF0) * 262144 + x * 4096 + y * 64 + z
  if 0xF0 ≤ a.toNat ∧ a.toNat ≤ 0xF4 ∧ 0x10000 ≤ n then charOfCode? n else none

/-- The first character of the bytes, as long as it is, and the number of bytes it takes. -/
def firstGlyph (a : UInt8) (r : List UInt8) : Glyph × Nat :=
  if a.toNat < 0x80 then (charOfCode? a.toNat, 0)
  else match r with
    | [] => (none, 0)
    | b :: r =>
      match twoBytes? a b, r with
      | some c, _ => (some c, 1)
      | none, [] => (none, 0)
      | none, c :: r =>
        match threeBytes? a b c, r with
        | some c, _ => (some c, 2)
        | none, [] => (none, 0)
        | none, d :: _ =>
          match fourBytes? a b c d with
          | some c => (some c, 3)
          | none => (none, 0)

/-- **The glyphs of the bytes**: every byte that starts no character is a gap. -/
def glyphs : List UInt8 → List Glyph
  | [] => []
  | a :: r => (firstGlyph a r).1 :: glyphs (r.drop (firstGlyph a r).2)
termination_by bs => bs.length
decreasing_by simp only [List.length_drop, List.length_cons]; omega

/-- The characters of the glyphs, if there is no gap. -/
def charsOfGlyphs? (gs : List Glyph) : Option (List Char) := gs.mapM id

/-- **The text of the bytes**, if they are well-formed. -/
def ofBytes? (bs : List UInt8) : Option String := (charsOfGlyphs? (glyphs bs)).map String.ofList

/-- The bytes of a text. -/
def toBytes (s : String) : List UInt8 := s.toUTF8.data.toList

/-- The glyphs of a text, which has no gap. -/
def glyphsOf (s : String) : List Glyph := s.toList.map some

theorem charsOfGlyphs?_map_some (cs : List Char) : charsOfGlyphs? (cs.map some) = some cs := by
  induction cs with
  | nil => rfl
  | cons c cs ih =>
    simp only [charsOfGlyphs?] at ih
    simp [charsOfGlyphs?, ih]

end FlowState.Text
