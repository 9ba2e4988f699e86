import FlowState.Text.Numeral

/-! # Byte strings in hexadecimal

Bytes are written with two lower-case digits each. Reading a byte string drops every blank first;
what is left is read in pairs, and a pair is either two digits or a plus sign and one digit. -/

namespace FlowState.Text

/-- The digit of a number below sixteen. -/
def nibbleChar (n : Nat) : Char := Nat.digitChar n

/-- The two digits of a byte. -/
def byteChars (b : UInt8) : List Char := [nibbleChar (b.toNat / 16), nibbleChar (b.toNat % 16)]

/-- The digits of the bytes in order. -/
def hexChars (bs : List UInt8) : List Char := bs.flatMap byteChars

/-- **Bytes as hexadecimal text**, two digits a byte and nothing between them. -/
def hex (bs : List UInt8) : String := String.ofList (hexChars bs)

/-- The byte that a pair of characters denotes: two digits, or a plus sign and a digit. -/
def bytePair? (x y : Char) : Option UInt8 :=
  if x = '+' then (hexDigit? y).map UInt8.ofNat
  else do
    let hi ← hexDigit? x
    let lo ← hexDigit? y
    return UInt8.ofNat (hi * 16 + lo)

/-- Reads the characters pair by pair. -/
def bytePairs? : List Char → Option (List UInt8)
  | [] => some []
  | [_] => none
  | x :: y :: cs => do
    let b ← bytePair? x y
    let bs ← bytePairs? cs
    return b :: bs

/-- **The bytes that a text denotes**, blanks anywhere in it left out. -/
def bytesOfHex? (s : String) : Option (List UInt8) :=
  bytePairs? (s.toList.filter fun c => !isBlank c)

end FlowState.Text
