import FlowState.Machine.Encoding
import FlowState.Text.Utf8

/-! # Fields of object files

Numbers and names at offsets in a file. A field that does not lie in the file is none. -/

namespace FlowState.Object

/-- The bytes of a file and the order of the bytes in its numbers. -/
structure View where
  bytes : Array UInt8
  /-- The highest byte comes first. -/
  big : Bool

namespace View

/-- The bytes at an offset, if they all lie in the file. -/
def slice? (v : View) (offset size : Nat) : Option (List UInt8) :=
  if offset + size ≤ v.bytes.size then some (v.bytes.extract offset (offset + size)).toList
  else none

/-- The number of so many bytes at an offset. -/
def number? (v : View) (width offset : Nat) : Option Nat :=
  (v.slice? offset width).map fun bs =>
    if v.big then Machine.bigEndian bs else Machine.littleEndian bs

/-- A number of two bytes. -/
def half? (v : View) (offset : Nat) : Option Nat := v.number? 2 offset

/-- A number of four bytes. -/
def word? (v : View) (offset : Nat) : Option Nat := v.number? 4 offset

/-- A number of eight bytes. -/
def double? (v : View) (offset : Nat) : Option Nat := v.number? 8 offset

end View

/-- The text of bytes up to the first zero. -/
def textBefore? (bs : List UInt8) : Option String := Text.ofBytes? (bs.takeWhile (· != 0))

/-- The text at an offset in a table of texts that end in zeros; nothing if there is none. -/
def nameAt (table : List UInt8) (offset : Nat) : String :=
  (textBefore? (table.drop offset)).getD ""

/-- The address of a number. -/
def address (n : Nat) : Address := UInt64.ofNat n

/-- Thumb code is marked by the lowest bit of its address, which is no part of it. -/
def codeAddress (thumb : Bool) (n : Nat) : Address :=
  address (if thumb then n / 2 * 2 else n)

end FlowState.Object
