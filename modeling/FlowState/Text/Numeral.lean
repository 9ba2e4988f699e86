import FlowState.Text.Blank

/-! # Numerals

Numbers written in a base between 2 and 16, read into natural numbers and into 64-bit words. A word
may carry one plus sign; it is refused when it has no digit, a character that is no digit of the
base, or a value of `2 ^ 64` or more. -/

namespace FlowState.Text

/-- The value of a hexadecimal digit, of either case. -/
def hexDigit? (c : Char) : Option Nat :=
  if '0' ≤ c ∧ c ≤ '9' then some (c.toNat - '0'.toNat)
  else if 'a' ≤ c ∧ c ≤ 'f' then some (c.toNat - 'a'.toNat + 10)
  else if 'A' ≤ c ∧ c ≤ 'F' then some (c.toNat - 'A'.toNat + 10)
  else none

/-- The value of a digit of the base. -/
def digit? (base : Nat) (c : Char) : Option Nat :=
  (hexDigit? c).filter (· < base)

/-- A hexadecimal digit, of either case. -/
def isHexDigit (c : Char) : Bool := (hexDigit? c).isSome

/-- One more digit of a number: refused unless it is a digit of the base. -/
def digitStep (base : Nat) (acc : Option Nat) (c : Char) : Option Nat :=
  acc.bind fun n => (digit? base c).map fun d => n * base + d

/-- **The number that the digits denote**, if there is at least one and all are digits of the base.
-/
def natOfDigits? (base : Nat) (cs : List Char) : Option Nat :=
  if cs.isEmpty then none else cs.foldl (digitStep base) (some 0)

/-- The text without one leading plus sign. -/
def dropPlus : List Char → List Char
  | '+' :: cs => cs
  | cs => cs

/-- The 64-bit word that a number is, if it is small enough. -/
def wordOfNat? (n : Nat) : Option UInt64 :=
  if n < 0x10000000000000000 then some (UInt64.ofNat n) else none

/-- **The word that a numeral denotes**: an optional plus sign and digits of the base. -/
def word? (base : Nat) (cs : List Char) : Option UInt64 :=
  (natOfDigits? base (dropPlus cs)).bind wordOfNat?

/-- The digits of a number in lower case, with zeros in front up to the width. -/
def digitsPadded (base width n : Nat) : List Char :=
  let ds := Nat.toDigits base n
  List.replicate (width - ds.length) '0' ++ ds

/-- The decimal digits of a number. -/
def decimal (n : Nat) : String := String.ofList (Nat.toDigits 10 n)

/-- The hexadecimal digits of a number in upper case. -/
def upperHex (n : Nat) : String := String.ofList ((Nat.toDigits 16 n).map Char.toUpper)

theorem wordOfNat?_toNat (a : UInt64) : wordOfNat? a.toNat = some a := by
  rw [wordOfNat?, if_pos (show a.toNat < 0x10000000000000000 from a.toNat_lt), UInt64.ofNat_toNat]

theorem wordOfNat?_eq_some {n : Nat} {a : UInt64} : wordOfNat? n = some a ↔ n = a.toNat := by
  constructor
  · intro h
    by_cases hn : n < 0x10000000000000000
    · rw [wordOfNat?, if_pos hn, Option.some.injEq] at h
      rw [← h, UInt64.toNat_ofNat_of_lt' hn]
    · rw [wordOfNat?, if_neg hn] at h
      cases h
  · rintro rfl
    exact wordOfNat?_toNat a

end FlowState.Text
