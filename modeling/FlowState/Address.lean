import FlowState.Text.Numeral

/-! # Addresses

An address is a 64-bit word. It is shown as `0x` and at least eight lower-case hexadecimal digits,
and read from hexadecimal text behind `0x` or `0X` and from decimal text otherwise. -/

namespace FlowState

/-- An address of the loaded image. -/
abbrev Address := UInt64

namespace Address

/-- **The text of an address**: `0x` and at least eight hexadecimal digits. -/
def text (a : Address) : String := "0x" ++ String.ofList (Text.digitsPadded 16 8 a.toNat)

/-- Reads an address from trimmed characters. -/
def ofChars? (cs : List Char) : Option Address :=
  match Text.afterPrefix? ['0', 'x'] cs with
  | some hex => Text.word? 16 hex
  | none =>
    match Text.afterPrefix? ['0', 'X'] cs with
    | some hex => Text.word? 16 hex
    | none => Text.word? 10 cs

/-- **The address that a text denotes**, blanks around it ignored. -/
def parse? (s : String) : Option Address := ofChars? (Text.trimChars s.toList)

/-- The last address, at which every sum stops. -/
def last : Address := 0xffffffffffffffff

/-- The address `n` bytes further, or the last address if there is none. -/
def advance (a : Address) (n : Nat) : Address :=
  if a.toNat + n < 0x10000000000000000 then UInt64.ofNat (a.toNat + n) else last

theorem toNat_last : last.toNat = 0xffffffffffffffff := rfl

theorem toNat_advance (a : Address) (n : Nat) :
    (a.advance n).toNat = min (a.toNat + n) 0xffffffffffffffff := by
  unfold advance
  split
  · rename_i h
    rw [UInt64.toNat_ofNat_of_lt' h]
    omega
  · rw [toNat_last]
    omega

theorem le_advance (a : Address) (n : Nat) : a ≤ a.advance n := by
  have := a.toNat_lt
  rw [UInt64.le_iff_toNat_le, toNat_advance]
  omega

end Address

end FlowState
