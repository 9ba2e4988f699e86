import FlowState.Text.Hex

/-! # State values

A state value is a row of bytes of a fixed width, the lowest byte first. Its text is `0x` and two
hexadecimal digits a byte, the highest byte first. Text is read after the blanks around it and any
number of `0x` and then of `0X` are dropped; an odd number of digits stands for one more zero in
front. -/

namespace FlowState

/-- A state value, its lowest byte first. -/
structure StateValue where
  bytes : List UInt8
  deriving Repr, DecidableEq, Inhabited

namespace StateValue

/-- The number of bytes. -/
def width (v : StateValue) : Nat := v.bytes.length

/-- The zero of a width. -/
def zero (width : Nat) : StateValue := ⟨List.replicate width 0⟩

/-- The `width` lowest bytes of a number, the lowest first. -/
def lowBytes : Nat → Nat → List UInt8
  | 0, _ => []
  | width + 1, n => UInt8.ofNat (n % 256) :: lowBytes width (n / 256)

/-- **The value of a word in a width**: higher bytes are cut off, and missing ones are zero. -/
def ofWord (n : UInt64) (width : Nat) : StateValue := ⟨lowBytes width n.toNat⟩

/-- The number that bytes denote, the lowest first. -/
def number : List UInt8 → Nat
  | [] => 0
  | b :: bs => b.toNat + 256 * number bs

/-- The word of the eight lowest bytes. -/
def toWord (v : StateValue) : UInt64 := UInt64.ofNat (number (v.bytes.take 8))

/-- **The text of a value**, the highest byte first. -/
def text (v : StateValue) : String := "0x" ++ String.ofList (Text.hexChars v.bytes.reverse)

/-- The text without any number of repetitions of a mark in front. -/
def dropMarks (x y : Char) : List Char → List Char
  | a :: b :: cs => if a = x ∧ b = y then dropMarks x y cs else a :: b :: cs
  | cs => cs

/-- The digits of a text of a value. -/
def digits (cs : List Char) : List Char := dropMarks '0' 'X' (dropMarks '0' 'x' (Text.trimChars cs))

/-- The digits with a zero in front of an odd number of them. -/
def evenDigits (ds : List Char) : List Char := if ds.length % 2 = 1 then '0' :: ds else ds

/-- **The value that a text denotes.** -/
def parse? (s : String) : Option StateValue :=
  let ds := digits s.toList
  if ds.isEmpty || !ds.all Text.isHexDigit then none
  else (Text.bytePairs? (evenDigits ds)).map fun bs => ⟨bs.reverse⟩

theorem length_lowBytes (width n : Nat) : (lowBytes width n).length = width := by
  induction width generalizing n with
  | zero => rfl
  | succ width ih => simp [lowBytes, ih]

@[simp] theorem width_ofWord (n : UInt64) (width : Nat) : (ofWord n width).width = width :=
  length_lowBytes width n.toNat

end StateValue

end FlowState
