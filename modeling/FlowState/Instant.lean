import FlowState.Text.Numeral

/-! # Instants

A moment of the universal time as text: the date, the time of day, as many digits of the second as
are needed in groups of three, and the offset, which is zero. -/

namespace FlowState.Instant

/-- The decimal digits of a number, with zeros in front up to the width. -/
def padded (width n : Nat) : String := String.ofList (Text.digitsPadded 10 width n)

/-- A date of the calendar. -/
structure Date where
  year : Nat
  month : Nat
  day : Nat
  deriving Repr, DecidableEq

/-- **The date of a day**, counted from the first day of 1970. Years start in March here, so that
the day that leap years have more is the last one; eras of 400 years have 146097 days. -/
def dateOf (day : Nat) : Date :=
  let shifted := day + 719468
  let era := shifted / 146097
  let ofEra := shifted % 146097
  let yearOfEra := (ofEra - ofEra / 1460 + ofEra / 36524 - ofEra / 146096) / 365
  let ofYear := ofEra - (365 * yearOfEra + yearOfEra / 4 - yearOfEra / 100)
  let turned := (5 * ofYear + 2) / 153
  let month := if turned < 10 then turned + 3 else turned - 9
  ⟨yearOfEra + era * 400 + (if month ≤ 2 then 1 else 0), month, ofYear - (153 * turned + 2) / 5 + 1⟩

/-- The digits of a second behind its point. -/
def fraction (nanoseconds : Nat) : String :=
  if nanoseconds = 0 then ""
  else if nanoseconds % 1000000 = 0 then "." ++ padded 3 (nanoseconds / 1000000)
  else if nanoseconds % 1000 = 0 then "." ++ padded 6 (nanoseconds / 1000)
  else "." ++ padded 9 nanoseconds

/-- **The text of an instant**, given by the seconds since the start of 1970 and the nanoseconds. -/
def text (seconds nanoseconds : Nat) : String :=
  let date := dateOf (seconds / 86400)
  let time := seconds % 86400
  padded 4 date.year ++ "-" ++ padded 2 date.month ++ "-" ++ padded 2 date.day ++ "T" ++
    padded 2 (time / 3600) ++ ":" ++ padded 2 (time / 60 % 60) ++ ":" ++ padded 2 (time % 60) ++
    fraction nanoseconds ++ "+00:00"

end FlowState.Instant
