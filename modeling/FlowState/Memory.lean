import FlowState.Address

/-! # Memory

The bytes of an image lie in segments. A read is answered by the first segment that holds all of it;
the empty read is answered also at the end of a segment. -/

namespace FlowState

/-- Bytes that are mapped at an address. -/
structure Segment where
  name : String
  address : Address
  bytes : List UInt8
  executable : Bool
  deriving Repr, DecidableEq

namespace Segment

/-- The first address behind the segment. -/
def stop (s : Segment) : Address := s.address.advance s.bytes.length

/-- The bytes at an address, if they lie in the segment. -/
def read? (s : Segment) (a : Address) (width : Nat) : Option (List UInt8) :=
  if a < s.address then none
  else
    let offset := a.toNat - s.address.toNat
    if offset + width ≤ s.bytes.length then some ((s.bytes.drop offset).take width) else none

theorem length_of_read? {s : Segment} {a : Address} {width : Nat} {bs : List UInt8}
    (h : s.read? a width = some bs) : bs.length = width := by
  unfold read? at h
  split at h
  · simp at h
  · simp only at h
    split at h
    · simp only [Option.some.injEq] at h
      subst h
      simp only [List.length_take, List.length_drop]
      omega
    · simp at h

end Segment

/-- The memory of an image. -/
abbrev Memory := List Segment

/-- **The bytes at an address**, from the first segment that holds them all. -/
def Memory.read? (m : Memory) (a : Address) (width : Nat) : Option (List UInt8) :=
  m.findSome? fun s => s.read? a width

theorem Memory.length_of_read? {m : Memory} {a : Address} {width : Nat} {bs : List UInt8}
    (h : m.read? a width = some bs) : bs.length = width := by
  obtain ⟨s, _, hs⟩ := List.exists_of_findSome?_eq_some h
  exact Segment.length_of_read? hs

end FlowState
