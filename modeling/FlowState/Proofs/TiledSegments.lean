import FlowState.Machine.Sweep
import Mathlib.Data.List.Basic

/-! # Tiled segments

A disassembler is known only by what is asked of it (`Disassembles`), and every instruction set here
meets that (`disassembles_disassemble`). What a sweep makes of a segment is a row of tiles
(`Tile.Row`): instructions and gaps that lie end to end, with all of the bytes, and no instruction
empty.

What a row has to say about addresses needs that the bytes lie in front of the end of the address
space. Then the address of an instruction tells how many bytes lie in front of it
(`Tile.Row.toNat_address`), and the instructions cover the segment (`Tile.Row.covers`). -/

namespace FlowState.Machine

/-! ### Disassemblers -/

/-- The instructions lie end to end from an address on. -/
def EndToEnd : Address → List Instruction → Prop
  | _, [] => True
  | a, i :: is => i.address = a ∧ EndToEnd (a + UInt64.ofNat i.bytes.length) is

/-- **Instructions at the front of some bytes**, be it none at all: none of them is empty, they lie
end to end from the address on, and their bytes are the first ones. -/
structure Leads (a : Address) (bs : List UInt8) (is : List Instruction) : Prop where
  nonempty : ∀ i ∈ is, i.bytes ≠ []
  endToEnd : EndToEnd a is
  atFront : is.flatMap (·.bytes) <+: bs

/-- **What is asked of a disassembler**: the instructions that it finds lie at the front of the
bytes that it was given. -/
def Disassembles (run : Address → List UInt8 → List Instruction) : Prop :=
  ∀ a bs, Leads a bs (run a bs)

/-- The number of bytes of a row of instructions. -/
def extentOf : List Instruction → Nat
  | [] => 0
  | i :: is => i.bytes.length + extentOf is

theorem extentOf_eq (is : List Instruction) : extentOf is = (is.flatMap (·.bytes)).length := by
  induction is with
  | nil => rfl
  | cons i is ih => rw [extentOf, ih, List.flatMap_cons, List.length_append]

theorem advance_advance (a : Address) (m n : Nat) :
    a + UInt64.ofNat m + UInt64.ofNat n = a + UInt64.ofNat (m + n) := by
  rw [UInt64.add_assoc, ← UInt64.ofNat_add]

theorem leads_nil (a : Address) (bs : List UInt8) : Leads a bs [] :=
  ⟨List.forall_mem_nil _, trivial, List.nil_prefix⟩

theorem Leads.cons {i : Instruction} {bs : List UInt8} {n : Nat} {is : List Instruction}
    (hi : i.bytes = bs.take n) (hpos : 0 < n) (hle : n ≤ bs.length)
    (h : Leads (i.address + UInt64.ofNat n) (bs.drop n) is) : Leads i.address bs (i :: is) := by
  have hlen : i.bytes.length = n := by rw [hi, List.length_take_of_le hle]
  refine ⟨?_, ⟨rfl, ?_⟩, ?_⟩
  · intro j hj
    rcases List.mem_cons.mp hj with rfl | hj
    · rw [← List.length_pos_iff, hlen]
      exact hpos
    · exact h.nonempty j hj
  · rw [hlen]
    exact h.endToEnd
  · have happend := (List.prefix_append_right_inj (bs.take n)).mpr h.atFront
    rwa [List.take_append_drop, ← hi] at happend

theorem leads_run (set : InstructionSet) (fuel : Nat) (a : Address) (bs : List UInt8) :
    Leads a bs (set.run fuel a bs) := by
  induction fuel generalizing a bs with
  | zero => exact leads_nil a bs
  | succ fuel ih =>
    rw [InstructionSet.run]
    split
    · rename_i e _
      split_ifs with hfit
      · simp only [Bool.and_eq_true, decide_eq_true_eq] at hfit
        have hfirst : (e.instruction a bs).bytes = bs.take e.length := rfl
        exact .cons hfirst hfit.1 hfit.2 (ih _ _)
      · exact leads_nil a bs
    · exact leads_nil a bs

/-- Every instruction set gives a disassembler. -/
theorem disassembles_disassemble (set : InstructionSet) : Disassembles set.disassemble :=
  fun a bs => leads_run set bs.length a bs

/-! ### Rows of tiles -/

/-- A piece of a segment. -/
inductive Tile where
  | code (i : Instruction)
  /-- Bytes that are passed over. -/
  | gap (bytes : List UInt8)
  deriving Repr, DecidableEq

namespace Tile

/-- The bytes of a tile. -/
def bytes : Tile → List UInt8
  | .code i => i.bytes
  | .gap bs => bs

/-- The instruction of a tile. -/
def instruction? : Tile → Option Instruction
  | .code i => some i
  | .gap _ => none

/-- The number of bytes that are passed over. -/
def skipped : Tile → Nat
  | .code _ => 0
  | .gap bs => bs.length

/-- The number of bytes that a row of tiles passes over. -/
def skippedOf : List Tile → Nat
  | [] => 0
  | t :: ts => t.skipped + skippedOf ts

/-- The tiles lie end to end from an address on. -/
def EndToEnd : Address → List Tile → Prop
  | _, [] => True
  | a, t :: ts =>
    (∀ i ∈ t.instruction?, i.address = a) ∧ EndToEnd (a + UInt64.ofNat t.bytes.length) ts

theorem endToEnd_append {a : Address} {ts us : List Tile} :
    EndToEnd a (ts ++ us) ↔
      EndToEnd a ts ∧ EndToEnd (a + UInt64.ofNat (ts.flatMap Tile.bytes).length) us := by
  induction ts generalizing a with
  | nil => simp [EndToEnd]
  | cons t ts ih =>
    rw [List.cons_append, EndToEnd, ih, EndToEnd, advance_advance, List.flatMap_cons,
      List.length_append, and_assoc]

theorem endToEnd_code {a : Address} {is : List Instruction} :
    EndToEnd a (is.map .code) ↔ Machine.EndToEnd a is := by
  induction is generalizing a with
  | nil => simp [EndToEnd, Machine.EndToEnd]
  | cons i is ih =>
    rw [List.map_cons, EndToEnd, ih, Machine.EndToEnd]
    simp [instruction?, bytes]

theorem flatMap_bytes_code (is : List Instruction) :
    (is.map Tile.code).flatMap Tile.bytes = is.flatMap (·.bytes) := by
  rw [List.flatMap_map]
  rfl

/-- **A row of tiles of some bytes**: the tiles lie end to end, their bytes are all of the bytes,
and no instruction is empty. -/
structure Row (a : Address) (bs : List UInt8) (ts : List Tile) : Prop where
  bytes_eq : ts.flatMap Tile.bytes = bs
  endToEnd : EndToEnd a ts
  nonempty : ∀ i, .code i ∈ ts → i.bytes ≠ []

end Tile

/-! ### Covered segments -/

/-- **Instructions that cover a segment** but for some bytes: none is empty, they do not overlap and
come in the order of their addresses, and their bytes are those of the segment. -/
structure Covers (s : Segment) (is : List Instruction) (skipped : Nat) : Prop where
  nonempty : ∀ i ∈ is, i.bytes ≠ []
  increasing : is.Pairwise fun i j =>
    i.address < j.address ∧ i.address.toNat + i.bytes.length ≤ j.address.toNat
  bytes_eq : ∀ i ∈ is, s.read? i.address i.bytes.length = some i.bytes
  total : extentOf is + skipped = s.bytes.length

namespace Tile

theorem mem_instructions {i : Instruction} {ts : List Tile} :
    i ∈ ts.filterMap instruction? ↔ .code i ∈ ts := by
  rw [List.mem_filterMap]
  constructor
  · rintro ⟨t, ht, hi⟩
    cases t with
    | code j =>
      cases hi
      exact ht
    | gap bs => cases hi
  · intro h
    exact ⟨_, h, rfl⟩

@[simp] theorem instructions_code (i : Instruction) (ts : List Tile) :
    (code i :: ts).filterMap instruction? = i :: ts.filterMap instruction? := rfl

@[simp] theorem instructions_gap (bs : List UInt8) (ts : List Tile) :
    (gap bs :: ts).filterMap instruction? = ts.filterMap instruction? := rfl

theorem instructions_map_code (is : List Instruction) :
    (is.map code).filterMap instruction? = is := by
  induction is with
  | nil => rfl
  | cons i is ih => rw [List.map_cons, instructions_code, ih]

theorem skippedOf_append (ts us : List Tile) :
    skippedOf (ts ++ us) = skippedOf ts + skippedOf us := by
  induction ts with
  | nil => simp [skippedOf]
  | cons t ts ih => rw [List.cons_append, skippedOf, ih, skippedOf, Nat.add_assoc]

theorem skippedOf_code (is : List Instruction) : skippedOf (is.map .code) = 0 := by
  induction is with
  | nil => rfl
  | cons i is ih => rw [List.map_cons, skippedOf, ih, skipped]

theorem extentOf_add_skippedOf (ts : List Tile) :
    extentOf (ts.filterMap instruction?) + skippedOf ts = (ts.flatMap Tile.bytes).length := by
  induction ts with
  | nil => rfl
  | cons t ts ih =>
    rw [List.flatMap_cons, List.length_append, ← ih, skippedOf]
    cases t with
    | code i =>
      rw [instructions_code, extentOf, skipped, Tile.bytes]
      omega
    | gap bs =>
      rw [instructions_gap, skipped, Tile.bytes]
      omega

section Row
variable {a : Address} {bs : List UInt8} {ts : List Tile} (h : Row a bs ts)
  (hfit : a.toNat + bs.length ≤ UInt64.size)
include h hfit

/-- The address of an instruction tells how many bytes lie in front of it. -/
theorem Row.toNat_address (front rest : List Tile) {i : Instruction}
    (hts : ts = front ++ .code i :: rest) :
    i.address.toNat = a.toNat + (front.flatMap Tile.bytes).length := by
  have hlaid := h.endToEnd
  rw [hts, endToEnd_append] at hlaid
  have haddress : i.address = a + UInt64.ofNat (front.flatMap Tile.bytes).length :=
    hlaid.2.1 i rfl
  have hpos : 0 < i.bytes.length := by
    refine List.length_pos_iff.mpr (h.nonempty i ?_)
    rw [hts]
    exact List.mem_append_right _ List.mem_cons_self
  have hlen : (front.flatMap Tile.bytes).length + i.bytes.length ≤ bs.length := by
    rw [← h.bytes_eq, hts, List.flatMap_append, List.flatMap_cons, List.length_append,
      List.length_append]
    exact Nat.add_le_add_left (Nat.le_add_right _ _) _
  unfold UInt64.size at hfit
  rw [haddress, UInt64.toNat_add, UInt64.toNat_ofNat']
  omega

theorem Row.bytes_at {i : Instruction} (hi : .code i ∈ ts) :
    a.toNat ≤ i.address.toNat ∧ i.address.toNat - a.toNat + i.bytes.length ≤ bs.length ∧
      (bs.drop (i.address.toNat - a.toNat)).take i.bytes.length = i.bytes := by
  obtain ⟨front, rest, hts⟩ := List.append_of_mem hi
  have haddress := h.toNat_address hfit front rest hts
  have hbs : bs = front.flatMap Tile.bytes ++ (i.bytes ++ rest.flatMap Tile.bytes) := by
    rw [← h.bytes_eq, hts, List.flatMap_append, List.flatMap_cons]
    rfl
  have hoffset : i.address.toNat - a.toNat = (front.flatMap Tile.bytes).length := by omega
  refine ⟨by omega, ?_, ?_⟩
  · rw [hoffset, hbs, List.length_append, List.length_append]
    omega
  · rw [hoffset, hbs, List.drop_left, List.take_left]

end Row

theorem Row.tail {a : Address} {bs : List UInt8} {t : Tile} {ts : List Tile}
    (h : Row a bs (t :: ts)) : Row (a + UInt64.ofNat t.bytes.length) (ts.flatMap Tile.bytes) ts :=
  ⟨rfl, h.endToEnd.2, fun i hi => h.nonempty i (List.mem_cons_of_mem t hi)⟩

theorem Row.pairwise {a : Address} {bs : List UInt8} {ts : List Tile} (h : Row a bs ts)
    (hfit : a.toNat + bs.length ≤ UInt64.size) : (ts.filterMap instruction?).Pairwise fun i j =>
      i.address < j.address ∧ i.address.toNat + i.bytes.length ≤ j.address.toNat := by
  induction ts generalizing a bs with
  | nil => exact List.Pairwise.nil
  | cons t ts ih =>
    have hlen : bs.length = t.bytes.length + (ts.flatMap Tile.bytes).length := by
      rw [← h.bytes_eq, List.flatMap_cons, List.length_append]
    have htail := ih h.tail (by rw [UInt64.toNat_add, UInt64.toNat_ofNat']; omega)
    cases t with
    | gap cs => exact htail
    | code i =>
      rw [instructions_code]
      refine List.pairwise_cons.mpr ⟨fun j hj => ?_, htail⟩
      obtain ⟨front, rest, rfl⟩ := List.append_of_mem (mem_instructions.mp hj)
      have hi := h.toNat_address hfit [] _ rfl
      have hj := h.toNat_address hfit (code i :: front) rest rfl
      have hpos := List.length_pos_iff.mpr (h.nonempty i List.mem_cons_self)
      rw [List.flatMap_cons, List.length_append, Tile.bytes] at hj
      simp only [List.flatMap_nil, List.length_nil, Nat.add_zero] at hi
      rw [UInt64.lt_iff_toNat_lt]
      omega

/-- **A row of tiles covers its segment.** -/
theorem Row.covers {s : Segment} {ts : List Tile} (h : Row s.address s.bytes ts)
    (hfit : s.address.toNat + s.bytes.length ≤ UInt64.size) :
    Covers s (ts.filterMap instruction?) (skippedOf ts) where
  nonempty i hi := h.nonempty i (mem_instructions.mp hi)
  increasing := h.pairwise hfit
  bytes_eq i hi := by
    obtain ⟨hle, hin, hbytes⟩ := h.bytes_at hfit (mem_instructions.mp hi)
    unfold Segment.read?
    rw [if_neg (by rw [UInt64.lt_iff_toNat_lt]; omega)]
    simp only [hin, if_true, hbytes]
  total := by rw [extentOf_add_skippedOf, h.bytes_eq]

end Tile

end FlowState.Machine
