import FlowState.Proofs.TiledSegments
import Mathlib.Algebra.Order.Ring.Nat
import Mathlib.Data.List.Forall2

/-! # The turns of a sweep

A sweep takes one segment after another, and in a segment it asks the disassembler again and again
(`Progress.turn`). It goes on behind the last instruction that it got, at the offset that the
address of this instruction gives back (`offsetBehind_eq`), or a step further if it got none. Every
turn that leaves room in the budget puts out tiles and comes to a larger offset (`turn_lays`). So
the turns in a segment end, there are never more of them than bytes (`ends_segment`), and without a
budget they put out a row of tiles of the whole segment (`Ends.exists_row`).

With a budget the turns are the same until it is used up, and then there are no more of them. So
what is put out is cut off behind so many instructions (`Cut`), whatever the disassembler does. -/

namespace FlowState.Machine

open Progress

/-! ### Offsets -/

theorem address_last {a : Address} {is : List Instruction} {l : Instruction}
    (h : EndToEnd a (is ++ [l])) : l.address = a + UInt64.ofNat (extentOf is) := by
  induction is generalizing a with
  | nil =>
    rw [h.1]
    simp [extentOf]
  | cons i is ih => rw [ih h.2, advance_advance, extentOf]

/-- **The address of the last instruction gives back the offset** that was reached. -/
theorem offsetBehind_eq {s : Segment} {offset : Nat} {is : List Instruction} (hne : is ≠ [])
    (hbytes : ∀ i ∈ is, i.bytes ≠ []) (h : EndToEnd (s.address + UInt64.ofNat offset) is)
    (hfit : offset + extentOf is ≤ UInt64.size) : offsetBehind s is = offset + extentOf is := by
  obtain ⟨front, l, rfl⟩ := (List.eq_nil_or_concat' is).resolve_left hne
  have hextent : extentOf (front ++ [l]) = extentOf front + l.bytes.length := by
    simp [extentOf_eq]
  have hpos := List.length_pos_iff.mpr (hbytes l (by simp))
  have hback : l.address - s.address = UInt64.ofNat (offset + extentOf front) := by
    rw [address_last h, advance_advance, UInt64.add_comm, UInt64.add_sub_cancel]
  have hlt : offset + extentOf front < UInt64.size := by omega
  unfold offsetBehind
  rw [List.getLast?_concat, Option.map_some, Option.getD_some, hback,
    UInt64.toNat_ofNat_of_lt' hlt, hextent, Nat.add_assoc]

/-! ### One turn -/

section Turn
variable {run : Address → List UInt8 → List Instruction} {step : Nat} {budget : Option Nat}
  {s : Segment} {p : Progress}

theorem turn_eq_none : turn run step budget s p = none ↔
    ¬ (p.offset < s.bytes.length ∧ hasRoom budget p.instructions.length = true) := by
  unfold turn
  split_ifs with h
  · refine iff_of_false ?_ (not_not.mpr h)
    split <;> exact Option.some_ne_none _
  · exact iff_of_true rfl h

theorem turn_gap (h : p.offset < s.bytes.length ∧ hasRoom budget p.instructions.length = true)
    (hrun : run (s.address + UInt64.ofNat p.offset) (s.bytes.drop p.offset) = []) :
    turn run step budget s p = some { p with
      offset := p.offset + min step (s.bytes.length - p.offset)
      skipped := p.skipped + min step (s.bytes.length - p.offset) } := by
  unfold turn
  rw [if_pos h, hrun]

theorem turn_code (h : p.offset < s.bytes.length ∧ hasRoom budget p.instructions.length = true)
    {is : List Instruction} (hne : is ≠ [])
    (hrun : run (s.address + UInt64.ofNat p.offset) (s.bytes.drop p.offset) = is) :
    turn run step budget s p = some { p with
      offset := offsetBehind s (taken budget p.instructions.length is)
      instructions := p.instructions ++ taken budget p.instructions.length is } := by
  obtain ⟨i, is, rfl⟩ := List.exists_cons_of_ne_nil hne
  unfold turn
  rw [if_pos h, hrun]

/-- The budget takes all of a row, or it is used up. -/
theorem taken_or_full (budget : Option Nat) (out is : List Instruction) :
    taken budget out.length is = is ∨
      ¬ hasRoom budget (out ++ taken budget out.length is).length = true := by
  cases budget with
  | none => exact Or.inl rfl
  | some n =>
    simp only [taken, hasRoom, decide_eq_true_eq, List.length_append, List.length_take]
    rcases Nat.lt_or_ge (n - out.length) is.length with hlt | hge
    · right
      omega
    · left
      exact List.take_of_length_le hge

/-- A turn puts out instructions behind those that are there, and passes over bytes. -/
theorem turn_grows {q : Progress} (h : turn run step budget s p = some q) :
    ∃ is n, q.instructions = p.instructions ++ is ∧ q.skipped = p.skipped + n := by
  have hturn : p.offset < s.bytes.length ∧ hasRoom budget p.instructions.length = true := by
    by_contra hno
    rw [turn_eq_none.mpr hno] at h
    cases h
  by_cases hrun : run (s.address + UInt64.ofNat p.offset) (s.bytes.drop p.offset) = []
  · cases (turn_gap hturn hrun).symm.trans h
    exact ⟨[], _, (List.append_nil _).symm, rfl⟩
  · cases (turn_code hturn hrun rfl).symm.trans h
    exact ⟨_, 0, rfl, rfl⟩

end Turn

/-! ### Tiles that are put out -/

/-- **Tiles are put out** from one standing in a segment to another: they lie end to end from the
first offset on, and their bytes are those up to the second one. -/
structure Lays (s : Segment) (p : Progress) (ts : List Tile) (q : Progress) : Prop where
  endToEnd : Tile.EndToEnd (s.address + UInt64.ofNat p.offset) ts
  nonempty : ∀ i, .code i ∈ ts → i.bytes ≠ []
  bytes_eq : s.bytes.drop p.offset = ts.flatMap Tile.bytes ++ s.bytes.drop q.offset
  offset_eq : q.offset = p.offset + (ts.flatMap Tile.bytes).length
  instructions_eq : q.instructions = p.instructions ++ ts.filterMap Tile.instruction?
  skipped_eq : q.skipped = p.skipped + Tile.skippedOf ts

section Lays
variable {s : Segment}

theorem Lays.refl (p : Progress) : Lays s p [] p where
  endToEnd := trivial
  nonempty _ h := by cases h
  bytes_eq := rfl
  offset_eq := rfl
  instructions_eq := (List.append_nil _).symm
  skipped_eq := rfl

theorem Lays.trans {p q r : Progress} {ts us : List Tile} (h : Lays s p ts q)
    (h' : Lays s q us r) : Lays s p (ts ++ us) r where
  endToEnd := by
    have hrest := h'.endToEnd
    rw [h.offset_eq, ← advance_advance] at hrest
    exact Tile.endToEnd_append.mpr ⟨h.endToEnd, hrest⟩
  nonempty i hi := (List.mem_append.mp hi).elim (h.nonempty i) (h'.nonempty i)
  bytes_eq := by rw [h.bytes_eq, h'.bytes_eq, List.flatMap_append, List.append_assoc]
  offset_eq := by
    rw [h'.offset_eq, h.offset_eq, List.flatMap_append, List.length_append, Nat.add_assoc]
  instructions_eq := by
    rw [h'.instructions_eq, h.instructions_eq, List.filterMap_append, List.append_assoc]
  skipped_eq := by rw [h'.skipped_eq, h.skipped_eq, Tile.skippedOf_append, Nat.add_assoc]

/-- From the front of a segment to its end, all of its bytes are tiled. -/
theorem Lays.row {p q : Progress} {ts : List Tile} (h : Lays s p ts q) (hp : p.offset = 0)
    (hq : s.bytes.length ≤ q.offset) : Tile.Row s.address s.bytes ts where
  bytes_eq := by
    have hbytes := h.bytes_eq
    rw [hp, List.drop_zero, List.drop_of_length_le hq, List.append_nil] at hbytes
    exact hbytes.symm
  endToEnd := by
    have hlaid := h.endToEnd
    rwa [hp, show s.address + UInt64.ofNat 0 = s.address from UInt64.add_zero _] at hlaid
  nonempty := h.nonempty

theorem lays_gap (p : Progress) (n : Nat) (hn : n ≤ s.bytes.length - p.offset) :
    Lays s p [.gap ((s.bytes.drop p.offset).take n)]
      { p with offset := p.offset + n, skipped := p.skipped + n } := by
  have hlen : ((s.bytes.drop p.offset).take n).length = n := by
    rw [List.length_take_of_le (by rwa [List.length_drop])]
  refine ⟨⟨fun i hi => absurd hi (Option.not_mem_none i), trivial⟩, fun i hi => by simp at hi, ?_,
    ?_, (List.append_nil _).symm, ?_⟩
  · rw [List.flatMap_singleton, Tile.bytes, ← List.drop_drop, List.take_append_drop]
  · rw [List.flatMap_singleton, Tile.bytes, hlen]
  · rw [Tile.skippedOf, Tile.skippedOf, Tile.skipped, hlen, Nat.add_zero]

theorem lays_code {p : Progress} {is : List Instruction}
    (h : Leads (s.address + UInt64.ofNat p.offset) (s.bytes.drop p.offset) is) :
    Lays s p (is.map .code)
      { p with offset := p.offset + extentOf is, instructions := p.instructions ++ is } := by
  have hbytes : (is.map Tile.code).flatMap Tile.bytes = is.flatMap (·.bytes) :=
    Tile.flatMap_bytes_code is
  refine ⟨Tile.endToEnd_code.mpr h.endToEnd, fun i hi => ?_, ?_, ?_, ?_, ?_⟩
  · obtain ⟨j, hj, hij⟩ := List.mem_map.mp hi
    cases hij
    exact h.nonempty _ hj
  · obtain ⟨rest, hrest⟩ := h.atFront
    rw [hbytes, ← List.drop_drop, ← hrest, extentOf_eq, List.drop_left]
  · rw [hbytes, extentOf_eq]
  · rw [Tile.instructions_map_code]
  · rw [Tile.skippedOf_code, Nat.add_zero]

end Lays

section Advance
variable {run : Address → List UInt8 → List Instruction} {step : Nat} {budget : Option Nat}
  {s : Segment} (hrun : Disassembles run) (hstep : 0 < step)
  (hlen : s.bytes.length ≤ UInt64.size)
include hrun hstep hlen

/-- **A turn goes on in the segment** with the tiles that it puts out, or it uses up the budget. -/
theorem turn_lays {p q : Progress} (h : turn run step budget s p = some q) :
    (p.offset < q.offset ∧ ∃ ts, Lays s p ts q) ∨
      hasRoom budget q.instructions.length = false := by
  have hturn : p.offset < s.bytes.length ∧ hasRoom budget p.instructions.length = true := by
    by_contra hno
    rw [turn_eq_none.mpr hno] at h
    cases h
  have hleads := hrun (s.address + UInt64.ofNat p.offset) (s.bytes.drop p.offset)
  by_cases hnone : run (s.address + UInt64.ofNat p.offset) (s.bytes.drop p.offset) = []
  · cases (turn_gap hturn hnone).symm.trans h
    refine Or.inl ⟨?_, _, lays_gap p _ (Nat.min_le_right _ _)⟩
    have hpos : 0 < min step (s.bytes.length - p.offset) := by omega
    exact Nat.lt_add_of_pos_right hpos
  · cases (turn_code hturn hnone rfl).symm.trans h
    generalize run (s.address + UInt64.ofNat p.offset) (s.bytes.drop p.offset) = is at *
    rcases taken_or_full budget p.instructions is with hall | hfull
    · -- all of the row is taken, so its last address gives back the offset behind it
      have hextent : extentOf is ≤ s.bytes.length - p.offset := by
        rw [extentOf_eq, ← List.length_drop]
        exact hleads.atFront.length_le
      have hpos : 0 < extentOf is := by
        obtain ⟨i, is, rfl⟩ := List.exists_cons_of_ne_nil hnone
        have hi := List.length_pos_iff.mpr (hleads.nonempty i List.mem_cons_self)
        rw [extentOf]
        omega
      rw [hall, offsetBehind_eq hnone hleads.nonempty hleads.endToEnd (by omega)]
      exact Or.inl ⟨Nat.lt_add_of_pos_right hpos, _, lays_code hleads⟩
    · exact Or.inr (Bool.eq_false_iff.mpr hfull)

end Advance

/-! ### The turns in a segment -/

/-- **The turns in a segment end** after so many of them. -/
inductive Ends (run : Address → List UInt8 → List Instruction) (step : Nat) (budget : Option Nat)
    (s : Segment) : Progress → Nat → Progress → Prop where
  | done {p : Progress} (h : turn run step budget s p = none) : Ends run step budget s p 0 p
  | turn {p q r : Progress} {k : Nat} (h : turn run step budget s p = some q)
      (rest : Ends run step budget s q k r) : Ends run step budget s p (k + 1) r

section Ends
variable {run : Address → List UInt8 → List Instruction} {step : Nat} {budget : Option Nat}
  {s : Segment}

/-- A bound on the turns that is large enough does not show. -/
theorem Ends.turns_eq {p q : Progress} {k : Nat} (h : Ends run step budget s p k q) {fuel : Nat}
    (hk : k ≤ fuel) : turns run step budget s fuel p = q := by
  induction h generalizing fuel with
  | @done p hnone =>
    cases fuel with
    | zero => rfl
    | succ fuel => rw [turns, hnone]
  | turn hsome _ ih =>
    obtain ⟨fuel, rfl⟩ := Nat.exists_eq_add_of_lt (Nat.lt_of_lt_of_le (Nat.succ_pos _) hk)
    rw [Nat.zero_add] at hk ⊢
    rw [turns, hsome]
    exact ih (Nat.le_of_succ_le_succ hk)

section Advance
variable (hrun : Disassembles run) (hstep : 0 < step) (hlen : s.bytes.length ≤ UInt64.size)
include hrun hstep hlen

/-- **Every segment is left**, after no more turns than there are bytes. -/
theorem exists_ends (budget : Option Nat) (p : Progress) :
    ∃ k ≤ s.bytes.length - p.offset, ∃ q, Ends run step budget s p k q := by
  -- the offset grows with every turn, up to the end of the segment
  induction hn : s.bytes.length - p.offset using Nat.strong_induction_on generalizing p with
  | _ n ih =>
    cases hturn : turn run step budget s p with
    | none => exact ⟨0, Nat.zero_le _, p, .done hturn⟩
    | some q =>
      have hlt : p.offset < s.bytes.length := by
        by_contra hno
        rw [turn_eq_none.mpr fun h => hno h.1] at hturn
        cases hturn
      rcases turn_lays hrun hstep hlen hturn with ⟨hgrow, -⟩ | hfull
      · obtain ⟨k, hk, r, hends⟩ := ih (s.bytes.length - q.offset) (by omega) q rfl
        exact ⟨k + 1, by omega, r, .turn hturn hends⟩
      · have hstop : turn run step budget s q = none :=
          turn_eq_none.mpr fun h => Bool.eq_false_iff.mp hfull h.2
        exact ⟨1, by omega, q, .turn hturn (.done hstop)⟩

/-- **The sweep of a segment** is what its turns come to. -/
theorem ends_segment (budget : Option Nat) (p : Progress) : ∃ k ≤ s.bytes.length,
    Ends run step budget s { p with offset := 0 } k (Progress.segment run step budget p s) := by
  obtain ⟨k, hk, q, hends⟩ := exists_ends hrun hstep hlen budget { p with offset := 0 }
  have hk : k ≤ s.bytes.length := hk
  refine ⟨k, hk, ?_⟩
  rw [Progress.segment, hends.turns_eq hk]
  exact hends

omit hstep in
/-- Without a budget the turns put out tiles up to the end of the segment. -/
theorem Ends.exists_lays {p q : Progress} {k : Nat} (h : Ends run step none s p k q)
    (hstep : 0 < step) : s.bytes.length ≤ q.offset ∧ ∃ ts, Lays s p ts q := by
  induction h with
  | @done p hnone =>
    have hend : s.bytes.length ≤ p.offset := by
      by_contra hlt
      exact turn_eq_none.mp hnone ⟨Nat.not_le.mp hlt, rfl⟩
    exact ⟨hend, [], .refl p⟩
  | turn hsome _ ih =>
    obtain ⟨hend, us, hus⟩ := ih
    rcases turn_lays hrun hstep hlen hsome with ⟨-, ts, hts⟩ | hfull
    · exact ⟨hend, ts ++ us, hts.trans hus⟩
    · cases hfull

end Advance

variable (run step budget s) in
theorem turns_grows (fuel : Nat) (p : Progress) :
    ∃ is n, (turns run step budget s fuel p).instructions = p.instructions ++ is ∧
      (turns run step budget s fuel p).skipped = p.skipped + n := by
  induction fuel generalizing p with
  | zero => exact ⟨[], 0, (List.append_nil _).symm, rfl⟩
  | succ fuel ih =>
    rw [turns]
    cases hturn : turn run step budget s p with
    | none => exact ⟨[], 0, (List.append_nil _).symm, rfl⟩
    | some q =>
      obtain ⟨is, m, his, hm⟩ := turn_grows hturn
      obtain ⟨js, n, hjs, hn⟩ := ih q
      refine ⟨is ++ js, m + n, ?_, ?_⟩
      · rw [← List.append_assoc, ← his]
        exact hjs
      · rw [← Nat.add_assoc, ← hm]
        exact hn

end Ends

/-! ### The budget -/

/-- **The second standing is the first one under a budget**: the same as long as the budget is not
used up, and from then on cut off behind so many instructions. -/
def Cut (n : Nat) (p q : Progress) : Prop :=
  (p.instructions.length < n ∧ q = p) ∨
    (n ≤ p.instructions.length ∧ q.instructions = p.instructions.take n)

section Cut
variable {run : Address → List UInt8 → List Instruction} {step n : Nat} {s : Segment}
  {p q : Progress}

theorem Cut.instructions_eq (h : Cut n p q) : q.instructions = p.instructions.take n := by
  rcases h with ⟨hlt, rfl⟩ | ⟨-, heq⟩
  · exact (List.take_of_length_le hlt.le).symm
  · exact heq

/-- A budget that is used up allows no more turns. -/
theorem turns_of_full (hle : n ≤ p.instructions.length)
    (heq : q.instructions = p.instructions.take n) (fuel : Nat) :
    turns run step (some n) s fuel q = q := by
  have hstop : turn run step (some n) s q = none := by
    refine turn_eq_none.mpr fun h => ?_
    have hroom : q.instructions.length < n := of_decide_eq_true h.2
    rw [heq, List.length_take] at hroom
    omega
  cases fuel with
  | zero => rfl
  | succ fuel => rw [turns, hstop]

/-- A turn below the budget is the same with it, unless it uses it up. -/
theorem cut_turn {p' : Progress} (hlt : p.instructions.length < n)
    (h : turn run step none s p = some p') :
    ∃ q', turn run step (some n) s p = some q' ∧ Cut n p' q' := by
  have hoffset : p.offset < s.bytes.length := by
    by_contra hno
    rw [turn_eq_none.mpr fun h => hno h.1] at h
    cases h
  have hfree : p.offset < s.bytes.length ∧ hasRoom none p.instructions.length = true :=
    ⟨hoffset, rfl⟩
  have hroom : p.offset < s.bytes.length ∧ hasRoom (some n) p.instructions.length = true :=
    ⟨hoffset, decide_eq_true hlt⟩
  by_cases hnone : run (s.address + UInt64.ofNat p.offset) (s.bytes.drop p.offset) = []
  · cases (turn_gap hfree hnone).symm.trans h
    exact ⟨_, turn_gap hroom hnone, Or.inl ⟨hlt, rfl⟩⟩
  · cases (turn_code hfree hnone rfl).symm.trans h
    refine ⟨_, turn_code hroom hnone rfl, ?_⟩
    generalize run (s.address + UInt64.ofNat p.offset) (s.bytes.drop p.offset) = is
    simp only [taken, Cut, List.length_append]
    rcases Nat.lt_or_ge (p.instructions.length + is.length) n with hless | hge
    · rw [List.take_of_length_le (by omega)]
      exact Or.inl ⟨hless, rfl⟩
    · rw [List.take_append, List.take_of_length_le hlt.le]
      exact Or.inr ⟨hge, rfl⟩

theorem Cut.turns (h : Cut n p q) (fuel : Nat) :
    Cut n (turns run step none s fuel p) (turns run step (some n) s fuel q) := by
  induction fuel generalizing p q with
  | zero => exact h
  | succ fuel ih =>
    rcases h with ⟨hlt, rfl⟩ | ⟨hle, heq⟩
    · rw [Progress.turns, Progress.turns]
      cases hturn : turn run step none s q with
      | none =>
        have hstop : turn run step (some n) s q = none :=
          turn_eq_none.mpr fun h => turn_eq_none.mp hturn ⟨h.1, rfl⟩
        rw [hstop]
        exact Or.inl ⟨hlt, rfl⟩
      | some p' =>
        obtain ⟨q', hq', hcut⟩ := cut_turn hlt hturn
        rw [hq']
        exact ih hcut
    · rw [turns_of_full hle heq]
      obtain ⟨is, -, his, -⟩ := turns_grows run step none s (fuel + 1) p
      refine Or.inr ⟨?_, ?_⟩
      · rw [his, List.length_append]
        omega
      · rw [his, List.take_append_of_le_length hle]
        exact heq

theorem Cut.segment (h : Cut n p q) (s : Segment) :
    Cut n (Progress.segment run step none p s) (Progress.segment run step (some n) q s) := by
  have hfront : Cut n { p with offset := 0 } { q with offset := 0 } := by
    rcases h with ⟨hlt, rfl⟩ | h
    · exact Or.inl ⟨hlt, rfl⟩
    · exact Or.inr h
  exact hfront.turns s.bytes.length

theorem Cut.foldl (h : Cut n p q) (code : List Segment) :
    Cut n (code.foldl (Progress.segment run step none) p)
      (code.foldl (Progress.segment run step (some n)) q) := by
  induction code generalizing p q with
  | nil => exact h
  | cons s code ih => exact ih (h.segment s)

theorem cut_start (n : Nat) : Cut n ⟨0, [], 0⟩ ⟨0, [], 0⟩ := by
  rcases Nat.eq_zero_or_pos n with rfl | hpos
  · exact Or.inr ⟨Nat.le_refl 0, rfl⟩
  · exact Or.inl ⟨hpos, rfl⟩

end Cut

/-! ### The turns in all segments -/

/-- **The turns in the executable segments**, one segment after another, and how many they are. -/
inductive Through (run : Address → List UInt8 → List Instruction) (step : Nat)
    (budget : Option Nat) : List Segment → Progress → Nat → Progress → Prop where
  | done (p : Progress) : Through run step budget [] p 0 p
  | code {s : Segment} {rest : List Segment} {p q r : Progress} {k m : Nat}
      (hs : s.executable = true) (here : Ends run step budget s { p with offset := 0 } k q)
      (after : Through run step budget rest q m r) : Through run step budget (s :: rest) p (k + m) r
  | data {s : Segment} {rest : List Segment} {p r : Progress} {m : Nat}
      (hs : s.executable = false) (after : Through run step budget rest p m r) :
      Through run step budget (s :: rest) p m r

/-- The number of executable bytes. -/
def codeSize (segments : List Segment) : Nat :=
  ((segments.filter (·.executable)).flatMap (·.bytes)).length

/-- **What comes out of segments**: one part for each of them. The part of an executable segment
covers it if it lies in front of the end of the address space, and that of another one is empty. -/
def Tiled (segments : List Segment) (d : Decoded) : Prop :=
  ∃ parts : List (List Instruction × Nat),
    List.Forall₂ (fun s part =>
      (s.executable = true → s.address.toNat + s.bytes.length ≤ UInt64.size →
        Covers s part.1 part.2) ∧ (s.executable = false → part = ([], 0))) segments parts ∧
    d.instructions = parts.flatMap (·.1) ∧ d.skipped = (parts.map (·.2)).sum

/-- **A sweep of segments**, by the budget. It stops nowhere before the end, the turns come to its
result, without a budget it covers the executable segments, and with one it is cut off behind so
many instructions. For the turns, the length of a segment has to be a number of the machine. -/
structure Sweeps (run : Address → List UInt8 → List Instruction) (step : Nat)
    (segments : List Segment) (decoded : Option Nat → Decoded) : Prop where
  faultless : ∀ budget, (decoded budget).fault = none
  ends : (∀ s ∈ segments, s.executable = true → s.bytes.length ≤ UInt64.size) →
    ∀ budget, ∃ k ≤ codeSize segments, ∃ offset, Through run step budget segments ⟨0, [], 0⟩ k
      ⟨offset, (decoded budget).instructions, (decoded budget).skipped⟩
  tiled : Tiled segments (decoded none)
  budgeted : ∀ n, (decoded (some n)).instructions = (decoded none).instructions.take n

section Sweep
variable {run : Address → List UInt8 → List Instruction} {step : Nat} (hrun : Disassembles run)
  (hstep : 0 < step)
include hrun hstep

theorem exists_through (budget : Option Nat) {segments : List Segment}
    (hlen : ∀ s ∈ segments, s.executable = true → s.bytes.length ≤ UInt64.size) (p : Progress) :
    ∃ k ≤ codeSize segments, Through run step budget segments p k
      ((segments.filter (·.executable)).foldl (Progress.segment run step budget) p) := by
  induction segments generalizing p with
  | nil => exact ⟨0, Nat.zero_le _, .done p⟩
  | cons s rest ih =>
    obtain ⟨hs, hrest⟩ := List.forall_mem_cons.mp hlen
    cases hexec : s.executable with
    | true =>
      obtain ⟨k, hk, hends⟩ := ends_segment hrun hstep (hs hexec) budget p
      obtain ⟨m, hm, hthrough⟩ := ih hrest (Progress.segment run step budget p s)
      unfold codeSize at hm ⊢
      rw [List.filter_cons_of_pos (by simpa using hexec)]
      refine ⟨k + m, ?_, .code hexec hends hthrough⟩
      rw [List.flatMap_cons, List.length_append]
      omega
    | false =>
      obtain ⟨m, hm, hthrough⟩ := ih hrest p
      unfold codeSize at hm ⊢
      rw [List.filter_cons_of_neg (by simpa using hexec)]
      exact ⟨m, hm, .data hexec hthrough⟩

/-- **One part for a segment**, whatever was put out before. -/
theorem exists_part (p : Progress) (s : Segment) : ∃ part : List Instruction × Nat,
    (s.address.toNat + s.bytes.length ≤ UInt64.size → Covers s part.1 part.2) ∧
    (Progress.segment run step none p s).instructions = p.instructions ++ part.1 ∧
    (Progress.segment run step none p s).skipped = p.skipped + part.2 := by
  by_cases hfit : s.address.toNat + s.bytes.length ≤ UInt64.size
  · have hlen : s.bytes.length ≤ UInt64.size := Nat.le_trans (Nat.le_add_left _ _) hfit
    obtain ⟨k, -, hends⟩ := ends_segment hrun hstep hlen none p
    obtain ⟨hend, ts, hts⟩ := hends.exists_lays hrun hlen hstep
    exact ⟨(ts.filterMap Tile.instruction?, Tile.skippedOf ts),
      fun _ => (hts.row rfl hend).covers hfit, hts.instructions_eq, hts.skipped_eq⟩
  · obtain ⟨is, n, his, hn⟩ := turns_grows run step none s s.bytes.length { p with offset := 0 }
    exact ⟨(is, n), fun h => absurd h hfit, his, hn⟩

theorem exists_parts (segments : List Segment) (p : Progress) :
    ∃ parts : List (List Instruction × Nat),
      List.Forall₂ (fun s part =>
        (s.executable = true → s.address.toNat + s.bytes.length ≤ UInt64.size →
          Covers s part.1 part.2) ∧ (s.executable = false → part = ([], 0))) segments parts ∧
      ((segments.filter (·.executable)).foldl (Progress.segment run step none) p).instructions =
        p.instructions ++ parts.flatMap (·.1) ∧
      ((segments.filter (·.executable)).foldl (Progress.segment run step none) p).skipped =
        p.skipped + (parts.map (·.2)).sum := by
  induction segments generalizing p with
  | nil => exact ⟨[], .nil, (List.append_nil _).symm, rfl⟩
  | cons s rest ih =>
    cases hexec : s.executable with
    | true =>
      obtain ⟨part, hcovers, hinstructions, hskipped⟩ := exists_part hrun hstep p s
      obtain ⟨parts, hparts, his, hn⟩ := ih (Progress.segment run step none p s)
      rw [List.filter_cons_of_pos (by simpa using hexec), List.foldl_cons]
      refine ⟨part :: parts,
        .cons ⟨fun _ => hcovers, fun hdata => by cases hexec.symm.trans hdata⟩ hparts, ?_, ?_⟩
      · rw [his, hinstructions, List.flatMap_cons, List.append_assoc]
      · rw [hn, hskipped, List.map_cons, List.sum_cons, Nat.add_assoc]
    | false =>
      obtain ⟨parts, hparts, his, hn⟩ := ih p
      rw [List.filter_cons_of_neg (by simpa using hexec)]
      have hdata : s.executable ≠ true := Bool.eq_false_iff.mp hexec
      refine ⟨([], 0) :: parts,
        .cons ⟨fun hcode => absurd hcode hdata, fun _ => rfl⟩ hparts, his, ?_⟩
      rw [hn, List.map_cons, List.sum_cons, Nat.zero_add]

theorem sweeps_sweep (segments : List Segment) :
    Sweeps run step segments (sweep run step (segments.filter (·.executable))) where
  faultless _ := rfl
  ends hlen budget := by
    obtain ⟨k, hk, hthrough⟩ := exists_through hrun hstep budget hlen ⟨0, [], 0⟩
    exact ⟨k, hk, _, hthrough⟩
  tiled := by
    obtain ⟨parts, hparts, his, hn⟩ := exists_parts hrun hstep segments ⟨0, [], 0⟩
    exact ⟨parts, hparts, his, hn.trans (Nat.zero_add _)⟩
  budgeted n := ((cut_start n).foldl _).instructions_eq

end Sweep

theorem step_pos {a : Architecture} {set : InstructionSet} (h : instructionSet? a = some set) :
    0 < set.step := by
  cases a <;> cases h <;> decide

/-- **Decoding tiles the executable memory**, by whichever disassembler: an image is refused for its
architecture, whatever the budget, or its executable segments are swept. -/
theorem decode_tiles_memory {disassemble : InstructionSet → Address → List UInt8 → List Instruction}
    (h : ∀ set, Disassembles (disassemble set)) (i : Image) :
    (instructionSet? i.architecture = none ∧
      ∃ e, ∀ budget, decodeWith disassemble i budget = .error e) ∨
    ∃ set decoded, instructionSet? i.architecture = some set ∧
      (∀ budget, decodeWith disassemble i budget = .ok (decoded budget)) ∧
      Sweeps (disassemble set) set.step i.segments decoded := by
  unfold decodeWith
  cases hset : instructionSet? i.architecture with
  | none => exact .inl ⟨rfl, _, fun _ => rfl⟩
  | some set =>
    exact .inr ⟨set, _, rfl, fun _ => rfl, sweeps_sweep (h set) (step_pos hset) i.segments⟩

/-! ### Two segments -/

namespace TwoSegments

/-- Two bytes in the middle of the first segment are no instruction, and the second segment ends
where the address space ends. Data lies between them. -/
def image : Image where
  path := ⟨"/p/fw.elf"⟩
  architecture := .x86x64
  entry := some 0x1000
  segments := [⟨".text", 0x1000, [0x31, 0xc0, 0x06, 0x06, 0xc3], true⟩,
    ⟨".data", 0x2000, [0xc3], false⟩, ⟨".last", 0xffffffffffffffff, [0xc3], true⟩]
  symbols := []
  listing := []

/-- The disassembler of the instruction set is one, and the image is swept by it. -/
theorem image_tiled : (∀ set : InstructionSet, Disassembles set.disassemble) ∧
    ∃ set decoded, instructionSet? image.architecture = some set ∧
      (∀ budget, decode image budget = .ok (decoded budget)) ∧
      Sweeps set.disassemble set.step image.segments decoded :=
  ⟨disassembles_disassemble, (decode_tiles_memory disassembles_disassemble image).resolve_left
    fun h => Option.some_ne_none _ h.1⟩

example : (decode image (some 2)).toOption.map
    (fun d => (d.instructions.map (·.address), d.skipped)) = some ([0x1000, 0x1004], 2) := by
  decide +kernel

end TwoSegments

end FlowState.Machine
