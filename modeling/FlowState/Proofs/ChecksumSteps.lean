import FlowState.State.Checksum
import Mathlib.Data.UInt

/-! # The register of the checksum

A bit step is linear in exclusive or (`bitStep_xor`), and it loses nothing: the polynomial has its
highest bit set, so the highest bit behind the step tells the bit that was shifted out
(`bitStep_injective`). A step through the table is eight bit steps of the register with the byte
added to it (`byteStep_eq`), since the bits above the lowest eight are only shifted
(`bitSteps_of_clear`). So a byte step tells both the register and the byte in front of it, if the
other one is known (`byteStep_injective_register`, `byteStep_injective_byte`). -/

namespace FlowState.Checksum

/-! ### One bit -/

/-- A bit of the register. -/
def bit (x : UInt32) (k : Nat) : Bool := x.toBitVec.getLsbD k

/-- What is added for the bit that is shifted out. -/
def feedback (b : Bool) : UInt32 := if b then polynomial else 0

theorem bit_xor (x y : UInt32) (k : Nat) : bit (x ^^^ y) k = (bit x k ^^ bit y k) := by
  simp [bit]

theorem eq_zero_of_bits {x : UInt32} (h : ∀ k < 32, bit x k = false) : x = 0 := by
  refine UInt32.toBitVec_inj.mp (BitVec.eq_of_getLsbD_eq fun k hk => ?_)
  have := h k hk
  unfold bit at this
  simpa using this

theorem bit_shiftRight_one (x : UInt32) (k : Nat) : bit (x >>> 1) k = bit x (1 + k) := by
  unfold bit
  rw [UInt32.toBitVec_shiftRight]
  simp

theorem and_one (x : UInt32) : (x &&& 1 != 0) = bit x 0 := by
  have hand : (x &&& 1).toNat = x.toNat % 2 := by
    rw [UInt32.toNat_and]
    exact Nat.and_one_is_mod _
  have hbit : bit x 0 = decide (x.toNat % 2 = 1) := Nat.testBit_zero _
  rw [hbit, Bool.eq_iff_iff, bne_iff_ne, decide_eq_true_eq, Ne, ← UInt32.toNat_inj, hand,
    UInt32.toNat_zero]
  omega

theorem bitStep_eq (x : UInt32) : bitStep x = x >>> 1 ^^^ feedback (bit x 0) := by
  unfold bitStep feedback
  rw [and_one]
  split <;> simp

theorem feedback_xor (b c : Bool) : feedback (b ^^ c) = feedback b ^^^ feedback c := by
  cases b <;> cases c <;> decide

theorem bitStep_xor (x y : UInt32) : bitStep (x ^^^ y) = bitStep x ^^^ bitStep y := by
  rw [bitStep_eq, bitStep_eq, bitStep_eq, bit_xor, feedback_xor, UInt32.shiftRight_xor]
  ac_rfl

/-- The highest bit behind a step is the bit that is shifted out. -/
theorem bit_bitStep_top (x : UInt32) : bit (bitStep x) 31 = bit x 0 := by
  have htop : bit (x >>> 1) 31 = false := by
    rw [bit_shiftRight_one]
    simp [bit]
  have hfeed : ∀ b, bit (feedback b) 31 = b := by decide
  rw [bitStep_eq, bit_xor, htop, hfeed, Bool.false_xor]

theorem eq_zero_of_bitStep {x : UInt32} (h : bitStep x = 0) : x = 0 := by
  have hlow : bit x 0 = false := by
    rw [← bit_bitStep_top, h]
    rfl
  have hhigh : x >>> 1 = 0 := by
    rw [bitStep_eq, hlow] at h
    simpa [feedback] using h
  refine eq_zero_of_bits fun k hk => ?_
  cases k with
  | zero => exact hlow
  | succ k =>
    rw [Nat.add_comm, ← bit_shiftRight_one, hhigh]
    simp [bit]

/-- **A bit step loses nothing.** -/
theorem bitStep_injective : Function.Injective bitStep := by
  intro x y h
  refine UInt32.xor_eq_zero_iff.mp (eq_zero_of_bitStep ?_)
  rw [bitStep_xor, h, UInt32.xor_self]

/-! ### Some bits -/

theorem bitSteps_xor (n : Nat) (x y : UInt32) :
    bitSteps n (x ^^^ y) = bitSteps n x ^^^ bitSteps n y := by
  induction n generalizing x y with
  | zero => rfl
  | succ n ih => rw [bitSteps, bitStep_xor, ih, bitSteps, bitSteps]

theorem bitSteps_injective (n : Nat) : Function.Injective (bitSteps n) := by
  induction n with
  | zero => exact Function.injective_id
  | succ n ih => exact ih.comp bitStep_injective

/-- Bits above those that are shifted out are only shifted. -/
theorem bitSteps_of_clear {n : Nat} {x : UInt32} (h : ∀ k < n, bit x k = false) :
    (bitSteps n x).toBitVec = x.toBitVec >>> n := by
  induction n generalizing x with
  | zero => simp [bitSteps]
  | succ n ih =>
    have hstep : bitStep x = x >>> 1 := by
      rw [bitStep_eq, h 0 (Nat.succ_pos n)]
      simp [feedback]
    have hclear : ∀ k < n, bit (x >>> 1) k = false := by
      intro k hk
      rw [bit_shiftRight_one]
      exact h (1 + k) (by omega)
    rw [bitSteps, hstep, ih hclear, UInt32.toBitVec_shiftRight, Nat.add_comm,
      BitVec.shiftRight_add]
    rfl

theorem bit_low (k : Nat) : bit 0xFF k = decide (k < 8) := Nat.testBit_two_pow_sub_one 8 k

/-- Eight bit steps are those of the lowest eight bits, with the other bits shifted. -/
theorem bitSteps_eight (x : UInt32) : bitSteps 8 x = bitSteps 8 (x &&& 0xFF) ^^^ (x >>> 8) := by
  have hbit : ∀ k, bit (x ^^^ (x &&& 0xFF)) k = (bit x k && !decide (k < 8)) := by
    intro k
    rw [bit_xor, show bit (x &&& 0xFF) k = (bit x k && bit 0xFF k) by simp [bit], bit_low]
    cases bit x k <;> simp
  have hhigh : bitSteps 8 (x ^^^ (x &&& 0xFF)) = x >>> 8 := by
    refine UInt32.toBitVec_inj.mp ?_
    rw [bitSteps_of_clear fun k hk => by rw [hbit]; simp [hk]]
    refine BitVec.eq_of_getLsbD_eq fun k _ => ?_
    have := hbit (8 + k)
    unfold bit at this
    rw [BitVec.getLsbD_ushiftRight, this, UInt32.toBitVec_shiftRight]
    simp
  have hsplit : x = (x &&& 0xFF) ^^^ (x ^^^ (x &&& 0xFF)) := by
    rw [UInt32.xor_comm x, ← UInt32.xor_assoc, UInt32.xor_self, UInt32.zero_xor]
  conv_lhs => rw [hsplit]
  rw [bitSteps_xor, hhigh]

/-! ### One byte -/

theorem table_getD {x : UInt32} (h : x.toNat < 256) : table.getD x.toNat 0 = bitSteps 8 x := by
  unfold table
  rw [Array.getD_eq_getD_getElem?, Array.getElem?_eq_getElem (by simpa using h), Array.getElem_ofFn,
    Option.getD_some, UInt32.ofNat_toNat]

/-- **A byte step** is eight bit steps of the register with the byte added to it. -/
theorem byteStep_eq (crc : UInt32) (b : UInt8) :
    byteStep crc b = bitSteps 8 (crc ^^^ b.toUInt32) := by
  have hb : b.toUInt32 >>> 8 = 0 := by
    rw [← UInt32.toNat_inj, UInt32.toNat_shiftRight, UInt8.toNat_toUInt32]
    exact Nat.shiftRight_eq_zero b.toNat 8 b.toNat_lt
  have hlow : ((crc ^^^ b.toUInt32) &&& 0xFF).toNat < 256 := by
    rw [UInt32.toNat_and]
    exact Nat.lt_of_le_of_lt Nat.and_le_right (by decide)
  unfold byteStep
  rw [table_getD hlow, bitSteps_eight (crc ^^^ b.toUInt32), UInt32.shiftRight_xor, hb,
    UInt32.xor_zero]

theorem byteStep_injective_register (b : UInt8) : Function.Injective fun crc => byteStep crc b := by
  intro x y h
  dsimp only at h
  rw [byteStep_eq, byteStep_eq] at h
  exact (UInt32.xor_left_inj _).mp (bitSteps_injective 8 h)

theorem byteStep_injective_byte (crc : UInt32) : Function.Injective (byteStep crc) := by
  intro b c h
  rw [byteStep_eq, byteStep_eq] at h
  exact UInt8.toUInt32_inj.mp ((UInt32.xor_right_inj _).mp (bitSteps_injective 8 h))

end FlowState.Checksum
