import FlowState.Proofs.TamperedBytes

/-! # The checksum bit by bit

In its defining form the checksum takes a message bit by bit, the lowest bit of each byte first. A
bit is compared with the lowest bit of the register, the register is shifted by one, and if the two
bits differ the polynomial is added (`serialStep`). The running form takes a byte at a time through
a table. Both are the same (`run_eq_serial`): bits of the message that lie above the one to be taken
are only shifted along with the register (`bitStep_message`), so all eight of a byte may be added to
the register in front of the steps that shift them out (`bitSteps_message`).

Between instructions the register lies in the lowest 32 bits of the state. The first instruction
widens the state to four bytes and clears what is above them; from there on every instruction finds
the register where the one before has left it (`foldl_crcState`). So only the bytes of all
instructions together count, and not how they are cut into instructions. -/

namespace FlowState

/-! ### One bit of a message at a time -/

namespace Checksum

/-- The bits of a byte, the lowest one first. -/
def bitsOf (b : UInt8) : List Bool := (List.range 8).map b.toNat.testBit

/-- One bit of a message is taken into the register. -/
def serialStep (crc : UInt32) (b : Bool) : UInt32 :=
  if crc.toNat.testBit 0 != b then (crc >>> 1) ^^^ 0x82F63B78 else crc >>> 1

/-- **The register after a message**, bit by bit. -/
def serial (crc : UInt32) (bs : List UInt8) : UInt32 := (bs.flatMap bitsOf).foldl serialStep crc

/-- The bits of a message above the one that is taken are only shifted. -/
theorem bitStep_message (x m : UInt32) :
    bitStep (x ^^^ m) = serialStep x (bit m 0) ^^^ m >>> 1 := by
  have hserial : serialStep x (bit m 0) = x >>> 1 ^^^ feedback (bit x 0 ^^ bit m 0) := by
    unfold serialStep feedback polynomial
    rw [show x.toNat.testBit 0 = bit x 0 from rfl, Bool.bne_eq_xor]
    split <;> simp
  rw [bitStep_eq, bit_xor, hserial, UInt32.shiftRight_xor]
  ac_rfl

/-- **The bits of a message may be added at once**, in front of the steps that shift them out. -/
theorem bitSteps_message {n : Nat} {m : UInt32} (h : ∀ k, n ≤ k → bit m k = false) (x : UInt32) :
    bitSteps n (x ^^^ m) = ((List.range n).map (bit m)).foldl serialStep x := by
  induction n generalizing x m with
  | zero =>
    have hm : m = 0 := eq_zero_of_bits fun k _ => h k (Nat.zero_le k)
    rw [hm, UInt32.xor_zero]
    rfl
  | succ n ih =>
    -- the first step takes the lowest bit, and the others move down by one
    have hshift : ∀ k, bit (m >>> 1) k = bit m (k + 1) := by
      intro k
      rw [bit_shiftRight_one, Nat.add_comm]
    have hrest : ∀ k, n ≤ k → bit (m >>> 1) k = false := by
      intro k hk
      rw [hshift]
      exact h (k + 1) (Nat.succ_le_succ hk)
    rw [bitSteps, bitStep_message, ih hrest, List.range_succ_eq_map, List.map_cons, List.map_map,
      List.foldl_cons]
    congr 1
    exact List.map_congr_left fun k _ => hshift k

/-- A step through the table takes the eight bits of a byte. -/
theorem byteStep_eq_serial (crc : UInt32) (b : UInt8) :
    byteStep crc b = (bitsOf b).foldl serialStep crc := by
  have hclear : ∀ k, 8 ≤ k → bit b.toUInt32 k = false := by
    intro k hk
    have hlt : b.toNat < 2 ^ k :=
      Nat.lt_of_lt_of_le b.toNat_lt (Nat.pow_le_pow_right (by decide) hk)
    exact Nat.testBit_lt_two_pow hlt
  rw [byteStep_eq, bitSteps_message hclear]
  rfl

/-- **The table and the single bits** give the same register. -/
theorem run_eq_serial (crc : UInt32) (bs : List UInt8) : run crc bs = serial crc bs := by
  induction bs generalizing crc with
  | nil => rfl
  | cons b bs ih =>
    unfold serial
    rw [List.flatMap_cons, List.foldl_append, ← byteStep_eq_serial]
    exact ih (byteStep crc b)

end Checksum

/-! ### The register in a state -/

namespace StateValue

/-- The lowest 32 bits, those of the lowest four bytes. -/
def low32 (v : StateValue) : UInt32 := UInt32.ofNat (number (v.bytes.take 4))

/-- **The value of a width that holds a register**: its lowest 32 bits are the register, and all
bytes above them are zero. -/
structure Holds (v : StateValue) (width : Nat) (crc : UInt32) : Prop where
  width_eq : v.width = width
  low : v.low32 = crc
  high : ∀ b ∈ v.bytes.drop 4, b = 0

theorem drop_lowBytes (k width n : Nat) :
    (lowBytes width n).drop k = lowBytes (width - k) (n / 256 ^ k) := by
  induction width generalizing k n with
  | zero => simp [lowBytes]
  | succ width ih =>
    cases k with
    | zero => simp
    | succ k =>
      rw [lowBytes, List.drop_succ_cons, ih, Nat.succ_sub_succ, Nat.div_div_eq_div_mul,
        Nat.pow_succ, Nat.mul_comm 256]

theorem lowBytes_zero (width : Nat) : lowBytes width 0 = List.replicate width 0 := by
  induction width with
  | zero => rfl
  | succ width ih =>
    rw [lowBytes, Nat.zero_div, ih]
    rfl

end StateValue

namespace UpdateFunction

open StateValue

theorem lowWord_eq_low32 (s : StateValue) : lowWord s = s.low32 := by
  have hcut : number (s.bytes.take 8) % 2 ^ 32 = number (s.bytes.take 4) % 2 ^ 32 := by
    have hsplit : s.bytes.take 8 = s.bytes.take 4 ++ (s.bytes.drop 4).take 4 :=
      List.take_add (i := 4) (j := 4)
    rcases Nat.lt_or_ge s.bytes.length 4 with hlt | hge
    · rw [hsplit, List.drop_of_length_le (Nat.le_of_lt hlt), List.take_nil, List.append_nil]
    · have hlen : (s.bytes.take 4).length = 4 := List.length_take_of_le hge
      rw [hsplit, number_append, hlen]
      exact Nat.add_mul_mod_self_left _ _ _
  unfold lowWord toWord low32
  rw [← UInt32.toNat_inj, UInt64.toNat_toUInt32, UInt64.toNat_ofNat', UInt32.toNat_ofNat', ← hcut]
  omega

theorem holds_ofLowWord (s : StateValue) (n : UInt32) :
    (ofLowWord s n).Holds (max s.width 4) n where
  width_eq := width_ofWord _ _
  low := by
    rw [← lowWord_eq_low32]
    exact lowWord_ofLowWord s n
  high := by
    have hn : n.toNat / 256 ^ 4 = 0 := Nat.div_eq_of_lt n.toNat_lt
    intro b hb
    unfold ofLowWord ofWord at hb
    rw [drop_lowBytes, UInt32.toNat_toUInt64, hn, lowBytes_zero] at hb
    exact List.eq_of_mem_replicate hb

theorem ofLowWord_ofLowWord (s : StateValue) (n m : UInt32) :
    ofLowWord (ofLowWord s n) m = ofLowWord s m := by
  unfold ofLowWord
  rw [width_ofWord, Nat.max_eq_left (Nat.le_max_right s.width 4)]

/-! ### Sequences of instructions -/

theorem crcState_ofLowWord (s : StateValue) (n : UInt32) (bs : List UInt8) :
    crcState (ofLowWord s n) bs = ofLowWord s (Checksum.run n bs) := by
  unfold crcState
  rw [lowWord_ofLowWord, ofLowWord_ofLowWord]

/-- The register goes on from instruction to instruction. -/
theorem foldl_crcState (s : StateValue) (n : UInt32) (is : List Instruction) :
    is.foldl (fun t i => crcState t i.bytes) (ofLowWord s n) =
      ofLowWord s (Checksum.run n (is.flatMap (·.bytes))) := by
  induction is generalizing n with
  | nil => rfl
  | cons i is ih =>
    rw [List.foldl_cons, crcState_ofLowWord, ih, List.flatMap_cons]
    unfold Checksum.run
    rw [List.foldl_append]

/-- **One instruction is enough** to bring the state into the form in which it goes on. -/
theorem foldl_crcState_of_ne_nil (s : StateValue) {is : List Instruction} (h : is ≠ []) :
    is.foldl (fun t i => crcState t i.bytes) s =
      ofLowWord s (Checksum.serial s.low32 (is.flatMap (·.bytes))) := by
  obtain ⟨i, is, rfl⟩ := List.exists_cons_of_ne_nil h
  rw [List.foldl_cons, crcState, foldl_crcState, lowWord_eq_low32, ← Checksum.run_eq_serial,
    List.flatMap_cons]
  unfold Checksum.run
  rw [List.foldl_append]

end UpdateFunction

namespace Updater

open UpdateFunction

theorem Computes.foldlM {u : Updater} {f : StateValue → List UInt8 → StateValue} (h : u.Computes f)
    (s : StateValue) (is : List Instruction) :
    is.foldlM u.update s = .ok (is.foldl (fun t i => f t i.bytes) s) := by
  induction is generalizing s with
  | nil => rfl
  | cons i is ih =>
    rw [List.foldlM_cons, h s i]
    exact ih (f s i.bytes)

/-- **The prepared checksum is the bit-serial one** of the bytes of all instructions together: from
the lowest 32 bits of the state it leads to the lowest 32 bits of the last state, which is at least
four bytes wide and zero above them. Instructions that are cut in another way give the same state.
-/
theorem checksum_bit_serial (ready : Bool) (s : StateValue) {is : List Instruction} (h : is ≠ []) :
    ∃ u v, prepare ⟨.crc32c, ready⟩ = .ok u ∧ is.foldlM u.update s = .ok v ∧
      v.Holds (max s.width 4) (Checksum.serial s.low32 (is.flatMap (·.bytes))) ∧
      ∀ js ≠ [], js.flatMap (·.bytes) = is.flatMap (·.bytes) → js.foldlM u.update s = .ok v := by
  have hf : Computes ⟨.crc32c, true⟩ crcState := fun _ _ => rfl
  refine ⟨⟨.crc32c, true⟩, _, rfl, hf.foldlM s is, ?_, fun js hjs hbytes => ?_⟩
  · rw [foldl_crcState_of_ne_nil s h]
    exact holds_ofLowWord s _
  · rw [hf.foldlM, foldl_crcState_of_ne_nil s h, foldl_crcState_of_ne_nil s hjs, hbytes]

namespace Digits

/-- The digits from one to nine in three instructions, one of them without bytes. -/
def code : List Instruction :=
  [⟨0x10, [0x31, 0x32, 0x33, 0x34], .sequential, [], none⟩, ⟨0x14, [], .unknown, [], none⟩,
    ⟨0x14, [0x35, 0x36, 0x37, 0x38, 0x39], .return, [], none⟩]

/-- All 32 bits are set, and there is one more byte above them. -/
def seed : StateValue := ⟨[0xFF, 0xFF, 0xFF, 0xFF, 0xAA]⟩

theorem serial_code : Checksum.serial seed.low32 (code.flatMap (·.bytes)) = 0x1CF96D7C := by
  decide +kernel

/-- The register is the complement of the check value of the checksum. -/
theorem check_value : code ≠ [] ∧ ∃ u v, prepare ⟨.crc32c, false⟩ = .ok u ∧
    code.foldlM u.update seed = .ok v ∧ v.Holds 5 (0xE3069283 ^^^ 0xFFFFFFFF) := by
  have hcode : code ≠ [] := List.cons_ne_nil _ _
  obtain ⟨u, v, hu, hv, hholds, -⟩ := checksum_bit_serial false seed hcode
  rw [serial_code] at hholds
  exact ⟨hcode, u, v, hu, hv, hholds⟩

end Digits

end Updater

end FlowState
