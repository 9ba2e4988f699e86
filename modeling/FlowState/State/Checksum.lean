/-! # CRC-32C

The reflected cyclic redundancy code with the Castagnoli polynomial, without inversion before or
after. A byte is taken in one step, through a table whose entries are eight steps of one bit each.
-/

namespace FlowState.Checksum

/-- The reflected polynomial. -/
def polynomial : UInt32 := 0x82F63B78

/-- One bit of the register is shifted out. -/
def bitStep (crc : UInt32) : UInt32 :=
  if crc &&& 1 != 0 then (crc >>> 1) ^^^ polynomial else crc >>> 1

/-- Some bits of the register are shifted out. -/
def bitSteps : Nat → UInt32 → UInt32
  | 0, crc => crc
  | n + 1, crc => bitSteps n (bitStep crc)

/-- The eight bit steps of every byte. -/
def table : Array UInt32 := Array.ofFn fun i : Fin 256 => bitSteps 8 (UInt32.ofNat i.val)

/-- The register after one more byte, through the table. -/
def byteStep (crc : UInt32) (b : UInt8) : UInt32 :=
  table.getD ((crc ^^^ b.toUInt32) &&& 0xFF).toNat 0 ^^^ (crc >>> 8)

/-- **The register after the bytes.** -/
def run (crc : UInt32) (bs : List UInt8) : UInt32 := bs.foldl byteStep crc

end FlowState.Checksum
