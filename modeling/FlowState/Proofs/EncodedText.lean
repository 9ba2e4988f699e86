import FlowState.Text.Utf8
import Mathlib.Data.List.Basic

/-! # Texts and their bytes

The bytes of a text are those of its characters one behind the other, and each character is found
again in front of whatever follows (`glyphs_encoded`): the four lengths of an encoding are told
apart by the first byte, so that a longer encoding is never taken for a shorter one
(`twoBytes?_of_lead`, `threeBytes?_of_lead`). Hence the bytes of every text give the text back. -/

namespace FlowState.Text

theorem charOfCode?_toNat (c : Char) : charOfCode? c.toNat = some c := by
  have hv : c.toNat.isValidChar := c.valid
  unfold charOfCode?
  rw [dif_pos hv]
  congr 1

theorem toNat_ofNat_byte {n : Nat} (h : n < 256) : (UInt8.ofNat n).toNat = n := by
  rw [UInt8.toNat_ofNat']
  omega

theorem continuation?_ofNat {n : Nat} (h : n < 64) :
    continuation? (UInt8.ofNat (n + 128)) = some n := by
  unfold continuation?
  rw [toNat_ofNat_byte (by omega), if_pos (by omega), Nat.add_sub_cancel]

/-! ### The first byte tells the length -/

theorem twoBytes?_of_lead {a : UInt8} (h : 0xE0 ≤ a.toNat) (b : UInt8) : twoBytes? a b = none := by
  unfold twoBytes?
  cases continuation? b with
  | none => rfl
  | some y => exact if_neg (by omega)

theorem threeBytes?_of_lead {a : UInt8} (h : 0xF0 ≤ a.toNat) (b c : UInt8) :
    threeBytes? a b c = none := by
  unfold threeBytes?
  cases continuation? b with
  | none => rfl
  | some y =>
    cases continuation? c with
    | none => rfl
    | some z => exact if_neg (by omega)

/-! ### One character -/

section Lengths
variable {c : Char} (r : List UInt8)

theorem firstGlyph_one (h : c.toNat ≤ 0x7F) :
    firstGlyph (UInt8.ofNat c.toNat) r = (some c, 0) := by
  unfold firstGlyph
  rw [toNat_ofNat_byte (by omega), if_pos (by omega), charOfCode?_toNat]

theorem firstGlyph_two (h1 : 0x7F < c.toNat) (h2 : c.toNat ≤ 0x7FF) :
    firstGlyph (UInt8.ofNat (c.toNat / 64 % 32 + 192)) (UInt8.ofNat (c.toNat % 64 + 128) :: r) =
      (some c, 1) := by
  have hc : (c.toNat / 64 % 32 + 192 - 0xC0) * 64 + c.toNat % 64 = c.toNat := by omega
  have hread : twoBytes? (UInt8.ofNat (c.toNat / 64 % 32 + 192))
      (UInt8.ofNat (c.toNat % 64 + 128)) = some c := by
    unfold twoBytes?
    rw [continuation?_ofNat (by omega), toNat_ofNat_byte (by omega)]
    simp only [Option.bind_eq_bind, Option.bind_some]
    rw [if_pos (by omega), hc, charOfCode?_toNat]
  unfold firstGlyph
  rw [toNat_ofNat_byte (by omega), if_neg (by omega)]
  simp only [hread]

theorem firstGlyph_three (h1 : 0x7FF < c.toNat) (h2 : c.toNat ≤ 0xFFFF) :
    firstGlyph (UInt8.ofNat (c.toNat / 4096 % 16 + 224))
        (UInt8.ofNat (c.toNat / 64 % 64 + 128) :: UInt8.ofNat (c.toNat % 64 + 128) :: r) =
      (some c, 2) := by
  have hlead : (UInt8.ofNat (c.toNat / 4096 % 16 + 224)).toNat = c.toNat / 4096 % 16 + 224 :=
    toNat_ofNat_byte (by omega)
  have hc : (c.toNat / 4096 % 16 + 224 - 0xE0) * 4096 + c.toNat / 64 % 64 * 64 + c.toNat % 64 =
      c.toNat := by omega
  have hread : threeBytes? (UInt8.ofNat (c.toNat / 4096 % 16 + 224))
      (UInt8.ofNat (c.toNat / 64 % 64 + 128)) (UInt8.ofNat (c.toNat % 64 + 128)) = some c := by
    unfold threeBytes?
    rw [continuation?_ofNat (by omega), continuation?_ofNat (by omega), hlead]
    simp only [Option.bind_eq_bind, Option.bind_some]
    rw [hc, if_pos (by omega), charOfCode?_toNat]
  have hlead : 0xE0 ≤ (UInt8.ofNat (c.toNat / 4096 % 16 + 224)).toNat := by omega
  unfold firstGlyph
  rw [if_neg (by omega)]
  simp only [twoBytes?_of_lead hlead, hread]

theorem firstGlyph_four (h1 : 0xFFFF < c.toNat) :
    firstGlyph (UInt8.ofNat (c.toNat / 262144 % 8 + 240))
        (UInt8.ofNat (c.toNat / 4096 % 64 + 128) :: UInt8.ofNat (c.toNat / 64 % 64 + 128) ::
          UInt8.ofNat (c.toNat % 64 + 128) :: r) = (some c, 3) := by
  have hlast : c.toNat < 0x110000 := by
    rcases c.valid with h | ⟨-, h⟩
    · exact Nat.lt_trans h (by omega)
    · exact h
  have hlead : (UInt8.ofNat (c.toNat / 262144 % 8 + 240)).toNat = c.toNat / 262144 % 8 + 240 :=
    toNat_ofNat_byte (by omega)
  have hc : (c.toNat / 262144 % 8 + 240 - 0xF0) * 262144 + c.toNat / 4096 % 64 * 4096 +
      c.toNat / 64 % 64 * 64 + c.toNat % 64 = c.toNat := by omega
  have hread : fourBytes? (UInt8.ofNat (c.toNat / 262144 % 8 + 240))
      (UInt8.ofNat (c.toNat / 4096 % 64 + 128)) (UInt8.ofNat (c.toNat / 64 % 64 + 128))
      (UInt8.ofNat (c.toNat % 64 + 128)) = some c := by
    unfold fourBytes?
    rw [continuation?_ofNat (by omega), continuation?_ofNat (by omega),
      continuation?_ofNat (by omega), hlead]
    simp only [Option.bind_eq_bind, Option.bind_some]
    rw [hc, if_pos (by omega), charOfCode?_toNat]
  have hlead : 0xF0 ≤ (UInt8.ofNat (c.toNat / 262144 % 8 + 240)).toNat := by omega
  unfold firstGlyph
  rw [if_neg (by omega)]
  simp only [twoBytes?_of_lead (Nat.le_trans (by decide) hlead), threeBytes?_of_lead hlead, hread]

end Lengths

/-- **A character is found again** in front of whatever follows. -/
theorem glyphs_encoded (c : Char) (r : List UInt8) :
    glyphs (String.utf8EncodeChar c ++ r) = some c :: glyphs r := by
  have hval : c.val.toNat = c.toNat := rfl
  unfold String.utf8EncodeChar
  simp only [hval]
  split_ifs with h1 h2 h3
  · rw [List.singleton_append, glyphs, firstGlyph_one r h1]
    rfl
  · simp only [List.cons_append, List.nil_append]
    rw [glyphs, firstGlyph_two r (by omega) h2]
    rfl
  · simp only [List.cons_append, List.nil_append]
    rw [glyphs, firstGlyph_three r (by omega) h3]
    rfl
  · simp only [List.cons_append, List.nil_append]
    rw [glyphs, firstGlyph_four r (by omega)]
    rfl

/-! ### Texts -/

theorem toBytes_eq_flatMap (s : String) : toBytes s = s.toList.flatMap String.utf8EncodeChar := by
  unfold toBytes
  rw [String.toUTF8_eq_toByteArray, ← String.utf8Encode_toList]
  exact List.toList_data_toByteArray

theorem glyphs_toBytes (s : String) : glyphs (toBytes s) = s.toList.map some := by
  rw [toBytes_eq_flatMap]
  induction s.toList with
  | nil => rw [List.flatMap_nil, glyphs, List.map_nil]
  | cons c cs ih => rw [List.flatMap_cons, glyphs_encoded, ih, List.map_cons]

/-- **The bytes of a text give the text back.** -/
theorem ofBytes?_toBytes (s : String) : ofBytes? (toBytes s) = some s := by
  unfold ofBytes?
  rw [glyphs_toBytes, charsOfGlyphs?_map_some, Option.map_some, String.ofList_toList]

end FlowState.Text
