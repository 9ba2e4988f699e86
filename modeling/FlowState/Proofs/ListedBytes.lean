import FlowState.Listing
import FlowState.Proofs.HexText
import FlowState.Proofs.Results

/-! # The bytes of listings

The bytes of a listing are written as digits, two for each byte, with blanks anywhere. A pair is
read as a numeral, and a numeral may have a plus sign: so the characters `+f` are read as the byte
that `0f` spells, and a text is read exactly if it spells bytes once such signs are replaced
(`Text.bytesOfHex?_eq_some`). Without a plus sign nothing but digits is read. It makes no difference
whether the pairs are counted in characters or in bytes (`Text.bytesOfHex?_eq_byteSlices?`). A
listing is refused if one of its texts is not read. -/

namespace FlowState

/-! ### Texts -/

namespace Text

/-- The characters of a text that are no blanks. -/
def inked (s : String) : List Char := s.toList.filter fun c => !isBlank c

/-- The characters with a zero for each plus sign in the first place of a pair. -/
def plusAsZero : List Char → List Char
  | x :: y :: cs => (if x = '+' then '0' else x) :: y :: plusAsZero cs
  | cs => cs

/-- Every character is a digit, and their number is even. -/
def IsPaired (cs : List Char) : Prop := (∀ c ∈ cs, isHexDigit c = true) ∧ cs.length % 2 = 0

theorem plusAsZero_of_forall : ∀ {cs : List Char}, '+' ∉ cs → plusAsZero cs = cs
  | [], _ => rfl
  | [_], _ => rfl
  | x :: y :: cs, h => by
    simp only [List.mem_cons, not_or] at h
    rw [plusAsZero, if_neg (Ne.symm h.1), plusAsZero_of_forall h.2.2]

theorem bytePair?_plus (y : Char) : bytePair? '+' y = bytePair? '0' y := by
  have hzero : hexDigit? '0' = some 0 := by decide
  rw [bytePair?, bytePair?, if_pos rfl, if_neg (by decide), hzero]
  cases hexDigit? y with
  | none => rfl
  | some d =>
    change some (UInt8.ofNat d) = some (UInt8.ofNat (0 * 16 + d))
    rw [Nat.zero_mul, Nat.zero_add]

theorem bytePairs?_plusAsZero : ∀ cs : List Char, bytePairs? (plusAsZero cs) = bytePairs? cs
  | [] => rfl
  | [_] => rfl
  | x :: y :: cs => by
    rw [plusAsZero, bytePairs?, bytePairs?, bytePairs?_plusAsZero cs]
    split_ifs with h
    · rw [h, bytePair?_plus]
    · rfl

/-- A pair without a plus sign that is read has two digits. -/
theorem digits_of_bytePair? {x y : Char} {b : UInt8} (hx : x ≠ '+') (h : bytePair? x y = some b) :
    isHexDigit x = true ∧ isHexDigit y = true := by
  rw [bytePair?, if_neg hx] at h
  unfold isHexDigit
  cases hhi : hexDigit? x with
  | none => simp [hhi] at h
  | some hi =>
    cases hlo : hexDigit? y with
    | none => simp [hhi, hlo] at h
    | some lo => exact ⟨rfl, rfl⟩

theorem isPaired_plusAsZero : ∀ {cs : List Char} {bs : List UInt8}, bytePairs? cs = some bs →
    IsPaired (plusAsZero cs)
  | [], _, _ => ⟨by simp [plusAsZero], rfl⟩
  | [_], _, h => by cases h
  | x :: y :: cs, bs, h => by
    have hpair : bytePair? (if x = '+' then '0' else x) y = bytePair? x y := by
      split_ifs with hx
      · rw [hx, bytePair?_plus]
      · rfl
    have hsign : (if x = '+' then '0' else x) ≠ '+' := by
      split_ifs with hx
      · decide
      · exact hx
    cases hb : bytePair? x y with
    | none => simp [bytePairs?, hb] at h
    | some b =>
      cases hbs : bytePairs? cs with
      | none => simp [bytePairs?, hb, hbs] at h
      | some bs' =>
        obtain ⟨hall, heven⟩ := isPaired_plusAsZero hbs
        obtain ⟨h1, h2⟩ := digits_of_bytePair? hsign (hpair.trans hb)
        rw [plusAsZero]
        refine ⟨?_, ?_⟩
        · simp only [List.forall_mem_cons]
          exact ⟨h1, h2, hall⟩
        · simp only [List.length_cons]
          omega

/-- **What byte strings are read as**: the bytes that they spell, if plus signs count as zeros. -/
theorem bytesOfHex?_eq_some {s : String} {bs : List UInt8} :
    bytesOfHex? s = some bs ↔ Spells (plusAsZero (inked s)) bs := by
  change bytePairs? (inked s) = some bs ↔ _
  constructor
  · intro h
    obtain ⟨hall, heven⟩ := isPaired_plusAsZero h
    obtain ⟨bs', hbs'⟩ := exists_spells hall heven
    have hread := bytePairs?_of_spells hbs'
    rw [bytePairs?_plusAsZero, h, Option.some.injEq] at hread
    rwa [hread]
  · intro h
    rw [← bytePairs?_plusAsZero]
    exact bytePairs?_of_spells h

theorem isPaired_of_spells {cs : List Char} {bs : List UInt8} (h : Spells cs bs) : IsPaired cs := by
  refine ⟨fun c hc => ?_, by rw [h.length_eq]; omega⟩
  have hmem : hexDigit? c ∈ (nibbles bs).map some := by
    rw [← h]
    exact List.mem_map_of_mem hc
  obtain ⟨n, -, hn⟩ := List.mem_map.mp hmem
  rw [isHexDigit, ← hn]
  rfl

/-! ### Cutting by bytes

A text may also be cut at every second byte of its encoding, whatever characters stand there, and
each piece read as a numeral. No digit and no sign takes more than one byte, so a longer character
is refused in either way, and the two readers agree on every text (`byteSlices?_eq`). -/

/-- The bytes that the characters take in UTF-8. -/
def encodedSize : List Char → Nat
  | [] => 0
  | c :: cs => c.utf8Size + encodedSize cs

/-- The characters after so many bytes, if one starts there. -/
def afterBytes? : Nat → List Char → Option (List Char)
  | 0, cs => some cs
  | _ + 1, [] => none
  | n + 1, c :: cs => if c.utf8Size ≤ n + 1 then afterBytes? (n + 1 - c.utf8Size) cs else none

/-- The characters of the first so many bytes, if one ends there. -/
def firstBytes? : Nat → List Char → Option (List Char)
  | 0, _ => some []
  | _ + 1, [] => none
  | n + 1, c :: cs =>
    if c.utf8Size ≤ n + 1 then (firstBytes? (n + 1 - c.utf8Size) cs).map (c :: ·) else none

/-- The characters between two offsets in bytes, if neither is inside a character. -/
def slice? (cs : List Char) (start stop : Nat) : Option (List Char) :=
  (afterBytes? start cs).bind (firstBytes? (stop - start))

/-- The byte that a hexadecimal numeral denotes. -/
def byte? (cs : List Char) : Option UInt8 :=
  (natOfDigits? 16 (dropPlus cs)).bind fun n => if n < 256 then some (UInt8.ofNat n) else none

/-- Reads the characters as numerals of two bytes of text each. -/
def byteSlices? (cs : List Char) : Option (List UInt8) :=
  if encodedSize cs % 2 = 0 then
    (List.range (encodedSize cs / 2)).mapM fun k => (slice? cs (2 * k) (2 * k + 2)).bind byte?
  else none

theorem dropPlus_cons {c : Char} (hc : c ≠ '+') (cs : List Char) :
    dropPlus (c :: cs) = c :: cs := by
  simp [dropPlus, hc]

theorem digit?_sixteen (c : Char) : digit? 16 c = hexDigit? c := by
  ext d
  rw [digit?_eq_some_iff le_rfl, hexDigit?_eq_some_iff]

theorem natOfDigits?_one (c : Char) : natOfDigits? 16 [c] = hexDigit? c := by
  simp [natOfDigits?, digitStep, digit?_sixteen]

theorem natOfDigits?_two (x y : Char) : natOfDigits? 16 [x, y] =
    (hexDigit? x).bind fun hi => (hexDigit? y).map fun lo => hi * 16 + lo := by
  simp [natOfDigits?, digitStep, digit?_sixteen]

/-- A digit or a sign takes one byte. -/
theorem hexDigit?_of_wide {c : Char} (hc : 1 < c.utf8Size) : hexDigit? c = none ∧ c ≠ '+' := by
  rw [← not_le] at hc
  refine ⟨?_, ?_⟩
  · rw [Option.eq_none_iff_forall_not_mem]
    intro n hn
    have hval : c.val ≤ 127 := Nat.le_of_lt_succ (toNat_lt_of_hexDigit? hn)
    exact hc (Char.utf8Size_eq_one_iff.mpr hval).le
  · rintro rfl
    exact hc (by decide)

theorem byte?_of_wide {c : Char} (hc : 1 < c.utf8Size) : byte? [c] = none := by
  obtain ⟨hnone, hplus⟩ := hexDigit?_of_wide hc
  rw [byte?, dropPlus_cons hplus, natOfDigits?_one, hnone]
  rfl

theorem bytePair?_of_wide {x y : Char} (h : 1 < x.utf8Size ∨ 1 < y.utf8Size) :
    bytePair? x y = none := by
  rcases h with hx | hy
  · obtain ⟨hnone, hplus⟩ := hexDigit?_of_wide hx
    rw [bytePair?, if_neg hplus, hnone]
    rfl
  · rw [bytePair?, (hexDigit?_of_wide hy).1]
    split_ifs
    · rfl
    · cases hexDigit? x <;> rfl

/-- A numeral of two characters is read as their pair. -/
theorem byte?_pair (x y : Char) : byte? [x, y] = bytePair? x y := by
  have hlt : ∀ {c d}, hexDigit? c = some d → d < 16 := fun h => (hexDigit?_eq_some h).1
  by_cases hx : x = '+'
  · have hsign : dropPlus [x, y] = [y] := by rw [hx, dropPlus]
    rw [byte?, hsign, natOfDigits?_one, bytePair?, if_pos hx]
    cases hy : hexDigit? y with
    | none => rfl
    | some lo =>
      have := hlt hy
      exact if_pos (by omega)
  · rw [byte?, dropPlus_cons hx, natOfDigits?_two, bytePair?, if_neg hx]
    cases hhi : hexDigit? x with
    | none => rfl
    | some hi =>
      cases hlo : hexDigit? y with
      | none => rfl
      | some lo =>
        have := hlt hhi
        have := hlt hlo
        have hfit : hi * 16 + lo < 256 := by omega
        exact if_pos hfit

theorem slice?_zero (cs : List Char) (n : Nat) : slice? cs 0 n = firstBytes? n cs := by
  simp [slice?, afterBytes?]

/-- Nothing is read of a text whose first piece is refused. -/
theorem byteSlices?_of_first {cs : List Char} (hsize : 2 ≤ encodedSize cs)
    (h : (firstBytes? 2 cs).bind byte? = none) : byteSlices? cs = none := by
  unfold byteSlices?
  split_ifs with heven
  · obtain ⟨k, hk⟩ : ∃ k, encodedSize cs / 2 = k + 1 := ⟨encodedSize cs / 2 - 1, by omega⟩
    have hfirst : (slice? cs (2 * 0) (2 * 0 + 2)).bind byte? = none := by
      rw [Nat.mul_zero, slice?_zero, h]
    rw [hk, List.range_succ_eq_map, List.mapM_cons, hfirst]
    rfl
  · rfl

/-- A text is refused if its first character takes several bytes: the cut is behind it or in it. -/
theorem byteSlices?_of_wide {x : Char} (hx : 1 < x.utf8Size) (cs : List Char) :
    byteSlices? (x :: cs) = none := by
  refine byteSlices?_of_first (Nat.le_add_right_of_le hx) ?_
  rw [firstBytes?]
  split_ifs with hfit
  · have hall : 1 + 1 - x.utf8Size = 0 := by omega
    rw [hall]
    simpa [firstBytes?] using byte?_of_wide hx
  · rfl

/-- A text is refused if its second character takes several bytes and the cut is in it. -/
theorem byteSlices?_of_wide_second {x y : Char} (hx : x.utf8Size = 1) (hy : 1 < y.utf8Size)
    (cs : List Char) : byteSlices? (x :: y :: cs) = none := by
  refine byteSlices?_of_first ?_ ?_
  · simp only [encodedSize, hx]
    omega
  · have hcut : ¬ y.utf8Size ≤ 0 + 1 := by omega
    simp [firstBytes?, hx, hcut]

/-- Two characters of one byte are the first piece, and the rest is cut as before. -/
theorem byteSlices?_cons {x y : Char} (hx : x.utf8Size = 1) (hy : y.utf8Size = 1)
    (cs : List Char) : byteSlices? (x :: y :: cs) = do
      let b ← byte? [x, y]
      let bs ← byteSlices? cs
      return b :: bs := by
  have hsize : encodedSize (x :: y :: cs) = encodedSize cs + 2 := by
    simp only [encodedSize, hx, hy]
    omega
  have hfirst : slice? (x :: y :: cs) (2 * 0) (2 * 0 + 2) = some [x, y] := by
    simp [slice?_zero, firstBytes?, hx, hy]
  have hlater : ∀ k, slice? (x :: y :: cs) (2 * k.succ) (2 * k.succ + 2) =
      slice? cs (2 * k) (2 * k + 2) := by
    intro k
    have hafter : afterBytes? (2 * k.succ) (x :: y :: cs) = afterBytes? (2 * k) cs := by
      simp [Nat.mul_succ, afterBytes?, hx, hy]
    rw [slice?, slice?, hafter, Nat.add_sub_cancel_left, Nat.add_sub_cancel_left]
  unfold byteSlices?
  rw [hsize, Nat.add_mod_right, Nat.add_div_right _ (by decide)]
  split_ifs with heven
  · rw [List.range_succ_eq_map, List.mapM_cons, List.mapM_map, hfirst, Option.bind_some]
    simp only [Function.comp_def, hlater]
  · cases byte? [x, y] <;> rfl

/-- **Cutting at bytes and taking pairs of characters is the same**, also for texts in which
characters take several bytes. -/
theorem byteSlices?_eq : ∀ cs : List Char, byteSlices? cs = bytePairs? cs
  | [] => rfl
  | [x] => by
    rcases (Nat.succ_le_of_lt x.utf8Size_pos).eq_or_lt with hx | hx
    · have hodd : encodedSize [x] = 1 := hx.symm
      rw [byteSlices?, hodd]
      rfl
    · exact byteSlices?_of_wide hx []
  | x :: y :: cs => by
    rw [bytePairs?]
    rcases (Nat.succ_le_of_lt x.utf8Size_pos).eq_or_lt with hx | hx
    · rcases (Nat.succ_le_of_lt y.utf8Size_pos).eq_or_lt with hy | hy
      · rw [byteSlices?_cons hx.symm hy.symm, byte?_pair, byteSlices?_eq cs]
      · rw [byteSlices?_of_wide_second hx.symm hy, bytePair?_of_wide (.inr hy)]
        rfl
    · rw [byteSlices?_of_wide hx, bytePair?_of_wide (.inl hx)]
      rfl

/-- **The bytes of a text are those of its slices of two bytes**, blanks left out. -/
theorem bytesOfHex?_eq_byteSlices? (s : String) : bytesOfHex? s = byteSlices? (inked s) :=
  (byteSlices?_eq (inked s)).symm

example : byteSlices? ['1', 'f', 'é'] = none ∧
    byteSlices? ['+', 'f', 'A', '0'] = some [0x0f, 0xa0] := by decide

end Text

/-! ### Listings -/

namespace Listing

/-- The byte strings of a listing: those of its segments and then those of its instructions. -/
def Source.byteTexts (s : Source) : List String :=
  s.segments.map (·.bytes) ++ s.instructions.map (·.bytes)

theorem segment_cases (s : SegmentText) :
    (∃ bs, Text.bytesOfHex? s.bytes = some bs ∧ s.segment = .ok ⟨s.name, s.address, bs, false⟩) ∨
    (Text.bytesOfHex? s.bytes = none ∧ s.segment = .error (.segmentHex s.address)) := by
  unfold SegmentText.segment
  cases Text.bytesOfHex? s.bytes <;> simp

theorem instruction_cases (i : InstructionText) :
    (∃ bs, Text.bytesOfHex? i.bytes = some bs ∧
      i.instruction = .ok ⟨i.address, bs, i.kind, i.targets, i.text⟩) ∨
    (Text.bytesOfHex? i.bytes = none ∧ i.instruction = .error (.instructionHex i.address)) := by
  unfold InstructionText.instruction
  cases Text.bytesOfHex? i.bytes <;> simp

/-- A written listing has an image if all its byte strings are read, and else it has a fault. -/
theorem image_cases (p : Path) (s : Source) :
    ((∃ image, s.image p = .ok image) ∧ ∀ t ∈ s.byteTexts, ∃ bs, Text.bytesOfHex? t = some bs) ∨
    ((∃ t ∈ s.byteTexts, Text.bytesOfHex? t = none) ∧
      ∃ fault, fault ≠ .outside ∧ s.image p = .error fault) := by
  have htexts : ∀ t, t ∈ s.byteTexts ↔
      (∃ g ∈ s.segments, g.bytes = t) ∨ ∃ i ∈ s.instructions, i.bytes = t := by
    simp [Source.byteTexts]
  rcases mapM_cases SegmentText.segment s.segments with ⟨⟨gs, hgs⟩, hsegments⟩ | ⟨g, hg, e, he, hgs⟩
  · rcases mapM_cases InstructionText.instruction s.instructions with
      ⟨⟨is, his⟩, hinstructions⟩ | ⟨i, hi, e, he, his⟩
    · refine .inl ⟨⟨_, by unfold Source.image; rw [hgs, his]; rfl⟩, fun t ht => ?_⟩
      rcases (htexts t).mp ht with ⟨g, hg, rfl⟩ | ⟨i, hi, rfl⟩
      · rcases segment_cases g with ⟨bs, hbs, -⟩ | ⟨-, hfault⟩
        · exact ⟨bs, hbs⟩
        · obtain ⟨x, hx⟩ := hsegments g hg
          cases hfault.symm.trans hx
      · rcases instruction_cases i with ⟨bs, hbs, -⟩ | ⟨-, hfault⟩
        · exact ⟨bs, hbs⟩
        · obtain ⟨x, hx⟩ := hinstructions i hi
          cases hfault.symm.trans hx
    · rcases instruction_cases i with ⟨bs, -, hok⟩ | ⟨hnone, hfault⟩
      · cases hok.symm.trans he
      · cases hfault.symm.trans he
        have himage : s.image p = .error (.instructionHex i.address) := by
          unfold Source.image
          rw [hgs, his]
          rfl
        exact .inr ⟨⟨i.bytes, (htexts _).mpr (.inr ⟨i, hi, rfl⟩), hnone⟩, _, by simp, himage⟩
  · rcases segment_cases g with ⟨bs, -, hok⟩ | ⟨hnone, hfault⟩
    · cases hok.symm.trans he
    · cases hfault.symm.trans he
      have himage : s.image p = .error (.segmentHex g.address) := by
        unfold Source.image
        rw [hgs]
        rfl
      exact .inr ⟨⟨g.bytes, (htexts _).mpr (.inl ⟨g, hg, rfl⟩), hnone⟩, _, by simp, himage⟩

/-- **The bytes of listings are digits, apart from plus signs.** A text is read as the bytes that it
spells once a plus sign in the first place of a pair counts as a zero. One without a plus sign is
read exactly if its characters, blanks left out, are the digits of the bytes. So a listing is
refused as malformed if the bytes of a segment or an instruction have no plus sign, and another
character than digits and blanks or an odd number of digits. -/
theorem load_spelled (t : String) :
    (∀ bs, Text.bytesOfHex? t = some bs ↔ Text.Spells (Text.plusAsZero (Text.inked t)) bs) ∧
    ('+' ∉ Text.inked t → ∀ bs,
      Text.bytesOfHex? t = some bs ↔ Text.Spells (Text.inked t) bs) ∧
    ∀ p content s, (document? p content).bind source? = some s → t ∈ s.byteTexts →
      '+' ∉ Text.inked t → ¬ Text.IsPaired (Text.inked t) →
        ∃ fault, fault ≠ .outside ∧ load p content = .error (.malformed p.text fault) := by
  have hplain : '+' ∉ Text.inked t → ∀ bs,
      Text.bytesOfHex? t = some bs ↔ Text.Spells (Text.inked t) bs := by
    intro hplus bs
    rw [Text.bytesOfHex?_eq_some, Text.plusAsZero_of_forall hplus]
  refine ⟨fun bs => Text.bytesOfHex?_eq_some, hplain, ?_⟩
  intro p content s hs ht hplus hpaired
  rcases image_cases p s with ⟨-, hread⟩ | ⟨-, fault, hfault, himage⟩
  · obtain ⟨bs, hbs⟩ := hread t ht
    exact absurd (Text.isPaired_of_spells ((hplain hplus bs).mp hbs)) hpaired
  · refine ⟨fault, hfault, ?_⟩
    unfold load
    rw [hs]
    change (s.image p).mapError _ = _
    rw [himage]
    rfl

namespace Digits

/-- A listing of one instruction, whose bytes have three digits. -/
def content : List UInt8 :=
  Text.toBytes "\x7b\"instructions\": [\x7b\"address\": 16, \"bytes\": \"0 1\\n2\"\x7d]\x7d"

def source : Source := ⟨none, [], [], [⟨16, "0 1\n2", .unknown, [], none⟩]⟩

theorem odd_refused : '+' ∉ Text.inked "0 1\n2" ∧ ¬ Text.IsPaired (Text.inked "0 1\n2") ∧
    ∃ fault, fault ≠ .outside ∧ load ⟨"a.json"⟩ content = .error (.malformed "a.json" fault) := by
  have hsource : (document? ⟨"a.json"⟩ content).bind source? = some source := by
    with_unfolding_all rfl
  have hplus : '+' ∉ Text.inked "0 1\n2" := by decide
  have hodd : ¬ Text.IsPaired (Text.inked "0 1\n2") := fun h => absurd h.2 (by decide)
  have hmem : "0 1\n2" ∈ source.byteTexts := by simp [source, Source.byteTexts]
  exact ⟨hplus, hodd, (load_spelled "0 1\n2").2.2 _ _ _ hsource hmem hplus hodd⟩

/-- A listing of one instruction, whose bytes have a plus sign and one digit. -/
def signed : List UInt8 :=
  Text.toBytes "\x7b\"instructions\": [\x7b\"address\": 16, \"bytes\": \"+f\"\x7d]\x7d"

/-- The sign counts as a zero, and the listing is loaded. -/
theorem plus_loaded : ¬ Text.IsPaired (Text.inked "+f") ∧ load ⟨"a.json"⟩ signed =
    .ok ⟨⟨"a.json"⟩, .listing, none, [], [], [⟨16, [0x0f], .unknown, [], none⟩]⟩ := by
  refine ⟨fun h => absurd (h.1 '+' (by decide)) (by decide), ?_⟩
  with_unfolding_all rfl

end Digits

end Listing

end FlowState
