import FlowState.Proofs.Numerals
import FlowState.State.Value

/-! # Hexadecimal text

Characters spell bytes (`Text.Spells`) if they are the digits of the bytes in order, two for each.
Pairs of digits are read as the bytes that they spell, and an even number of digits always spells
some. The text of a state value is read through its digits: what is left of it once the blanks and
the marks are dropped (`StateValue.Written`), filled up to an even number. -/

namespace FlowState

/-! ### Digits -/

namespace Text

theorem hexDigit?_nibbleChar {n : Nat} (h : n < 16) : hexDigit? (nibbleChar n) = some n :=
  hexDigit?_eq_some_iff.mpr ⟨h, Or.inl rfl⟩

/-- A digit is below sixteen, and in lower case it is the digit that is written. -/
theorem hexDigit?_eq_some {c : Char} {n : Nat} (h : hexDigit? c = some n) :
    n < 16 ∧ c.toLower = nibbleChar n := by
  have hall : ∀ n : Fin 16, (nibbleChar n).toLower = nibbleChar n ∧
      (nibbleChar n).toUpper.toLower = nibbleChar n := by decide
  obtain ⟨hn, hc⟩ := hexDigit?_eq_some_iff.mp h
  obtain ⟨hlower, hupper⟩ := hall ⟨n, hn⟩
  refine ⟨hn, ?_⟩
  rcases hc with rfl | rfl
  · exact hlower
  · exact hupper

theorem ne_of_isHexDigit {c x : Char} (hc : isHexDigit c = true) (hx : isHexDigit x = false) :
    c ≠ x := by
  rintro rfl
  rw [hc] at hx
  cases hx

/-! ### Bytes -/

/-- The digits of bytes in order, the higher one of each byte first. -/
def nibbles (bs : List UInt8) : List Nat := bs.flatMap fun b => [b.toNat / 16, b.toNat % 16]

/-- The characters are the digits of the bytes, two for each byte and in order. -/
def Spells (cs : List Char) (bs : List UInt8) : Prop := cs.map hexDigit? = (nibbles bs).map some

instance (cs : List Char) (bs : List UInt8) : Decidable (Spells cs bs) :=
  inferInstanceAs (Decidable (_ = _))

theorem nibbles_cons (b : UInt8) (bs : List UInt8) :
    nibbles (b :: bs) = b.toNat / 16 :: b.toNat % 16 :: nibbles bs := rfl

theorem lt_of_mem_nibbles {bs : List UInt8} {n : Nat} (h : n ∈ nibbles bs) : n < 16 := by
  obtain ⟨b, -, hn⟩ := List.mem_flatMap.mp h
  have hb := b.toNat_lt
  simp only [List.mem_cons, List.not_mem_nil, or_false] at hn
  omega

theorem length_nibbles (bs : List UInt8) : (nibbles bs).length = 2 * bs.length := by
  induction bs with
  | nil => rfl
  | cons b bs ih =>
    rw [nibbles_cons, List.length_cons, List.length_cons, List.length_cons, ih]
    omega

theorem hexChars_eq (bs : List UInt8) : hexChars bs = (nibbles bs).map nibbleChar := by
  induction bs with
  | nil => rfl
  | cons b bs ih =>
    rw [nibbles_cons, List.map_cons, List.map_cons, ← ih]
    rfl

theorem length_hexChars (bs : List UInt8) : (hexChars bs).length = 2 * bs.length := by
  rw [hexChars_eq, List.length_map, length_nibbles]

theorem mem_hexChars {bs : List UInt8} {c : Char} (h : c ∈ hexChars bs) :
    ∃ n < 16, c = nibbleChar n := by
  rw [hexChars_eq] at h
  obtain ⟨n, hn, rfl⟩ := List.mem_map.mp h
  exact ⟨n, lt_of_mem_nibbles hn, rfl⟩

/-- Bytes are spelled by their digits. -/
theorem spells_hexChars (bs : List UInt8) : Spells (hexChars bs) bs := by
  unfold Spells
  rw [hexChars_eq, List.map_map]
  exact List.map_congr_left fun n hn => hexDigit?_nibbleChar (lt_of_mem_nibbles hn)

theorem Spells.length_eq {cs : List Char} {bs : List UInt8} (h : Spells cs bs) :
    cs.length = 2 * bs.length := by
  have hlen := congrArg List.length h
  rwa [List.length_map, List.length_map, length_nibbles] at hlen

/-- In lower case the characters are the ones that are written. -/
theorem Spells.map_toLower {cs : List Char} {bs : List UInt8} (h : Spells cs bs) :
    cs.map Char.toLower = hexChars bs := by
  unfold Spells at h
  rw [hexChars_eq]
  generalize nibbles bs = ns at h
  induction cs generalizing ns with
  | nil =>
    rw [List.map_nil, eq_comm, List.map_eq_nil_iff] at h
    rw [h]
    rfl
  | cons c cs ih =>
    cases ns with
    | nil => cases h
    | cons n ns =>
      rw [List.map_cons, List.map_cons, List.cons.injEq] at h
      rw [List.map_cons, List.map_cons, (hexDigit?_eq_some h.1).2, ih ns h.2]

theorem bytePair?_of_digits {x y : Char} {b : UInt8} (hx : hexDigit? x = some (b.toNat / 16))
    (hy : hexDigit? y = some (b.toNat % 16)) : bytePair? x y = some b := by
  have hplus : x ≠ '+' := by
    rintro rfl
    cases hx
  have hsum : b.toNat / 16 * 16 + b.toNat % 16 = b.toNat := by omega
  rw [bytePair?, if_neg hplus, hx, hy]
  change some (UInt8.ofNat (b.toNat / 16 * 16 + b.toNat % 16)) = some b
  rw [hsum, UInt8.ofNat_toNat]

/-- **Digits are read as the bytes that they spell.** -/
theorem bytePairs?_of_spells {cs : List Char} {bs : List UInt8} (h : Spells cs bs) :
    bytePairs? cs = some bs := by
  induction bs generalizing cs with
  | nil =>
    obtain rfl : cs = [] := List.length_eq_zero_iff.mp h.length_eq
    rfl
  | cons b bs ih =>
    unfold Spells at h
    rw [nibbles_cons] at h
    rcases cs with _ | ⟨x, _ | ⟨y, cs⟩⟩
    · simp at h
    · simp at h
    · simp only [List.map_cons, List.cons.injEq] at h
      rw [bytePairs?, bytePair?_of_digits h.1 h.2.1, ih h.2.2]
      rfl

/-- An even number of digits spells bytes. -/
theorem exists_spells : ∀ {cs : List Char}, (∀ c ∈ cs, isHexDigit c = true) →
    cs.length % 2 = 0 → ∃ bs, Spells cs bs
  | [], _, _ => ⟨[], rfl⟩
  | [_], _, h => by simp at h
  | x :: y :: cs, hall, heven => by
    obtain ⟨hi, hx⟩ := Option.isSome_iff_exists.mp (hall x (by simp))
    obtain ⟨lo, hy⟩ := Option.isSome_iff_exists.mp (hall y (by simp))
    have hrest : ∀ c ∈ cs, isHexDigit c = true := fun c hc => hall c (by simp [hc])
    have hlen : cs.length % 2 = 0 := by
      simp only [List.length_cons] at heven
      omega
    obtain ⟨bs, hbs⟩ := exists_spells hrest hlen
    have hhi := (hexDigit?_eq_some hx).1
    have hlo := (hexDigit?_eq_some hy).1
    have hb : (UInt8.ofNat (hi * 16 + lo)).toNat = hi * 16 + lo :=
      UInt8.toNat_ofNat_of_lt' (show hi * 16 + lo < 256 by omega)
    refine ⟨UInt8.ofNat (hi * 16 + lo) :: bs, ?_⟩
    unfold Spells at hbs ⊢
    rw [nibbles_cons, hb, List.map_cons, List.map_cons, List.map_cons, List.map_cons, hx, hy, hbs]
    congr <;> omega

/-! ### Numbers -/

/-- The number of digits is read from their values. -/
theorem natOfDigits?_of_map {cs : List Char} {ns : List Nat}
    (h : cs.map hexDigit? = ns.map some) (hne : cs ≠ []) :
    natOfDigits? 16 cs = some (ns.foldl (fun n d => n * 16 + d) 0) := by
  rw [← List.forall₂_eq_eq_eq, List.forall₂_map_left_iff, List.forall₂_map_right_iff] at h
  have hdigits : List.Forall₂ (DigitOf 16) cs ns := h.imp fun c d hd => hexDigit?_eq_some_iff.mp hd
  rw [natOfDigits?, if_neg (by simpa using hne), foldl_digitStep_eq_some_iff le_rfl]
  exact ⟨ns, hdigits, rfl⟩

end Text

namespace StateValue

/-- The digits of bytes, the highest byte first, denote the number of the bytes. -/
theorem foldl_nibbles (bs : List UInt8) :
    (Text.nibbles bs).foldl (fun n d => n * 16 + d) 0 = number bs.reverse := by
  have hfoldr : ∀ bs, number bs = bs.foldr (fun b n => b.toNat + 256 * n) 0 := by
    intro bs
    induction bs with
    | nil => rfl
    | cons b bs ih => rw [number, ih, List.foldr_cons]
  rw [hfoldr, List.foldr_reverse]
  generalize 0 = a
  induction bs generalizing a with
  | nil => rfl
  | cons b bs ih =>
    have hbyte : (a * 16 + b.toNat / 16) * 16 + b.toNat % 16 = b.toNat + 256 * a := by omega
    rw [Text.nibbles_cons, List.foldl_cons, List.foldl_cons, List.foldl_cons, hbyte, ih]

/-! ### Marks -/

/-- A mark so many times. -/
def marks (x y : Char) (n : Nat) : List Char := (List.replicate n [x, y]).flatten

theorem dropMarks_of_forall {x y : Char} {cs : List Char} (h : ∀ c ∈ cs, c ≠ y) :
    dropMarks x y cs = cs := by
  rcases cs with _ | ⟨a, _ | ⟨b, cs⟩⟩
  · rfl
  · rfl
  · have hb : b ≠ y := h b (by simp)
    simp [dropMarks, hb]

theorem dropMarks_marks (x y : Char) (n : Nat) (cs : List Char) :
    dropMarks x y (marks x y n ++ cs) = dropMarks x y cs := by
  induction n with
  | zero => rfl
  | succ n ih =>
    change dropMarks x y (x :: y :: (marks x y n ++ cs)) = _
    rw [dropMarks, if_pos ⟨rfl, rfl⟩, ih]

/-- What is dropped is a number of marks. -/
theorem exists_marks (x y : Char) : ∀ cs : List Char, ∃ n, cs = marks x y n ++ dropMarks x y cs
  | [] => ⟨0, rfl⟩
  | [a] => ⟨0, rfl⟩
  | a :: b :: cs => by
    by_cases h : a = x ∧ b = y
    · obtain ⟨n, hn⟩ := exists_marks x y cs
      refine ⟨n + 1, ?_⟩
      rw [dropMarks, if_pos h, h.1, h.2]
      change x :: y :: cs = x :: y :: (marks x y n ++ dropMarks x y cs)
      rw [← hn]
    · exact ⟨0, by rw [dropMarks, if_neg h]; rfl⟩

/-- Marks are dropped up to other ones, whose second character differs. -/
theorem dropMarks_of_marks {x y z : Char} (h : y ≠ z) (n : Nat) {cs : List Char}
    (hcs : ∀ c ∈ cs, c ≠ y) (hx : x ≠ y) :
    dropMarks x y (marks x z n ++ cs) = marks x z n ++ cs := by
  apply dropMarks_of_forall
  intro c hc
  rcases List.mem_append.mp hc with hc | hc
  · obtain ⟨m, hm, hcm⟩ := List.mem_flatten.mp hc
    rw [List.eq_of_mem_replicate hm] at hcm
    simp only [List.mem_cons, List.not_mem_nil, or_false] at hcm
    rcases hcm with rfl | rfl
    · exact hx
    · exact h.symm
  · exact hcs c hc

/-- The text is a number, apart from the blanks around it: marks `0x`, then marks `0X`, as many as
there may be of each, and then digits, of which there is at least one. -/
structure Written (s : String) (ds : List Char) : Prop where
  marked : ∃ a b, Text.trimChars s.toList = marks '0' 'x' a ++ (marks '0' 'X' b ++ ds)
  nonempty : ds ≠ []
  hex : ∀ c ∈ ds, Text.isHexDigit c = true

theorem Written.digits_eq {s : String} {ds : List Char} (h : Written s ds) :
    digits s.toList = ds := by
  obtain ⟨a, b, hmarks⟩ := h.marked
  have hx : ∀ c ∈ ds, c ≠ 'x' := fun c hc => Text.ne_of_isHexDigit (h.hex c hc) rfl
  have hX : ∀ c ∈ ds, c ≠ 'X' := fun c hc => Text.ne_of_isHexDigit (h.hex c hc) rfl
  unfold digits
  rw [hmarks, dropMarks_marks, dropMarks_of_marks (by decide) b hx (by decide), dropMarks_marks,
    dropMarks_of_forall hX]

theorem written_digits {s : String} (hne : digits s.toList ≠ [])
    (hhex : ∀ c ∈ digits s.toList, Text.isHexDigit c = true) : Written s (digits s.toList) := by
  obtain ⟨a, ha⟩ := exists_marks '0' 'x' (Text.trimChars s.toList)
  obtain ⟨b, hb⟩ := exists_marks '0' 'X' (dropMarks '0' 'x' (Text.trimChars s.toList))
  refine ⟨⟨a, b, ?_⟩, hne, hhex⟩
  change _ = _ ++ (_ ++ dropMarks '0' 'X' _)
  rw [← hb, ← ha]

/-! ### Texts of values -/

theorem evenDigits_eq (ds : List Char) :
    evenDigits ds = List.replicate (ds.length % 2) '0' ++ ds := by
  unfold evenDigits
  rcases Nat.mod_two_eq_zero_or_one ds.length with h | h <;> rw [h] <;> rfl

theorem length_evenDigits (ds : List Char) :
    (evenDigits ds).length = 2 * ((ds.length + 1) / 2) := by
  rw [evenDigits_eq, List.length_append, List.length_replicate]
  omega

/-- A zero in front does not change the number. -/
theorem natOfDigits?_evenDigits {ds : List Char} (h : ds ≠ []) :
    Text.natOfDigits? 16 (evenDigits ds) = Text.natOfDigits? 16 ds := by
  have hzero : Text.digitStep 16 (some 0) '0' = some 0 := by decide
  unfold evenDigits
  split_ifs
  · rw [Text.natOfDigits?, Text.natOfDigits?, if_neg (by simp), if_neg (by simpa using h),
      List.foldl_cons, hzero]
  · rfl

/-- Digits, filled up to an even number, spell bytes. -/
theorem Written.exists_spells {s : String} {ds : List Char} (h : Written s ds) :
    ∃ bs, Text.Spells (evenDigits ds) bs := by
  refine Text.exists_spells (fun c hc => ?_) (by rw [length_evenDigits]; omega)
  rw [evenDigits_eq] at hc
  rcases List.mem_append.mp hc with hc | hc
  · rw [List.eq_of_mem_replicate hc]
    rfl
  · exact h.hex c hc

/-- A number is read as the bytes that its digits spell, the last one first. -/
theorem Written.parse?_eq {s : String} {ds : List Char} (h : Written s ds) {bs : List UInt8}
    (hbs : Text.Spells (evenDigits ds) bs) : parse? s = some ⟨bs.reverse⟩ := by
  have hempty : ds.isEmpty = false := by simpa using h.nonempty
  have hall : ds.all Text.isHexDigit = true := List.all_eq_true.mpr h.hex
  unfold parse?
  simp only [h.digits_eq, hempty, hall, Text.bytePairs?_of_spells hbs, Bool.not_true, Bool.or_self,
    Bool.false_eq_true, if_false, Option.map_some]

theorem exists_written {s : String} {v : StateValue} (h : parse? s = some v) :
    ∃ ds, Written s ds := by
  unfold parse? at h
  simp only at h
  split_ifs at h with hds
  simp only [Bool.or_eq_true, List.isEmpty_iff, Bool.not_eq_true', not_or,
    Bool.not_eq_false, List.all_eq_true] at hds
  exact ⟨_, written_digits hds.1 hds.2⟩

theorem text_toList (v : StateValue) :
    v.text.toList = '0' :: 'x' :: Text.hexChars v.bytes.reverse := by
  simp [text]

/-- The text of a value that is not empty is a number. -/
theorem written_text {v : StateValue} (h : v.width ≠ 0) :
    Written v.text (Text.hexChars v.bytes.reverse) := by
  have hdigit : ∀ c ∈ Text.hexChars v.bytes.reverse, ∃ n < 16, c = Text.nibbleChar n :=
    fun c hc => Text.mem_hexChars hc
  refine ⟨⟨1, 0, ?_⟩, ?_, fun c hc => ?_⟩
  · rw [text_toList]
    apply Text.trimChars_of_forall
    intro c hc
    simp only [List.mem_cons] at hc
    rcases hc with rfl | rfl | hc
    · decide
    · decide
    · obtain ⟨n, hn, rfl⟩ := hdigit c hc
      exact (Text.DigitOf.plain le_rfl ⟨hn, Or.inl rfl⟩).2
  · intro hnil
    have hlen := Text.length_hexChars v.bytes.reverse
    rw [hnil, List.length_nil, List.length_reverse] at hlen
    unfold width at h
    omega
  · obtain ⟨n, hn, rfl⟩ := hdigit c hc
    rw [Text.isHexDigit, Text.hexDigit?_nibbleChar hn]
    rfl

/-- **The text of a value is read as the value**, unless the value is empty. -/
theorem parse?_text (v : StateValue) : parse? v.text = if v.width = 0 then none else some v := by
  by_cases hw : v.width = 0
  · have hnil : v.bytes = [] := List.length_eq_zero_iff.mp hw
    rw [if_pos hw]
    unfold text
    rw [hnil]
    decide
  · have heven : evenDigits (Text.hexChars v.bytes.reverse) = Text.hexChars v.bytes.reverse := by
      rw [evenDigits, if_neg (by rw [Text.length_hexChars]; omega)]
    have hspells := Text.spells_hexChars v.bytes.reverse
    rw [← heven] at hspells
    rw [if_neg hw, (written_text hw).parse?_eq hspells, List.reverse_reverse]

/-- **The texts of values.** A text is read exactly if it is a number apart from the blanks around
it. The value has a byte for every two digits and one more for a digit that is left over, and its
bytes denote the number of the digits. It is written as the digits in lower case, with a zero in
front of an odd number of them. So every value of at least one byte is got back from its text. -/
theorem parse?_written (s : String) :
    ((∃ v, parse? s = some v) ↔ ∃ ds, Written s ds) ∧
    (∀ v ds, parse? s = some v → Written s ds →
      v.width = (ds.length + 1) / 2 ∧ Text.natOfDigits? 16 ds = some (number v.bytes) ∧
        v.text = "0x" ++ String.ofList
          (List.replicate (ds.length % 2) '0' ++ ds.map Char.toLower)) ∧
    ∀ v : StateValue, 1 ≤ v.width → parse? v.text = some v := by
  refine ⟨⟨fun ⟨v, hv⟩ => exists_written hv, ?_⟩, ?_, ?_⟩
  · rintro ⟨ds, hds⟩
    obtain ⟨bs, hbs⟩ := hds.exists_spells
    exact ⟨_, hds.parse?_eq hbs⟩
  · intro v ds hv hds
    obtain ⟨bs, hbs⟩ := hds.exists_spells
    have hlen := hbs.length_eq
    have hne : evenDigits ds ≠ [] := by
      rw [evenDigits_eq]
      simp [hds.nonempty]
    obtain rfl : ⟨bs.reverse⟩ = v := Option.some.inj ((hds.parse?_eq hbs).symm.trans hv)
    refine ⟨?_, ?_, ?_⟩
    · rw [length_evenDigits] at hlen
      rw [width, List.length_reverse]
      omega
    · rw [← natOfDigits?_evenDigits hds.nonempty, Text.natOfDigits?_of_map hbs hne, foldl_nibbles]
    · rw [text, List.reverse_reverse, ← hbs.map_toLower, evenDigits_eq, List.map_append,
        List.map_replicate]
      rfl
  · intro v hv
    rw [parse?_text, if_neg (by omega)]

/-- Marks of both kinds and an odd number of digits, of either case. -/
theorem parse?_marked : parse? " 0x0x0X1aB\n" = some ⟨[0xab, 0x01]⟩ ∧
    Written " 0x0x0X1aB\n" ['1', 'a', 'B'] ∧ (⟨[0xab, 0x01]⟩ : StateValue).text = "0x01ab" := by
  have hparse : parse? " 0x0x0X1aB\n" = some ⟨[0xab, 0x01]⟩ := by decide
  have hwritten : Written " 0x0x0X1aB\n" ['1', 'a', 'B'] :=
    ⟨⟨2, 1, by decide⟩, by decide, List.all_eq_true.mp (by decide)⟩
  have htext := ((parse?_written _).2.1 _ _ hparse hwritten).2.2
  exact ⟨hparse, hwritten, htext.trans (by decide)⟩

end StateValue

end FlowState
