import FlowState.Address
import FlowState.Proofs.Numerals

/-! # Texts of addresses

The text of an address is a numeral: hexadecimal behind a mark `0x` or `0X`, and decimal where there
is no mark (`Address.Denotes`). A text denotes at most one number (`Denotes.unique`). The reader
finds the mark and leaves the rest to the reader of words, so it takes exactly the numerals of
addresses, with any number of zeros in front, and refuses the numerals of larger numbers. The text
that is written for an address is one of those that denote it (`denotes_text`), however many digits
the address needs. -/

namespace FlowState

namespace Address

/-! ### Marks -/

/-- The second character of a mark. -/
def IsMark (x : Char) : Prop := x = 'x' ∨ x = 'X'

/-- **The characters denote the number** as the text of an address. -/
inductive Denotes : List Char → Nat → Prop where
  | hex {x : Char} {r : List Char} {n : Nat} (mark : IsMark x) (h : Text.Signed 16 r n) :
      Denotes ('0' :: x :: r) n
  | decimal {cs : List Char} {n : Nat} (unmarked : ∀ x r, IsMark x → cs ≠ '0' :: x :: r)
      (h : Text.Signed 10 cs n) : Denotes cs n

theorem denotes_marked {x : Char} {r : List Char} {n : Nat} (hx : IsMark x) :
    Denotes ('0' :: x :: r) n ↔ Text.Signed 16 r n := by
  constructor
  · intro h
    cases h with
    | hex _ h => exact h
    | decimal unmarked _ => exact absurd rfl (unmarked x r hx)
  · exact .hex hx

theorem denotes_unmarked {cs : List Char} {n : Nat} (hcs : ∀ x r, IsMark x → cs ≠ '0' :: x :: r) :
    Denotes cs n ↔ Text.Signed 10 cs n := by
  constructor
  · intro h
    cases h with
    | @hex x r _ mark _ => exact absurd rfl (hcs x r mark)
    | decimal _ h => exact h
  · exact .decimal hcs

theorem marked_or_unmarked (cs : List Char) :
    (∃ x r, IsMark x ∧ cs = '0' :: x :: r) ∨ ∀ x r, IsMark x → cs ≠ '0' :: x :: r := by
  by_cases h : ∃ x r, IsMark x ∧ cs = '0' :: x :: r
  · exact Or.inl h
  · exact Or.inr fun x r hx hcs => h ⟨x, r, hx, hcs⟩

theorem Denotes.unique {cs : List Char} {m n : Nat} (hm : Denotes cs m) (hn : Denotes cs n) :
    m = n := by
  rcases marked_or_unmarked cs with ⟨x, r, hx, rfl⟩ | hcs
  · rw [denotes_marked hx] at hm hn
    exact hm.unique (by decide) hn
  · rw [denotes_unmarked hcs] at hm hn
    exact hm.unique (by decide) hn

/-! ### Reading -/

theorem ofChars?_marked {x : Char} (hx : IsMark x) (r : List Char) :
    ofChars? ('0' :: x :: r) = Text.word? 16 r := by
  rcases hx with rfl | rfl <;> rfl

theorem ofChars?_unmarked {cs : List Char} (hcs : ∀ x r, IsMark x → cs ≠ '0' :: x :: r) :
    ofChars? cs = Text.word? 10 cs := by
  have hnone : ∀ x, IsMark x → Text.afterPrefix? ['0', x] cs = none := by
    intro x hx
    rw [Option.eq_none_iff_forall_ne_some]
    intro r hr
    exact hcs x r hx (Text.afterPrefix?_eq_some.mp hr)
  unfold ofChars?
  rw [hnone 'x' (Or.inl rfl), hnone 'X' (Or.inr rfl)]

theorem ofChars?_eq_some_iff {cs : List Char} {a : Address} :
    ofChars? cs = some a ↔ Denotes cs a.toNat := by
  rcases marked_or_unmarked cs with ⟨x, r, hx, rfl⟩ | hcs
  · rw [ofChars?_marked hx, denotes_marked hx]
    exact Text.word?_eq_some_iff (by decide)
  · rw [ofChars?_unmarked hcs, denotes_unmarked hcs]
    exact Text.word?_eq_some_iff (by decide)

theorem parse?_eq_some_iff {s : String} {a : Address} :
    parse? s = some a ↔ ∃ cs, Text.Trimmed s.toList cs ∧ Denotes cs a.toNat := by
  unfold parse?
  rw [ofChars?_eq_some_iff]
  constructor
  · intro h
    exact ⟨_, Text.trimmed_iff.mpr rfl, h⟩
  · rintro ⟨cs, hcs, h⟩
    rw [Text.trimmed_iff.mp hcs]
    exact h

/-! ### Writing -/

theorem text_toList (a : Address) :
    a.text.toList = '0' :: 'x' :: Text.digitsPadded 16 8 a.toNat := by
  simp [text]

/-- **The text of an address denotes it**, and there is no blank around it. -/
theorem denotes_text (a : Address) :
    Text.Trimmed a.text.toList a.text.toList ∧ Denotes a.text.toList a.toNat := by
  have hdigits : Text.Denotes 16 (Text.digitsPadded 16 8 a.toNat) a.toNat :=
    Text.denotes_digitsPadded (by decide) 8 a.toNat
  have hplain : ∀ c ∈ a.text.toList, Text.isBlank c = false := by
    rw [text_toList, List.forall_mem_cons, List.forall_mem_cons]
    refine ⟨by decide, by decide, fun c hc => ?_⟩
    obtain ⟨d, hd⟩ := hdigits.exists_digitOf c hc
    exact (hd.plain le_rfl).2
  refine ⟨Text.trimmed_iff.mpr (Text.trimChars_of_forall hplain), ?_⟩
  rw [text_toList]
  exact .hex (Or.inl rfl) ⟨_, Or.inl rfl, hdigits⟩

/-- **The texts of addresses.** A text is read as an address exactly if, without the blanks around
it, it is a numeral of that address; a numeral of `2 ^ 64` or more is refused; and every address is
got back from the text that is written for it. -/
theorem parse?_numeral (s : String) (a : Address) :
    (parse? s = some a ↔ ∃ cs, Text.Trimmed s.toList cs ∧ Denotes cs a.toNat) ∧
    (∀ cs n, Text.Trimmed s.toList cs → Denotes cs n → 2 ^ 64 ≤ n → parse? s = none) ∧
    parse? a.text = some a := by
  refine ⟨parse?_eq_some_iff, ?_, ?_⟩
  · intro cs n hcs hn hlarge
    rw [Option.eq_none_iff_forall_ne_some]
    intro b hb
    obtain ⟨cs', hcs', hb⟩ := parse?_eq_some_iff.mp hb
    have hsame : cs = cs' := (Text.trimmed_iff.mp hcs).symm.trans (Text.trimmed_iff.mp hcs')
    subst hsame
    have hvalue := hn.unique hb
    have hlt := b.toNat_lt
    omega
  · exact parse?_eq_some_iff.mpr ⟨_, denotes_text a⟩

/-- Blanks, a sign and zeros around digits of both cases, and the first number that is refused. -/
theorem parse?_numeral_bounds :
    parse? " 0X+00fF\n" = some 255 ∧ parse? "18446744073709551616" = none := by
  have hdigits : Text.Denotes 16 ['0', '0', 'f', 'F'] 255 := by
    refine ⟨[0, 0, 15, 15], by decide, ?_, by decide⟩
    exact .cons ⟨by decide, by decide⟩ (.cons ⟨by decide, by decide⟩
      (.cons ⟨by decide, by decide⟩ (.cons ⟨by decide, by decide⟩ .nil)))
  have htrim : Text.Trimmed " 0X+00fF\n".toList ['0', 'X', '+', '0', '0', 'f', 'F'] :=
    Text.trimmed_iff.mpr (by decide)
  have hwritten : Nat.toDigits 10 (2 ^ 64) = "18446744073709551616".toList := by decide
  have hten : Text.Denotes 10 (Nat.toDigits 10 (2 ^ 64)) (2 ^ 64) :=
    Text.denotes_toDigits (by decide) _
  rw [hwritten] at hten
  have hlarge : Denotes "18446744073709551616".toList (2 ^ 64) :=
    .decimal (fun x r _ h => absurd h (by simp)) ⟨_, Or.inl rfl, hten⟩
  exact ⟨(parse?_numeral _ 255).1.mpr ⟨_, htrim, .hex (Or.inr rfl) ⟨_, Or.inr rfl, hdigits⟩⟩,
    (parse?_numeral _ 0).2.1 _ _ (Text.trimmed_iff.mpr (by decide)) hlarge le_rfl⟩

end Address

end FlowState
