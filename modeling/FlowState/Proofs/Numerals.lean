import FlowState.Text.Numeral
import Mathlib.Data.List.Forall2
import Mathlib.Data.List.Induction
import Mathlib.Data.List.TakeWhile
import Mathlib.Data.Nat.Digits.Defs
import Mathlib.Tactic.Ring

/-! # Numerals

Which texts denote a number is said without the reader: a digit of a base is a character for a value
below it, in either case (`DigitOf`), digits denote the number with these values in the base
(`Denotes`), and a numeral may carry one plus sign (`Signed`). The reader of words accepts exactly
the numerals of numbers below `2 ^ 64` (`word?_eq_some_iff`). Zeros in front do not matter
(`Denotes.zeros`), and the digits that are written denote the number (`denotes_toDigits`).

A text is trimmed if it has no blank at its ends and only blanks were around it (`Trimmed`). -/

namespace FlowState.Text

/-! ### Digits -/

/-- The character is the digit of the base for a value, in lower or in upper case. -/
def DigitOf (base : Nat) (c : Char) (d : Nat) : Prop :=
  d < base ∧ (c = Nat.digitChar d ∨ c = (Nat.digitChar d).toUpper)

/-- Hexadecimal digits stand among the first characters. -/
theorem toNat_lt_of_hexDigit? {c : Char} {n : Nat} (h : hexDigit? c = some n) : c.toNat < 128 := by
  unfold hexDigit? at h
  simp only [Char.le_def, UInt32.le_iff_toNat_le] at h
  split_ifs at h with h1 h2 h3
  · exact lt_of_le_of_lt h1.2 (by decide)
  · exact lt_of_le_of_lt h2.2 (by decide)
  · exact lt_of_le_of_lt h3.2 (by decide)

theorem hexDigit?_eq_some_iff {c : Char} {d : Nat} :
    hexDigit? c = some d ↔ DigitOf 16 c d := by
  constructor
  · intro h
    have hall : ∀ m : Fin 128, ∀ d ∈ hexDigit? (Char.ofNat m), d < 16 ∧
        (Char.ofNat m = Nat.digitChar d ∨ Char.ofNat m = (Nat.digitChar d).toUpper) := by decide
    have hc := hall ⟨c.toNat, toNat_lt_of_hexDigit? h⟩ d
    rw [Char.ofNat_toNat] at hc
    exact hc h
  · rintro ⟨hd, hc⟩
    have hall : ∀ d : Fin 16, hexDigit? (Nat.digitChar d) = some d.val ∧
        hexDigit? (Nat.digitChar d).toUpper = some d.val := by decide
    obtain ⟨hlower, hupper⟩ := hall ⟨d, hd⟩
    rcases hc with rfl | rfl
    · exact hlower
    · exact hupper

section Digits
variable {base : Nat} (hbase : base ≤ 16)
include hbase

theorem digit?_eq_some_iff {c : Char} {d : Nat} : digit? base c = some d ↔ DigitOf base c d := by
  unfold digit?
  rw [Option.filter_eq_some_iff, hexDigit?_eq_some_iff, decide_eq_true_eq]
  constructor
  · rintro ⟨⟨-, hc⟩, hlt⟩
    exact ⟨hlt, hc⟩
  · rintro ⟨hlt, hc⟩
    exact ⟨⟨by omega, hc⟩, hlt⟩

/-- A digit is no sign and no blank. -/
theorem DigitOf.plain {c : Char} {d : Nat} (h : DigitOf base c d) :
    c ≠ '+' ∧ isBlank c = false := by
  have hlower : ∀ d : Fin 16, Nat.digitChar d ≠ '+' ∧ isBlank (Nat.digitChar d) = false := by
    decide
  have hupper : ∀ d : Fin 16,
      (Nat.digitChar d).toUpper ≠ '+' ∧ isBlank (Nat.digitChar d).toUpper = false := by decide
  have hd : d < 16 := lt_of_lt_of_le h.1 hbase
  rcases h.2 with rfl | rfl
  · exact hlower ⟨d, hd⟩
  · exact hupper ⟨d, hd⟩

end Digits

/-! ### Numbers -/

/-- **The characters denote the number**: they are digits of the base, at least one, and the number
is the one with their values, the highest first. -/
def Denotes (base : Nat) (cs : List Char) (n : Nat) : Prop :=
  ∃ ds : List Nat, ds ≠ [] ∧ List.Forall₂ (DigitOf base) cs ds ∧ Nat.ofDigits base ds.reverse = n

/-- One more digit at the end. -/
theorem ofDigits_reverse (base : Nat) (ds : List Nat) :
    Nat.ofDigits base ds.reverse = ds.foldl (fun n d => n * base + d) 0 := by
  induction ds using List.reverseRecOn with
  | nil => rfl
  | append_singleton ds d ih =>
    rw [List.reverse_append, List.reverse_singleton, List.singleton_append, Nat.ofDigits_cons, ih,
      List.foldl_append, List.foldl_cons, List.foldl_nil]
    ring

theorem foldl_digitStep_none (base : Nat) (cs : List Char) :
    cs.foldl (digitStep base) none = none := by
  induction cs with
  | nil => rfl
  | cons c cs ih => exact ih

section Reader
variable {base : Nat} (hbase : base ≤ 16)
include hbase

/-- **The reader takes digits one by one**, each behind those before it. -/
theorem foldl_digitStep_eq_some_iff {cs : List Char} {a n : Nat} :
    cs.foldl (digitStep base) (some a) = some n ↔
      ∃ ds, List.Forall₂ (DigitOf base) cs ds ∧ ds.foldl (fun n d => n * base + d) a = n := by
  induction cs generalizing a with
  | nil =>
    simp only [List.foldl_nil, Option.some.injEq, List.forall₂_nil_left_iff, exists_eq_left]
  | cons c cs ih =>
    rw [List.foldl_cons]
    cases hd : digit? base c with
    | none =>
      have hstep : digitStep base (some a) c = none := by simp [digitStep, hd]
      rw [hstep, foldl_digitStep_none]
      constructor
      · intro h
        cases h
      · rintro ⟨ds, hds, -⟩
        obtain ⟨d, ds, hc, -, rfl⟩ := List.forall₂_cons_left_iff.mp hds
        rw [(digit?_eq_some_iff hbase).mpr hc] at hd
        cases hd
    | some d =>
      have hstep : digitStep base (some a) c = some (a * base + d) := by simp [digitStep, hd]
      rw [hstep, ih]
      constructor
      · rintro ⟨ds, hds, hn⟩
        exact ⟨d :: ds, .cons ((digit?_eq_some_iff hbase).mp hd) hds, hn⟩
      · rintro ⟨ds, hds, hn⟩
        obtain ⟨e, ds, hc, hrest, rfl⟩ := List.forall₂_cons_left_iff.mp hds
        rw [(digit?_eq_some_iff hbase).mpr hc, Option.some.injEq] at hd
        subst hd
        exact ⟨ds, hrest, hn⟩

theorem natOfDigits?_eq_some_iff {cs : List Char} {n : Nat} :
    natOfDigits? base cs = some n ↔ Denotes base cs n := by
  unfold natOfDigits? Denotes
  cases cs with
  | nil => simp
  | cons c cs =>
    rw [if_neg (by simp), foldl_digitStep_eq_some_iff hbase]
    constructor
    · rintro ⟨ds, hds, hn⟩
      refine ⟨ds, ?_, hds, by rw [ofDigits_reverse, hn]⟩
      rintro rfl
      cases hds
    · rintro ⟨ds, -, hds, hn⟩
      exact ⟨ds, hds, by rw [← ofDigits_reverse, hn]⟩

end Reader

/-! ### Signs -/

/-- Digits that denote the number, with or without one plus sign in front. -/
def Signed (base : Nat) (cs : List Char) (n : Nat) : Prop :=
  ∃ ds, (cs = ds ∨ cs = '+' :: ds) ∧ Denotes base ds n

section Signs
variable {base : Nat} (hbase : base ≤ 16) {cs : List Char}
include hbase

theorem not_denotes_plus {n : Nat} : ¬ Denotes base ('+' :: cs) n := by
  rintro ⟨ds, -, hds, -⟩
  obtain ⟨d, ds, hc, -, -⟩ := List.forall₂_cons_left_iff.mp hds
  exact (hc.plain hbase).1 rfl

theorem denotes_dropPlus_iff {n : Nat} : Denotes base (dropPlus cs) n ↔ Signed base cs n := by
  unfold dropPlus
  split
  · next r =>
    constructor
    · intro h
      exact ⟨r, Or.inr rfl, h⟩
    · rintro ⟨ds, rfl | hds, h⟩
      · exact absurd h (not_denotes_plus hbase)
      · cases hds
        exact h
  · next hplus =>
    constructor
    · intro h
      exact ⟨cs, Or.inl rfl, h⟩
    · rintro ⟨ds, rfl | rfl, h⟩
      · exact h
      · exact absurd rfl (hplus ds)

theorem Signed.unique {m n : Nat} (hm : Signed base cs m) (hn : Signed base cs n) : m = n := by
  rw [← denotes_dropPlus_iff hbase, ← natOfDigits?_eq_some_iff hbase] at hm hn
  exact Option.some.inj (hm.symm.trans hn)

/-- **A word is read from the numerals of its number.** -/
theorem word?_eq_some_iff {a : UInt64} : word? base cs = some a ↔ Signed base cs a.toNat := by
  unfold word?
  rw [Option.bind_eq_some_iff, ← denotes_dropPlus_iff hbase, ← natOfDigits?_eq_some_iff hbase]
  constructor
  · rintro ⟨n, hn, ha⟩
    rw [← wordOfNat?_eq_some.mp ha]
    exact hn
  · intro h
    exact ⟨a.toNat, h, wordOfNat?_toNat a⟩

end Signs

/-! ### Digits that are written -/

section Written
variable {base : Nat} {cs : List Char} {n : Nat}

theorem Denotes.exists_digitOf (h : Denotes base cs n) : ∀ c ∈ cs, ∃ d, DigitOf base c d := by
  obtain ⟨ds, -, hds, -⟩ := h
  induction hds with
  | nil => simp
  | @cons c d cs ds hc _ ih =>
    intro x hx
    rcases List.mem_cons.mp hx with rfl | hx
    · exact ⟨d, hc⟩
    · exact ih x hx

/-- In upper case the digits denote the same number. -/
theorem Denotes.map_toUpper (hbase : base ≤ 16) (h : Denotes base cs n) :
    Denotes base (cs.map Char.toUpper) n := by
  have hall : ∀ d : Fin 16, (Nat.digitChar d).toUpper.toUpper = (Nat.digitChar d).toUpper := by
    decide
  obtain ⟨ds, hne, hds, hn⟩ := h
  refine ⟨ds, hne, List.forall₂_map_left_iff.mpr (hds.imp ?_), hn⟩
  rintro c d ⟨hd, rfl | rfl⟩
  · exact ⟨hd, Or.inr rfl⟩
  · exact ⟨hd, Or.inr (hall ⟨d, lt_of_lt_of_le hd hbase⟩)⟩

theorem Denotes.concat (h : Denotes base cs n) {c : Char} {d : Nat} (hc : DigitOf base c d) :
    Denotes base (cs ++ [c]) (n * base + d) := by
  obtain ⟨ds, -, hds, rfl⟩ := h
  refine ⟨ds ++ [d], by simp, List.rel_append hds (.cons hc .nil), ?_⟩
  rw [ofDigits_reverse, ofDigits_reverse, List.foldl_append]
  rfl

/-- Zeros in front do not change the number. -/
theorem Denotes.zeros (hpos : 0 < base) (h : Denotes base cs n) (z : Nat) :
    Denotes base (List.replicate z '0' ++ cs) n := by
  obtain ⟨ds, hne, hds, rfl⟩ := h
  have hzeros : List.Forall₂ (DigitOf base) (List.replicate z '0') (List.replicate z 0) := by
    induction z with
    | zero => exact .nil
    | succ z ih => exact .cons ⟨hpos, Or.inl rfl⟩ ih
  refine ⟨List.replicate z 0 ++ ds, by simp [hne], List.rel_append hzeros hds, ?_⟩
  rw [List.reverse_append, List.reverse_replicate, Nat.ofDigits_append_replicate_zero]

/-- **The digits of a number denote it.** -/
theorem denotes_toDigits (hone : 1 < base) (n : Nat) : Denotes base (Nat.toDigits base n) n := by
  induction n using Nat.strongRecOn with
  | ind n ih =>
    have hdigit : DigitOf base (Nat.digitChar (n % base)) (n % base) :=
      ⟨Nat.mod_lt n (by omega), Or.inl rfl⟩
    by_cases hn : n < base
    · rw [Nat.toDigits_of_lt_base hn]
      rw [Nat.mod_eq_of_lt hn] at hdigit
      exact ⟨[n], by simp, .cons hdigit .nil, by simp⟩
    · have hlt : n / base < n := Nat.div_lt_self (by omega) hone
      have hprev := (ih (n / base) hlt).concat hdigit
      rw [Nat.div_add_mod'] at hprev
      rw [Nat.toDigits_of_base_le hone (by omega)]
      exact hprev

theorem denotes_digitsPadded (hone : 1 < base) (width n : Nat) :
    Denotes base (digitsPadded base width n) n :=
  (denotes_toDigits hone n).zeros (by omega) _

end Written

/-! ### Blanks around a text -/

/-- **The text without the blanks around it**: none is left at its ends, and nothing else is
missing. -/
structure Trimmed (s t : List Char) : Prop where
  around : ∃ l r, s = l ++ t ++ r ∧ (∀ c ∈ l, isBlank c = true) ∧ ∀ c ∈ r, isBlank c = true
  head : ∀ c ∈ t.head?, isBlank c = false
  last : ∀ c ∈ t.getLast?, isBlank c = false

theorem trimChars_of_forall {cs : List Char} (h : ∀ c ∈ cs, isBlank c = false) :
    trimChars cs = cs :=
  trimChars_of_ends (fun c hc => h c (List.mem_of_mem_head? hc))
    fun c hc => h c (List.mem_of_mem_getLast? hc)

theorem trimChars_around {l t r : List Char} (hl : ∀ c ∈ l, isBlank c = true)
    (hr : ∀ c ∈ r, isBlank c = true) : trimChars (l ++ t ++ r) = trimChars t := by
  unfold trimChars
  rw [List.append_assoc, List.dropWhile_append_of_pos hl, List.dropWhile_append]
  split
  · next hempty =>
    have hnil : r.dropWhile isBlank = [] := List.dropWhile_eq_nil_iff.mpr hr
    rw [hnil, List.isEmpty_iff.mp hempty]
  · have hrev : ∀ c ∈ r.reverse, isBlank c = true := fun c hc => hr c (List.mem_reverse.mp hc)
    rw [List.reverse_append, List.dropWhile_append_of_pos hrev]

theorem head?_dropWhile_isBlank (cs : List Char) :
    ∀ c ∈ (cs.dropWhile isBlank).head?, isBlank c = false := by
  intro c hc
  have h := List.head?_dropWhile_not isBlank cs
  rw [hc] at h
  simpa using h

theorem trimmed_iff {s t : List Char} : Trimmed s t ↔ trimChars s = t := by
  constructor
  · rintro ⟨⟨l, r, rfl, hl, hr⟩, hhead, hlast⟩
    rw [trimChars_around hl hr, trimChars_of_ends hhead hlast]
  · rintro rfl
    generalize hu : s.dropWhile isBlank = u
    have hfront : s.takeWhile isBlank ++ u = s := by
      rw [← hu]
      exact List.takeWhile_append_dropWhile
    -- the blanks behind are those in front of the reversed rest
    have hback : trimChars s ++ (u.reverse.takeWhile isBlank).reverse = u := by
      unfold trimChars
      rw [hu, ← List.reverse_append, List.takeWhile_append_dropWhile, List.reverse_reverse]
    refine ⟨⟨s.takeWhile isBlank, (u.reverse.takeWhile isBlank).reverse, ?_, ?_, ?_⟩, ?_, ?_⟩
    · rw [List.append_assoc, hback, hfront]
    · exact fun c hc => List.mem_takeWhile_imp hc
    · exact fun c hc => List.mem_takeWhile_imp (List.mem_reverse.mp hc)
    · intro c hc
      refine head?_dropWhile_isBlank s c ?_
      rw [hu, ← hback, List.head?_append, hc]
      rfl
    · intro c hc
      unfold trimChars at hc
      rw [List.getLast?_reverse] at hc
      exact head?_dropWhile_isBlank _ c hc

end FlowState.Text
