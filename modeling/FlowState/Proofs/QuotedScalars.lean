import FlowState.Proofs.EncodedText
import FlowState.Proofs.HexText
import FlowState.Proofs.PlainScalars

/-! # Texts in quotes

A text in single quotes, whose breaks are written with an indentation behind them, and a text in
double quotes, with an escape for each character that is not printable, are read as the text
(`quotedLoop_single`, `quotedLoop_double`). Between two words the quotes keep what `IsGap` says. -/

namespace FlowState.Yaml

/-! ### Quoted scalars -/

/-- The characters up to a blank, a break or the quote. -/
def quotedRun? (single : Bool) (r : List Char) : Option (List Char × List Char × Bool) :=
  if single then some ((singleRun r).1, (singleRun r).2, false) else doubleRun? r

/-- A word in quotes, with a gap or the quote behind it. -/
theorem quotedLoop_run {single : Bool} {e w r : List Char} {x : Char} {k : Nat} (hk : 0 < k)
    (hrun : quotedRun? single (e ++ x :: r) = some (w, x :: r, false)) (fuel : Nat)
    (acc : List Char) (i l : Nat) :
    quotedLoop single (fuel + 1) acc ⟨e ++ x :: r, i, l, k⟩ =
      if isWhite x || isBreak x then
        (readGap 0 ((x :: r).length + 1) Gap.none ⟨x :: r, i + e.length, l, k + e.length⟩).bind
          fun p => quotedLoop single fuel (acc ++ w ++ p.1.chars) p.2
      else some (acc ++ w, ⟨r, i + e.length + 1, l, k + e.length + 1⟩) := by
  have hne : k ≠ 0 := by omega
  have hmark : (Cursor.atDocumentMark ⟨e ++ x :: r, i, l, k⟩ || (e ++ x :: r).isEmpty) = false := by
    simp [Cursor.atDocumentMark, Cursor.atMark, hne]
  have hmove : Cursor.move ⟨e ++ x :: r, i, l, k⟩ ((e ++ x :: r).length - (x :: r).length) =
      ⟨x :: r, i + e.length, l, k + e.length⟩ := by
    simp [Cursor.move]
  have hnext (j m : Nat) : Cursor.move ⟨x :: r, j, l, m⟩ 1 = ⟨r, j + 1, l, m + 1⟩ := rfl
  unfold quotedRun? at hrun
  cases single with
  | false =>
    rw [if_neg (by simp)] at hrun
    rw [quotedLoop, hmark]
    simp only [hrun, hmove, hnext, Cursor.peek?, List.head?_cons, Bool.false_eq_true, if_false,
      Option.bind_eq_bind, Option.bind_some]
  | true =>
    simp only [if_true, Option.some.injEq, Prod.mk.injEq, and_true] at hrun
    rw [quotedLoop, hmark]
    simp only [hrun.1, hrun.2, hmove, hnext, Cursor.peek?, List.head?_cons, Bool.false_eq_true,
      if_false, if_true, Option.bind_eq_bind, Option.bind_some]

/-- **Blanks and breaks that are read as some characters**, whatever word follows them. -/
structure IsGap (cs g : List Char) : Prop where
  blank : ∃ x t, cs = x :: t ∧ (isWhite x || isBreak x) = true
  read : ∀ r, Inked r → ∀ fuel, cs.length ≤ fuel → ∀ i l k, 0 < k → ∃ gap i' l' k',
    gap.chars = g ∧ 0 < k' ∧
      readGap 0 fuel Gap.none ⟨cs ++ r, i, l, k⟩ = some (gap, ⟨r, i', l', k'⟩)

theorem isGap_pad {n : Nat} (hn : n ≠ 0) : IsGap (pad n) (pad n) := by
  obtain ⟨n, rfl⟩ : ∃ m, n = m + 1 := ⟨n - 1, by omega⟩
  refine ⟨⟨' ', _, rfl, rfl⟩, fun r hr fuel hfuel i l k hk => ?_⟩
  rw [pad, List.length_replicate] at hfuel
  have := readGap_pad hr 0 hfuel Gap.none i l k
  exact ⟨_, _, _, _, by simp [Gap.none, Gap.chars], by omega, this⟩

/-- Breaks other than line feeds, with an indentation behind them. -/
theorem isGap_breaks {b : Char} {bs : List Char}
    (hbs : ∀ c ∈ b :: bs, isPrintable c = true ∧ isBreak c = true) (hb : b ≠ '\n') {n : Nat}
    (hn : 0 < n) : IsGap (b :: bs ++ pad n) (b :: bs) := by
  refine ⟨⟨b, _, rfl, by simp [(hbs b (by simp)).2]⟩, fun r hr fuel hfuel i l k hk => ?_⟩
  simp only [pad, List.length_append, List.length_cons, List.length_replicate] at hfuel
  have := readGap_lines hr 0 hbs hfuel i l k
  rw [← List.append_assoc] at this
  exact ⟨_, _, _, _, by simp [Gap.chars, hb], hn, this⟩

theorem IsGap.quotedLoop_eq {cs g : List Char} (h : IsGap cs g) {single : Bool} {e w r : List Char}
    (hrun : quotedRun? single (e ++ (cs ++ r)) = some (w, cs ++ r, false)) (hr : Inked r) {k : Nat}
    (hk : 0 < k) (fuel : Nat) (acc : List Char) (i l : Nat) :
    ∃ i' l' k', 0 < k' ∧ quotedLoop single (fuel + 1) acc ⟨e ++ (cs ++ r), i, l, k⟩ =
      quotedLoop single fuel (acc ++ w ++ g) ⟨r, i', l', k'⟩ := by
  obtain ⟨x, cs, rfl, hblank⟩ := h.blank
  have hfuel : (x :: cs).length ≤ (x :: (cs ++ r)).length + 1 := by
    simp only [List.length_cons, List.length_append]
    omega
  obtain ⟨gap, i', l', k', hgap, hk', hread⟩ :=
    h.read r hr _ hfuel (i + e.length) l (k + e.length) (by omega)
  rw [List.cons_append] at hrun hread ⊢
  refine ⟨i', l', k', hk', ?_⟩
  rw [quotedLoop_run hk hrun, if_pos hblank, hread, Option.bind_some, hgap]

/-! ### Single quotes -/

/-- A word in single quotes. -/
def singleWord (w : List Char) : List Char :=
  w.flatMap fun c => if c == '\'' then ['\'', '\''] else [c]

theorem singleRun_blank {x : Char} (hx : (isWhite x || isBreak x) = true) (r : List Char) :
    singleRun (x :: r) = ([], x :: r) := by
  rw [singleRun, hx, Bool.true_or, if_pos rfl]
  rintro r rfl
  exact absurd hx (by decide)

theorem singleRun_append {w r : List Char} (hw : ∀ c ∈ w, (isWhite c || isBreak c) = false)
    (hr : singleRun r = ([], r)) : singleRun (singleWord w ++ r) = (w, r) := by
  induction w with
  | nil => exact hr
  | cons c w ih =>
    have ih := ih fun d hd => hw d (by simp [hd])
    by_cases hc : c = '\''
    · subst hc
      change singleRun ('\'' :: '\'' :: (singleWord w ++ r)) = _
      rw [singleRun, ih]
    · have hword : singleWord (c :: w) ++ r = c :: (singleWord w ++ r) := by
        simp [singleWord, hc]
      have hc' : (isWhite c || isBreak c || c == '\'') = false := by
        rw [hw c (by simp)]
        simp [hc]
      rw [hword, singleRun, hc', ih]
      · rfl
      · simp [hc]

theorem singleChars_append {w : List Char} (hw : ∀ c ∈ w, isBreak c = false) (column : Nat)
    (t : List Char) :
    singleChars column false (w ++ t) = singleWord w ++ singleChars column false t := by
  induction w with
  | nil => rfl
  | cons c w ih =>
    simp [singleChars, singleWord, hw c (by simp), ih fun d hd => hw d (by simp [hd])]

theorem singleChars_broken {t : List Char} (ht : Inked t) (column : Nat) :
    singleChars column true t = pad column ++ singleChars column false t := by
  cases t with
  | nil => simp [singleChars]
  | cons c t =>
    obtain ⟨hwhite, hbreak⟩ := ht c rfl
    have hspace : isSpace c = false := by
      simp only [isWhite, Bool.or_eq_false_iff] at hwhite
      exact hwhite.1
    simp [singleChars, hbreak, hspace]

theorem singleChars_breaks {b : Char} {bs t : List Char}
    (hbs : ∀ c ∈ b :: bs, isBreak c = true) (ht : Inked t) (column : Nat) (broken : Bool) :
    singleChars column broken (b :: bs ++ t) =
      b :: bs ++ (pad column ++ singleChars column false t) := by
  induction bs generalizing b broken with
  | nil => simp [singleChars, hbs b (by simp), singleChars_broken ht]
  | cons d bs ih =>
    have ih := ih (b := d) (fun c hc => hbs c (by simp [List.mem_cons.mp hc])) true
    rw [List.cons_append, singleChars, if_pos (hbs b (by simp)), ih]
    rfl

theorem inked_singleChars {t : List Char} (ht : Inked t) (column : Nat) (r : List Char) :
    Inked (singleChars column false t ++ r) := by
  cases t with
  | nil =>
    intro c hc
    obtain rfl : '\'' = c := by simpa [singleChars] using hc
    decide
  | cons c t =>
    obtain ⟨hwhite, hbreak⟩ := ht c rfl
    intro d hd
    by_cases hc : c = '\''
    · subst hc
      obtain rfl : '\'' = d := Option.some.inj hd
      decide
    · obtain rfl : c = d := by simpa [singleChars, hbreak, hc] using hd
      exact ⟨hwhite, hbreak⟩

theorem length_lt_singleChars (column : Nat) (s : List Char) (broken : Bool) :
    s.length < (singleChars column broken s).length := by
  induction s generalizing broken with
  | nil => cases broken <;> simp [singleChars]
  | cons c s ih =>
    have h1 := ih true
    have h2 := ih (broken && isSpace c)
    rw [singleChars]
    split
    · simpa using h1
    · have hpos : 1 ≤ (if c == '\'' then ['\'', '\''] else [c]).length := by split <;> simp
      simp only [List.length_append, List.length_cons]
      omega

theorem hasPair_append {p q : Char → Bool} {x y : List Char} (h : hasPair p q (x ++ y) = false) :
    hasPair p q x = false ∧ hasPair p q y = false := by
  induction x with
  | nil => exact ⟨rfl, h⟩
  | cons a x ih =>
    rw [List.cons_append] at h
    cases x with
    | nil =>
      refine ⟨rfl, ?_⟩
      cases y with
      | nil => rfl
      | cons b y => exact (Bool.or_eq_false_iff.mp h).2
    | cons b x =>
      obtain ⟨hab, hrest⟩ := Bool.or_eq_false_iff.mp h
      obtain ⟨hx, hy⟩ := ih hrest
      exact ⟨Bool.or_eq_false_iff.mpr ⟨hab, hx⟩, hy⟩

/-- Without mixed neighbours, a gap is all blanks or all breaks. -/
theorem gap_uniform {g : List Char} (hg : ∀ c ∈ g, (isSpace c || isBreak c) = true)
    (h1 : hasPair isBreak isSpace g = false) (h2 : hasPair isSpace isBreak g = false) :
    (∀ c ∈ g, isSpace c = true) ∨ ∀ c ∈ g, isBreak c = true := by
  induction g with
  | nil => simp
  | cons a g ih =>
    cases g with
    | nil => simpa using hg
    | cons b g =>
      obtain ⟨hab, h1⟩ := Bool.or_eq_false_iff.mp h1
      obtain ⟨hba, h2⟩ := Bool.or_eq_false_iff.mp h2
      have ha := hg a (by simp)
      rcases ih (fun c hc => hg c (by simp [List.mem_cons.mp hc])) h1 h2 with h | h
      · left
        have hb := h b (by simp)
        simp_all
      · right
        have hb := h b (by simp)
        simp_all

theorem eq_pad_of_spaces {g : List Char} (hg : ∀ c ∈ g, isSpace c = true) : g = pad g.length :=
  List.eq_replicate_iff.mpr ⟨rfl, by simpa [isSpace] using hg⟩

theorem isGap_of_spaces {g : List Char} (hne : g ≠ []) (hg : ∀ c ∈ g, isSpace c = true) :
    IsGap g g := by
  have hgap := isGap_pad (fun h => hne (List.length_eq_zero_iff.mp h))
  rwa [← eq_pad_of_spaces hg] at hgap

/-- A printable character that is no space is not white. -/
theorem not_white_of_printable {w : List Char} (hprint : ∀ c ∈ w, isPrintable c = true)
    (hw : ∀ c ∈ w, (isSpace c || isBreak c) = false) :
    ∀ c ∈ w, (isWhite c || isBreak c) = false := fun c hc => by
  rw [isWhite_eq_isSpace (hprint c hc)]
  exact hw c hc

/-- Between two words in single quotes, blanks stand for themselves, and so do breaks with an
indentation. -/
theorem exists_gap_single {column : Nat} (hcolumn : 0 < column) {g s : List Char} (hne : g ≠ [])
    (hg : ∀ c ∈ g, (isSpace c || isBreak c) = true) (hs : Inked s)
    (hprint : ∀ c ∈ g, isPrintable c = true) (hfeed : '\n' ∉ g)
    (h1 : hasPair isBreak isSpace g = false) (h2 : hasPair isSpace isBreak g = false) :
    ∃ cs, IsGap cs g ∧
      singleChars column false (g ++ s) = cs ++ singleChars column false s := by
  rcases gap_uniform hg h1 h2 with hspaces | hbreaks
  · have hspace : ∀ c ∈ g, c = ' ' := by simpa [isSpace] using hspaces
    have hword : singleWord g = g := by
      have hsame : ∀ c ∈ g, (if c == '\'' then ['\'', '\''] else [c]) = [c] := fun c hc => by
        simp [hspace c hc]
      rw [singleWord, List.flatMap_congr hsame, List.flatMap_singleton']
    refine ⟨g, isGap_of_spaces hne hspaces, ?_⟩
    rw [singleChars_append (fun c hc => by simp [hspace c hc, isBreak]), hword]
  · obtain ⟨b, g, rfl⟩ := List.exists_cons_of_ne_nil hne
    have hb : b ≠ '\n' := by
      rintro rfl
      exact hfeed (by simp)
    refine ⟨b :: g ++ pad column, isGap_breaks (fun c hc => ⟨hprint c hc, hbreaks c hc⟩) hb hcolumn,
      ?_⟩
    rw [singleChars_breaks hbreaks hs, List.append_assoc]

/-- **A text in single quotes is read.** -/
theorem quotedLoop_single {column : Nat} (hcolumn : 0 < column) {s : List Char}
    (hprint : ∀ c ∈ s, isPrintable c = true) (hfeed : '\n' ∉ s)
    (h1 : hasPair isBreak isSpace s = false) (h2 : hasPair isSpace isBreak s = false)
    (r : List Char) {fuel k : Nat} (hfuel : s.length < fuel) (hk : 0 < k) (acc : List Char)
    (i l : Nat) :
    ∃ i' l' k', quotedLoop true fuel acc ⟨singleChars column false s ++ '\n' :: r, i, l, k⟩ =
      some (acc ++ s, ⟨'\n' :: r, i', l', k'⟩) := by
  obtain ⟨fuel, rfl⟩ : ∃ f, fuel = f + 1 := ⟨fuel - 1, by omega⟩
  induction s using words_induction (fun c => isSpace c || isBreak c)
    generalizing fuel k acc i l with
  | last w hw =>
    have hword := not_white_of_printable hprint hw
    have hbreak : ∀ c ∈ w, isBreak c = false := fun c hc => (Bool.or_eq_false_iff.mp (hw c hc)).2
    have hchars : singleChars column false w ++ '\n' :: r = singleWord w ++ '\'' :: '\n' :: r := by
      have := singleChars_append hbreak column []
      rw [List.append_nil] at this
      rw [this, List.append_assoc]
      rfl
    have hrun : quotedRun? true (singleWord w ++ '\'' :: '\n' :: r) =
        some (w, '\'' :: '\n' :: r, false) := by
      rw [quotedRun?, if_pos rfl, singleRun_append hword (by simp [singleRun])]
    rw [hchars, quotedLoop_run hk hrun]
    exact ⟨_, _, _, if_neg (by decide)⟩
  | gap w g s hw hne hg hs ih =>
    have hword := not_white_of_printable (fun c hc => hprint c (by simp [hc])) hw
    have hbreak : ∀ c ∈ w, isBreak c = false := fun c hc => (Bool.or_eq_false_iff.mp (hw c hc)).2
    have hinked : Inked s := fun c hc => by
      rw [isWhite_eq_isSpace (hprint c (by simp [List.mem_of_mem_head? hc]))]
      exact Bool.or_eq_false_iff.mp (hs c hc)
    simp only [List.mem_append, not_or] at hfeed
    obtain ⟨h1g, h1s⟩ := hasPair_append (hasPair_append h1).2
    obtain ⟨h2g, h2s⟩ := hasPair_append (hasPair_append h2).2
    obtain ⟨cs, hgap, hcs⟩ := exists_gap_single hcolumn hne hg hinked
      (fun c hc => hprint c (by simp [hc])) hfeed.2.1 h1g h2g
    have hrun : quotedRun? true
        (singleWord w ++ (cs ++ (singleChars column false s ++ '\n' :: r))) =
        some (w, cs ++ (singleChars column false s ++ '\n' :: r), false) := by
      obtain ⟨x, cs, rfl, hx⟩ := hgap.blank
      rw [List.cons_append, quotedRun?, if_pos rfl, singleRun_append hword (singleRun_blank hx _)]
    have hlen := List.length_pos_of_ne_nil hne
    simp only [List.length_append] at hfuel
    obtain ⟨fuel, rfl⟩ : ∃ f, fuel = f + 1 := ⟨fuel - 1, by omega⟩
    obtain ⟨i1, l1, k1, hk1, hloop⟩ := hgap.quotedLoop_eq hrun
      (inked_singleChars hinked column _) hk (fuel + 1) acc i l
    obtain ⟨i2, l2, k2, hend⟩ := ih (fun c hc => hprint c (by simp [hc])) hfeed.2.2 h1s h2s hk1
      (acc ++ w ++ g) i1 l1 fuel (by omega)
    refine ⟨i2, l2, k2, ?_⟩
    rw [singleChars_append hbreak, hcs, List.append_assoc, List.append_assoc, hloop, hend]
    simp

/-! ### Double quotes -/

theorem doubleRun?_blank {x : Char} (hx : (isWhite x || isBreak x) = true) (r : List Char) :
    doubleRun? (x :: r) = some ([], x :: r, false) := by
  rw [doubleRun?.eq_def]
  simp only [hx, Bool.true_or, if_true]

section Characters

variable {c : Char} (r : List Char)

theorem doubleRun?_plain (hc : (isWhite c || isBreak c) = false) (hquote : c ≠ '"')
    (hslash : c ≠ '\\') :
    doubleRun? (c :: r) = (doubleRun? r).map fun p => (c :: p.1, p.2) := by
  rw [doubleRun?.eq_def]
  simp only [hc, beq_eq_false_iff_ne.mpr hquote, beq_eq_false_iff_ne.mpr hslash, Bool.or_false,
    Bool.false_eq_true, if_false]

variable {e : Char} (he : isBreak e = false)
include he

theorem doubleRun?_escaped (h : escaped? e = some c) :
    doubleRun? ('\\' :: e :: r) = (doubleRun? r).map fun p => (c :: p.1, p.2) := by
  rw [doubleRun?.eq_def]
  simp only [show (isWhite '\\' || isBreak '\\' || '\\' == '"') = false from rfl, beq_self_eq_true,
    he, h, Bool.false_eq_true, if_false, if_true]

theorem doubleRun?_code {ds : List Char} (hnone : escaped? e = none)
    (hwidth : codeWidth? e = some ds.length)
    (hcode : (Text.natOfDigits? 16 ds).bind Text.charOfCode? = some c) :
    doubleRun? ('\\' :: e :: (ds ++ r)) = (doubleRun? r).map fun p => (c :: p.1, p.2) := by
  have hchar : codeChar? ds.length (ds ++ r) = some c := by
    rw [codeChar?, List.take_left, if_pos rfl, hcode]
  rw [doubleRun?.eq_def]
  simp only [show (isWhite '\\' || isBreak '\\' || '\\' == '"') = false from rfl, beq_self_eq_true,
    he, hnone, hwidth, hchar, Bool.false_eq_true, if_false, if_true, List.drop_left,
    Option.bind_eq_bind, Option.bind_some]
  cases doubleRun? r <;> rfl

end Characters

/-- Capital digits denote the number that they are written for. -/
theorem denotes_capitalHex (width n : Nat) : Text.Denotes 16 (capitalHex width n) n :=
  (Text.denotes_digitsPadded (by decide) width n).map_toUpper le_rfl

theorem natOfDigits?_capitalHex (width n : Nat) :
    Text.natOfDigits? 16 (capitalHex width n) = some n :=
  (Text.natOfDigits?_eq_some_iff le_rfl).mpr (denotes_capitalHex width n)

theorem length_capitalHex {width n : Nat} (hw : 0 < width) (hn : n < 16 ^ width) :
    (capitalHex width n).length = width := by
  have := (Nat.length_toDigits_le_iff (by omega) hw).mpr hn
  simp only [capitalHex, Text.digitsPadded, List.length_map, List.length_append,
    List.length_replicate]
  omega

/-- **A character in double quotes is read**, as it is or by one of its escapes. -/
theorem doubleRun?_doubleChar {c : Char} (hc : isSpace c = false) (r : List Char) :
    doubleRun? (doubleChar c ++ r) = (doubleRun? r).map fun p => (c :: p.1, p.2) := by
  have hcode (width : Nat) :
      (Text.natOfDigits? 16 (capitalHex width c.toNat)).bind Text.charOfCode? = some c := by
    rw [natOfDigits?_capitalHex, Option.bind_some, Text.charOfCode?_toNat]
  have hescapes : ∀ e ∈ escapes, escaped? e.2 = some e.1 ∧ isBreak e.2 = false := by decide
  rw [doubleChar]
  split
  · next hplain =>
    simp only [Bool.and_eq_true, bne_iff_ne, Bool.not_eq_true'] at hplain
    obtain ⟨⟨⟨hprint, hbreak⟩, hquote⟩, hslash⟩ := hplain
    refine doubleRun?_plain r ?_ hquote hslash
    rw [isWhite_eq_isSpace hprint, hc, hbreak]
    rfl
  · cases hfind : escapes.find? fun e => e.1 == c with
    | some e =>
      obtain ⟨he, hbreak⟩ := hescapes e (List.mem_of_find?_eq_some hfind)
      obtain rfl : e.1 = c := by simpa using List.find?_some hfind
      exact doubleRun?_escaped r hbreak he
    | none =>
      have hlt : c.toNat < 0x110000 := by
        have := c.valid
        simp only [UInt32.isValidChar, Nat.isValidChar] at this
        change c.val.toNat < 0x110000
        omega
      dsimp only
      split
      · refine doubleRun?_code r rfl rfl ?_ (hcode 2)
        rw [length_capitalHex (by omega) (by omega)]
        rfl
      · split
        · refine doubleRun?_code r rfl rfl ?_ (hcode 4)
          rw [length_capitalHex (by omega) (by omega)]
          rfl
        · refine doubleRun?_code r rfl rfl ?_ (hcode 8)
          rw [length_capitalHex (by omega) (by omega)]
          rfl

theorem doubleRun?_append {w r : List Char} (hw : ∀ c ∈ w, isSpace c = false)
    (hr : doubleRun? r = some ([], r, false)) :
    doubleRun? (w.flatMap doubleChar ++ r) = some (w, r, false) := by
  induction w with
  | nil => exact hr
  | cons c w ih =>
    rw [List.flatMap_cons, List.append_assoc, doubleRun?_doubleChar (hw c (by simp)),
      ih fun d hd => hw d (by simp [hd])]
    rfl

theorem flatMap_doubleChar_pad (n : Nat) : (pad n).flatMap doubleChar = pad n := by
  induction n with
  | zero => rfl
  | succ n ih =>
    change doubleChar ' ' ++ (pad n).flatMap doubleChar = _
    rw [ih]
    rfl

theorem length_le_doubleChars (s : List Char) : s.length ≤ (s.flatMap doubleChar).length := by
  induction s with
  | nil => simp
  | cons c s ih =>
    have hpos : 0 < (doubleChar c).length := by
      unfold doubleChar
      split
      · simp
      · split
        · simp
        · dsimp only
          split
          · simp
          · split <;> simp
    simp only [List.flatMap_cons, List.length_append, List.length_cons]
    omega

theorem inked_doubleChar {c : Char} (hc : isSpace c = false) (r : List Char) :
    Inked (doubleChar c ++ r) := by
  have hslash (t : List Char) : Inked ('\\' :: t) := by
    intro d hd
    obtain rfl : '\\' = d := by simpa using hd
    decide
  rw [doubleChar]
  split
  · next hplain =>
    simp only [Bool.and_eq_true, bne_iff_ne, Bool.not_eq_true'] at hplain
    obtain ⟨⟨⟨hprint, hbreak⟩, -⟩, -⟩ := hplain
    intro d hd
    obtain rfl : c = d := by simpa using hd
    exact ⟨by rw [isWhite_eq_isSpace hprint, hc], hbreak⟩
  · split
    · exact hslash _
    · dsimp only
      split
      · exact hslash _
      · split <;> exact hslash _

/-- **A text in double quotes is read.** -/
theorem quotedLoop_double {s r : List Char} {fuel k : Nat} (hfuel : s.length < fuel) (hk : 0 < k)
    (acc : List Char) (i l : Nat) :
    ∃ i' l' k', quotedLoop false fuel acc ⟨s.flatMap doubleChar ++ '"' :: r, i, l, k⟩ =
      some (acc ++ s, ⟨r, i', l', k'⟩) := by
  obtain ⟨fuel, rfl⟩ : ∃ f, fuel = f + 1 := ⟨fuel - 1, by omega⟩
  induction s using words_induction isSpace generalizing fuel k acc i l with
  | last w hw =>
    have hrun : quotedRun? false (w.flatMap doubleChar ++ '"' :: r) = some (w, '"' :: r, false) :=
      doubleRun?_append hw (by rw [doubleRun?.eq_def]; rfl)
    rw [quotedLoop_run hk hrun]
    exact ⟨_, _, _, if_neg (by decide)⟩
  | gap w g s hw hne hg hs ih =>
    have hgap := isGap_of_spaces hne hg
    have hsame : g.flatMap doubleChar = g := by rw [eq_pad_of_spaces hg, flatMap_doubleChar_pad]
    have hrun : quotedRun? false (w.flatMap doubleChar ++ (g ++ (s.flatMap doubleChar ++
        '"' :: r))) = some (w, g ++ (s.flatMap doubleChar ++ '"' :: r), false) := by
      obtain ⟨x, cs, hcs, hx⟩ := hgap.blank
      rw [hcs]
      exact doubleRun?_append hw (doubleRun?_blank hx _)
    have hinked : Inked (s.flatMap doubleChar ++ '"' :: r) := by
      cases s with
      | nil =>
        intro c hc
        obtain rfl : '"' = c := by simpa using hc
        decide
      | cons c s =>
        rw [List.flatMap_cons, List.append_assoc]
        exact inked_doubleChar (hs c rfl) _
    have hlen := List.length_pos_of_ne_nil hne
    simp only [List.length_append] at hfuel
    obtain ⟨fuel, rfl⟩ : ∃ f, fuel = f + 1 := ⟨fuel - 1, by omega⟩
    obtain ⟨i1, l1, k1, hk1, hloop⟩ := hgap.quotedLoop_eq hrun hinked hk (fuel + 1) acc i l
    obtain ⟨i2, l2, k2, hend⟩ := ih hk1 (acc ++ w ++ g) i1 l1 fuel (by omega)
    refine ⟨i2, l2, k2, ?_⟩
    rw [List.flatMap_append, List.flatMap_append, hsame, List.append_assoc, List.append_assoc,
      hloop, hend]
    simp

end FlowState.Yaml
