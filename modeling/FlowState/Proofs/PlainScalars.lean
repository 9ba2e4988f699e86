import FlowState.Yaml.Printer
import FlowState.Yaml.Scalar
import Mathlib.Data.List.Basic
import Mathlib.Data.List.TakeWhile

/-! # Words, gaps and plain scalars

A scalar is read word by word. Whatever the style of a scalar is, its text falls into words and the
gaps between them (`words_induction`), where the style says which characters make a gap. A text that
is printed plain (`IsPlainText`) is read as itself, and the reader stops at the end of its line or
at the colon behind a key. -/

namespace FlowState.Yaml

/-! ### Words and gaps -/

/-- **A text by its words**: characters that fail a test, a run of some that pass it, and so on. -/
theorem words_induction (p : Char → Bool) {P : List Char → Prop}
    (last : ∀ w, (∀ c ∈ w, p c = false) → P w)
    (gap : ∀ w g t, (∀ c ∈ w, p c = false) → g ≠ [] → (∀ c ∈ g, p c = true) →
      (∀ c ∈ t.head?, p c = false) → P t → P (w ++ (g ++ t))) (s : List Char) : P s := by
  induction hn : s.length using Nat.strongRecOn generalizing s with
  | ind n ih =>
    subst hn
    have hw : ∀ c ∈ s.takeWhile (!p ·), p c = false := fun c hc => by
      simpa using List.mem_takeWhile_imp hc
    have hs : s = s.takeWhile (!p ·) ++ s.dropWhile (!p ·) := List.takeWhile_append_dropWhile.symm
    generalize s.takeWhile (!p ·) = w at hw hs
    by_cases hr : s.dropWhile (!p ·) = []
    · rw [hs, hr, List.append_nil]
      exact last w hw
    · have hhead : ∀ c ∈ (s.dropWhile (!p ·)).head?, p c = true := fun c hc => by
        have := List.head?_dropWhile_not (!p ·) s
        rw [Option.mem_def.mp hc] at this
        simpa using this
      generalize s.dropWhile (!p ·) = r at hr hs hhead
      obtain ⟨a, r, rfl⟩ := List.exists_cons_of_ne_nil hr
      have hlen : ((a :: r).dropWhile p).length < s.length := by
        have := List.length_dropWhile_le p r
        rw [List.dropWhile_cons_of_pos (hhead a rfl), hs]
        simp only [List.length_append, List.length_cons]
        omega
      rw [hs, ← List.takeWhile_append_dropWhile (p := p) (l := a :: r)]
      refine gap w _ _ hw ?_ (fun c hc => List.mem_takeWhile_imp hc) ?_ (ih _ hlen _ rfl)
      · rw [List.takeWhile_cons_of_pos (hhead a rfl)]
        simp
      · intro c hc
        have := List.head?_dropWhile_not p (a :: r)
        rw [Option.mem_def.mp hc] at this
        simpa using this

/-- Neither a blank nor a break is at the front. -/
def Inked (r : List Char) : Prop := ∀ c ∈ r.head?, isWhite c = false ∧ isBreak c = false

theorem isWhite_eq_isSpace {c : Char} (h : isPrintable c = true) : isWhite c = isSpace c := by
  have htab : c ≠ '\t' := by
    rintro rfl
    exact absurd h (by decide)
  simp [isWhite, isSpace, htab]

/-- Of the breaks, a printable text has the line feed and the separators. -/
theorem eq_of_isBreak {c : Char} (h : isPrintable c = true) (hb : isBreak c = true) :
    c = '\n' ∨ c = '\u2028' ∨ c = '\u2029' := by
  have hr : c ≠ '\r' := by
    rintro rfl
    exact absurd h (by decide)
  have hnext : c ≠ '\x85' := by
    rintro rfl
    exact absurd h (by decide)
  simpa [isBreak, hr, hnext, or_assoc] using hb

theorem isWhite_of_isBreak {c : Char} (h : isBreak c = true) : isWhite c = false := by
  have : c = '\n' ∨ c = '\r' ∨ c = '\x85' ∨ c = '\u2028' ∨ c = '\u2029' := by
    simpa [isBreak, or_assoc] using h
  rcases this with rfl | rfl | rfl | rfl | rfl <;> rfl

theorem isBreak_feed : ∀ c ∈ ['\n'], isPrintable c = true ∧ isBreak c = true := by
  intro c hc
  obtain rfl : c = '\n' := by simpa using hc
  exact ⟨rfl, rfl⟩

/-- Such a break is kept as it is. -/
theorem takeBreak_printable {c : Char} (h : isPrintable c = true) (hb : isBreak c = true)
    (r : List Char) (i l k : Nat) :
    Cursor.takeBreak ⟨c :: r, i, l, k⟩ = ([c], ⟨r, i + 1, l + 1, 0⟩) := by
  rcases eq_of_isBreak h hb with rfl | rfl | rfl <;> rfl

theorem readGap_inked {r : List Char} (hr : Inked r) (least fuel : Nat) (g : Gap) (i l k : Nat) :
    readGap least fuel g ⟨r, i, l, k⟩ = some (g, ⟨r, i, l, k⟩) := by
  cases fuel with
  | zero => rfl
  | succ fuel =>
    cases r with
    | nil => rfl
    | cons c r => simp [readGap, (hr c rfl).1, (hr c rfl).2]

/-- Blanks on one line are kept, and those behind a break are not. -/
theorem readGap_pad {r : List Char} (hr : Inked r) (least : Nat) {n fuel : Nat} (hn : n ≤ fuel)
    (g : Gap) (i l k : Nat) :
    readGap least fuel g ⟨pad n ++ r, i, l, k⟩ =
      some (if g.broken then g else { g with blanks := g.blanks ++ pad n },
        ⟨r, i + n, l, k + n⟩) := by
  induction n generalizing fuel g i k with
  | zero => simp [pad, readGap_inked hr]
  | succ n ih =>
    obtain ⟨fuel, rfl⟩ : ∃ f, fuel = f + 1 := ⟨fuel - 1, by omega⟩
    have hpad : pad (n + 1) ++ r = ' ' :: (pad n ++ r) := rfl
    rw [hpad, readGap]
    simp only [show isWhite ' ' = true from rfl, show (' ' == '\t') = false from rfl, Cursor.move,
      List.drop_succ_cons, List.drop_zero, Bool.and_false, Bool.false_and, Bool.false_eq_true,
      if_true, if_false]
    rw [ih (by omega)]
    cases hg : g.broken <;> simp [hg, pad, List.replicate_succ, Nat.add_assoc, Nat.add_comm 1 n]

theorem readGap_breaks {r : List Char} (hr : Inked r) (least : Nat) {bs : List Char} {n fuel : Nat}
    (hbs : ∀ c ∈ bs, isPrintable c = true ∧ isBreak c = true) (hn : bs.length + n ≤ fuel)
    {g : Gap} (hg : g.broken = true) (i l : Nat) :
    readGap least fuel g ⟨bs ++ (pad n ++ r), i, l, 0⟩ =
      some ({ g with breaks := g.breaks ++ bs }, ⟨r, i + bs.length + n, l + bs.length, n⟩) := by
  induction bs generalizing fuel g i l with
  | nil =>
    rw [List.nil_append, readGap_pad hr least (show n ≤ fuel by simpa using hn), if_pos hg]
    simp
  | cons b bs ih =>
    obtain ⟨hp, hb⟩ := hbs b (by simp)
    simp only [List.length_cons] at hn
    obtain ⟨fuel, rfl⟩ : ∃ f, fuel = f + 1 := ⟨fuel - 1, by omega⟩
    rw [List.cons_append, readGap]
    simp only [isWhite_of_isBreak hb, hb, takeBreak_printable hp hb, hg, Bool.false_eq_true,
      if_true, if_false]
    rw [ih (fun c hc => hbs c (by simp [hc])) (by omega) rfl]
    simp only [List.append_assoc, List.singleton_append, List.length_cons, Option.some.injEq,
      Prod.mk.injEq, Cursor.mk.injEq, true_and, and_true]
    omega

/-- The breaks between two words and the blanks behind them. -/
theorem readGap_lines {r : List Char} (hr : Inked r) (least : Nat) {b : Char} {bs : List Char}
    {n fuel : Nat} (hbs : ∀ c ∈ b :: bs, isPrintable c = true ∧ isBreak c = true)
    (hn : bs.length + 1 + n ≤ fuel) (i l k : Nat) :
    readGap least fuel Gap.none ⟨b :: bs ++ (pad n ++ r), i, l, k⟩ =
      some (⟨[], [b], bs, true⟩, ⟨r, i + 1 + bs.length + n, l + 1 + bs.length, n⟩) := by
  obtain ⟨hp, hb⟩ := hbs b (by simp)
  obtain ⟨fuel, rfl⟩ : ∃ f, fuel = f + 1 := ⟨fuel - 1, by omega⟩
  rw [List.cons_append, readGap]
  simp only [isWhite_of_isBreak hb, hb, takeBreak_printable hp hb, Gap.none, Bool.false_eq_true,
    if_true, if_false]
  rw [readGap_breaks hr least (fun c hc => hbs c (by simp [hc])) (by omega) rfl]
  simp

/-! ### Plain scalars -/

/-- A word of a plain scalar. -/
structure IsWord (w : List Char) : Prop where
  ne_nil : w ≠ []
  inked : ∀ c ∈ w, isWhite c = false ∧ isBreak c = false
  head_ne : w.head? ≠ some '#'
  last_ne : w.getLast? ≠ some ':'

theorem plainRun?_append {w r : List Char} (hw : ∀ c ∈ w, isWhite c = false ∧ isBreak c = false)
    (hlast : w.getLast? ≠ some ':') (hr : plainRun? false r = some []) :
    plainRun? false (w ++ r) = some w := by
  induction w with
  | nil => exact hr
  | cons c w ih =>
    obtain ⟨hwhite, hbreak⟩ := hw c (by simp)
    have hends : endsPlain false c (w ++ r) = false := by
      cases w with
      | nil => simp [endsPlain, show c ≠ ':' by simpa using hlast]
      | cons d w =>
        obtain ⟨hd, hd'⟩ := hw d (by simp)
        simp [endsPlain, endsWord, hd, hd']
    have hrest : plainRun? false (w ++ r) = some w := by
      refine ih (fun d hd => hw d (by simp [hd])) ?_
      cases w with
      | nil => simp
      | cons d w => simpa using hlast
    simp [plainRun?, hwhite, hbreak, isLostColon, hends, hrest]

section Loop

variable {w : List Char} (hw : IsWord w) {least k : Nat} (hk : 0 < k)
include hw hk

theorem IsWord.startsRun (r : List Char) (i l : Nat) :
    (Cursor.atDocumentMark ⟨w ++ r, i, l, k⟩ ||
      Cursor.startsWith ⟨w ++ r, i, l, k⟩ '#') = false := by
  obtain ⟨c, w, rfl⟩ := List.exists_cons_of_ne_nil hw.ne_nil
  have hc : c ≠ '#' := fun h => hw.head_ne (by simp [h])
  have : k ≠ 0 := by omega
  simp [Cursor.atDocumentMark, Cursor.atMark, Cursor.startsWith, hc, this]

/-- Behind a word the blanks and breaks are read. -/
theorem IsWord.plainLoop_eq {x : Char} (hx : (isWhite x || isBreak x) = true) (r : List Char)
    (fuel : Nat) (acc : List Char) (g : Gap) (i l : Nat) :
    plainLoop false least (fuel + 1) acc g ⟨w ++ x :: r, i, l, k⟩ =
      (readGap least (r.length + 2) Gap.none ⟨x :: r, i + w.length, l, k + w.length⟩).bind fun p =>
        if p.2.column < least then some (acc ++ g.chars ++ w, p.1.broken, p.2)
        else plainLoop false least fuel (acc ++ g.chars ++ w) p.1 p.2 := by
  have hrun : plainRun? false (w ++ x :: r) = some w :=
    plainRun?_append hw.inked hw.last_ne (by rw [plainRun?, if_pos hx])
  rw [plainLoop, if_neg (by rw [hw.startsRun hk]; simp), hrun]
  simp only [Cursor.move, Cursor.peek?, List.drop_left, List.head?_cons, hx, if_true,
    List.isEmpty_eq_false_iff.mpr hw.ne_nil, Bool.false_eq_true, if_false, Option.bind_eq_bind,
    Option.bind_some, List.length_cons, Bool.not_false, Bool.true_and, decide_eq_true_eq]

/-- A word and the blanks between it and the next one. -/
theorem IsWord.plainLoop_gap {t : List Char} (ht : Inked t) {n : Nat} (hn : n ≠ 0)
    (hleast : least ≤ k + 1) (fuel : Nat) (acc : List Char) (g : Gap) (i l : Nat) :
    plainLoop false least (fuel + 1) acc g ⟨w ++ (pad n ++ t), i, l, k⟩ =
      plainLoop false least fuel (acc ++ g.chars ++ w) ⟨pad n, [], [], false⟩
        ⟨t, i + (w.length + n), l, k + (w.length + n)⟩ := by
  obtain ⟨n, rfl⟩ : ∃ m, n = m + 1 := ⟨n - 1, by omega⟩
  have hlen : n + 1 ≤ (pad n ++ t).length + 2 := by
    simp only [pad, List.length_append, List.length_replicate]
    omega
  have hgap := readGap_pad ht least hlen Gap.none (i + w.length) l (k + w.length)
  change plainLoop false least (fuel + 1) acc g ⟨w ++ ' ' :: (pad n ++ t), i, l, k⟩ = _
  change readGap least _ _ ⟨' ' :: (pad n ++ t), _, _, _⟩ = _ at hgap
  rw [hw.plainLoop_eq hk rfl, hgap, Option.bind_some, if_neg (by dsimp only; omega)]
  simp [Gap.none, Nat.add_assoc]

/-- The last word of a scalar, before the end of its line. -/
theorem IsWord.plainLoop_line {t : List Char} (ht : Inked t) {n : Nat} (hn : n < least)
    (fuel : Nat) (acc : List Char) (g : Gap) (i l : Nat) :
    plainLoop false least (fuel + 1) acc g ⟨w ++ '\n' :: (pad n ++ t), i, l, k⟩ =
      some (acc ++ g.chars ++ w, true, ⟨t, i + w.length + 1 + n, l + 1, n⟩) := by
  have hlen : 0 + 1 + n ≤ (pad n ++ t).length + 2 := by
    simp only [pad, List.length_append, List.length_replicate]
    omega
  have hgap := readGap_lines ht least isBreak_feed hlen (i + w.length) l (k + w.length)
  change readGap least _ _ ⟨'\n' :: (pad n ++ t), _, _, _⟩ = _ at hgap
  rw [hw.plainLoop_eq hk rfl, hgap, Option.bind_some, if_pos hn]
  simp

/-- The last word of a key. -/
theorem IsWord.plainLoop_colon {t : List Char} (ht : endsWord t = true) (fuel : Nat)
    (acc : List Char) (g : Gap) (i l : Nat) :
    plainLoop false least (fuel + 1) acc g ⟨w ++ ':' :: t, i, l, k⟩ =
      some (acc ++ g.chars ++ w, false, ⟨':' :: t, i + w.length, l, k + w.length⟩) := by
  have hcolon : plainRun? false (':' :: t) = some [] := by
    simp [plainRun?, isLostColon, endsPlain, ht, isWhite, isBreak]
  have hrun : plainRun? false (w ++ ':' :: t) = some w :=
    plainRun?_append hw.inked hw.last_ne hcolon
  rw [plainLoop, if_neg (by rw [hw.startsRun hk]; simp), hrun]
  simp [Cursor.move, Cursor.peek?, hw.ne_nil, isWhite, isBreak, Gap.none]

end Loop

/-- **What a plain scalar may be**, or what is left of one where a word starts. -/
structure IsPlainText (s : List Char) : Prop where
  printable : ∀ c ∈ s, isPrintable c = true
  unbroken : ∀ c ∈ s, isBreak c = false
  head : ∃ c ∈ s.head?, isSpace c = false ∧ c ≠ '#'
  last : ∀ c ∈ s.getLast?, isSpace c = false
  unmarked : breaksPlain s = false

theorem breaksPlain_right {x y : List Char} (h : breaksPlain (x ++ y) = false) :
    breaksPlain y = false := by
  induction x with
  | nil => exact h
  | cons a x ih =>
    refine ih ?_
    rw [List.cons_append] at h
    cases hxy : x ++ y with
    | nil => rfl
    | cons b r =>
      rw [hxy] at h
      simp only [breaksPlain, Bool.or_eq_false_iff] at h
      exact h.2

theorem getLast?_ne_colon {w r : List Char} (h : breaksPlain (w ++ r) = false)
    (hr : endsWord r = true) : w.getLast? ≠ some ':' := by
  induction w with
  | nil => simp
  | cons a w ih =>
    have ih := ih (breaksPlain_right (x := [a]) h)
    cases w with
    | nil =>
      cases r with
      | nil => simpa [breaksPlain] using h
      | cons b r =>
        simp only [List.cons_append, List.nil_append, breaksPlain, hr, Bool.and_true,
          Bool.or_eq_false_iff, beq_eq_false_iff_ne] at h
        simpa using h.1.1
    | cons b w => simpa using ih

theorem head?_ne_hash {n : Nat} {t : List Char} (h : breaksPlain (pad (n + 1) ++ t) = false) :
    t.head? ≠ some '#' := by
  have h1 : breaksPlain (' ' :: t) = false := by
    refine breaksPlain_right (x := pad n) ?_
    rw [← List.singleton_append, ← List.append_assoc]
    rwa [pad, List.replicate_succ'] at h
  cases t with
  | nil => simp
  | cons b t =>
    simp only [breaksPlain, endsWord, show isWhite ' ' = true from rfl, Bool.true_or,
      Bool.true_and, Bool.or_eq_false_iff, beq_eq_false_iff_ne] at h1
    simpa using h1.1.2

theorem IsPlainText.inked {s : List Char} (h : IsPlainText s) (r : List Char) : Inked (s ++ r) := by
  obtain ⟨c, hc, hspace, -⟩ := h.head
  have hmem : c ∈ s := List.mem_of_mem_head? hc
  have hhead : (s ++ r).head? = some c := by simp [List.head?_append, Option.mem_def.mp hc]
  intro d hd
  obtain rfl : c = d := Option.some.inj (hhead.symm.trans hd)
  exact ⟨by rw [isWhite_eq_isSpace (h.printable c hmem), hspace], h.unbroken c hmem⟩

/-- A plain scalar has a first word, and what follows it is the end or blanks and such a scalar
again. -/
theorem IsPlainText.isWord {w r : List Char} (h : IsPlainText (w ++ r))
    (hw : ∀ c ∈ w, isSpace c = false) (hr : ∀ c ∈ r.head?, isSpace c = true) : IsWord w := by
  have hprint : ∀ c ∈ w, isPrintable c = true := fun c hc => h.printable c (by simp [hc])
  obtain ⟨c, hc, hspace, hhash⟩ := h.head
  have hne : w ≠ [] := by
    rintro rfl
    exact absurd (hr c hc) (by simp [hspace])
  obtain ⟨a, w, rfl⟩ := List.exists_cons_of_ne_nil hne
  obtain rfl : a = c := by simpa using hc
  have hblank : endsWord r = true := by
    cases r with
    | nil => rfl
    | cons b r => simp [endsWord, isWhite, show b = ' ' by simpa [isSpace] using hr b rfl]
  refine ⟨hne, fun c hc => ⟨?_, h.unbroken c (List.mem_append_left _ hc)⟩, ?_, ?_⟩
  · rw [isWhite_eq_isSpace (hprint c hc), hw c hc]
  · simpa using hhash
  · exact getLast?_ne_colon h.unmarked hblank

theorem IsPlainText.right {w t : List Char} {n : Nat} (h : IsPlainText (w ++ (pad (n + 1) ++ t)))
    (ht : ∀ c ∈ t.head?, isSpace c = false) : IsPlainText t := by
  have hmarks : breaksPlain (pad (n + 1) ++ t) = false := breaksPlain_right h.unmarked
  have hne : t ≠ [] := by
    rintro rfl
    have := h.last ' ' (by simp [pad, List.replicate_succ'])
    exact absurd this (by decide)
  obtain ⟨a, t, rfl⟩ := List.exists_cons_of_ne_nil hne
  refine ⟨fun c hc => h.printable c (by simp_all), fun c hc => h.unbroken c (by simp_all),
    ⟨a, rfl, ht a rfl, ?_⟩, fun c hc => h.last c ?_, breaksPlain_right hmarks⟩
  · simpa using head?_ne_hash hmarks
  · simp_all

/-- **A plain scalar is read word by word**, if its last word is read as a last word is. -/
theorem IsPlainText.plainLoop_eq {least l : Nat} {t : List Char}
    (result : List Char → Nat → Nat → Option (List Char × Bool × Cursor))
    (hlast : ∀ w k, IsWord w → 0 < k → ∀ fuel acc g i, plainLoop false least (fuel + 1) acc g
      ⟨w ++ t, i, l, k⟩ = result (acc ++ g.chars ++ w) (i + w.length) (k + w.length))
    {s : List Char} (hs : IsPlainText s) {fuel k : Nat} (hfuel : s.length < fuel) (hk : 0 < k)
    (hleast : least ≤ k + 1) (acc : List Char) (g : Gap) (i : Nat) :
    plainLoop false least fuel acc g ⟨s ++ t, i, l, k⟩ =
      result (acc ++ g.chars ++ s) (i + s.length) (k + s.length) := by
  obtain ⟨fuel, rfl⟩ : ∃ f, fuel = f + 1 := ⟨fuel - 1, by omega⟩
  induction s using words_induction isSpace generalizing fuel k acc g i with
  | last w hw =>
    have hword : IsWord w := IsPlainText.isWord (r := []) (by simpa using hs) hw (by simp)
    exact hlast w k hword hk fuel acc g i
  | gap w b s hw hb hb' hs' ih =>
    obtain ⟨n, rfl⟩ : ∃ n, b = pad (n + 1) := by
      refine ⟨b.length - 1, List.eq_replicate_iff.mpr ⟨?_, ?_⟩⟩
      · have := List.length_pos_of_ne_nil hb
        omega
      · simpa [isSpace] using hb'
    have hword : IsWord w := hs.isWord hw (by simp [pad, List.replicate_succ, isSpace])
    have hrest : IsPlainText s := hs.right hs'
    simp only [pad, List.length_append, List.length_replicate] at hfuel
    obtain ⟨fuel, rfl⟩ : ∃ f, fuel = f + 1 := ⟨fuel - 1, by omega⟩
    have hnext := ih hrest (k := k + (w.length + (n + 1))) (by omega) (by omega)
      (acc ++ g.chars ++ w) ⟨pad (n + 1), [], [], false⟩ (i + (w.length + (n + 1))) fuel (by omega)
    rw [List.append_assoc, List.append_assoc,
      hword.plainLoop_gap hk (hrest.inked t) (by omega) hleast, hnext]
    simp [pad, Gap.chars, Nat.add_assoc]

end FlowState.Yaml
