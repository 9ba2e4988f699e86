import FlowState.Json.Reader
import FlowState.Proofs.EncodedText
import Mathlib.Data.List.DropRight
import Mathlib.Tactic.IntervalCases

/-! # Values and their JSON texts

Both printings of a value are read as the same document (`Document.ofJson`). What the reader does
with a part of a text is said by `Reads`, `ReadsItems` and `ReadsEntries`: the part is read, and
what follows is left alone. The laws of these three say how parts are put together, with blanks
between them, so that a printing only has to be taken apart along the value. The fuel of the reader
is no matter as long as it is more than the length of the part.

A free-form value is got back from its document if it is not too deep and its numbers are finite
(`Json.fits`). -/

namespace FlowState

open Text (Glyph)

namespace Json

/-! ### Blanks -/

/-- Nothing but blanks. -/
def Blank (cs : List Char) : Prop := ∀ c ∈ cs, isSpace (some c) = true

theorem blank_nil : Blank [] := by simp [Blank]

theorem blank_space : Blank [' '] := by simp [Blank, isSpace]

theorem blank_newline (level : Nat) : Blank (newline level) := by
  intro c hc
  unfold newline at hc
  rcases List.mem_cons.mp hc with rfl | hc
  · rfl
  · rw [List.eq_of_mem_replicate hc]
    rfl

theorem skipSpace_blank {b : List Char} (hb : Blank b) (gs : List Glyph) :
    skipSpace (b.map some ++ gs) = skipSpace gs := by
  unfold skipSpace
  refine List.dropWhile_append_of_pos fun g hg => ?_
  obtain ⟨c, hc, rfl⟩ := List.mem_map.mp hg
  exact hb c hc

theorem skipSpace_of_not {g : Glyph} (h : isSpace g = false) (gs : List Glyph) :
    skipSpace (g :: gs) = g :: gs := by
  simp [skipSpace, h]

theorem skipSpace_comma (gs : List Glyph) : skipSpace (some ',' :: gs) = some ',' :: gs :=
  skipSpace_of_not rfl gs

theorem skipSpace_colon (gs : List Glyph) : skipSpace (some ':' :: gs) = some ':' :: gs :=
  skipSpace_of_not rfl gs

theorem skipSpace_skipSpace (gs : List Glyph) : skipSpace (skipSpace gs) = skipSpace gs :=
  List.dropWhile_idempotent isSpace gs

/-! ### What may follow a number -/

/-- The glyphs go on with nothing that could belong to a number. -/
def Ends (gs : List Glyph) : Prop :=
  ∀ g ∈ gs.head?, isDigitGlyph g = false ∧ g ≠ some '.' ∧ g ≠ some 'e' ∧ g ≠ some 'E'

theorem ends_nil : Ends [] := by simp [Ends]

theorem ends_comma (gs : List Glyph) : Ends (some ',' :: gs) := by simp [Ends, isDigitGlyph]

theorem ends_bracket (gs : List Glyph) : Ends (some ']' :: gs) := by simp [Ends, isDigitGlyph]

theorem ends_brace (gs : List Glyph) : Ends (some '}' :: gs) := by simp [Ends, isDigitGlyph]

theorem ends_blank {b : List Char} (hb : Blank b) {gs : List Glyph} (h : Ends gs) :
    Ends (b.map some ++ gs) := by
  cases b with
  | nil => exact h
  | cons c b =>
    have hc := hb c (by simp)
    simp only [isSpace, Bool.or_eq_true, beq_iff_eq] at hc
    intro g hg
    simp only [List.map_cons, List.cons_append, List.head?_cons, Option.mem_some_iff] at hg
    subst hg
    rcases hc with ((rfl | rfl) | rfl) | rfl <;> simp [isDigitGlyph]

/-! ### Numbers -/

theorem digits_append {ds : List Char} (hd : ∀ c ∈ ds, c.isDigit = true) {gs : List Glyph}
    (hg : ∀ g ∈ gs.head?, isDigitGlyph g = false) :
    digits (ds.map some ++ gs) = (ds.map some, gs) := by
  have hall : ∀ g ∈ ds.map some, isDigitGlyph g = true := by
    intro g hg
    obtain ⟨c, hc, rfl⟩ := List.mem_map.mp hg
    exact hd c hc
  unfold digits
  rw [List.takeWhile_append_of_pos hall, List.dropWhile_append_of_pos hall]
  cases gs with
  | nil => simp
  | cons g gs => simp [hg g (by simp)]

theorem digitsValue_toDigits (n : Nat) : digitsValue ((Nat.toDigits 10 n).map some) = n := by
  have h : ∀ (ds : List Char) (a : Nat),
      (ds.map some).foldl (fun n g => n * 10 + digitOf g) a = Nat.ofDigitChars 10 ds a := by
    intro ds
    induction ds with
    | nil => simp
    | cons d ds ih =>
      intro a
      rw [List.map_cons, List.foldl_cons, ih, Nat.ofDigitChars_cons, Nat.mul_comm]
      rfl
  unfold digitsValue
  rw [h, Nat.ofDigitChars_ten_toDigits]

theorem isDigit_toDigits {n : Nat} : ∀ c ∈ Nat.toDigits 10 n, c.isDigit = true :=
  fun _ hc => Nat.isDigit_of_mem_toDigits (by decide) (by decide) hc

theorem exists_digit (n : Nat) : ∃ d ds, Nat.toDigits 10 n = d :: ds ∧ d.isDigit = true := by
  obtain ⟨d, ds, hds⟩ := List.exists_cons_of_ne_nil (Nat.toDigits_ne_nil (n := n) (b := 10))
  exact ⟨d, ds, hds, isDigit_toDigits d (by rw [hds]; simp)⟩

/-- A number that is not zero does not begin with a zero. -/
theorem head_toDigits {n : Nat} (hn : n ≠ 0) : (Nat.toDigits 10 n).head? ≠ some '0' := by
  induction n using Nat.strongRecOn with
  | ind n ih =>
    rw [Nat.toDigits_eq_if (by decide)]
    split_ifs with h
    · interval_cases n <;> simp_all
    · have hne : Nat.toDigits 10 (n / 10) ≠ [] := Nat.toDigits_ne_nil
      rw [List.head?_append_of_ne_nil _ hne]
      exact ih (n / 10) (by omega) (by omega)

theorem not_padded (n : Nat) :
    (((Nat.toDigits 10 n).map some).head? == some (some '0') &&
      ((Nat.toDigits 10 n).map some).length != 1) = false := by
  by_cases hn : n = 0
  · subst hn
    rfl
  · have h := head_toDigits hn
    simp_all

theorem fraction?_of_ne {gs : List Glyph} (h : ∀ g ∈ gs.head?, g ≠ some '.') :
    fraction? gs = some ([], gs) := by
  unfold fraction?
  split
  · exact absurd rfl (h _ (by simp))
  · rfl

theorem exponent?_of_ne {gs : List Glyph} (h : ∀ g ∈ gs.head?, g ≠ some 'e' ∧ g ≠ some 'E') :
    exponent? gs = some (none, gs) := by
  have he : ∀ r, gs ≠ some 'e' :: r := by
    rintro r rfl
    exact (h _ (by simp)).1 rfl
  have hE : ∀ r, gs ≠ some 'E' :: r := by
    rintro r rfl
    exact (h _ (by simp)).2 rfl
  unfold exponent?
  split <;> simp_all

/-- The characters of a power of ten. -/
def powerChars : Option Int → List Char
  | none => []
  | some e => 'e' :: (if e < 0 then ['-'] else []) ++ Nat.toDigits 10 e.natAbs

theorem exponent?_powerChars (o : Option Int) {gs : List Glyph} (hg : Ends gs) :
    exponent? ((powerChars o).map some ++ gs) = some (o, gs) := by
  cases o with
  | none => exact exponent?_of_ne fun g h => (hg g h).2.2
  | some e =>
    have hd := digits_append (isDigit_toDigits (n := e.natAbs)) fun g h => (hg g h).1
    have hv := digitsValue_toDigits e.natAbs
    have hne : ((Nat.toDigits 10 e.natAbs).map (some : Char → Glyph)).isEmpty = false := by
      simp [Nat.toDigits_ne_nil]
    by_cases he : e < 0
    · have habs : -1 * (e.natAbs : Int) = e := by omega
      simp only [powerChars, if_pos he, List.cons_append, List.nil_append, List.map_cons, exponent?,
        hd, hne, hv, habs, Bool.false_eq_true, if_false]
    · have habs : 1 * (e.natAbs : Int) = e := by omega
      -- The first digit is no sign, so that the reader takes the branch without one.
      obtain ⟨d, ds, hds, hdigit⟩ := exists_digit e.natAbs
      have hminus : d ≠ '-' := by rintro rfl; cases hdigit
      have hplus : d ≠ '+' := by rintro rfl; cases hdigit
      have hsign : exponent? (some 'e' :: ((d :: ds).map some ++ gs)) =
          if (digits ((d :: ds).map some ++ gs)).1.isEmpty then none
          else some (some (1 * (digitsValue (digits ((d :: ds).map some ++ gs)).1 : Int)),
            (digits ((d :: ds).map some ++ gs)).2) := by
        simp [exponent?, hminus, hplus]
      rw [← hds, hd] at hsign
      simp only [hne, hv, habs, Bool.false_eq_true, if_false] at hsign
      simp only [powerChars, if_neg he]
      exact hsign

theorem ends_whole (o : Option Int) {gs : List Glyph} (hg : Ends gs) :
    ∀ g ∈ ((powerChars o).map some ++ gs).head?, isDigitGlyph g = false ∧ g ≠ some '.' := by
  cases o with
  | none => exact fun g h => ⟨(hg g h).1, (hg g h).2.1⟩
  | some e => simp [powerChars, isDigitGlyph]

theorem unsigned?_chars (negative : Bool) (m : Nat) (o : Option Int) {gs : List Glyph}
    (hg : Ends gs) :
    unsigned? negative ((Nat.toDigits 10 m).map some ++ ((powerChars o).map some ++ gs)) =
      some (⟨negative, m, o⟩, gs) := by
  have hne : ((Nat.toDigits 10 m).map (some : Char → Glyph)).isEmpty = false := by
    simp [Nat.toDigits_ne_nil]
  have hend := ends_whole o hg
  have hd := digits_append (isDigit_toDigits (n := m)) fun g h => (hend g h).1
  have hf := fraction?_of_ne fun g h => (hend g h).2
  unfold unsigned?
  simp only [hd, hne, not_padded m, hf, exponent?_powerChars o hg, Option.bind_eq_bind,
    Option.bind_some, Bool.or_false, Bool.false_eq_true, if_false, List.append_nil,
    digitsValue_toDigits]
  cases o <;> simp

/-- **A number is read as it is written.** -/
theorem number?_chars (n : JsonNumber) {gs : List Glyph} (hg : Ends gs) :
    number? (n.chars.map some ++ gs) = some (n, gs) := by
  obtain ⟨negative, m, o⟩ := n
  have h := unsigned?_chars negative m o hg
  have hchars : (JsonNumber.chars ⟨negative, m, o⟩).map some ++ gs =
      (if negative then ['-'] else []).map some ++
        ((Nat.toDigits 10 m).map some ++ ((powerChars o).map some ++ gs)) := by
    cases o <;> simp [JsonNumber.chars, powerChars]
  rw [hchars]
  cases negative with
  | true => exact h
  | false =>
    obtain ⟨d, ds, hds, hdigit⟩ := exists_digit m
    have hminus : d ≠ '-' := by rintro rfl; cases hdigit
    rw [hds] at h ⊢
    rw [← h]
    simp [number?, hminus]

/-! ### Texts -/

/-- The piece of a quoted text that a character is written as. -/
def pieceOf (c : Char) : Piece :=
  if c.toNat < 0x20 ∧ c ≠ '\x08' ∧ c ≠ '\t' ∧ c ≠ '\n' ∧ c ≠ '\x0c' ∧ c ≠ '\r' then .unit c.toNat
  else .glyph (some c)

theorem codeUnit?_digitsPadded : ∀ n < 0x20, ∃ a b c d, Text.digitsPadded 16 4 n = [a, b, c, d] ∧
    codeUnit? (some a) (some b) (some c) (some d) = some n := by
  intro n hn
  interval_cases n <;> exact ⟨_, _, _, _, rfl, rfl⟩

theorem pieces?_escaped {e c : Char} (he : e ≠ 'u') (h : escaped? e = some c) (gs : List Glyph) :
    pieces? (some '\\' :: some e :: gs) =
      (pieces? gs).map fun p => (.glyph (some c) :: p.1, p.2) := by
  have hstep : pieces? (some '\\' :: some e :: gs) =
      (escaped? e).bind fun c => (pieces? gs).bind fun p => some (.glyph (some c) :: p.1, p.2) := by
    simp [pieces?, he]
  rw [hstep, h, Option.bind_some, Option.map_eq_bind]
  rfl

theorem pieces?_unit {a b c d : Glyph} {n : Nat} (h : codeUnit? a b c d = some n)
    (gs : List Glyph) :
    pieces? (some '\\' :: some 'u' :: a :: b :: c :: d :: gs) =
      (pieces? gs).map fun p => (.unit n :: p.1, p.2) := by
  rw [pieces?, h, Option.map_eq_bind]
  rfl

theorem pieces?_plain {c : Char} (h1 : c ≠ '"') (h2 : c ≠ '\\') (h3 : ¬ c.toNat < 0x20)
    (gs : List Glyph) :
    pieces? (some c :: gs) = (pieces? gs).map fun p => (.glyph (some c) :: p.1, p.2) := by
  have hstep : pieces? (some c :: gs) =
      (pieces? gs).bind fun p => some (.glyph (some c) :: p.1, p.2) := by
    simp [pieces?, h2, h3]
  rw [hstep, Option.map_eq_bind]
  rfl

theorem pieces?_escapeChar (c : Char) (gs : List Glyph) :
    pieces? ((escapeChar c).map some ++ gs) =
      (pieces? gs).map fun p => (pieceOf c :: p.1, p.2) := by
  unfold escapeChar
  split_ifs with h1 h2 h3 h4 h5 h6 h7 h8
  · subst h1
    exact pieces?_escaped (by decide) rfl gs
  · subst h2
    exact pieces?_escaped (by decide) rfl gs
  · subst h3
    exact pieces?_escaped (by decide) rfl gs
  · subst h4
    exact pieces?_escaped (by decide) rfl gs
  · subst h5
    exact pieces?_escaped (by decide) rfl gs
  · subst h6
    exact pieces?_escaped (by decide) rfl gs
  · subst h7
    exact pieces?_escaped (by decide) rfl gs
  · obtain ⟨a, b, d, e, hds, hn⟩ := codeUnit?_digitsPadded c.toNat h8
    rw [hds, pieceOf, if_pos ⟨h8, h3, h4, h5, h6, h7⟩]
    exact pieces?_unit hn gs
  · rw [pieceOf, if_neg fun h => h8 h.1]
    exact pieces?_plain h1 h2 h8 gs

/-- A control character is no half of a surrogate pair. -/
theorem joinPieces_pieceOf (c : Char) (ps : List Piece) :
    joinPieces (pieceOf c :: ps) = some c :: joinPieces ps := by
  unfold pieceOf
  split_ifs with h
  · have hhigh : isHighUnit c.toNat = false := by
      simp only [isHighUnit, Bool.and_eq_false_iff, decide_eq_false_iff_not]
      omega
    cases ps with
    | nil => simp [joinPieces, Text.charOfCode?_toNat]
    | cons p ps => cases p <;> simp [joinPieces, hhigh, Text.charOfCode?_toNat]
  · rw [joinPieces]

theorem pieces?_quoted (cs : List Char) (gs : List Glyph) :
    pieces? ((cs.flatMap escapeChar).map some ++ some '"' :: gs) = some (cs.map pieceOf, gs) := by
  induction cs with
  | nil => simp [pieces?]
  | cons c cs ih =>
    rw [List.flatMap_cons, List.map_append, List.append_assoc, pieces?_escapeChar, ih]
    rfl

/-- **A text is read as it is quoted.** -/
theorem quoted?_quote (cs : List Char) (gs : List Glyph) :
    quoted? ((cs.flatMap escapeChar).map some ++ some '"' :: gs) = some (cs.map some, gs) := by
  have hjoin : joinPieces (cs.map pieceOf) = cs.map some := by
    induction cs with
    | nil => rw [List.map_nil, joinPieces, List.map_nil]
    | cons c cs ih => rw [List.map_cons, joinPieces_pieceOf, ih, List.map_cons]
  unfold quoted?
  rw [pieces?_quoted, Option.map_some, ← hjoin]

/-! ### Parts of a text -/

/-- The characters are read as the document, whatever follows unless it could belong to a number. -/
def Reads (d : Document) (cs : List Char) : Prop :=
  ∀ fuel gs, cs.length < fuel → Ends gs → valueAt? fuel (cs.map some ++ gs) = some (d, gs)

/-- The characters are read as the items of an array up to its closing bracket. -/
def ReadsItems (ds : List Document) (cs : List Char) : Prop :=
  ∀ fuel gs, cs.length + 1 < fuel →
    itemsAt? fuel (cs.map some ++ some ']' :: gs) = some (ds, gs)

/-- The characters are read as the entries of an object up to its closing brace. -/
def ReadsEntries (es : List (List Glyph × Document)) (cs : List Char) : Prop :=
  ∀ fuel gs, cs.length + 1 < fuel →
    entriesAt? fuel (cs.map some ++ some '}' :: gs) = some (es, gs)

attribute [local simp] valueAt? itemsAt? entriesAt?

theorem valueAt?_skipSpace (fuel : Nat) (gs : List Glyph) :
    valueAt? fuel (skipSpace gs) = valueAt? fuel gs := by
  cases fuel with
  | zero => rw [valueAt?, valueAt?]
  | succ fuel => rw [valueAt?, valueAt?, skipSpace_skipSpace]

theorem itemsAt?_skipSpace (fuel : Nat) (gs : List Glyph) :
    itemsAt? fuel (skipSpace gs) = itemsAt? fuel gs := by
  cases fuel with
  | zero => rw [itemsAt?, itemsAt?]
  | succ fuel => rw [itemsAt?, itemsAt?, valueAt?_skipSpace]

theorem entriesAt?_skipSpace (fuel : Nat) (gs : List Glyph) :
    entriesAt? fuel (skipSpace gs) = entriesAt? fuel gs := by
  cases fuel with
  | zero => rw [entriesAt?, entriesAt?]
  | succ fuel => rw [entriesAt?, entriesAt?, skipSpace_skipSpace]

theorem Reads.blank {d : Document} {cs b : List Char} (h : Reads d cs) (hb : Blank b) :
    Reads d (b ++ cs) := by
  intro fuel gs hlen hg
  rw [List.length_append] at hlen
  rw [List.map_append, List.append_assoc, ← valueAt?_skipSpace, skipSpace_blank hb,
    valueAt?_skipSpace]
  exact h fuel gs (by omega) hg

/-! ### Scalars -/

theorem reads_null : Reads .null ['n', 'u', 'l', 'l'] := by
  rintro (_ | fuel) gs hlen -
  · omega
  · simp [skipSpace, isSpace]

theorem reads_true : Reads (.bool true) ['t', 'r', 'u', 'e'] := by
  rintro (_ | fuel) gs hlen -
  · omega
  · simp [skipSpace, isSpace]

theorem reads_false : Reads (.bool false) ['f', 'a', 'l', 's', 'e'] := by
  rintro (_ | fuel) gs hlen -
  · omega
  · simp [skipSpace, isSpace]

theorem reads_text (s : String) : Reads (.text (s.toList.map some)) (quote s) := by
  rintro (_ | fuel) gs hlen -
  · omega
  · have hq := quoted?_quote s.toList gs
    simp only [quote, List.map_cons, List.map_append, List.cons_append, List.append_assoc,
      List.map_nil, List.nil_append]
    rw [valueAt?, skipSpace_of_not rfl]
    simp only [hq, Option.map_some]

/-- A number begins with a sign or a digit. -/
theorem head_chars (n : JsonNumber) : ∃ c cs, n.chars = c :: cs ∧ (c = '-' ∨ c.isDigit = true) := by
  obtain ⟨negative, m, o⟩ := n
  obtain ⟨d, ds, hds, hdigit⟩ := exists_digit m
  unfold JsonNumber.chars
  cases negative with
  | true => exact ⟨'-', _, rfl, Or.inl rfl⟩
  | false => exact ⟨d, _, by simp only [hds]; rfl, Or.inr hdigit⟩

theorem reads_number (n : JsonNumber) : Reads (.number n) n.chars := by
  rintro (_ | fuel) gs hlen hg
  · omega
  · have hread := number?_chars n hg
    obtain ⟨c, cs, hcs, hc⟩ := head_chars n
    have hne : ∀ x : Char, x ≠ '-' → x.isDigit = false → c ≠ x := by
      rintro x h1 h2 rfl
      rcases hc with hc | hc
      · exact h1 hc
      · rw [h2] at hc
        cases hc
    have hspace : isSpace (some c) = false := by
      simp [isSpace, hne ' ', hne '\t', hne '\n', hne '\r']
    rw [hcs, List.map_cons, List.cons_append] at hread ⊢
    rw [valueAt?, skipSpace_of_not hspace]
    simp [hne 'n', hne 't', hne 'f', hne '"', hne '[', hne '{', hread]

/-! ### Arrays -/

theorem readsItems_last {d : Document} {cs b : List Char} (h : Reads d cs) (hb : Blank b) :
    ReadsItems [d] (cs ++ b) := by
  rintro (_ | fuel) gs hlen
  · omega
  · rw [List.length_append] at hlen
    rw [List.map_append, List.append_assoc, itemsAt?,
      h fuel _ (by omega) (ends_blank hb (ends_bracket gs))]
    simp only [Option.bind_eq_bind, Option.bind_some, skipSpace_blank hb]
    rfl

theorem readsItems_cons {d : Document} {ds : List Document} {cs es : List Char} (h : Reads d cs)
    (hs : ReadsItems ds es) : ReadsItems (d :: ds) (cs ++ ',' :: es) := by
  rintro (_ | fuel) gs hlen
  · omega
  · simp only [List.length_append, List.length_cons] at hlen
    rw [List.map_append, List.append_assoc, List.map_cons, List.cons_append, itemsAt?,
      h fuel _ (by omega) (ends_comma _)]
    simp only [Option.bind_eq_bind, Option.bind_some, skipSpace_comma, hs fuel gs (by omega)]
    rfl

/-- No item begins with a closing bracket. -/
theorem not_bracket_of_itemsAt? {fuel : Nat} {gs r : List Glyph} {p : List Document × List Glyph}
    (h : itemsAt? fuel gs = some p) : skipSpace gs ≠ some ']' :: r := by
  intro hgs
  rw [← itemsAt?_skipSpace, hgs] at h
  cases fuel with
  | zero => simp at h
  | succ fuel =>
    cases fuel with
    | zero => simp at h
    | succ fuel => simp [skipSpace, isSpace, number?, unsigned?, digits, isDigitGlyph] at h

theorem reads_emptyArray : Reads (.array []) ['[', ']'] := by
  rintro (_ | fuel) gs hlen -
  · omega
  · simp [skipSpace, isSpace]

theorem reads_array {ds : List Document} {cs : List Char} (h : ReadsItems ds cs) :
    Reads (.array ds) ('[' :: cs ++ [']']) := by
  rintro (_ | fuel) gs hlen -
  · omega
  · simp only [List.length_append, List.length_cons, List.length_nil] at hlen
    have hread := h fuel gs (by omega)
    simp only [List.map_cons, List.map_append, List.cons_append, List.append_assoc, List.map_nil,
      List.nil_append]
    rw [valueAt?, skipSpace_of_not rfl]
    simp only
    split
    · exact absurd ‹_› (not_bracket_of_itemsAt? hread)
    · rw [itemsAt?_skipSpace, hread]
      rfl

/-! ### Objects -/

/-- The characters of a member: its name, a colon and its value, with blanks before each of them. -/
def memberChars (b : List Char) (k : String) (c cs : List Char) : List Char :=
  b ++ (quote k ++ ':' :: (c ++ cs))

theorem entriesAt?_member {b c cs : List Char} (hb : Blank b) (hc : Blank c) {d : Document}
    (h : Reads d cs) (k : String) {fuel : Nat} (hlen : (memberChars b k c cs).length ≤ fuel)
    {gs : List Glyph} (hg : Ends gs) :
    entriesAt? (fuel + 1) ((memberChars b k c cs).map some ++ gs) =
      match skipSpace gs with
      | some ',' :: r => do
        let (es, r) ← entriesAt? fuel r
        return ((k.toList.map some, d) :: es, r)
      | some '}' :: r => some ([(k.toList.map some, d)], r)
      | _ => none := by
  simp only [memberChars, quote, List.length_append, List.length_cons] at hlen
  have hvalue := (h.blank hc) fuel gs (by rw [List.length_append]; omega) hg
  have hkey := quoted?_quote k.toList (some ':' :: ((c ++ cs).map some ++ gs))
  rw [← entriesAt?_skipSpace, memberChars, List.map_append, List.append_assoc, skipSpace_blank hb]
  simp only [quote, List.map_append, List.map_cons, List.cons_append, List.append_assoc,
    List.nil_append] at hvalue hkey ⊢
  rw [skipSpace_of_not rfl, entriesAt?, skipSpace_of_not rfl]
  simp only [hkey, Option.bind_eq_bind, Option.bind_some, skipSpace_colon, hvalue]
  rfl

theorem readsEntries_last {b c cs e : List Char} (hb : Blank b) (hc : Blank c) {d : Document}
    (h : Reads d cs) (k : String) (he : Blank e) :
    ReadsEntries [(k.toList.map some, d)] (memberChars b k c cs ++ e) := by
  rintro (_ | fuel) gs hlen
  · omega
  · rw [List.length_append] at hlen
    rw [List.map_append, List.append_assoc,
      entriesAt?_member hb hc h k (by omega) (ends_blank he (ends_brace gs)), skipSpace_blank he,
      skipSpace_of_not rfl]
    rfl

theorem readsEntries_cons {b c cs ms : List Char} (hb : Blank b) (hc : Blank c) {d : Document}
    (h : Reads d cs) (k : String) {es : List (List Glyph × Document)} (hs : ReadsEntries es ms) :
    ReadsEntries ((k.toList.map some, d) :: es) (memberChars b k c cs ++ ',' :: ms) := by
  rintro (_ | fuel) gs hlen
  · omega
  · simp only [List.length_append, List.length_cons] at hlen
    rw [List.map_append, List.append_assoc, List.map_cons, List.cons_append,
      entriesAt?_member hb hc h k (by omega) (ends_comma _), skipSpace_comma]
    simp only [Option.bind_eq_bind, Option.bind_some, hs fuel gs (by omega)]
    rfl

/-- No entry begins with a closing brace. -/
theorem not_brace_of_entriesAt? {fuel : Nat} {gs r : List Glyph}
    {p : List (List Glyph × Document) × List Glyph} (h : entriesAt? fuel gs = some p) :
    skipSpace gs ≠ some '}' :: r := by
  intro hgs
  cases fuel with
  | zero => simp at h
  | succ fuel => simp [hgs] at h

theorem reads_emptyObject : Reads (.object .absent []) ['{', '}'] := by
  rintro (_ | fuel) gs hlen -
  · omega
  · simp [skipSpace, isSpace]

theorem reads_object {es : List (List Glyph × Document)} {cs : List Char}
    (h : ReadsEntries es cs) : Reads (.object .absent es) ('{' :: cs ++ ['}']) := by
  rintro (_ | fuel) gs hlen -
  · omega
  · simp only [List.length_append, List.length_cons, List.length_nil] at hlen
    have hread := h fuel gs (by omega)
    simp only [List.map_cons, List.map_append, List.cons_append, List.append_assoc, List.map_nil,
      List.nil_append]
    rw [valueAt?, skipSpace_of_not rfl]
    simp only
    split
    · exact absurd ‹_› (not_brace_of_entriesAt? hread)
    · rw [entriesAt?_skipSpace, hread]
      rfl

/-- A text with nothing behind it is read as a whole. -/
theorem Reads.read? {d : Document} {cs : List Char} (h : Reads d cs) :
    read? (cs.map some) = some d := by
  have hread := h (cs.length + 1) [] (by omega) ends_nil
  rw [List.append_nil] at hread
  unfold Json.read?
  rw [List.length_map, hread]
  rfl

end Json

/-! ### The document of a value -/

mutual

/-- **The document that the texts of a value spell.** -/
def Document.ofJson : Json → Document
  | .null => .null
  | .bool b => .bool b
  | .number n => .number n
  | .text s => .text (s.toList.map some)
  | .array xs => .array (Document.ofItems xs)
  | .object ms => .object .absent (Document.ofMembers ms)

/-- The documents of the items of an array. -/
def Document.ofItems : List Json → List Document
  | [] => []
  | x :: xs => Document.ofJson x :: Document.ofItems xs

/-- The entries of the members of an object. -/
def Document.ofMembers : List (String × Json) → List (List Glyph × Document)
  | [] => []
  | m :: ms => Document.ofMember m :: Document.ofMembers ms

/-- The entry of a member. -/
def Document.ofMember : String × Json → List Glyph × Document
  | (k, v) => (k.toList.map some, Document.ofJson v)

end

theorem Document.ofItems_eq_map (xs : List Json) : ofItems xs = xs.map ofJson := by
  induction xs with
  | nil => rfl
  | cons x xs ih => rw [ofItems, ih, List.map_cons]

namespace Json

open Document (ofJson ofItems ofMembers)

mutual

theorem reads_compactChars : ∀ j, Reads (ofJson j) (compactChars j)
  | .null => reads_null
  | .bool true => reads_true
  | .bool false => reads_false
  | .number n => reads_number n
  | .text s => reads_text s
  | .array [] => reads_emptyArray
  | .array (x :: xs) => reads_array (readsItems_compactItems (x :: xs) (List.cons_ne_nil x xs))
  | .object [] => reads_emptyObject
  | .object (m :: ms) =>
    reads_object (readsEntries_compactMembers (m :: ms) (List.cons_ne_nil m ms))

theorem readsItems_compactItems : ∀ xs, xs ≠ [] → ReadsItems (ofItems xs) (compactItems xs)
  | [], h => absurd rfl h
  | [x], _ => by
    have h := readsItems_last (reads_compactChars x) blank_nil
    rwa [List.append_nil] at h
  | x :: y :: ys, _ =>
    readsItems_cons (reads_compactChars x)
      (readsItems_compactItems (y :: ys) (List.cons_ne_nil y ys))

theorem readsEntries_compactMembers :
    ∀ ms, ms ≠ [] → ReadsEntries (ofMembers ms) (compactMembers ms)
  | [], h => absurd rfl h
  | [(k, v)], _ => by
    have h := readsEntries_last blank_nil blank_nil (reads_compactChars v) k blank_nil
    rwa [List.append_nil] at h
  | (k, v) :: n :: ns, _ =>
    readsEntries_cons blank_nil blank_nil (reads_compactChars v) k
      (readsEntries_compactMembers (n :: ns) (List.cons_ne_nil n ns))

end

mutual

theorem reads_prettyChars : ∀ (level : Nat) j, Reads (ofJson j) (prettyChars level j)
  | _, .null => reads_null
  | _, .bool true => reads_true
  | _, .bool false => reads_false
  | _, .number n => reads_number n
  | _, .text s => reads_text s
  | _, .array [] => reads_emptyArray
  | level, .array (x :: xs) =>
    reads_array (readsItems_prettyItems (level + 1) (x :: xs) (List.cons_ne_nil x xs)
      (blank_newline level))
  | _, .object [] => reads_emptyObject
  | level, .object (m :: ms) =>
    reads_object (readsEntries_prettyMembers (level + 1) (m :: ms) (List.cons_ne_nil m ms)
      (blank_newline level))

/-- The items of an array, with blanks before its closing bracket. -/
theorem readsItems_prettyItems : ∀ (level : Nat) xs, xs ≠ [] → ∀ {b : List Char}, Blank b →
    ReadsItems (ofItems xs) (prettyItems level xs ++ b)
  | _, [], h, _, _ => absurd rfl h
  | level, [x], _, _, hb =>
    readsItems_last ((reads_prettyChars level x).blank (blank_newline level)) hb
  | level, x :: y :: ys, _, _, hb => by
    have h := readsItems_cons ((reads_prettyChars level x).blank (blank_newline level))
      (readsItems_prettyItems level (y :: ys) (List.cons_ne_nil y ys) hb)
    rwa [← List.cons_append, ← List.append_assoc] at h

/-- The members of an object, with blanks before its closing brace. -/
theorem readsEntries_prettyMembers : ∀ (level : Nat) ms, ms ≠ [] → ∀ {b : List Char}, Blank b →
    ReadsEntries (ofMembers ms) (prettyMembers level ms ++ b)
  | _, [], h, _, _ => absurd rfl h
  | level, [(k, v)], _, _, hb =>
    readsEntries_last (blank_newline level) blank_space (reads_prettyChars level v) k hb
  | level, (k, v) :: n :: ns, _, _, hb => by
    have h := readsEntries_cons (blank_newline level) blank_space (reads_prettyChars level v) k
      (readsEntries_prettyMembers level (n :: ns) (List.cons_ne_nil n ns) hb)
    rwa [← List.cons_append, ← List.append_assoc] at h

end

/-- **The text on one line spells the document of the value.** -/
theorem read?_compact (j : Json) : read? (Text.glyphsOf j.compact) = some (ofJson j) := by
  have h := (reads_compactChars j).read?
  unfold Text.glyphsOf compact
  rwa [String.toList_ofList]

/-- **The text on indented lines spells the document of the value.** -/
theorem read?_pretty (j : Json) : read? (Text.glyphsOf j.pretty) = some (ofJson j) := by
  have h := (reads_prettyChars 0 j).read?
  unfold Text.glyphsOf pretty
  rwa [String.toList_ofList]

/-! ### Free-form values -/

mutual

/-- The value has at most so many levels, and its numbers are finite. -/
def fits (room : Nat) : Json → Bool
  | .null => true
  | .bool _ => true
  | .number n => n.isFinite
  | .text _ => true
  | .array xs => room != 0 && fitsItems (room - 1) xs
  | .object ms => room != 0 && fitsMembers (room - 1) ms

def fitsItems (room : Nat) : List Json → Bool
  | [] => true
  | x :: xs => fits room x && fitsItems room xs

def fitsMembers (room : Nat) : List (String × Json) → Bool
  | [] => true
  | m :: ms => fitsMember room m && fitsMembers room ms

def fitsMember (room : Nat) : String × Json → Bool
  | (_, v) => fits room v

end

mutual

/-- A value that fits is got back from its document. -/
theorem json?_ofJson : ∀ (room : Nat) j, fits room j = true →
    Document.json? room (ofJson j) = some j
  | _, .null, _ => rfl
  | _, .bool _, _ => rfl
  | _, .number n, h => if_pos h
  | _, .text s, _ => by
    rw [ofJson, Document.json?, Text.charsOfGlyphs?_map_some, Option.map_some, String.ofList_toList]
  | room, .array xs, h => by
    simp only [fits, Bool.and_eq_true, bne_iff_ne] at h
    rw [ofJson, Document.json?, if_neg h.1, jsonItems?_ofItems (room - 1) xs h.2, Option.map_some]
  | room, .object ms, h => by
    simp only [fits, Bool.and_eq_true, bne_iff_ne] at h
    rw [ofJson, Document.json?, if_neg (by simp [h.1]), jsonMembers?_ofMembers (room - 1) ms h.2,
      Option.map_some]

theorem jsonItems?_ofItems : ∀ (room : Nat) xs, fitsItems room xs = true →
    Document.jsonItems? room (ofItems xs) = some xs
  | _, [], _ => rfl
  | room, x :: xs, h => by
    simp only [fitsItems, Bool.and_eq_true] at h
    rw [ofItems, Document.jsonItems?, json?_ofJson room x h.1, jsonItems?_ofItems room xs h.2]
    rfl

theorem jsonMembers?_ofMembers : ∀ (room : Nat) ms, fitsMembers room ms = true →
    Document.jsonMembers? room (ofMembers ms) = some ms
  | _, [], _ => rfl
  | room, (k, v) :: ms, h => by
    simp only [fitsMembers, fitsMember, Bool.and_eq_true] at h
    rw [ofMembers, Document.jsonMembers?, Document.ofMember, Document.jsonMember?,
      Text.charsOfGlyphs?_map_some, json?_ofJson room v h.1, jsonMembers?_ofMembers room ms h.2]
    simp only [Option.bind_eq_bind, Option.bind_some, Option.pure_def, String.ofList_toList]

end

/-- **A value that fits is got back from its text.** -/
theorem ofText?_compact {j : Json} (h : j.fits depthLimit = true) : ofText? j.compact = some j := by
  unfold ofText?
  rw [read?_compact, Option.bind_some, json?_ofJson depthLimit j h]

theorem isFinite_word (a : UInt64) : (JsonNumber.ofNat a.toNat).isFinite = true := by
  have hlen : (Nat.toDigits 10 a.toNat).length ≤ 20 :=
    (Nat.length_toDigits_le_iff (by decide) (by decide)).mpr (lt_trans a.toNat_lt (by norm_num))
  unfold JsonNumber.isFinite JsonNumber.ofNat
  simp only [Option.getD_none]
  split_ifs
  · rfl
  · rfl
  all_goals omega

theorem fits_word (room : Nat) (a : UInt64) : (word a).fits room = true := isFinite_word a

end Json

end FlowState
