import FlowState.Proofs.JsonText
import FlowState.Proofs.ScannedScalars

/-! # The tokens of printed records

A value without lists is printed as scalars and members alone, and it is scanned as the tokens of
the value (`valueTokens`), wherever it stands behind the colon of a key. The laws of `Scan.Scans`
and `Scan.ScansMembers` say how members are put together, and the tokens of a list of records follow
(`tokens?_items`). All characters of such a text may stand in one (`Allowed`). -/

namespace FlowState.Yaml

/-! ### Values without lists -/

/-- The characters of a value that is neither a text nor made of parts. -/
def wordChars : Json → List Char
  | .null => ['n', 'u', 'l', 'l']
  | .bool true => ['t', 'r', 'u', 'e']
  | .bool false => ['f', 'a', 'l', 's', 'e']
  | .number n => n.chars
  | _ => []

mutual

/-- A value without lists and empty objects, in which all names are plain and short. -/
def isRecord : Json → Bool
  | .object (m :: ms) => areMembers (m :: ms)
  | .object [] => false
  | .array _ => false
  | _ => true

/-- Members with plain and short names. -/
def areMembers : List (String × Json) → Bool
  | [] => true
  | m :: ms => isMember m && areMembers ms

/-- A member with a plain and short name. -/
def isMember : String × Json → Bool
  | (k, v) => isPlain k.toList && decide (k.toList.length ≤ Scan.keyLimit) && isRecord v

end

mutual

/-- **The tokens of a value** behind the name of a member. -/
def valueTokens : Json → List Token
  | .object ms => .blockMapping :: (membersTokens ms ++ [.blockEnd])
  | .text s => [.scalar (Scan.styleOf s.toList) s.toList]
  | .array _ => []
  | .null => [.scalar .plain (wordChars .null)]
  | .bool b => [.scalar .plain (wordChars (.bool b))]
  | .number n => [.scalar .plain (wordChars (.number n))]

/-- The tokens of the members of an object. -/
def membersTokens : List (String × Json) → List Token
  | [] => []
  | m :: ms => memberTokens m ++ membersTokens ms

/-- The tokens of a member. -/
def memberTokens : String × Json → List Token
  | (k, v) => .key :: .scalar .plain k.toList :: .value :: valueTokens v

end

/-- A character that numbers, null and the truth values are written with. -/
def isWordChar (c : Char) : Bool := c.isDigit || c.isLower || c == '-'

theorem isWordChar_plain {c : Char} (h : isWordChar c = true) :
    isPrintable c = true ∧ isBreak c = false ∧ isSpace c = false ∧ c ≠ ':' ∧ c ≠ '#' := by
  have hascii : ∀ n < 128, isWordChar (Char.ofNat n) = true →
      isPrintable (Char.ofNat n) = true ∧ isBreak (Char.ofNat n) = false ∧
      isSpace (Char.ofNat n) = false ∧ Char.ofNat n ≠ ':' ∧ Char.ofNat n ≠ '#' := by
    decide +kernel
  have hrange : ∀ {a b : Char}, (decide (c.val ≥ a.val) && decide (c.val ≤ b.val)) = true →
      c.toNat ≤ b.toNat := fun h =>
    UInt32.le_iff_toNat_le.mp (of_decide_eq_true (Bool.and_eq_true_iff.mp h).2)
  have hlt : c.toNat < 128 := by
    simp only [isWordChar, Bool.or_eq_true, beq_iff_eq] at h
    rcases h with (h | h) | rfl
    · exact lt_of_le_of_lt (hrange h) (by decide)
    · exact lt_of_le_of_lt (hrange h) (by decide)
    · decide
  have := hascii c.toNat hlt
  rw [Char.ofNat_toNat] at this
  exact this h

theorem IsPlainScalar.of_wordChars {s : List Char} (hne : s ≠ [])
    (hs : ∀ c ∈ s, isWordChar c = true) (hstarts : startsMark s = false) :
    Scan.IsPlainScalar s := by
  have hmarks : breaksPlain s = false := by
    clear hne hstarts
    induction s with
    | nil => rfl
    | cons a t ih =>
      obtain ⟨hprint, hbreak, hspace, hcolon, -⟩ := isWordChar_plain (hs a (by simp))
      cases t with
      | nil => simpa [breaksPlain] using hcolon
      | cons b t =>
        simp [breaksPlain, hcolon, endsWord, isWhite_eq_isSpace hprint, hspace, hbreak,
          ih fun c hc => hs c (by simp [List.mem_cons.mp hc])]
  refine ⟨⟨fun c hc => (isWordChar_plain (hs c hc)).1, fun c hc => (isWordChar_plain (hs c hc)).2.1,
    ?_, fun c hc => (isWordChar_plain (hs c (List.mem_of_getLast? hc))).2.2.1, hmarks⟩, hstarts⟩
  obtain ⟨c, t, rfl⟩ := List.exists_cons_of_ne_nil hne
  obtain ⟨-, -, hspace, -, hhash⟩ := isWordChar_plain (hs c (by simp))
  exact ⟨c, rfl, hspace, hhash⟩

theorem ne_of_isDigit {d x : Char} (hd : d.isDigit = true) (hx : x.isDigit = false) : d ≠ x := by
  rintro rfl
  simp [hd] at hx

theorem startsMark_digit {d : Char} (hd : d.isDigit = true) (t : List Char) :
    startsMark (d :: t) = false ∧ startsMark ('-' :: d :: t) = false := by
  have hne (x : Char) (hx : x.isDigit = false) : d ≠ x := ne_of_isDigit hd hx
  obtain ⟨hprint, hbreak, hspace, -, -⟩ := isWordChar_plain (c := d) (by simp [isWordChar, hd])
  constructor
  · simp [startsMark, hne '#' rfl, hne ',' rfl, hne '[' rfl, hne ']' rfl, hne '{' rfl, hne '}' rfl,
      hne '&' rfl, hne '*' rfl, hne '!' rfl, hne '|' rfl, hne '>' rfl, hne '\'' rfl, hne '"' rfl,
      hne '%' rfl, hne '@' rfl, hne '`' rfl, hne '?' rfl, hne ':' rfl, hne '-' rfl, hne '.' rfl]
  · simp [startsMark, endsWord, isWhite_eq_isSpace hprint, hspace, hbreak, hne '-' rfl]

theorem isPlainScalar_number (n : JsonNumber) : Scan.IsPlainScalar n.chars := by
  obtain ⟨negative, m, o⟩ := n
  obtain ⟨d, ds, hds, hd⟩ := Json.exists_digit m
  have hchars : JsonNumber.chars ⟨negative, m, o⟩ =
      (if negative then ['-'] else []) ++ (Nat.toDigits 10 m ++ Json.powerChars o) := by
    cases o <;> simp [JsonNumber.chars, Json.powerChars]
  have hdigits (n : Nat) : ∀ c ∈ Nat.toDigits 10 n, isWordChar c = true := fun c hc => by
    simp [isWordChar, Json.isDigit_toDigits c hc]
  have hpower : ∀ c ∈ Json.powerChars o, isWordChar c = true := by
    cases o with
    | none => simp [Json.powerChars]
    | some e =>
      intro c hc
      simp only [Json.powerChars, List.cons_append, List.mem_cons, List.mem_append] at hc
      rcases hc with rfl | hc | hc
      · decide
      · split at hc <;> simp_all [isWordChar]
      · exact hdigits _ c hc
  have hword : ∀ c ∈ JsonNumber.chars ⟨negative, m, o⟩, isWordChar c = true := by
    intro c hc
    rw [hchars] at hc
    rcases List.mem_append.mp hc with hc | hc
    · split at hc <;> simp_all [isWordChar]
    · rcases List.mem_append.mp hc with hc | hc
      · exact hdigits m c hc
      · exact hpower c hc
  have hstarts : startsMark (JsonNumber.chars ⟨negative, m, o⟩) = false := by
    rw [hchars, hds]
    cases negative with
    | true => exact (startsMark_digit hd _).2
    | false => exact (startsMark_digit hd _).1
  exact IsPlainScalar.of_wordChars (by simp [hchars, hds]) hword hstarts

theorem isPlainScalar_null : Scan.IsPlainScalar ['n', 'u', 'l', 'l'] :=
  IsPlainScalar.of_wordChars (by simp) (by simp; decide) rfl

theorem isPlainScalar_bool (b : Bool) : Scan.IsPlainScalar (wordChars (.bool b)) := by
  cases b
  · exact IsPlainScalar.of_wordChars (by simp [wordChars]) (by simp [wordChars]; decide) rfl
  · exact IsPlainScalar.of_wordChars (by simp [wordChars]) (by simp [wordChars]; decide) rfl

/-! ### The printed members -/

/-- A member behind its indentation. -/
def memberText (column : Nat) (m : String × Json) : List Char :=
  m.1.toList ++ ':' :: memberValue column m.2

theorem memberLine_eq {m : String × Json} (h : isPlain m.1.toList = true) (column : Nat) :
    memberLine column m = pad column ++ memberText column m := by
  obtain ⟨k, v⟩ := m
  have hliteral : isLiteral k.toList = false := by
    have hbreak := (Scan.isPlainScalar_of_isPlain h).unbroken
    have hfeed : (k.toList.any (· == '\n')) = false := by
      rw [List.any_eq_false]
      rintro c hc hfeed
      obtain rfl : c = '\n' := by simpa using hfeed
      exact absurd (hbreak _ hc) (by decide)
    rw [isLiteral, hfeed]
    rfl
  rw [memberLine, scalarLine, hliteral, if_neg (by simp), if_pos h, List.dropLast_concat,
    memberText, List.append_assoc]

theorem endsWord_memberValue (column : Nat) (v : Json) (r : List Char) :
    endsWord (memberValue column v ++ r) = true := by
  cases v with
  | null => rfl
  | bool b => cases b <;> rfl
  | number n => simp [memberValue, endsWord, isWhite]
  | text s => simp [memberValue, endsWord, isWhite]
  | array xs => cases xs <;> simp [memberValue, endsWord, isWhite, isBreak]
  | object ms => cases ms <;> simp [memberValue, endsWord, isWhite, isBreak]

namespace Scan

theorem enter_fst {column : Nat} {b : Int × List Int × List Token} (hb : b.1 ≤ column) :
    (enter column b).1 = column := by
  unfold enter
  split
  · rfl
  · omega

theorem enter_of_le {column : Nat} {b : Int × List Int × List Token} (hb : (column : Int) ≤ b.1) :
    enter column b = b := if_neg (by omega)

/-- What members or a value lead to: the first word behind them, with the deeper blocks left. -/
def LeadsTo (s : Scan) (r : List Char) (k : Nat) (b : Int × List Int × List Token) : Prop :=
  ∃ i l, Leads s (atLine r i l k (unrollBlocks k b.1 b.2.1 b.2.2))

/-- **The value is scanned** behind the colon of any key, whatever word follows on a later line. -/
def Scans (v : Json) : Prop :=
  ∀ (r : List Char) (column k j : Nat), Opens r → k ≤ column → column < j →
    ∀ (indents : List Int) (tokens : List Token) (i l : Nat),
      LeadsTo (atValue (memberValue column v ++ (pad k ++ r)) i l j column indents tokens) r k
        (column, indents, (valueTokens v).reverse ++ tokens)

/-- **The members are scanned** from the first word of the first one. -/
def ScansMembers (ms : List (String × Json)) : Prop :=
  ∀ (r : List Char) (column k : Nat), 0 < column → Opens r → k ≤ column →
    ∀ b : Int × List Int × List Token, b.1 ≤ column → ∀ i l : Nat,
      LeadsTo (atLine ((memberLines column ms).drop column ++ (pad k ++ r)) i l column b) r k
        (column, (enter column b).2.1, (membersTokens ms).reverse ++ (enter column b).2.2)

theorem scans_text (s : String) : Scans (.text s) := fun _ _ _ _ hr hk hj indents tokens i l =>
  Leads.text hr hk hj indents tokens i l s.toList

theorem scans_word {v : Json} (h : IsPlainScalar (wordChars v))
    (hvalue : ∀ column, memberValue column v = ' ' :: (wordChars v ++ ['\n']))
    (htokens : valueTokens v = [.scalar .plain (wordChars v)]) : Scans v := by
  intro r column k j hr hk hj indents tokens i l
  obtain ⟨i', l', hleads⟩ := Leads.plain hr hk hj indents tokens i l h
  refine ⟨i', l', ?_⟩
  have htext : memberValue column v ++ (pad k ++ r) =
      ' ' :: (wordChars v ++ '\n' :: (pad k ++ r)) := by
    rw [hvalue]
    simp
  rw [htext, htokens]
  exact hleads

/-- A member leads where its value does. -/
theorem Scans.member {m : String × Json} (hvalue : Scans m.2) (hkey : isPlain m.1.toList = true)
    (hlen : m.1.toList.length ≤ keyLimit) {column k : Nat} (hcolumn : 0 < column) {r : List Char}
    (hr : Opens r) (hk : k ≤ column) {b : Int × List Int × List Token} (hb : b.1 ≤ column)
    (i l : Nat) :
    LeadsTo (atLine (memberText column m ++ (pad k ++ r)) i l column b) r k
      (column, (enter column b).2.1, (memberTokens m).reverse ++ (enter column b).2.2) := by
  obtain ⟨key, v⟩ := m
  have hfirst := Leads.key (isPlainScalar_of_isPlain hkey) hlen
    (endsWord_memberValue column v (pad k ++ r)) hcolumn hb i l
  rw [enter_fst hb] at hfirst
  obtain ⟨i', l', hrest⟩ := hvalue r column k (column + key.toList.length + 1) hr hk (by omega)
    (enter column b).2.1 (.value :: .scalar .plain key.toList :: .key :: (enter column b).2.2)
    (i + key.toList.length + 1) l
  refine ⟨i', l', ?_⟩
  have htext : memberText column (key, v) ++ (pad k ++ r) =
      key.toList ++ ':' :: (memberValue column v ++ (pad k ++ r)) := by
    simp [memberText]
  have htokens : (memberTokens (key, v)).reverse ++ (enter column b).2.2 =
      (valueTokens v).reverse ++
        (.value :: .scalar .plain key.toList :: .key :: (enter column b).2.2) := by
    simp [memberTokens]
  rw [htext, htokens]
  exact hfirst.trans hrest

theorem drop_memberLines {m : String × Json} (h : isPlain m.1.toList = true) (column : Nat)
    (ms : List (String × Json)) :
    (memberLines column (m :: ms)).drop column = memberText column m ++ memberLines column ms := by
  rw [memberLines, memberLine_eq h, List.append_assoc, List.drop_left' (by simp [pad])]

theorem opens_memberText {m : String × Json} (h : isPlain m.1.toList = true) (column : Nat)
    (r : List Char) : Opens (memberText column m ++ r) := by
  rw [memberText, List.append_assoc]
  exact (isPlainScalar_of_isPlain h).opens _

theorem scansMembers_last {m : String × Json} (hvalue : Scans m.2)
    (hkey : isPlain m.1.toList = true) (hlen : m.1.toList.length ≤ keyLimit) :
    ScansMembers [m] := by
  intro r column k hcolumn hr hk b hb i l
  have hmember := hvalue.member hkey hlen hcolumn hr hk hb i l
  rw [drop_memberLines hkey, memberLines, List.append_nil, membersTokens, membersTokens,
    List.append_nil]
  exact hmember

theorem scansMembers_cons {m n : String × Json} {ms : List (String × Json)} (hvalue : Scans m.2)
    (hkey : isPlain m.1.toList = true) (hlen : m.1.toList.length ≤ keyLimit)
    (hnext : isPlain n.1.toList = true) (hms : ScansMembers (n :: ms)) :
    ScansMembers (m :: n :: ms) := by
  intro r column k hcolumn hr hk b hb i l
  -- the value of the first member ends at the word of the next one, at the same column
  have hlines : memberLines column (n :: ms) =
      pad column ++ (memberLines column (n :: ms)).drop column := by
    rw [drop_memberLines hnext, memberLines, memberLine_eq hnext, List.append_assoc]
  have hopens : Opens ((memberLines column (n :: ms)).drop column ++ (pad k ++ r)) := by
    rw [drop_memberLines hnext, List.append_assoc]
    exact opens_memberText hnext column _
  obtain ⟨i₁, l₁, hfirst⟩ := hvalue.member hkey hlen hcolumn hopens le_rfl hb i l
  rw [unrollBlocks_of_le le_rfl] at hfirst
  obtain ⟨i₂, l₂, hrest⟩ := hms r column k hcolumn hr hk
    (column, (enter column b).2.1, (memberTokens m).reverse ++ (enter column b).2.2) le_rfl i₁ l₁
  rw [enter_of_le (b := (column, _, _)) le_rfl] at hrest
  refine ⟨i₂, l₂, ?_⟩
  have htext : (memberLines column (m :: n :: ms)).drop column ++ (pad k ++ r) =
      memberText column m ++ (pad column ++
        ((memberLines column (n :: ms)).drop column ++ (pad k ++ r))) := by
    rw [drop_memberLines hkey, List.append_assoc, ← List.append_assoc (pad column), ← hlines]
  have htokens : (membersTokens (m :: n :: ms)).reverse ++ (enter column b).2.2 =
      (membersTokens (n :: ms)).reverse ++
        ((memberTokens m).reverse ++ (enter column b).2.2) := by
    rw [membersTokens, List.reverse_append, List.append_assoc]
  rw [htext, htokens]
  exact hfirst.trans hrest

theorem scans_object {m : String × Json} {ms : List (String × Json)}
    (hkey : isPlain m.1.toList = true) (hms : ScansMembers (m :: ms)) :
    Scans (.object (m :: ms)) := by
  intro r column k j hr hk hj indents tokens i l
  have hopens : Opens ((memberLines (column + 2) (m :: ms)).drop (column + 2) ++ (pad k ++ r)) := by
    rw [drop_memberLines hkey, List.append_assoc]
    exact opens_memberText hkey (column + 2) _
  have htext : memberValue column (.object (m :: ms)) ++ (pad k ++ r) = '\n' :: (pad (column + 2) ++
      ((memberLines (column + 2) (m :: ms)).drop (column + 2) ++ (pad k ++ r))) := by
    rw [drop_memberLines hkey, memberValue, memberLines, memberLine_eq hkey]
    simp
  -- the members are deeper than the key, so that no block is left before them
  have hline := settle?_line hopens tokens column indents false (column + 2) i l j
  rw [unrollBlocks_of_le (show (column : Int) ≤ (column + 2 : Nat) by omega)] at hline
  have hstart := settle?_atLine hopens (i + 1 + (column + 2)) (l + 1) (column + 2)
    (column, indents, tokens)
  rw [unrollBlocks_of_le (show (column : Int) ≤ (column + 2 : Nat) by omega)] at hstart
  obtain ⟨i', l', hmembers⟩ := hms r (column + 2) k (by omega) hr (by omega)
    (column, indents, tokens) (by dsimp only; omega) (i + 1 + (column + 2)) (l + 1)
  have henter : enter (column + 2) ((column : Int), indents, tokens) =
      (((column + 2 : Nat) : Int), (column : Int) :: indents, .blockMapping :: tokens) :=
    if_pos (by dsimp only; omega)
  have htokens : (valueTokens (.object (m :: ms))).reverse ++ tokens =
      .blockEnd :: ((membersTokens (m :: ms)).reverse ++ .blockMapping :: tokens) := by
    simp [valueTokens]
  rw [henter, unrollBlocks_of_lt (by omega)] at hmembers
  refine ⟨i', l', ?_⟩
  rw [htext, htokens]
  exact (Leads.of_settle (hline.trans hstart.symm) (by simp [atLine]; omega)).trans hmembers

theorem isMember_iff (m : String × Json) : isMember m = true ↔
    isPlain m.1.toList = true ∧ m.1.toList.length ≤ keyLimit ∧ isRecord m.2 = true := by
  obtain ⟨k, v⟩ := m
  simp [isMember, and_assoc]

mutual

/-- **A value without lists is scanned.** -/
theorem scans_record : ∀ v, isRecord v = true → Scans v
  | .null, _ => scans_word isPlainScalar_null (fun _ => rfl) rfl
  | .bool true, _ => scans_word (isPlainScalar_bool true) (fun _ => rfl) rfl
  | .bool false, _ => scans_word (isPlainScalar_bool false) (fun _ => rfl) rfl
  | .number n, _ => scans_word (isPlainScalar_number n) (fun _ => rfl) rfl
  | .text s, _ => scans_text s
  | .array _, h => by simp [isRecord] at h
  | .object [], h => by simp [isRecord] at h
  | .object (m :: ms), h => by
    have hmembers : areMembers (m :: ms) = true := by simpa [isRecord] using h
    have hm := (isMember_iff m).mp (Bool.and_eq_true_iff.mp hmembers).1
    exact scans_object hm.1 (scans_members (m :: ms) (List.cons_ne_nil m ms) hmembers)

/-- Members with values without lists are scanned. -/
theorem scans_members : ∀ ms, ms ≠ [] → areMembers ms = true → ScansMembers ms
  | [], h, _ => absurd rfl h
  | [(k, v)], _, h => by
    have hm := (isMember_iff (k, v)).mp (Bool.and_eq_true_iff.mp h).1
    exact scansMembers_last (m := (k, v)) (scans_record v hm.2.2) hm.1 hm.2.1
  | (k, v) :: n :: ms, _, h => by
    obtain ⟨hfirst, hrest⟩ := Bool.and_eq_true_iff.mp h
    have hm := (isMember_iff (k, v)).mp hfirst
    have hn := (isMember_iff n).mp (Bool.and_eq_true_iff.mp hrest).1
    exact scansMembers_cons (m := (k, v)) (scans_record v hm.2.2) hm.1 hm.2.1 hn.1
      (scans_members (n :: ms) (List.cons_ne_nil n ms) hrest)

end

/-! ### Lists of records -/

/-- An item of a list that starts on the line of its hyphen. -/
def IsItem (x : Json) : Prop := ∃ m ms, x = .object (m :: ms) ∧ areMembers (m :: ms) = true

/-- The tokens of an item. -/
def itemTokens (x : Json) : List Token := .blockEntry :: valueTokens x

/-- The blocks behind a hyphen at the start of a line: the list starts there unless it is the
innermost block. -/
def enterList (b : Int × List Int × List Token) : Int × List Int × List Token :=
  if b.1 < 0 then (0, b.1 :: b.2.1, .blockSequence :: b.2.2) else b

/-- A hyphen at the start of a line leads to the word behind it. -/
theorem Leads.hyphen {r : List Char} (hr : Opens r) {b : Int × List Int × List Token}
    (hb : b.1 ≤ 0) (i l : Nat) :
    Leads (atLine ('-' :: ' ' :: r) i l 0 b)
      (atLine r (i + 2) l 2 (0, (enterList b).2.1, .blockEntry :: (enterList b).2.2)) := by
  have hopens : Opens ('-' :: ' ' :: r) := by
    refine ⟨fun c hc => ?_, by simp⟩
    obtain rfl : '-' = c := by simpa using hc
    decide
  have hsettle := settle?_atLine hopens i l 0 b
  rw [unrollBlocks_of_le (by simpa using hb)] at hsettle
  have hnext : (atLine ('-' :: ' ' :: r) i l 0 b).next? '-' (' ' :: r) =
      some ⟨⟨' ' :: r, i + 1, l, 1⟩, .blockEntry :: (enterList b).2.2, 0, (enterList b).2.1, true,
        none, []⟩ := by
    have hmark : ∀ m ∈ ['-', '.'], Cursor.atMark ⟨'-' :: ' ' :: r, i, l, 0⟩ m = false := by
      cases r <;> simp [Cursor.atMark]
    have hentry : (atLine ('-' :: ' ' :: r) i l 0 b).next? '-' (' ' :: r) =
        blockEntry? (atLine ('-' :: ' ' :: r) i l 0 b) := by
      simp [next?, atLine, hmark, endsWord, isWhite]
    rw [hentry]
    by_cases hlt : b.1 < 0
    · simp [ blockEntry?, roll, enterList, atLine, inFlow, hlt, insertAt, dropKey?, push, skip,
        Cursor.move]
    · have hzero : b.1 = 0 := by omega
      simp [ blockEntry?, roll, enterList, atLine, inFlow, hzero, dropKey?, push, skip, Cursor.move]
  have hword := settle?_pad hr (.blockEntry :: (enterList b).2.2) 0 (enterList b).2.1 true 1 (i + 1)
    l 1
  have hstart := settle?_atLine hr (i + 2) l 2
    (0, (enterList b).2.1, .blockEntry :: (enterList b).2.2)
  refine (Leads.step hsettle rfl hnext (by simp [atLine])).trans ?_
  exact Leads.of_settle (hword.trans hstart.symm) (by simp [atLine])

theorem opens_itemLines {xs : List Json} (hxs : ∀ x ∈ xs, IsItem x) : Opens (itemLines 0 xs) := by
  cases xs with
  | nil => exact ⟨fun c hc => by simp [itemLines] at hc, by simp [itemLines]⟩
  | cons x xs =>
    obtain ⟨m, ms, rfl, -⟩ := hxs x (by simp)
    refine ⟨fun c hc => ?_, by simp [itemLines, pad]⟩
    obtain rfl : '-' = c := by simpa [itemLines, pad] using hc
    decide

/-- **An item is scanned** to the next one. -/
theorem leads_item {x : Json} (hx : IsItem x) {xs : List Json} (hxs : ∀ y ∈ xs, IsItem y)
    {b : Int × List Int × List Token} (hb : b.1 ≤ 0) (i l : Nat) :
    ∃ i' l', Leads (atLine (itemLines 0 (x :: xs)) i l 0 b) (atLine (itemLines 0 xs) i' l' 0
      (0, (enterList b).2.1, (itemTokens x).reverse ++ (enterList b).2.2)) := by
  obtain ⟨m, ms, rfl, hms⟩ := hx
  have hkey := ((isMember_iff m).mp (Bool.and_eq_true_iff.mp hms).1).1
  have hopens : Opens ((memberLines 2 (m :: ms)).drop 2 ++ itemLines 0 xs) := by
    rw [drop_memberLines hkey, List.append_assoc]
    exact opens_memberText hkey 2 _
  have htext : itemLines 0 (.object (m :: ms) :: xs) =
      '-' :: ' ' :: ((memberLines 2 (m :: ms)).drop 2 ++ itemLines 0 xs) := by
    simp [itemLines, pad]
  obtain ⟨i', l', hmembers⟩ := scans_members (m :: ms) (List.cons_ne_nil m ms) hms (itemLines 0 xs)
    2 0 (by omega) (opens_itemLines hxs) (by omega)
    (0, (enterList b).2.1, .blockEntry :: (enterList b).2.2) (by simp) (i + 2) l
  refine ⟨i', l', ?_⟩
  rw [htext]
  refine (Leads.hyphen hopens hb i l).trans ?_
  have henter : enter 2 (0, (enterList b).2.1, .blockEntry :: (enterList b).2.2) =
      (2, 0 :: (enterList b).2.1, .blockMapping :: .blockEntry :: (enterList b).2.2) :=
    if_pos (by simp)
  have htokens : (itemTokens (.object (m :: ms))).reverse ++ (enterList b).2.2 = .blockEnd ::
      ((membersTokens (m :: ms)).reverse ++ .blockMapping :: .blockEntry :: (enterList b).2.2) := by
    simp [itemTokens, valueTokens]
  rw [henter, unrollBlocks_of_lt (by simp), unrollBlocks_of_le (by simp)] at hmembers
  rw [htokens]
  exact hmembers

/-- **A list of records is scanned** to the end of the text. -/
theorem leads_items {xs : List Json} (hne : xs ≠ []) (hxs : ∀ x ∈ xs, IsItem x)
    {b : Int × List Int × List Token} (hb : b.1 ≤ 0) (i l : Nat) :
    ∃ i' l', Leads (atLine (itemLines 0 xs) i l 0 b) (atLine [] i' l' 0
      (0, (enterList b).2.1, (xs.flatMap itemTokens).reverse ++ (enterList b).2.2)) := by
  induction xs generalizing b i l with
  | nil => exact absurd rfl hne
  | cons x xs ih =>
    have hrest : ∀ y ∈ xs, IsItem y := fun y hy => hxs y (by simp [hy])
    obtain ⟨i₁, l₁, hfirst⟩ := leads_item (hxs x (by simp)) hrest hb i l
    cases xs with
    | nil =>
      refine ⟨i₁, l₁, ?_⟩
      simpa [itemLines] using hfirst
    | cons y ys =>
      obtain ⟨i₂, l₂, hlast⟩ := ih (List.cons_ne_nil y ys) hrest
        (b := (0, (enterList b).2.1, (itemTokens x).reverse ++ (enterList b).2.2)) (by simp) i₁ l₁
      refine ⟨i₂, l₂, ?_⟩
      have htokens : ((x :: y :: ys).flatMap itemTokens).reverse ++ (enterList b).2.2 =
          ((y :: ys).flatMap itemTokens).reverse ++
            ((itemTokens x).reverse ++ (enterList b).2.2) := by
        rw [List.flatMap_cons, List.reverse_append, List.append_assoc]
      rw [htokens]
      exact hfirst.trans hlast

/-- At the end of a text the list is left. -/
theorem loop_atEnd {fuel : Nat} (hfuel : 0 < fuel) (i l : Nat) (tokens : List Token) :
    loop fuel (atLine [] i l 0 (0, [-1], tokens)) = some ((.blockEnd :: tokens).reverse) := by
  obtain ⟨fuel, rfl⟩ : ∃ f, fuel = f + 1 := ⟨fuel - 1, by omega⟩
  rfl

end Scan

/-- **The tokens of a list of records.** -/
theorem loop_items {xs : List Json} (hne : xs ≠ []) (hxs : ∀ x ∈ xs, Scan.IsItem x) :
    Scan.loop ((itemLines 0 xs).length + 1) (Scan.start (itemLines 0 xs)) =
      some (.blockSequence :: (xs.flatMap Scan.itemTokens ++ [Token.blockEnd])) := by
  obtain ⟨i, l, hleads⟩ := Scan.leads_items hne hxs (b := (-1, [], [])) (by simp) 0 0
  obtain ⟨fuel, hfuel, hloop⟩ := hleads ((itemLines 0 xs).length + 1) (by simp [Scan.atLine])
  rw [show Scan.start (itemLines 0 xs) = Scan.atLine (itemLines 0 xs) 0 0 0 (-1, [], []) from rfl,
    hloop]
  have hend := Scan.loop_atEnd (Nat.zero_lt_of_lt hfuel) i l
    ((xs.flatMap Scan.itemTokens).reverse ++ [.blockSequence])
  refine hend.trans ?_
  simp

/-! ### The characters of a printed text -/

/-- The characters may stand in a text. -/
def Allowed (cs : List Char) : Prop := ∀ c ∈ cs, isAllowed c = true

theorem isAllowed_of_isPrintable {c : Char} (h : isPrintable c = true) : isAllowed c = true := by
  simp only [isPrintable, Bool.or_eq_true, Bool.and_eq_true, beq_iff_eq, decide_eq_true_eq,
    bne_iff_ne] at h
  simp only [isAllowed, Bool.or_eq_true, Bool.and_eq_true, beq_iff_eq, decide_eq_true_eq]
  omega

theorem allowed_cons {c : Char} {cs : List Char} (hc : isAllowed c = true) (hcs : Allowed cs) :
    Allowed (c :: cs) := by
  intro d hd
  rcases List.mem_cons.mp hd with rfl | hd
  · exact hc
  · exact hcs d hd

theorem allowed_append {cs ds : List Char} (hcs : Allowed cs) (hds : Allowed ds) :
    Allowed (cs ++ ds) := by
  intro c hc
  rcases List.mem_append.mp hc with hc | hc
  · exact hcs c hc
  · exact hds c hc

theorem allowed_nil : Allowed [] := by simp [Allowed]

theorem allowed_pad (n : Nat) : Allowed (pad n) := by
  intro c hc
  rw [List.eq_of_mem_replicate hc]
  rfl

theorem allowed_literalLines {s : List Char} (hs : Allowed s) (column : Nat) (fresh : Bool) :
    Allowed (literalLines column fresh s) := by
  induction s generalizing fresh with
  | nil =>
    rw [literalLines]
    split
    · exact allowed_nil
    · exact allowed_cons rfl allowed_nil
  | cons c s ih =>
    have hc : isAllowed c = true := hs c (by simp)
    have ih := ih fun d hd => hs d (by simp [hd])
    rw [literalLines]
    split
    · exact allowed_cons hc (ih true)
    · refine allowed_append ?_ (allowed_cons hc (ih false))
      split
      · exact allowed_pad column
      · exact allowed_nil

theorem allowed_singleChars {s : List Char} (hs : Allowed s) (column : Nat) (broken : Bool) :
    Allowed (singleChars column broken s) := by
  have hquote : Allowed ['\''] := allowed_cons rfl allowed_nil
  induction s generalizing broken with
  | nil =>
    rw [singleChars]
    split
    · exact allowed_append (allowed_pad column) hquote
    · exact hquote
  | cons c s ih =>
    have hc : isAllowed c = true := hs c (by simp)
    have ih := ih fun d hd => hs d (by simp [hd])
    rw [singleChars]
    split
    · exact allowed_cons hc (ih true)
    · refine allowed_append (allowed_append ?_ ?_) (ih _)
      · split
        · exact allowed_pad column
        · exact allowed_nil
      · split
        · exact allowed_cons rfl hquote
        · exact allowed_cons hc allowed_nil

theorem allowed_capitalHex (width n : Nat) : Allowed (capitalHex width n) := by
  have hdigit : ∀ d < 16, isAllowed (Nat.digitChar d) = true ∧
      isAllowed (Nat.digitChar d).toUpper = true := by decide
  intro c hc
  obtain ⟨d, hd, hcase⟩ := (denotes_capitalHex width n).exists_digitOf c hc
  rcases hcase with rfl | rfl
  · exact (hdigit d hd).1
  · exact (hdigit d hd).2

theorem allowed_doubleChar (c : Char) : Allowed (doubleChar c) := by
  have hescapes : ∀ e ∈ escapes, isAllowed e.2 = true := by decide
  rw [doubleChar]
  split
  · next hplain =>
    simp only [Bool.and_eq_true] at hplain
    exact allowed_cons (isAllowed_of_isPrintable hplain.1.1.1) allowed_nil
  · cases hfind : escapes.find? fun e => e.1 == c with
    | some e =>
      exact allowed_cons rfl
        (allowed_cons (hescapes e (List.mem_of_find?_eq_some hfind)) allowed_nil)
    | none =>
      dsimp only
      split
      · exact allowed_cons rfl (allowed_cons rfl (allowed_capitalHex _ _))
      · split
        · exact allowed_cons rfl (allowed_cons rfl (allowed_capitalHex _ _))
        · exact allowed_cons rfl (allowed_cons rfl (allowed_capitalHex _ _))

theorem allowed_literalHead (s : List Char) : Allowed (literalHead s) := by
  have hmark : Allowed (chompMark s) := by
    rcases chompMark_cases s with h | h | h <;> rw [h]
    · exact allowed_cons rfl allowed_nil
    · exact allowed_cons rfl allowed_nil
    · exact allowed_nil
  refine allowed_append (allowed_cons rfl ?_) hmark
  split
  · exact allowed_cons rfl allowed_nil
  · exact allowed_nil

/-- The scalar of a text. -/
theorem allowed_scalarLine (column : Nat) (s : List Char) : Allowed (scalarLine column s) := by
  have hfeed : Allowed ['\n'] := allowed_cons rfl allowed_nil
  have hprintable (h : s.all isPrintable = true) : Allowed s := fun c hc =>
    isAllowed_of_isPrintable (List.all_eq_true.mp h c hc)
  rw [scalarLine]
  split
  · next h =>
    simp only [isLiteral, Bool.and_eq_true] at h
    exact allowed_append (allowed_literalHead s)
      (allowed_cons rfl (allowed_literalLines (hprintable h.1.1.2) column true))
  · split
    · next h =>
      simp only [isPlain, Bool.and_eq_true] at h
      exact allowed_append (hprintable h.1.1.1.1.1.2) hfeed
    · split
      · next h =>
        simp only [isSingle, Bool.and_eq_true] at h
        exact allowed_cons rfl
          (allowed_append (allowed_singleChars (hprintable h.1.1.1) column false) hfeed)
      · refine allowed_cons rfl (allowed_append (fun c hc => ?_) (allowed_cons rfl hfeed))
        obtain ⟨d, -, hd⟩ := List.mem_flatMap.mp hc
        exact allowed_doubleChar d c hd

theorem allowed_word {v : Json} (h : Scan.IsPlainScalar (wordChars v)) : Allowed (wordChars v) :=
  fun c hc => isAllowed_of_isPrintable (h.printable c hc)

mutual

theorem allowed_memberValue : ∀ v, isRecord v = true → ∀ column, Allowed (memberValue column v)
  | .null, _, _ => allowed_cons rfl (allowed_append (allowed_word (v := .null) isPlainScalar_null)
      (allowed_cons rfl allowed_nil))
  | .bool true, _, _ => allowed_cons rfl (allowed_append
      (allowed_word (isPlainScalar_bool true)) (allowed_cons rfl allowed_nil))
  | .bool false, _, _ => allowed_cons rfl (allowed_append
      (allowed_word (isPlainScalar_bool false)) (allowed_cons rfl allowed_nil))
  | .number n, _, _ => allowed_cons rfl (allowed_append
      (allowed_word (v := .number n) (isPlainScalar_number n)) (allowed_cons rfl allowed_nil))
  | .text s, _, column => allowed_cons rfl (allowed_scalarLine (column + 2) s.toList)
  | .array _, h, _ => by simp [isRecord] at h
  | .object [], h, _ => by simp [isRecord] at h
  | .object (m :: ms), h, column =>
    allowed_cons rfl (allowed_memberLines (m :: ms) (by simpa [isRecord] using h) (column + 2))

theorem allowed_memberLines : ∀ ms, areMembers ms = true → ∀ column,
    Allowed (memberLines column ms)
  | [], _, _ => allowed_nil
  | (k, v) :: ms, h, column => by
    obtain ⟨hfirst, hrest⟩ := Bool.and_eq_true_iff.mp h
    have hm := (Scan.isMember_iff (k, v)).mp hfirst
    have hkey : Allowed k.toList := fun c hc =>
      isAllowed_of_isPrintable ((Scan.isPlainScalar_of_isPlain hm.1).printable c hc)
    rw [memberLines, memberLine_eq hm.1]
    have htext : Allowed (memberText column (k, v)) :=
      allowed_append hkey (allowed_cons rfl (allowed_memberValue v hm.2.2 column))
    exact allowed_append (allowed_append (allowed_pad column) htext)
      (allowed_memberLines ms hrest column)

end

theorem allowed_itemLines {xs : List Json} (hxs : ∀ x ∈ xs, Scan.IsItem x) :
    Allowed (itemLines 0 xs) := by
  induction xs with
  | nil => exact allowed_nil
  | cons x xs ih =>
    obtain ⟨m, ms, rfl, hms⟩ := hxs x (by simp)
    have hlines : Allowed ((memberLines 2 (m :: ms)).drop 2) := fun c hc =>
      allowed_memberLines (m :: ms) hms 2 c (List.mem_of_mem_drop hc)
    rw [itemLines]
    exact allowed_append (allowed_append (allowed_pad 0)
      (allowed_cons rfl (allowed_cons rfl hlines))) (ih fun y hy => hxs y (by simp [hy]))

theorem tokens?_of_loop {cs t : List Char} {ts : List Token} (hcs : cs = '-' :: t)
    (hallowed : Allowed cs) (hloop : Scan.loop (cs.length + 1) (Scan.start cs) = some ts) :
    tokens? cs = some ts := by
  subst hcs
  unfold tokens?
  rw [if_pos (List.all_eq_true.mpr hallowed)]
  split
  · next r hr => simp at hr
  · exact hloop

/-- **The tokens of a printed list of records**: one block, with an entry for each of them. -/
theorem tokens?_items {xs : List Json} (hne : xs ≠ []) (hxs : ∀ x ∈ xs, Scan.IsItem x) :
    tokens? (itemLines 0 xs) =
      some (.blockSequence :: (xs.flatMap Scan.itemTokens ++ [Token.blockEnd])) := by
  obtain ⟨t, ht⟩ : ∃ t, itemLines 0 xs = '-' :: t := by
    obtain ⟨x, xs, rfl⟩ := List.exists_cons_of_ne_nil hne
    obtain ⟨m, ms, rfl, -⟩ := hxs x (by simp)
    exact ⟨' ' :: (memberLines 2 (m :: ms)).drop 2 ++ itemLines 0 xs, by simp [itemLines, pad]⟩
  exact tokens?_of_loop ht (allowed_itemLines hxs) (loop_items hne hxs)

end FlowState.Yaml
