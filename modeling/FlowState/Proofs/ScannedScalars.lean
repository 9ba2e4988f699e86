import FlowState.Proofs.LiteralScalars
import FlowState.Proofs.QuotedScalars
import FlowState.Yaml.Token

/-! # Scanning keys and scalars

What a scan does with a part of a text is said by `Scan.Leads`: from there on, the scan goes on as
one that stands behind the part and has its tokens. The scan is at the first word of a line
(`Scan.atLine`) or behind the colon of a key (`Scan.atValue`). A key leads from the one to the
other, and each scalar that is printed behind a colon leads back to the first word of the next line
(`Scan.Leads.key`, `Scan.Leads.text`). On the way the blocks that are deeper than that word are
left. -/

namespace FlowState.Yaml

/-! ### A scan that goes on as another one does -/

namespace Scan

/-- The place of the next token: blanks, breaks and comments are behind it, keys that are too old
are dropped, and blocks that are deeper are left. -/
def settle? (s : Scan) : Option Scan :=
  (s.toToken (s.cursor.rest.length + 1)).freshenAll?.map fun s => s.unroll s.cursor.column

/-- **The scan goes on as the other one does**, with enough fuel for what is left. -/
def Leads (s s' : Scan) : Prop :=
  ∀ fuel, s.cursor.rest.length < fuel →
    ∃ fuel', s'.cursor.rest.length < fuel' ∧ loop fuel s = loop fuel' s'

theorem Leads.trans {s₁ s₂ s₃ : Scan} (h : Leads s₁ s₂) (h' : Leads s₂ s₃) : Leads s₁ s₃ := by
  intro fuel hfuel
  obtain ⟨fuel₂, hfuel₂, h₁⟩ := h fuel hfuel
  obtain ⟨fuel₃, hfuel₃, h₂⟩ := h' fuel₂ hfuel₂
  exact ⟨fuel₃, hfuel₃, h₁.trans h₂⟩

/-- A scan goes on by the place of its next token alone. -/
theorem Leads.of_settle {s s' : Scan} (h : s.settle? = s'.settle?)
    (hlen : s'.cursor.rest.length ≤ s.cursor.rest.length) : Leads s s' := by
  intro fuel hfuel
  refine ⟨fuel, by omega, ?_⟩
  obtain ⟨fuel, rfl⟩ : ∃ f, fuel = f + 1 := ⟨fuel - 1, by omega⟩
  unfold settle? at h
  cases h1 : (s.toToken (s.cursor.rest.length + 1)).freshenAll? with
  | none =>
    rw [h1, Option.map_none] at h
    rw [loop, loop, h1, Option.map_eq_none_iff.mp h.symm]
  | some a =>
    rw [h1, Option.map_some] at h
    obtain ⟨b, h2, hb⟩ := Option.map_eq_some_iff.mp h.symm
    rw [loop, loop, h1, h2]
    simp only [Option.bind_eq_bind, Option.bind_some, hb]

/-- One token further. -/
theorem Leads.step {s s₁ s' : Scan} {c : Char} {r : List Char} (h : s.settle? = some s₁)
    (hrest : s₁.cursor.rest = c :: r) (hnext : s₁.next? c r = some s')
    (hlen : s'.cursor.rest.length < s.cursor.rest.length) : Leads s s' := by
  intro fuel hfuel
  obtain ⟨fuel, rfl⟩ : ∃ f, fuel = f + 1 := ⟨fuel - 1, by omega⟩
  refine ⟨fuel, by omega, ?_⟩
  obtain ⟨a, ha, hunroll⟩ := Option.map_eq_some_iff.mp h
  rw [loop, ha]
  simp only [Option.bind_eq_bind, Option.bind_some, hunroll, hrest, hnext]

/-! ### Between the tokens -/

/-- No blank, no break and no comment is at the front. -/
def Opens (r : List Char) : Prop := Inked r ∧ r.head? ≠ some '#'

section Settle

variable {r : List Char} (hr : Opens r) (tokens : List Token) (indent : Int) (indents : List Int)
  (allowed : Bool) (pending : Option PendingKey) (n i l k fuel : Nat)
include hr

theorem toToken_pad :
    toToken (fuel + 1) ⟨⟨pad n ++ r, i, l, k⟩, tokens, indent, indents, allowed, pending, []⟩ =
      ⟨⟨r, i + n, l, k + n⟩, tokens, indent, indents, allowed, pending, []⟩ := by
  have htake : (pad n ++ r).takeWhile
      (fun c => c == ' ' || (c == '\t' && (inFlow ⟨⟨pad n ++ r, i, l, k⟩, tokens, indent, indents,
        allowed, pending, []⟩ || !allowed))) = pad n := by
    rw [List.takeWhile_append_of_pos (by simp [pad])]
    cases r with
    | nil => simp
    | cons c r =>
      obtain ⟨hspace, htab⟩ := Bool.or_eq_false_iff.mp (hr.1 c rfl).1
      rw [List.takeWhile_cons_of_neg (by simp [hspace, htab]), List.append_nil]
  have hmove : Cursor.move ⟨pad n ++ r, i, l, k⟩ (pad n).length = ⟨r, i + n, l, k + n⟩ := by
    simp [Cursor.move, pad]
  have hhash : Cursor.startsWith ⟨r, i + n, l, k + n⟩ '#' = false := by
    simpa [Cursor.startsWith] using hr.2
  rw [toToken]
  simp only [Cursor.moveWhile, htake, hmove, hhash, Bool.false_eq_true, if_false, Cursor.peek?]
  cases r with
  | nil => rfl
  | cons c r => simp only [List.head?_cons, (hr.1 c rfl).2, Bool.false_eq_true, if_false]; rfl

theorem toToken_line :
    toToken (fuel + 2) ⟨⟨'\n' :: (pad n ++ r), i, l, k⟩, tokens, indent, indents, allowed, pending,
        []⟩ =
      ⟨⟨r, i + 1 + n, l + 1, n⟩, tokens, indent, indents, true, pending, []⟩ := by
  have hline : toToken (fuel + 2) ⟨⟨'\n' :: (pad n ++ r), i, l, k⟩, tokens, indent, indents,
      allowed, pending, []⟩ = toToken (fuel + 1) ⟨⟨pad n ++ r, i + 1, l + 1, 0⟩, tokens, indent,
      indents, allowed || true, pending, []⟩ := rfl
  rw [hline, toToken_pad hr, Bool.or_true, Nat.zero_add]

end Settle

theorem unrollBlocks_of_le {column indent : Int} (h : indent ≤ column) (indents : List Int)
    (tokens : List Token) :
    unrollBlocks column indent indents tokens = (indent, indents, tokens) := by
  cases indents with
  | nil => rfl
  | cons i is => rw [unrollBlocks, if_neg (by omega)]

theorem unrollBlocks_of_lt {column indent : Int} (h : column < indent) (i : Int)
    (indents : List Int) (tokens : List Token) :
    unrollBlocks column indent (i :: indents) tokens =
      unrollBlocks column i indents (.blockEnd :: tokens) := by
  rw [unrollBlocks, if_pos h]

theorem unrollBlocks_idem (column indent : Int) (indents : List Int) (tokens : List Token) :
    unrollBlocks column (unrollBlocks column indent indents tokens).1
      (unrollBlocks column indent indents tokens).2.1
      (unrollBlocks column indent indents tokens).2.2 =
      unrollBlocks column indent indents tokens := by
  induction indents generalizing indent tokens with
  | nil => rfl
  | cons i is ih =>
    by_cases h : column < indent
    · rw [unrollBlocks_of_lt h]
      exact ih i _
    · have hstay := unrollBlocks_of_le (show indent ≤ column by omega) (i :: is) tokens
      rw [hstay]
      exact hstay

/-- **A scan at the first word of a line**, with the column of the innermost block, those of the
blocks around it, and the tokens. -/
def atLine (r : List Char) (i l k : Nat) (b : Int × List Int × List Token) : Scan :=
  ⟨⟨r, i, l, k⟩, b.2.2, b.1, b.2.1, true, none, []⟩

theorem settle?_pad {r : List Char} (hr : Opens r) (tokens : List Token) (indent : Int)
    (indents : List Int) (allowed : Bool) (n i l k : Nat) :
    settle? ⟨⟨pad n ++ r, i, l, k⟩, tokens, indent, indents, allowed, none, []⟩ =
      some ⟨⟨r, i + n, l, k + n⟩, (unrollBlocks (k + n : Nat) indent indents tokens).2.2,
        (unrollBlocks (k + n : Nat) indent indents tokens).1,
        (unrollBlocks (k + n : Nat) indent indents tokens).2.1, allowed, none, []⟩ := by
  rw [settle?, toToken_pad hr]
  rfl

theorem settle?_line {r : List Char} (hr : Opens r) (tokens : List Token) (indent : Int)
    (indents : List Int) (allowed : Bool) (n i l k : Nat) :
    settle? ⟨⟨'\n' :: (pad n ++ r), i, l, k⟩, tokens, indent, indents, allowed, none, []⟩ =
      some (atLine r (i + 1 + n) (l + 1) n (unrollBlocks n indent indents tokens)) := by
  rw [settle?, List.length_cons, toToken_line hr]
  rfl

theorem settle?_atLine {r : List Char} (hr : Opens r) (i l k : Nat)
    (b : Int × List Int × List Token) :
    settle? (atLine r i l k b) = some (atLine r i l k (unrollBlocks k b.1 b.2.1 b.2.2)) :=
  settle?_pad hr b.2.2 b.1 b.2.1 true 0 i l k

/-! ### Keys -/

/-- The blocks behind a key at a column: a mapping starts there unless it is the innermost block. -/
def enter (column : Nat) (b : Int × List Int × List Token) : Int × List Int × List Token :=
  if b.1 < column then (column, b.1 :: b.2.1, .blockMapping :: b.2.2) else b

/-- The text of a plain scalar, of which a reader that is at a token takes the first character for
the start of one. -/
structure IsPlainScalar (s : List Char) : Prop extends IsPlainText s where
  starts : startsMark s = false

/-- A text that is printed plain is such a scalar. -/
theorem isPlainScalar_of_isPlain {s : List Char} (h : isPlain s = true) : IsPlainScalar s := by
  simp only [isPlain, Bool.and_eq_true, Bool.not_eq_true', List.all_eq_true, List.any_eq_false]
    at h
  obtain ⟨⟨⟨⟨⟨⟨-, hprint⟩, hbreak⟩, hhead⟩, hlast⟩, hstarts⟩, hmarks⟩ := h
  refine ⟨⟨hprint, by simpa using hbreak, ?_, ?_, hmarks⟩, hstarts⟩
  · cases s with
    | nil => simp at hhead
    | cons c t =>
      have hc : c ≠ '#' := by
        rintro rfl
        simp [startsMark] at hstarts
      exact ⟨c, rfl, by simpa using hhead, hc⟩
  · intro c hc
    rw [Option.mem_def.mp hc] at hlast
    simpa using hlast

theorem next?_plain {c : Char} {t r : List Char} (h : IsPlainScalar (c :: t)) {s : Scan}
    (houter : s.outer = []) (hcolumn : s.cursor.column ≠ 0) :
    s.next? c (t ++ r) = s.plainScalar? := by
  obtain ⟨hwhite, hbreak⟩ := h.inked r c rfl
  have hmark (m : Char) : s.cursor.atMark m = false := by simp [Cursor.atMark, hcolumn]
  have hflow : s.inFlow = false := by simp [inFlow, houter]
  have hstarts := h.starts
  simp only [startsMark, Bool.or_eq_false_iff, beq_eq_false_iff_ne, ne_eq] at hstarts
  -- a hyphen, a question mark and a colon stand for something else only as words of their own
  have hword : c = '-' ∨ c = '?' ∨ c = ':' → ∃ d u, t = d :: u ∧ isWhite d = false ∧
      isBreak d = false := by
    intro hc
    have hfollows : endsWord t = false := by
      rcases hc with rfl | rfl | rfl <;> simpa using hstarts.1.1.2
    cases t with
    | nil => simp [endsWord] at hfollows
    | cons d u => exact ⟨d, u, rfl, Bool.or_eq_false_iff.mp hfollows⟩
  have hends : c = '-' ∨ c = '?' ∨ c = ':' → endsWord (t ++ r) = false := by
    intro hc
    obtain ⟨d, u, rfl, hd, hd'⟩ := hword hc
    simp [endsWord, hd, hd']
  have hplain : s.startsPlain c (t ++ r) = true := by
    unfold startsPlain
    by_cases hhyphen : c = '-'
    · obtain ⟨d, u, rfl, hd, -⟩ := hword (.inl hhyphen)
      simp [hhyphen, hd]
    · by_cases hother : c = '?' ∨ c = ':'
      · simp [hhyphen, hother, hflow, hends (.inr hother)]
      · simp_all [isIndicator, isFlowMark]
  have hindicator : ¬ (c = '-' ∧ endsWord (t ++ r) = true) ∧
      ¬ (c = '?' ∧ endsWord (t ++ r) = true) ∧ ¬ (c = ':' ∧ endsWord (t ++ r) = true) := by
    grind
  simp [next?, hcolumn, hmark, hflow, hstarts, hindicator, hplain]

theorem IsPlainScalar.opens {s : List Char} (h : IsPlainScalar s) (r : List Char) :
    Opens (s ++ r) := by
  obtain ⟨c, hc, -, hhash⟩ := h.head
  have hhead : (s ++ r).head? = some c := by simp [List.head?_append, Option.mem_def.mp hc]
  exact ⟨h.inked r, by simpa [hhead] using hhash⟩

theorem plainScalar?_eq {s s₁ : Scan} {cs : List Char} {broken : Bool} {c : Cursor}
    (hsave : s.saveKey? = some s₁)
    (hloop : plainLoop s₁.inFlow (s₁.indent + 1).toNat (s₁.cursor.rest.length + 1) [] Gap.none
      s₁.cursor = some (cs, broken, c)) :
    s.plainScalar? = some { s₁ with
      cursor := c, tokens := .scalar .plain cs :: s₁.tokens, keyAllowed := broken } := by
  rw [plainScalar?, hsave]
  simp only [Option.bind_eq_bind, Option.bind_some, hloop]
  rfl

/-- The place of a key is kept until its colon is read. -/
theorem plainScalar?_key {key more : List Char} (hkey : IsPlainScalar key)
    (hmore : endsWord more = true) {column : Nat} (hcolumn : 0 < column)
    {b : Int × List Int × List Token} (hb : b.1 ≤ column) (i l : Nat) :
    (atLine (key ++ ':' :: more) i l column b).plainScalar? =
      some ⟨⟨':' :: more, i + key.length, l, column + key.length⟩, .scalar .plain key :: b.2.2, b.1,
        b.2.1, false, some ⟨b.1 == (column : Int), b.2.2.length, i, l, column⟩, []⟩ := by
  have hfuel : key.length < (key ++ ':' :: more).length + 1 := by
    simp only [List.length_append]
    omega
  have hloop := IsPlainText.plainLoop_eq (fun cs i k => some (cs, false, ⟨':' :: more, i, l, k⟩))
    (fun w k hw hk fuel acc g i => hw.plainLoop_colon hk hmore fuel acc g i l) hkey.toIsPlainText
    hfuel hcolumn (show (b.1 + 1).toNat ≤ column + 1 by omega) [] Gap.none i
  have hsave : (atLine (key ++ ':' :: more) i l column b).saveKey? =
      some ⟨⟨key ++ ':' :: more, i, l, column⟩, b.2.2, b.1, b.2.1, true,
        some ⟨b.1 == (column : Int), b.2.2.length, i, l, column⟩, []⟩ := rfl
  rw [plainScalar?_eq hsave hloop]
  rfl

/-- The colon puts the key in at its place, and in front of it the mapping if that starts there. -/
theorem mappingValue?_key (key more : List Char) (required : Bool) (column i l j m : Nat)
    (b : Int × List Int × List Token) :
    mappingValue? ⟨⟨':' :: more, j, l, m⟩, .scalar .plain key :: b.2.2, b.1, b.2.1, false,
        some ⟨required, b.2.2.length, i, l, column⟩, []⟩ =
      some ⟨⟨more, j + 1, l, m + 1⟩,
        .value :: .scalar .plain key :: .key :: (enter column b).2.2, (enter column b).1,
        (enter column b).2.1, false, none, []⟩ := by
  have hkey : (Token.scalar .plain key :: b.2.2).insertIdx
      ((Token.scalar .plain key :: b.2.2).length - b.2.2.length) .key =
      .scalar .plain key :: .key :: b.2.2 := by
    simp
  have hmapping : (Token.scalar .plain key :: .key :: b.2.2).insertIdx
      ((Token.scalar .plain key :: .key :: b.2.2).length - b.2.2.length) .blockMapping =
      .scalar .plain key :: .key :: .blockMapping :: b.2.2 := by
    have hplace : (Token.scalar .plain key :: .key :: b.2.2).length - b.2.2.length = 2 := by
      simp only [List.length_cons]
      omega
    rw [hplace]
    rfl
  by_cases hb : b.1 < column
  · rw [enter, if_pos hb]
    simp only [mappingValue?, insertAt, hkey, roll, inFlow, List.isEmpty_nil, Bool.not_true,
      Bool.not_false, Bool.true_and, decide_eq_true hb, if_true, hmapping]
    rfl
  · rw [enter, if_neg hb]
    simp only [mappingValue?, insertAt, hkey, roll, inFlow, List.isEmpty_nil, Bool.not_true,
      Bool.not_false, Bool.true_and, decide_eq_false hb, Bool.false_eq_true, if_false]
    rfl

theorem next?_colon {r : List Char} (hr : endsWord r = true) {s : Scan}
    (hcolumn : s.cursor.column ≠ 0) : s.next? ':' r = s.mappingValue? := by
  have hmark (m : Char) : s.cursor.atMark m = false := by simp [Cursor.atMark, hcolumn]
  simp [next?, hmark, hr]

/-- The place of a key is not too old at its colon. -/
theorem settle?_key {key : List Char} (hlen : key.length ≤ keyLimit) (more : List Char)
    (required : Bool) (i l column position : Nat) (tokens : List Token) {indent : Int}
    (hindent : indent ≤ (column + key.length : Nat)) (indents : List Int) :
    settle? ⟨⟨':' :: more, i + key.length, l, column + key.length⟩, tokens, indent, indents, false,
        some ⟨required, position, i, l, column⟩, []⟩ =
      some ⟨⟨':' :: more, i + key.length, l, column + key.length⟩, tokens, indent, indents, false,
        some ⟨required, position, i, l, column⟩, []⟩ := by
  have hopens : Opens (':' :: more) := by
    refine ⟨fun c hc => ?_, by simp⟩
    obtain rfl : ':' = c := by simpa using hc
    decide
  have htoken := toToken_pad hopens tokens indent indents false
    (some ⟨required, position, i, l, column⟩) 0 (i + key.length) l (column + key.length)
    (':' :: more).length
  have hstale : isStale ⟨':' :: more, i + key.length, l, column + key.length⟩
      ⟨required, position, i, l, column⟩ = false := by
    simp [isStale]
    omega
  change toToken _ ⟨⟨':' :: more, _, _, _⟩, _, _, _, _, _, _⟩ = _ at htoken
  rw [settle?, htoken]
  simp only [freshenAll?, freshen?, Nat.add_zero, hstale, Bool.false_eq_true, if_false,
    Option.bind_eq_bind, Option.bind_some, List.mapM_nil, Option.pure_def, Option.map_some, unroll,
    inFlow, List.isEmpty_nil, Bool.not_true, unrollBlocks_of_le hindent]

/-- **A key and its colon are read**, and the mapping of the key is entered if it starts there. -/
theorem Leads.key {key more : List Char} (hkey : IsPlainScalar key) (hlen : key.length ≤ keyLimit)
    (hmore : endsWord more = true) {column : Nat} (hcolumn : 0 < column)
    {b : Int × List Int × List Token} (hb : b.1 ≤ column) (i l : Nat) :
    Leads (atLine (key ++ ':' :: more) i l column b)
      ⟨⟨more, i + key.length + 1, l, column + key.length + 1⟩,
        .value :: .scalar .plain key :: .key :: (enter column b).2.2, (enter column b).1,
        (enter column b).2.1, false, none, []⟩ := by
  obtain ⟨c, t, rfl⟩ : ∃ c t, key = c :: t := by
    obtain ⟨c, hc, -⟩ := hkey.head
    exact ⟨c, _, List.eq_cons_of_mem_head? hc⟩
  have hsettle := settle?_atLine (hkey.opens (':' :: more)) i l column b
  rw [unrollBlocks_of_le hb] at hsettle
  have hnext : (atLine (c :: t ++ ':' :: more) i l column b).next? c (t ++ ':' :: more) = _ :=
    (next?_plain hkey rfl (by simp [atLine]; omega)).trans
      (plainScalar?_key hkey hmore hcolumn hb i l)
  have hshorter : (':' :: more).length < (c :: t ++ ':' :: more).length := by
    simp only [List.length_append, List.length_cons]
    omega
  refine (Leads.step hsettle rfl hnext hshorter).trans ?_
  have hcolon := settle?_key hlen more (b.1 == (column : Int)) i l column b.2.2.length
    (.scalar .plain (c :: t) :: b.2.2) (show b.1 ≤ (column + (c :: t).length : Nat) by omega) b.2.1
  have hvalue : next? _ ':' more = some _ :=
    (next?_colon hmore (by dsimp only; omega)).trans
      (mappingValue?_key (c :: t) more (b.1 == (column : Int)) column i l (i + (c :: t).length)
        (column + (c :: t).length) b)
  exact Leads.step hcolon rfl hvalue (by simp)


/-! ### Scalars behind a colon -/

theorem quotedScalar?_eq {s : Scan} {single : Bool} {cs : List Char} {c : Cursor}
    (hsave : s.saveKey? = some s)
    (hloop : quotedLoop single ((s.cursor.move 1).rest.length + 1) [] (s.cursor.move 1) =
      some (cs, c)) :
    s.quotedScalar? single = some { s with
      cursor := c, tokens := .scalar .quoted cs :: s.tokens, keyAllowed := false } := by
  rw [quotedScalar?, hsave]
  simp only [Option.bind_eq_bind, Option.bind_some, hloop]
  rfl

theorem blockScalarToken?_eq {s : Scan} {cs : List Char} {c : Cursor} (hdrop : s.dropKey? = some s)
    (hscalar : blockScalar? false s.indent (s.cursor.move 1) = some (cs, c)) :
    s.blockScalarToken? false = some { s with
      cursor := c, tokens := .scalar .literal cs :: s.tokens, keyAllowed := true } := by
  rw [blockScalarToken?, hdrop]
  simp only [Option.bind_eq_bind, Option.bind_some, hscalar]
  rfl

/-- How a text is written. -/
def styleOf (s : List Char) : ScalarStyle :=
  if isLiteral s then .literal else if isPlain s then .plain else .quoted

/-- A scan behind the colon of a key whose mapping is at a column. -/
def atValue (r : List Char) (i l k column : Nat) (indents : List Int) (tokens : List Token) :
    Scan :=
  ⟨⟨r, i, l, k⟩, tokens, column, indents, false, none, []⟩

theorem settle?_atValue {r : List Char} (hr : Opens r) {column j : Nat} (hj : column < j)
    (indents : List Int) (tokens : List Token) (i l : Nat) :
    settle? (atValue (' ' :: r) i l j column indents tokens) =
      some (atValue r (i + 1) l (j + 1) column indents tokens) := by
  have hstay := unrollBlocks_of_le (show (column : Int) ≤ (j + 1 : Nat) by omega) indents tokens
  have hsettle := settle?_pad hr tokens column indents false 1 i l j
  rw [hstay] at hsettle
  exact hsettle

section Values

variable {r : List Char} (hr : Opens r) {column k j : Nat} (hk : k ≤ column) (hj : column < j)
  (indents : List Int) (tokens : List Token) (i l : Nat)

include hr hj in
/-- One token behind a colon, and the place of the next one is the first word of a line. -/
theorem Leads.value {c : Char} {t : List Char} (ht : Opens (c :: t)) {s' : Scan} {i' l' : Nat}
    {b : Int × List Int × List Token}
    (hnext : (atValue (c :: t) (i + 1) l (j + 1) column indents tokens).next? c t = some s')
    (hsettle : s'.settle? = some (atLine r i' l' k (unrollBlocks k b.1 b.2.1 b.2.2)))
    (hlen : s'.cursor.rest.length ≤ (c :: t).length) (hlen' : r.length ≤ s'.cursor.rest.length) :
    Leads (atValue (' ' :: c :: t) i l j column indents tokens)
      (atLine r i' l' k (unrollBlocks k b.1 b.2.1 b.2.2)) := by
  have hstep := Leads.step (settle?_atValue ht hj indents tokens i l) rfl hnext
    (Nat.lt_of_le_of_lt hlen (by simp [atValue]))
  refine hstep.trans (Leads.of_settle ?_ hlen')
  rw [hsettle, settle?_atLine hr, unrollBlocks_idem]

include hr hk hj

/-- **A plain scalar is read** to the first word of the next line. -/
theorem Leads.plain {s : List Char} (hs : IsPlainScalar s) :
    ∃ i' l', Leads (atValue (' ' :: (s ++ '\n' :: (pad k ++ r))) i l j column indents tokens)
      (atLine r i' l' k (unrollBlocks k column indents (.scalar .plain s :: tokens))) := by
  obtain ⟨c, t, rfl⟩ : ∃ c t, s = c :: t := by
    obtain ⟨c, hc, -⟩ := hs.head
    exact ⟨c, _, List.eq_cons_of_mem_head? hc⟩
  have hfuel : (c :: t).length < (c :: t ++ '\n' :: (pad k ++ r)).length + 1 := by
    simp only [List.length_append]
    omega
  have hloop := IsPlainText.plainLoop_eq (fun cs i' _ => some (cs, true, ⟨r, i' + 1 + k, l + 1, k⟩))
    (fun w m hw hm fuel acc g i' =>
      hw.plainLoop_line hm hr.1 (show k < ((column : Int) + 1).toNat by omega) fuel acc g i' l)
    hs.toIsPlainText hfuel (show 0 < j + 1 by omega)
    (show ((column : Int) + 1).toNat ≤ j + 1 + 1 by omega) [] Gap.none (i + 1)
  have hsave : (atValue (c :: t ++ '\n' :: (pad k ++ r)) (i + 1) l (j + 1) column indents
      tokens).saveKey? = some (atValue (c :: t ++ '\n' :: (pad k ++ r)) (i + 1) l (j + 1) column
      indents tokens) := rfl
  have hnext : (atValue (c :: t ++ '\n' :: (pad k ++ r)) (i + 1) l (j + 1) column indents
      tokens).next? c (t ++ '\n' :: (pad k ++ r)) =
      some (atLine r (i + 1 + (c :: t).length + 1 + k) (l + 1) k
        (column, indents, .scalar .plain (c :: t) :: tokens)) :=
    (next?_plain hs rfl (by simp [atValue])).trans (plainScalar?_eq hsave hloop)
  exact ⟨_, _, Leads.value hr hj indents tokens i l (hs.opens _) hnext (settle?_atLine hr _ _ _ _)
    (by simp [atLine]; omega) (by simp [atLine])⟩

omit hk in
/-- **A text in quotes is read** to the first word of the next line. -/
theorem Leads.quoted (single : Bool) {q : Char} (hq : q = if single then '\'' else '"')
    {cs s : List Char}
    (hloop : ∃ i' l' k', quotedLoop single ((cs ++ '\n' :: (pad k ++ r)).length + 1) []
      ⟨cs ++ '\n' :: (pad k ++ r), i + 2, l, j + 2⟩ =
        some (s, ⟨'\n' :: (pad k ++ r), i', l', k'⟩)) :
    ∃ i' l', Leads (atValue (' ' :: q :: (cs ++ '\n' :: (pad k ++ r))) i l j column indents tokens)
      (atLine r i' l' k (unrollBlocks k column indents (.scalar .quoted s :: tokens))) := by
  obtain ⟨i', l', k', hloop⟩ := hloop
  have hsave : (atValue (q :: (cs ++ '\n' :: (pad k ++ r))) (i + 1) l (j + 1) column indents
      tokens).saveKey? = some (atValue (q :: (cs ++ '\n' :: (pad k ++ r))) (i + 1) l (j + 1) column
      indents tokens) := rfl
  have hnext : (atValue (q :: (cs ++ '\n' :: (pad k ++ r))) (i + 1) l (j + 1) column indents
      tokens).next? q (cs ++ '\n' :: (pad k ++ r)) =
      some ⟨⟨'\n' :: (pad k ++ r), i', l', k'⟩, .scalar .quoted s :: tokens, column, indents, false,
        none, []⟩ := by
    have hquote := quotedScalar?_eq hsave hloop
    cases single <;> subst hq <;> exact hquote
  have hopens : Opens (q :: (cs ++ '\n' :: (pad k ++ r))) := by
    have hq' : q = '\'' ∨ q = '"' := by cases single <;> simp [hq]
    refine ⟨fun c hc => ?_, ?_⟩
    · obtain rfl : q = c := by simpa using hc
      rcases hq' with rfl | rfl <;> decide
    · rcases hq' with rfl | rfl <;> simp
  have hsettle := settle?_line hr (.scalar .quoted s :: tokens) column indents false k i' l' k'
  exact ⟨_, _, Leads.value (b := (column, indents, .scalar .quoted s :: tokens)) hr hj indents
    tokens i l hopens hnext hsettle (by simp; omega) (by simp; omega)⟩

/-- **A text of whole lines is read** to the first word behind it. -/
theorem Leads.literal {s : List Char} (hne : s ≠ []) (hprint : ∀ c ∈ s, isPrintable c = true) :
    ∃ i' l', Leads (atValue (' ' :: (literalHead s ++
        '\n' :: (literalLines (column + 2) true s ++ (pad k ++ r)))) i l j column indents tokens)
      (atLine r i' l' k (unrollBlocks k column indents (.scalar .literal s :: tokens))) := by
  obtain ⟨i', l', hscalar⟩ := blockScalar?_literal hne hprint hk hr.1 (i + 2) l (j + 2)
  have hhead : literalHead s = '|' :: (literalHead s).drop 1 := rfl
  rw [hhead, List.cons_append]
  have hlen : r.length ≤ ((literalHead s).drop 1 ++
      '\n' :: (literalLines (column + 2) true s ++ (pad k ++ r))).length + 1 := by
    simp only [List.length_append, List.length_cons]
    omega
  generalize (literalHead s).drop 1 ++ '\n' :: (literalLines (column + 2) true s ++ (pad k ++ r)) =
    t at hscalar hlen ⊢
  have hnext : (atValue ('|' :: t) (i + 1) l (j + 1) column indents tokens).next? '|' t =
      some (atLine r i' l' k (column, indents, .scalar .literal s :: tokens)) :=
    blockScalarToken?_eq rfl hscalar
  have hopens : Opens ('|' :: t) := by
    refine ⟨fun c hc => ?_, by simp⟩
    obtain rfl : '|' = c := by simpa using hc
    decide
  exact ⟨_, _, Leads.value hr hj indents tokens i l hopens hnext (settle?_atLine hr _ _ _ _)
    hlen (by simp [atLine])⟩

/-- **The scalar of a text is read** to the first word of the next line. -/
theorem Leads.text (s : List Char) :
    ∃ i' l', Leads (atValue (' ' :: (scalarLine (column + 2) s ++ (pad k ++ r))) i l j column
        indents tokens)
      (atLine r i' l' k (unrollBlocks k column indents (.scalar (styleOf s) s :: tokens))) := by
  by_cases hliteral : isLiteral s = true
  · have hconds := hliteral
    simp only [isLiteral, Bool.and_eq_true, List.any_eq_true, List.all_eq_true] at hconds
    obtain ⟨⟨⟨⟨c, hc, -⟩, hprint⟩, -⟩, -⟩ := hconds
    rw [scalarLine, if_pos hliteral, styleOf, if_pos hliteral, List.append_assoc, List.cons_append]
    exact Leads.literal hr hk hj indents tokens i l (List.ne_nil_of_mem hc) hprint
  · rw [scalarLine, if_neg hliteral, styleOf, if_neg hliteral]
    by_cases hplain : isPlain s = true
    · rw [if_pos hplain, if_pos hplain, List.append_assoc]
      exact Leads.plain hr hk hj indents tokens i l (isPlainScalar_of_isPlain hplain)
    · rw [if_neg hplain, if_neg hplain]
      by_cases hsingle : (isSingle s && !s.any (· == '\n')) = true
      · have hline : '\'' :: singleChars (column + 2) false s ++ ['\n'] ++ (pad k ++ r) =
            '\'' :: (singleChars (column + 2) false s ++ '\n' :: (pad k ++ r)) := by simp
        have hconds := hsingle
        simp only [isSingle, Bool.and_eq_true, Bool.not_eq_true', List.all_eq_true] at hconds
        obtain ⟨⟨⟨hprint, h1⟩, h2⟩, hany⟩ := hconds
        have hfeed : '\n' ∉ s := fun h => by simpa using List.any_eq_false.mp hany '\n' h
        have hfuel : s.length <
            (singleChars (column + 2) false s ++ '\n' :: (pad k ++ r)).length + 1 := by
          have := length_lt_singleChars (column + 2) s false
          simp only [List.length_append]
          omega
        rw [if_pos hsingle, hline]
        exact Leads.quoted hr hj indents tokens i l true rfl
          (quotedLoop_single (by omega) hprint hfeed h1 h2 _ hfuel (by omega) [] _ _)
      · have hline : '"' :: s.flatMap doubleChar ++ ['"', '\n'] ++ (pad k ++ r) =
            '"' :: (s.flatMap doubleChar ++ ['"'] ++ '\n' :: (pad k ++ r)) := by simp
        have hfuel : s.length <
            (s.flatMap doubleChar ++ ['"'] ++ '\n' :: (pad k ++ r)).length + 1 := by
          have := length_le_doubleChars s
          simp only [List.length_append]
          omega
        rw [if_neg hsingle, hline]
        refine Leads.quoted hr hj indents tokens i l false rfl ?_
        rw [List.append_assoc] at hfuel ⊢
        exact quotedLoop_double hfuel (by omega) [] _ _

end Values

end Scan

end FlowState.Yaml
