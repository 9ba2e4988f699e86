import FlowState.Proofs.PlainScalars

/-! # Texts of whole lines

A text with line feeds is printed as its lines, behind a head that says how deep they are indented
and what becomes of the breaks at the end. It is read as the same text (`blockScalar?_literal`): the
breaks before a line are read with its indentation, then the line itself, and the mark in the head
gives back as many breaks behind the last line as the text has (`keptBreaks`). -/

namespace FlowState.Yaml

/-! ### Texts of whole lines -/

/-- A line of a block scalar starts behind so many blanks, or the scalar is over there. -/
def LineStarts (indent n : Nat) (r : List Char) : Prop :=
  (n = indent ∧ 0 < indent ∧ ∀ c ∈ r.head?, isBreak c = false) ∨
    ((indent = 0 ∨ n < indent) ∧ Inked r)

theorem blockBreaks_line {indent n : Nat} {r : List Char} (hr : LineStarts indent n r) (fuel : Nat)
    (acc : List Char) (deepest i l : Nat) :
    blockBreaks indent (fuel + 1) acc deepest ⟨pad n ++ r, i, l, 0⟩ =
      some (acc, max deepest n, ⟨r, i + n, l, n⟩) := by
  have hblanks : ((pad n ++ r).takeWhile (· == ' ')).length =
      n + (r.takeWhile (· == ' ')).length := by
    rw [List.takeWhile_append_of_pos (by simp [pad]), List.length_append, pad,
      List.length_replicate]
  have hmove : (if indent = 0 then ((pad n ++ r).takeWhile (· == ' ')).length
      else min ((pad n ++ r).takeWhile (· == ' ')).length (indent - 0)) = n := by
    rw [hblanks]
    rcases hr with ⟨hn, hpos, -⟩ | ⟨hn, hinked⟩
    · rw [if_neg (by omega)]
      omega
    · have hnone : r.takeWhile (· == ' ') = [] := by
        cases r with
        | nil => rfl
        | cons c r =>
          have hc : (c == ' ') = false := (Bool.or_eq_false_iff.mp (hinked c rfl).1).1
          rw [List.takeWhile_cons_of_neg (by simp [hc])]
      rw [hnone, List.length_nil]
      split <;> omega
  have hdrop : (pad n ++ r).drop n = r := by
    rw [List.drop_left' (by simp [pad])]
  rw [blockBreaks]
  simp only [Cursor.move, hmove, hdrop, Nat.zero_add]
  cases r with
  | nil => rfl
  | cons c r =>
    have hbreak : isBreak c = false := by
      rcases hr with ⟨-, -, h⟩ | ⟨-, h⟩
      · exact h c rfl
      · exact (h c rfl).2
    have htab : (c == '\t' && (decide (indent = 0) || decide (n < indent))) = false := by
      rcases hr with ⟨hn, hpos, -⟩ | ⟨-, h⟩
      · simp
        omega
      · have hc : (c == '\t') = false := (Bool.or_eq_false_iff.mp (h c rfl).1).2
        rw [hc]
        rfl
    simp only [htab, hbreak, Bool.false_eq_true, if_false]

theorem blockBreaks_breaks {indent n : Nat} {r : List Char} (hr : LineStarts indent n r)
    {bs : List Char} (hbs : ∀ c ∈ bs, isPrintable c = true ∧ isBreak c = true) {fuel : Nat}
    (hfuel : bs.length < fuel) (acc : List Char) (deepest i l : Nat) :
    blockBreaks indent fuel acc deepest ⟨bs ++ (pad n ++ r), i, l, 0⟩ =
      some (acc ++ bs, max deepest n, ⟨r, i + bs.length + n, l + bs.length, n⟩) := by
  obtain ⟨fuel, rfl⟩ : ∃ f, fuel = f + 1 := ⟨fuel - 1, by omega⟩
  induction bs generalizing fuel acc i l with
  | nil => simp [blockBreaks_line hr]
  | cons b bs ih =>
    obtain ⟨hp, hb⟩ := hbs b (by simp)
    simp only [List.length_cons] at hfuel
    obtain ⟨fuel, rfl⟩ : ∃ f, fuel = f + 1 := ⟨fuel - 1, by omega⟩
    have hspace : (b == ' ') = false := by
      have := isWhite_of_isBreak hb
      exact (Bool.or_eq_false_iff.mp this).1
    have htab : (b == '\t') = false := by
      have := isWhite_of_isBreak hb
      exact (Bool.or_eq_false_iff.mp this).2
    rw [List.cons_append, blockBreaks]
    simp only [List.takeWhile_cons, hspace, htab, hb, List.length_nil, Nat.zero_min, ite_self,
      Cursor.move, List.drop_zero, Nat.add_zero, Nat.max_zero, takeBreak_printable hp hb,
      Bool.false_and, Bool.false_eq_true, if_false, if_true]
    rw [ih (fun c hc => hbs c (by simp [hc])) (acc ++ [b]) (i + 1) (l + 1) fuel (by omega)]
    simp only [List.append_assoc, List.singleton_append, List.length_cons, Option.some.injEq,
      Prod.mk.injEq, Cursor.mk.injEq, true_and, and_true]
    omega

/-- A line, its break and the empty lines behind it. -/
theorem blockLines_line {indent n : Nat} {w r : List Char}
    (hw : ∀ c ∈ w, isBreak c = false) {b : Char} {bs : List Char}
    (hbs : ∀ c ∈ b :: bs, isPrintable c = true ∧ isBreak c = true) (hr : LineStarts indent n r)
    (fuel : Nat) (acc leading breaks : List Char) (white : Bool) (i l : Nat) :
    ∃ white' i' l', blockLines false indent (fuel + 1) acc leading breaks white
        ⟨w ++ b :: (bs ++ (pad n ++ r)), i, l, indent⟩ =
      blockLines false indent fuel (acc ++ (leading ++ breaks) ++ w) [b] bs white'
        ⟨r, i', l', n⟩ := by
  obtain ⟨hp, hb⟩ := hbs b (by simp)
  have hline : (w ++ b :: (bs ++ (pad n ++ r))).takeWhile (fun x => !isBreak x) = w := by
    rw [List.takeWhile_append_of_pos (by simpa using hw),
      List.takeWhile_cons_of_neg (by simp [hb]), List.append_nil]
  have hfuel : bs.length < (bs ++ (pad n ++ r)).length + 1 := by
    simp only [List.length_append]
    omega
  have hempty : (w ++ b :: (bs ++ (pad n ++ r))).isEmpty = false := by simp
  have hbreaks := blockBreaks_breaks hr (fun c hc => hbs c (by simp [hc])) hfuel [] 0
    (i + w.length + 1) (l + 1)
  rw [blockLines]
  simp only [bne_self_eq_false, hempty, Bool.or_false, Bool.false_and, Bool.false_eq_true, if_false,
    hline, Cursor.move, List.drop_left, takeBreak_printable hp hb, hbreaks, List.nil_append,
    Option.bind_eq_bind, Option.bind_some]
  exact ⟨_, _, _, rfl⟩

/-! ### The end of the lines -/

/-- What a mark leaves of the break behind the last line and of the breaks behind that. -/
def keptBreaks (mark lead ends : List Char) : List Char :=
  if mark = ['-'] then [] else if mark = ['+'] then lead ++ ends else lead

theorem chompMark_cases (s : List Char) :
    chompMark s = ['-'] ∨ chompMark s = ['+'] ∨ chompMark s = [] := by
  unfold chompMark
  split
  · simp
  · split
    · simp
    · split
      · simp
      · split <;> simp

theorem chompMark_append {x : List Char} {a : Char} {t : List Char} (ha : isBreak a = false) :
    chompMark (x ++ a :: t) = chompMark (a :: t) := by
  unfold chompMark
  rw [List.reverse_append, List.reverse_cons, List.append_assoc]
  cases ht : t.reverse with
  | nil => simp [ha]
  | cons c r => cases r <;> rfl

theorem chompMark_line {w : List Char} (hne : w ≠ []) (hw : ∀ c ∈ w, isBreak c = false) :
    chompMark w = ['-'] := by
  unfold chompMark
  cases hr : w.reverse with
  | nil => simp at hr; exact absurd hr hne
  | cons a r =>
    have : a ∈ w := by
      rw [← List.mem_reverse, hr]
      simp
    simp [hw a this]

theorem chompMark_breaks {w : List Char} (hne : w ≠ []) (hw : ∀ c ∈ w, isBreak c = false) {b : Char}
    {bs : List Char} (hbs : ∀ c ∈ b :: bs, isBreak c = true) :
    keptBreaks (chompMark (w ++ b :: bs)) [b] bs = b :: bs := by
  obtain ⟨c, r, hr⟩ : ∃ c r, w.reverse = c :: r :=
    List.exists_cons_of_ne_nil (by simpa using hne)
  have hc : isBreak c = false := hw c (by rw [← List.mem_reverse, hr]; simp)
  have hb : isBreak b = true := hbs b (by simp)
  unfold chompMark
  rw [List.reverse_append, List.reverse_cons, List.append_assoc, List.singleton_append, hr]
  cases hrev : bs.reverse with
  | nil =>
    obtain rfl : bs = [] := by simpa using hrev
    simp [keptBreaks, hb, hc]
  | cons d ds =>
    have hmem : ∀ x ∈ d :: ds, isBreak x = true := fun x hx =>
      hbs x (by rw [← hrev, List.mem_reverse] at hx; simp [hx])
    have hd : isBreak d = true := hmem d (by simp)
    cases ds with
    | nil => simp [keptBreaks, hd, hb]
    | cons x ds => simp [keptBreaks, hd, hmem x (by simp)]

attribute [local simp] literalLines

theorem literalLines_append {w : List Char} (hw : ∀ c ∈ w, isBreak c = false) (column : Nat)
    (t : List Char) :
    literalLines column false (w ++ t) = w ++ literalLines column false t := by
  induction w with
  | nil => rfl
  | cons c w ih =>
    simp [hw c (by simp), ih fun d hd => hw d (by simp [hd])]

theorem literalLines_breaks {bs : List Char} (hbs : ∀ c ∈ bs, isBreak c = true) (column : Nat)
    (t : List Char) :
    literalLines column true (bs ++ t) = bs ++ literalLines column true t := by
  induction bs with
  | nil => rfl
  | cons b bs ih =>
    simp [hbs b (by simp), ih fun d hd => hbs d (by simp [hd])]

theorem literalLines_fresh {a : Char} (ha : isBreak a = false) (column : Nat) (t : List Char) :
    literalLines column true (a :: t) = pad column ++ literalLines column false (a :: t) := by
  simp [ha]

theorem literalLines_gap {b : Char} {bs : List Char} (hbs : ∀ c ∈ b :: bs, isBreak c = true)
    (column : Nat) (t : List Char) :
    literalLines column false (b :: bs ++ t) = b :: bs ++ literalLines column true t := by
  rw [List.cons_append, literalLines, if_pos (hbs b (by simp)),
    literalLines_breaks fun c hc => hbs c (by simp [hc])]
  rfl

theorem length_le_literalLines (column : Nat) (s : List Char) (fresh : Bool) :
    s.length ≤ (literalLines column fresh s).length := by
  induction s generalizing fresh with
  | nil => simp
  | cons c s ih =>
    have h1 := ih true
    have h2 := ih false
    rw [literalLines]
    split
    · simpa using h1
    · simp only [List.length_append, List.length_cons]
      omega

/-- Behind the last line, at a column that is not deep enough, the scalar is over. -/
theorem blockLines_end {indent n : Nat} (hn : n ≠ indent) (fuel : Nat)
    (acc leading breaks : List Char) (white : Bool) (r : List Char) (i l : Nat) :
    blockLines false indent fuel acc leading breaks white ⟨r, i, l, n⟩ =
      some (acc, leading, breaks, ⟨r, i, l, n⟩) := by
  cases fuel with
  | zero => rfl
  | succ fuel => simp [blockLines, hn]

/-- **The lines of a text are read**, from where its first one starts. -/
theorem blockLines_literal {column : Nat} (hcolumn : 0 < column) {k : Nat} (hk : k < column)
    {r : List Char} (hr : Inked r) {s : List Char} (hne : s ≠ [])
    (hprint : ∀ c ∈ s, isPrintable c = true) (hhead : ∀ c ∈ s.head?, isBreak c = false)
    {fuel : Nat} (hfuel : s.length < fuel) (acc leading breaks : List Char) (white : Bool)
    (i l : Nat) :
    ∃ body lead ends i' l', body ++ keptBreaks (chompMark s) lead ends = s ∧
      blockLines false column fuel acc leading breaks white
        ⟨literalLines column false s ++ (pad k ++ r), i, l, column⟩ =
      some (acc ++ (leading ++ breaks) ++ body, lead, ends, ⟨r, i', l', k⟩) := by
  have hover : LineStarts column k r := .inr ⟨.inr hk, hr⟩
  obtain ⟨fuel, rfl⟩ : ∃ f, fuel = f + 1 := ⟨fuel - 1, by omega⟩
  induction s using words_induction isBreak
    generalizing fuel acc leading breaks white i l with
  | last w hw =>
    have hlines : literalLines column false w = w ++ ['\n'] := by
      have := literalLines_append hw column []
      rwa [List.append_nil] at this
    obtain ⟨white', i', l', hline⟩ :=
      blockLines_line hw isBreak_feed hover fuel acc leading breaks white i l
    refine ⟨w, ['\n'], [], i', l', by simp [chompMark_line hne hw, keptBreaks], ?_⟩
    rw [hlines, List.append_assoc]
    exact hline.trans (blockLines_end (by omega) _ _ _ _ _ _ _ _)
  | gap w g t hw hg hbreaks ht ih =>
    have hw' : w ≠ [] := by
      rintro rfl
      obtain ⟨b, g, rfl⟩ := List.exists_cons_of_ne_nil hg
      exact absurd (hbreaks b (by simp)) (by simp [hhead b rfl])
    obtain ⟨b, bs, rfl⟩ := List.exists_cons_of_ne_nil hg
    have hbs : ∀ c ∈ b :: bs, isPrintable c = true ∧ isBreak c = true := fun c hc =>
      ⟨hprint c (List.mem_append_right _ (List.mem_append_left _ hc)), hbreaks c hc⟩
    rw [literalLines_append hw, literalLines_gap hbreaks]
    cases t with
    | nil =>
      obtain ⟨white', i', l', hline⟩ :=
        blockLines_line hw hbs hover fuel acc leading breaks white i l
      refine ⟨w, [b], bs, i', l', ?_, ?_⟩
      · rw [List.append_nil, chompMark_breaks hw' hw hbreaks]
      · have hlines : literalLines column true [] = [] := rfl
        rw [hlines, List.append_nil, List.append_assoc]
        exact hline.trans (blockLines_end (by omega) _ _ _ _ _ _ _ _)
    | cons a t =>
      have ha : isBreak a = false := ht a rfl
      have hstart : LineStarts column column (literalLines column false (a :: t) ++ (pad k ++ r)) :=
        .inl ⟨rfl, hcolumn, fun c hc => by
          obtain rfl : a = c := by simpa [ha] using hc
          exact ha⟩
      obtain ⟨white', i1, l1, hline⟩ :=
        blockLines_line hw hbs hstart fuel acc leading breaks white i l
      simp only [List.length_append, List.length_cons] at hfuel
      obtain ⟨fuel, rfl⟩ : ∃ f, fuel = f + 1 := ⟨fuel - 1, by omega⟩
      obtain ⟨body, lead, ends, i2, l2, hbody, hrest⟩ :=
        ih (by simp) (fun c hc => hprint c (List.mem_append_right _ (List.mem_append_right _ hc)))
          ht (acc ++ (leading ++ breaks) ++ w) [b] bs white' i1 l1 fuel (by simp; omega)
      refine ⟨w ++ (b :: bs ++ body), lead, ends, i2, l2, ?_, ?_⟩
      · have hmark : chompMark (w ++ (b :: bs ++ a :: t)) = chompMark (a :: t) := by
          rw [← List.append_assoc, chompMark_append ha]
        rw [hmark, List.append_assoc, List.append_assoc, hbody]
      · rw [literalLines_fresh ha]
        simp only [List.append_assoc, List.cons_append] at hline hrest ⊢
        rw [hline, hrest]
        simp

/-! ### The head of the lines -/

/-- The chomping that a mark stands for. -/
def markChomping (mark : List Char) : Chomping :=
  if mark = ['-'] then .strip else if mark = ['+'] then .keep else .clip

/-- The number in the head of a text of whole lines. -/
def headIncrement (s : List Char) : Nat :=
  if s.head?.any fun c => isSpace c || isBreak c then 2 else 0

theorem blockHeader?_literal (s r : List Char) (i l k : Nat) :
    ∃ i' k', blockHeader? ⟨(literalHead s).drop 1 ++ '\n' :: r, i, l, k⟩ =
      some (markChomping (chompMark s), headIncrement s, ⟨'\n' :: r, i', l, k'⟩) := by
  have hhead : (literalHead s).drop 1 =
      (if s.head?.any fun c => isSpace c || isBreak c then ['2'] else []) ++ chompMark s := rfl
  rw [hhead, headIncrement]
  rcases chompMark_cases s with h | h | h <;> rw [h] <;> split <;> exact ⟨_, _, rfl⟩

/-- The columns that the head of a text of whole lines gives to its lines, or none. -/
def givenColumn (parent : Nat) (s : List Char) : Nat :=
  if headIncrement s = 0 then 0 else parent + 2

/-- Behind its head, a text of whole lines is read as its leading breaks and its lines. -/
theorem blockScalar?_eq (parent : Nat) (s r : List Char) (i l j : Nat) :
    ∃ i', blockScalar? false parent ⟨(literalHead s).drop 1 ++ '\n' :: r, i, l, j⟩ =
      (blockBreaks (givenColumn parent s) (r.length + 1) [] 0 ⟨r, i', l + 1, 0⟩).bind fun p =>
        (blockLines false (if givenColumn parent s = 0 then max (max p.2.1 (parent + 1)) 1
            else givenColumn parent s) (p.2.2.rest.length + 1) [] [] p.1 false p.2.2).bind fun q =>
          some (q.1 ++ keptBreaks (chompMark s) q.2.1 q.2.2.1, q.2.2.2) := by
  obtain ⟨i', k', hheader⟩ := blockHeader?_literal s r i l j
  have hmove : Cursor.moveWhile ⟨'\n' :: r, i', l, k'⟩ isWhite = ⟨'\n' :: r, i', l, k'⟩ := rfl
  have hgiven : (if headIncrement s = 0 then 0 else if (0 : Int) ≤ parent then
      ((parent : Int) + (headIncrement s : Int)).toNat else headIncrement s) =
      givenColumn parent s := by
    unfold givenColumn headIncrement
    split <;> simp
    omega
  have hparent : ((parent : Int) + 1).toNat = parent + 1 := by omega
  refine ⟨i' + 1, ?_⟩
  rw [blockScalar?, hheader]
  simp only [Option.bind_eq_bind, Option.bind_some, hmove, hgiven, hparent]
  rcases chompMark_cases s with h | h | h <;> simp only [h] <;> rfl

theorem chompMark_of_breaks {s : List Char} (hne : s ≠ []) (hs : ∀ c ∈ s, isBreak c = true) :
    chompMark s = ['+'] := by
  unfold chompMark
  obtain ⟨a, r, hr⟩ : ∃ a r, s.reverse = a :: r := List.exists_cons_of_ne_nil (by simpa using hne)
  have hmem : ∀ c ∈ a :: r, isBreak c = true := fun c hc => hs c (by rwa [← List.mem_reverse, hr])
  rw [hr]
  cases r with
  | nil => simp [hmem a (by simp)]
  | cons b r => simp [hmem a (by simp), hmem b (by simp)]

/-- A text is its leading breaks and what starts with none. -/
theorem exists_breaks_append (s : List Char) : ∃ g t, s = g ++ t ∧ (∀ c ∈ g, isBreak c = true) ∧
    ∀ c ∈ t.head?, isBreak c = false := by
  refine ⟨s.takeWhile isBreak, s.dropWhile isBreak, List.takeWhile_append_dropWhile.symm,
    fun c hc => List.mem_takeWhile_imp hc, fun c hc => ?_⟩
  have hnot := List.head?_dropWhile_not isBreak s
  rw [Option.mem_def.mp hc] at hnot
  simpa using hnot

/-- The first line starts where the head says, and where the head says nothing, the line shows the
indentation itself. -/
theorem lineStarts_givenColumn {g t r : List Char} {a : Char}
    (hprint : isPrintable a = true) (hg : ∀ c ∈ g, isBreak c = true) (ha : isBreak a = false)
    (hr : ∀ c ∈ r.head?, c = a) (parent : Nat) :
    LineStarts (givenColumn parent (g ++ a :: t)) (parent + 2) r := by
  by_cases hhead : ((g ++ a :: t).head?.any fun c => isSpace c || isBreak c) = true
  · rw [givenColumn, headIncrement, if_pos hhead]
    exact .inl ⟨rfl, Nat.succ_pos _, fun c hc => by rw [hr c hc, ha]⟩
  · rw [givenColumn, headIncrement, if_neg hhead]
    obtain rfl : g = [] := by
      cases g with
      | nil => rfl
      | cons b g => exact absurd (by simp [hg b (by simp)]) hhead
    have hspace : isSpace a = false := by simp_all
    refine .inr ⟨.inl rfl, fun c hc => ?_⟩
    rw [hr c hc, isWhite_eq_isSpace hprint]
    exact ⟨hspace, ha⟩

/-- Either way, the lines are at the column that they were written at. -/
theorem indent_givenColumn (parent : Nat) (s : List Char) :
    (if givenColumn parent s = 0 then max (max (max 0 (parent + 2)) (parent + 1)) 1
      else givenColumn parent s) = parent + 2 := by
  unfold givenColumn
  split <;> split <;> omega

/-- **A text of whole lines is read back**, up to a word that is not indented as deeply. -/
theorem blockScalar?_literal {s : List Char} (hne : s ≠ []) (hprint : ∀ c ∈ s, isPrintable c = true)
    {parent k : Nat} (hk : k ≤ parent) {r : List Char} (hr : Inked r) (i l j : Nat) :
    ∃ i' l', blockScalar? false parent ⟨(literalHead s).drop 1 ++
        '\n' :: (literalLines (parent + 2) true s ++ (pad k ++ r)), i, l, j⟩ =
      some (s, ⟨r, i', l', k⟩) := by
  obtain ⟨i0, hscalar⟩ := blockScalar?_eq parent s
    (literalLines (parent + 2) true s ++ (pad k ++ r)) i l j
  rw [hscalar]
  -- the breaks in front are read with the indentation, and the lines behind them one by one
  obtain ⟨g, t, rfl, hg, ht⟩ := exists_breaks_append s
  have hbs : ∀ c ∈ g, isPrintable c = true ∧ isBreak c = true := fun c hc =>
    ⟨hprint c (by simp [hc]), hg c hc⟩
  rw [literalLines_breaks hg, List.append_assoc]
  cases t with
  | nil =>
    rw [List.append_nil] at hne hprint ⊢
    have hgiven : givenColumn parent g = parent + 2 := by
      obtain ⟨b, g, rfl⟩ := List.exists_cons_of_ne_nil hne
      simp [givenColumn, headIncrement, hg b (by simp)]
    have hover : LineStarts (parent + 2) k r := .inr ⟨.inr (by omega), hr⟩
    have hlines : literalLines (parent + 2) true [] = [] := rfl
    rw [hgiven, hlines, List.nil_append,
      blockBreaks_breaks hover hbs (by simp only [List.length_append]; omega), Option.bind_some,
      if_neg (by omega), blockLines_end (by omega), Option.bind_some, chompMark_of_breaks hne hg]
    exact ⟨_, _, rfl⟩
  | cons a t =>
    have ha : isBreak a = false := ht a rfl
    have hrest : ∀ c ∈ (literalLines (parent + 2) false (a :: t) ++ (pad k ++ r)).head?, c = a :=
      fun c hc => by simpa [ha, eq_comm] using hc
    have hstart := lineStarts_givenColumn (t := t) (hprint a (by simp)) hg ha hrest parent
    have hfuel : (a :: t).length <
        (literalLines (parent + 2) false (a :: t) ++ (pad k ++ r)).length + 1 := by
      have hle := length_le_literalLines (parent + 2) (a :: t) false
      rw [List.length_append]
      omega
    obtain ⟨body, lead, ends, i', l', hbody, hlines⟩ := blockLines_literal
      (Nat.succ_pos (parent + 1)) (show k < parent + 2 by omega) hr (List.cons_ne_nil a t)
      (fun c hc => hprint c (List.mem_append_right _ hc)) ht hfuel [] [] g false
      (i0 + g.length + (parent + 2)) (l + 1 + g.length)
    rw [literalLines_fresh ha, List.append_assoc,
      blockBreaks_breaks hstart hbs (by simp only [List.length_append]; omega), Option.bind_some,
      indent_givenColumn, List.nil_append, hlines, Option.bind_some, chompMark_append ha]
    refine ⟨i', l', ?_⟩
    rw [List.nil_append, List.nil_append, List.append_assoc, hbody]

end FlowState.Yaml
