import FlowState.Proofs.RecordTokens
import FlowState.Yaml.Reader

/-! # The documents of printed records

The document of a value is given along the value (`Document.ofRecord`). Its tokens are read as that
document and what follows them is left alone (`Parses`, `ParsesMembers`), as long as the fuel is no
less than the number of tokens. So the lines of a list of records are read as the list of their
documents (`Yaml.read?_print`). -/

namespace FlowState

open Text (Glyph)

/-! ### Documents -/

mutual

/-- **The document of a value** that is printed without lists. -/
def Document.ofRecord : Json → Document
  | .object ms => .object .absent (ofRecordMembers ms)
  | .text s => .scalar (Yaml.Scan.styleOf s.toList) .absent s.toList
  | .array _ => .sequence .absent []
  | .null => .scalar .plain .absent (Yaml.wordChars .null)
  | .bool b => .scalar .plain .absent (Yaml.wordChars (.bool b))
  | .number n => .scalar .plain .absent (Yaml.wordChars (.number n))

/-- The entries of the members. -/
def Document.ofRecordMembers : List (String × Json) → List (List Glyph × Document)
  | [] => []
  | m :: ms => ofRecordMember m :: ofRecordMembers ms

/-- The entry of a member. -/
def Document.ofRecordMember : String × Json → List Glyph × Document
  | (k, v) => (k.toList.map some, ofRecord v)

end

namespace Yaml

open Document (ofRecord ofRecordMembers ofRecordMember)

/-! ### Nodes -/

section Nodes

variable (anchors : List Anchor) (nodes : Nat) (handles : List (List Char × List Char))
  (ts : List Token) (fuel : Nat)

theorem node?_scalar (block loose : Bool) (style : ScalarStyle) (cs : List Char) :
    node? block loose (fuel + 1) ⟨.scalar style cs :: ts, anchors, nodes, handles⟩ =
      some (.scalar style .absent cs, ⟨ts, anchors, nodes, handles⟩) := by
  rw [node?]
  rfl

theorem node?_mapping (loose : Bool) :
    node? true loose (fuel + 1) ⟨.blockMapping :: ts, anchors, nodes, handles⟩ =
      (blockEntries? fuel ⟨ts, anchors, nodes, handles⟩).map fun q =>
        (.object .absent q.1, q.2) := by
  rw [node?]
  simp only [Parse.properties?, Parse.openAnchor, Parse.closeAnchor, Parse.skip,
    Option.bind_eq_bind, Option.bind_some, Option.getD_none, List.drop_succ_cons, List.drop_zero,
    if_true]
  cases blockEntries? fuel ⟨ts, anchors, nodes, handles⟩ <;> rfl

theorem node?_sequence (loose : Bool) :
    node? true loose (fuel + 1) ⟨.blockSequence :: ts, anchors, nodes, handles⟩ =
      (blockItems? fuel ⟨ts, anchors, nodes, handles⟩).map fun q =>
        (.sequence .absent q.1, q.2) := by
  rw [node?]
  simp only [Parse.properties?, Parse.openAnchor, Parse.closeAnchor, Parse.skip,
    Option.bind_eq_bind, Option.bind_some, Option.getD_none, List.drop_succ_cons, List.drop_zero,
    if_true]
  cases blockItems? fuel ⟨ts, anchors, nodes, handles⟩ <;> rfl

theorem blockEntries?_end :
    blockEntries? (fuel + 1) ⟨.blockEnd :: ts, anchors, nodes, handles⟩ =
      some ([], ⟨ts, anchors, nodes, handles⟩) := by
  rw [blockEntries?]
  rfl

theorem blockEntries?_entry (k : List Char) (hts : endsNode false ts = false) :
    blockEntries? (fuel + 2) ⟨.key :: .scalar .plain k :: .value :: ts, anchors, nodes, handles⟩ =
      (node? true true (fuel + 1) ⟨ts, anchors, nodes, handles⟩).bind fun q =>
        (blockEntries? (fuel + 1) q.2).map fun e => ((k.map some, q.1) :: e.1, e.2) := by
  have hkey : endsNode false (.scalar .plain k :: .value :: ts) = false := rfl
  rw [blockEntries?]
  simp only [Parse.skip, List.drop_succ_cons, List.drop_zero, hkey, hts, Bool.false_eq_true,
    if_false, node?_scalar, Option.bind_eq_bind, Option.bind_some, keyGlyphs]
  cases node? true true (fuel + 1) ⟨ts, anchors, nodes, handles⟩ with
  | none => rfl
  | some q => cases h : blockEntries? (fuel + 1) q.2 <;> simp [h]

end Nodes

/-- **The tokens of the value are read as its document**, whatever follows them. -/
def Parses (v : Json) : Prop :=
  ∀ (loose : Bool) (fuel : Nat), (valueTokens v).length ≤ fuel → ∀ (ts : List Token)
    (anchors : List Anchor) (nodes : Nat) (handles : List (List Char × List Char)),
    node? true loose fuel ⟨valueTokens v ++ ts, anchors, nodes, handles⟩ =
      some (ofRecord v, ⟨ts, anchors, nodes, handles⟩)

/-- The tokens of the members, up to the end of their block. -/
def ParsesMembers (ms : List (String × Json)) : Prop :=
  ∀ fuel, (membersTokens ms).length < fuel → ∀ (ts : List Token) (anchors : List Anchor)
    (nodes : Nat) (handles : List (List Char × List Char)),
    blockEntries? fuel ⟨membersTokens ms ++ .blockEnd :: ts, anchors, nodes, handles⟩ =
      some (ofRecordMembers ms, ⟨ts, anchors, nodes, handles⟩)

theorem parses_scalar {v : Json} {style : ScalarStyle} {cs : List Char}
    (htokens : valueTokens v = [.scalar style cs]) (hdoc : ofRecord v = .scalar style .absent cs) :
    Parses v := by
  intro loose fuel hfuel ts anchors nodes handles
  rw [htokens] at hfuel ⊢
  obtain ⟨fuel, rfl⟩ : ∃ f, fuel = f + 1 := ⟨fuel - 1, by simp at hfuel; omega⟩
  rw [hdoc]
  exact node?_scalar anchors nodes handles ts fuel true loose style cs

theorem parses_object {ms : List (String × Json)} (h : ParsesMembers ms) :
    Parses (.object ms) := by
  intro loose fuel hfuel ts anchors nodes handles
  rw [valueTokens] at hfuel ⊢
  simp only [List.length_cons, List.length_append, List.length_nil] at hfuel
  obtain ⟨fuel, rfl⟩ : ∃ f, fuel = f + 1 := ⟨fuel - 1, by omega⟩
  rw [List.cons_append, List.append_assoc, List.singleton_append, node?_mapping,
    h fuel (by omega), ofRecord]
  rfl

theorem parsesMembers_nil : ParsesMembers [] := by
  intro fuel hfuel ts anchors nodes handles
  obtain ⟨fuel, rfl⟩ : ∃ f, fuel = f + 1 := ⟨fuel - 1, by omega⟩
  rw [membersTokens, ofRecordMembers]
  exact blockEntries?_end anchors nodes handles ts fuel

theorem endsNode_valueTokens {v : Json} (hv : isRecord v = true) (ts : List Token) :
    endsNode false (valueTokens v ++ ts) = false := by
  cases v with
  | array xs => simp [isRecord] at hv
  | null => rfl
  | bool b => rfl
  | number n => rfl
  | text s => rfl
  | object ms => rfl

theorem parsesMembers_cons {k : String} {v : Json} {ms : List (String × Json)}
    (hrecord : isRecord v = true) (hv : Parses v) (hms : ParsesMembers ms) :
    ParsesMembers ((k, v) :: ms) := by
  intro fuel hfuel ts anchors nodes handles
  simp only [membersTokens, memberTokens, List.length_cons, List.length_append] at hfuel
  obtain ⟨fuel, rfl⟩ : ∃ f, fuel = f + 2 := ⟨fuel - 2, by omega⟩
  have htokens : membersTokens ((k, v) :: ms) ++ Token.blockEnd :: ts =
      Token.key :: Token.scalar .plain k.toList :: Token.value ::
        (valueTokens v ++ (membersTokens ms ++ Token.blockEnd :: ts)) := by
    simp [membersTokens, memberTokens]
  rw [htokens, blockEntries?_entry _ _ _ _ _ _ (endsNode_valueTokens hrecord _),
    hv true (fuel + 1) (by omega), Option.bind_some, hms (fuel + 1) (by omega), Option.map_some,
    ofRecordMembers, ofRecordMember]

mutual

/-- **A value without lists is read as its document.** -/
theorem parses_record : ∀ v, isRecord v = true → Parses v
  | .null, _ => parses_scalar rfl rfl
  | .bool _, _ => parses_scalar rfl rfl
  | .number _, _ => parses_scalar rfl rfl
  | .text _, _ => parses_scalar rfl rfl
  | .array _, h => by simp [isRecord] at h
  | .object [], h => by simp [isRecord] at h
  | .object (m :: ms), h => parses_object (parses_members (m :: ms) (by simpa [isRecord] using h))

theorem parses_members : ∀ ms, areMembers ms = true → ParsesMembers ms
  | [], _ => parsesMembers_nil
  | (k, v) :: ms, h => by
    obtain ⟨hfirst, hrest⟩ := Bool.and_eq_true_iff.mp h
    have hv := ((Scan.isMember_iff (k, v)).mp hfirst).2.2
    exact parsesMembers_cons hv (parses_record v hv) (parses_members ms hrest)

end

/-! ### Lists -/

theorem isRecord_of_isItem {x : Json} (hx : Scan.IsItem x) : isRecord x = true := by
  obtain ⟨m, ms, rfl, hms⟩ := hx
  simpa [isRecord] using hms

theorem blockItems?_entry (fuel : Nat) (ts : List Token) (anchors : List Anchor) (nodes : Nat)
    (handles : List (List Char × List Char)) :
    blockItems? (fuel + 1) ⟨.blockEntry :: .blockMapping :: ts, anchors, nodes, handles⟩ =
      (node? true false fuel ⟨.blockMapping :: ts, anchors, nodes, handles⟩).bind fun q =>
        (blockItems? fuel q.2).map fun e => (q.1 :: e.1, e.2) := by
  rw [blockItems?]
  simp only [Parse.skip, List.drop_succ_cons, List.drop_zero, Option.bind_eq_bind]
  cases node? true false fuel ⟨.blockMapping :: ts, anchors, nodes, handles⟩ with
  | none => rfl
  | some q => cases h : blockItems? fuel q.2 <;> simp [h]

theorem blockItems?_items {xs : List Json} (hxs : ∀ x ∈ xs, Scan.IsItem x) {fuel : Nat}
    (hfuel : (xs.flatMap Scan.itemTokens).length < fuel) (anchors : List Anchor) (nodes : Nat)
    (handles : List (List Char × List Char)) :
    blockItems? fuel ⟨xs.flatMap Scan.itemTokens ++ [Token.blockEnd], anchors, nodes, handles⟩ =
      some (xs.map ofRecord, ⟨[], anchors, nodes, handles⟩) := by
  induction xs generalizing fuel with
  | nil =>
    obtain ⟨fuel, rfl⟩ : ∃ f, fuel = f + 1 := ⟨fuel - 1, by omega⟩
    rw [List.flatMap_nil, List.nil_append, blockItems?]
    rfl
  | cons x xs ih =>
    have hx := hxs x (by simp)
    have hparse := parses_record x (isRecord_of_isItem hx) false
    obtain ⟨m, ms, rfl, -⟩ := hx
    simp only [List.flatMap_cons, Scan.itemTokens, List.length_append, List.length_cons] at hfuel
    obtain ⟨fuel, rfl⟩ : ∃ f, fuel = f + 1 := ⟨fuel - 1, by omega⟩
    have hnode := hparse fuel (by omega) (xs.flatMap Scan.itemTokens ++ [Token.blockEnd]) anchors
      nodes handles
    have hlen : (xs.flatMap Scan.itemTokens).length < fuel := by omega
    have hrest := ih (fun y hy => hxs y (by simp [hy])) hlen
    have htokens : (Json.object (m :: ms) :: xs).flatMap Scan.itemTokens ++ [Token.blockEnd] =
        Token.blockEntry :: Token.blockMapping :: (membersTokens (m :: ms) ++ [Token.blockEnd] ++
          (xs.flatMap Scan.itemTokens ++ [Token.blockEnd])) := by
      simp [Scan.itemTokens, valueTokens]
    rw [valueTokens, List.cons_append] at hnode
    rw [htokens, blockItems?_entry, hnode, Option.bind_some, hrest]
    rfl

theorem documentOf?_sequence (ts : List Token) :
    documentOf? (.blockSequence :: ts) =
      (node? true false ((Token.blockSequence :: ts).length + 1)
        ⟨.blockSequence :: ts, [], 0, []⟩).bind fun q =>
          if endsStream q.2.tokens then some q.1 else none := by
  rw [documentOf?]
  all_goals simp

theorem documentOf?_items {xs : List Json} (hxs : ∀ x ∈ xs, Scan.IsItem x) :
    documentOf? (.blockSequence :: (xs.flatMap Scan.itemTokens ++ [Token.blockEnd])) =
      some (.sequence .absent (xs.map ofRecord)) := by
  have hlen : (xs.flatMap Scan.itemTokens).length <
      (Token.blockSequence :: (xs.flatMap Scan.itemTokens ++ [Token.blockEnd])).length := by
    simp only [List.length_cons, List.length_append]
    omega
  rw [documentOf?_sequence, node?_sequence, blockItems?_items hxs hlen]
  rfl

/-- **A printed list of records is read as the list of their documents.** -/
theorem read?_print {xs : List Json} (hxs : ∀ x ∈ xs, Scan.IsItem x) :
    read? (print (.array xs)).toList = some (.sequence .absent (xs.map ofRecord)) := by
  cases xs with
  | nil =>
    have hprint : (print (.array [])).toList = ['[', ']', '\n'] := by decide +kernel
    have htokens : tokens? ['[', ']', '\n'] = some [.flowSequence, .flowSequenceEnd] := by
      decide +kernel
    rw [hprint, read?, htokens, Option.bind_some]
    rfl
  | cons x xs =>
    have hprint : (print (.array (x :: xs))).toList = itemLines 0 (x :: xs) :=
      String.toList_ofList
    rw [hprint, read?, tokens?_items (List.cons_ne_nil x xs) hxs, Option.bind_some,
      documentOf?_items hxs]

end Yaml

end FlowState
