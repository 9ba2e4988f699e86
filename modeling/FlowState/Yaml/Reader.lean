import FlowState.Yaml.Token

/-! # Reading YAML

The document of a row of tokens. A text holds at most one document; without any, its document is an
empty scalar. An alias stands for the node with its anchor, and inside that node for a cycle. -/

namespace FlowState.Yaml

open Text (Glyph)

/-- An anchor, the number of its node, and the node as far as it is read. -/
structure Anchor where
  name : List Char
  number : Nat
  node : Document

/-- The tokens to come, the anchors so far, the last one first, and the handles of tags. -/
structure Parse where
  tokens : List Token
  anchors : List Anchor
  nodes : Nat
  handles : List (List Char × List Char)

/-- A scalar with nothing in it. -/
def emptyScalar : Document := .scalar .plain .absent []

/-- The text before the names of the core tags. -/
def coreTag : List Char := "tag:yaml.org,2002:".toList

/-- What a reader makes of a full tag. -/
def nodeTag (tag : List Char) : NodeTag :=
  if tag == coreTag ++ ['n', 'u', 'l', 'l'] then .null
  else if tag == coreTag ++ ['b', 'o', 'o', 'l'] then .bool
  else if tag == coreTag ++ ['i', 'n', 't'] then .int
  else if tag == coreTag ++ ['f', 'l', 'o', 'a', 't'] then .float
  else if tag.head? == some '!' then .application
  else .other

namespace Parse

/-- The token at the front is dropped. -/
def skip (p : Parse) : Parse := { p with tokens := p.tokens.drop 1 }

/-- The full tag of a handle and a suffix: refused if the handle is not known. -/
def resolveTag? (p : Parse) (handle suffix : List Char) : Option NodeTag :=
  if handle.isEmpty then some (nodeTag suffix)
  else
    match p.handles.find? fun h => h.1 == handle with
    | some h => some (nodeTag (h.2 ++ suffix))
    | none =>
      if handle == ['!'] then some (nodeTag ('!' :: suffix))
      else if handle == ['!', '!'] then some (nodeTag (coreTag ++ suffix))
      else none

/-- The anchor and the tag at the front, in either order. -/
def properties? (p : Parse) : Option (Option (List Char) × Option NodeTag × Parse) :=
  match p.tokens with
  | .anchor a :: .tag h s :: _ => (p.resolveTag? h s).map fun t => (some a, some t, p.skip.skip)
  | .tag h s :: .anchor a :: _ => (p.resolveTag? h s).map fun t => (some a, some t, p.skip.skip)
  | .anchor a :: _ => some (some a, none, p.skip)
  | .tag h s :: _ => (p.resolveTag? h s).map fun t => (none, some t, p.skip)
  | _ => some (none, none, p)

/-- A node with an anchor starts; until it ends, it is a cycle. -/
def openAnchor (p : Parse) : Option (List Char) → Parse
  | none => p
  | some a => { p with anchors := ⟨a, p.nodes, .cycle⟩ :: p.anchors, nodes := p.nodes + 1 }

/-- The node with the number ends. -/
def closeAnchor (p : Parse) (number : Nat) (d : Document) : Option (List Char) → Parse
  | none => p
  | some _ =>
    let fill (a : Anchor) : Anchor := if a.number == number then { a with node := d } else a
    { p with anchors := p.anchors.map fill }

/-- The node of an alias. -/
def alias? (p : Parse) (name : List Char) : Option Document :=
  (p.anchors.find? fun a => a.name == name).map (·.node)

end Parse

/-- The name that a node is as a key: only a scalar is one. -/
def keyGlyphs : Document → List Glyph
  | .scalar _ _ cs => cs.map some
  | _ => [none]

/-- No node starts with the token. -/
def endsNode (flow : Bool) : List Token → Bool
  | [] => true
  | .blockEnd :: _ | .key :: _ | .value :: _ => !flow
  | .flowEntry :: _ | .flowSequenceEnd :: _ | .flowMappingEnd :: _ => flow
  | _ => false

mutual

/-- The node at the front. `block` allows blocks, and `loose` a sequence at the column of the
mapping around it. -/
def node? (block loose : Bool) : Nat → Parse → Option (Document × Parse)
  | 0, _ => none
  | fuel + 1, p =>
    match p.tokens with
    | .alias name :: _ => (p.alias? name).map fun d => (d, p.skip)
    | _ => do
      let (anchor, tag, p) ← p.properties?
      let number := p.nodes
      let mark := tag.getD .absent
      let p := p.openAnchor anchor
      let (d, p) ←
        match p.tokens with
        | .scalar style cs :: _ => some (.scalar style mark cs, p.skip)
        | .flowSequence :: _ =>
          (flowItems? true fuel p.skip).map fun (ds, p) => (.sequence mark ds, p)
        | .flowMapping :: _ =>
          (flowEntries? true fuel p.skip).map fun (es, p) => (.object mark es, p)
        | .blockEntry :: _ =>
          if loose then (looseItems? fuel p).map fun (ds, p) => (.sequence mark ds, p)
          else if anchor.isSome || tag.isSome then some (.scalar .plain mark [], p) else none
        | .blockSequence :: _ =>
          if block then (blockItems? fuel p.skip).map fun (ds, p) => (.sequence mark ds, p)
          else if anchor.isSome || tag.isSome then some (.scalar .plain mark [], p) else none
        | .blockMapping :: _ =>
          if block then (blockEntries? fuel p.skip).map fun (es, p) => (.object mark es, p)
          else if anchor.isSome || tag.isSome then some (.scalar .plain mark [], p) else none
        | _ => if anchor.isSome || tag.isSome then some (.scalar .plain mark [], p) else none
      return (d, p.closeAnchor number d anchor)

/-- The items of a block up to its end. -/
def blockItems? : Nat → Parse → Option (List Document × Parse)
  | 0, _ => none
  | fuel + 1, p =>
    match p.tokens with
    | .blockEnd :: _ => some ([], p.skip)
    | .blockEntry :: _ => do
      let p := p.skip
      let (d, p) ← match p.tokens with
        | .blockEntry :: _ | .blockEnd :: _ => some (emptyScalar, p)
        | _ => node? true false fuel p
      let (ds, p) ← blockItems? fuel p
      return (d :: ds, p)
    | _ => none

/-- The items of a sequence at the column of the mapping around it. -/
def looseItems? : Nat → Parse → Option (List Document × Parse)
  | 0, _ => none
  | fuel + 1, p =>
    match p.tokens with
    | .blockEntry :: _ => do
      let p := p.skip
      let (d, p) ← match p.tokens with
        | .blockEntry :: _ | .key :: _ | .value :: _ | .blockEnd :: _ => some (emptyScalar, p)
        | _ => node? true false fuel p
      let (ds, p) ← looseItems? fuel p
      return (d :: ds, p)
    | _ => some ([], p)

/-- The entries of a block up to its end. -/
def blockEntries? : Nat → Parse → Option (List (List Glyph × Document) × Parse)
  | 0, _ => none
  | fuel + 1, p =>
    match p.tokens with
    | .blockEnd :: _ => some ([], p.skip)
    | .key :: _ => do
      let p := p.skip
      let (k, p) ← if endsNode false p.tokens then some (emptyScalar, p) else node? true true fuel p
      let (v, p) ← match p.tokens with
        | .value :: _ =>
          let p := p.skip
          if endsNode false p.tokens then some (emptyScalar, p) else node? true true fuel p
        | _ => some (emptyScalar, p)
      let (es, p) ← blockEntries? fuel p
      return ((keyGlyphs k, v) :: es, p)
    | _ => none

/-- The items in brackets up to the closing one. -/
def flowItems? (first : Bool) : Nat → Parse → Option (List Document × Parse)
  | 0, _ => none
  | fuel + 1, p =>
    match p.tokens with
    | .flowSequenceEnd :: _ => some ([], p.skip)
    | ts => do
      let p ← if first then some p
        else match ts with
          | .flowEntry :: _ => some p.skip
          | _ => none
      match p.tokens with
      | .flowSequenceEnd :: _ => return ([], p.skip)
      | .key :: _ =>
        let p := p.skip
        let (k, p) ← match p.tokens with
          | .value :: _ | .flowEntry :: _ | .flowSequenceEnd :: _ => some (emptyScalar, p.skip)
          | _ => node? false false fuel p
        let (v, p) ← match p.tokens with
          | .value :: _ =>
            let p := p.skip
            match p.tokens with
            | .flowEntry :: _ | .flowSequenceEnd :: _ => some (emptyScalar, p)
            | _ => node? false false fuel p
          | _ => some (emptyScalar, p)
        let (ds, p) ← flowItems? false fuel p
        return (.object .absent [(keyGlyphs k, v)] :: ds, p)
      | _ =>
        let (d, p) ← node? false false fuel p
        let (ds, p) ← flowItems? false fuel p
        return (d :: ds, p)

/-- The entries in braces up to the closing one. -/
def flowEntries? (first : Bool) : Nat → Parse → Option (List (List Glyph × Document) × Parse)
  | 0, _ => none
  | fuel + 1, p =>
    match p.tokens with
    | .flowMappingEnd :: _ => some ([], p.skip)
    | ts => do
      let p ← if first then some p
        else match ts with
          | .flowEntry :: _ => some p.skip
          | _ => none
      match p.tokens with
      | .flowMappingEnd :: _ => return ([], p.skip)
      | .key :: _ =>
        let p := p.skip
        let (k, p) ← match p.tokens with
          | .value :: _ | .flowEntry :: _ | .flowMappingEnd :: _ => some (emptyScalar, p)
          | _ => node? false false fuel p
        let (v, p) ← match p.tokens with
          | .value :: _ =>
            let p := p.skip
            match p.tokens with
            | .flowEntry :: _ | .flowMappingEnd :: _ => some (emptyScalar, p)
            | _ => node? false false fuel p
          | _ => some (emptyScalar, p)
        let (es, p) ← flowEntries? false fuel p
        return ((keyGlyphs k, v) :: es, p)
      | _ =>
        let (k, p) ← node? false false fuel p
        let (es, p) ← flowEntries? false fuel p
        return ((keyGlyphs k, emptyScalar) :: es, p)

end

/-! ### Documents -/

/-- The directives at the front: at most one version, which is 1.1 or 1.2, and handles that differ.
-/
def directives? (seen : Bool) (handles : List (List Char × List Char)) :
    List Token → Option (List (List Char × List Char) × List Token)
  | .version major minor :: ts =>
    if seen || major != 1 || (minor != 1 && minor != 2) then none else directives? true handles ts
  | .tagHandle h s :: ts =>
    if handles.any fun e => e.1 == h then none else directives? seen ((h, s) :: handles) ts
  | ts => some (handles, ts)

/-- Nothing but marks of the end follows. -/
def endsStream : List Token → Bool
  | [] => true
  | .documentEnd :: ts => endsStream ts
  | _ => false

/-- The document of a row of tokens. -/
def documentOf? (ts : List Token) : Option Document :=
  let finish (r : Document × Parse) : Option Document :=
    if endsStream r.2.tokens then some r.1 else none
  let content (handles : List (List Char × List Char)) (ts : List Token) : Option Document :=
    (node? true false (ts.length + 1) ⟨ts, [], 0, handles⟩).bind finish
  match ts with
  | [] => some emptyScalar
  | .version _ _ :: _ | .tagHandle _ _ :: _ | .documentStart :: _ => do
    let (handles, ts) ← directives? false [] ts
    match ts with
    | .documentStart :: ts =>
      match ts with
      | [] => some emptyScalar
      | .documentEnd :: ts => if endsStream ts then some emptyScalar else none
      | .version _ _ :: _ | .tagHandle _ _ :: _ | .documentStart :: _ => none
      | ts => content handles ts
    | _ => none
  | ts => content [] ts

/-- **The document that a YAML text spells.** -/
def read? (cs : List Char) : Option Document := (tokens? cs).bind documentOf?

/-- The levels of blocks and brackets that a free-form value may have. -/
def depthLimit : Nat := 128

end FlowState.Yaml
