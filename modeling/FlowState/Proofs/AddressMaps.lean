import FlowState.Proofs.BlockCutting
import Mathlib.Logic.Relation

/-! # The address map of a stream

At an address the first instruction of the stream counts that is not empty, with the kind that is
asked for there (`counted?`). The decoded instructions are the values of this map in the order of
their addresses, so they determine it and are determined by it (`decoded_eq_iff`), and so does the
graph (`build_eq_iff`). The order of a stream without repeated addresses, empty encodings, later
instructions at a taken address, and whether a kind was decoded or asked for do not show in the map
(`chosen?_of_perm`, `chosen?_of_padded`, `chosen?_map_override`). -/

namespace FlowState

namespace BlockGraph

/-! ### The map and the decoded instructions -/

/-- The instruction that counts at an address, with the kind that is asked for. -/
def counted? (stream : List Instruction) (overrides : Table InstructionKind) (a : Address) :
    Option Instruction := (chosen? stream a).map (override overrides)

theorem counted?_eq_some {stream : List Instruction} {overrides : Table InstructionKind}
    {a : Address} {i : Instruction} :
    counted? stream overrides a = some i ↔ i ∈ decoded stream overrides ∧ i.address = a := by
  unfold counted?
  rw [mem_decoded, Option.map_eq_some_iff]
  constructor
  · rintro ⟨s, hs, rfl⟩
    have ha : (override overrides s).address = a := by
      rw [address_override, (chosen?_some hs).2.1]
    exact ⟨⟨s, by rw [ha]; exact hs, rfl⟩, ha⟩
  · rintro ⟨⟨s, hs, hi⟩, rfl⟩
    exact ⟨s, hs, hi⟩

theorem mem_decoded_iff_counted? {stream : List Instruction} {overrides : Table InstructionKind}
    {i : Instruction} :
    i ∈ decoded stream overrides ↔ counted? stream overrides i.address = some i := by
  rw [counted?_eq_some, and_iff_left rfl]

/-- **The decoded instructions are the map**, whichever stream and overrides it comes from. -/
theorem decoded_eq_iff {xs ys : List Instruction} {ov ov' : Table InstructionKind} :
    decoded xs ov = decoded ys ov' ↔ ∀ a, counted? xs ov a = counted? ys ov' a := by
  constructor
  · intro h a
    refine Option.ext fun i => ?_
    rw [counted?_eq_some, counted?_eq_some, h]
  · intro h
    have hirr : Std.Irrefl fun i j : Instruction => i.address < j.address :=
      ⟨fun i => UInt64.lt_irrefl i.address⟩
    have hanti : Std.Antisymm fun i j : Instruction => i.address < j.address :=
      ⟨fun i j hij hji => absurd hji (UInt64.lt_asymm hij)⟩
    refine (pairwise_decoded xs ov).eq_of_mem_iff (pairwise_decoded ys ov') fun i => ?_
    rw [mem_decoded_iff_counted?, mem_decoded_iff_counted?, h]

/-- **The graph is the map**, for given leaders. -/
theorem build_eq_iff {xs ys : List Instruction} {ov ov' : Table InstructionKind}
    {extra : List Address} :
    build xs ov extra = build ys ov' extra ↔ ∀ a, counted? xs ov a = counted? ys ov' a := by
  rw [← decoded_eq_iff]
  constructor
  · intro h
    rw [← instructions_build xs ov extra, ← instructions_build ys ov' extra, h]
  · intro h
    unfold build
    rw [h]

/-! ### Streams with one map -/

theorem override_empty (i : Instruction) : override .empty i = i := rfl

theorem counted?_empty (stream : List Instruction) (a : Address) :
    counted? stream .empty a = chosen? stream a := by
  unfold counted?
  rw [show override .empty = id from funext override_empty, Option.map_id, id]

/-- A stream without repeated addresses has nothing to choose from. -/
theorem chosen?_of_nodup {stream : List Instruction} (h : (stream.map (·.address)).Nodup)
    {a : Address} {i : Instruction} :
    chosen? stream a = some i ↔ i ∈ stream ∧ i.address = a ∧ i.bytes ≠ [] := by
  refine ⟨chosen?_some, ?_⟩
  rintro ⟨hi, ha, hb⟩
  cases hc : chosen? stream a with
  | none =>
    have hno := List.find?_eq_none.mp hc i hi
    simp [ha, hb] at hno
  | some j =>
    obtain ⟨hj, hja, -⟩ := chosen?_some hc
    rw [List.inj_on_of_nodup_map h hj hi (hja.trans ha.symm)]

/-- **The order does not count** if no address is repeated. -/
theorem chosen?_of_perm {xs ys : List Instruction} (hp : xs.Perm ys)
    (h : (xs.map (·.address)).Nodup) (a : Address) : chosen? ys a = chosen? xs a := by
  refine Option.ext fun i => ?_
  rw [chosen?_of_nodup h, chosen?_of_nodup ((hp.map _).nodup_iff.mp h), hp.mem_iff]

/-- One instruction is put into a stream where it does not count: it is empty, or its address is
taken. -/
def Inserted (xs ys : List Instruction) : Prop :=
  ∃ front i rest, xs = front ++ rest ∧ ys = front ++ i :: rest ∧
    (i.bytes = [] ∨ ∃ j ∈ front, j.address = i.address ∧ j.bytes ≠ [])

/-- Some instructions are put into a stream where they do not count. -/
def Padded : List Instruction → List Instruction → Prop := Relation.ReflTransGen Inserted

theorem chosen?_of_inserted {xs ys : List Instruction} (h : Inserted xs ys) (a : Address) :
    chosen? ys a = chosen? xs a := by
  obtain ⟨front, i, rest, rfl, rfl, hi⟩ := h
  unfold chosen?
  rw [List.find?_append, List.find?_append, List.find?_cons]
  cases hc : i.address == a && !i.bytes.isEmpty with
  | false => rfl
  | true =>
    -- the instruction counts at its address only if nothing in front of it does
    simp only [Bool.and_eq_true, beq_iff_eq, Bool.not_eq_true', List.isEmpty_eq_false_iff] at hc
    rcases hi with hi | ⟨j, hj, hja, hjb⟩
    · exact absurd hi hc.2
    · have hsome : (front.find? fun k => k.address == a && !k.bytes.isEmpty).isSome :=
        List.find?_isSome.mpr ⟨j, hj, by simp [hja, hc.1, hjb]⟩
      obtain ⟨k, hk⟩ := Option.isSome_iff_exists.mp hsome
      rw [hk]
      rfl

/-- **Instructions that do not count** make no difference. -/
theorem chosen?_of_padded {xs ys : List Instruction} (h : Padded xs ys) (a : Address) :
    chosen? ys a = chosen? xs a := by
  induction h with
  | refl => rfl
  | tail _ hi ih => rw [chosen?_of_inserted hi, ih]

/-- **Kinds that are decoded** count like kinds that are asked for. -/
theorem chosen?_map_override (xs : List Instruction) (ov : Table InstructionKind) (a : Address) :
    chosen? (xs.map (override ov)) a = counted? xs ov a := by
  unfold counted? chosen?
  rw [List.find?_map]
  simp only [Function.comp_def, address_override, bytes_override]

/-- **The graph is a function of the address map.** Two streams have the same graph exactly if the
same instructions count in them; so the order without repeated addresses, instructions that do not
count, and the origin of a kind make no difference. -/
theorem build_address_map (xs : List Instruction) (ov : Table InstructionKind)
    (extra : List Address) :
    (∀ ys, build xs ov extra = build ys .empty extra ↔
      ∀ a, (chosen? xs a).map (override ov) = chosen? ys a) ∧
    (∀ ys, xs.Perm ys → (xs.map (·.address)).Nodup → build ys ov extra = build xs ov extra) ∧
    (∀ ys, Padded xs ys → build ys ov extra = build xs ov extra) ∧
    build (xs.map (override ov)) .empty extra = build xs ov extra := by
  refine ⟨fun ys => ?_, fun ys hp hnd => ?_, fun ys hpad => ?_, ?_⟩
  · rw [build_eq_iff]
    refine forall_congr' fun a => ?_
    rw [counted?_empty]
    rfl
  · refine build_eq_iff.mpr fun a => ?_
    unfold counted?
    rw [chosen?_of_perm hp hnd]
  · refine build_eq_iff.mpr fun a => ?_
    unfold counted?
    rw [chosen?_of_padded hpad]
  · refine build_eq_iff.mpr fun a => ?_
    rw [counted?_empty, chosen?_map_override]

/-! ### A stream out of order

A branch, the instruction that it jumps over and the jump back, whose kind is not decoded but asked
for. The stream has them in another order, with an empty encoding in front of the instruction at its
address and with another instruction behind the jump at its address. -/

namespace Shuffled

def branch : Instruction := ⟨0x10, [1], .conditionalBranch, [0x12], none⟩

def skipped : Instruction := ⟨0x11, [2], .sequential, [], none⟩

def back : Instruction := ⟨0x12, [4], .directBranch, [0x10], none⟩

def unread : Instruction := { back with kind := .unknown }

def overrides : Table InstructionKind := Table.ofList [(0x12, .directBranch)]

def shuffled : List Instruction := [unread, skipped, branch]

def padded : List Instruction :=
  [unread, ⟨0x11, [], .trap, [], none⟩, skipped, ⟨0x12, [9], .return, [], none⟩, branch]

theorem padded_shuffled : Padded shuffled padded := by
  have hempty : Inserted shuffled [unread, ⟨0x11, [], .trap, [], none⟩, skipped, branch] :=
    ⟨[unread], _, [skipped, branch], rfl, rfl, Or.inl rfl⟩
  have hlater : Inserted [unread, ⟨0x11, [], .trap, [], none⟩, skipped, branch] padded :=
    ⟨[unread, ⟨0x11, [], .trap, [], none⟩, skipped], _, [branch], rfl, rfl,
      Or.inr ⟨unread, List.mem_cons_self, rfl, List.cons_ne_nil _ _⟩⟩
  exact (Relation.ReflTransGen.single hempty).tail hlater

theorem graph_of_padded :
    Padded shuffled padded ∧ [branch, skipped, unread].Perm shuffled ∧
    (∀ a, (chosen? padded a).map (override overrides) = chosen? [branch, skipped, back] a) ∧
    build padded overrides [0x11] = build [branch, skipped, back] .empty [0x11] := by
  have hperm : [branch, skipped, unread].Perm shuffled := by decide
  obtain ⟨-, horder, -, hkind⟩ := build_address_map [branch, skipped, unread] overrides [0x11]
  obtain ⟨-, -, hpad, -⟩ := build_address_map shuffled overrides [0x11]
  have hsame : build padded overrides [0x11] = build [branch, skipped, back] .empty [0x11] :=
    (hpad padded padded_shuffled).trans ((horder shuffled hperm (by decide)).trans hkind.symm)
  exact ⟨padded_shuffled, hperm, ((build_address_map padded overrides [0x11]).1 _).mp hsame, hsame⟩

end Shuffled

end BlockGraph

end FlowState
