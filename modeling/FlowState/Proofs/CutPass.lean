import FlowState.Proofs.DecodedStream

/-! # The pass that cuts

The blocks that are cut lie end to end (`Tiles`), so an index lies in one of them and in no other
(`Tiles.exists_block`, `Tiles.position_eq`). What the pass has done when it has come to an index is
said by `Cutting.Cuts`: the blocks tile the instructions in front of the one that is open, a block
ends behind an instruction exactly if it `endsHere`, and the tables lead to the blocks. One
instruction keeps this up, be it that its block stays open or that it is closed (`Cuts.step`), and
so the pass does (`cuts_cut`). The last instruction ends a block, so nothing is left open. -/

namespace FlowState

namespace BlockGraph

/-! ### Blocks end to end -/

/-- The blocks lie end to end from one index to another, and none of them is empty. -/
def Tiles : Nat → List Block → Nat → Prop
  | lo, [], hi => lo = hi
  | lo, b :: bs, hi => b.first = lo ∧ lo < b.limit ∧ Tiles b.limit bs hi

theorem Tiles.concat {lo hi : Nat} {bs : List Block} (h : Tiles lo bs hi) {b : Block}
    (hb : b.first = hi) (hlt : hi < b.limit) : Tiles lo (bs ++ [b]) b.limit := by
  induction bs generalizing lo with
  | nil =>
    obtain rfl : lo = hi := h
    exact ⟨hb, hlt, rfl⟩
  | cons d bs ih => exact ⟨h.1, h.2.1, ih h.2.2⟩

theorem Tiles.map {lo hi : Nat} {bs : List Block} (h : Tiles lo bs hi) {f : Block → Block}
    (hfirst : ∀ b, (f b).first = b.first) (hlimit : ∀ b, (f b).limit = b.limit) :
    Tiles lo (bs.map f) hi := by
  induction bs generalizing lo with
  | nil => exact h
  | cons b bs ih =>
    refine ⟨(hfirst b).trans h.1, by rw [hlimit]; exact h.2.1, ?_⟩
    rw [hlimit]
    exact ih h.2.2

section Tiles
variable {lo hi : Nat} {bs : List Block} (h : Tiles lo bs hi)
include h

theorem Tiles.le : lo ≤ hi := by
  induction bs generalizing lo with
  | nil => exact Nat.le_of_eq h
  | cons b bs ih => exact Nat.le_trans (Nat.le_of_lt h.2.1) (ih h.2.2)

theorem Tiles.bounds {b : Block} (hb : b ∈ bs) :
    lo ≤ b.first ∧ b.first < b.limit ∧ b.limit ≤ hi := by
  induction bs generalizing lo with
  | nil => cases hb
  | cons d bs ih =>
    obtain ⟨hfirst, hlt, hrest⟩ := h
    rcases List.mem_cons.mp hb with rfl | hb
    · exact ⟨Nat.le_of_eq hfirst.symm, by omega, Tiles.le hrest⟩
    · obtain ⟨h1, h2, h3⟩ := ih hrest hb
      exact ⟨by omega, h2, h3⟩

/-- **Every index lies in a block.** -/
theorem Tiles.exists_block {k : Nat} (hk : lo ≤ k) (hk' : k < hi) :
    ∃ (n : Nat) (b : Block), bs[n]? = some b ∧ b.first ≤ k ∧ k < b.limit := by
  induction bs generalizing lo with
  | nil =>
    obtain rfl : lo = hi := h
    omega
  | cons b bs ih =>
    obtain ⟨hfirst, hlt, hrest⟩ := h
    rcases Nat.lt_or_ge k b.limit with hin | hout
    · exact ⟨0, b, rfl, by omega, hin⟩
    · obtain ⟨n, d, hd, h1, h2⟩ := ih hrest hout
      exact ⟨n + 1, d, hd, h1, h2⟩

theorem Tiles.limit_le {m n : Nat} {b d : Block} (hmn : m < n) (hb : bs[m]? = some b)
    (hd : bs[n]? = some d) : b.limit ≤ d.first := by
  induction bs generalizing lo m n with
  | nil => simp at hb
  | cons e bs ih =>
    obtain ⟨-, -, hrest⟩ := h
    obtain ⟨n, rfl⟩ := Nat.exists_eq_succ_of_ne_zero (Nat.ne_zero_of_lt hmn)
    rw [List.getElem?_cons_succ] at hd
    cases m with
    | zero =>
      rw [List.getElem?_cons_zero, Option.some.injEq] at hb
      rw [← hb]
      exact (Tiles.bounds hrest (List.mem_of_getElem? hd)).1
    | succ m =>
      rw [List.getElem?_cons_succ] at hb
      exact ih hrest (Nat.lt_of_succ_lt_succ hmn) hb hd

/-- **An index lies in one block only.** -/
theorem Tiles.position_eq {m n k : Nat} {b d : Block} (hb : bs[m]? = some b)
    (hd : bs[n]? = some d) (hkb : b.first ≤ k ∧ k < b.limit) (hkd : d.first ≤ k ∧ k < d.limit) :
    m = n := by
  rcases Nat.lt_trichotomy m n with hlt | heq | hlt
  · have := h.limit_le hlt hb hd
    omega
  · exact heq
  · have := h.limit_le hlt hd hb
    omega

theorem Tiles.head {b : Block} (hb : bs.head? = some b) : b.first = lo := by
  obtain ⟨rest, rfl⟩ := List.head?_eq_some_iff.mp hb
  exact h.1

theorem Tiles.last {b : Block} (hb : bs.getLast? = some b) : b.limit = hi := by
  obtain ⟨front, rfl⟩ := List.getLast?_eq_some_iff.mp hb
  induction front generalizing lo with
  | nil => exact h.2.2
  | cons d front ih => exact ih h.2.2 (by simp)

theorem Tiles.next {n : Nat} {b d : Block} (hb : bs[n]? = some b) (hd : bs[n + 1]? = some d) :
    d.first = b.limit := by
  induction bs generalizing lo n with
  | nil => simp at hb
  | cons e bs ih =>
    rw [List.getElem?_cons_succ] at hd
    cases n with
    | zero =>
      rw [List.getElem?_cons_zero, Option.some.injEq] at hb
      rw [← hb]
      exact Tiles.head h.2.2 (by rw [List.head?_eq_getElem?, hd])
    | succ n => exact ih h.2.2 hb hd

theorem Tiles.eq_nil_iff : bs = [] ↔ lo = hi := by
  constructor
  · rintro rfl
    exact h
  · rintro rfl
    cases bs with
    | nil => rfl
    | cons b bs =>
      have := Tiles.le h.2.2
      have := h.2.1
      omega

/-- The parts between the indices of the blocks make up the whole. -/
theorem Tiles.flatMap_slice (is : List Instruction) :
    bs.flatMap (fun b => (is.drop b.first).take (b.limit - b.first)) =
      (is.drop lo).take (hi - lo) := by
  induction bs generalizing lo with
  | nil =>
    obtain rfl : lo = hi := h
    simp
  | cons b bs ih =>
    obtain ⟨rfl, hlt, hrest⟩ := h
    have hle := Tiles.le hrest
    rw [List.flatMap_cons, ih hrest, show hi - b.first = (b.limit - b.first) + (hi - b.limit) by
      omega, List.take_add, List.drop_drop, Nat.add_sub_cancel' (Nat.le_of_lt hlt)]

end Tiles

/-! ### One instruction of the pass -/

/-- The block starts with its first instruction and ends with its last one. -/
def Framed (is : List Instruction) (b : Block) : Prop :=
  ∃ i l, is[b.first]? = some i ∧ is[b.limit - 1]? = some l ∧
    b.start = i.address ∧ b.stop = l.stop ∧ b.terminator = l.kind

/-- A block ends behind the instruction of an index. -/
def EndsAt (is : List Instruction) (ls : List Address) (k : Nat) : Prop :=
  ∃ i, is[k]? = some i ∧ endsHere ls i is[k + 1]? = true

/-- **What is cut when the pass has come to an index.** -/
structure Cutting.Cuts (is : List Instruction) (ls : List Address) (c : Cutting) : Prop where
  tiled : Tiles 0 c.blocks c.first
  first_le : c.first ≤ c.index
  ids : ∀ (n : Nat) (b : Block), c.blocks[n]? = some b → b.id = n
  framed : ∀ b ∈ c.blocks, Framed is b
  ends : ∀ k < c.index, (∃ b ∈ c.blocks, b.limit = k + 1) ↔ EndsAt is ls k
  starts : ∀ (a : Address) (n : Nat),
    c.byStart.get? a = some n ↔ ∃ b, c.blocks[n]? = some b ∧ b.start = a
  length_blockOf : c.blockOf.length = c.first
  members : ∀ k n : Nat, c.blockOf[k]? = some n ↔
    ∃ b, c.blocks[n]? = some b ∧ b.first ≤ k ∧ k < b.limit

namespace Cutting

variable {is : List Instruction} {ls : List Address} {c : Cutting} {i : Instruction}

theorem cuts_start (is : List Instruction) (ls : List Address) : start.Cuts is ls where
  tiled := rfl
  first_le := Nat.le_refl 0
  ids n b h := by cases h
  framed b h := by cases h
  ends k h := by cases h
  starts a n := by simp [start]
  length_blockOf := rfl
  members k n := by simp [start]

/-- **The block of the instruction stays open.** -/
theorem Cuts.stay (h : c.Cuts is ls) (hends : ¬ EndsAt is ls c.index) :
    Cuts is ls { c with index := c.index + 1 } where
  tiled := h.tiled
  first_le := Nat.le_succ_of_le h.first_le
  ids := h.ids
  framed := h.framed
  ends k hk := by
    rcases Nat.lt_succ_iff_lt_or_eq.mp hk with hk | rfl
    · exact h.ends k hk
    · refine iff_of_false ?_ hends
      rintro ⟨b, hb, hlimit⟩
      have := (h.tiled.bounds hb).2.2
      have := h.first_le
      omega
  starts := h.starts
  length_blockOf := h.length_blockOf
  members := h.members

/-- The entries of a list with one more element. -/
theorem getElem?_concat_iff {α : Type} {l : List α} {x y : α} {n : Nat} :
    (l ++ [x])[n]? = some y ↔ l[n]? = some y ∨ n = l.length ∧ y = x := by
  rcases Nat.lt_trichotomy n l.length with hn | rfl | hn
  · rw [List.getElem?_append_left hn]
    exact ⟨Or.inl, fun h => h.resolve_right fun h => by omega⟩
  · rw [List.getElem?_concat_length, List.getElem?_eq_none (Nat.le_refl _)]
    simp [eq_comm]
  · rw [List.getElem?_eq_none (by rw [List.length_append, List.length_singleton]; omega),
      List.getElem?_eq_none (by omega)]
    simp only [reduceCtorEq, false_or, false_iff, not_and]
    omega

theorem Cuts.starts_close (h : c.Cuts is ls) (his : Increasing is) {j : Instruction}
    (hj : is[c.first]? = some j) (i : Instruction) (a : Address) (n : Nat) :
    (c.close j.address i).byStart.get? a = some n ↔
      ∃ b, (c.close j.address i).blocks[n]? = some b ∧ b.start = a := by
  simp only [close, getElem?_concat_iff, Table.get?_insert]
  split
  next ha =>
    subst ha
    rw [Option.some.injEq]
    constructor
    · rintro rfl
      exact ⟨_, Or.inr ⟨rfl, rfl⟩, rfl⟩
    · rintro ⟨b, hb | ⟨hn, -⟩, hstart⟩
      · -- two blocks would start with one instruction
        obtain ⟨k, -, hk, -, hs, -⟩ := h.framed b (List.mem_of_getElem? hb)
        have hfirst := index_eq his hk hj (hs.symm.trans hstart)
        have := h.tiled.bounds (List.mem_of_getElem? hb)
        omega
      · exact hn.symm
  next ha =>
    rw [h.starts]
    refine exists_congr fun b => and_congr_left fun hstart => (or_iff_left ?_).symm
    rintro ⟨-, rfl⟩
    exact ha hstart.symm

theorem Cuts.members_close (h : c.Cuts is ls) (a : Address) (i : Instruction) (k n : Nat) :
    (c.close a i).blockOf[k]? = some n ↔
      ∃ b, (c.close a i).blocks[n]? = some b ∧ b.first ≤ k ∧ k < b.limit := by
  have hlen := h.length_blockOf
  have hle := h.first_le
  simp only [close, getElem?_concat_iff]
  rcases Nat.lt_or_ge k c.first with hk | hk
  · rw [List.getElem?_append_left (by omega), h.members]
    refine exists_congr fun b => and_congr_left fun hkb => (or_iff_left ?_).symm
    rintro ⟨-, rfl⟩
    exact absurd hkb.1 (Nat.not_le.mpr hk)
  · rw [List.getElem?_append_right (by omega), List.getElem?_replicate, hlen]
    constructor
    · intro hn
      split at hn
      next hlt =>
        rw [Option.some.injEq] at hn
        exact ⟨_, Or.inr ⟨hn.symm, rfl⟩, hk, show k < c.index + 1 by omega⟩
      · cases hn
    · rintro ⟨b, hb | ⟨rfl, rfl⟩, hkb⟩
      · have := (h.tiled.bounds (List.mem_of_getElem? hb)).2.2
        omega
      · have hlt : k < c.index + 1 := hkb.2
        rw [if_pos (by omega)]

/-- **The block of the instruction is closed.** -/
theorem Cuts.close (h : c.Cuts is ls) (his : Increasing is) {j : Instruction}
    (hj : is[c.first]? = some j) (hi : is[c.index]? = some i) (hends : EndsAt is ls c.index) :
    (c.close j.address i).Cuts is ls where
  tiled :=
    h.tiled.concat (b := ⟨c.blocks.length, j.address, i.stop, c.first, c.index + 1, i.kind, []⟩)
      rfl (Nat.lt_succ_of_le h.first_le)
  first_le := Nat.le_refl _
  ids n b hb := by
    rcases getElem?_concat_iff.mp hb with hb | ⟨rfl, rfl⟩
    · exact h.ids n b hb
    · rfl
  framed b hb := by
    rcases List.mem_append.mp hb with hb | hb
    · exact h.framed b hb
    · rw [List.mem_singleton.mp hb]
      exact ⟨j, i, hj, hi, rfl, rfl, rfl⟩
  ends k hk := by
    simp only [Cutting.close, List.mem_append, List.mem_singleton, or_and_right, exists_or,
      exists_eq_left]
    rcases Nat.lt_succ_iff_lt_or_eq.mp hk with hk | rfl
    · rw [h.ends k hk, or_iff_left (by omega)]
    · exact iff_of_true (Or.inr rfl) hends
  starts := h.starts_close his hj i
  length_blockOf := by
    have := h.length_blockOf
    have := h.first_le
    simp only [Cutting.close, List.length_append, List.length_replicate]
    omega
  members := h.members_close j.address i

/-- **One instruction of the pass.** -/
theorem Cuts.step (h : c.Cuts is ls) (his : Increasing is) (hi : is[c.index]? = some i) :
    (cutStep is ls c i is[c.index + 1]?).Cuts is ls := by
  have hends : EndsAt is ls c.index ↔ endsHere ls i is[c.index + 1]? = true := by
    simp [EndsAt, hi]
  unfold cutStep
  split
  next he =>
    have hlt : c.first < is.length :=
      Nat.lt_of_le_of_lt h.first_le (List.getElem?_eq_some_iff.mp hi).1
    have hj : is[c.first]? = some (is.getD c.first i) := by
      rw [List.getD_eq_getElem?_getD, List.getElem?_eq_getElem hlt, Option.getD_some]
    exact h.close his hj hi (hends.mpr he)
  next he => exact h.stay fun he' => he (hends.mp he')

end Cutting

/-! ### The whole pass -/

theorem index_cutStep (is : List Instruction) (ls : List Address) (c : Cutting) (i : Instruction)
    (next : Option Instruction) : (cutStep is ls c i next).index = c.index + 1 := by
  unfold cutStep
  split <;> rfl

/-- Behind the last instruction nothing is open. -/
theorem first_cutStep_none (is : List Instruction) (ls : List Address) (c : Cutting)
    (i : Instruction) : (cutStep is ls c i none).first = c.index + 1 := by
  have hends : endsHere ls i none = true := Bool.or_true _
  unfold cutStep
  rw [if_pos hends]
  rfl

theorem cuts_cutFrom {is : List Instruction} (his : Increasing is) (ls : List Address)
    {c : Cutting} (h : c.Cuts is ls) {rest : List Instruction} (hrest : is.drop c.index = rest)
    (hle : c.index ≤ is.length) (hopen : rest = [] → c.first = c.index) :
    (cutFrom is ls c rest).Cuts is ls ∧ (cutFrom is ls c rest).first = is.length ∧
      (cutFrom is ls c rest).index = is.length := by
  induction rest generalizing c with
  | nil =>
    have hlen : c.index = is.length := Nat.le_antisymm hle (List.drop_eq_nil_iff.mp hrest)
    exact ⟨h, (hopen rfl).trans hlen, hlen⟩
  | cons i rest ih =>
    have hi : is[c.index]? = some i := by
      rw [← List.head?_drop, hrest]
      rfl
    have hnext : rest.head? = is[c.index + 1]? := by
      rw [← List.head?_drop, ← List.drop_drop, hrest]
      rfl
    have hlt := (List.getElem?_eq_some_iff.mp hi).1
    rw [cutFrom]
    refine ih (by rw [hnext]; exact h.step his hi) ?_ ?_ ?_
    · rw [index_cutStep, ← List.drop_drop, hrest]
      rfl
    · rw [index_cutStep]
      exact hlt
    · rintro rfl
      rw [index_cutStep]
      exact first_cutStep_none is ls c i

/-- **The pass cuts all instructions.** -/
theorem cuts_cut {is : List Instruction} (his : Increasing is) (ls : List Address) :
    (cut is ls).Cuts is ls ∧ (cut is ls).first = is.length ∧ (cut is ls).index = is.length :=
  cuts_cutFrom his ls (Cutting.cuts_start is ls) List.drop_zero (Nat.zero_le _) fun _ => rfl

end BlockGraph

end FlowState
