import FlowState.Proofs.ChecksumSteps
import FlowState.State.Update
import Mathlib.Tactic.Ring

/-! # Bytes that are tampered with

Each built-in update function keeps a register in the state that no later instruction can bring back
to what it would have been: the lowest byte, or the lowest 32 bits. Letters are fed into it one by
one, and a step tells the register in front of it if the letter is known, and the letter if the
register is known. So one other letter leads to another register (`foldl_ne_of_apart`), and other
registers stay apart (`foldl_ne_of_start`). The letters are the bytes, or the words of four bytes;
one other byte is one other word (`apart_words`). A register survives in the state behind the
instruction whatever the width was (`lowWord_ofLowWord`).

`Tracks f view` says this of an update function and the view of its register. The states behind a
sequence of instructions hence differ from the place on where a byte was changed. -/

namespace FlowState

/-! ### Letters fed into a register -/

/-- The lists are equal but for one entry. -/
def Apart {β : Type} (bs cs : List β) : Prop :=
  ∃ front b c rest, bs = front ++ b :: rest ∧ cs = front ++ c :: rest ∧ b ≠ c

section Feeding
variable {α β : Type} {step : α → β → α} (hregister : ∀ b, Function.Injective fun x => step x b)
include hregister

theorem foldl_ne_of_start {x y : α} (h : x ≠ y) (bs : List β) :
    bs.foldl step x ≠ bs.foldl step y := by
  induction bs generalizing x y with
  | nil => exact h
  | cons b bs ih => exact ih fun hxy => h (hregister b hxy)

theorem foldl_ne_of_apart (hletter : ∀ x, Function.Injective (step x)) {bs cs : List β}
    (h : Apart bs cs) (x : α) : bs.foldl step x ≠ cs.foldl step x := by
  obtain ⟨front, b, c, rest, rfl, rfl, hbc⟩ := h
  rw [List.foldl_append, List.foldl_append, List.foldl_cons, List.foldl_cons]
  exact foldl_ne_of_start hregister (fun heq => hbc (hletter _ heq)) rest

end Feeding

/-! ### Numbers of bytes -/

namespace StateValue

theorem number_append (bs cs : List UInt8) :
    number (bs ++ cs) = number bs + 256 ^ bs.length * number cs := by
  induction bs with
  | nil => simp [number]
  | cons b bs ih =>
    rw [List.cons_append, number, ih, number, List.length_cons]
    ring

theorem number_lt (bs : List UInt8) : number bs < 256 ^ bs.length := by
  induction bs with
  | nil => simp [number]
  | cons b bs ih =>
    have hb := b.toNat_lt
    rw [number, List.length_cons, Nat.pow_succ]
    omega

/-- One other byte is another number. -/
theorem number_ne {bs cs : List UInt8} (h : Apart bs cs) : number bs ≠ number cs := by
  obtain ⟨front, b, c, rest, rfl, rfl, hbc⟩ := h
  intro heq
  rw [number_append, number_append, number, number] at heq
  have hpos : 0 < 256 ^ front.length := Nat.pos_of_ne_zero (by simp)
  have hsame := Nat.eq_of_mul_eq_mul_left hpos (Nat.add_left_cancel heq)
  exact hbc (UInt8.toNat_inj.mp (Nat.add_right_cancel hsame))

theorem number_lowBytes (width n : Nat) : number (lowBytes width n) = n % 256 ^ width := by
  induction width generalizing n with
  | zero => rw [lowBytes, number, Nat.pow_zero, Nat.mod_one]
  | succ width ih =>
    have hbyte : (UInt8.ofNat (n % 256)).toNat = n % 256 :=
      UInt8.toNat_ofNat_of_lt' (Nat.mod_lt n (by decide))
    rw [lowBytes, number, ih, hbyte, Nat.pow_succ, Nat.mul_comm (256 ^ width), Nat.mod_mul]

theorem take_lowBytes (k width n : Nat) :
    (lowBytes width n).take k = lowBytes (min k width) n := by
  induction width generalizing k n with
  | zero => simp [lowBytes]
  | succ width ih =>
    cases k with
    | zero => simp [lowBytes]
    | succ k => rw [lowBytes, List.take_succ_cons, ih, Nat.succ_min_succ, lowBytes]

end StateValue

namespace UpdateFunction

open StateValue

/-- **The lowest 32 bits survive**, whatever the width of the state was. -/
theorem lowWord_ofLowWord (s : StateValue) (n : UInt32) : lowWord (ofLowWord s n) = n := by
  have hn : n.toNat < 256 ^ 4 := n.toNat_lt
  have hwide : 256 ^ 4 ≤ 256 ^ min 8 (max s.width 4) :=
    Nat.pow_le_pow_right (by decide) (by omega)
  have hnum : number ((ofLowWord s n).bytes.take 8) = n.toNat := by
    unfold ofLowWord ofWord
    rw [take_lowBytes, number_lowBytes, UInt32.toNat_toUInt64]
    exact Nat.mod_eq_of_lt (Nat.lt_of_lt_of_le hn hwide)
  unfold lowWord toWord
  rw [hnum]
  simp

/-! ### Words -/

theorem words_eq {bs : List UInt8} (h : bs ≠ []) :
    words bs = UInt32.ofNat (number (bs.take 4)) :: words (bs.drop 4) := by
  match bs with
  | [] => exact absurd rfl h
  | [a] => rfl
  | [a, b] => rfl
  | [a, b, c] => rfl
  | a :: b :: c :: d :: r => rfl

/-- One other byte is another word. -/
theorem word_ne {bs cs : List UInt8} (hb : bs.length ≤ 4) (hc : cs.length ≤ 4) (h : Apart bs cs) :
    UInt32.ofNat (number bs) ≠ UInt32.ofNat (number cs) := by
  have hfit : ∀ ds : List UInt8, ds.length ≤ 4 → (UInt32.ofNat (number ds)).toNat = number ds := by
    intro ds hd
    refine UInt32.toNat_ofNat_of_lt' ?_
    exact Nat.lt_of_lt_of_le (number_lt ds) (Nat.pow_le_pow_right (by decide) hd)
  intro heq
  refine number_ne h ?_
  rw [← hfit bs hb, ← hfit cs hc, heq]

/-- **One other byte is one other word.** The changed byte lies in the first word or behind it. -/
theorem apart_words {bs cs : List UInt8} (h : Apart bs cs) : Apart (words bs) (words cs) := by
  obtain ⟨front, b, c, rest, rfl, rfl, hbc⟩ := h
  induction hn : front.length using Nat.strong_induction_on generalizing front with
  | h n ih =>
    subst hn
    have hwords : ∀ x, words (front ++ x :: rest) =
        UInt32.ofNat (number ((front ++ x :: rest).take 4)) ::
          words ((front ++ x :: rest).drop 4) := fun x => words_eq (by simp)
    rw [hwords, hwords]
    rcases Nat.lt_or_ge front.length 4 with hlt | hge
    · obtain ⟨k, hk⟩ : ∃ k, 4 - front.length = k + 1 := ⟨3 - front.length, by omega⟩
      have htake : ∀ x, (front ++ x :: rest).take 4 = front ++ x :: rest.take k := by
        intro x
        rw [List.take_append, List.take_of_length_le (by omega), hk, List.take_succ_cons]
      have hdrop : ∀ x, (front ++ x :: rest).drop 4 = rest.drop k := by
        intro x
        rw [List.drop_append, List.drop_of_length_le (by omega), hk, List.drop_succ_cons]
        rfl
      refine ⟨[], _, _, words (rest.drop k), by rw [hdrop]; rfl, by rw [hdrop]; rfl, ?_⟩
      refine word_ne (List.length_take_le _ _) (List.length_take_le _ _) ?_
      rw [htake, htake]
      exact ⟨front, b, c, rest.take k, rfl, rfl, hbc⟩
    · rw [List.take_append_of_le_length hge, List.take_append_of_le_length hge,
        List.drop_append_of_le_length hge, List.drop_append_of_le_length hge]
      have hshort : (front.drop 4).length < front.length := by
        rw [List.length_drop]
        omega
      obtain ⟨us, u, v, vs, hu, hv, hne⟩ := ih _ hshort (front.drop 4) rfl
      exact ⟨_ :: us, u, v, vs, by rw [hu]; rfl, by rw [hv]; rfl, hne⟩

/-! ### The registers of the functions -/

/-- **An update function keeps a register**: other registers stay apart, and one other byte makes
another register. -/
structure Tracks {α : Type} (f : StateValue → List UInt8 → StateValue) (view : StateValue → α) :
    Prop where
  carries : ∀ {s t : StateValue} (bs : List UInt8), view s ≠ view t → view (f s bs) ≠ view (f t bs)
  notices : ∀ (s : StateValue) {bs cs : List UInt8}, Apart bs cs → view (f s bs) ≠ view (f s cs)

/-- A register that letters are fed into, where a step tells the register and the letter. -/
theorem Tracks.of_foldl {α β : Type} {f : StateValue → List UInt8 → StateValue}
    {view : StateValue → α} {step : α → β → α} (letters : List UInt8 → List β)
    (hview : ∀ s bs, view (f s bs) = (letters bs).foldl step (view s))
    (hletters : ∀ {bs cs}, Apart bs cs → Apart (letters bs) (letters cs))
    (hregister : ∀ b, Function.Injective fun x => step x b)
    (hletter : ∀ x, Function.Injective (step x)) : Tracks f view where
  carries bs h := by
    rw [hview, hview]
    exact foldl_ne_of_start hregister h (letters bs)
  notices s bs cs h := by
    rw [hview, hview]
    exact foldl_ne_of_apart hregister hletter (hletters h) (view s)

/-- The lowest byte of a state. -/
def lowByte (s : StateValue) : UInt8 := s.bytes.headD 0

theorem lowByte_xorState (s : StateValue) (bs : List UInt8) :
    lowByte (xorState s bs) = bs.foldl (· ^^^ ·) (lowByte s) := by
  unfold xorState lowByte
  cases s.bytes <;> rfl

theorem tracks_xorState : Tracks xorState lowByte :=
  .of_foldl id lowByte_xorState id (fun b _ _ => (UInt8.xor_left_inj b).mp)
    fun x _ _ => (UInt8.xor_right_inj x).mp

theorem tracks_sumState : Tracks sumState lowWord :=
  .of_foldl words (fun s _ => lowWord_ofLowWord s _) apart_words
    (fun n _ _ => (UInt32.add_left_inj n).mp) fun x _ _ => (UInt32.add_right_inj x).mp

theorem tracks_crcState : Tracks crcState lowWord :=
  .of_foldl id (fun s _ => lowWord_ofLowWord s _) id Checksum.byteStep_injective_register
    Checksum.byteStep_injective_byte

/-! ### Sequences of instructions -/

/-- The states behind the instructions, one after another. -/
def states (f : StateValue → List UInt8 → StateValue) :
    StateValue → List Instruction → List StateValue
  | _, [] => []
  | s, i :: is => f s i.bytes :: states f (f s i.bytes) is

theorem length_states (f : StateValue → List UInt8 → StateValue) (s : StateValue)
    (is : List Instruction) : (states f s is).length = is.length := by
  induction is generalizing s with
  | nil => rfl
  | cons i is ih => rw [states, List.length_cons, ih, List.length_cons]

/-- The instructions are the same but for the one at a place, and there the bytes differ in one. -/
def TamperedAt (k : ℕ) (xs ys : List Instruction) : Prop :=
  ∃ front i j rest, xs = front ++ i :: rest ∧ ys = front ++ j :: rest ∧ front.length = k ∧
    Apart i.bytes j.bytes

section
variable {α : Type} {f : StateValue → List UInt8 → StateValue} {view : StateValue → α}

/-- **Other registers never meet again.** -/
theorem Tracks.states_ne (hf : Tracks f view) {s t : StateValue} (h : view s ≠ view t)
    {is : List Instruction} {m : ℕ} (hm : m < is.length) :
    (states f s is)[m]? ≠ (states f t is)[m]? := by
  induction is generalizing s t m with
  | nil => cases hm
  | cons i is ih =>
    have hnext := hf.carries i.bytes h
    cases m with
    | zero => exact fun heq => hnext (congrArg view (Option.some.inj heq))
    | succ m => exact ih hnext (Nat.lt_of_succ_lt_succ hm)

/-- **The states are the same exactly in front of the change.** -/
theorem Tracks.states_eq_iff (hf : Tracks f view) (s : StateValue) {xs ys : List Instruction}
    {k m : ℕ} (h : TamperedAt k xs ys) (hm : m < xs.length) :
    (states f s xs)[m]? = (states f s ys)[m]? ↔ m < k := by
  obtain ⟨front, i, j, rest, rfl, rfl, rfl, hij⟩ := h
  induction front generalizing s m with
  | nil =>
    have hnext := hf.notices s hij
    refine iff_of_false ?_ (Nat.not_lt_zero m)
    cases m with
    | zero => exact fun heq => hnext (congrArg view (Option.some.inj heq))
    | succ m => exact hf.states_ne hnext (Nat.lt_of_succ_lt_succ hm)
  | cons a front ih =>
    cases m with
    | zero => exact iff_of_true rfl (Nat.succ_pos _)
    | succ m => exact (ih _ (Nat.lt_of_succ_lt_succ hm)).trans Nat.succ_lt_succ_iff.symm

end

end UpdateFunction

namespace Updater

open UpdateFunction

/-- The states behind the instructions, or the first error. -/
def posts (u : Updater) : StateValue → List Instruction → Except StateError (List StateValue)
  | _, [] => .ok []
  | s, i :: is => do
    let t ← u.update s i
    let ts ← u.posts t is
    return t :: ts

/-- The function never refuses, and only reads the bytes. -/
def Computes (u : Updater) (f : StateValue → List UInt8 → StateValue) : Prop :=
  ∀ s i, u.update s i = .ok (f s i.bytes)

theorem Computes.posts {u : Updater} {f : StateValue → List UInt8 → StateValue} (h : u.Computes f)
    (s : StateValue) (is : List Instruction) : u.posts s is = .ok (states f s is) := by
  induction is generalizing s with
  | nil => rfl
  | cons i is ih =>
    rw [Updater.posts, h s i, states]
    change (do let ts ← u.posts (f s i.bytes) is; return f s i.bytes :: ts) = _
    rw [ih]
    rfl

/-- Each built-in function keeps a register, the checksum once it is prepared. -/
theorem exists_tracks {u : Updater} (hu : u.function ∈ UpdateRegistry.builtin.functions)
    (hr : u.function.name = "crc32c" → u.ready = true) :
    ∃ (α : Type) (f : StateValue → List UInt8 → StateValue) (view : StateValue → α),
      u.Computes f ∧ Tracks f view := by
  obtain ⟨f, ready⟩ := u
  simp only [UpdateRegistry.builtin, List.mem_cons, List.not_mem_nil, or_false] at hu
  rcases hu with rfl | rfl | rfl
  · exact ⟨_, xorState, lowByte, fun _ _ => rfl, tracks_xorState⟩
  · exact ⟨_, sumState, lowWord, fun _ _ => rfl, tracks_sumState⟩
  · obtain rfl : ready = true := hr rfl
    exact ⟨_, crcState, lowWord, fun _ _ => rfl, tracks_crcState⟩

/-- **Tampering never heals**: with a built-in function, if one byte of one instruction is another
one, the states behind that instruction and behind all later ones are others. In front of it they
are the same. -/
theorem posts_of_tamperedAt {u : Updater} (hu : u.function ∈ UpdateRegistry.builtin.functions)
    (hr : u.function.name = "crc32c" → u.ready = true) (s : StateValue) {xs ys : List Instruction}
    {k : ℕ} (h : TamperedAt k xs ys) :
    ∃ ps qs, u.posts s xs = .ok ps ∧ u.posts s ys = .ok qs ∧
      ps.length = xs.length ∧ qs.length = ys.length ∧
      ∀ m < xs.length, ps[m]? = qs[m]? ↔ m < k := by
  obtain ⟨α, f, view, hf, htracks⟩ := exists_tracks hu hr
  exact ⟨states f s xs, states f s ys, hf.posts s xs, hf.posts s ys, length_states f s xs,
    length_states f s ys, fun m hm => htracks.states_eq_iff s h hm⟩

namespace Patched

/-- Three instructions; the patched byte is the second one in the middle. -/
def code (b : UInt8) : List Instruction :=
  [⟨0x10, [0x55], .sequential, [], none⟩, ⟨0x11, [0x89, b, 255, 0, 65], .sequential, [], none⟩,
    ⟨0x16, [0xc3], .return, [], none⟩]

/-- The prepared checksum. -/
def checksum : Updater := ⟨.crc32c, true⟩

theorem tamperedAt_code : TamperedAt 1 (code 0xe5) (code 0xe7) :=
  ⟨[_], _, _, [_], rfl, rfl, rfl, [_], 0xe5, 0xe7, [_, _, _], rfl, rfl, by decide⟩

/-- The state in front is narrower than the register. -/
theorem checksum_differs : TamperedAt 1 (code 0xe5) (code 0xe7) ∧
    ∃ ps qs, checksum.posts ⟨[0xff]⟩ (code 0xe5) = .ok ps ∧
      checksum.posts ⟨[0xff]⟩ (code 0xe7) = .ok qs ∧ ps.length = 3 ∧ qs.length = 3 ∧
      ∀ m < 3, ps[m]? = qs[m]? ↔ m < 1 :=
  ⟨tamperedAt_code, posts_of_tamperedAt (by simp [checksum, UpdateRegistry.builtin]) (fun _ => rfl)
    ⟨[0xff]⟩ tamperedAt_code⟩

end Patched

end Updater

end FlowState
