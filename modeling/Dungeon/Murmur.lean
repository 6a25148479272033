import Dungeon.Hasht
import Dungeon.Lib.Words

/-!
# What the default hash function tells apart

`default_hash_func` mixes its running hash with the words of the key one after another, then
with the bytes of an incomplete last word, and finishes. Every step is an injection of the
32-bit words, so keys of one length that differ in one word get different hashes. But the
pointer through which it reads the last bytes has not moved: it reads the first bytes of the
key once more. (A key's length is an `int`, so the `uint32_t` index of the loop does not
wrap.)

- `mix`, `finish`: one turn of the loop and the last steps, with their injectivity.
- `DifferInBlock`, `DifferInRest`: two keys that differ in one aligned block of four bytes, or
  in the bytes behind the last one.
- `defaultHashFunc_separates_iff`: all such keys of a length are told apart exactly when the
  length is a multiple of four or the key is shorter than a block.
-/

namespace Dungeon

variable {data data' front rest : List UInt8}

/-! ## The steps are injections -/

/-- A step on words is an injection if it is one on their bits. -/
theorem injective_of_toBitVec {f : UInt32 → UInt32} {g : BitVec 32 → BitVec 32}
    (hg : Function.Injective g) (hfg : ∀ x, (f x).toBitVec = g x.toBitVec) :
    Function.Injective f := by
  intro x y h
  refine UInt32.toBitVec_inj.mp (hg ?_)
  rw [← hfg x, ← hfg y, h]

theorem xor_injective (m : UInt32) : Function.Injective (· ^^^ m) :=
  injective_of_toBitVec (Words.xor_injective m.toBitVec) fun _ => rfl

/-- One turn of the loop of `default_hash_func`, with the next word of the key. -/
def mix (hash k : UInt32) : UInt32 :=
  rotl (hash ^^^ rotl (k * 0xcc9e2d51) 15 * 0x1b873593) 13 * 5 + 0xe6546b64

/-- What `default_hash_func` does at its end. -/
def finish (hash : UInt32) : UInt32 :=
  let hash := (hash ^^^ (hash >>> 16)) * 0x85ebca6b
  let hash := (hash ^^^ (hash >>> 13)) * 0xc2b2ae35
  hash ^^^ (hash >>> 16)

/-- The last part of a turn. -/
theorem rotl_mul_add_injective :
    Function.Injective fun x : UInt32 => rotl x 13 * 5 + 0xe6546b64 := by
  have hrotl : Function.Injective (rotl · 13) :=
    injective_of_toBitVec (Words.rotateLeft_injective (by decide)) fun _ => rfl
  have hmul : Function.Injective fun x : UInt32 => x * 5 :=
    injective_of_toBitVec (Words.mul_injective (n := 0xcccccccd) (by decide)) fun _ => rfl
  have hadd : Function.Injective fun x : UInt32 => x + 0xe6546b64 :=
    injective_of_toBitVec (add_left_injective 0xe6546b64) fun _ => rfl
  exact hadd.comp (hmul.comp hrotl)

/-- Different hashes stay different. -/
theorem mix_injective_hash (k : UInt32) : Function.Injective (mix · k) :=
  rotl_mul_add_injective.comp (xor_injective _)

/-- Different words make different hashes. -/
theorem mix_injective (hash : UInt32) : Function.Injective (mix hash) := by
  have hfirst : Function.Injective fun k : UInt32 => k * 0xcc9e2d51 :=
    injective_of_toBitVec (Words.mul_injective (n := 0xdee13bb1) (by decide)) fun _ => rfl
  have hrotl : Function.Injective (rotl · 15) :=
    injective_of_toBitVec (Words.rotateLeft_injective (by decide)) fun _ => rfl
  have hsecond : Function.Injective fun k : UInt32 => k * 0x1b873593 :=
    injective_of_toBitVec (Words.mul_injective (n := 0x56ed309b) (by decide)) fun _ => rfl
  have hxor : Function.Injective (hash ^^^ ·) := by
    intro k k' h
    refine xor_injective hash ?_
    show k ^^^ hash = k' ^^^ hash
    rw [UInt32.xor_comm k, UInt32.xor_comm k']
    exact h
  exact rotl_mul_add_injective.comp (hxor.comp (hsecond.comp (hrotl.comp hfirst)))

theorem finish_injective : Function.Injective finish := by
  have hshift : Function.Injective fun x : UInt32 => x ^^^ (x >>> 16) :=
    injective_of_toBitVec (Words.xorShift_injective (by decide : 0 < 16)) fun _ => rfl
  have hshift' : Function.Injective fun x : UInt32 => x ^^^ (x >>> 13) :=
    injective_of_toBitVec (Words.xorShift_injective (by decide : 0 < 13)) fun _ => rfl
  have hmul : Function.Injective fun x : UInt32 => x * 0x85ebca6b :=
    injective_of_toBitVec (Words.mul_injective (n := 0xa5cb9243) (by decide)) fun _ => rfl
  have hmul' : Function.Injective fun x : UInt32 => x * 0xc2b2ae35 :=
    injective_of_toBitVec (Words.mul_injective (n := 0x7ed1b41d) (by decide)) fun _ => rfl
  exact hshift.comp (hmul'.comp (hshift'.comp (hmul.comp hshift)))

/-! ## The loop over the words -/

theorem toNat_word (b₀ b₁ b₂ b₃ : UInt8) : (word b₀ b₁ b₂ b₃).toNat
    = b₀.toNat + b₁.toNat * 2 ^ 8 + b₂.toNat * 2 ^ 16 + b₃.toNat * 2 ^ 24 := by
  have h₀ := b₀.toNat_lt
  have h₁ := b₁.toNat_lt
  have h₂ := b₂.toNat_lt
  have h₃ := b₃.toNat_lt
  unfold word
  simp [UInt32.toNat_add, UInt32.toNat_shiftLeft, Nat.shiftLeft_eq]
  omega

/-- Different bytes make different words. -/
theorem word_inj {b₀ b₁ b₂ b₃ c₀ c₁ c₂ c₃ : UInt8} (h : word b₀ b₁ b₂ b₃ = word c₀ c₁ c₂ c₃) :
    b₀ = c₀ ∧ b₁ = c₁ ∧ b₂ = c₂ ∧ b₃ = c₃ := by
  have hnat := congrArg UInt32.toNat h
  rw [toNat_word, toNat_word] at hnat
  have hb₀ := b₀.toNat_lt
  have hb₁ := b₁.toNat_lt
  have hb₂ := b₂.toNat_lt
  have hc₀ := c₀.toNat_lt
  have hc₁ := c₁.toNat_lt
  have hc₂ := c₂.toNat_lt
  refine ⟨?_, ?_, ?_, ?_⟩ <;> refine UInt8.toNat_inj.mp ?_ <;> omega

/-- The loop of `default_hash_func`. -/
theorem hashWords_eq :
    hashWords = Words.foldBlocks fun hash b₀ b₁ b₂ b₃ => mix hash (word b₀ b₁ b₂ b₃) := by
  -- the bodies are compared: unfolding a call would have the kernel compute with the constants
  delta hashWords Words.foldBlocks
  congr!
  funext data below hash
  match data with
  | [] | [_] | [_, _] | [_, _, _] | _ :: _ :: _ :: _ :: _ => rfl

/-- Different hashes stay different along the rest of the key. -/
theorem hashWords_injective (data : List UInt8) : Function.Injective (hashWords data) := by
  rw [hashWords_eq]
  exact Words.foldBlocks_injective (fun _ _ _ _ => mix_injective_hash _) data

/-- Whole words in front are mixed first, then the next word. -/
theorem hashWords_around (front rest : List UInt8) (b₀ b₁ b₂ b₃ : UInt8) (hash : UInt32)
    (hfront : front.length % 4 = 0) : hashWords (front ++ b₀ :: b₁ :: b₂ :: b₃ :: rest) hash
      = hashWords rest (mix (hashWords front hash) (word b₀ b₁ b₂ b₃)) := by
  rw [hashWords_eq, Words.foldBlocks_append _ _ _ hfront, Words.foldBlocks_cons]

/-! ## The incomplete last word -/

theorem hashRest_of_mod_eq_zero (hlen : data.length % 4 = 0) : hashRest data = 0 := by
  unfold hashRest
  rw [hlen]
  match data with
  | [] | [_] | [_, _] | _ :: _ :: _ :: _ => rfl

/-- Only the first bytes of the key are read. -/
theorem hashRest_congr (hlen : data.length = data'.length) (htake : data.take 3 = data'.take 3) :
    hashRest data = hashRest data' := by
  unfold hashRest
  rw [hlen]
  generalize data'.length % 4 = m
  match data, data', htake with
  | [], [], _ => rfl
  | [b₀], [c₀], htake =>
    have htake : [b₀] = [c₀] := htake
    rw [htake]
  | [b₀, b₁], [c₀, c₁], htake =>
    have htake : [b₀, b₁] = [c₀, c₁] := htake
    rw [htake]
  | b₀ :: b₁ :: b₂ :: data, c₀ :: c₁ :: c₂ :: data', htake =>
    obtain ⟨h₀, htake⟩ := List.cons.inj htake
    obtain ⟨h₁, htake⟩ := List.cons.inj htake
    obtain ⟨h₂, -⟩ := List.cons.inj htake
    rw [h₀, h₁, h₂]
    match m with
    | 0 | 1 | 2 | 3 | _ + 4 => rfl

theorem hashRest_one (b₀ : UInt8) : hashRest [b₀] = word b₀ 0 0 0 := rfl

theorem hashRest_two (b₀ b₁ : UInt8) : hashRest [b₀, b₁] = word b₀ b₁ 0 0 := rfl

theorem hashRest_three (b₀ b₁ b₂ : UInt8) : hashRest [b₀, b₁, b₂] = word b₀ b₁ b₂ 0 := rfl

/-- A key shorter than a block is its own incomplete word. -/
theorem hashRest_inj (hlen : data.length = data'.length) (hshort : data.length < 4) :
    hashRest data = hashRest data' → data = data' := by
  match data with
  | [] =>
    intro _
    exact (List.length_eq_zero_iff.mp hlen.symm).symm
  | [_] =>
    intro h
    obtain ⟨_, rfl⟩ := List.length_eq_one_iff.mp hlen.symm
    rw [hashRest_one, hashRest_one] at h
    obtain ⟨rfl, -⟩ := word_inj h
    rfl
  | [_, _] =>
    intro h
    obtain ⟨_, _, rfl⟩ := List.length_eq_two.mp hlen.symm
    rw [hashRest_two, hashRest_two] at h
    obtain ⟨rfl, rfl, -⟩ := word_inj h
    rfl
  | [_, _, _] =>
    intro h
    obtain ⟨_, _, _, rfl⟩ := List.length_eq_three.mp hlen.symm
    rw [hashRest_three, hashRest_three] at h
    obtain ⟨rfl, rfl, rfl, -⟩ := word_inj h
    rfl
  | _ :: _ :: _ :: _ :: _ =>
    intro _
    simp only [List.length_cons] at hshort
    omega

/-- Keys of one length have one hash exactly when their words and their last bytes, mixed,
come out as the same. -/
theorem defaultHashFunc_eq_iff (hlen : data.length = data'.length) :
    defaultHashFunc data = defaultHashFunc data' ↔
      hashWords data 20000033 ^^^ rotl (hashRest data) 16
        = hashWords data' 20000033 ^^^ rotl (hashRest data') 16 := by
  have hfinish (data : List UInt8) : defaultHashFunc data
      = finish (hashWords data 20000033 ^^^ rotl (hashRest data) 16
        ^^^ UInt32.ofNat data.length) := rfl
  rw [hfinish, hfinish, hlen, finish_injective.eq_iff]
  exact (xor_injective _).eq_iff

theorem rotl_rest_injective : Function.Injective (rotl · 16) :=
  injective_of_toBitVec (Words.rotateLeft_injective (by decide)) fun _ => rfl

/-! ## Keys that differ in one place -/

/-- Two keys of one length that differ, but only from position `lo` on and before `hi`. -/
structure DifferWithin (data data' : List UInt8) (lo hi : ℕ) : Prop where
  length_eq : data.length = data'.length
  ne : data ≠ data'
  outside : ∀ j, j < lo ∨ hi ≤ j → data[j]? = data'[j]?

/-- They differ in the aligned block `i` of four bytes. -/
def DifferInBlock (data data' : List UInt8) (i : ℕ) : Prop :=
  i < data.length / 4 ∧ DifferWithin data data' (4 * i) (4 * i + 4)

/-- They differ in the bytes behind the last block. -/
def DifferInRest (data data' : List UInt8) : Prop :=
  DifferWithin data data' (4 * (data.length / 4)) data.length

theorem DifferWithin.take_eq {lo hi : ℕ} (h : DifferWithin data data' lo hi) :
    data.take lo = data'.take lo := by
  refine List.ext_getElem? fun j => ?_
  rw [List.getElem?_take, List.getElem?_take]
  split
  next hj => exact h.outside j (.inl hj)
  next => rfl

theorem DifferWithin.drop_eq {lo hi : ℕ} (h : DifferWithin data data' lo hi) :
    data.drop hi = data'.drop hi := by
  refine List.ext_getElem? fun j => ?_
  rw [List.getElem?_drop, List.getElem?_drop]
  exact h.outside (hi + j) (.inr (Nat.le_add_right hi j))

/-- The key around one of its blocks. -/
theorem eq_around_block {i : ℕ} (hi : i < data.length / 4) : ∃ b₀ b₁ b₂ b₃,
    data = data.take (4 * i) ++ b₀ :: b₁ :: b₂ :: b₃ :: data.drop (4 * i + 4) := by
  have hlen : (data.drop (4 * i)).length = data.length - 4 * i := List.length_drop
  rw [← List.drop_drop]
  match hdrop : data.drop (4 * i) with
  | b₀ :: b₁ :: b₂ :: b₃ :: _ =>
    refine ⟨b₀, b₁, b₂, b₃, ?_⟩
    conv_lhs => rw [← List.take_append_drop (4 * i) data, hdrop]
    rfl
  | [] | [_] | [_, _] | [_, _, _] =>
    rw [hdrop] at hlen
    simp only [List.length_nil, List.length_cons] at hlen
    omega

/-- A block more or less makes the loop end with another hash. -/
theorem DifferInBlock.hashWords_ne {i : ℕ} (h : DifferInBlock data data' i) (hash : UInt32) :
    hashWords data hash ≠ hashWords data' hash := by
  obtain ⟨hi, hd⟩ := h
  obtain ⟨b₀, b₁, b₂, b₃, hb⟩ := eq_around_block hi
  obtain ⟨c₀, c₁, c₂, c₃, hc⟩ := eq_around_block (hd.length_eq ▸ hi)
  rw [← hd.take_eq, ← hd.drop_eq] at hc
  have hfront : (data.take (4 * i)).length % 4 = 0 := by
    rw [List.length_take]
    omega
  intro heq
  rw [hb, hc, hashWords_around _ _ _ _ _ _ _ hfront, hashWords_around _ _ _ _ _ _ _ hfront] at heq
  -- the words of the block are equal, so the keys are
  obtain ⟨rfl, rfl, rfl, rfl⟩ := word_inj (mix_injective _ (hashWords_injective _ heq))
  exact hd.ne (hb.trans hc.symm)

/-- A difference in a block shows, unless the bytes of the block are read once more. -/
theorem DifferInBlock.hash_ne {i : ℕ} (h : DifferInBlock data data' i)
    (hi : 1 ≤ i ∨ data.length % 4 = 0) : defaultHashFunc data ≠ defaultHashFunc data' := by
  have hlen := h.2.length_eq
  have hrest : hashRest data = hashRest data' := by
    rcases hi with hi | hmod
    · refine hashRest_congr hlen ?_
      have htake := congrArg (List.take 3) h.2.take_eq
      rw [List.take_take, List.take_take, Nat.min_eq_left (by omega)] at htake
      exact htake
    · rw [hashRest_of_mod_eq_zero hmod, hashRest_of_mod_eq_zero (hlen ▸ hmod)]
  intro heq
  rw [defaultHashFunc_eq_iff hlen, hrest] at heq
  exact h.hashWords_ne _ (xor_injective _ heq)

/-- The bytes behind the last block leave the loop alone. -/
theorem DifferInRest.words_eq (h : DifferInRest data data') (hash : UInt32) :
    hashWords data hash = hashWords data' hash := by
  have hlen := h.length_eq
  rw [hashWords_eq, Words.foldBlocks_take data, Words.foldBlocks_take data', ← hlen, h.take_eq]

/-- A difference in the last bytes shows exactly in a key without a block. -/
theorem DifferInRest.hash_ne_iff (h : DifferInRest data data') :
    defaultHashFunc data ≠ defaultHashFunc data' ↔ data.length < 4 := by
  have hlen := h.length_eq
  rw [Ne, defaultHashFunc_eq_iff hlen, h.words_eq, UInt32.xor_comm,
    UInt32.xor_comm _ (rotl _ _)]
  constructor
  · intro hne
    by_contra hlong
    refine hne ?_
    have htake := congrArg (List.take 3) h.take_eq
    rw [List.take_take, List.take_take, Nat.min_eq_left (by omega)] at htake
    rw [hashRest_congr hlen htake]
  · intro hshort heq
    exact h.ne (hashRest_inj hlen hshort (rotl_rest_injective (xor_injective _ heq)))

/-- Without an incomplete word there is nothing to differ in. -/
theorem DifferInRest.mod_ne_zero (h : DifferInRest data data') : data.length % 4 ≠ 0 := by
  intro hmod
  refine h.ne ?_
  have htake := h.take_eq
  have hsame := h.length_eq
  rw [List.take_of_length_le (by omega), List.take_of_length_le (by omega)] at htake
  exact htake

/-- Zeros, and zeros with a one at the end. -/
theorem differInRest_zeros {len : ℕ} (hmod : len % 4 ≠ 0) :
    DifferInRest (List.replicate (len - 1) 0 ++ [0]) (List.replicate (len - 1) 0 ++ [1]) where
  length_eq := by simp
  ne heq := absurd (List.append_cancel_left heq) (by decide)
  outside j hj := by
    rw [List.length_append, List.length_replicate, List.length_singleton] at hj
    rcases Nat.lt_or_ge j (len - 1) with hlt | hge
    · rw [List.getElem?_append_left (by simpa using hlt),
        List.getElem?_append_left (by simpa using hlt)]
    · rw [List.getElem?_eq_none (by simp; omega), List.getElem?_eq_none (by simp; omega)]

/-- **What is told apart.** All keys of a length that differ in one block, or in the bytes
behind the last one, have different hashes exactly when the length is a multiple of four or
less than four. Of the others, those that differ in a block other than the first always
do, and those that differ behind the last block never. -/
theorem defaultHashFunc_separates_iff (len : ℕ) :
    ((∀ data data' : List UInt8, data.length = len →
        (∃ i, DifferInBlock data data' i) ∨ DifferInRest data data' →
        defaultHashFunc data ≠ defaultHashFunc data') ↔ len % 4 = 0 ∨ len < 4) ∧
    ∀ data data' : List UInt8, data.length = len →
      (∀ i, 1 ≤ i → DifferInBlock data data' i →
        defaultHashFunc data ≠ defaultHashFunc data') ∧
      (DifferInRest data data' → (defaultHashFunc data ≠ defaultHashFunc data' ↔ len < 4)) := by
  constructor
  · constructor
    · intro hall
      by_contra hno
      obtain ⟨hmod, hlong⟩ := not_or.mp hno
      have hrest := differInRest_zeros hmod
      have hlength : (List.replicate (len - 1) (0 : UInt8) ++ [0]).length = len := by
        rw [List.length_append, List.length_replicate, List.length_singleton]
        omega
      have hshort := hrest.hash_ne_iff.mp (hall _ _ hlength (.inr hrest))
      omega
    · intro hlen data data' hdata hdiffer
      rcases hdiffer with ⟨i, h⟩ | h
      · refine h.hash_ne (.inr ?_)
        have hi := h.1
        omega
      · have hmod := h.mod_ne_zero
        exact h.hash_ne_iff.mpr (by omega)
  · intro data data' hdata
    constructor
    · intro i hi h
      exact h.hash_ne (.inl hi)
    · intro h
      rw [← hdata]
      exact h.hash_ne_iff

/-- The fifth byte of a key of five is not read. -/
theorem hash_collision : DifferInRest [0, 0, 0, 0, 0] [0, 0, 0, 0, 1] ∧
    defaultHashFunc [0, 0, 0, 0, 0] = defaultHashFunc [0, 0, 0, 0, 1] := by
  refine ⟨⟨rfl, by decide, fun j hj => ?_⟩, by decide +kernel⟩
  match j, hj with
  | 0, _ | 1, _ | 2, _ | 3, _ | _ + 5, _ => rfl
  | 4, hj => exact absurd hj (by decide)

end Dungeon
