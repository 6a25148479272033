import Mathlib.Algebra.Group.Units.Basic
import Mathlib.Data.BitVec
import Mathlib.Data.Finset.Card
import Mathlib.Logic.Function.Basic

/-!
# Word operations that lose nothing

The steps of which mixing functions are composed, each an injection of the words of one
width, and the loop that takes a string in blocks of four.

- `mul_injective`: multiplication by a word with an inverse.
- `rotateLeft_injective`: rotation; every bit has a place of its own.
- `xorShift_injective`: exclusive or with the word's own higher bits.
- `foldBlocks`: the loop; it loses nothing of its start value when its step does not.

And sets that are kept in a word, with a mask for each member: what setting and clearing one mask
leaves of itself and of a mask that has no bit in common with it (`or_and_self`,
`or_and_of_apart`, `andNot_and_self`, `andNot_and_of_apart`), and how it changes the number of bits
(`bitCount_or_twoPow`, `bitCount_andNot_twoPow`).
-/

namespace Words

variable {w : ℕ}

/-- Multiplication by a word with an inverse. -/
theorem mul_injective {m n : BitVec w} (hinv : m * n = 1) : Function.Injective (· * m) :=
  (IsUnit.of_mul_eq_one n hinv).mul_left_injective

theorem xor_injective (m : BitVec w) : Function.Injective (· ^^^ m) :=
  fun _ _ h => (BitVec.xor_left_inj m).mp h

/-- Where a rotation puts a bit. -/
theorem getLsbD_rotateLeft_place (x : BitVec w) {r i : ℕ} (hr : r < w) (hi : i < w) :
    (x.rotateLeft r).getLsbD ((i + r) % w) = x.getLsbD i := by
  have hplace : (i + r) % w < w := Nat.mod_lt _ (by omega)
  rw [BitVec.getLsbD_rotateLeft_of_le hr]
  rcases Nat.lt_or_ge (i + r) w with hlt | hge
  · have hback : ¬ i + r < r := by omega
    rw [Nat.mod_eq_of_lt hlt, decide_eq_false hback, cond_false, Nat.add_sub_cancel,
      decide_eq_true hlt, Bool.true_and]
  · have hfront : i + r - w < r := by omega
    rw [Nat.mod_eq_sub_mod hge, Nat.mod_eq_of_lt (by omega), decide_eq_true hfront, cond_true,
      show w - r + (i + r - w) = i by omega]

theorem rotateLeft_injective {r : ℕ} (hr : r < w) :
    Function.Injective fun x : BitVec w => x.rotateLeft r := by
  intro x y h
  refine BitVec.eq_of_getLsbD_eq fun i hi => ?_
  rw [← getLsbD_rotateLeft_place x hr hi, ← getLsbD_rotateLeft_place y hr hi]
  exact congrArg (fun z : BitVec w => z.getLsbD ((i + r) % w)) h

/-- The bits come out from the highest one down: each is mixed with a higher one, which is
known already. -/
theorem xorShift_injective {s : ℕ} (hs : 0 < s) :
    Function.Injective fun x : BitVec w => x ^^^ (x >>> s) := by
  intro x y h
  have hbits (n i : ℕ) (hn : w ≤ i + n) : x.getLsbD i = y.getLsbD i := by
    induction n generalizing i with
    | zero => rw [BitVec.getLsbD_of_ge x i hn, BitVec.getLsbD_of_ge y i hn]
    | succ n ih =>
      have hhigher : x.getLsbD (s + i) = y.getLsbD (s + i) := ih (s + i) (by omega)
      have hi := congrArg (fun z : BitVec w => z.getLsbD i) h
      simp only [BitVec.getLsbD_xor, BitVec.getLsbD_ushiftRight, hhigher] at hi
      exact Bool.xor_left_inj.mp hi
  exact BitVec.eq_of_getLsbD_eq fun i _ => hbits w i (Nat.le_add_left w i)

/-! ## Blocks of four -/

section Blocks

variable {α σ : Type*} {step : σ → α → α → α → α → σ}

/-- A loop over the whole blocks of four of a list. -/
def foldBlocks (step : σ → α → α → α → α → σ) : List α → σ → σ
  | a :: b :: c :: d :: l, s => foldBlocks step l (step s a b c d)
  | _, s => s

theorem foldBlocks_cons (a b c d : α) (l : List α) (s : σ) :
    foldBlocks step (a :: b :: c :: d :: l) s = foldBlocks step l (step s a b c d) := by
  rw [foldBlocks]

/-- Less than a block is left alone. -/
theorem foldBlocks_short {l : List α} (hl : l.length < 4) (s : σ) : foldBlocks step l s = s := by
  match l, hl with
  | [], _ | [_], _ | [_, _], _ | [_, _, _], _ => rfl
  | _ :: _ :: _ :: _ :: _, hl =>
    simp only [List.length_cons] at hl
    omega

/-- Whole blocks in front come first. -/
theorem foldBlocks_append (l' : List α) : (l : List α) → (s : σ) → l.length % 4 = 0 →
    foldBlocks step (l ++ l') s = foldBlocks step l' (foldBlocks step l s)
  | a :: b :: c :: d :: l, s, hl => by
    have hrest : l.length % 4 = 0 := by
      simp only [List.length_cons] at hl
      omega
    rw [List.cons_append, List.cons_append, List.cons_append, List.cons_append, foldBlocks_cons,
      foldBlocks_cons]
    exact foldBlocks_append l' l _ hrest
  | [], _, _ => rfl
  | [_], _, hl | [_, _], _, hl | [_, _, _], _, hl => by
    simp only [List.length_cons, List.length_nil] at hl
    omega

/-- Only the whole blocks count. -/
theorem foldBlocks_take (l : List α) (s : σ) :
    foldBlocks step l s = foldBlocks step (l.take (4 * (l.length / 4))) s := by
  have hrest : (l.drop (4 * (l.length / 4))).length < 4 := by
    rw [List.length_drop]
    omega
  have hfront : (l.take (4 * (l.length / 4))).length % 4 = 0 := by
    rw [List.length_take]
    omega
  conv_lhs => rw [← List.take_append_drop (4 * (l.length / 4)) l]
  rw [foldBlocks_append _ _ _ hfront, foldBlocks_short hrest]

/-- Different start values stay different. -/
theorem foldBlocks_injective (hstep : ∀ a b c d, Function.Injective (step · a b c d)) :
    (l : List α) → Function.Injective (foldBlocks step l)
  | a :: b :: c :: d :: l => by
    intro s s' h
    rw [foldBlocks_cons, foldBlocks_cons] at h
    exact hstep a b c d (foldBlocks_injective hstep l h)
  | [] | [_] | [_, _] | [_, _, _] => fun _ _ h => h

end Blocks

/-! ## Masks -/

section Masks

variable {m m' : BitVec w}

@[simp] theorem or_and_self (x m : BitVec w) : (x ||| m) &&& m = m := by
  refine BitVec.eq_of_getLsbD_eq fun i _ => ?_
  rw [BitVec.getLsbD_and, BitVec.getLsbD_or]
  cases m.getLsbD i <;> simp

@[simp] theorem andNot_and_self (x m : BitVec w) : x &&& ~~~m &&& m = 0 := by
  rw [BitVec.and_assoc, BitVec.not_and_self]
  exact BitVec.and_zero

theorem or_and_of_apart (h : m &&& m' = 0) (x : BitVec w) : (x ||| m) &&& m' = x &&& m' := by
  rw [BitVec.and_or_distrib_right, h]
  exact BitVec.or_zero

theorem andNot_and_of_apart (h : m &&& m' = 0) (x : BitVec w) :
    x &&& ~~~m &&& m' = x &&& m' := by
  refine BitVec.eq_of_getLsbD_eq fun i hi => ?_
  have hbit : (m.getLsbD i && m'.getLsbD i) = false := by
    have hzero := congrArg (fun z : BitVec w => z.getLsbD i) h
    simpa only [BitVec.getLsbD_and, BitVec.ofNat_eq_ofNat, BitVec.getLsbD_zero] using hzero
  simp only [BitVec.getLsbD_and, BitVec.getLsbD_not, hi, decide_true, Bool.true_and]
  cases hm : m.getLsbD i with
  | false => simp
  | true =>
    rw [hm, Bool.true_and] at hbit
    simp [hbit]

/-! ## Counting bits -/

/-- The number of bits that are set. -/
def bitCount (x : BitVec w) : ℕ := ((Finset.range w).filter fun i => x.getLsbD i = true).card

theorem bitCount_or_twoPow {i : ℕ} {x : BitVec w} (hi : i < w) (hx : x.getLsbD i = false) :
    bitCount (x ||| BitVec.twoPow w i) = bitCount x + 1 := by
  have hset : (Finset.range w).filter (fun j => (x ||| BitVec.twoPow w i).getLsbD j = true)
      = insert i ((Finset.range w).filter fun j => x.getLsbD j = true) := by
    ext j
    simp only [Finset.mem_filter, Finset.mem_range, Finset.mem_insert, BitVec.getLsbD_or,
      BitVec.getLsbD_twoPow, Bool.or_eq_true, Bool.and_eq_true, decide_eq_true_eq]
    constructor
    · rintro ⟨hj, hbit | ⟨-, rfl⟩⟩
      · exact .inr ⟨hj, hbit⟩
      · exact .inl rfl
    · rintro (rfl | ⟨hj, hbit⟩)
      · exact ⟨hi, .inr ⟨hi, rfl⟩⟩
      · exact ⟨hj, .inl hbit⟩
  rw [bitCount, hset, Finset.card_insert_of_notMem, bitCount]
  simp [hx]

/-- Setting a bit that is set changes nothing. -/
theorem or_twoPow_of_set {i : ℕ} {x : BitVec w} (hx : x.getLsbD i = true) :
    x ||| BitVec.twoPow w i = x := by
  refine BitVec.eq_of_getLsbD_eq fun j _ => ?_
  rw [BitVec.getLsbD_or, BitVec.getLsbD_twoPow]
  by_cases heq : i = j
  · rw [← heq, hx, Bool.true_or]
  · rw [decide_eq_false heq, Bool.and_false, Bool.or_false]

theorem bitCount_andNot_twoPow {i : ℕ} {x : BitVec w} (hi : i < w) (hx : x.getLsbD i = true) :
    bitCount (x &&& ~~~BitVec.twoPow w i) + 1 = bitCount x := by
  have hoff : (x &&& ~~~BitVec.twoPow w i).getLsbD i = false := by simp [hi]
  rw [← bitCount_or_twoPow hi hoff]
  congr 1
  refine BitVec.eq_of_getLsbD_eq fun j hj => ?_
  by_cases heq : i = j
  · subst heq
    simp [hx, hi]
  · have hne : j ≠ i := fun h => heq h.symm
    simp [hj, hne]

end Masks

end Words
