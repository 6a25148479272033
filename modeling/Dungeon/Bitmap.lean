import Mathlib.Data.List.Basic
import Dungeon.Lib.Words

/-!
# The bitmap (`ds_bmap.c`, `ds_bmap.h`)

Words of 64 bits, and for each index a mask in its word. The mask is made by shifting the literal
`1`, an `int`, and converted to 64 bits afterwards.

- `shiftOne`: `1 << k` on `int`. There is no result from 32 on; what `1 << 31` is depends on the
  compiler (`SignShift`).
- `bitmapNew`, `bitmapSet`, `bitmapUnset`, `bitmapIsset`: `none` where a word outside the
  allocation would be accessed, or a shift has no result.
- `Holds`: each mask is in its word or is not, by the last call for its index. The masks that have
  a result are apart (`masks_apart`), so every call keeps that.
- `bitmap_isset_iff`: the bitmap is a set exactly on the indices whose shift has a result.
-/

namespace Dungeon

/-- What a compiler makes of `1 << 31`, which the language does not define. -/
inductive SignShift where
  /-- nothing to rely on -/
  | undefined
  /-- the least `int` -/
  | wraps
deriving DecidableEq

/-- `1 << k`, on `int`. -/
def shiftOne (c : SignShift) (k : ℕ) : Option (BitVec 32) :=
  if k < 31 then some (1 <<< k)
  else if k = 31 then
    match c with
    | .undefined => none
    | .wraps => some (BitVec.intMin 32)
  else none

/-- `bitmap_t`. -/
structure Bitmap where
  size : ℕ
  bitsize : ℕ
  data : List (BitVec 64)

/-- `BMAP_MAXBITS`. -/
def bmapMaxbits : ℕ := 1024 * 1024 * 1024

/-- The number of bits that `bitmap_new` makes room for. -/
def roundUp (bitsize : ℕ) : ℕ :=
  (if bitsize % 64 ≠ 0 then bitsize / 64 + 1 else bitsize / 64) * 64

/-- `bitmap_new`. -/
def bitmapNew (bitsize : ℕ) (malloc : Bool) : Option Bitmap :=
  if bitsize > bmapMaxbits then none
  else if malloc then
    some { bitsize := roundUp bitsize
           size := roundUp bitsize / 8
           data := List.replicate (roundUp bitsize / 8 / 8) 0 }
  else none

/-- `data[i]` is replaced, if there is one. -/
def Bitmap.modify (my : Bitmap) (i : ℕ) (f : BitVec 64 → BitVec 64) : Option Bitmap :=
  my.data[i]?.map fun word => { my with data := my.data.set i (f word) }

/-- `bitmap_set`: `data[n/64] |= 1<<(n%64)`. -/
def bitmapSet (c : SignShift) (my : Bitmap) (n : ℕ) : Option Bitmap :=
  (shiftOne c (n % 64)).bind fun m => my.modify (n / 64) (· ||| m.signExtend 64)

/-- `bitmap_unset`: `data[n/64] &= ~(1<<(n%64))`. -/
def bitmapUnset (c : SignShift) (my : Bitmap) (n : ℕ) : Option Bitmap :=
  (shiftOne c (n % 64)).bind fun m => my.modify (n / 64) (· &&& (~~~m).signExtend 64)

/-- `bitmap_isset`: `data[n/64] & 1<<(n%64)`. -/
def bitmapIsset (c : SignShift) (my : Bitmap) (n : ℕ) : Option (BitVec 64) :=
  (shiftOne c (n % 64)).bind fun m => my.data[n / 64]?.map (· &&& m.signExtend 64)

/-- A call that changes the bitmap. -/
inductive BitOp where
  | set (n : ℕ)
  | unset (n : ℕ)
deriving DecidableEq

namespace BitOp

def index : BitOp → ℕ
  | .set n => n
  | .unset n => n

def apply (c : SignShift) (my : Bitmap) : BitOp → Option Bitmap
  | .set n => bitmapSet c my n
  | .unset n => bitmapUnset c my n

end BitOp

namespace Bitmap

/-- A sequence of calls. -/
def run (c : SignShift) (my : Bitmap) (ops : List BitOp) : Option Bitmap :=
  ops.foldlM (BitOp.apply c) my

/-- The last call for the index `k` was `bitmap_set`. -/
def LastSet (ops : List BitOp) (k : ℕ) : Prop :=
  (ops.filter fun op => op.index = k).getLast? = some (.set k)

instance (ops : List BitOp) (k : ℕ) : Decidable (LastSet ops k) :=
  inferInstanceAs (Decidable (_ = _))

/-- The mask of the `n`th bit has a value. -/
def Shiftable (c : SignShift) (n : ℕ) : Prop := n % 64 < 31 ∨ n % 64 = 31 ∧ c = .wraps

instance (c : SignShift) (n : ℕ) : Decidable (Shiftable c n) :=
  inferInstanceAs (Decidable (_ ∨ _))

/-- On a bitmap for `bitsize` bits the calls stay inside the allocation, and `bitmap_isset` tells
afterwards whether the last one for `k` set it. -/
def IsSetAfter (c : SignShift) (bitsize : ℕ) (ops : List BitOp) (k : ℕ) : Prop :=
  ∃ new my bits, bitmapNew bitsize true = some new ∧ new.run c ops = some my ∧
    bitmapIsset c my k = some bits ∧ (bits ≠ 0 ↔ LastSet ops k)

variable {c : SignShift} {my my' : Bitmap} {ops : List BitOp} {op : BitOp} {bitsize words n k : ℕ}
  {m m' : BitVec 32}

/-! ## Masks -/

theorem shiftOne_isSome : (∃ m, shiftOne c (n % 64) = some m) ↔ Shiftable c n := by
  unfold shiftOne Shiftable
  by_cases hlt : n % 64 < 31
  · simp [hlt]
  · by_cases heq : n % 64 = 31
    · cases c <;> simp [heq]
    · simp [hlt, heq]

/-- The masks there can be: one bit each, and from the 31st bit on all of them for the last. -/
def maskOf (k : ℕ) : BitVec 64 :=
  (if k < 31 then 1 <<< k else BitVec.intMin 32 : BitVec 32).signExtend 64

theorem mask_eq (h : shiftOne c k = some m) : k < 32 ∧ m.signExtend 64 = maskOf k := by
  unfold shiftOne at h
  unfold maskOf
  split at h
  next hlt =>
    obtain rfl := Option.some.inj h
    exact ⟨by omega, by rw [if_pos hlt]⟩
  next hge =>
    split at h
    next heq =>
      cases c with
      | undefined => cases h
      | wraps =>
        obtain rfl := Option.some.inj h
        exact ⟨by omega, by rw [if_neg hge]⟩
    next => cases h

theorem mask_ne_zero (h : shiftOne c k = some m) : m.signExtend 64 ≠ 0 := by
  obtain ⟨hlt, hmask⟩ := mask_eq h
  rw [hmask]
  exact (by decide : ∀ k < 32, maskOf k ≠ 0) k hlt

/-- **Masks of two indices of a word** have no bit in common. -/
theorem masks_apart (h : shiftOne c n = some m) (h' : shiftOne c k = some m') (hne : n ≠ k) :
    m.signExtend 64 &&& m'.signExtend 64 = 0 := by
  obtain ⟨hlt, hmask⟩ := mask_eq h
  obtain ⟨hlt', hmask'⟩ := mask_eq h'
  rw [hmask, hmask']
  exact (by decide +kernel : ∀ n < 32, ∀ k < 32, n ≠ k → maskOf n &&& maskOf k = 0)
    n hlt k hlt' hne

/-! ## Calls -/

theorem lastSet_nil : ¬ LastSet [] k := Option.some_ne_none _ ∘ Eq.symm

/-- A further call decides for its own index. -/
theorem lastSet_concat_self : LastSet (ops ++ [op]) op.index ↔ op = .set op.index := by
  simp [LastSet]

theorem lastSet_concat_of_ne (hne : op.index ≠ k) : LastSet (ops ++ [op]) k ↔ LastSet ops k := by
  simp [LastSet, hne]

/-- Each index finds its mask in its word, or nothing of it, by the last call for it. -/
structure Holds (c : SignShift) (words : ℕ) (ops : List BitOp) (my : Bitmap) : Prop where
  length : my.data.length = words
  bits : ∀ k < words * 64, ∀ m, shiftOne c (k % 64) = some m →
    ∃ word, my.data[k / 64]? = some word ∧
      word &&& m.signExtend 64 = if LastSet ops k then m.signExtend 64 else 0

/-- Nothing is set in a new bitmap. -/
theorem holds_new (hsize : bitsize ≤ bmapMaxbits) :
    ∃ new, bitmapNew bitsize true = some new ∧ Holds c (roundUp bitsize / 64) [] new := by
  refine ⟨_, if_neg (Nat.not_lt.mpr hsize), ?_, fun k hk m _ => ?_⟩
  · show (List.replicate _ _).length = _
    rw [List.length_replicate, Nat.div_div_eq_div_mul]
  · refine ⟨0, ?_, ?_⟩
    · show (List.replicate _ _)[k / 64]? = _
      rw [List.getElem?_replicate_of_lt]
      rw [Nat.div_div_eq_div_mul]
      omega
    · rw [if_neg lastSet_nil]
      exact BitVec.zero_and

/-- What a call does to the word of its index. -/
def wordAfter (op : BitOp) (mask word : BitVec 64) : BitVec 64 :=
  match op with
  | .set _ => word ||| mask
  | .unset _ => word &&& ~~~mask

theorem apply_eq : op.apply c my = (shiftOne c (op.index % 64)).bind fun m =>
    my.modify (op.index / 64) (wordAfter op (m.signExtend 64)) := by
  cases op with
  | set n => rfl
  | unset n =>
    have hnot (m : BitVec 32) : (~~~m).signExtend 64 = ~~~m.signExtend 64 :=
      BitVec.signExtend_not (by decide)
    simp only [BitOp.apply, bitmapUnset, hnot]
    rfl

theorem apply_eq_none (h : ¬ Shiftable c op.index) : op.apply c my = none := by
  have hnone : shiftOne c (op.index % 64) = none := by
    rw [← shiftOne_isSome] at h
    exact Option.eq_none_iff_forall_ne_some.mpr fun m hm => h ⟨m, hm⟩
  rw [apply_eq, hnone, Option.bind_none]

theorem wordAfter_self (op : BitOp) (mask word : BitVec 64) :
    wordAfter op mask word &&& mask = if op = .set op.index then mask else 0 := by
  cases op with
  | set n => simp [wordAfter, BitOp.index]
  | unset n => simp [wordAfter]

theorem wordAfter_of_apart {mask mask' : BitVec 64} (h : mask &&& mask' = 0) (op : BitOp)
    (word : BitVec 64) : wordAfter op mask word &&& mask' = word &&& mask' := by
  cases op with
  | set n => exact Words.or_and_of_apart h word
  | unset n => exact Words.andNot_and_of_apart h word

/-- **One call** decides for its index, and changes nothing for the others. -/
theorem Holds.apply (h : Holds c words ops my) (hop : op.index < words * 64)
    (hshift : Shiftable c op.index) :
    ∃ my', op.apply c my = some my' ∧ Holds c words (ops ++ [op]) my' := by
  obtain ⟨m, hm⟩ := shiftOne_isSome.mpr hshift
  obtain ⟨word, hword, -⟩ := h.bits op.index hop m hm
  obtain ⟨hlt, -⟩ := List.getElem?_eq_some_iff.mp hword
  have happly : op.apply c my = some { my with
      data := my.data.set (op.index / 64) (wordAfter op (m.signExtend 64) word) } := by
    rw [apply_eq, hm, Option.bind_some, modify, hword]
    rfl
  refine ⟨_, happly, ?_, fun k hk m' hm' => ?_⟩
  · exact List.length_set.trans h.length
  · obtain ⟨word', hword', hbit⟩ := h.bits k hk m' hm'
    show ∃ w, (my.data.set _ _)[k / 64]? = some w ∧ _
    by_cases hself : op.index = k
    · subst hself
      obtain rfl := Option.some.inj (hm.symm.trans hm')
      refine ⟨_, List.getElem?_set_self hlt, ?_⟩
      rw [wordAfter_self]
      simp only [lastSet_concat_self]
    · simp only [lastSet_concat_of_ne hself, ← hbit]
      by_cases hplace : op.index / 64 = k / 64
      · rw [← hplace] at hword' ⊢
        obtain rfl := Option.some.inj (hword.symm.trans hword')
        exact ⟨_, List.getElem?_set_self hlt,
          wordAfter_of_apart (masks_apart hm hm' (by omega)) op word⟩
      · exact ⟨word', (List.getElem?_set_ne hplace).trans hword', rfl⟩

/-! ## Runs -/

theorem run_concat : my.run c (ops ++ [op]) = (my.run c ops).bind (BitOp.apply c · op) := by
  simp [run, List.foldlM_append]

/-- **A sequence of calls** has a result just when every shift has one, and then the bitmap holds
what the calls say. -/
theorem Holds.run (h : Holds c words [] my) (hops : ∀ op ∈ ops, op.index < words * 64) :
    ((∀ op ∈ ops, Shiftable c op.index) → ∃ my', my.run c ops = some my' ∧ Holds c words ops my') ∧
      (¬ (∀ op ∈ ops, Shiftable c op.index) → my.run c ops = none) := by
  induction ops using List.reverseRecOn with
  | nil => exact ⟨fun _ => ⟨my, rfl, h⟩, fun hnot => absurd nofun hnot⟩
  | append_singleton ops op ih =>
    obtain ⟨hbefore, hop⟩ := List.forall_mem_append.mp hops
    have hop := hop op List.mem_cons_self
    obtain ⟨hdone, hstuck⟩ := ih hbefore
    simp only [run_concat, List.forall_mem_append, List.forall_mem_singleton]
    by_cases hall : ∀ op ∈ ops, Shiftable c op.index
    · obtain ⟨my₁, hrun, hholds⟩ := hdone hall
      rw [hrun, Option.bind_some]
      refine ⟨fun hshift => hholds.apply hop hshift.2, fun hnot => apply_eq_none fun hshift => ?_⟩
      exact hnot ⟨hall, hshift⟩
    · rw [hstuck hall]
      exact ⟨fun hshift => absurd hshift.1 hall, fun _ => rfl⟩

/-- **Where the bitmap is a set of indices.** For every size, every sequence of calls and every
index, all of them within the size rounded up: no call leaves the allocation, and the index is in
the bitmap afterwards just when the last call for it set it, exactly when the shifts for the calls
and for the index have results. -/
theorem bitmap_isset_iff (c : SignShift) (hsize : bitsize ≤ bmapMaxbits)
    (hops : ∀ op ∈ ops, op.index < roundUp bitsize) (hk : k < roundUp bitsize) :
    IsSetAfter c bitsize ops k ↔ (∀ op ∈ ops, Shiftable c op.index) ∧ Shiftable c k := by
  have hround : roundUp bitsize / 64 * 64 = roundUp bitsize :=
    Nat.div_mul_cancel ⟨_, Nat.mul_comm ..⟩
  obtain ⟨new, hnew, hholds⟩ := holds_new (c := c) hsize
  have hin : ∀ op ∈ ops, op.index < roundUp bitsize / 64 * 64 := by rwa [hround]
  obtain ⟨hdone, hstuck⟩ := hholds.run hin
  constructor
  · rintro ⟨new', my, bits, hnew', hrun, hisset, -⟩
    obtain rfl := Option.some.inj (hnew.symm.trans hnew')
    obtain ⟨m, hm, -⟩ := Option.bind_eq_some_iff.mp hisset
    refine ⟨?_, shiftOne_isSome.mp ⟨m, hm⟩⟩
    by_contra hnot
    rw [hstuck hnot] at hrun
    cases hrun
  · rintro ⟨hall, hshift⟩
    obtain ⟨my, hrun, hmy⟩ := hdone hall
    obtain ⟨m, hm⟩ := shiftOne_isSome.mpr hshift
    obtain ⟨word, hword, hbit⟩ := hmy.bits k (by rwa [hround]) m hm
    refine ⟨new, my, word &&& m.signExtend 64, hnew, hrun, ?_, ?_⟩
    · rw [bitmapIsset, hm, Option.bind_some, hword]
      rfl
    · rw [hbit]
      by_cases hlast : LastSet ops k
      · rw [if_pos hlast]
        exact iff_of_true (mask_ne_zero hm) hlast
      · rw [if_neg hlast]
        exact iff_of_false (not_not.mpr rfl) hlast

/-- Two words, the last index with a mask of its own, and one that is taken out again. -/
theorem bitmap_isset_twoWords : IsSetAfter .undefined 65 [.set 94, .set 3, .unset 3] 94 ∧
    IsSetAfter .undefined 65 [.set 94, .set 3, .unset 3] 3 :=
  ⟨(bitmap_isset_iff .undefined (by decide) (by decide) (by decide)).mpr (by decide),
    (bitmap_isset_iff .undefined (by decide) (by decide) (by decide)).mpr (by decide)⟩

/-- Whatever the compiler, the 40th bit has no mask. And where the sign bit has one, it is that of
all bits from there on. -/
theorem bitmap_shift_undefined : (∀ c, ¬ IsSetAfter c 64 [.set 40] 40) ∧
    ∃ new my, bitmapNew 64 true = some new ∧ new.run .wraps [.set 31] = some my ∧
      my.data = [0xffffffff80000000] := by
  refine ⟨fun c => ?_, _, _, rfl, rfl, by decide⟩
  rintro ⟨new, my, bits, -, -, hisset, -⟩
  obtain ⟨m, hm, -⟩ := Option.bind_eq_some_iff.mp hisset
  cases c <;> exact Option.some_ne_none m hm.symm

end Bitmap

end Dungeon
