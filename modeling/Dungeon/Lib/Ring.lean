import Mathlib.Data.List.Basic
import Mathlib.Logic.Function.Basic

/-!
# Circular buffers as lists

The content of a circular buffer of `cap` cells, read from `head`, as a list.
Cells are a total function of their index, so memory outside the ring may hold
anything.

- `slot cap head k`: the cell `k` places after `head`, with one comparison in
  place of a division; `slot_eq_mod` is the textbook form. `mod_inj`: the cells of a
  round differ.
- `contents cells cap head n`: the `n` cells from `head` on, in order.
- `contents_push` / `contents_pop`: writing the first free cell appends, moving
  the head on drops the first element.
- `mem_contents_of_le` / `mem_contents_of_wrapped`: what is stored, told by plain
  index ranges, for the two shapes an occupied part can have.
-/

namespace Ring

variable {α : Type*}

/-- The cell `k` places after `head` in a ring of `cap` cells. -/
def slot (cap head k : ℕ) : ℕ :=
  if head + k < cap then head + k else head + k - cap

theorem slot_lt {cap head k : ℕ} (hhead : head < cap) (hk : k ≤ cap) :
    slot cap head k < cap := by
  unfold slot
  split <;> omega

theorem slot_zero {cap head : ℕ} (hhead : head < cap) : slot cap head 0 = head := by
  unfold slot
  rw [if_pos (by omega)]
  omega

/-- Different places are different cells. -/
theorem slot_inj {cap head j k : ℕ} (hj : j < cap) (hk : k < cap)
    (h : slot cap head j = slot cap head k) : j = k := by
  unfold slot at h
  split at h <;> split at h <;> omega

/-- Moving the head on by one shifts every place by one. -/
theorem slot_slot_one {cap head k : ℕ} (hhead : head < cap) (hk : k + 1 ≤ cap) :
    slot cap (slot cap head 1) k = slot cap head (k + 1) := by
  unfold slot
  split <;> split <;> split <;> omega

/-- The place after the `k`-th one. -/
theorem slot_one_slot {cap head k : ℕ} (hhead : head < cap) (hk : k < cap) :
    slot cap (slot cap head k) 1 = slot cap head (k + 1) := by
  unfold slot
  split <;> split <;> split <;> omega

theorem slot_eq_mod {cap head k : ℕ} (hhead : head < cap) (hk : k ≤ cap) :
    slot cap head k = (head + k) % cap := by
  unfold slot
  split
  next hlt => exact (Nat.mod_eq_of_lt hlt).symm
  next hge =>
    have hlt : head + k - cap < cap := by omega
    rw [← Nat.mod_eq_of_lt hlt]
    exact (Nat.mod_eq_sub_mod (by omega)).symm

/-- Among counts less than a round apart, those of one cell are equal. -/
theorem mod_inj {cap m n : ℕ} (hle : m ≤ n) (hlt : n < m + cap) (h : m % cap = n % cap) :
    m = n := by
  have hzero : (n - m) % cap = 0 := Nat.sub_mod_eq_zero_of_mod_eq h.symm
  rw [Nat.mod_eq_of_lt (by omega)] at hzero
  omega

/-- The `n` cells from `head` on, oldest first. -/
def contents (cells : ℕ → α) (cap head n : ℕ) : List α :=
  (List.range n).map fun k => cells (slot cap head k)

@[simp] theorem contents_length (cells : ℕ → α) (cap head n : ℕ) :
    (contents cells cap head n).length = n := by
  simp [contents]

@[simp] theorem contents_zero (cells : ℕ → α) (cap head : ℕ) :
    contents cells cap head 0 = [] := rfl

/-- Only the cells of the ring are read. -/
theorem contents_congr {cells cells' : ℕ → α} {cap head n : ℕ} (hhead : head < cap)
    (hn : n ≤ cap) (h : ∀ i < cap, cells' i = cells i) :
    contents cells' cap head n = contents cells cap head n := by
  refine List.map_congr_left fun k hk => ?_
  have hk' : k < n := List.mem_range.mp hk
  exact h _ (slot_lt hhead (by omega))

/-- Writing the first free cell appends to the content. -/
theorem contents_push (cells : ℕ → α) {cap head n : ℕ} (hn : n < cap) (x : α) :
    contents (Function.update cells (slot cap head n) x) cap head (n + 1)
      = contents cells cap head n ++ [x] := by
  unfold contents
  rw [List.range_succ, List.map_append, List.map_singleton, Function.update_self]
  congr 1
  refine List.map_congr_left fun k hk => ?_
  have hk' : k < n := List.mem_range.mp hk
  rw [Function.update_of_ne]
  intro heq
  have := slot_inj (by omega) hn heq
  omega

/-- Moving the head on drops the oldest element. -/
theorem contents_pop (cells : ℕ → α) {cap head n : ℕ} (hhead : head < cap) (hn : n + 1 ≤ cap) :
    contents cells cap head (n + 1)
      = cells head :: contents cells cap (slot cap head 1) n := by
  unfold contents
  rw [List.range_succ_eq_map, List.map_cons, slot_zero hhead, List.map_map]
  congr 1
  refine List.map_congr_left fun k hk => ?_
  have hk' : k < n := List.mem_range.mp hk
  show cells (slot cap head (k + 1)) = cells (slot cap (slot cap head 1) k)
  rw [slot_slot_one hhead (by omega)]

theorem mem_contents {cells : ℕ → α} {cap head n : ℕ} {x : α} :
    x ∈ contents cells cap head n ↔ ∃ k < n, cells (slot cap head k) = x := by
  simp [contents]

/-- Content of a ring whose occupied part does not wrap: one index range. -/
theorem mem_contents_of_le {cells : ℕ → α} {cap head tail n : ℕ} {x : α}
    (htail : tail = slot cap head n) (hn : n < cap) (hle : head ≤ tail) :
    x ∈ contents cells cap head n ↔ ∃ i, head ≤ i ∧ i < tail ∧ cells i = x := by
  rw [mem_contents]
  subst htail
  unfold slot at hle ⊢
  split at hle
  next hlt =>
    rw [if_pos hlt]
    constructor
    · rintro ⟨k, hk, hx⟩
      rw [if_pos (by omega)] at hx
      exact ⟨head + k, by omega, by omega, hx⟩
    · rintro ⟨i, hi, hi', hx⟩
      refine ⟨i - head, by omega, ?_⟩
      rw [if_pos (by omega), Nat.add_sub_cancel' hi]
      exact hx
  next hge => exact absurd hle (by omega)

/-- Content of a ring whose occupied part wraps: the cells from `head` to the end
and those before `tail`. -/
theorem mem_contents_of_wrapped {cells : ℕ → α} {cap head tail n : ℕ} {x : α}
    (hhead : head < cap) (htail : tail = slot cap head n) (hn : n < cap) (hlt : tail < head) :
    x ∈ contents cells cap head n ↔
      ∃ i, ((head ≤ i ∧ i < cap) ∨ i < tail) ∧ cells i = x := by
  rw [mem_contents]
  subst htail
  unfold slot at hlt ⊢
  split at hlt
  next hnw => exact absurd hlt (by omega)
  next hw =>
    rw [if_neg hw]
    constructor
    · rintro ⟨k, hk, hx⟩
      refine ⟨_, ?_, hx⟩
      split <;> omega
    · rintro ⟨i, hi, hx⟩
      rcases hi with ⟨hi, hi'⟩ | hi
      · refine ⟨i - head, by omega, ?_⟩
        rw [if_pos (by omega), Nat.add_sub_cancel' hi]
        exact hx
      · refine ⟨i + cap - head, by omega, ?_⟩
        rw [if_neg (by omega), show head + (i + cap - head) - cap = i by omega]
        exact hx

end Ring
