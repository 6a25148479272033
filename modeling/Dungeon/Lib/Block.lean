import Mathlib.Data.Vector.Defs
import Mathlib.Data.List.TakeDrop

/-!
# Blocks of memory

An array of fixed length that is written from its start and read anywhere, as buffers of
system calls are.

- `store`: a list written over the start of a block; what does not fit is lost.
- `fetch`: the cells from a position on.
- `fetch_store`: what was stored is fetched; `fetch_split`: a fetch in two parts.
-/

namespace Block

variable {α : Type*} {n : ℕ}

/-- `xs` over the start of the block. -/
def store (b : List.Vector α n) (xs : List α) : List.Vector α n :=
  ⟨xs.take n ++ b.1.drop xs.length, by
    have hlen : b.1.length = n := b.2
    rw [List.length_append, List.length_take, List.length_drop, hlen]
    omega⟩

/-- The `len` cells from `pos` on. -/
def fetch (b : List.Vector α n) (pos len : ℕ) : List α := (b.1.drop pos).take len

variable (b : List.Vector α n)

theorem length_fetch {pos len : ℕ} (h : pos + len ≤ n) : (fetch b pos len).length = len := by
  have hlen : b.1.length = n := b.2
  rw [fetch, List.length_take, List.length_drop, hlen]
  omega

@[simp] theorem fetch_zero (pos : ℕ) : fetch b pos 0 = [] := List.take_zero

/-- What was stored is there. -/
theorem fetch_store {xs ys : List α} (h : (xs ++ ys).length ≤ n) :
    fetch (store b (xs ++ ys)) 0 xs.length = xs := by
  show (((xs ++ ys).take n ++ b.1.drop (xs ++ ys).length).drop 0).take xs.length = xs
  rw [List.drop_zero, List.take_of_length_le h, List.append_assoc, List.take_left]

/-- The first part of a fetch, then the rest. -/
theorem fetch_split (pos k len : ℕ) :
    (fetch b pos len).take k ++ fetch b (pos + k) (len - k) = fetch b pos len := by
  have hrest : fetch b (pos + k) (len - k) = (fetch b pos len).drop k := by
    unfold fetch
    rw [List.drop_take, List.drop_drop]
  rw [hrest, List.take_append_drop]

end Block
