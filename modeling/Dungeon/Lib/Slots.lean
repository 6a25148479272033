import Mathlib.Data.List.ReduceOption

/-!
# Arrays of slots

An array whose cells are occupied or free, searched from the front. What it holds is the
list of its entries in the order of the cells; up to order, filling a free cell adds an
entry and freeing a cell removes one.

- `entries`: the occupied cells.
- `findSlot p`: the first occupied cell whose entry meets `p`; it finds what `List.find?`
  finds among the entries, and no cell before it meets `p` (`findSlot_first`).
- `freeSlot`: the first free cell.
- `entries_fill`, `entries_free`: one cell changes.
-/

namespace Slots

variable {α : Type*}

/-- The entries of the occupied cells, in order. -/
def entries (l : List (Option α)) : List α := l.reduceOption

@[simp] theorem entries_nil : entries ([] : List (Option α)) = [] := rfl

@[simp] theorem entries_cons_none (l : List (Option α)) : entries (none :: l) = entries l := rfl

@[simp] theorem entries_cons_some (x : α) (l : List (Option α)) :
    entries (some x :: l) = x :: entries l := rfl

theorem mem_entries {l : List (Option α)} {x : α} : x ∈ entries l ↔ some x ∈ l :=
  List.reduceOption_mem_iff

/-- Free cells hold nothing. -/
@[simp] theorem entries_append_replicate (l : List (Option α)) (n : ℕ) :
    entries (l ++ List.replicate n none) = entries l := by
  unfold entries
  rw [List.reduceOption_append, List.reduceOption_replicate_none, List.append_nil]

@[simp] theorem entries_replicate (n : ℕ) :
    entries (List.replicate n (none : Option α)) = [] := List.reduceOption_replicate_none

theorem entries_map_some (l : List α) : entries (l.map some) = l := by
  induction l with
  | nil => rfl
  | cons x l ih => rw [List.map_cons, entries_cons_some, ih]

/-- There are as many entries as occupied cells. -/
theorem length_entries (l : List (Option α)) : (entries l).length = l.countP Option.isSome := by
  induction l with
  | nil => rfl
  | cons o l ih =>
    cases o with
    | none => exact ih.trans (List.countP_cons_of_neg Bool.false_ne_true).symm
    | some x =>
      rw [entries_cons_some, List.length_cons, ih]
      exact (List.countP_cons_of_pos rfl).symm

/-- The first occupied cell whose entry meets `p`, with its entry. -/
def findSlot (p : α → Bool) : List (Option α) → Option (ℕ × α)
  | [] => none
  | none :: l => (findSlot p l).map fun r => (r.1 + 1, r.2)
  | some x :: l => if p x then some (0, x) else (findSlot p l).map fun r => (r.1 + 1, r.2)

/-- The first free cell. -/
def freeSlot : List (Option α) → Option ℕ
  | [] => none
  | none :: _ => some 0
  | some _ :: l => (freeSlot l).map (· + 1)

/-- A search from the front finds the first entry. -/
theorem findSlot_entries (p : α → Bool) (l : List (Option α)) :
    (findSlot p l).map Prod.snd = (entries l).find? p := by
  induction l with
  | nil => rfl
  | cons o l ih =>
    cases o with
    | none =>
      rw [entries_cons_none, ← ih, findSlot, Option.map_map]
      rfl
    | some x =>
      rw [entries_cons_some, List.find?_cons, findSlot]
      cases p x with
      | true => rfl
      | false =>
        rw [← ih]
        show ((findSlot p l).map _).map _ = _
        rw [Option.map_map]
        rfl

theorem findSlot_eq_none {p : α → Bool} {l : List (Option α)} :
    findSlot p l = none ↔ ∀ x ∈ entries l, p x = false := by
  rw [← Option.map_eq_none_iff (f := Prod.snd), findSlot_entries, List.find?_eq_none]
  exact forall₂_congr fun _ _ => iff_of_eq (Bool.not_eq_true _)

/-- What a search finds is in the cell it names. -/
theorem findSlot_eq_some {p : α → Bool} {l : List (Option α)} {i : ℕ} {x : α}
    (h : findSlot p l = some (i, x)) : l[i]? = some (some x) ∧ p x = true := by
  induction l generalizing i with
  | nil => cases h
  | cons o l ih =>
    cases o with
    | none =>
      obtain ⟨⟨j, y⟩, hj, heq⟩ := Option.map_eq_some_iff.mp h
      obtain ⟨rfl, rfl⟩ := Prod.mk.inj heq
      exact ih hj
    | some y =>
      unfold findSlot at h
      split at h
      next hy =>
        obtain ⟨rfl, rfl⟩ := Prod.mk.inj (Option.some.inj h)
        exact ⟨rfl, hy⟩
      next =>
        obtain ⟨⟨j, z⟩, hj, heq⟩ := Option.map_eq_some_iff.mp h
        obtain ⟨rfl, rfl⟩ := Prod.mk.inj heq
        exact ih hj

/-- No cell before the one a search finds meets the condition. -/
theorem findSlot_first {p : α → Bool} {l : List (Option α)} {i j : ℕ} {x y : α}
    (h : findSlot p l = some (i, x)) (hj : j < i) (hy : l[j]? = some (some y)) : p y = false := by
  induction l generalizing i j with
  | nil => cases h
  | cons o l ih =>
    cases o with
    | none =>
      obtain ⟨⟨k, z⟩, hk, heq⟩ := Option.map_eq_some_iff.mp h
      obtain ⟨rfl, rfl⟩ := Prod.mk.inj heq
      cases j with
      | zero => cases hy
      | succ j => exact ih hk (Nat.lt_of_succ_lt_succ hj) hy
    | some z =>
      unfold findSlot at h
      split at h
      next =>
        obtain ⟨rfl, rfl⟩ := Prod.mk.inj (Option.some.inj h)
        exact absurd hj (Nat.not_lt_zero j)
      next hz =>
        obtain ⟨⟨k, w⟩, hk, heq⟩ := Option.map_eq_some_iff.mp h
        obtain ⟨rfl, rfl⟩ := Prod.mk.inj heq
        cases j with
        | zero =>
          obtain rfl := Option.some.inj (Option.some.inj hy)
          exact eq_false_of_ne_true hz
        | succ j => exact ih hk (Nat.lt_of_succ_lt_succ hj) hy

theorem freeSlot_eq_some {l : List (Option α)} {i : ℕ} (h : freeSlot l = some i) :
    l[i]? = some none := by
  induction l generalizing i with
  | nil => cases h
  | cons o l ih =>
    cases o with
    | none =>
      obtain rfl := Option.some.inj h
      rfl
    | some x =>
      obtain ⟨j, hj, rfl⟩ := Option.map_eq_some_iff.mp h
      exact ih hj

/-- Filling a free cell adds its entry. -/
theorem entries_fill {l : List (Option α)} {i : ℕ} (h : l[i]? = some none) (x : α) :
    (entries (l.set i (some x))).Perm (x :: entries l) := by
  induction l generalizing i with
  | nil => cases h
  | cons o l ih =>
    cases i with
    | zero =>
      obtain rfl := Option.some.inj h
      exact List.Perm.refl _
    | succ i =>
      have hrest := ih (i := i) h
      cases o with
      | none => exact hrest
      | some y =>
        rw [List.set_cons_succ, entries_cons_some, entries_cons_some]
        exact (hrest.cons y).trans (List.Perm.swap x y _)

/-- Freeing an occupied cell removes its entry. -/
theorem entries_free {l : List (Option α)} {i : ℕ} {x : α} (h : l[i]? = some (some x)) :
    (entries l).Perm (x :: entries (l.set i none)) := by
  induction l generalizing i with
  | nil => cases h
  | cons o l ih =>
    cases i with
    | zero =>
      obtain rfl := Option.some.inj h
      exact List.Perm.refl _
    | succ i =>
      have hrest := ih (i := i) h
      cases o with
      | none => exact hrest
      | some y =>
        rw [List.set_cons_succ, entries_cons_some, entries_cons_some]
        exact (hrest.cons y).trans (List.Perm.swap x y _)

/-! ## Arrays filled from the front -/

/-- The first free cell lies behind the entries. -/
theorem freeSlot_dense (l : List α) (n : ℕ) :
    freeSlot (l.map some ++ List.replicate n none) = if n = 0 then none else some l.length := by
  induction l with
  | nil =>
    cases n with
    | zero => rfl
    | succ n => rfl
  | cons x l ih =>
    rw [List.map_cons, List.cons_append, freeSlot, ih]
    split <;> rfl

/-- Filling the first free cell of an array filled from the front. -/
theorem set_dense (l : List α) (n : ℕ) (x : α) :
    (l.map some ++ List.replicate (n + 1) none).set l.length (some x)
      = (l ++ [x]).map some ++ List.replicate n none := by
  induction l with
  | nil => rfl
  | cons y l ih =>
    rw [List.map_cons, List.cons_append, List.length_cons, List.set_cons_succ, ih]
    rfl

/-- As many cells from the front as there are entries: they are the entries unless one of
them is free. -/
theorem take_entries {l : List (Option α)} (h : none ∉ l.take (entries l).length) :
    l.take (entries l).length = (entries l).map some := by
  have hfront : ∀ {l : List (Option α)}, none ∉ l → l = (entries l).map some := by
    intro l hl
    induction l with
    | nil => rfl
    | cons o l ih =>
      cases o with
      | none => exact absurd List.mem_cons_self hl
      | some x =>
        rw [entries_cons_some, List.map_cons, ← ih fun hmem => hl (List.mem_cons_of_mem _ hmem)]
  have hle : (entries l).length ≤ l.length := List.reduceOption_length_le l
  have htake := hfront h
  -- no entry is left for the other cells
  have hsplit : entries l = entries (l.take (entries l).length)
      ++ entries (l.drop (entries l).length) := by
    unfold entries
    rw [← List.reduceOption_append, List.take_append_drop]
  have hcount := congrArg List.length htake
  rw [List.length_map, List.length_take, Nat.min_eq_left hle] at hcount
  have hrest := congrArg List.length hsplit
  rw [List.length_append, ← hcount] at hrest
  have hnil : entries (l.drop (entries l).length) = [] :=
    List.eq_nil_of_length_eq_zero (by omega)
  rw [hnil, List.append_nil] at hsplit
  rw [htake, ← hsplit]

end Slots
