import Mathlib.Algebra.Order.Ring.Int
import Mathlib.Data.List.Basic

/-!
# The linked list (`ds_llist.c`)

A bounded list of pointers under one mutex and one condition variable.

- `Llist`: `struct llist_st` without its lock. The ring of nodes around the dumb node
  is the list of their `ptr` fields, in the order of `next`; the number `nr_nodes` is
  a field of its own, which the operations keep by hand.
- The `_unlocked` functions as the code computes them, and the calls around them. A
  blocking call is `none` where it would wait; a non-blocking one takes the outcome
  `lock` of its `pthread_mutex_trylock`. Return codes below zero are errors.
- `Llist.Bounded`: the list is no longer than `nr_nodes`, which is at most the volume;
  every operation keeps it. `Llist.Exact`: `nr_nodes` is the length. Every operation but
  `llist_fetch_match` keeps that: it links the dumb node to what follows the match, so
  the elements before the match go as well, but `nr_nodes` drops by one.
-/

namespace Dungeon

variable {α : Type}

/-- `struct llist_st`. `nr_nodes` and `volume` are plain `int`s. -/
structure Llist (α : Type) where
  nrNodes : ℤ
  volume : ℤ
  nodes : List α
  deriving DecidableEq

/-- `llist_new`. -/
def llistNew (max : ℤ) : Llist α where
  nrNodes := 0
  volume := max
  nodes := []

/-- `llist_append_unlocked`: a return code and the list; `malloc` is the outcome of the
allocation of a node. -/
def llistAppendUnlocked (ll : Llist α) (data : α) (malloc : Bool) : ℤ × Llist α :=
  if ll.nrNodes < ll.volume then
    if malloc then
      (0, { ll with nodes := ll.nodes ++ [data], nrNodes := ll.nrNodes + 1 })
    else (-1, ll)
  else (-1, ll)

/-- `llist_append`: waits while the list is full. -/
def llistAppend (ll : Llist α) (data : α) (malloc : Bool) : Option (ℤ × Llist α) :=
  if ll.nrNodes ≥ ll.volume then none else some (llistAppendUnlocked ll data malloc)

/-- `llist_append_nb`. -/
def llistAppendNb (ll : Llist α) (data : α) (lock malloc : Bool) : ℤ × Llist α :=
  if lock then llistAppendUnlocked ll data malloc else (-2, ll)

/-- `llist_get_head_unlocked`. -/
def llistGetHeadUnlocked (ll : Llist α) : Except ℤ α :=
  if ll.nrNodes ≤ 0 then .error (-1)
  else
    match ll.nodes with
    | [] => .error (-1)
    | data :: _ => .ok data

/-- `llist_get_head`: waits while `nr_nodes` is zero. -/
def llistGetHead (ll : Llist α) : Option (Except ℤ α) :=
  if ll.nrNodes ≤ 0 then none else some (llistGetHeadUnlocked ll)

/-- `llist_get_head_nb`. -/
def llistGetHeadNb (ll : Llist α) (lock : Bool) : Except ℤ α :=
  if lock then llistGetHeadUnlocked ll else .error (-2)

/-- `llist_get_head_node_unlocked`; a node is its place in the list. -/
def llistGetHeadNodeUnlocked (ll : Llist α) : Except ℤ ℕ :=
  if ll.nrNodes ≤ 0 then .error (-1)
  else
    match ll.nodes with
    | [] => .error (-1)
    | _ :: _ => .ok 0

/-- `llist_get_head_node_nb`. -/
def llistGetHeadNodeNb (ll : Llist α) (lock : Bool) : Except ℤ ℕ :=
  if lock then llistGetHeadNodeUnlocked ll else .error (-2)

/-- `llist_get_next_unlocked`. -/
def llistGetNextUnlocked (ll : Llist α) (ptr : ℕ) : Option ℕ :=
  if ptr + 1 = ll.nodes.length then none else some (ptr + 1)

/-- `llist_get_next_nb`. -/
def llistGetNextNb (ll : Llist α) (ptr : ℕ) (lock : Bool) : Option ℕ :=
  if lock then llistGetNextUnlocked ll ptr else none

/-- `llist_fetch_head_unlocked`: the element and the list without it. -/
def llistFetchHeadUnlocked (ll : Llist α) : Except ℤ (α × Llist α) :=
  if ll.nrNodes ≤ 0 then .error (-1)
  else
    match ll.nodes with
    | [] => .error (-1)
    | data :: nodes => .ok (data, { ll with nodes := nodes, nrNodes := ll.nrNodes - 1 })

/-- `llist_fetch_head`: waits while `nr_nodes` is zero. -/
def llistFetchHead (ll : Llist α) : Option (Except ℤ (α × Llist α)) :=
  if ll.nrNodes ≤ 0 then none else some (llistFetchHeadUnlocked ll)

/-- `llist_fetch_head_nb`. -/
def llistFetchHeadNb (ll : Llist α) (lock : Bool) : Except ℤ (α × Llist α) :=
  if lock then llistFetchHeadUnlocked ll else .error (-2)

/-- `llist_fetch_match_unlocked`, with the matcher the caller gave or `match_ptr` for
`NULL`. The first match leaves, and with it everything before it. -/
def llistFetchMatchUnlocked (me : Llist α) (matchFunc : α → α → ℤ) (needle : α) :
    Except ℤ (α × Llist α) :=
  match me.nodes.dropWhile fun ptr => matchFunc needle ptr ≠ 0 with
  | [] => .error (-1)
  | data :: nodes => .ok (data, { me with nodes := nodes, nrNodes := me.nrNodes - 1 })

/-- `llist_fetch_match`. -/
def llistFetchMatch (me : Llist α) (matchFunc : α → α → ℤ) (needle : α) :
    Except ℤ (α × Llist α) :=
  llistFetchMatchUnlocked me matchFunc needle

namespace Llist

variable {ll ll' : Llist α} {data : α}

/-- The list is no longer than `nr_nodes` says, and `nr_nodes` no larger than the volume. -/
structure Bounded (ll : Llist α) : Prop where
  length_le : (ll.nodes.length : ℤ) ≤ ll.nrNodes
  le_volume : ll.nrNodes ≤ ll.volume

/-- `nr_nodes` is the length of the list, and no larger than the volume. -/
structure Exact (ll : Llist α) : Prop where
  length_eq : (ll.nodes.length : ℤ) = ll.nrNodes
  le_volume : ll.nrNodes ≤ ll.volume

theorem Exact.bounded (h : ll.Exact) : ll.Bounded := ⟨h.length_eq.le, h.le_volume⟩

theorem exact_new {max : ℤ} (hmax : 0 ≤ max) : Exact (llistNew max : Llist α) := ⟨rfl, hmax⟩

/-! ## Appending -/

theorem appendUnlocked_of_room (hroom : ll.nrNodes < ll.volume) (data : α) :
    llistAppendUnlocked ll data true
      = (0, { ll with nodes := ll.nodes ++ [data], nrNodes := ll.nrNodes + 1 }) := by
  unfold llistAppendUnlocked
  rw [if_pos hroom, if_pos rfl]

/-- An append either adds the element at the end or fails and changes nothing. -/
theorem appendUnlocked_cases (ll : Llist α) (data : α) (malloc : Bool) :
    (ll.nrNodes < ll.volume ∧ malloc = true ∧ llistAppendUnlocked ll data malloc
      = (0, { ll with nodes := ll.nodes ++ [data], nrNodes := ll.nrNodes + 1 })) ∨
    ((ll.nrNodes < ll.volume → malloc = false) ∧
      llistAppendUnlocked ll data malloc = (-1, ll)) := by
  unfold llistAppendUnlocked
  split
  next hroom =>
    cases malloc with
    | true => exact .inl ⟨hroom, rfl, rfl⟩
    | false => exact .inr ⟨fun _ => rfl, rfl⟩
  next hfull => exact .inr ⟨fun hroom => absurd hroom hfull, rfl⟩

theorem Bounded.append (h : ll.Bounded) (data : α) (malloc : Bool) :
    (llistAppendUnlocked ll data malloc).2.Bounded := by
  rcases appendUnlocked_cases ll data malloc with ⟨hroom, -, heq⟩ | ⟨-, heq⟩
  · rw [heq]
    refine ⟨?_, by show ll.nrNodes + 1 ≤ ll.volume; omega⟩
    have hle := h.length_le
    show ((ll.nodes ++ [data]).length : ℤ) ≤ ll.nrNodes + 1
    rw [List.length_append, List.length_singleton]
    push_cast
    omega
  · rw [heq]
    exact h

/-! ## Taking the head -/

/-- Fetching the head of a list that is not empty. -/
theorem fetchHeadUnlocked_cons {nodes : List α} (hpos : 0 < ll.nrNodes)
    (hnodes : ll.nodes = data :: nodes) :
    llistFetchHeadUnlocked ll
      = .ok (data, { ll with nodes := nodes, nrNodes := ll.nrNodes - 1 }) := by
  unfold llistFetchHeadUnlocked
  rw [if_neg (not_le.mpr hpos), hnodes]

theorem getHeadUnlocked_cons {nodes : List α} (hpos : 0 < ll.nrNodes)
    (hnodes : ll.nodes = data :: nodes) : llistGetHeadUnlocked ll = .ok data := by
  unfold llistGetHeadUnlocked
  rw [if_neg (not_le.mpr hpos), hnodes]

theorem getHeadNodeUnlocked_cons {nodes : List α} (hpos : 0 < ll.nrNodes)
    (hnodes : ll.nodes = data :: nodes) : llistGetHeadNodeUnlocked ll = .ok 0 := by
  unfold llistGetHeadNodeUnlocked
  rw [if_neg (not_le.mpr hpos), hnodes]

theorem getHeadNodeUnlocked_nil (hnodes : ll.nodes = []) :
    llistGetHeadNodeUnlocked ll = .error (-1) := by
  unfold llistGetHeadNodeUnlocked
  rw [hnodes]
  split <;> rfl

theorem fetchHeadUnlocked_nil (hnodes : ll.nodes = []) :
    llistFetchHeadUnlocked ll = .error (-1) := by
  unfold llistFetchHeadUnlocked
  rw [hnodes]
  split <;> rfl

theorem getHeadUnlocked_nil (hnodes : ll.nodes = []) :
    llistGetHeadUnlocked ll = .error (-1) := by
  unfold llistGetHeadUnlocked
  rw [hnodes]
  split <;> rfl

theorem Bounded.pos (h : ll.Bounded) {nodes : List α} (hnodes : ll.nodes = data :: nodes) :
    0 < ll.nrNodes := by
  have hle := h.length_le
  rw [hnodes, List.length_cons] at hle
  push_cast at hle
  omega

/-- What a fetch leaves: the rest of the list, or the list when there is nothing. -/
def after (ll : Llist α) : Except ℤ (α × Llist α) → Llist α
  | .ok r => r.2
  | .error _ => ll

theorem Bounded.fetchHead (h : ll.Bounded) :
    (ll.after (llistFetchHeadUnlocked ll)).Bounded ∧
      (ll.after (llistFetchHeadUnlocked ll)).nodes = ll.nodes.tail ∧
      (ll.after (llistFetchHeadUnlocked ll)).volume = ll.volume ∧
      (ll.after (llistFetchHeadUnlocked ll)).nrNodes
        = if ll.nodes = [] then ll.nrNodes else ll.nrNodes - 1 := by
  cases hnodes : ll.nodes with
  | nil =>
    rw [fetchHeadUnlocked_nil hnodes, if_pos rfl]
    exact ⟨h, hnodes, rfl, rfl⟩
  | cons data nodes =>
    rw [fetchHeadUnlocked_cons (h.pos hnodes) hnodes, if_neg (List.cons_ne_nil _ _)]
    refine ⟨⟨?_, ?_⟩, rfl, rfl, rfl⟩
    · have hle := h.length_le
      rw [hnodes, List.length_cons] at hle
      show (nodes.length : ℤ) ≤ ll.nrNodes - 1
      push_cast at hle
      omega
    · have hle := h.le_volume
      show ll.nrNodes - 1 ≤ ll.volume
      omega

theorem Bounded.fetchMatch (h : ll.Bounded) (matchFunc : α → α → ℤ) (needle : α) :
    (ll.after (llistFetchMatchUnlocked ll matchFunc needle)).Bounded ∧
      (ll.after (llistFetchMatchUnlocked ll matchFunc needle)).volume = ll.volume ∧
      (ll.after (llistFetchMatchUnlocked ll matchFunc needle)).nodes.length ≤ ll.nodes.length ∧
      ll.nrNodes - 1 ≤ (ll.after (llistFetchMatchUnlocked ll matchFunc needle)).nrNodes := by
  unfold llistFetchMatchUnlocked
  split
  next => exact ⟨h, rfl, Nat.le_refl _, Int.sub_le_self _ (by decide)⟩
  next data nodes hdrop =>
    -- the match and everything before it are gone, one of them is counted
    have hsuffix : data :: nodes <:+ ll.nodes := hdrop ▸ List.dropWhile_suffix _
    have hlen := hsuffix.length_le
    have hle := h.length_le
    have hvol := h.le_volume
    rw [List.length_cons] at hlen
    refine ⟨⟨?_, ?_⟩, rfl, ?_, Int.le_refl _⟩
    · show (nodes.length : ℤ) ≤ ll.nrNodes - 1
      omega
    · show ll.nrNodes - 1 ≤ ll.volume
      omega
    · show nodes.length ≤ ll.nodes.length
      omega

end Llist

end Dungeon
