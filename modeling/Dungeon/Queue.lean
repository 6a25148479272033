import Mathlib.Data.BitVec
import Mathlib.Data.Option.Basic
import Dungeon.Lib.Ring

/-!
# The pointer queue (`ds_queue2.c`)

A bounded queue of pointers under one mutex: `max` cells, a read and a write
index, the number `nr` of queued elements and two free-running 32-bit counters.
Every operation is one critical section, so it is one function here; the blocking
calls return `none` where the caller would wait on its condition variable.

- `RawQueue`: `struct queue_st` without its mutex and condition variables, and the
  operations as the code computes them on any record.
- `RawQueue.Wf`: the indices, the count and the counters are in step. Every
  operation keeps it (`Wf.put`, `Wf.take` and the lemmas after them).
- `Queue`: a raw queue that is well formed, the type the dungeon's two queues have.
- `toList`: the queued elements, oldest first. The specification lemmas
  (`queueDequeueNb_eq_some`, `queueEnqueueNb_of_room`, `queueEnqueueUniqNb_of_room`, ...)
  say what each operation does to this list; nothing outside this file looks at
  indices.

`queue_enqueue_uniq_nb` searches the ring for the element first. When the occupied
part wraps, its first loop runs up to and including index `max`, one word past the
ring (`past`), so that word takes part in the search: `queueEnqueueUniqNb_of_room`
needs it to differ from the element. Its loop variable is a signed `int`, which
only matters for rings of `2^31` cells and more (`cell`).
-/

namespace Dungeon

variable {α : Type}

/-- `struct queue_st`. The `uint32_t` indices and sizes are naturals (they stay
below `max`); the two event counters wrap. `bucket i` is the word `i` cells after
the start of the ring, `below i` the word `i` cells before it; only the first
`max` words of `bucket` belong to the queue. -/
structure RawQueue (α : Type) where
  max : ℕ
  nr : ℕ
  enCount : BitVec 32
  deCount : BitVec 32
  rindex : ℕ
  windex : ℕ
  bucket : ℕ → α
  below : ℕ → α

/-- `next`: the index after `n`. -/
def next (n max : ℕ) : ℕ :=
  if n + 1 ≥ max then 0 else n + 1

/-- `queue_new`: `malloc` leaves the cells and what surrounds them arbitrary. -/
def queueNew (max : ℕ) (bucket below : ℕ → α) : RawQueue α where
  max := max
  nr := 0
  enCount := 0
  deCount := 0
  rindex := 0
  windex := 0
  bucket := bucket
  below := below

namespace RawQueue

/-- The store shared by the enqueue operations: write, advance, count. -/
def put (q : RawQueue α) (data : α) : RawQueue α :=
  { q with
    bucket := Function.update q.bucket q.windex data
    windex := next q.windex q.max
    nr := q.nr + 1
    enCount := q.enCount + 1 }

/-- The removal shared by the dequeue operations: advance, count. -/
def take (q : RawQueue α) : RawQueue α :=
  { q with
    rindex := next q.rindex q.max
    nr := q.nr - 1
    deCount := q.deCount + 1 }

/-- `bucket[i]` for an unsigned `i` held in an `int`: from `2^31` on the index is
negative. -/
def cell (q : RawQueue α) (i : ℕ) : α :=
  if i < 2 ^ 31 then q.bucket i else q.below (2 ^ 32 - i)

/-- The indices `queue_enqueue_uniq_nb` compares, in the order of its loops. -/
def uniqScan (q : RawQueue α) : List ℕ :=
  if q.rindex ≤ q.windex then
    List.range' q.rindex (q.windex - q.rindex)
  else
    List.range' q.rindex (q.max + 1 - q.rindex) ++ List.range q.windex

/-- `queue_enqueue`: blocks while the queue is full. -/
def queueEnqueue (q : RawQueue α) (data : α) : Option (RawQueue α) :=
  if q.nr ≥ q.max then none else some (q.put data)

/-- `queue_dequeue`: blocks while the queue is empty. -/
def queueDequeue (q : RawQueue α) : Option (α × RawQueue α) :=
  if q.nr ≤ 0 then none else some (q.bucket q.rindex, q.take)

/-- `queue_enqueue_nb`: the return code and the queue after the call. -/
def queueEnqueueNb (q : RawQueue α) (data : α) : ℤ × RawQueue α :=
  if q.nr ≥ q.max then (-1, q) else (0, q.put data)

/-- `queue_dequeue_nb`: `none` stands for the return code `-1`. -/
def queueDequeueNb (q : RawQueue α) : Option (α × RawQueue α) :=
  if q.nr ≤ 0 then none else some (q.bucket q.rindex, q.take)

/-- `queue_enqueue_uniq_nb`: leaves through `over` when the search meets `data`. -/
def queueEnqueueUniqNb [DecidableEq α] (q : RawQueue α) (data : α) : ℤ × RawQueue α :=
  if q.nr ≥ q.max then (-1, q)
  else if q.uniqScan.any fun i => q.cell i = data then (0, q)
  else (0, q.put data)

/-- `queue_size`. -/
def queueSize (q : RawQueue α) : ℕ := q.nr

/-- The queued elements, oldest first. -/
def toList (q : RawQueue α) : List α :=
  Ring.contents q.bucket q.max q.rindex q.nr

/-- The indices, the count and the counters are in step. -/
structure Wf (q : RawQueue α) : Prop where
  rindex_lt : q.rindex < q.max
  nr_le : q.nr ≤ q.max
  windex_eq : q.windex = (q.rindex + q.nr) % q.max
  count_eq : q.enCount - q.deCount = BitVec.ofNat 32 q.nr

theorem wf_queueNew {max : ℕ} (hmax : 0 < max) (bucket below : ℕ → α) :
    (queueNew max bucket below).Wf where
  rindex_lt := hmax
  nr_le := Nat.zero_le _
  windex_eq := (Nat.zero_mod max).symm
  count_eq := BitVec.sub_self 0

theorem next_eq_slot {n max : ℕ} (h : n < max) : next n max = Ring.slot max n 1 := by
  unfold next Ring.slot
  split <;> split <;> omega

variable {q : RawQueue α}

theorem Wf.windex_slot (h : q.Wf) : q.windex = Ring.slot q.max q.rindex q.nr := by
  rw [h.windex_eq, Ring.slot_eq_mod h.rindex_lt h.nr_le]

theorem Wf.put (h : q.Wf) (hroom : q.nr < q.max) (data : α) : (q.put data).Wf where
  rindex_lt := h.rindex_lt
  nr_le := hroom
  windex_eq := by
    show next q.windex q.max = (q.rindex + (q.nr + 1)) % q.max
    have hlt : Ring.slot q.max q.rindex q.nr < q.max := Ring.slot_lt h.rindex_lt h.nr_le
    rw [h.windex_slot, next_eq_slot hlt, Ring.slot_one_slot h.rindex_lt hroom,
      Ring.slot_eq_mod h.rindex_lt hroom]
  count_eq := by
    show q.enCount + 1 - q.deCount = BitVec.ofNat 32 (q.nr + 1)
    have hc := h.count_eq
    have hadd : BitVec.ofNat 32 (q.nr + 1) = BitVec.ofNat 32 q.nr + 1 := BitVec.ofNat_add ..
    rw [hadd, ← hc]
    bv_omega

theorem Wf.take (h : q.Wf) (hpos : 0 < q.nr) : q.take.Wf where
  rindex_lt := by
    show next q.rindex q.max < q.max
    rw [next_eq_slot h.rindex_lt]
    exact Ring.slot_lt h.rindex_lt (Nat.one_le_of_lt h.rindex_lt)
  nr_le := Nat.le_trans (Nat.sub_le _ _) h.nr_le
  windex_eq := by
    show q.windex = (next q.rindex q.max + (q.nr - 1)) % q.max
    have hle := h.nr_le
    have hone : 1 ≤ q.max := Nat.one_le_of_lt h.rindex_lt
    have hnext : next q.rindex q.max < q.max := by
      rw [next_eq_slot h.rindex_lt]
      exact Ring.slot_lt h.rindex_lt hone
    rw [← Ring.slot_eq_mod hnext (by omega), next_eq_slot h.rindex_lt,
      Ring.slot_slot_one h.rindex_lt (by omega), Nat.sub_add_cancel hpos]
    exact h.windex_slot
  count_eq := by
    show q.enCount - (q.deCount + 1) = BitVec.ofNat 32 (q.nr - 1)
    have hc := h.count_eq
    obtain ⟨n, hn⟩ : ∃ n, q.nr = n + 1 := ⟨q.nr - 1, by omega⟩
    have hadd : BitVec.ofNat 32 (n + 1) = BitVec.ofNat 32 n + 1 := BitVec.ofNat_add ..
    rw [hn, hadd] at hc
    rw [hn, Nat.add_sub_cancel]
    bv_omega

@[simp] theorem put_max (data : α) : (q.put data).max = q.max := rfl

@[simp] theorem take_max : q.take.max = q.max := rfl

@[simp] theorem toList_length : q.toList.length = q.nr := Ring.contents_length ..

theorem toList_put (h : q.Wf) (hroom : q.nr < q.max) (data : α) :
    (q.put data).toList = q.toList ++ [data] := by
  show Ring.contents (Function.update q.bucket q.windex data) q.max q.rindex (q.nr + 1) = _
  rw [h.windex_slot, Ring.contents_push q.bucket hroom]
  rfl

theorem toList_take (h : q.Wf) (hpos : 0 < q.nr) :
    q.toList = q.bucket q.rindex :: q.take.toList := by
  obtain ⟨n, hn⟩ : ∃ n, q.nr = n + 1 := ⟨q.nr - 1, by omega⟩
  have hle := h.nr_le
  show Ring.contents q.bucket q.max q.rindex q.nr
    = q.bucket q.rindex :: Ring.contents q.bucket q.max (next q.rindex q.max) (q.nr - 1)
  rw [hn, Nat.add_sub_cancel, next_eq_slot h.rindex_lt,
    Ring.contents_pop q.bucket h.rindex_lt (by omega)]

/-- An enqueue that does not block has room. -/
theorem queueEnqueue_eq_some {q' : RawQueue α} {data : α} (h : q.queueEnqueue data = some q') :
    q.nr < q.max ∧ q' = q.put data := by
  unfold queueEnqueue at h
  split at h
  next => cases h
  next hroom => exact ⟨Nat.lt_of_not_le hroom, (Option.some.inj h).symm⟩

/-- A dequeue that returns something takes the front, whether it may block or not. -/
theorem queueDequeueNb_some {r : α × RawQueue α} (h : q.queueDequeueNb = some r) :
    0 < q.nr ∧ r = (q.bucket q.rindex, q.take) := by
  unfold queueDequeueNb at h
  split at h
  next => cases h
  next hpos => exact ⟨Nat.lt_of_not_le hpos, (Option.some.inj h).symm⟩

theorem queueEnqueueNb_of_room (hroom : q.nr < q.max) (data : α) :
    q.queueEnqueueNb data = (0, q.put data) := if_neg (Nat.not_le.mpr hroom)

theorem queueEnqueueNb_of_full (hfull : q.max ≤ q.nr) (data : α) :
    q.queueEnqueueNb data = (-1, q) := if_pos hfull

theorem queueEnqueueUniqNb_of_full [DecidableEq α] (hfull : q.max ≤ q.nr) (data : α) :
    q.queueEnqueueUniqNb data = (-1, q) := if_pos hfull

/-- With room, `queue_enqueue_uniq_nb` returns 0 on both of its paths. -/
theorem queueEnqueueUniqNb_of_room [DecidableEq α] (hroom : q.nr < q.max) (data : α) :
    q.queueEnqueueUniqNb data
      = (0, if q.uniqScan.any fun i => q.cell i = data then q else q.put data) := by
  unfold queueEnqueueUniqNb
  rw [if_neg (Nat.not_le.mpr hroom)]
  split <;> rfl

/-- What the duplicate search of `queue_enqueue_uniq_nb` decides: membership, plus
a comparison with the word past the ring when the occupied part wraps. -/
theorem uniqScan_any [DecidableEq α] (h : q.Wf) (hroom : q.nr < q.max) (hmax : q.max < 2 ^ 31)
    (data : α) :
    q.uniqScan.any (fun i => q.cell i = data) = true ↔
      data ∈ q.toList ∨ (q.windex < q.rindex ∧ q.bucket q.max = data) := by
  have hcell : ∀ i ≤ q.max, q.cell i = q.bucket i := by
    intro i hi
    unfold cell
    rw [if_pos (by omega)]
  have hw : q.windex < q.max := by
    rw [h.windex_slot]
    exact Ring.slot_lt h.rindex_lt h.nr_le
  have hr := h.rindex_lt
  rw [List.any_eq_true]
  unfold uniqScan toList
  by_cases hle : q.rindex ≤ q.windex
  · rw [if_pos hle, Ring.mem_contents_of_le h.windex_slot hroom hle]
    constructor
    · rintro ⟨i, hi, hx⟩
      rw [List.mem_range'_1] at hi
      rw [decide_eq_true_iff, hcell i (by omega)] at hx
      exact .inl ⟨i, hi.1, by omega, hx⟩
    · rintro (⟨i, hi, hi', hx⟩ | ⟨hlt, -⟩)
      · refine ⟨i, List.mem_range'_1.mpr ⟨hi, by omega⟩, ?_⟩
        rw [decide_eq_true_iff, hcell i (by omega)]
        exact hx
      · exact absurd hlt (by omega)
  · rw [if_neg hle,
      Ring.mem_contents_of_wrapped h.rindex_lt h.windex_slot hroom (by omega)]
    constructor
    · rintro ⟨i, hi, hx⟩
      rw [List.mem_append, List.mem_range'_1, List.mem_range] at hi
      rw [decide_eq_true_iff, hcell i (by omega)] at hx
      -- the first loop's last index is the word past the ring
      by_cases hpast : i = q.max
      · exact .inr ⟨by omega, hpast ▸ hx⟩
      · exact .inl ⟨i, by omega, hx⟩
    · rintro (⟨i, hi, hx⟩ | ⟨-, hx⟩)
      · refine ⟨i, ?_, ?_⟩
        · rw [List.mem_append, List.mem_range'_1, List.mem_range]
          omega
        · rw [decide_eq_true_iff, hcell i (by omega)]
          exact hx
      · refine ⟨q.max, ?_, ?_⟩
        · rw [List.mem_append, List.mem_range'_1]
          omega
        · rw [decide_eq_true_iff, hcell q.max (Nat.le_refl _)]
          exact hx

end RawQueue

/-! ## Well-formed queues -/

/-- A queue whose indices, count and counters are in step: what `queue_new` builds
and every operation keeps. -/
structure Queue (α : Type) where
  raw : RawQueue α
  wf : raw.Wf

namespace Queue

/-- `queue_new` with a positive size. -/
def new {max : ℕ} (hmax : 0 < max) (bucket below : ℕ → α) : Queue α :=
  ⟨queueNew max bucket below, RawQueue.wf_queueNew hmax bucket below⟩

def max (q : Queue α) : ℕ := q.raw.max

/-- The queued elements, oldest first. -/
def toList (q : Queue α) : List α := q.raw.toList

/-- The word just past the ring. -/
def past (q : Queue α) : α := q.raw.bucket q.raw.max

theorem wf_queueEnqueueNb {q : RawQueue α} (h : q.Wf) (data : α) :
    (q.queueEnqueueNb data).2.Wf := by
  rcases Nat.lt_or_ge q.nr q.max with hroom | hfull
  · rw [RawQueue.queueEnqueueNb_of_room hroom]
    exact h.put hroom data
  · rw [RawQueue.queueEnqueueNb_of_full hfull]
    exact h

theorem wf_queueEnqueueUniqNb [DecidableEq α] {q : RawQueue α} (h : q.Wf) (data : α) :
    (q.queueEnqueueUniqNb data).2.Wf := by
  rcases Nat.lt_or_ge q.nr q.max with hroom | hfull
  · rw [RawQueue.queueEnqueueUniqNb_of_room hroom]
    show (if _ then q else q.put data).Wf
    split
    next => exact h
    next => exact h.put hroom data
  · rw [RawQueue.queueEnqueueUniqNb_of_full hfull]
    exact h

theorem wf_queueDequeueNb {q : RawQueue α} (h : q.Wf) (r : α × RawQueue α)
    (hr : r ∈ q.queueDequeueNb) : r.2.Wf := by
  obtain ⟨hpos, rfl⟩ := RawQueue.queueDequeueNb_some hr
  exact h.take hpos

/-- `queue_enqueue_nb`. -/
def queueEnqueueNb (q : Queue α) (data : α) : ℤ × Queue α :=
  ((q.raw.queueEnqueueNb data).1, ⟨_, wf_queueEnqueueNb q.wf data⟩)

/-- `queue_enqueue_uniq_nb`. -/
def queueEnqueueUniqNb [DecidableEq α] (q : Queue α) (data : α) : ℤ × Queue α :=
  ((q.raw.queueEnqueueUniqNb data).1, ⟨_, wf_queueEnqueueUniqNb q.wf data⟩)

/-- `queue_dequeue_nb`, and `queue_dequeue` where it does not block. -/
def queueDequeueNb (q : Queue α) : Option (α × Queue α) :=
  q.raw.queueDequeueNb.pmap (fun r hr => (r.1, ⟨r.2, hr⟩)) (wf_queueDequeueNb q.wf)

/-- Somebody writes the word past the ring, which is not the queue's. -/
def scribble (q : Queue α) (w : α) : Queue α where
  raw := { q.raw with bucket := Function.update q.raw.bucket q.raw.max w }
  wf := ⟨q.wf.rindex_lt, q.wf.nr_le, q.wf.windex_eq, q.wf.count_eq⟩

variable {q q' : Queue α} {x : α}

@[simp] theorem toList_new {max : ℕ} (hmax : 0 < max) (bucket below : ℕ → α) :
    (new hmax bucket below).toList = [] := rfl

@[simp] theorem max_new {max : ℕ} (hmax : 0 < max) (bucket below : ℕ → α) :
    (new hmax bucket below).max = max := rfl

@[simp] theorem toList_scribble (w : α) : (q.scribble w).toList = q.toList := by
  refine Ring.contents_congr q.wf.rindex_lt q.wf.nr_le fun i hi => ?_
  exact Function.update_of_ne (Nat.ne_of_lt hi) _ _

@[simp] theorem max_scribble (w : α) : (q.scribble w).max = q.max := rfl

@[simp] theorem past_scribble (w : α) : (q.scribble w).past = w :=
  Function.update_self ..

/-- A successful dequeue returns the oldest element and leaves the others. -/
theorem queueDequeueNb_eq_some (h : q.queueDequeueNb = some (x, q')) :
    q.toList = x :: q'.toList ∧ q'.max = q.max ∧ q'.past = q.past := by
  obtain ⟨r, hr, hmem, heq⟩ := Option.pmap_eq_some_iff.mp h
  obtain ⟨hpos, rfl⟩ := RawQueue.queueDequeueNb_some hmem
  obtain ⟨rfl, rfl⟩ := Prod.mk.inj heq
  exact ⟨RawQueue.toList_take q.wf hpos, rfl, rfl⟩

/-- A dequeue finds nothing exactly when the queue is empty. -/
theorem queueDequeueNb_eq_none : q.queueDequeueNb = none ↔ q.toList = [] := by
  have hlen : q.toList.length = q.raw.nr := RawQueue.toList_length
  have hraw : q.raw.queueDequeueNb = none ↔ q.raw.nr ≤ 0 := by
    unfold RawQueue.queueDequeueNb
    split <;> simp_all
  unfold queueDequeueNb
  rw [Option.pmap_eq_none_iff, hraw, ← List.length_eq_zero_iff, hlen]
  omega

theorem windex_ne_max (q : Queue α) : q.raw.max ≠ q.raw.windex := by
  have hw : q.raw.windex < q.raw.max := by
    rw [q.wf.windex_slot]
    exact Ring.slot_lt q.wf.rindex_lt q.wf.nr_le
  omega

/-- Storing an element never touches the word past the ring. -/
theorem past_put (q : Queue α) (x : α) :
    (q.raw.put x).bucket (q.raw.put x).max = q.raw.bucket q.raw.max :=
  Function.update_of_ne q.windex_ne_max _ _

/-- `queue_enqueue_nb` appends when there is room. -/
theorem queueEnqueueNb_of_room (hroom : q.toList.length < q.max) (x : α) :
    (q.queueEnqueueNb x).1 = 0 ∧ (q.queueEnqueueNb x).2.toList = q.toList ++ [x] := by
  have hroom' : q.raw.nr < q.raw.max := by
    rw [← RawQueue.toList_length (q := q.raw)]
    exact hroom
  show (q.raw.queueEnqueueNb x).1 = 0 ∧ (q.raw.queueEnqueueNb x).2.toList = q.raw.toList ++ [x]
  rw [RawQueue.queueEnqueueNb_of_room hroom']
  exact ⟨rfl, RawQueue.toList_put q.wf hroom' x⟩

/-- `queue_enqueue_nb` at most appends its argument. -/
theorem queueEnqueueNb_bound (q : Queue α) (x : α) :
    (q.queueEnqueueNb x).2.max = q.max ∧ (q.queueEnqueueNb x).2.past = q.past ∧
    ((q.queueEnqueueNb x).2.toList = q.toList ∨
      (q.queueEnqueueNb x).2.toList = q.toList ++ [x]) := by
  unfold queueEnqueueNb max past toList
  dsimp only
  rcases Nat.lt_or_ge q.raw.nr q.raw.max with hroom | hfull
  · rw [RawQueue.queueEnqueueNb_of_room hroom]
    exact ⟨rfl, past_put q x, .inr (RawQueue.toList_put q.wf hroom x)⟩
  · rw [RawQueue.queueEnqueueNb_of_full hfull]
    exact ⟨rfl, rfl, .inl rfl⟩

/-- `queue_enqueue_uniq_nb` at most appends its argument. -/
theorem queueEnqueueUniqNb_bound [DecidableEq α] (q : Queue α) (x : α) :
    (q.queueEnqueueUniqNb x).2.max = q.max ∧ (q.queueEnqueueUniqNb x).2.past = q.past ∧
    ((q.queueEnqueueUniqNb x).2.toList = q.toList ∨
      (q.queueEnqueueUniqNb x).2.toList = q.toList ++ [x]) := by
  unfold queueEnqueueUniqNb max past toList
  dsimp only
  rcases Nat.lt_or_ge q.raw.nr q.raw.max with hroom | hfull
  · rw [RawQueue.queueEnqueueUniqNb_of_room hroom]
    dsimp only
    split
    next => exact ⟨rfl, rfl, .inl rfl⟩
    next => exact ⟨rfl, past_put q x, .inr (RawQueue.toList_put q.wf hroom x)⟩
  · rw [RawQueue.queueEnqueueUniqNb_of_full hfull]
    exact ⟨rfl, rfl, .inl rfl⟩

/-- With room `queue_enqueue_uniq_nb` reports success. -/
theorem queueEnqueueUniqNb_code [DecidableEq α] (hroom : q.toList.length < q.max) (x : α) :
    (q.queueEnqueueUniqNb x).1 = 0 := by
  have hroom' : q.raw.nr < q.raw.max := by
    rw [← RawQueue.toList_length (q := q.raw)]
    exact hroom
  show (q.raw.queueEnqueueUniqNb x).1 = 0
  rw [RawQueue.queueEnqueueUniqNb_of_room hroom']

/-- With room, an absent element and no stray copy of it past the ring,
`queue_enqueue_uniq_nb` appends. -/
theorem queueEnqueueUniqNb_of_room [DecidableEq α] (hroom : q.toList.length < q.max)
    (hmax : q.max < 2 ^ 31) (hx : x ∉ q.toList) (hpast : q.past ≠ x) :
    (q.queueEnqueueUniqNb x).2.toList = q.toList ++ [x] := by
  have hroom' : q.raw.nr < q.raw.max := by
    rw [← RawQueue.toList_length (q := q.raw)]
    exact hroom
  have hscan : ¬ (q.raw.uniqScan.any fun i => q.raw.cell i = x) = true := by
    rw [RawQueue.uniqScan_any q.wf hroom' hmax]
    rintro (hmem | ⟨-, heq⟩)
    · exact hx hmem
    · exact hpast heq
  show (q.raw.queueEnqueueUniqNb x).2.toList = q.raw.toList ++ [x]
  rw [RawQueue.queueEnqueueUniqNb_of_room hroom', if_neg hscan]
  exact RawQueue.toList_put q.wf hroom' x

end Queue

end Dungeon
