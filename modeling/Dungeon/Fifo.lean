import Dungeon.Queue
import Dungeon.Lib.Machine

/-!
# The pointer queue is a bounded FIFO

Every operation of `ds_queue2.c` runs under the queue's mutex, so a run of any number
of threads is a sequence of calls. A blocking call takes place once its condition
holds; before that it is a caller waiting, which changes nothing.

- `QueueCall`, `RawQueue.call`: the calls, and what each returns and leaves behind.
- `RawQueue.stored`, `QueueReply.values`: what a call inserts and what it hands out.
- `fifo`: the machine of all call sequences on a fresh queue, with a log of the
  insertions and of the removals. Between two calls anybody may write the words
  outside the ring.
- `queue_fifo`: in every reachable state the indices, the count and the counters are
  in step and the insertions are the removals followed by the queued elements, in
  order. A non-blocking call fails exactly when the queue is full (empty), and then
  changes nothing.
-/

namespace Dungeon

variable {α : Type}

/-- A call of one of the queue's operations. -/
inductive QueueCall (α : Type) where
  | enqueue (data : α)
  | enqueueNb (data : α)
  | enqueueUniqNb (data : α)
  | dequeue
  | dequeueNb
  | size
  deriving DecidableEq

/-- What a call hands back: a return code, the dequeued element (with the code 0) or
the size. -/
inductive QueueReply (α : Type) where
  | code (ret : ℤ)
  | value (data : α)
  | size (n : ℕ)
  deriving DecidableEq

/-- The elements a reply carries. -/
def QueueReply.values : QueueReply α → List α
  | .value data => [data]
  | .code _ | .size _ => []

namespace RawQueue

/-- One call in its critical section; `none` while a blocking call has to wait. -/
def call [DecidableEq α] (q : RawQueue α) : QueueCall α → Option (QueueReply α × RawQueue α)
  | .enqueue data => (q.queueEnqueue data).map fun q' => (.code 0, q')
  | .enqueueNb data => some (.code (q.queueEnqueueNb data).1, (q.queueEnqueueNb data).2)
  | .enqueueUniqNb data =>
    some (.code (q.queueEnqueueUniqNb data).1, (q.queueEnqueueUniqNb data).2)
  | .dequeue => q.queueDequeue.map fun r => (.value r.1, r.2)
  | .dequeueNb =>
    match q.queueDequeueNb with
    | none => some (.code (-1), q)
    | some (data, q') => some (.value data, q')
  | .size => some (.size q.queueSize, q)

/-- The elements a call stores at `windex`. -/
def stored [DecidableEq α] (q : RawQueue α) : QueueCall α → List α
  | .enqueue data | .enqueueNb data => if q.nr ≥ q.max then [] else [data]
  | .enqueueUniqNb data =>
    if q.nr ≥ q.max then []
    else if q.uniqScan.any fun i => q.cell i = data then []
    else [data]
  | .dequeue | .dequeueNb | .size => []

/-- Somebody writes the words outside the ring. -/
def surround [DecidableEq α] (q : RawQueue α) (bucket below : ℕ → α) : Option (RawQueue α) :=
  if ∀ i < q.max, bucket i = q.bucket i then
    some { q with bucket := bucket, below := below }
  else none

variable {q q' : RawQueue α}

theorem Wf.windex_lt (h : q.Wf) : q.windex < q.max := by
  rw [h.windex_slot]
  exact Ring.slot_lt h.rindex_lt h.nr_le

/-- What surrounds the ring is not the queue's. -/
theorem surround_eq_some [DecidableEq α] {bucket below : ℕ → α}
    (h : q.surround bucket below = some q') (hwf : q.Wf) :
    q'.Wf ∧ q'.toList = q.toList := by
  unfold surround at h
  split at h
  next heq =>
    obtain rfl := Option.some.inj h
    refine ⟨⟨hwf.rindex_lt, hwf.nr_le, hwf.windex_eq, hwf.count_eq⟩, ?_⟩
    exact Ring.contents_congr hwf.rindex_lt hwf.nr_le heq
  next => cases h

/-- An element stored with room comes last; a refused one changes nothing. -/
theorem Wf.put_or_keep {p : Prop} [Decidable p] (h : q.Wf) (hroom : ¬ p → q.nr < q.max)
    (data : α) :
    (if p then q else q.put data).Wf ∧
      (if p then q else q.put data).toList = q.toList ++ if p then [] else [data] := by
  by_cases hp : p
  · rw [if_pos hp, if_pos hp, List.append_nil]
    exact ⟨h, rfl⟩
  · rw [if_neg hp, if_neg hp]
    exact ⟨h.put (hroom hp) data, toList_put h (hroom hp) data⟩

/-- What a dequeue returns was the oldest element. -/
theorem Wf.dequeued {data : α} (h : q.Wf) (hd : q.queueDequeueNb = some (data, q')) :
    q'.Wf ∧ q.toList = data :: q'.toList := by
  obtain ⟨hpos, heq⟩ := queueDequeueNb_some hd
  obtain ⟨rfl, rfl⟩ := Prod.mk.inj heq
  exact ⟨h.take hpos, toList_take h hpos⟩

/-- What an enqueue leaves. -/
theorem queueEnqueueNb_snd (q : RawQueue α) (data : α) :
    (q.queueEnqueueNb data).2 = if q.nr ≥ q.max then q else q.put data := by
  unfold queueEnqueueNb
  split <;> rfl

/-- **Specification of a call**: what it stores goes to the back of the queue and what
it returns comes from the front. -/
theorem call_eq_some [DecidableEq α] {c : QueueCall α} {r : QueueReply α} (h : q.Wf)
    (hc : q.call c = some (r, q')) :
    q'.Wf ∧ q.toList ++ q.stored c = r.values ++ q'.toList := by
  have hroom : ¬ q.nr ≥ q.max → q.nr < q.max := Nat.lt_of_not_le
  cases c with
  | enqueue data =>
    obtain ⟨t, ht, heq⟩ := Option.map_eq_some_iff.mp hc
    obtain ⟨rfl, rfl⟩ := Prod.mk.inj heq
    obtain ⟨hlt, rfl⟩ := queueEnqueue_eq_some ht
    refine ⟨h.put hlt data, ?_⟩
    show q.toList ++ (if q.nr ≥ q.max then [] else [data]) = (q.put data).toList
    rw [if_neg (Nat.not_le.mpr hlt), toList_put h hlt]
  | enqueueNb data =>
    obtain ⟨rfl, rfl⟩ := Prod.mk.inj (Option.some.inj hc)
    rw [queueEnqueueNb_snd]
    obtain ⟨hwf, hlist⟩ := h.put_or_keep hroom data
    exact ⟨hwf, hlist.symm⟩
  | enqueueUniqNb data =>
    obtain ⟨rfl, rfl⟩ := Prod.mk.inj (Option.some.inj hc)
    rcases Nat.lt_or_ge q.nr q.max with hlt | hfull
    · rw [queueEnqueueUniqNb_of_room hlt]
      obtain ⟨hwf, hlist⟩ := h.put_or_keep
        (p := q.uniqScan.any (fun i => q.cell i = data) = true) (fun _ => hlt) data
      refine ⟨hwf, ?_⟩
      dsimp only [stored]
      rw [if_neg (Nat.not_le.mpr hlt)]
      exact hlist.symm
    · -- a full queue is left as it is, like one that holds the element
      rw [queueEnqueueUniqNb_of_full hfull]
      refine ⟨h, ?_⟩
      dsimp only [stored]
      rw [if_pos hfull, List.append_nil]
      rfl
  | dequeue =>
    obtain ⟨t, ht, heq⟩ := Option.map_eq_some_iff.mp hc
    obtain ⟨rfl, rfl⟩ := Prod.mk.inj heq
    obtain ⟨hwf, hlist⟩ := h.dequeued ht
    exact ⟨hwf, (List.append_nil _).trans hlist⟩
  | dequeueNb =>
    unfold call at hc
    dsimp only at hc
    split at hc
    next hnone =>
      obtain ⟨rfl, rfl⟩ := Prod.mk.inj (Option.some.inj hc)
      exact ⟨h, List.append_nil _⟩
    next data t hsome =>
      obtain ⟨rfl, rfl⟩ := Prod.mk.inj (Option.some.inj hc)
      obtain ⟨hwf, hlist⟩ := h.dequeued hsome
      exact ⟨hwf, (List.append_nil _).trans hlist⟩
  | size =>
    obtain ⟨rfl, rfl⟩ := Prod.mk.inj (Option.some.inj hc)
    exact ⟨h, List.append_nil _⟩

end RawQueue

/-! ## All call sequences -/

/-- A queue with the log of what was inserted and what was handed out, oldest first. -/
structure QueueLog (α : Type) where
  queue : RawQueue α
  inserted : List α
  removed : List α

/-- What happens next: a call, or a write outside the ring. -/
inductive QueueEvent (α : Type) where
  | call (c : QueueCall α)
  | surround (bucket below : ℕ → α)

/-- The sequences of calls on a queue made by `queue_new` with a positive size. -/
def fifo (α : Type) [DecidableEq α] : Machine (QueueLog α) (QueueEvent α) where
  init l := ∃ (max : ℕ) (bucket below : ℕ → α),
    0 < max ∧ l = ⟨queueNew max bucket below, [], []⟩
  step l
    | .call c => (l.queue.call c).map fun r =>
      ⟨r.2, l.inserted ++ l.queue.stored c, l.removed ++ r.1.values⟩
    | .surround bucket below => (l.queue.surround bucket below).map fun q =>
      { l with queue := q }

/-- The queue is in step and holds what was inserted and not yet handed out. -/
structure QueueLog.Fifo (l : QueueLog α) : Prop where
  wf : l.queue.Wf
  order : l.inserted = l.removed ++ l.queue.toList

/-- One event keeps the FIFO. -/
theorem QueueLog.Fifo.step [DecidableEq α] {l l' : QueueLog α} {e : QueueEvent α}
    (h : l.Fifo) (he : (fifo α).step l e = some l') : l'.Fifo := by
  cases e with
  | call c =>
    obtain ⟨⟨r, q⟩, hc, rfl⟩ := Option.map_eq_some_iff.mp he
    obtain ⟨hwf, hlist⟩ := RawQueue.call_eq_some h.wf hc
    refine ⟨hwf, ?_⟩
    show l.inserted ++ l.queue.stored c = l.removed ++ r.values ++ q.toList
    rw [h.order, List.append_assoc, hlist, List.append_assoc]
  | surround bucket below =>
    obtain ⟨q, hq, rfl⟩ := Option.map_eq_some_iff.mp he
    obtain ⟨hwf, hlist⟩ := RawQueue.surround_eq_some hq h.wf
    refine ⟨hwf, ?_⟩
    show l.inserted = l.removed ++ q.toList
    rw [hlist]
    exact h.order

/-- Every run keeps the FIFO. -/
theorem fifo_reach [DecidableEq α] {l : QueueLog α} (h : (fifo α).Reach Machine.Always l) :
    l.Fifo := by
  refine h.invariant ?_ fun _ _ _ _ hI _ he => hI.step he
  rintro _ ⟨max, bucket, below, hmax, rfl⟩
  exact ⟨RawQueue.wf_queueNew hmax bucket below, rfl⟩

/-- **The queue is a bounded FIFO.** After any sequence of calls the indices lie in the
ring, the count and the counters are in step, and the insertions so far are the removals
followed by the queued elements, in this order. `queue_enqueue_nb` fails exactly on a full
queue, `queue_dequeue_nb` exactly on an empty one, and neither changes the queue then. -/
theorem queue_fifo [DecidableEq α] {l : QueueLog α} (h : (fifo α).Reach Machine.Always l) :
    l.queue.rindex < l.queue.max ∧ l.queue.windex < l.queue.max ∧
    l.queue.nr ≤ l.queue.max ∧
    l.queue.windex = (l.queue.rindex + l.queue.nr) % l.queue.max ∧
    l.queue.enCount - l.queue.deCount = BitVec.ofNat 32 l.queue.nr ∧
    l.inserted = l.removed ++ l.queue.toList ∧ l.queue.toList.length = l.queue.nr ∧
    (∀ data, ((l.queue.queueEnqueueNb data).1 = -1 ↔ l.queue.nr = l.queue.max) ∧
      (l.queue.nr = l.queue.max → (l.queue.queueEnqueueNb data).2 = l.queue)) ∧
    ((l.queue.call .dequeueNb).map Prod.fst = some (.code (-1)) ↔ l.queue.nr = 0) ∧
    (l.queue.nr = 0 → l.queue.call .dequeueNb = some (.code (-1), l.queue)) := by
  have hf := fifo_reach h
  have hle := hf.wf.nr_le
  refine ⟨hf.wf.rindex_lt, hf.wf.windex_lt, hle, hf.wf.windex_eq, hf.wf.count_eq, hf.order,
    RawQueue.toList_length, fun data => ⟨?_, fun hfull => ?_⟩, ?_, fun hempty => ?_⟩
  · unfold RawQueue.queueEnqueueNb
    split
    next hfull => exact ⟨fun _ => Nat.le_antisymm hle hfull, fun _ => rfl⟩
    next hroom =>
      refine ⟨fun hret => ?_, fun hfull => absurd hfull.ge hroom⟩
      exact absurd hret (show (0 : ℤ) ≠ -1 by decide)
  · rw [RawQueue.queueEnqueueNb_of_full hfull.ge]
  · unfold RawQueue.call RawQueue.queueDequeueNb
    dsimp only
    split
    next hnone =>
      split at hnone
      next hzero => exact ⟨fun _ => Nat.le_zero.mp hzero, fun _ => rfl⟩
      next => cases hnone
    next hsome =>
      split at hsome
      next => cases hsome
      next hpos =>
        refine ⟨fun hret => ?_, fun hzero => absurd hzero.le hpos⟩
        exact absurd (Option.some.inj hret) nofun
  · unfold RawQueue.call RawQueue.queueDequeueNb
    rw [if_pos hempty.le]

/-- A ring of one cell that has gone round once. -/
theorem queue_fifo_oneCell :
    ∃ l : QueueLog ℕ, (fifo ℕ).Reach Machine.Always l ∧ l.inserted = [5, 6] ∧
      l.removed = [5] ∧ l.queue.toList.length = l.queue.nr := by
  obtain ⟨l, hreach, hl⟩ := Machine.exec_reach (M := fifo ℕ)
    (show (fifo ℕ).init ⟨queueNew 1 (fun _ => 0) fun _ => 0, [], []⟩ from
      ⟨1, _, _, Nat.one_pos, rfl⟩)
    (show ((fifo ℕ).exec Machine.Always ⟨queueNew 1 (fun _ => 0) fun _ => 0, [], []⟩
      [.call (.enqueue 5), .call (.enqueueNb 7), .call .dequeue, .call (.enqueueUniqNb 6)]).map
      (fun l => decide (l.inserted = [5, 6] ∧ l.removed = [5])) = some true by decide +kernel)
  obtain ⟨hins, hrem⟩ := of_decide_eq_true hl
  obtain ⟨-, -, -, -, -, -, hlen, -⟩ := queue_fifo hreach
  exact ⟨l, hreach, hins, hrem, hlen⟩

end Dungeon
