import Dungeon.Fifo
import Dungeon.LockFree
import Dungeon.Lib.Replies

/-!
# The two queues behind `ds_queue.h`

`ds_queue.c` and `ds_queue2.c` implement one interface. Here one thread calls the non-blocking
operations of each.

- `NbCall`: the calls. `nbCall`: what each implementation replies and leaves.
- `boundedFifo`: what a queue of some capacity should do, on lists.
- `LockFree.exec_enqueue`, `exec_dequeue`: the calls of the lock-free queue are what its steps come
  to when no other thread takes any.
- `replies_mutex`, `replies_lockFree`: one is a queue of `max` elements, the other of `max - 1`.
- `queues_interchangeable_iff`: so they reply the same exactly as long as nothing is to be enqueued
  behind `max - 1` elements.
-/

namespace Dungeon

open Replies

variable {α : Type}

/-- A call that does not block. -/
inductive NbCall (α : Type) where
  | enqueueNb (data : α)
  | dequeueNb
  | size
deriving DecidableEq

/-- A call of `ds_queue2.c`. -/
def RawQueue.nbCall (q : RawQueue α) : NbCall α → QueueReply α × RawQueue α
  | .enqueueNb data => (.code (q.queueEnqueueNb data).1, (q.queueEnqueueNb data).2)
  | .dequeueNb =>
    match q.queueDequeueNb with
    | none => (.code (-1), q)
    | some (data, q') => (.value data, q')
  | .size => (.size q.queueSize, q)

/-- A queue of `cap` elements, as a list with the oldest one first. -/
def boundedFifo (cap : ℕ) (l : List α) : NbCall α → QueueReply α × List α
  | .enqueueNb data => if l.length < cap then (.code 0, l ++ [data]) else (.code (-1), l)
  | .dequeueNb =>
    match l with
    | [] => (.code (-1), [])
    | data :: rest => (.value data, rest)
  | .size => (.size l.length, l)

/-! ## The queue with the mutex -/

/-- **A queue of `max` elements.** -/
theorem replies_mutex {max : ℕ} (hmax : 1 ≤ max) (bucket below : ℕ → α)
    (calls : List (NbCall α)) :
    replies RawQueue.nbCall (queueNew max bucket below) calls
      = replies (boundedFifo max) [] calls := by
  have hnew : (queueNew max bucket below).Wf := RawQueue.wf_queueNew hmax bucket below
  refine replies_eq (R := fun q l => q.Wf ∧ q.max = max ∧ q.toList = l) ?_ ⟨hnew, rfl, rfl⟩ calls
  rintro q _ c ⟨hwf, rfl, rfl⟩
  cases c with
  | enqueueNb data =>
    rw [RawQueue.nbCall, boundedFifo, RawQueue.toList_length]
    split
    next hroom =>
      rw [RawQueue.queueEnqueueNb_of_room hroom]
      exact ⟨rfl, hwf.put hroom data, rfl, RawQueue.toList_put hwf hroom data⟩
    next hfull =>
      rw [RawQueue.queueEnqueueNb_of_full (Nat.le_of_not_lt hfull)]
      exact ⟨rfl, hwf, rfl, rfl⟩
  | dequeueNb =>
    rw [RawQueue.nbCall, RawQueue.queueDequeueNb]
    rcases Nat.eq_zero_or_pos q.nr with hzero | hpos
    · have hnil : q.toList = [] := by
        rw [← List.length_eq_zero_iff, RawQueue.toList_length, hzero]
      rw [if_pos (Nat.le_of_eq hzero), hnil]
      exact ⟨rfl, hwf, rfl, rfl⟩
    · rw [if_neg (Nat.not_le.mpr hpos), RawQueue.toList_take hwf hpos]
      exact ⟨rfl, hwf.take hpos, rfl, rfl⟩
  | size =>
    rw [RawQueue.nbCall, boundedFifo, RawQueue.toList_length]
    exact ⟨rfl, hwf, rfl, rfl⟩

/-! ## The lock-free queue -/

namespace LockFree

namespace RawQueue

/-- `queue_enqueue_nb`, when no other thread interferes. -/
def queueEnqueueNb (q : RawQueue α) (data : α) : ℤ × RawQueue α :=
  if nextIndex q q.windex = q.rindex % q.max then (-1, q)
  else (0,
    { q with
      windex := nextIndex q q.windex
      bucket := Function.update q.bucket q.windex data
      maxRindex := nextIndex q q.windex })

/-- `queue_dequeue_nb`, when no other thread interferes; `none` stands for the return code `-1`. -/
def queueDequeueNb (q : RawQueue α) : Option (α × RawQueue α) :=
  if q.rindex % q.max = q.maxRindex % q.max then none
  else some (q.bucket q.rindex, { q with rindex := nextIndex q q.rindex })

/-- `queue_size`, on `uint32_t`. -/
def queueSize (q : RawQueue α) : ℕ :=
  if q.windex ≥ q.rindex then q.windex - q.rindex
  else (q.max + q.windex + (2 ^ 32 - q.rindex)) % 2 ^ 32

/-- A call of `ds_queue.c`. -/
def nbCall (q : RawQueue α) : NbCall α → QueueReply α × RawQueue α
  | .enqueueNb data => (.code (q.queueEnqueueNb data).1, (q.queueEnqueueNb data).2)
  | .dequeueNb =>
    match q.queueDequeueNb with
    | none => (.code (-1), q)
    | some (data, q') => (.value data, q')
  | .size => (.size q.queueSize, q)

end RawQueue

variable {T : Type} [DecidableEq T] {s : State T α} {t : T} {max : ℕ}

/-- The cell at `windex` is reserved. -/
def State.reserve (s : State T α) (data : α) : State T α :=
  { s with
    queue := { s.queue with windex := nextIndex s.queue s.queue.windex }
    reserved := s.reserved ++ [data] }

/-- The value is written to its cell. -/
def State.store (s : State T α) (windex : ℕ) (data : α) : State T α :=
  { s with queue := { s.queue with bucket := Function.update s.queue.bucket windex data } }

/-- A thread takes a step. -/
theorem exec_go {s' : State T α} (h : stepThread s t = some s') (n : ℕ) :
    (lockFree T α max).exec Machine.Always s (List.replicate (n + 1) (.go t))
      = (lockFree T α max).exec Machine.Always s' (List.replicate n (.go t)) :=
  Machine.exec_cons trivial h

/-- **The steps of a call** of `queue_enqueue_nb`, one after the other. -/
theorem exec_enqueue (hidle : s.pc t = .idle) (hpublished : s.queue.maxRindex = s.queue.windex)
    (data : α) : ∃ n, (lockFree T α max).exec Machine.Always s
        (.enqueue t data :: List.replicate n (.go t)) = some
      (if (s.queue.queueEnqueueNb data).1 = -1 then s
      else
        { s with
          queue := (s.queue.queueEnqueueNb data).2
          reserved := s.reserved ++ [data]
          published := s.published ++ [data] }) := by
  have hcall : (lockFree T α max).step s (.enqueue t data)
      = some (s.goto t (.enLoadWindex data)) := by
    simp [lockFree, State.step, hidle]
  have hload : stepThread (s.goto t (.enLoadWindex data)) t
      = some (s.goto t (.enLoadRindex data s.queue.windex)) := by
    simp [stepThread]
  by_cases hfull : nextIndex s.queue s.queue.windex = s.queue.rindex % s.queue.max
  · have htest : stepThread (s.goto t (.enLoadRindex data s.queue.windex)) t = some s := by
      simp [stepThread, hfull, s.goto_self hidle]
    refine ⟨2, ?_⟩
    rw [Machine.exec_cons trivial hcall, exec_go hload, exec_go htest, RawQueue.queueEnqueueNb,
      if_pos hfull]
    rfl
  · have htest : stepThread (s.goto t (.enLoadRindex data s.queue.windex)) t
        = some (s.goto t (.enCas data s.queue.windex)) := by
      simp [stepThread, hfull]
    have hcas : stepThread (s.goto t (.enCas data s.queue.windex)) t
        = some ((s.reserve data).goto t (.enStore data s.queue.windex)) := by
      simp [stepThread, State.goto, State.reserve]
    have hstore : stepThread ((s.reserve data).goto t (.enStore data s.queue.windex)) t
        = some (((s.reserve data).store s.queue.windex data).goto t
          (.enPublish data s.queue.windex)) := by
      simp [stepThread, State.goto, State.store]
    have hpublish : stepThread (((s.reserve data).store s.queue.windex data).goto t
          (.enPublish data s.queue.windex)) t
        = some { (s.reserve data).store s.queue.windex data with
          queue := (s.queue.queueEnqueueNb data).2
          published := s.published ++ [data] } := by
      have hself : ((s.reserve data).store s.queue.windex data).goto t .idle
          = (s.reserve data).store s.queue.windex data := State.goto_self _ hidle
      simp only [stepThread, State.goto_pc, State.goto_queue, State.goto_goto, hself,
        RawQueue.queueEnqueueNb, if_neg hfull]
      exact if_pos hpublished
    refine ⟨5, ?_⟩
    rw [Machine.exec_cons trivial hcall, exec_go hload, exec_go htest, exec_go hcas,
      exec_go hstore, exec_go hpublish, RawQueue.queueEnqueueNb, if_neg hfull]
    rfl

/-- **The steps of a call** of `queue_dequeue_nb`, one after the other. -/
theorem exec_dequeue (hidle : s.pc t = .idle) :
    ∃ n, (lockFree T α max).exec Machine.Always s (.dequeue t :: List.replicate n (.go t)) = some
      (match s.queue.queueDequeueNb with
        | none => s
        | some (data, q) => { s with queue := q, dequeued := s.dequeued ++ [data] }) := by
  have hcall : (lockFree T α max).step s (.dequeue t) = some (s.goto t .deLoadRindex) := by
    simp [lockFree, State.step, hidle]
  have hload : stepThread (s.goto t .deLoadRindex) t
      = some (s.goto t (.deLoadMaxRindex s.queue.rindex)) := by
    simp [stepThread]
  by_cases hempty : s.queue.rindex % s.queue.max = s.queue.maxRindex % s.queue.max
  · have htest : stepThread (s.goto t (.deLoadMaxRindex s.queue.rindex)) t = some s := by
      simp [stepThread, hempty, s.goto_self hidle]
    refine ⟨2, ?_⟩
    rw [Machine.exec_cons trivial hcall, exec_go hload, exec_go htest, RawQueue.queueDequeueNb,
      if_pos hempty]
    rfl
  · have htest : stepThread (s.goto t (.deLoadMaxRindex s.queue.rindex)) t
        = some (s.goto t (.deLoadBucket s.queue.rindex)) := by
      simp [stepThread, hempty]
    have hread : stepThread (s.goto t (.deLoadBucket s.queue.rindex)) t
        = some (s.goto t (.deCas s.queue.rindex (s.queue.bucket s.queue.rindex))) := by
      simp [stepThread]
    have hcas : stepThread
        (s.goto t (.deCas s.queue.rindex (s.queue.bucket s.queue.rindex))) t
        = some { s with
          queue := { s.queue with rindex := nextIndex s.queue s.queue.rindex }
          dequeued := s.dequeued ++ [s.queue.bucket s.queue.rindex] } := by
      have hself : s.goto t .idle = s := s.goto_self hidle
      simp only [stepThread, State.goto_pc, State.goto_queue, State.goto_goto, hself]
      exact if_pos trivial
    refine ⟨4, ?_⟩
    rw [Machine.exec_cons trivial hcall, exec_go hload, exec_go htest, exec_go hread,
      exec_go hcas, RawQueue.queueDequeueNb, if_neg hempty]
    rfl

/-- What the queue holds while no call is under way. -/
structure Holds (max : ℕ) (q : RawQueue α) (l : List α) : Prop where
  max_eq : q.max = max
  rindex_lt : q.rindex < max
  length_lt : l.length < max
  windex_eq : q.windex = Ring.slot max q.rindex l.length
  maxRindex_eq : q.maxRindex = q.windex
  contents_eq : Ring.contents q.bucket max q.rindex l.length = l

theorem holds_queueNew (hmax : 1 ≤ max) (bucket : ℕ → α) : Holds max (queueNew max bucket) [] where
  max_eq := rfl
  rindex_lt := hmax
  length_lt := hmax
  windex_eq := (Ring.slot_zero hmax).symm
  maxRindex_eq := rfl
  contents_eq := rfl

variable {q : RawQueue α} {l : List α}

theorem nextIndex_eq_slot (hq : q.max = max) (hsmall : max < 2 ^ 32) {i : ℕ} (hi : i < max) :
    nextIndex q i = Ring.slot max i 1 := by
  have hword : i + 1 < 2 ^ 32 := by omega
  rw [nextIndex, hq, Nat.mod_eq_of_lt hword, Ring.slot_eq_mod hi (by omega)]

namespace Holds

theorem windex_lt (h : Holds max q l) : q.windex < max := by
  rw [h.windex_eq]
  exact Ring.slot_lt h.rindex_lt (Nat.le_of_lt h.length_lt)

theorem rindex_mod (h : Holds max q l) : q.rindex % q.max = q.rindex := by
  rw [h.max_eq, Nat.mod_eq_of_lt h.rindex_lt]

theorem nextIndex_windex (h : Holds max q l) (hsmall : max < 2 ^ 32) :
    nextIndex q q.windex = Ring.slot max q.rindex (l.length + 1) := by
  rw [nextIndex_eq_slot h.max_eq hsmall h.windex_lt, h.windex_eq,
    Ring.slot_one_slot h.rindex_lt h.length_lt]

/-- The call takes the queue for full when one cell is left. -/
theorem full_iff (h : Holds max q l) (hsmall : max < 2 ^ 32) :
    nextIndex q q.windex = q.rindex % q.max ↔ l.length + 1 = max := by
  have hr := h.rindex_lt
  have hl := h.length_lt
  rw [h.nextIndex_windex hsmall, h.rindex_mod, Ring.slot]
  split <;> omega

theorem empty_iff (h : Holds max q l) : q.rindex % q.max = q.maxRindex % q.max ↔ l = [] := by
  have hr := h.rindex_lt
  have hl := h.length_lt
  rw [h.rindex_mod, h.maxRindex_eq, h.max_eq, Nat.mod_eq_of_lt h.windex_lt, h.windex_eq, Ring.slot,
    ← List.length_eq_zero_iff]
  split <;> omega

theorem queueEnqueueNb (h : Holds max q l) (hsmall : max < 2 ^ 32) (hroom : l.length + 1 < max)
    (data : α) : (q.queueEnqueueNb data).1 = 0 ∧
      Holds max (q.queueEnqueueNb data).2 (l ++ [data]) := by
  have hlen : (l ++ [data]).length = l.length + 1 := List.length_append
  have hw : nextIndex q q.windex = Ring.slot max q.rindex (l ++ [data]).length := by
    rw [hlen]
    exact h.nextIndex_windex hsmall
  rw [RawQueue.queueEnqueueNb, if_neg (mt (h.full_iff hsmall).mp (by omega))]
  refine ⟨rfl, h.max_eq, h.rindex_lt, by omega, hw, rfl, ?_⟩
  show Ring.contents (Function.update q.bucket q.windex data) max q.rindex _ = _
  rw [hlen, h.windex_eq, Ring.contents_push q.bucket h.length_lt, h.contents_eq]

theorem queueDequeueNb {data : α} (h : Holds max q (data :: l)) (hsmall : max < 2 ^ 32) :
    ∃ q', q.queueDequeueNb = some (data, q') ∧ Holds max q' l := by
  have hl : l.length + 1 < max := h.length_lt
  have hpop : q.bucket q.rindex :: Ring.contents q.bucket max (Ring.slot max q.rindex 1) l.length
      = data :: l := by
    rw [← Ring.contents_pop q.bucket h.rindex_lt (Nat.le_of_lt hl)]
    exact h.contents_eq
  have hnext : nextIndex q q.rindex = Ring.slot max q.rindex 1 :=
    nextIndex_eq_slot h.max_eq hsmall h.rindex_lt
  obtain ⟨hdata, hrest⟩ := List.cons.inj hpop
  refine ⟨{ q with rindex := nextIndex q q.rindex }, ?_, h.max_eq, ?_, by omega, ?_,
    h.maxRindex_eq, ?_⟩
  · rw [RawQueue.queueDequeueNb, if_neg (mt h.empty_iff.mp (List.cons_ne_nil _ _)), hdata]
  · show nextIndex q q.rindex < max
    rw [hnext]
    exact Ring.slot_lt h.rindex_lt (by omega)
  · show q.windex = Ring.slot max (nextIndex q q.rindex) l.length
    rw [hnext, Ring.slot_slot_one h.rindex_lt (Nat.le_of_lt hl)]
    exact h.windex_eq
  · show Ring.contents q.bucket max (nextIndex q q.rindex) l.length = l
    rw [hnext]
    exact hrest

theorem queueSize (h : Holds max q l) (hsmall : max < 2 ^ 32) : q.queueSize = l.length := by
  have hr := h.rindex_lt
  have hl := h.length_lt
  have hw := h.windex_eq
  rw [RawQueue.queueSize, h.max_eq]
  unfold Ring.slot at hw
  split at hw <;> split <;> omega

end Holds

/-- **A queue of `max - 1` elements.** -/
theorem replies_lockFree (hmax : 1 ≤ max) (hsmall : max < 2 ^ 32) (bucket : ℕ → α)
    (calls : List (NbCall α)) :
    replies RawQueue.nbCall (queueNew max bucket) calls
      = replies (boundedFifo (max - 1)) [] calls := by
  refine replies_eq (R := Holds max) ?_ (holds_queueNew hmax bucket) calls
  intro q l c h
  cases c with
  | enqueueNb data =>
    rw [RawQueue.nbCall, boundedFifo]
    split
    next hroom =>
      obtain ⟨hcode, hholds⟩ := h.queueEnqueueNb hsmall (by omega) data
      rw [hcode]
      exact ⟨rfl, hholds⟩
    next hfull =>
      have hlt := h.length_lt
      rw [RawQueue.queueEnqueueNb, if_pos ((h.full_iff hsmall).mpr (by omega))]
      exact ⟨rfl, h⟩
  | dequeueNb =>
    cases l with
    | nil =>
      rw [RawQueue.nbCall, RawQueue.queueDequeueNb, if_pos (h.empty_iff.mpr rfl)]
      exact ⟨rfl, h⟩
    | cons data rest =>
      obtain ⟨q', hq', hholds⟩ := h.queueDequeueNb hsmall
      rw [RawQueue.nbCall, hq']
      exact ⟨rfl, hholds⟩
  | size =>
    rw [RawQueue.nbCall, boundedFifo, h.queueSize hsmall]
    exact ⟨rfl, h⟩

end LockFree

/-! ## Both -/

/-- Nothing is to be enqueued behind `cap` elements or more, `n` being queued at first. -/
def StaysBelow (cap : ℕ) : ℕ → List (NbCall α) → Prop
  | _, [] => True
  | n, .enqueueNb _ :: calls => n < cap ∧ StaysBelow cap (n + 1) calls
  | n, .dequeueNb :: calls => StaysBelow cap (n - 1) calls
  | n, .size :: calls => StaysBelow cap n calls

/-- A call that is no enqueue behind `cap` elements or more. -/
def NbCall.Fits (cap : ℕ) (l : List α) : NbCall α → Prop
  | .enqueueNb _ => l.length < cap
  | .dequeueNb | .size => True

theorem throughout_fits_iff {cap cap' : ℕ} (hle : cap ≤ cap') (l : List α)
    (calls : List (NbCall α)) :
    Throughout (boundedFifo cap') (NbCall.Fits cap) l calls ↔ StaysBelow cap l.length calls := by
  induction calls generalizing l with
  | nil => exact Iff.rfl
  | cons c calls ih =>
    rw [Throughout, ih]
    cases c with
    | enqueueNb data =>
      refine and_congr_right fun hroom => ?_
      have hroom' : l.length < cap' := Nat.lt_of_lt_of_le hroom hle
      rw [boundedFifo, if_pos hroom', List.length_append, List.length_singleton]
    | dequeueNb =>
      cases l with
      | nil => exact .of_eq (true_and _)
      | cons data rest => exact .of_eq (true_and _)
    | size => exact .of_eq (true_and _)

/-- Two capacities tell a sequence of calls apart when it fills the smaller one. -/
theorem replies_boundedFifo_iff {cap cap' : ℕ} (hlt : cap < cap') (calls : List (NbCall α)) :
    replies (boundedFifo cap') [] calls = replies (boundedFifo cap) [] calls
      ↔ StaysBelow cap 0 calls := by
  have hle : cap ≤ cap' := Nat.le_of_lt hlt
  refine Iff.trans ?_ (throughout_fits_iff hle [] calls)
  refine replies_eq_iff (R := fun l l' => l = l' ∧ l.length ≤ cap) ?_ ⟨rfl, Nat.zero_le _⟩ calls
  rintro l _ c ⟨rfl, hcap⟩
  cases c with
  | enqueueNb data =>
    rw [boundedFifo, if_pos (Nat.lt_of_le_of_lt hcap hlt), boundedFifo, NbCall.Fits]
    split
    next hroom =>
      refine ⟨iff_of_true rfl hroom, fun _ => ⟨rfl, ?_⟩⟩
      rw [List.length_append]
      exact hroom
    next hfull => exact ⟨iff_of_false (by simp) hfull, fun hroom => absurd hroom hfull⟩
  | dequeueNb =>
    cases l with
    | nil => exact ⟨iff_of_true rfl trivial, fun _ => ⟨rfl, hcap⟩⟩
    | cons data rest =>
      exact ⟨iff_of_true rfl trivial, fun _ => ⟨rfl, Nat.le_of_succ_le hcap⟩⟩
  | size => exact ⟨iff_of_true rfl trivial, fun _ => ⟨rfl, hcap⟩⟩

/-- **The two queues reply the same** just as long as nothing is to be enqueued behind `max - 1`
elements: the lock-free one keeps a cell free to tell a full ring from an empty one. -/
theorem queues_interchangeable_iff {max : ℕ} (hmax : 1 ≤ max) (hsmall : max < 2 ^ 32)
    (bucket below bucket' : ℕ → α) (calls : List (NbCall α)) :
    replies RawQueue.nbCall (queueNew max bucket below) calls
        = replies LockFree.RawQueue.nbCall (LockFree.queueNew max bucket') calls
      ↔ StaysBelow (max - 1) 0 calls := by
  rw [replies_mutex hmax, LockFree.replies_lockFree hmax hsmall,
    replies_boundedFifo_iff (Nat.sub_lt hmax Nat.one_pos)]

/-- With two cells, an element at a time. -/
theorem queues_interchangeable_twoCells :
    replies RawQueue.nbCall (queueNew 2 id id)
        [.enqueueNb 5, .size, .dequeueNb, .enqueueNb 6, .dequeueNb, .dequeueNb]
      = replies LockFree.RawQueue.nbCall (LockFree.queueNew 2 id)
        [.enqueueNb 5, .size, .dequeueNb, .enqueueNb 6, .dequeueNb, .dequeueNb] :=
  (queues_interchangeable_iff (by decide) (by decide) id id id _).mpr (by simp [StaysBelow])

/-- The second of two elements fits in two cells with the mutex, and not without. -/
theorem queues_differ : ∃ (max : ℕ) (calls : List (NbCall ℕ)), 1 ≤ max ∧ max < 2 ^ 32 ∧
    replies RawQueue.nbCall (queueNew max id id) calls = [.code 0, .code 0] ∧
    replies LockFree.RawQueue.nbCall (LockFree.queueNew max id) calls = [.code 0, .code (-1)] :=
  ⟨2, [.enqueueNb 5, .enqueueNb 6], by decide, by decide, by decide, by decide⟩

end Dungeon
