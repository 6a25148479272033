import Mathlib.Algebra.Group.Nat.Defs
import Mathlib.Data.List.Infix
import Dungeon.Lib.Machine
import Dungeon.Lib.Ring

/-!
# The lock-free queue (`ds_queue.c`)

A ring of `max` cells and three indices. A producer reserves a cell by moving `windex` on,
writes it, and publishes it by moving `max_rindex` on, in the order of the reservations; a
consumer reads the cell at `rindex` and then moves `rindex` on. Every load, store and
compare-and-swap is a step of its own, and any number of threads take turns.

- `RawQueue`, `queueNew`: `struct queue_st`.
- `Pc`, `stepThread`: what a thread in a call does next.
- `lockFree`: the runs, with the values kept in the order in which producers reserved,
  producers published and consumers moved on.
- `Timely`: a compare-and-swap that succeeds finds what its call checked still true. The
  words it compares are indices modulo `max`, so an old one can be back after the ring went
  round.
- `lockFree_fifo`: along timely steps the dequeued values are a prefix of the enqueued ones.
  `lockFree_reordered` is a run with one other step.
-/

namespace Dungeon

namespace LockFree

variable {T α : Type}

/-- `struct queue_st`. -/
structure RawQueue (α : Type) where
  max : ℕ
  maxRindex : ℕ
  rindex : ℕ
  windex : ℕ
  bucket : ℕ → α

/-- `queue_new`: `malloc` leaves the cells arbitrary. -/
def queueNew (max : ℕ) (bucket : ℕ → α) : RawQueue α where
  max := max
  maxRindex := 0
  rindex := 0
  windex := 0
  bucket := bucket

/-- `(i + 1) % q->max`, on `uint32_t`. -/
def nextIndex (q : RawQueue α) (i : ℕ) : ℕ := (i + 1) % 2 ^ 32 % q.max

/-- Where a thread is in `queue_enqueue_nb` or `queue_dequeue_nb`, with its local
variables. -/
inductive Pc (α : Type) where
  | idle
  | enLoadWindex (data : α)
  | enLoadRindex (data : α) (windex : ℕ)
  | enCas (data : α) (windex : ℕ)
  | enStore (data : α) (windex : ℕ)
  | enPublish (data : α) (windex : ℕ)
  | deLoadRindex
  | deLoadMaxRindex (rindex : ℕ)
  | deLoadBucket (rindex : ℕ)
  | deCas (rindex : ℕ) (p : α)

/-- The queue, the threads, and what went in and came out so far. -/
structure State (T α : Type) where
  queue : RawQueue α
  pc : T → Pc α
  /-- values, in the order of the compare-and-swaps on `windex` -/
  reserved : List α
  /-- values, in the order of the compare-and-swaps on `max_rindex` -/
  published : List α
  /-- values, in the order of the compare-and-swaps on `rindex` -/
  dequeued : List α

/-- A thread enters a call, or takes its next step. -/
inductive Action (T α : Type) where
  | enqueue (t : T) (data : α)
  | dequeue (t : T)
  | go (t : T)

/-- The thread that an action is of. -/
def Action.thread : Action T α → T
  | .enqueue t _ => t
  | .dequeue t => t
  | .go t => t

variable [DecidableEq T]

/-- A thread is somewhere else. -/
def State.goto (s : State T α) (t : T) (pc : Pc α) : State T α :=
  { s with pc := Function.update s.pc t pc }

@[simp] theorem State.goto_pc (s : State T α) (t : T) (pc : Pc α) : (s.goto t pc).pc t = pc :=
  Function.update_self ..

@[simp] theorem State.goto_queue (s : State T α) (t : T) (pc : Pc α) :
    (s.goto t pc).queue = s.queue := rfl

@[simp] theorem State.goto_goto (s : State T α) (t : T) (pc pc' : Pc α) :
    (s.goto t pc).goto t pc' = s.goto t pc' := by
  simp [State.goto]

/-- Nothing changes for a thread that is put where it is. -/
theorem State.goto_self (s : State T α) {t : T} {pc : Pc α} (h : s.pc t = pc) :
    s.goto t pc = s := by
  rw [State.goto, ← h, Function.update_eq_self]

theorem State.goto_pc_of_ne (s : State T α) {t t' : T} (pc : Pc α) (hne : t' ≠ t) :
    (s.goto t pc).pc t' = s.pc t' :=
  Function.update_of_ne hne ..

/-- The next step of a thread in a call. -/
def stepThread (s : State T α) (t : T) : Option (State T α) :=
  let q := s.queue
  match s.pc t with
  | .idle => none
  | .enLoadWindex data => some (s.goto t (.enLoadRindex data q.windex))
  | .enLoadRindex data windex =>
    -- a full queue ends the call with `-1`
    if nextIndex q windex = q.rindex % q.max then some (s.goto t .idle)
    else some (s.goto t (.enCas data windex))
  | .enCas data windex =>
    if q.windex = windex then
      some { s.goto t (.enStore data windex) with
        queue := { q with windex := nextIndex q windex }
        reserved := s.reserved ++ [data] }
    else some (s.goto t (.enLoadWindex data))
  | .enStore data windex =>
    some { s.goto t (.enPublish data windex) with
      queue := { q with bucket := Function.update q.bucket windex data } }
  | .enPublish data windex =>
    if q.maxRindex = windex then
      some { s.goto t .idle with
        queue := { q with maxRindex := nextIndex q windex }
        published := s.published ++ [data] }
    else some s
  | .deLoadRindex => some (s.goto t (.deLoadMaxRindex q.rindex))
  | .deLoadMaxRindex rindex =>
    -- an empty queue ends the call with `-1`
    if rindex % q.max = q.maxRindex % q.max then some (s.goto t .idle)
    else some (s.goto t (.deLoadBucket rindex))
  | .deLoadBucket rindex => some (s.goto t (.deCas rindex (q.bucket rindex)))
  | .deCas rindex p =>
    if q.rindex = rindex then
      some { s.goto t .idle with
        queue := { q with rindex := nextIndex q rindex }
        dequeued := s.dequeued ++ [p] }
    else some (s.goto t .deLoadRindex)

/-- One step. -/
def State.step (s : State T α) : Action T α → Option (State T α)
  | .enqueue t data =>
    match s.pc t with
    | .idle => some (s.goto t (.enLoadWindex data))
    | _ => none
  | .dequeue t =>
    match s.pc t with
    | .idle => some (s.goto t .deLoadRindex)
    | _ => none
  | .go t => stepThread s t

/-- The threads `T` on a queue made by `queue_new(max)`. -/
def lockFree (T α : Type) [DecidableEq T] (max : ℕ) : Machine (State T α) (Action T α) where
  init s := ∃ bucket : ℕ → α, s = ⟨queueNew max bucket, fun _ => .idle, [], [], []⟩
  step := State.step

/-- The compare-and-swap of a thread, if it succeeds now, does so on a queue as the call
found it: not full, or with the value that was read at its front. -/
def Pc.Timely (q : RawQueue α) : Pc α → Prop
  | .enCas _ windex => q.windex = windex → nextIndex q q.windex ≠ q.rindex
  | .deCas rindex p =>
      q.rindex = rindex → q.rindex ≠ q.maxRindex ∧ q.bucket q.rindex = p
  | _ => True

/-- No compare-and-swap succeeds on an index that is back after a round in which what its
call checked ceased to hold. -/
def Timely (s : State T α) (a : Action T α) : Prop := (s.pc a.thread).Timely s.queue

/-! ## What one step does -/

/-- The cell a producer has reserved and not yet published, with the value for it. -/
def Pc.ticket : Pc α → Option (α × ℕ)
  | .enStore data windex => some (data, windex)
  | .enPublish data windex => some (data, windex)
  | _ => none

/-- The kinds of steps. -/
inductive Move (s : State T α) (t : T) : State T α → Prop where
  /-- nothing but the thread's own variables changes -/
  | quiet {pc : Pc α} (ht : (s.pc t).ticket = none) (hp : pc.ticket = none) :
      Move s t (s.goto t pc)
  | wait {data : α} {windex : ℕ} (ht : s.pc t = .enPublish data windex) : Move s t s
  | reserve {data : α} {windex : ℕ} (ht : s.pc t = .enCas data windex)
      (hw : s.queue.windex = windex) :
      Move s t { s.goto t (.enStore data windex) with
        queue := { s.queue with windex := nextIndex s.queue windex }
        reserved := s.reserved ++ [data] }
  | store {data : α} {windex : ℕ} (ht : s.pc t = .enStore data windex) :
      Move s t { s.goto t (.enPublish data windex) with
        queue := { s.queue with bucket := Function.update s.queue.bucket windex data } }
  | publish {data : α} {windex : ℕ} (ht : s.pc t = .enPublish data windex)
      (hm : s.queue.maxRindex = windex) :
      Move s t { s.goto t .idle with
        queue := { s.queue with maxRindex := nextIndex s.queue windex }
        published := s.published ++ [data] }
  | consume {rindex : ℕ} {p : α} (ht : s.pc t = .deCas rindex p)
      (hr : s.queue.rindex = rindex) :
      Move s t { s.goto t .idle with
        queue := { s.queue with rindex := nextIndex s.queue rindex }
        dequeued := s.dequeued ++ [p] }

theorem stepThread_cases {s s' : State T α} {t : T} (h : stepThread s t = some s') :
    Move s t s' := by
  unfold stepThread at h
  cases hpc : s.pc t with
  | idle =>
    rw [hpc] at h
    cases h
  | enLoadWindex data =>
    rw [hpc] at h
    obtain rfl := Option.some.inj h
    exact .quiet (by rw [hpc]; rfl) rfl
  | enLoadRindex data windex =>
    rw [hpc] at h
    dsimp only at h
    split at h
    all_goals
      obtain rfl := Option.some.inj h
      exact .quiet (by rw [hpc]; rfl) rfl
  | enCas data windex =>
    rw [hpc] at h
    dsimp only at h
    split at h
    next hw =>
      obtain rfl := Option.some.inj h
      exact .reserve hpc hw
    next =>
      obtain rfl := Option.some.inj h
      exact .quiet (by rw [hpc]; rfl) rfl
  | enStore data windex =>
    rw [hpc] at h
    obtain rfl := Option.some.inj h
    exact .store hpc
  | enPublish data windex =>
    rw [hpc] at h
    dsimp only at h
    split at h
    next hm =>
      obtain rfl := Option.some.inj h
      exact .publish hpc hm
    next =>
      obtain rfl := Option.some.inj h
      exact .wait hpc
  | deLoadRindex =>
    rw [hpc] at h
    obtain rfl := Option.some.inj h
    exact .quiet (by rw [hpc]; rfl) rfl
  | deLoadMaxRindex rindex =>
    rw [hpc] at h
    dsimp only at h
    split at h
    all_goals
      obtain rfl := Option.some.inj h
      exact .quiet (by rw [hpc]; rfl) rfl
  | deLoadBucket rindex =>
    rw [hpc] at h
    obtain rfl := Option.some.inj h
    exact .quiet (by rw [hpc]; rfl) rfl
  | deCas rindex p =>
    rw [hpc] at h
    dsimp only at h
    split at h
    next hr =>
      obtain rfl := Option.some.inj h
      exact .consume hpc hr
    next =>
      obtain rfl := Option.some.inj h
      exact .quiet (by rw [hpc]; rfl) rfl

theorem step_cases {s s' : State T α} {a : Action T α} (h : s.step a = some s') :
    Move s a.thread s' := by
  cases a with
  | enqueue t data =>
    dsimp only [State.step] at h
    split at h
    next hpc =>
      obtain rfl := Option.some.inj h
      exact .quiet (congrArg Pc.ticket hpc) rfl
    next => cases h
  | dequeue t =>
    dsimp only [State.step] at h
    split at h
    next hpc =>
      obtain rfl := Option.some.inj h
      exact .quiet (congrArg Pc.ticket hpc) rfl
    next => cases h
  | go t => exact stepThread_cases h

/-! ## The invariant -/

/-- The indices count modulo `max`: what was dequeued is a prefix of what was published, and
that of what was reserved, less than a round ahead; the published values that are left are
in their cells; and every producer between reserving and publishing has a place of its own
behind the published ones. -/
structure Linked (max : ℕ) (s : State T α) : Prop where
  max_eq : s.queue.max = max
  rindex : s.queue.rindex = s.dequeued.length % max
  maxRindex : s.queue.maxRindex = s.published.length % max
  windex : s.queue.windex = s.reserved.length % max
  dequeued : s.dequeued <+: s.published
  published : s.published <+: s.reserved
  round : s.reserved.length < s.dequeued.length + max
  stored : ∀ k, s.dequeued.length ≤ k → k < s.published.length →
    s.published[k]? = some (s.queue.bucket (k % max))
  ticket : ∀ t data w, (s.pc t).ticket = some (data, w) →
    ∃ k, s.published.length ≤ k ∧ s.reserved[k]? = some data ∧ k % max = w
  own : ∀ t t' data data' w, (s.pc t).ticket = some (data, w) →
    (s.pc t').ticket = some (data', w) → t = t'
  written : ∀ t data w, s.pc t = .enPublish data w → s.queue.bucket w = data

variable {max : ℕ} {s s' : State T α} {t : T}

omit [DecidableEq T] in
theorem nextIndex_mod (hmax : s.queue.max = max) (hpos : 0 < max) (hsmall : max < 2 ^ 32)
    (n : ℕ) : nextIndex s.queue (n % max) = (n + 1) % max := by
  have hlt : n % max < max := Nat.mod_lt n hpos
  have hword : n % max + 1 < 2 ^ 32 := by omega
  unfold nextIndex
  rw [hmax, Nat.mod_eq_of_lt hword, Nat.mod_add_mod]

/-- Tickets after a thread moved on to a place without one. -/
theorem ticket_goto {pc : Pc α} (hp : pc.ticket = none) {t' : T} {d : α × ℕ}
    (h : (Function.update s.pc t pc t').ticket = some d) :
    t' ≠ t ∧ (s.pc t').ticket = some d := by
  by_cases ht : t' = t
  · rw [ht, Function.update_self, hp] at h
    cases h
  · rw [Function.update_of_ne ht] at h
    exact ⟨ht, h⟩

/-- A thread moves on to a place without a ticket. -/
theorem Linked.goto (hl : Linked max s) {pc : Pc α} (hp : pc.ticket = none) :
    Linked max (s.goto t pc) where
  max_eq := hl.max_eq
  rindex := hl.rindex
  maxRindex := hl.maxRindex
  windex := hl.windex
  dequeued := hl.dequeued
  published := hl.published
  round := hl.round
  stored := hl.stored
  ticket _ data w h := hl.ticket _ data w (ticket_goto hp h).2
  own _ _ data data' w h h' :=
    hl.own _ _ data data' w (ticket_goto hp h).2 (ticket_goto hp h').2
  written t' data w h := by
    have hticket : (Function.update s.pc t pc t').ticket = some (data, w) := by
      show ((s.goto t pc).pc t').ticket = some (data, w)
      rw [h]
      rfl
    refine hl.written t' data w ?_
    rw [← Function.update_of_ne (ticket_goto hp hticket).1 pc s.pc]
    exact h

/-- Reserving a cell of a queue that is not full. -/
theorem Linked.reserve (hl : Linked max s) (hpos : 0 < max) (hsmall : max < 2 ^ 32) {data : α}
    {windex : ℕ} (ht : s.pc t = .enCas data windex) (hw : s.queue.windex = windex)
    (hroom : nextIndex s.queue s.queue.windex ≠ s.queue.rindex) :
    Linked max { s.goto t (.enStore data windex) with
      queue := { s.queue with windex := nextIndex s.queue windex }
      reserved := s.reserved ++ [data] } := by
  subst hw
  have hnext : nextIndex s.queue s.queue.windex = (s.reserved.length + 1) % max := by
    rw [hl.windex]
    exact nextIndex_mod hl.max_eq hpos hsmall _
  have hlen : (s.reserved ++ [data]).length = s.reserved.length + 1 := List.length_append
  have hle := hl.published.length_le
  have hle' := hl.dequeued.length_le
  have hround := hl.round
  -- a thread that had a ticket keeps it, and its cell is not the new one
  have hother (t' : T) (d : α × ℕ)
      (h : (Function.update s.pc t (.enStore data s.queue.windex) t').ticket = some d) :
      t' = t ∧ d = (data, s.queue.windex) ∨
      t' ≠ t ∧ (s.pc t').ticket = some d ∧ d.2 ≠ s.queue.windex := by
    by_cases htt : t' = t
    · rw [htt, Function.update_self] at h
      exact .inl ⟨htt, (Option.some.inj h).symm⟩
    · rw [Function.update_of_ne htt] at h
      obtain ⟨k, hk, hdata, hcell⟩ := hl.ticket t' d.1 d.2 h
      obtain ⟨hlt, -⟩ := List.getElem?_eq_some_iff.mp hdata
      refine .inr ⟨htt, h, fun heq => ?_⟩
      rw [heq, hl.windex] at hcell
      have := Ring.mod_inj hlt.le (by omega) hcell
      omega
  refine ⟨hl.max_eq, hl.rindex, hl.maxRindex, ?_, hl.dequeued,
    hl.published.trans (List.prefix_append _ _), ?_, hl.stored, ?_, ?_, ?_⟩
  · show nextIndex s.queue s.queue.windex = (s.reserved ++ [data]).length % max
    rw [hnext, hlen]
  · show (s.reserved ++ [data]).length < s.dequeued.length + max
    rw [hlen]
    refine lt_of_le_of_ne (by omega) fun hfull => hroom ?_
    rw [hnext, hl.rindex, hfull, Nat.add_mod_right]
  · rintro t' d w h
    rcases hother t' _ h with ⟨-, heq⟩ | ⟨-, h, -⟩
    · obtain ⟨rfl, rfl⟩ := Prod.mk.inj heq
      refine ⟨s.reserved.length, hle, ?_, hl.windex.symm⟩
      exact List.getElem?_concat_length
    · obtain ⟨k, hk, hdata, hcell⟩ := hl.ticket t' d w h
      obtain ⟨hlt, -⟩ := List.getElem?_eq_some_iff.mp hdata
      exact ⟨k, hk, (List.getElem?_append_left hlt).trans hdata, hcell⟩
  · rintro t₁ t₂ d₁ d₂ w h₁ h₂
    rcases hother t₁ _ h₁ with ⟨rfl, heq₁⟩ | ⟨-, h₁, hne₁⟩
    · rcases hother t₂ _ h₂ with ⟨rfl, -⟩ | ⟨-, -, hne₂⟩
      · rfl
      · exact absurd (Prod.mk.inj heq₁).2 hne₂
    · rcases hother t₂ _ h₂ with ⟨rfl, heq₂⟩ | ⟨-, h₂, -⟩
      · exact absurd (Prod.mk.inj heq₂).2 hne₁
      · exact hl.own t₁ t₂ d₁ d₂ w h₁ h₂
  · rintro t' d w h
    have h : Function.update s.pc t (.enStore data s.queue.windex) t' = .enPublish d w := h
    by_cases htt : t' = t
    · rw [htt, Function.update_self] at h
      cases h
    · rw [Function.update_of_ne htt] at h
      exact hl.written t' d w h

/-- Writing the reserved cell. -/
theorem Linked.store (hl : Linked max s) {data : α} {windex : ℕ}
    (ht : s.pc t = .enStore data windex) :
    Linked max { s.goto t (.enPublish data windex) with
      queue := { s.queue with bucket := Function.update s.queue.bucket windex data } } := by
  have hmine : (s.pc t).ticket = some (data, windex) := by
    rw [ht]
    rfl
  have hticket (t' : T) : (Function.update s.pc t (.enPublish data windex) t').ticket
      = (s.pc t').ticket := by
    by_cases htt : t' = t
    · rw [htt, Function.update_self, hmine]
      rfl
    · rw [Function.update_of_ne htt]
  obtain ⟨k, hk, hdata, hcell⟩ := hl.ticket t data windex hmine
  obtain ⟨hlt, -⟩ := List.getElem?_eq_some_iff.mp hdata
  have hround := hl.round
  refine ⟨hl.max_eq, hl.rindex, hl.maxRindex, hl.windex, hl.dequeued, hl.published, hl.round,
    fun j hj hj' => ?_, fun t' d w h => ?_, fun t₁ t₂ d₁ d₂ w h₁ h₂ => ?_,
    fun t' d w h => ?_⟩
  · -- the published values that are left are less than a round behind
    have hj : s.dequeued.length ≤ j := hj
    have hj' : j < s.published.length := hj'
    have hne : j % max ≠ windex := by
      rintro rfl
      have := Ring.mod_inj (by omega) (by omega) hcell.symm
      omega
    show s.published[j]? = some (Function.update s.queue.bucket windex data (j % max))
    rw [Function.update_of_ne hne]
    exact hl.stored j hj hj'
  · exact hl.ticket t' d w ((hticket t').symm.trans h)
  · exact hl.own t₁ t₂ d₁ d₂ w ((hticket t₁).symm.trans h₁) ((hticket t₂).symm.trans h₂)
  · show Function.update s.queue.bucket windex data w = d
    have hpc : Function.update s.pc t (.enPublish data windex) t' = .enPublish d w := h
    by_cases htt : t' = t
    · rw [htt, Function.update_self] at hpc
      obtain ⟨rfl, rfl⟩ := Pc.enPublish.inj hpc
      exact Function.update_self ..
    · rw [Function.update_of_ne htt] at hpc
      have hne : w ≠ windex := by
        rintro rfl
        exact htt (hl.own t' t d data w (congrArg Pc.ticket hpc) hmine)
      rw [Function.update_of_ne hne]
      exact hl.written t' d w hpc

/-- Publishing the oldest reserved cell, which has been written. -/
theorem Linked.publish (hl : Linked max s) (hpos : 0 < max) (hsmall : max < 2 ^ 32) {data : α}
    {windex : ℕ} (ht : s.pc t = .enPublish data windex) (hm : s.queue.maxRindex = windex) :
    Linked max { s.goto t .idle with
      queue := { s.queue with maxRindex := nextIndex s.queue windex }
      published := s.published ++ [data] } := by
  have hmine : (s.pc t).ticket = some (data, windex) := by
    rw [ht]
    rfl
  have hround := hl.round
  have hle := hl.dequeued.length_le
  have hlen : (s.published ++ [data]).length = s.published.length + 1 := List.length_append
  -- of the reserved places within a round only the oldest one has this index
  have holdest {k : ℕ} (hk : s.published.length ≤ k) (hlt : k < s.reserved.length)
      (hcell : k % max = windex) : k = s.published.length := by
    have hnear : k < s.published.length + max := by omega
    refine (Ring.mod_inj hk hnear ?_).symm
    rw [hcell, ← hm, hl.maxRindex]
  obtain ⟨k, hk, hdata, hcell⟩ := hl.ticket t data windex hmine
  obtain ⟨hlt, hget⟩ := List.getElem?_eq_some_iff.mp hdata
  obtain rfl := holdest hk hlt hcell
  refine ⟨hl.max_eq, hl.rindex, ?_, hl.windex, hl.dequeued.trans (List.prefix_append _ _), ?_,
    hl.round, fun j hj hj' => ?_, fun t' d w h => ?_, fun t₁ t₂ d₁ d₂ w h₁ h₂ => ?_,
    fun t' d w h => ?_⟩
  · show nextIndex s.queue windex = (s.published ++ [data]).length % max
    rw [hlen, ← hcell]
    exact nextIndex_mod hl.max_eq hpos hsmall _
  · show s.published ++ [data] <+: s.reserved
    obtain ⟨rest, hrest⟩ := hl.published
    rw [← hrest, List.getElem?_append_right le_rfl, Nat.sub_self] at hdata
    cases rest with
    | nil => cases hdata
    | cons x rest =>
      obtain rfl := Option.some.inj hdata
      rw [← hrest]
      exact ⟨rest, List.append_cons _ _ _ |>.symm⟩
  · have hj' : j < (s.published ++ [data]).length := hj'
    show (s.published ++ [data])[j]? = some (s.queue.bucket (j % max))
    by_cases hnew : j = s.published.length
    · rw [hnew, hcell, hl.written t data windex ht]
      exact List.getElem?_concat_length
    · have hold : j < s.published.length := by omega
      rw [List.getElem?_append_left hold]
      exact hl.stored j hj hold
  · obtain ⟨hne, h⟩ := ticket_goto rfl h
    obtain ⟨k, hk, hdata', hcell'⟩ := hl.ticket t' d w h
    refine ⟨k, ?_, hdata', hcell'⟩
    show (s.published ++ [data]).length ≤ k
    obtain ⟨hlt', -⟩ := List.getElem?_eq_some_iff.mp hdata'
    have hkne : k ≠ s.published.length := by
      rintro rfl
      rw [hcell] at hcell'
      rw [← hcell'] at h
      exact hne (hl.own t' t d data windex h hmine)
    omega
  · exact hl.own t₁ t₂ d₁ d₂ w (ticket_goto rfl h₁).2 (ticket_goto rfl h₂).2
  · exact (hl.goto (t := t) (show Pc.ticket .idle = none from rfl)).written t' d w h

/-- Moving on from the front of a queue that holds the value there. -/
theorem Linked.consume (hl : Linked max s) (hpos : 0 < max) (hsmall : max < 2 ^ 32) {p : α}
    {rindex : ℕ} (hr : s.queue.rindex = rindex) (hne : s.queue.rindex ≠ s.queue.maxRindex)
    (hp : s.queue.bucket s.queue.rindex = p) :
    Linked max { s.goto t .idle with
      queue := { s.queue with rindex := nextIndex s.queue rindex }
      dequeued := s.dequeued ++ [p] } := by
  subst hr
  have hround := hl.round
  have hle := hl.published.length_le
  have hlen : (s.dequeued ++ [p]).length = s.dequeued.length + 1 := List.length_append
  have hlt : s.dequeued.length < s.published.length := by
    refine lt_of_le_of_ne hl.dequeued.length_le fun heq => hne ?_
    rw [hl.rindex, hl.maxRindex, heq]
  have hgoto := hl.goto (t := t) (show Pc.ticket .idle = none from rfl)
  refine ⟨hl.max_eq, ?_, hl.maxRindex, hl.windex, ?_, hl.published, ?_, fun j hj hj' => ?_,
    hgoto.ticket, hgoto.own, hgoto.written⟩
  · show nextIndex s.queue s.queue.rindex = (s.dequeued ++ [p]).length % max
    rw [hlen, hl.rindex]
    exact nextIndex_mod hl.max_eq hpos hsmall _
  · show s.dequeued ++ [p] <+: s.published
    have hfront := hl.stored s.dequeued.length le_rfl hlt
    rw [← hl.rindex, hp] at hfront
    obtain ⟨rest, hrest⟩ := hl.dequeued
    rw [← hrest, List.getElem?_append_right le_rfl, Nat.sub_self] at hfront
    cases rest with
    | nil => cases hfront
    | cons x rest =>
      obtain rfl := Option.some.inj hfront
      rw [← hrest]
      exact ⟨rest, List.append_cons _ _ _ |>.symm⟩
  · show s.reserved.length < (s.dequeued ++ [p]).length + max
    omega
  · have hj : (s.dequeued ++ [p]).length ≤ j := hj
    exact hl.stored j (by omega) hj'

/-- Timely steps keep the indices in step. -/
theorem Linked.step (hl : Linked max s) (hpos : 0 < max) (hsmall : max < 2 ^ 32)
    {a : Action T α} (hok : Timely s a) (h : s.step a = some s') : Linked max s' := by
  unfold Timely at hok
  cases step_cases h with
  | quiet _ hp => exact hl.goto hp
  | wait _ => exact hl
  | reserve ht hw =>
    rw [ht] at hok
    exact hl.reserve hpos hsmall ht hw (hok hw)
  | store ht => exact hl.store ht
  | publish ht hm => exact hl.publish hpos hsmall ht hm
  | consume ht hr =>
    rw [ht] at hok
    obtain ⟨hne, hp⟩ := hok hr
    exact hl.consume hpos hsmall hr hne hp

theorem lockFree_linked (hpos : 0 < max) (hsmall : max < 2 ^ 32)
    (h : (lockFree T α max).Reach Timely s) : Linked max s := by
  refine h.invariant ?_ fun _ _ _ _ hl hok hstep => hl.step hpos hsmall hok hstep
  rintro s ⟨bucket, rfl⟩
  exact ⟨rfl, (Nat.zero_mod max).symm, (Nat.zero_mod max).symm, (Nat.zero_mod max).symm,
    List.prefix_rfl, List.prefix_rfl, (Nat.zero_add max).symm ▸ hpos, fun _ _ => nofun,
    fun _ _ _ => nofun, fun _ _ _ _ _ => nofun, fun _ _ _ => nofun⟩

/-- **The lock-free queue is first in, first out, as long as no stale index is compared.**
For every size and any threads: along timely steps the values dequeued, in the order of the
compare-and-swaps on `rindex`, are a prefix of the values whose enqueueing succeeded, in the
order of the compare-and-swaps on `windex`. -/
theorem lockFree_fifo (hmax : 2 ≤ max) (hsmall : max < 2 ^ 32)
    (h : (lockFree T α max).Reach Timely s) :
    s.dequeued <+: s.published ∧ s.published <+: s.reserved := by
  have hl := lockFree_linked (Nat.zero_lt_of_lt hmax) hsmall h
  exact ⟨hl.dequeued, hl.published⟩

instance [DecidableEq α] (q : RawQueue α) : (pc : Pc α) → Decidable (pc.Timely q)
  | .enCas _ windex =>
    inferInstanceAs (Decidable (q.windex = windex → nextIndex q q.windex ≠ q.rindex))
  | .deCas rindex p => inferInstanceAs
    (Decidable (q.rindex = rindex → q.rindex ≠ q.maxRindex ∧ q.bucket q.rindex = p))
  | .idle | .enLoadWindex _ | .enLoadRindex .. | .enStore .. | .enPublish .. | .deLoadRindex
  | .deLoadMaxRindex _ | .deLoadBucket _ => isTrue trivial

instance [DecidableEq α] (s : State T α) (a : Action T α) : Decidable (Timely s a) :=
  inferInstanceAs (Decidable ((s.pc a.thread).Timely s.queue))

/-- A whole call of `queue_enqueue_nb` that finds room and no competitor. -/
def enqueues (t : T) (data : α) : List (Action T α) :=
  .enqueue t data :: List.replicate 5 (.go t)

/-- A whole call of `queue_dequeue_nb` that finds a value and no competitor. -/
def dequeues (t : T) : List (Action T α) := .dequeue t :: List.replicate 4 (.go t)

/-- A queue of `max` cells that no thread has used. -/
def start (max : ℕ) : State (Fin 2) ℕ :=
  ⟨queueNew max fun _ => 0, fun _ => .idle, [], [], []⟩

/-- Two threads take turns on one cell. -/
theorem lockFree_fifo_twoRounds :
    ∃ s : State (Fin 2) ℕ, (lockFree (Fin 2) ℕ 2).Reach Timely s ∧ s.dequeued = [1, 2] ∧
      s.dequeued <+: s.published ∧ s.published <+: s.reserved := by
  obtain ⟨s, hreach, hs⟩ := Machine.exec_reach (M := lockFree (Fin 2) ℕ 2)
    (show (lockFree (Fin 2) ℕ 2).init (start 2) from ⟨_, rfl⟩)
    (show ((lockFree (Fin 2) ℕ 2).exec Timely (start 2)
      (enqueues 0 1 ++ dequeues 1 ++ enqueues 1 2 ++ dequeues 0)).map
      (fun s => decide (s.dequeued = [1, 2])) = some true by decide +kernel)
  exact ⟨s, hreach, of_decide_eq_true hs, lockFree_fifo (by decide) (by decide) hreach⟩

/-- A producer finds the queue empty and sleeps before its compare-and-swap, while the ring
goes round: one value goes in and out and another one goes in, which fills the queue and
brings `windex` back. The producer's compare-and-swap succeeds, and the value in the queue
is lost: the next one dequeued came after it. -/
theorem lockFree_reordered :
    ∃ s : State (Fin 2) ℕ, (lockFree (Fin 2) ℕ 2).Reach Machine.Always s ∧
      s.dequeued = [1, 4] ∧ s.published = [1, 2, 9, 4] ∧ s.reserved = [1, 2, 9, 4] ∧
      ¬ s.dequeued <+: s.published := by
  obtain ⟨s, hreach, hs⟩ := Machine.exec_reach (M := lockFree (Fin 2) ℕ 2)
    (show (lockFree (Fin 2) ℕ 2).init (start 2) from ⟨_, rfl⟩)
    (show ((lockFree (Fin 2) ℕ 2).exec Machine.Always (start 2)
      ([.enqueue 0 9, .go 0, .go 0] ++ enqueues 1 1 ++ dequeues 1 ++ enqueues 1 2
        ++ List.replicate 3 (.go 0) ++ enqueues 1 4 ++ dequeues 1)).map
      (fun s => decide (s.dequeued = [1, 4] ∧ s.published = [1, 2, 9, 4] ∧
        s.reserved = [1, 2, 9, 4])) = some true by decide +kernel)
  obtain ⟨hdequeued, hpublished, hreserved⟩ := of_decide_eq_true hs
  refine ⟨s, hreach, hdequeued, hpublished, hreserved, ?_⟩
  rw [hdequeued, hpublished]
  decide

end LockFree

end Dungeon
