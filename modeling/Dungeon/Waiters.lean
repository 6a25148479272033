import Dungeon.Fifo
import Dungeon.Lib.Monitor

/-!
# Waiting on the pointer queue

`queue_enqueue` sleeps on `cond_eq` while the queue is full and `queue_dequeue` on
`cond_dq` while it is empty; every insertion signals `cond_dq` and every removal
`cond_eq`. So do the non-blocking calls, which may therefore take what a signal was sent
for before the signalled thread runs, and `queue_enqueue_uniq_nb` signals even when it
finds its argument queued already.

- `queueMonitor`: the operations as critical sections of a monitor.
- `counts_condDq`, `counts_condEq`: the signals keep up with the queued elements and
  with the free cells.
- `waiting_covered`: hence in every reachable state a sleeping consumer is outnumbered
  by nothing: the queued elements are at most as many as the consumers that have been
  signalled and will test their condition again, and likewise for producers.
-/

namespace Dungeon

variable {α T : Type} [DecidableEq α] [DecidableEq T] [Fintype T]

/-- The condition variables of `struct queue_st`. -/
inductive QueueCond where
  | condEq
  | condDq
  deriving DecidableEq

/-- The condition a call sleeps on. -/
def QueueCall.cond : QueueCall α → Option QueueCond
  | .enqueue _ => some .condEq
  | .dequeue => some .condDq
  | .enqueueNb _ | .enqueueUniqNb _ | .dequeueNb | .size => none

/-- The condition a call signals before it returns; the failing exits of the non-blocking
calls signal none. -/
def QueueCall.signals (c : QueueCall α) (r : QueueReply α) : Option QueueCond :=
  match c with
  | .enqueue _ => some .condDq
  | .enqueueNb _ | .enqueueUniqNb _ => if r = .code (-1) then none else some .condDq
  | .dequeue => some .condEq
  | .dequeueNb => if r = .code (-1) then none else some .condEq
  | .size => none

/-- The queue under its mutex. -/
def queueMonitor (α : Type) [DecidableEq α] :
    Monitor (RawQueue α) (QueueCall α) QueueCond ((ℕ → α) × (ℕ → α)) where
  cond := QueueCall.cond
  enter q c := (q.call c).map fun r => (r.2, c.signals r.1)
  env q w := q.surround w.1 w.2

/-- A queue fresh from `queue_new` with a positive size. -/
def RawQueue.Fresh (q : RawQueue α) : Prop :=
  ∃ (max : ℕ) (bucket below : ℕ → α), 0 < max ∧ q = queueNew max bucket below

/-- Any threads on a fresh queue. -/
def queueThreads (α T : Type) [DecidableEq α] [DecidableEq T] [Fintype T] :
    Machine (Monitor.State (RawQueue α) (QueueCall α) T)
      (Monitor.Action (QueueCall α) T ((ℕ → α) × (ℕ → α))) :=
  (queueMonitor α).machine T RawQueue.Fresh

/-! ## What the calls do to the count -/

variable {q q' : RawQueue α} {c : QueueCall α} {r : QueueReply α}

/-- The words around the ring do not count. -/
theorem RawQueue.surround_nr {bucket below : ℕ → α} (h : q.surround bucket below = some q') :
    q'.nr = q.nr ∧ q'.max = q.max := by
  unfold surround at h
  split at h
  next =>
    obtain rfl := Option.some.inj h
    exact ⟨rfl, rfl⟩
  next => cases h

/-- A call that has to wait finds the queue full (empty). -/
theorem RawQueue.call_eq_none (h : q.call c = none) :
    (c = .dequeue ∧ q.nr = 0) ∨ ∃ data, c = .enqueue data ∧ q.max ≤ q.nr := by
  cases c with
  | enqueue data =>
    have hfull := Option.map_eq_none_iff.mp h
    unfold queueEnqueue at hfull
    split at hfull
    next hge => exact .inr ⟨data, rfl, hge⟩
    next => cases hfull
  | dequeue =>
    have hempty := Option.map_eq_none_iff.mp h
    unfold queueDequeue at hempty
    split at hempty
    next hle => exact .inl ⟨rfl, Nat.le_zero.mp hle⟩
    next => cases hempty
  | dequeueNb =>
    dsimp only [call] at h
    split at h <;> cases h
  | enqueueNb | enqueueUniqNb | size => cases h

/-- **The exits of a call**: it signals `cond_dq` after at most one insertion, `cond_eq`
after one removal, or nothing and leaves the queue alone. -/
theorem RawQueue.call_exits (h : q.call c = some (r, q')) :
    q'.max = q.max ∧
    ((c.signals r = some .condDq ∧ c ≠ .dequeue ∧ q.nr < q.max ∧
        (q'.nr = q.nr + 1 ∨ (q'.nr = q.nr ∧ c.cond = none))) ∨
      (c.signals r = some .condEq ∧ (∀ data, c ≠ .enqueue data) ∧ q.nr = q'.nr + 1) ∨
      (c.signals r = none ∧ c.cond = none ∧ q'.nr = q.nr)) := by
  cases c with
  | enqueue data =>
    obtain ⟨t, ht, heq⟩ := Option.map_eq_some_iff.mp h
    obtain ⟨rfl, rfl⟩ := Prod.mk.inj heq
    obtain ⟨hroom, rfl⟩ := queueEnqueue_eq_some ht
    exact ⟨rfl, .inl ⟨rfl, nofun, hroom, .inl rfl⟩⟩
  | enqueueNb data =>
    obtain ⟨rfl, rfl⟩ := Prod.mk.inj (Option.some.inj h)
    rcases Nat.lt_or_ge q.nr q.max with hroom | hfull
    · rw [queueEnqueueNb_of_room hroom]
      exact ⟨rfl, .inl ⟨rfl, nofun, hroom, .inl rfl⟩⟩
    · rw [queueEnqueueNb_of_full hfull]
      exact ⟨rfl, .inr (.inr ⟨rfl, rfl, rfl⟩)⟩
  | enqueueUniqNb data =>
    obtain ⟨rfl, rfl⟩ := Prod.mk.inj (Option.some.inj h)
    rcases Nat.lt_or_ge q.nr q.max with hroom | hfull
    · rw [queueEnqueueUniqNb_of_room hroom]
      dsimp only
      -- the duplicate exit signals as well
      split
      next => exact ⟨rfl, .inl ⟨rfl, nofun, hroom, .inr ⟨rfl, rfl⟩⟩⟩
      next => exact ⟨rfl, .inl ⟨rfl, nofun, hroom, .inl rfl⟩⟩
    · rw [queueEnqueueUniqNb_of_full hfull]
      exact ⟨rfl, .inr (.inr ⟨rfl, rfl, rfl⟩)⟩
  | dequeue =>
    obtain ⟨t, ht, heq⟩ := Option.map_eq_some_iff.mp h
    obtain ⟨rfl, rfl⟩ := Prod.mk.inj heq
    obtain ⟨hpos, rfl⟩ := queueDequeueNb_some ht
    exact ⟨rfl, .inr (.inl ⟨rfl, nofun, (Nat.sub_add_cancel hpos).symm⟩)⟩
  | dequeueNb =>
    unfold call at h
    dsimp only at h
    split at h
    next hnone =>
      obtain ⟨rfl, rfl⟩ := Prod.mk.inj (Option.some.inj h)
      exact ⟨rfl, .inr (.inr ⟨rfl, rfl, rfl⟩)⟩
    next data t hsome =>
      obtain ⟨rfl, rfl⟩ := Prod.mk.inj (Option.some.inj h)
      obtain ⟨hpos, heq⟩ := queueDequeueNb_some hsome
      obtain ⟨rfl, rfl⟩ := Prod.mk.inj heq
      exact ⟨rfl, .inr (.inl ⟨rfl, nofun, (Nat.sub_add_cancel hpos).symm⟩)⟩
  | size =>
    obtain ⟨rfl, rfl⟩ := Prod.mk.inj (Option.some.inj h)
    exact ⟨rfl, .inr (.inr ⟨rfl, rfl, rfl⟩)⟩

/-- A call without a condition sleeps on none. -/
theorem cond_ne_of_none (h : c.cond = none) (cond : QueueCond) :
    ¬ (queueMonitor α).cond c = some cond := by
  intro hc
  rw [show (queueMonitor α).cond c = none from h] at hc
  cases hc

/-- Consumers sleep on `cond_dq` while nothing is queued; an element more is a signal
more. -/
theorem counts_condDq : (queueMonitor α).Counts .condDq RawQueue.nr where
  wait := by
    intro q c h hc
    rcases RawQueue.call_eq_none (Option.map_eq_none_iff.mp h) with ⟨-, hzero⟩ | ⟨_, rfl, -⟩
    · exact hzero
    · cases hc
  enter := by
    intro q c q' sig h
    obtain ⟨⟨r, t⟩, hr, heq⟩ := Option.map_eq_some_iff.mp h
    obtain ⟨rfl, rfl⟩ := Prod.mk.inj heq
    dsimp only
    rcases (RawQueue.call_exits hr).2 with ⟨hsig, hne, -, hnr⟩ | ⟨hsig, -, hnr⟩ |
      ⟨hsig, hcond, hnr⟩
    · have hcond : ¬ (queueMonitor α).cond c = some .condDq := by
        intro hc
        cases c <;> first | exact hne rfl | cases hc
      rw [if_neg hcond, if_pos hsig]
      omega
    · rw [if_neg (show ¬ c.signals r = some .condDq by rw [hsig]; nofun)]
      split <;> omega
    · rw [if_neg (cond_ne_of_none hcond .condDq)]
      omega
  env h := (RawQueue.surround_nr h).1.le

/-- Producers sleep on `cond_eq` while no cell is free; a cell more is a signal more. -/
theorem counts_condEq : (queueMonitor α).Counts .condEq fun q => q.max - q.nr where
  wait := by
    intro q c h hc
    rcases RawQueue.call_eq_none (Option.map_eq_none_iff.mp h) with ⟨rfl, -⟩ | ⟨_, -, hfull⟩
    · cases hc
    · exact Nat.sub_eq_zero_of_le hfull
  enter := by
    intro q c q' sig h
    obtain ⟨⟨r, t⟩, hr, heq⟩ := Option.map_eq_some_iff.mp h
    obtain ⟨rfl, rfl⟩ := Prod.mk.inj heq
    dsimp only
    obtain ⟨hmax, hexit⟩ := RawQueue.call_exits hr
    rcases hexit with ⟨hsig, -, hroom, hnr⟩ | ⟨hsig, hne, hnr⟩ | ⟨hsig, hcond, hnr⟩
    · rw [if_neg (show ¬ c.signals r = some .condEq by rw [hsig]; nofun)]
      rcases hnr with hnr | ⟨hnr, hcond⟩
      · split <;> omega
      · rw [if_neg (cond_ne_of_none hcond .condEq)]
        omega
    · have hcond : ¬ (queueMonitor α).cond c = some .condEq := by
        intro hc
        cases c <;> first | exact hne _ rfl | cases hc
      rw [if_neg hcond, if_pos hsig]
      omega
    · rw [if_neg (cond_ne_of_none hcond .condEq)]
      omega
  env h := by
    obtain ⟨hnr, hmax⟩ := RawQueue.surround_nr h
    omega

/-! ## No sleeper is forgotten -/

/-- **No lost wake-up in the queue.** In every state any threads can reach, if a consumer
sleeps then the queued elements are at most as many as the consumers that were signalled
and have not tested their condition again, and if a producer sleeps then so are the free
cells with the signalled producers. So nobody sleeps on a condition that holds unless a
signalled thread of its kind is about to run. -/
theorem waiting_covered {s : Monitor.State (RawQueue α) (QueueCall α) T}
    (h : (queueThreads α T).Reach Machine.Always s) :
    ((∃ t, s.phase t = .waiting .dequeue) →
      s.object.nr ≤ (queueMonitor α).nrSignalled .condDq s.phase ∧
      (0 < s.object.nr → ∃ t, s.phase t = .signalled .dequeue)) ∧
    ((∃ t data, s.phase t = .waiting (.enqueue data)) →
      s.object.max - s.object.nr ≤ (queueMonitor α).nrSignalled .condEq s.phase ∧
      (s.object.nr < s.object.max → ∃ t data, s.phase t = .signalled (.enqueue data))) := by
  have hdq := counts_condDq.covered h
  have heq := counts_condEq.covered h
  constructor
  · rintro ⟨t, ht⟩
    have hwait : ∃ t, (queueMonitor α).waitsOn .condDq (s.phase t) = true := ⟨t, by rw [ht]; rfl⟩
    refine ⟨hdq hwait, fun hpos => ?_⟩
    obtain ⟨u, hu⟩ := hdq.exists_signalled hwait hpos
    refine ⟨u, ?_⟩
    cases hphase : s.phase u with
    | signalled op =>
      rw [hphase] at hu
      cases op <;> first | rfl | cases hu
    | idle | entering | waiting | spurious =>
      rw [hphase] at hu
      cases hu
  · rintro ⟨t, data, ht⟩
    have hwait : ∃ t, (queueMonitor α).waitsOn .condEq (s.phase t) = true := ⟨t, by rw [ht]; rfl⟩
    refine ⟨heq hwait, fun hroom => ?_⟩
    obtain ⟨u, hu⟩ := heq.exists_signalled hwait (Nat.sub_pos_of_lt hroom)
    refine ⟨u, ?_⟩
    cases hphase : s.phase u with
    | signalled op =>
      rw [hphase] at hu
      cases op <;> first | exact ⟨_, rfl⟩ | cases hu
    | idle | entering | waiting | spurious =>
      rw [hphase] at hu
      cases hu

/-- Two consumers sleep, one insertion signals one of them. -/
theorem waiting_covered_twoConsumers :
    ∃ s : Monitor.State (RawQueue ℕ) (QueueCall ℕ) (Fin 3),
      (queueThreads ℕ (Fin 3)).Reach Machine.Always s ∧ s.object.nr = 1 ∧
      s.phase 0 = .waiting .dequeue ∧ ∃ t, s.phase t = .signalled .dequeue := by
  obtain ⟨s, hreach, hs⟩ := Machine.exec_reach (M := queueThreads ℕ (Fin 3))
    (show (queueThreads ℕ (Fin 3)).init ⟨queueNew 2 (fun _ => 0) fun _ => 0, fun _ => .idle⟩
      from ⟨⟨2, _, _, Nat.two_pos, rfl⟩, fun _ => rfl⟩)
    (show ((queueThreads ℕ (Fin 3)).exec Machine.Always
      ⟨queueNew 2 (fun _ => 0) fun _ => 0, fun _ => .idle⟩
      [.call 0 .dequeue, .run 0 none, .call 1 .dequeue, .run 1 none,
        .call 2 (.enqueueNb 5), .run 2 (some 1)]).map
      (fun s => decide (s.phase 0 = .waiting .dequeue ∧ s.object.nr = 1)) = some true
      by decide +kernel)
  obtain ⟨hwait, hone⟩ := of_decide_eq_true hs
  obtain ⟨-, hnext⟩ := (waiting_covered hreach).1 ⟨0, hwait⟩
  exact ⟨s, hreach, hone, hwait, hnext (hone ▸ Nat.one_pos)⟩

end Dungeon
