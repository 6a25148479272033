import Dungeon.LockFree

/-!
# The rounds of the lock-free queue

`Timely` speaks of what a compare-and-swap finds. What can make it find something else than
its call checked is an index that is back after a whole round: here the runs are watched, and
the steps in which no such index is compared are shown to be timely.

- `Watched`, `watched`: the runs of `lockFree`, with the number of times the index of a
  thread's compare-and-swap had moved when the thread loaded it. `lockFree_watched`: watching
  a run does not change it.
- `Fresh`: an index that a compare-and-swap finds as it was loaded has not moved since.
- `Checked`: what a thread in a call knows of the queue, unless the index has moved.
- `watched_timely`: fresh steps are timely. `watched_fifo`: along fresh steps the queue is
  first in, first out.
-/

namespace Dungeon

namespace LockFree

variable {T α : Type}

/-- The number of moves of the index that a thread is about to load. -/
def Pc.load (s : State T α) : Pc α → Option ℕ
  | .enLoadWindex _ => some s.reserved.length
  | .deLoadRindex => some s.dequeued.length
  | _ => none

/-- A state of the queue and its threads, watched. -/
structure Watched (T α : Type) where
  state : State T α
  /-- the number of moves of its index at the last load, for every thread -/
  seen : T → ℕ

variable [DecidableEq T]

/-- After an action that leads to the state `s'`: a load is recorded. -/
def Watched.next (w : Watched T α) (a : Action T α) (s' : State T α) : Watched T α where
  state := s'
  seen := Function.update w.seen a.thread
    (((w.state.pc a.thread).load w.state).getD (w.seen a.thread))

/-- One step, watched. -/
def Watched.step (w : Watched T α) (a : Action T α) : Option (Watched T α) :=
  (w.state.step a).map (w.next a)

/-- The runs of `lockFree`, watched. -/
def watched (T α : Type) [DecidableEq T] (max : ℕ) :
    Machine (Watched T α) (Action T α) where
  init w := (lockFree T α max).init w.state
  step := Watched.step

/-- A compare-and-swap that succeeds compares an index that has not moved since the call
loaded it, after `n` moves. -/
def Pc.Fresh (s : State T α) (n : ℕ) : Pc α → Prop
  | .enCas _ windex => s.queue.windex = windex → n = s.reserved.length
  | .deCas rindex _ => s.queue.rindex = rindex → n = s.dequeued.length
  | _ => True

/-- No compare-and-swap succeeds on an index that went all the way round. -/
def Fresh (w : Watched T α) (a : Action T α) : Prop :=
  (w.state.pc a.thread).Fresh w.state (w.seen a.thread)

/-- What a call knows that loaded its index after `n` moves. -/
def Pc.Checked (max : ℕ) (s : State T α) (n : ℕ) : Pc α → Prop
  | .enLoadRindex _ windex => n ≤ s.reserved.length ∧ n % max = windex
  | .enCas _ _ => n ≤ s.reserved.length ∧
      (n = s.reserved.length → s.reserved.length + 1 < s.dequeued.length + max)
  | .deLoadMaxRindex rindex => n ≤ s.dequeued.length ∧ n % max = rindex
  | .deLoadBucket rindex => n ≤ s.dequeued.length ∧ n % max = rindex ∧
      (n = s.dequeued.length → s.dequeued.length < s.published.length)
  | .deCas _ p => n ≤ s.dequeued.length ∧
      (n = s.dequeued.length → s.published[s.dequeued.length]? = some p)
  | _ => True

variable {max n : ℕ} {s s' : State T α} {t : T} {w : Watched T α} {a : Action T α}

/-! ## Steps of the other threads -/

/-- The three sequences only grow. -/
structure Grows (s s' : State T α) : Prop where
  reserved : s.reserved <+: s'.reserved
  published : s.published <+: s'.published
  dequeued : s.dequeued <+: s'.dequeued

theorem Move.grows (h : Move s t s') : Grows s s' := by
  cases h with
  | quiet => exact ⟨List.prefix_rfl, List.prefix_rfl, List.prefix_rfl⟩
  | wait => exact ⟨List.prefix_rfl, List.prefix_rfl, List.prefix_rfl⟩
  | reserve => exact ⟨List.prefix_append _ _, List.prefix_rfl, List.prefix_rfl⟩
  | store => exact ⟨List.prefix_rfl, List.prefix_rfl, List.prefix_rfl⟩
  | publish => exact ⟨List.prefix_rfl, List.prefix_append _ _, List.prefix_rfl⟩
  | consume => exact ⟨List.prefix_rfl, List.prefix_rfl, List.prefix_append _ _⟩

theorem Move.pc_of_ne (h : Move s t s') {t' : T} (hne : t' ≠ t) : s'.pc t' = s.pc t' := by
  cases h with
  | wait => rfl
  | quiet | reserve | store | publish | consume => exact s.goto_pc_of_ne _ hne

omit [DecidableEq T] in
/-- What a call knows stays true while others move: either its index moves too, or the
queue only gets emptier for a producer and fuller for a consumer. -/
theorem Pc.Checked.grows {pc : Pc α} (hc : pc.Checked max s n) (h : Grows s s') :
    pc.Checked max s' n := by
  have hreserved := h.reserved.length_le
  have hpublished := h.published.length_le
  have hdequeued := h.dequeued.length_le
  cases pc with
  | idle | enLoadWindex | enStore | enPublish | deLoadRindex => trivial
  | enLoadRindex data windex =>
    obtain ⟨hle, hmod⟩ := hc
    exact ⟨hle.trans hreserved, hmod⟩
  | enCas data windex =>
    obtain ⟨hle, hroom⟩ := hc
    refine ⟨hle.trans hreserved, fun heq => ?_⟩
    have := hroom (by omega)
    omega
  | deLoadMaxRindex rindex =>
    obtain ⟨hle, hmod⟩ := hc
    exact ⟨hle.trans hdequeued, hmod⟩
  | deLoadBucket rindex =>
    obtain ⟨hle, hmod, hmore⟩ := hc
    refine ⟨hle.trans hdequeued, hmod, fun heq => ?_⟩
    have := hmore (by omega)
    omega
  | deCas rindex p =>
    -- what is published stays at its place in the sequence
    obtain ⟨hle, hfront⟩ := hc
    refine ⟨hle.trans hdequeued, fun heq => ?_⟩
    have hsame : s'.dequeued.length = s.dequeued.length := by omega
    obtain ⟨hlt, hget⟩ := List.getElem?_eq_some_iff.mp (hfront (by omega))
    rw [hsame, ← hget]
    exact List.prefix_iff_getElem?.mp h.published _ hlt

/-! ## Steps of the thread itself -/

omit [DecidableEq T] in
/-- The test for room, on the indices of now. -/
theorem Linked.room (hl : Linked max s) (hpos : 0 < max) (hsmall : max < 2 ^ 32)
    (h : nextIndex s.queue (s.reserved.length % max) ≠ s.queue.rindex % s.queue.max) :
    s.reserved.length + 1 < s.dequeued.length + max := by
  refine lt_of_le_of_ne hl.round fun hfull => h ?_
  rw [nextIndex_mod hl.max_eq hpos hsmall, hl.max_eq, hl.rindex, Nat.mod_mod, hfull,
    Nat.add_mod_right]

omit [DecidableEq T] in
/-- The test for a value, on the indices of now. -/
theorem Linked.more (hl : Linked max s)
    (h : s.dequeued.length % max % s.queue.max ≠ s.queue.maxRindex % s.queue.max) :
    s.dequeued.length < s.published.length := by
  refine lt_of_le_of_ne hl.dequeued.length_le fun hempty => h ?_
  rw [hl.max_eq, hl.maxRindex, hempty]

/-- A thread that goes on in its call knows what it has loaded and tested. -/
theorem Linked.checked (hl : Linked max s) (hpos : 0 < max) (hsmall : max < 2 ^ 32)
    (hc : (s.pc t).Checked max s n) (h : stepThread s t = some s') :
    (s'.pc t).Checked max s' (((s.pc t).load s).getD n) := by
  unfold stepThread at h
  cases hpc : s.pc t with
  | idle =>
    rw [hpc] at h
    cases h
  | enLoadWindex data =>
    -- the load is noted as of now
    rw [hpc] at h
    obtain rfl := Option.some.inj h
    rw [State.goto_pc]
    exact ⟨le_rfl, hl.windex.symm⟩
  | enLoadRindex data windex =>
    rw [hpc] at h hc
    obtain ⟨hle, rfl⟩ := hc
    dsimp only at h
    split at h
    next =>
      obtain rfl := Option.some.inj h
      rw [State.goto_pc]
      trivial
    next hroom =>
      obtain rfl := Option.some.inj h
      rw [State.goto_pc]
      refine ⟨hle, fun heq => hl.room hpos hsmall ?_⟩
      rwa [← show n = s.reserved.length from heq]
  | enCas data windex =>
    rw [hpc] at h
    dsimp only at h
    split at h
    all_goals
      obtain rfl := Option.some.inj h
      rw [State.goto_pc]
      trivial
  | enStore data windex =>
    rw [hpc] at h
    obtain rfl := Option.some.inj h
    rw [State.goto_pc]
    trivial
  | enPublish data windex =>
    rw [hpc] at h
    dsimp only at h
    split at h
    next =>
      obtain rfl := Option.some.inj h
      rw [State.goto_pc]
      trivial
    next =>
      obtain rfl := Option.some.inj h
      rw [hpc]
      trivial
  | deLoadRindex =>
    rw [hpc] at h
    obtain rfl := Option.some.inj h
    rw [State.goto_pc]
    exact ⟨le_rfl, hl.rindex.symm⟩
  | deLoadMaxRindex rindex =>
    rw [hpc] at h hc
    obtain ⟨hle, rfl⟩ := hc
    dsimp only at h
    split at h
    next =>
      obtain rfl := Option.some.inj h
      rw [State.goto_pc]
      trivial
    next hne =>
      obtain rfl := Option.some.inj h
      rw [State.goto_pc]
      refine ⟨hle, rfl, fun heq => hl.more ?_⟩
      rwa [← show n = s.dequeued.length from heq]
  | deLoadBucket rindex =>
    rw [hpc] at h hc
    obtain ⟨hle, rfl, hmore⟩ := hc
    obtain rfl := Option.some.inj h
    rw [State.goto_pc]
    refine ⟨hle, fun heq => ?_⟩
    have hn : n = s.dequeued.length := heq
    show s.published[s.dequeued.length]? = some (s.queue.bucket (n % max))
    rw [hn]
    exact hl.stored _ le_rfl (hmore hn)
  | deCas rindex p =>
    rw [hpc] at h
    dsimp only at h
    split at h
    all_goals
      obtain rfl := Option.some.inj h
      rw [State.goto_pc]
      trivial

theorem Linked.checked_step (hl : Linked max s) (hpos : 0 < max) (hsmall : max < 2 ^ 32)
    (hc : (s.pc a.thread).Checked max s n) (h : s.step a = some s') :
    (s'.pc a.thread).Checked max s' (((s.pc a.thread).load s).getD n) := by
  cases a with
  | go t => exact hl.checked hpos hsmall hc h
  | enqueue t data | dequeue t =>
    -- a call that starts has loaded nothing
    dsimp only [State.step] at h
    split at h
    next =>
      obtain rfl := Option.some.inj h
      rw [Action.thread, State.goto_pc]
      trivial
    next => cases h

/-! ## Watched runs -/

omit [DecidableEq T] in
/-- What a call knows makes its fresh compare-and-swap a timely one. -/
theorem Linked.timely (hl : Linked max s) (hpos : 0 < max) (hsmall : max < 2 ^ 32) {pc : Pc α}
    (hc : pc.Checked max s n) (hfresh : pc.Fresh s n) : pc.Timely s.queue := by
  have hround := hl.round
  have hpublished := hl.published.length_le
  have hdequeued := hl.dequeued.length_le
  cases pc with
  | idle | enLoadWindex | enLoadRindex | enStore | enPublish => trivial
  | deLoadRindex | deLoadMaxRindex | deLoadBucket => trivial
  | enCas data windex =>
    intro hw hfull
    have hroom := hc.2 (hfresh hw)
    rw [hl.windex, nextIndex_mod hl.max_eq hpos hsmall, hl.rindex] at hfull
    have := Ring.mod_inj (by omega) hroom hfull.symm
    omega
  | deCas rindex p =>
    intro hr
    have hfront := hc.2 (hfresh hr)
    obtain ⟨hlt, -⟩ := List.getElem?_eq_some_iff.mp hfront
    constructor
    · intro hempty
      rw [hl.rindex, hl.maxRindex] at hempty
      have := Ring.mod_inj hdequeued (by omega) hempty
      omega
    · rw [hl.stored _ le_rfl hlt] at hfront
      rw [hl.rindex]
      exact Option.some.inj hfront

/-- The queue is in order, and every thread knows what it has tested. -/
structure Watched.Sound (max : ℕ) (w : Watched T α) : Prop where
  linked : Linked max w.state
  checked : ∀ t, (w.state.pc t).Checked max w.state (w.seen t)

omit [DecidableEq T] in
theorem Watched.Sound.timely (hs : w.Sound max) (hpos : 0 < max) (hsmall : max < 2 ^ 32)
    (hfresh : Fresh w a) : Timely w.state a :=
  hs.linked.timely hpos hsmall (hs.checked a.thread) hfresh

theorem Watched.Sound.step (hs : w.Sound max) (hpos : 0 < max) (hsmall : max < 2 ^ 32)
    {w' : Watched T α} (hfresh : Fresh w a) (h : w.step a = some w') : w'.Sound max := by
  obtain ⟨s', hstep, rfl⟩ := Option.map_eq_some_iff.mp h
  have hmove := step_cases hstep
  refine ⟨hs.linked.step hpos hsmall (hs.timely hpos hsmall hfresh) hstep, fun t => ?_⟩
  dsimp only [Watched.next]
  by_cases ht : t = a.thread
  · subst ht
    rw [Function.update_self]
    exact hs.linked.checked_step hpos hsmall (hs.checked a.thread) hstep
  · rw [Function.update_of_ne ht, hmove.pc_of_ne ht]
    exact (hs.checked t).grows hmove.grows

theorem watched_sound (hpos : 0 < max) (hsmall : max < 2 ^ 32)
    (h : (watched T α max).Reach Fresh w) : w.Sound max := by
  refine h.invariant (fun w hinit => ?_) fun _ _ _ _ hs hok hstep =>
    hs.step hpos hsmall hok hstep
  obtain ⟨bucket, hw⟩ := hinit
  refine ⟨lockFree_linked hpos hsmall (Machine.Reach.start ⟨bucket, hw⟩), fun t => ?_⟩
  rw [hw]
  trivial

/-- **Only an index that went all the way round makes a step untimely.** -/
theorem watched_timely (hpos : 0 < max) (hsmall : max < 2 ^ 32)
    (h : (watched T α max).Reach Fresh w) (hfresh : Fresh w a) : Timely w.state a :=
  (watched_sound hpos hsmall h).timely hpos hsmall hfresh

/-- A watched run along fresh steps is a timely run of the queue. -/
theorem watched_reach (hpos : 0 < max) (hsmall : max < 2 ^ 32)
    (h : (watched T α max).Reach Fresh w) : (lockFree T α max).Reach Timely w.state := by
  have hsim : ∃ s, (lockFree T α max).Reach Timely s ∧ w.state = s := by
    refine h.simulate (R := fun (w : Watched T α) s => w.state = s)
      (fun w hinit => ⟨w.state, hinit, rfl⟩) ?_
    rintro w a w' _ hw rfl hfresh hstep
    obtain ⟨s', hs', rfl⟩ := Option.map_eq_some_iff.mp hstep
    exact ⟨s', Machine.Run.refl.tail (watched_timely hpos hsmall hw hfresh) hs', rfl⟩
  obtain ⟨_, hreach, rfl⟩ := hsim
  exact hreach

/-- Every run of the queue can be watched. -/
theorem lockFree_watched (h : (lockFree T α max).Reach Machine.Always s) :
    ∃ w, (watched T α max).Reach Machine.Always w ∧ w.state = s := by
  refine h.simulate (R := fun s (w : Watched T α) => w.state = s) (fun s hinit => ?_) ?_
  · exact ⟨⟨s, fun _ => 0⟩, hinit, rfl⟩
  · rintro s a s' w _ rfl _ hstep
    have hwatch : w.step a = some (w.next a s') := Option.map_eq_some_iff.mpr ⟨s', hstep, rfl⟩
    exact ⟨w.next a s', Machine.Run.refl.tail trivial hwatch, rfl⟩

/-- **The lock-free queue is first in, first out, as long as no index goes all the way round
between its load and its compare-and-swap.** -/
theorem watched_fifo (hpos : 0 < max) (hsmall : max < 2 ^ 32)
    (h : (watched T α max).Reach Fresh w) :
    w.state.dequeued <+: w.state.published ∧ w.state.published <+: w.state.reserved := by
  have hl := (watched_sound hpos hsmall h).linked
  exact ⟨hl.dequeued, hl.published⟩

end LockFree

end Dungeon
