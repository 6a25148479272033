import Dungeon.Fifo

/-!
# The search before a unique enqueue

`queue_enqueue_uniq_nb` walks over the occupied part of the ring and appends its argument if
it has not met it. Where that part wraps, the first of its two loops goes on up to and
including index `max`, the word past the ring, unless it has met the argument by then.

- `searched`: the places a search looks at, which ends at the first hit.
- `RawQueue.uniqReads`: the words a call reads.
- `RawQueue.UniqExact`: what the call is for: it reads the ring only, and appends its argument
  unless it is queued.
- `RawQueue.StaysInside`: the occupied part does not wrap, or the argument is in it before the
  wrap. (A ring of more than `2 ^ 31` cells is reached with a negative index beyond that.)
- `uniqExact_iff`: a call does what it is for exactly then, and a queue filled by such calls
  only never holds an element twice (`onlyUniq_nodup`).
-/

namespace Dungeon

variable {α : Type}

/-- The places a search looks at: it stops at the first where `p` holds. -/
def searched {ι : Type} (p : ι → Bool) : List ι → List ι
  | [] => []
  | i :: l => if p i then [i] else i :: searched p l

section Search

variable {ι : Type} {p : ι → Bool} {i : ι}

theorem mem_of_mem_searched {l : List ι} (h : i ∈ searched p l) : i ∈ l := by
  induction l with
  | nil => cases h
  | cons j l ih =>
    unfold searched at h
    split at h
    next =>
      obtain rfl := List.mem_singleton.mp h
      exact List.mem_cons_self
    next =>
      rcases List.mem_cons.mp h with rfl | h
      · exact List.mem_cons_self
      · exact List.mem_cons_of_mem _ (ih h)

/-- A search goes on until a hit. -/
theorem mem_searched {l l' : List ι} (h : ∀ j ∈ l, p j = false) :
    i ∈ searched p (l ++ i :: l') := by
  induction l with
  | nil =>
    rw [List.nil_append, searched]
    split <;> exact List.mem_cons_self
  | cons j l ih =>
    rw [List.cons_append, searched, h j List.mem_cons_self, if_neg Bool.false_ne_true]
    exact List.mem_cons_of_mem _ (ih fun k hk => h k (List.mem_cons_of_mem _ hk))

/-- No place behind a hit is looked at. -/
theorem mem_searched_of_hit {l l' : List ι} {j : ι} (hi : p i = true)
    (h : j ∈ searched p (l ++ i :: l')) : j ∈ l ∨ j = i := by
  induction l with
  | nil =>
    rw [List.nil_append, searched, if_pos hi] at h
    exact .inr (List.mem_singleton.mp h)
  | cons k l ih =>
    rw [List.cons_append, searched] at h
    split at h
    next =>
      obtain rfl := List.mem_singleton.mp h
      exact .inl List.mem_cons_self
    next =>
      rcases List.mem_cons.mp h with rfl | h
      · exact .inl List.mem_cons_self
      · exact (ih h).imp_left (List.mem_cons_of_mem _)

end Search

/-- A range of indices around one of them. -/
theorem range'_around {i lo hi : ℕ} (hlo : lo ≤ i) (hhi : i < hi) : List.range' lo (hi - lo)
    = List.range' lo (i - lo) ++ i :: List.range' (i + 1) (hi - (i + 1)) := by
  have hsplit := List.range'_append_1 (s := lo) (m := i - lo) (n := hi - i)
  rw [show i - lo + (hi - i) = hi - lo by omega, Nat.add_sub_cancel' hlo,
    show hi - i = hi - (i + 1) + 1 by omega, List.range'_succ] at hsplit
  exact hsplit.symm

namespace RawQueue

/-- The index an `int` holds in place of the unsigned `i`. -/
def slotIndex (i : ℕ) : ℤ := if i < 2 ^ 31 then i else i - 2 ^ 32

/-- The words `queue_enqueue_uniq_nb` reads, by their indices in `bucket`. -/
def uniqReads [DecidableEq α] (q : RawQueue α) (data : α) : List ℤ :=
  if q.nr ≥ q.max then [] else (searched (fun i => q.cell i = data) q.uniqScan).map slotIndex

/-- What `queue_enqueue_uniq_nb` is for, with room in the queue: it reads the ring only,
returns 0, and appends `data` if it is not queued. -/
structure UniqExact [DecidableEq α] (q : RawQueue α) (data : α) : Prop where
  reads : ∀ s ∈ q.uniqReads data, 0 ≤ s ∧ s < q.max
  code : (q.queueEnqueueUniqNb data).1 = 0
  contents : (q.queueEnqueueUniqNb data).2.toList
    = if data ∈ q.toList then q.toList else q.toList ++ [data]

/-- The end of the occupied part, or of its first piece when it wraps. -/
def wrap (q : RawQueue α) : ℕ := if q.rindex ≤ q.windex then q.windex else q.max

/-- The occupied part does not wrap, or `data` is in it before the wrap; and an `int` can
hold the indices up to there. -/
def StaysInside (q : RawQueue α) (data : α) : Prop :=
  (q.rindex ≤ q.windex ∧ ∀ i < q.windex, q.rindex ≤ i → i < 2 ^ 31) ∨
    ∃ i < q.wrap, q.rindex ≤ i ∧ i < 2 ^ 31 ∧ q.bucket i = data

instance [DecidableEq α] (q : RawQueue α) (data : α) : Decidable (q.StaysInside data) :=
  inferInstanceAs (Decidable (_ ∨ ∃ i < q.wrap, q.rindex ≤ i ∧ i < 2 ^ 31 ∧ q.bucket i = data))

/-- Where the first loop of the search ends. -/
def scanEnd (q : RawQueue α) : ℕ := if q.rindex ≤ q.windex then q.windex else q.max + 1

variable {q : RawQueue α} {data : α}

theorem wrap_le_scanEnd : q.wrap ≤ q.scanEnd := by
  unfold wrap scanEnd
  split <;> omega

theorem Wf.wrap_le (h : q.Wf) : q.wrap ≤ q.max := by
  have hlt := h.windex_lt
  unfold wrap
  split <;> omega

/-- What lies before the wrap is queued. -/
theorem Wf.mem_of_before (h : q.Wf) (hroom : q.nr < q.max) {i : ℕ} (hi : q.rindex ≤ i)
    (hwrap : i < q.wrap) (hx : q.bucket i = data) : data ∈ q.toList := by
  unfold wrap at hwrap
  unfold toList
  split at hwrap
  next hle => exact (Ring.mem_contents_of_le h.windex_slot hroom hle).mpr ⟨i, hi, hwrap, hx⟩
  next hgt =>
    exact (Ring.mem_contents_of_wrapped h.rindex_lt h.windex_slot hroom (by omega)).mpr
      ⟨i, .inl ⟨hi, hwrap⟩, hx⟩

theorem cell_of_lt {i : ℕ} (hi : i < 2 ^ 31) : q.cell i = q.bucket i := if_pos hi

theorem slotIndex_of_lt {i : ℕ} (hi : i < 2 ^ 31) : slotIndex i = i := if_pos hi

/-- The search up to an index of its first loop. -/
theorem uniqScan_around {i : ℕ} (hi : q.rindex ≤ i) (hend : i < q.scanEnd) :
    ∃ l, q.uniqScan = List.range' q.rindex (i - q.rindex) ++ i :: l := by
  unfold scanEnd at hend
  unfold uniqScan
  split at hend
  next hle =>
    rw [if_pos hle, range'_around hi hend]
    exact ⟨_, rfl⟩
  next hgt =>
    rw [if_neg hgt, range'_around hi hend, List.append_assoc]
    exact ⟨_, rfl⟩

variable [DecidableEq α]

theorem uniqReads_of_room (hroom : q.nr < q.max) :
    q.uniqReads data = (searched (fun i => q.cell i = data) q.uniqScan).map slotIndex :=
  if_neg (Nat.not_le.mpr hroom)

/-- A search that meets `data` before the wrap ends there. -/
theorem Wf.exact_of_before (h : q.Wf) (hroom : q.nr < q.max) {i : ℕ} (hi : q.rindex ≤ i)
    (hwrap : i < q.wrap) (hint : i < 2 ^ 31) (hx : q.bucket i = data) : q.UniqExact data := by
  obtain ⟨l, hscan⟩ := uniqScan_around hi (lt_of_lt_of_le hwrap wrap_le_scanEnd)
  have hle := h.wrap_le
  have hhit : q.cell i = data := (cell_of_lt hint).trans hx
  have hany : (q.uniqScan.any fun i => q.cell i = data) = true := by
    rw [hscan, List.any_append, List.any_cons, decide_eq_true hhit, Bool.true_or, Bool.or_true]
  have hcall := queueEnqueueUniqNb_of_room hroom data
  rw [if_pos hany] at hcall
  refine ⟨?_, ?_, ?_⟩
  · rw [uniqReads_of_room hroom, hscan]
    intro s hs
    obtain ⟨j, hj, rfl⟩ := List.mem_map.mp hs
    have hji : j ≤ i := by
      rcases mem_searched_of_hit (i := i) (decide_eq_true hhit) hj with hj | rfl
      · have hlt := (List.mem_range'_1.mp hj).2
        omega
      · exact Nat.le_refl _
    rw [slotIndex_of_lt (by omega)]
    omega
  · rw [hcall]
  · rw [hcall, if_pos (h.mem_of_before hroom hi hwrap hx)]

/-- A search of an occupied part that does not wrap decides whether `data` is queued. -/
theorem Wf.exact_of_le (h : q.Wf) (hroom : q.nr < q.max) (hle : q.rindex ≤ q.windex)
    (hint : ∀ i < q.windex, q.rindex ≤ i → i < 2 ^ 31) : q.UniqExact data := by
  have hlt := h.windex_lt
  have hscan : q.uniqScan = List.range' q.rindex (q.windex - q.rindex) := if_pos hle
  have hmem (i : ℕ) : i ∈ q.uniqScan ↔ q.rindex ≤ i ∧ i < q.windex := by
    rw [hscan, List.mem_range'_1, Nat.add_sub_cancel' hle]
  have hany : (q.uniqScan.any fun i => q.cell i = data) = true ↔ data ∈ q.toList := by
    unfold toList
    rw [Ring.mem_contents_of_le h.windex_slot hroom hle, List.any_eq_true]
    refine exists_congr fun i => ?_
    rw [hmem, decide_eq_true_iff, and_assoc]
    refine and_congr_right fun hi => and_congr_right fun hi' => ?_
    rw [cell_of_lt (hint i hi' hi)]
  have hcall := queueEnqueueUniqNb_of_room hroom data
  refine ⟨?_, ?_, ?_⟩
  · rw [uniqReads_of_room hroom]
    intro s hs
    obtain ⟨j, hj, rfl⟩ := List.mem_map.mp hs
    obtain ⟨hj, hj'⟩ := (hmem j).mp (mem_of_mem_searched hj)
    rw [slotIndex_of_lt (hint j hj' hj)]
    omega
  · rw [hcall]
  · rw [hcall]
    by_cases hdata : data ∈ q.toList
    · rw [if_pos hdata, if_pos (hany.mpr hdata)]
    · rw [if_neg hdata, if_neg (mt hany.mp hdata), toList_put h hroom]

/-- Without a hit on the way, the first loop gets to every index up to its end. -/
theorem mem_uniqReads (hroom : q.nr < q.max) {i : ℕ} (hi : q.rindex ≤ i) (hend : i < q.scanEnd)
    (hmiss : ∀ j, q.rindex ≤ j → j < i → j < 2 ^ 31 ∧ q.bucket j ≠ data) :
    slotIndex i ∈ q.uniqReads data := by
  obtain ⟨l, hscan⟩ := uniqScan_around hi hend
  rw [uniqReads_of_room hroom, hscan]
  refine List.mem_map_of_mem (mem_searched fun j hj => ?_)
  obtain ⟨hj, hj'⟩ := List.mem_range'_1.mp hj
  obtain ⟨hint, hx⟩ := hmiss j hj (by omega)
  rw [decide_eq_false_iff_not, cell_of_lt hint]
  exact hx

/-- A search that reads the ring only meets `data` before the wrap, if there is one. -/
theorem Wf.staysInside_of_reads (h : q.Wf) (hroom : q.nr < q.max) (hmax : q.max < 2 ^ 32)
    (hreads : ∀ s ∈ q.uniqReads data, 0 ≤ s ∧ s < q.max) : q.StaysInside data := by
  by_contra hout
  obtain ⟨hshape, hmiss⟩ := not_or.mp hout
  have hr := h.rindex_lt
  have hw := h.windex_lt
  have hwrap := h.wrap_le
  -- it goes on to the first index that lies outside
  have hget (i : ℕ) (hi : q.rindex ≤ i) (hend : i < q.scanEnd) (hi' : i ≤ q.wrap)
      (hint : ∀ j, q.rindex ≤ j → j < i → j < 2 ^ 31) : 0 ≤ slotIndex i ∧ slotIndex i < q.max :=
    hreads _ (mem_uniqReads hroom hi hend fun j hj hji =>
      ⟨hint j hj hji, fun hx => hmiss ⟨j, by omega, hj, hint j hj hji, hx⟩⟩)
  unfold slotIndex at hget
  by_cases hle : q.rindex ≤ q.windex
  · -- one that an `int` cannot hold
    have hend : q.wrap = q.windex ∧ q.scanEnd = q.windex := ⟨if_pos hle, if_pos hle⟩
    obtain ⟨i, hi⟩ := not_forall.mp fun hall => hshape ⟨hle, hall⟩
    obtain ⟨hi, hbeyond⟩ := Classical.not_imp.mp hi
    obtain ⟨hi', hbeyond⟩ := Classical.not_imp.mp hbeyond
    have hrange := hget (Max.max q.rindex (2 ^ 31)) (by omega) (by omega) (by omega) (by omega)
    split at hrange <;> omega
  · -- or that of the word past the ring
    have hend : q.wrap = q.max ∧ q.scanEnd = q.max + 1 := ⟨if_neg hle, if_neg hle⟩
    have hrange := hget (Max.max q.rindex (Min.min q.max (2 ^ 31))) (by omega) (by omega) (by omega)
      (by omega)
    split at hrange <;> omega

theorem Wf.exact_of_staysInside (h : q.Wf) (hroom : q.nr < q.max) (hs : q.StaysInside data) :
    q.UniqExact data := by
  rcases hs with ⟨hle, hint⟩ | ⟨i, hwrap, hi, hint, hx⟩
  · exact h.exact_of_le hroom hle hint
  · exact h.exact_of_before hroom hi hwrap hint hx

end RawQueue

/-! ## Queues filled by unique enqueues -/

/-- Elements are added by `queue_enqueue_uniq_nb` only, whose searches stay in the ring. -/
def OnlyUniq (l : QueueLog α) : QueueEvent α → Prop
  | .call (.enqueueUniqNb data) => l.queue.nr < l.queue.max → l.queue.StaysInside data
  | .call (.enqueue _) | .call (.enqueueNb _) => False
  | .call .dequeue | .call .dequeueNb | .call .size | .surround .. => True

variable [DecidableEq α]

instance (l : QueueLog α) : (e : QueueEvent α) → Decidable (OnlyUniq l e)
  | .call (.enqueueUniqNb data) =>
    inferInstanceAs (Decidable (l.queue.nr < l.queue.max → l.queue.StaysInside data))
  | .call (.enqueue _) | .call (.enqueueNb _) => isFalse id
  | .call .dequeue | .call .dequeueNb | .call .size | .surround .. => isTrue trivial

/-- A call that stores nothing removes at most the oldest element. -/
theorem RawQueue.Wf.nodup_of_removal {q q' : RawQueue α} {c : QueueCall α} {r : QueueReply α}
    (h : q.Wf) (hc : q.call c = some (r, q')) (hstored : q.stored c = [])
    (hnodup : q.toList.Nodup) : q'.toList.Nodup := by
  obtain ⟨-, hlist⟩ := RawQueue.call_eq_some h hc
  rw [hstored, List.append_nil] at hlist
  rw [hlist] at hnodup
  exact hnodup.of_append_right

/-- One unique enqueue adds no second copy. -/
theorem RawQueue.Wf.nodup_of_uniq {q : RawQueue α} {data : α} (h : q.Wf)
    (hs : q.nr < q.max → q.StaysInside data) (hnodup : q.toList.Nodup) :
    (q.queueEnqueueUniqNb data).2.toList.Nodup := by
  rcases Nat.lt_or_ge q.nr q.max with hroom | hfull
  · rw [(h.exact_of_staysInside hroom (hs hroom)).contents]
    split
    next => exact hnodup
    next hdata =>
      rw [List.nodup_append]
      refine ⟨hnodup, List.nodup_singleton data, ?_⟩
      rintro x hx y hy rfl
      exact hdata (List.mem_singleton.mp hy ▸ hx)
  · rw [RawQueue.queueEnqueueUniqNb_of_full hfull]
    exact hnodup

theorem onlyUniq_nodup {l : QueueLog α} (h : (fifo α).Reach OnlyUniq l) :
    l.queue.toList.Nodup := by
  refine h.invariant (I := fun l => l.queue.toList.Nodup) ?_ ?_
  · rintro _ ⟨max, bucket, below, -, rfl⟩
    exact List.nodup_nil
  · intro l e l' hreach hnodup hok he
    have hwf : l.queue.Wf := (fifo_reach (hreach.mono fun _ _ _ => trivial)).wf
    cases e with
    | call c =>
      obtain ⟨⟨r, q⟩, hc, rfl⟩ := Option.map_eq_some_iff.mp he
      cases c with
      | enqueue | enqueueNb => exact hok.elim
      | enqueueUniqNb data =>
        obtain ⟨-, rfl⟩ := Prod.mk.inj (Option.some.inj hc)
        exact hwf.nodup_of_uniq hok hnodup
      | dequeue | dequeueNb | size => exact hwf.nodup_of_removal hc rfl hnodup
    | surround bucket below =>
      obtain ⟨q, hq, rfl⟩ := Option.map_eq_some_iff.mp he
      show q.toList.Nodup
      rw [(RawQueue.surround_eq_some hq hwf).2]
      exact hnodup

/-- **When `queue_enqueue_uniq_nb` decides membership.** In every reachable queue with room,
a call reads the ring only, returns 0 and appends its argument exactly if it is not queued,
just when the occupied part does not wrap or holds the argument before the wrap. A queue
filled by such calls only never holds an element twice. -/
theorem uniqExact_iff {l : QueueLog α} (h : (fifo α).Reach Machine.Always l)
    (hmax : l.queue.max < 2 ^ 32) :
    (l.queue.nr < l.queue.max →
      ∀ data, l.queue.UniqExact data ↔ l.queue.StaysInside data) ∧
    ((fifo α).Reach OnlyUniq l → l.queue.toList.Nodup) :=
  have hwf := (fifo_reach h).wf
  ⟨fun hroom _ => ⟨fun he => hwf.staysInside_of_reads hroom hmax he.reads,
    hwf.exact_of_staysInside hroom⟩, onlyUniq_nodup⟩

/-- A full ring of three that has lost its oldest element: the other two lie before the
wrap. -/
theorem uniqExact_iff_wrapped :
    ∃ l : QueueLog ℕ, (fifo ℕ).Reach Machine.Always l ∧ l.queue.windex < l.queue.rindex ∧
      l.queue.UniqExact 7 ∧ l.queue.toList.Nodup := by
  obtain ⟨l, hreach, hl⟩ := Machine.exec_reach (M := fifo ℕ)
    (show (fifo ℕ).init ⟨queueNew 3 (fun _ => 0) fun _ => 0, [], []⟩ from
      ⟨3, _, _, by omega, rfl⟩)
    (show ((fifo ℕ).exec OnlyUniq ⟨queueNew 3 (fun _ => 0) fun _ => 0, [], []⟩
      [.call (.enqueueUniqNb 5), .call (.enqueueUniqNb 6), .call (.enqueueUniqNb 7),
        .call .dequeue]).map
      (fun l => decide (l.queue.windex < l.queue.rindex ∧ l.queue.nr < l.queue.max ∧
        l.queue.max < 2 ^ 32 ∧ l.queue.StaysInside 7)) = some true by decide +kernel)
  obtain ⟨hwrapped, hroom, hmax, hinside⟩ := of_decide_eq_true hl
  have hall : (fifo ℕ).Reach Machine.Always l := hreach.mono fun _ _ _ => trivial
  obtain ⟨hexact, hnodup⟩ := uniqExact_iff hall hmax
  exact ⟨l, hall, hwrapped, (hexact hroom 7).mpr hinside, hnodup hreach⟩

/-- The word past a ring of two, whose only element lies before the wrap, holds the
argument: it is read and taken for a queued element. -/
theorem uniq_refused :
    ∃ l : QueueLog ℕ, (fifo ℕ).Reach Machine.Always l ∧ l.queue.nr < l.queue.max ∧
      7 ∉ l.queue.toList ∧ (l.queue.max : ℤ) ∈ l.queue.uniqReads 7 ∧
      (l.queue.queueEnqueueUniqNb 7).1 = 0 ∧ 7 ∉ (l.queue.queueEnqueueUniqNb 7).2.toList := by
  obtain ⟨l, hreach, hl⟩ := Machine.exec_reach (M := fifo ℕ)
    (show (fifo ℕ).init ⟨queueNew 2 (fun _ => 7) fun _ => 0, [], []⟩ from
      ⟨2, _, _, by omega, rfl⟩)
    (show ((fifo ℕ).exec Machine.Always ⟨queueNew 2 (fun _ => 7) fun _ => 0, [], []⟩
      [.call (.enqueueUniqNb 5), .call .dequeue, .call (.enqueueUniqNb 6)]).map
      (fun l => decide (l.queue.nr < l.queue.max ∧ 7 ∉ l.queue.toList ∧
        (l.queue.max : ℤ) ∈ l.queue.uniqReads 7 ∧ (l.queue.queueEnqueueUniqNb 7).1 = 0 ∧
        7 ∉ (l.queue.queueEnqueueUniqNb 7).2.toList)) = some true by decide +kernel)
  exact ⟨l, hreach, of_decide_eq_true hl⟩

end Dungeon
