import Dungeon.Lib.Locks
import Dungeon.Mixed

/-!
# The locks of the hash table

A table has one lock and each bucket another. The operations of `Dungeon.Hasht` again, with
the calls that take these locks and give them back.

- `LockName`, `TableM`: the locks, and computations that use them.
- `Locking.hashtAddItem` and so on: the operations, statement by statement. A handler that
  `pthread_cleanup_push` registered is not run by a `return`.
- `lockedRuns`: the call sequences of one thread, where `malloc` and `realloc` may fail at any
  call.
- `Granted`: what keeps a call from failing for want of memory while it has a lock.
- `addItem_runs` and so on: each operation does to the table what its counterpart without
  locks does, and leaves the locks free if it is `Granted`.
- `locks_released`: hence no lock is ever left taken in runs whose calls are `Granted`.
-/

namespace Dungeon

/-- The locks of a table. -/
inductive LockName where
  | table
  | bucket (i : ℕ)
  deriving DecidableEq

/-- Computations on a table, its items' memory and its locks. -/
abbrev TableM (P : Type) := LockM LockName (Store P)

namespace Locking

open LockM

variable {P : Type}

/-- The table's count changes by `n`, under the lock of the table. -/
def countNodes (n : ℤ) : TableM P Unit := do
  wrlock .table
  modifyData fun s => { s with table := { s.table with nrNodes := s.table.nrNodes + n } }
  unlock .table

/-- Bucket `i` becomes `b`. -/
def writeBucket (i : ℕ) (b : Bucket P) : TableM P Unit :=
  modifyData fun s => { s with table := s.table.setBucket i b }

/-- `free` is called with each of `values`. -/
def freeValues (values : List P) : TableM P Unit :=
  modifyData fun s => { s with freed := s.freed ++ values }

/-- `hasht_add_item`. -/
def hashtAddItem (key : HashKey) (data : P) (alloc : Bool) : TableM P ℤ := do
  let s ← LockM.data
  if s.table.nrNodes ≥ s.table.volume then return enomem
  else
    let hash := s.table.hash s.mem key data
    wrlock (.bucket hash)
    let s ← LockM.data
    match bucketGetFreePos (s.table.bucket hash) alloc with
    | none => return enomem
    | some (pos, b) =>
      writeBucket hash
        { node := b.node.set pos (some { keyval := hash, key := key, value := data })
          nrNodes := b.nrNodes + 1 }
      unlock (.bucket hash)
      countNodes 1
      return 0

/-- `hasht_find_item`. -/
def hashtFindItem (key : HashKey) (data : P) : TableM P (Option P) := do
  let s ← LockM.data
  let hash := s.table.hash s.mem key data
  rdlock (.bucket hash)
  let s ← LockM.data
  match hashtFindNode s.table s.mem key data with
  | none =>
    unlock (.bucket hash)
    return none
  | some (_, nd) =>
    unlock (.bucket hash)
    return some nd.value

/-- `hasht_fetch_item`, under a lock for reading. -/
def hashtFetchItem (key : HashKey) (data : P) : TableM P (Option P) := do
  let s ← LockM.data
  let hash := s.table.hash s.mem key data
  rdlock (.bucket hash)
  let s ← LockM.data
  match hashtFindNode s.table s.mem key data with
  | none =>
    unlock (.bucket hash)
    return none
  | some (pos, _) =>
    writeBucket hash
      { node := (s.table.bucket hash).node.set pos none
        nrNodes := (s.table.bucket hash).nrNodes - 1 }
    unlock (.bucket hash)
    countNodes (-1)
    let s ← LockM.data
    return (s.table.bucket hash).node[pos]?.join.map HashNode.value

/-- `hasht_delete_item`. -/
def hashtDeleteItem (key : HashKey) (data : P) : TableM P ℤ := do
  let s ← LockM.data
  let hash := s.table.hash s.mem key data
  wrlock (.bucket hash)
  let s ← LockM.data
  match hashtFindNode s.table s.mem key data with
  | none =>
    unlock (.bucket hash)
    return enoent
  | some (pos, _) =>
    writeBucket hash
      { node := (s.table.bucket hash).node.set pos none
        nrNodes := (s.table.bucket hash).nrNodes - 1 }
    unlock (.bucket hash)
    countNodes (-1)
    return 0

/-- One turn of the loop of `hasht_clean_table`. -/
def cleanBucket (i : ℕ) : TableM P Unit := do
  wrlock (.bucket i)
  let s ← LockM.data
  freeValues ((Slots.entries (s.table.bucket i).node).map HashNode.value)
  writeBucket i
    { node := List.replicate (s.table.bucket i).node.length none
      nrNodes := 0 }
  unlock (.bucket i)
  countNodes (-(Slots.entries (s.table.bucket i).node).length)

/-- `hasht_clean_table`. -/
def hashtCleanTable : TableM P ℤ := do
  let s ← LockM.data
  (List.range s.table.nrBuckets).forM cleanBucket
  return 0

/-- `hasht_modify_item`, whose callback changes memory. -/
def hashtModifyItem (key : HashKey) (data : P) (modify : P → Memory P → Memory P) :
    TableM P ℤ := do
  let s ← LockM.data
  let hash := s.table.hash s.mem key data
  rdlock (.bucket hash)
  let s ← LockM.data
  match hashtFindNode s.table s.mem key data with
  | none =>
    unlock (.bucket hash)
    return -1
  | some (_, nd) =>
    modifyData fun s => { s with mem := modify nd.value s.mem }
    unlock (.bucket hash)
    return 0

/-- One call, whatever it returns. -/
def call : TableCall P → TableM P Unit
  | .add key data alloc => do let _ ← hashtAddItem key data alloc
  | .find key data => do let _ ← hashtFindItem key data
  | .fetch key data => do let _ ← hashtFetchItem key data
  | .delete key data => do let _ ← hashtDeleteItem key data
  | .modify key data cb => do let _ ← hashtModifyItem key data cb
  | .clean => do let _ ← hashtCleanTable
  | .write mem => modifyData fun s => { s with mem := mem }

/-- A bucket has a position for an item: it has a free slot, or gets memory for one. -/
def Obtains (b : Bucket P) (alloc : Bool) : Prop :=
  (Slots.freeSlot b.node).isSome ∨ (alloc = true ∧ Hasht.Fits b)

/-- A call does not fail for want of memory while it has a lock. -/
def Granted (s : Guarded LockName (Store P)) : TableCall P → Prop
  | .add key data alloc => s.data.table.nrNodes < s.data.table.volume →
      Obtains (s.data.table.bucket (s.data.table.hash s.data.mem key data)) alloc
  | .find _ _ | .fetch _ _ | .delete _ _ | .modify _ _ _ | .clean | .write _ => True

instance (b : Bucket P) (alloc : Bool) : Decidable (Obtains b alloc) :=
  inferInstanceAs (Decidable (_ ∨ (alloc = true ∧ (Slots.freeSlot b.node = none →
    b.node.length + bucketGrowth b.node.length < 2 ^ 31))))

instance (s : Guarded LockName (Store P)) : (c : TableCall P) → Decidable (Granted s c)
  | .add _ _ _ => inferInstanceAs (Decidable (_ < _ → Obtains _ _))
  | .find _ _ | .fetch _ _ | .delete _ _ | .modify _ _ _ | .clean | .write _ => isTrue trivial

/-- The call sequences of one thread on a table made by `hasht_new`. A call that waits for a
lock has no successor. -/
def lockedRuns (P : Type) : Machine (Guarded LockName (Store P)) (TableCall P) where
  init s := (∃ (func : Option (List UInt8 → UInt32)) (volume : ℤ),
    hashtNew P func volume = some s.data.table) ∧ s.locks = LockM.free
  step s c := ((call c).run s).map Prod.snd

/-! ## What each operation does -/

section Operations

variable {s : Store P} {key : HashKey} {data : P}

theorem runs_countNodes (n : ℤ) (s : Store P) :
    Runs (countNodes n) ⟨s, LockM.free⟩ ()
      ⟨{ s with table := { s.table with nrNodes := s.table.nrNodes + n } }, LockM.free⟩ :=
  runs_section LockName.table s fun s =>
    { s with table := { s.table with nrNodes := s.table.nrNodes + n } }

theorem runs_writeBucket (i : ℕ) (b : Bucket P) (s : Guarded LockName (Store P)) :
    Runs (writeBucket i b) s ()
      { s with data := { s.data with table := s.data.table.setBucket i b } } :=
  runs_modifyData _ s

theorem getFreePos_eq_none_iff {b : Bucket P} {alloc : Bool} :
    bucketGetFreePos b alloc = none ↔ ¬ Obtains b alloc := by
  unfold bucketGetFreePos Obtains
  split
  next hempty =>
    -- a bucket that was never used
    have hfits : Hasht.Fits b := by
      intro _
      rw [hempty]
      show 0 + bucketGrowth 0 < 2 ^ 31
      decide
    rw [hempty]
    cases alloc with
    | true => exact iff_of_false nofun fun h => h (.inr ⟨rfl, hfits⟩)
    | false =>
      refine iff_of_true rfl ?_
      rintro (h | ⟨h, -⟩) <;> exact Bool.false_ne_true h
  next =>
    split
    next i hfree => exact iff_of_false nofun fun h => h (.inl (by rw [hfree]; rfl))
    next hfull =>
      split
      next hgrow => exact iff_of_false nofun fun h => h (.inr ⟨hgrow.1, fun _ => hgrow.2⟩)
      next hgrow =>
        refine iff_of_true rfl ?_
        rintro (h | ⟨halloc, hfits⟩)
        · rw [hfull] at h
          exact Bool.false_ne_true h
        · exact hgrow ⟨halloc, hfits hfull⟩

/-- An addition that is granted what it needs gives its locks back. -/
theorem addItem_runs {alloc : Bool}
    (hgranted : Granted ⟨s, LockM.free⟩ (.add key data alloc)) :
    Runs (hashtAddItem key data alloc) ⟨s, LockM.free⟩
      (Dungeon.hashtAddItem s.table s.mem key data alloc).1
      ⟨s.call (.add key data alloc), LockM.free⟩ := by
  unfold hashtAddItem Store.call Dungeon.hashtAddItem
  refine (runs_data _).bind ?_
  dsimp only
  by_cases hfull : s.table.nrNodes ≥ s.table.volume
  · rw [if_pos hfull, if_pos hfull]
    exact Runs.pure _ _
  · rw [if_neg hfull, if_neg hfull]
    refine (runs_wrlock _ s).bind ((runs_data _).bind ?_)
    dsimp only
    cases hpos : bucketGetFreePos (s.table.bucket (s.table.hash s.mem key data)) alloc with
    | none => exact absurd (hgranted (not_le.mp hfull)) (getFreePos_eq_none_iff.mp hpos)
    | some r =>
      exact (runs_writeBucket _ _ _).bind ((runs_unlock_writing _ _).bind
        ((runs_countNodes _ _).bind (Runs.pure _ _)))

/-- One that gets no memory changes nothing, but keeps the lock of the bucket. -/
theorem addItem_keeps {alloc : Bool}
    (hrefused : ¬ Granted ⟨s, LockM.free⟩ (.add key data alloc)) :
    Runs (hashtAddItem key data alloc) ⟨s, LockM.free⟩ enomem
        ⟨s, LockM.writing (.bucket (s.table.hash s.mem key data))⟩ ∧
      Dungeon.hashtAddItem s.table s.mem key data alloc = (enomem, s.table) := by
  obtain ⟨hroom, hnone⟩ := Classical.not_imp.mp hrefused
  have hpos := getFreePos_eq_none_iff.mpr hnone
  dsimp only at hroom hpos
  constructor
  · unfold hashtAddItem
    refine (runs_data _).bind ?_
    dsimp only
    rw [if_neg (not_le.mpr hroom)]
    refine (runs_wrlock _ s).bind ((runs_data _).bind ?_)
    dsimp only
    rw [hpos]
    exact Runs.pure _ _
  · unfold Dungeon.hashtAddItem
    rw [if_neg (not_le.mpr hroom)]
    dsimp only
    rw [hpos]

theorem findItem_runs (s : Store P) (key : HashKey) (data : P) :
    Runs (hashtFindItem key data) ⟨s, LockM.free⟩ (Dungeon.hashtFindItem s.table s.mem key data)
      ⟨s, LockM.free⟩ := by
  unfold hashtFindItem Dungeon.hashtFindItem
  refine (runs_data _).bind ((runs_rdlock _ s).bind ((runs_data _).bind ?_))
  dsimp only
  cases hashtFindNode s.table s.mem key data with
  | none => exact (runs_unlock_reading _ s).bind (Runs.pure _ _)
  | some r => exact (runs_unlock_reading _ s).bind (Runs.pure _ _)

theorem fetchItem_runs (s : Store P) (key : HashKey) (data : P) :
    Runs (hashtFetchItem key data) ⟨s, LockM.free⟩
      (Dungeon.hashtFetchItem s.table s.mem key data).1
      ⟨s.call (.fetch key data), LockM.free⟩ := by
  unfold hashtFetchItem Store.call Dungeon.hashtFetchItem
  refine (runs_data _).bind ((runs_rdlock _ s).bind ((runs_data _).bind ?_))
  dsimp only
  cases hashtFindNode s.table s.mem key data with
  | none => exact (runs_unlock_reading _ s).bind (Runs.pure _ _)
  | some r =>
    refine (runs_writeBucket _ _ _).bind ((runs_unlock_reading _ _).bind
      ((runs_countNodes _ _).bind ((runs_data _).bind ?_)))
    -- the slot is read again after the locks are given back
    unfold Hasht.setBucket
    dsimp only
    rw [Function.update_self]
    exact Runs.pure _ _

theorem deleteItem_runs (s : Store P) (key : HashKey) (data : P) :
    Runs (hashtDeleteItem key data) ⟨s, LockM.free⟩
      (Dungeon.hashtDeleteItem s.table s.mem key data).1
      ⟨s.call (.delete key data), LockM.free⟩ := by
  unfold hashtDeleteItem Store.call Dungeon.hashtDeleteItem
  refine (runs_data _).bind ((runs_wrlock _ s).bind ((runs_data _).bind ?_))
  dsimp only
  cases hashtFindNode s.table s.mem key data with
  | none => exact (runs_unlock_writing _ s).bind (Runs.pure _ _)
  | some r =>
    exact (runs_writeBucket _ _ _).bind ((runs_unlock_writing _ _).bind
      ((runs_countNodes _ _).bind (Runs.pure _ _)))

theorem cleanBucket_runs (i : ℕ) (s : Store P) :
    Runs (cleanBucket i) ⟨s, LockM.free⟩ ()
      ⟨{ s with
          table := (Dungeon.cleanBucket (s.table, s.freed) i).1
          freed := (Dungeon.cleanBucket (s.table, s.freed) i).2 }, LockM.free⟩ :=
  (runs_wrlock _ s).bind ((runs_data _).bind ((runs_modifyData _ _).bind
    ((runs_writeBucket _ _ _).bind ((runs_unlock_writing _ _).bind (runs_countNodes _ _)))))

theorem cleanTable_runs (s : Store P) :
    Runs hashtCleanTable ⟨s, LockM.free⟩ 0 ⟨s.call .clean, LockM.free⟩ := by
  have hloop := runs_forM cleanBucket_runs (List.range s.table.nrBuckets) s
  have hfold : (List.range s.table.nrBuckets).foldl
      (fun s i => { s with
        table := (Dungeon.cleanBucket (s.table, s.freed) i).1
        freed := (Dungeon.cleanBucket (s.table, s.freed) i).2 }) s = s.call .clean :=
    @List.foldl_hom (Hasht P × List P) _ _ (fun r => { s with table := r.1, freed := r.2 }) _ _ _
      (s.table, s.freed) fun _ _ => rfl
  rw [hfold] at hloop
  exact (runs_data _).bind (hloop.bind (Runs.pure _ _))

theorem modifyItem_runs (s : Store P) (key : HashKey) (data : P)
    (cb : P → Memory P → Memory P) :
    Runs (hashtModifyItem key data cb) ⟨s, LockM.free⟩
      (Dungeon.hashtModifyItem s.table s.mem key data cb s.mem).1
      ⟨s.call (.modify key data cb), LockM.free⟩ := by
  unfold hashtModifyItem Store.call Dungeon.hashtModifyItem
  refine (runs_data _).bind ((runs_rdlock _ s).bind ((runs_data _).bind ?_))
  dsimp only
  cases hashtFindNode s.table s.mem key data with
  | none => exact (runs_unlock_reading _ s).bind (Runs.pure _ _)
  | some r =>
    exact (runs_modifyData _ _).bind ((runs_unlock_reading _ _).bind (Runs.pure _ _))

/-- **A granted call** does what it does without locks, and gives its locks back. -/
theorem call_runs (s : Store P) (c : TableCall P) (hgranted : Granted ⟨s, LockM.free⟩ c) :
    Runs (call c) ⟨s, LockM.free⟩ () ⟨s.call c, LockM.free⟩ := by
  cases c with
  | add key data alloc => exact (addItem_runs hgranted).bind (Runs.pure _ _)
  | find key data => exact (findItem_runs s key data).bind (Runs.pure _ _)
  | fetch key data => exact (fetchItem_runs s key data).bind (Runs.pure _ _)
  | delete key data => exact (deleteItem_runs s key data).bind (Runs.pure _ _)
  | modify key data cb => exact (modifyItem_runs s key data cb).bind (Runs.pure _ _)
  | clean => exact (cleanTable_runs s).bind (Runs.pure _ _)
  | write mem => exact runs_modifyData (fun s : Store P => { s with mem := mem }) _

end Operations

/-! ## Runs -/

theorem step_eq {s s' : Guarded LockName (Store P)} {c : TableCall P} (h : Runs (call c) s () s') :
    (lockedRuns P).step s c = some s' := by
  show ((call c).run s).map Prod.snd = some s'
  rw [h]
  rfl

/-- The call has to have bucket `i`. -/
def Needs (s : Store P) (i : ℕ) : TableCall P → Prop
  | .add key data _ => s.table.nrNodes < s.table.volume ∧ s.table.hash s.mem key data = i
  | .find key data | .fetch key data | .delete key data | .modify key data _ =>
    s.table.hash s.mem key data = i
  | .clean | .write _ => False

/-- **A lock that was kept** stops every call that needs its bucket. -/
theorem step_waits {s : Store P} {i : ℕ} {c : TableCall P} (h : Needs s i c) :
    (lockedRuns P).step ⟨s, LockM.writing (.bucket i)⟩ c = none := by
  have hcall : (call c).run ⟨s, LockM.writing (.bucket i)⟩ = none := by
    cases c with
    | add key data alloc =>
      obtain ⟨hroom, rfl⟩ := h
      refine bind_eq_none ((runs_data _).bind_eq_none ?_)
      dsimp only
      rw [if_neg (not_le.mpr hroom)]
      exact bind_eq_none (wrlock_taken _ s)
    | find | fetch | modify =>
      obtain rfl := h
      exact bind_eq_none ((runs_data _).bind_eq_none (bind_eq_none (rdlock_taken _ s)))
    | delete =>
      obtain rfl := h
      exact bind_eq_none ((runs_data _).bind_eq_none (bind_eq_none (wrlock_taken _ s)))
    | clean | write => exact h.elim
  show ((call c).run _).map Prod.snd = none
  rw [hcall]
  rfl

/-- In a run whose calls are granted what they need the locks are free after every call, and
the table is that of the same run without locks. -/
theorem lockedRuns_free {s : Guarded LockName (Store P)} (h : (lockedRuns P).Reach Granted s) :
    s.locks = LockM.free ∧ (tableRuns P).Reach Machine.Always s.data := by
  refine h.invariant
    (I := fun s => s.locks = LockM.free ∧ (tableRuns P).Reach Machine.Always s.data) ?_ ?_
  · rintro s ⟨hnew, hfree⟩
    exact ⟨hfree, Machine.Reach.start hnew⟩
  · rintro ⟨s, _⟩ c s' - ⟨rfl, hreach⟩ hgranted hstep
    obtain rfl := Option.some.inj ((step_eq (call_runs s c hgranted)).symm.trans hstep)
    exact ⟨rfl, hreach.next trivial rfl⟩

/-- **No lock is left behind.** In a run whose calls do not fail for want of memory while they
have a lock, all locks are free after every call. Every call that may follow gets on and
returns; it does to the table what it does without locks, and only one that fails for want of
memory keeps a lock. An addition that returns `ENOMEM` changes nothing. -/
theorem locks_released {s : Guarded LockName (Store P)} (h : (lockedRuns P).Reach Granted s) :
    s.locks = LockM.free ∧
    (∀ c, ∃ s', (lockedRuns P).step s c = some s' ∧ s'.data = s.data.call c ∧
      (s'.locks = LockM.free ↔ Granted s c)) ∧
    ∀ key data alloc, ∃ r s', Runs (hashtAddItem key data alloc) s r s' ∧
      (r = enomem → s'.data = s.data) := by
  obtain ⟨hfree, -⟩ := lockedRuns_free h
  obtain ⟨s, locks⟩ := s
  obtain rfl : locks = LockM.free := hfree
  refine ⟨rfl, fun c => ?_, fun key data alloc => ?_⟩
  · by_cases hgranted : Granted ⟨s, LockM.free⟩ c
    · exact ⟨_, step_eq (call_runs s c hgranted), rfl, iff_of_true rfl hgranted⟩
    · cases c with
      | add key data alloc =>
        obtain ⟨hruns, hkeep⟩ := addItem_keeps hgranted
        refine ⟨_, step_eq (hruns.bind (Runs.pure _ _)), ?_,
          iff_of_false (LockM.writing_ne_free _) hgranted⟩
        show s = { s with table := (Dungeon.hashtAddItem s.table s.mem key data alloc).2 }
        rw [hkeep]
      | find | fetch | delete | modify | clean | write => exact absurd trivial hgranted
  · by_cases hgranted : Granted ⟨s, LockM.free⟩ (.add key data alloc)
    · refine ⟨_, _, addItem_runs hgranted, fun henomem => ?_⟩
      show ({ s with table := (Dungeon.hashtAddItem s.table s.mem key data alloc).2 } : Store P)
        = s
      rcases Hasht.addItem_cases s.table s.mem key data alloc with ⟨b, heq, -⟩ | ⟨heq, -⟩
      · rw [heq] at henomem
        cases henomem
      · rw [heq]
    · exact ⟨_, _, (addItem_keeps hgranted).1, fun _ => rfl⟩

/-- A table for two items, with its locks free. -/
def freshTable : Guarded LockName (Store ℕ) :=
  ⟨smallTable, LockM.free⟩

theorem freshTable_init : (lockedRuns ℕ).init freshTable := ⟨smallTable_init, rfl⟩

/-- The second addition is refused since the table is full, and keeps no lock. -/
theorem locks_released_full :
    ∃ s, (lockedRuns ℕ).Reach Granted s ∧ s.data.table.nrNodes = 2 ∧ s.locks = LockM.free := by
  obtain ⟨s, hreach, hs⟩ := Machine.exec_reach freshTable_init
    (show ((lockedRuns ℕ).exec Granted freshTable
      [.add ⟨0, 1⟩ 3 true, .find ⟨0, 1⟩ 3, .add ⟨0, 1⟩ 4 false, .add ⟨0, 1⟩ 5 false]).map
      (fun s => decide (s.data.table.nrNodes = 2)) = some true by decide +kernel)
  exact ⟨s, hreach, of_decide_eq_true hs, (locks_released hreach).1⟩

/-- The first addition gets no memory for the bucket and returns with its lock; a search in
that bucket then waits for ever. -/
theorem add_keeps_lock :
    ∃ s, (lockedRuns ℕ).step freshTable (.add ⟨0, 1⟩ 3 false) = some s ∧
      s.locks (.bucket 0) = .writing ∧ s.data.table.nrNodes = 0 ∧
      (lockedRuns ℕ).step s (.find ⟨0, 1⟩ 3) = none := by
  have hrefused : ¬ Granted freshTable (.add ⟨0, 1⟩ 3 false) := by decide
  have hbucket : freshTable.data.table.hash freshTable.data.mem ⟨0, 1⟩ 3 = 0 := Nat.mod_one _
  refine ⟨_, step_eq ((addItem_keeps hrefused).1.bind (Runs.pure _ _)), ?_, rfl, ?_⟩
  · show LockM.writing
      (LockName.bucket (freshTable.data.table.hash freshTable.data.mem ⟨0, 1⟩ 3))
      (LockName.bucket 0) = .writing
    rw [hbucket]
    exact Function.update_self _ _ _
  · exact step_waits (show Needs _ _ (.find ⟨0, 1⟩ 3) from rfl)

end Locking

end Dungeon
