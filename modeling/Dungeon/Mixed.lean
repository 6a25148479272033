import Dungeon.Hasht
import Dungeon.Lib.Machine

/-!
# The hash table under any keys

All call sequences of one thread, each call with a key descriptor of its own, while memory
changes in any way. Little of the map of `items_exact` is left, but the counters still count.

- `TableCall`, `tableRuns`: the calls, and the writes to memory between them.
- `tableRuns_counted`: every reachable table is `Counted`.
- `FetchExact`: `hasht_fetch_item` as a search and a removal in one. `fetchExact_iff`: the
  table it leaves is the right one, but what it returns is read from the slot it has cleared.
- `ActsOn`: the node a search, a deletion and a change act on. `actsOn_exact_iff`: the bytes
  compared are those of the shorter key, so it may be one with a longer or a shorter key, just
  when such a node comes first in the bucket.
-/

namespace Dungeon

variable {P : Type}

/-- A call on the table, or a write to memory. -/
inductive TableCall (P : Type) where
  | add (key : HashKey) (data : P) (alloc : Bool)
  | find (key : HashKey) (data : P)
  | fetch (key : HashKey) (data : P)
  | delete (key : HashKey) (data : P)
  | modify (key : HashKey) (data : P) (cb : P → Memory P → Memory P)
  | clean
  | write (mem : Memory P)

/-- A table, the memory its items live in, and what `hasht_clean_table` has called `free` with. -/
structure Store (P : Type) where
  table : Hasht P
  mem : Memory P
  freed : List P

/-- One call. -/
def Store.call (s : Store P) : TableCall P → Store P
  | .add key data alloc => { s with table := (hashtAddItem s.table s.mem key data alloc).2 }
  | .find _ _ => s
  | .fetch key data => { s with table := (hashtFetchItem s.table s.mem key data).2 }
  | .delete key data => { s with table := (hashtDeleteItem s.table s.mem key data).2 }
  | .modify key data cb => { s with mem := (hashtModifyItem s.table s.mem key data cb s.mem).2 }
  | .clean =>
    let r := hashtCleanTable s.table s.freed
    { s with table := r.2.1, freed := r.2.2 }
  | .write mem => { s with mem := mem }

/-- The call sequences on a table made by `hasht_new`. -/
def tableRuns (P : Type) : Machine (Store P) (TableCall P) where
  init s := ∃ (func : Option (List UInt8 → UInt32)) (volume : ℤ),
    hashtNew P func volume = some s.table
  step s c := some (s.call c)

/-- Every call keeps the counters in step. -/
theorem Hasht.Counted.call {s : Store P} (hc : s.table.Counted) (c : TableCall P) :
    (s.call c).table.Counted := by
  cases c with
  | add key data alloc => exact hc.addItem s.mem key data alloc
  | fetch key data =>
    show (hashtFetchItem s.table s.mem key data).2.Counted
    rw [Hasht.fetchItem_table]
    exact hc.deleteItem s.mem key data
  | delete key data => exact hc.deleteItem s.mem key data
  | clean => exact (hc.cleanTable s.freed).1
  | find | modify | write => exact hc

theorem tableRuns_counted {s : Store P} (h : (tableRuns P).Reach Machine.Always s) :
    s.table.Counted := by
  refine h.invariant (I := fun s => s.table.Counted) ?_ ?_
  · rintro s ⟨func, volume, hnew⟩
    have hwf : s.table.Wf s.mem ⟨0, 0⟩ := (Hasht.wf_hashtNew hnew).1
    exact hwf.counted
  · intro s c s' _ hc _ hstep
    obtain rfl := Option.some.inj hstep
    exact hc.call c

/-! ## Fetching -/

/-- One item left its slot, and nothing else happened. -/
structure Removes (h h' : Hasht P) (i : ℕ) (p : P) : Prop where
  slot : ∃ pos nd, (h.bucket i).node[pos]? = some (some nd) ∧ nd.value = p ∧
    (h'.bucket i).node = (h.bucket i).node.set pos none
  others : ∀ j, j ≠ i → h'.bucket j = h.bucket j
  items : h.items = p ::ₘ h'.items
  bucket_count : (h'.bucket i).nrNodes = (h.bucket i).nrNodes - 1
  count : h'.nrNodes = h.nrNodes - 1

/-- `hasht_fetch_item` returns what `hasht_find_item` returns, and removes it. -/
structure FetchExact (h : Hasht P) (mem : Memory P) (key : HashKey) (data : P) : Prop where
  result : (hashtFetchItem h mem key data).1 = hashtFindItem h mem key data
  found : ∀ p, hashtFindItem h mem key data = some p →
    Removes h (hashtFetchItem h mem key data).2 (h.hash mem key data) p
  missing : hashtFindItem h mem key data = none → (hashtFetchItem h mem key data).2 = h

section Fetch

variable {h : Hasht P} {mem : Memory P} {key : HashKey} {data : P}

/-- The value of a cleared slot is `NULL`. -/
theorem fetchItem_result : (hashtFetchItem h mem key data).1 = none := by
  unfold hashtFetchItem
  split
  next => rfl
  next pos nd hsome =>
    have hlt := (List.getElem?_eq_some_iff.mp (Slots.findSlot_eq_some hsome).1).1
    show ((h.bucket _).node.set pos none)[pos]?.join.map _ = none
    rw [List.getElem?_set_self hlt]
    rfl

theorem findItem_eq_none : hashtFindItem h mem key data = none ↔
    ∀ nd ∈ h.nodes (h.hash mem key data), nodeMatches mem key data nd = false := by
  unfold hashtFindItem hashtFindNode Hasht.nodes
  rw [Option.map_eq_none_iff, Slots.findSlot_eq_none]

/-- A fetch removes what a search finds. -/
theorem Hasht.Counted.fetch_removes (hc : h.Counted) {p : P}
    (hfind : hashtFindItem h mem key data = some p) :
    Removes h (hashtFetchItem h mem key data).2 (h.hash mem key data) p := by
  obtain ⟨⟨pos, nd⟩, hsome, rfl⟩ := Option.map_eq_some_iff.mp hfind
  obtain ⟨hslot, -⟩ := Slots.findSlot_eq_some hsome
  rw [Hasht.fetchItem_table]
  rcases Hasht.deleteItem_cases h mem key data with ⟨pos', nd', hsome', heq⟩ | ⟨hnone, -⟩
  · obtain ⟨rfl, rfl⟩ := Prod.mk.inj (Option.some.inj (hsome.symm.trans hsome'))
    rw [heq]
    refine ⟨⟨pos, nd, hslot, rfl, ?_⟩, fun j hj => Function.update_of_ne hj _ _, ?_, ?_, rfl⟩
    · exact congrArg Bucket.node (Function.update_self _ _ h.bucket)
    · exact (hc.freeNode (hc.hash_lt mem key data) hslot).2
    · exact congrArg Bucket.nrNodes (Function.update_self _ _ h.bucket)
  · rw [hsome] at hnone
    cases hnone

theorem fetch_missing (hfind : hashtFindItem h mem key data = none) :
    (hashtFetchItem h mem key data).2 = h := by
  have hnone : hashtFindNode h mem key data = none := Option.map_eq_none_iff.mp hfind
  unfold hashtFetchItem
  rw [hnone]

end Fetch

/-- **When a fetch is a search and a removal.** It always leaves the table it should: without
the item a search finds, or as it was. But it is all it should be only when there is nothing to
find: no node in the bucket of the probe matches it. -/
theorem fetchExact_iff {s : Store P} (h : (tableRuns P).Reach Machine.Always s) (key : HashKey)
    (data : P) :
    (∀ p, hashtFindItem s.table s.mem key data = some p →
      Removes s.table (hashtFetchItem s.table s.mem key data).2 (s.table.hash s.mem key data) p) ∧
    (FetchExact s.table s.mem key data ↔ ∀ nd ∈ s.table.nodes (s.table.hash s.mem key data),
      nodeMatches s.mem key data nd = false) := by
  have hc := tableRuns_counted h
  refine ⟨fun p hp => hc.fetch_removes hp, ?_⟩
  rw [← findItem_eq_none]
  constructor
  · intro he
    rw [← he.result, fetchItem_result]
  · intro hnone
    exact ⟨fetchItem_result.trans hnone.symm, fun p hp => hc.fetch_removes hp, fetch_missing⟩

/-- A table for two items, whose keys are their numbers. -/
def smallTable : Store ℕ := ⟨(hashtNew ℕ none 2).get rfl, fun p _ => UInt8.ofNat p, []⟩

theorem smallTable_init : (tableRuns ℕ).init smallTable := ⟨none, 2, rfl⟩

/-- An item of another key is stored: there is nothing to fetch. -/
theorem fetchExact_iff_otherKey :
    ∃ s : Store ℕ, (tableRuns ℕ).Reach Machine.Always s ∧ s.table.nrNodes = 1 ∧
      FetchExact s.table s.mem ⟨0, 1⟩ 4 := by
  obtain ⟨s, hreach, hs⟩ := Machine.exec_reach smallTable_init
    (show ((tableRuns ℕ).exec Machine.Always smallTable [.add ⟨0, 1⟩ 3 true]).map
      (fun s => decide (s.table.nrNodes = 1 ∧ ∀ nd ∈ s.table.nodes (s.table.hash s.mem ⟨0, 1⟩ 4),
        nodeMatches s.mem ⟨0, 1⟩ 4 nd = false)) = some true by decide +kernel)
  obtain ⟨hnr, hno⟩ := of_decide_eq_true hs
  exact ⟨s, hreach, hnr, (fetchExact_iff hreach ⟨0, 1⟩ 4).2.mpr hno⟩

/-- The item is found, then fetched: it is gone, and `NULL` returned. -/
theorem fetch_returns_null :
    ∃ s : Store ℕ, (tableRuns ℕ).Reach Machine.Always s ∧
      hashtFindItem s.table s.mem ⟨0, 1⟩ 3 = some 3 ∧
      (hashtFetchItem s.table s.mem ⟨0, 1⟩ 3).1 = none ∧
      (hashtFetchItem s.table s.mem ⟨0, 1⟩ 3).2.nrNodes = 0 := by
  obtain ⟨s, hreach, hs⟩ := Machine.exec_reach smallTable_init
    (show ((tableRuns ℕ).exec Machine.Always smallTable [.add ⟨0, 1⟩ 3 true]).map
      (fun s => decide (hashtFindItem s.table s.mem ⟨0, 1⟩ 3 = some 3 ∧
        (hashtFetchItem s.table s.mem ⟨0, 1⟩ 3).1 = none ∧
        (hashtFetchItem s.table s.mem ⟨0, 1⟩ 3).2.nrNodes = 0)) = some true by decide +kernel)
  exact ⟨s, hreach, of_decide_eq_true hs⟩

/-! ## Keys of several lengths -/

/-- The stored key is the probe's: as long, and of the same bytes. -/
def SameKey (mem : Memory P) (key : HashKey) (data : P) (nd : HashNode P) : Prop :=
  nd.key.len = key.len ∧ keyBytes mem nd.key nd.value = keyBytes mem key data

/-- The node that a search, a deletion and a change act on, with its slot. -/
structure ActsOn (h : Hasht P) (mem : Memory P) (key : HashKey) (data : P) (pos : ℕ)
    (nd : HashNode P) : Prop where
  slot : (h.bucket (h.hash mem key data)).node[pos]? = some (some nd)
  find : hashtFindItem h mem key data = some nd.value
  delete : hashtDeleteItem h mem key data = (0,
    { h.setBucket (h.hash mem key data)
        { node := (h.bucket (h.hash mem key data)).node.set pos none
          nrNodes := (h.bucket (h.hash mem key data)).nrNodes - 1 } with
      nrNodes := h.nrNodes - 1 })
  modify : ∀ (σ : Type) (modify : P → σ → σ) (args : σ),
    hashtModifyItem h mem key data modify args = (0, modify nd.value args)

variable {h : Hasht P} {mem : Memory P} {key : HashKey} {data : P} {pos : ℕ} {nd : HashNode P}

/-- The three act on the node `hasht_find_node` returns. -/
theorem actsOn_iff :
    ActsOn h mem key data pos nd ↔ hashtFindNode h mem key data = some (pos, nd) := by
  constructor
  · intro ha
    have hdelete := ha.delete
    rcases Hasht.deleteItem_cases h mem key data with ⟨pos', nd', hsome, heq⟩ | ⟨-, heq⟩
    · -- both slots are cleared in the same bucket, so they are one
      obtain ⟨hslot', -⟩ := Slots.findSlot_eq_some hsome
      have hlt' := (List.getElem?_eq_some_iff.mp hslot').1
      rw [heq] at hdelete
      have hbucket := congrArg (fun r => (r.2.bucket (h.hash mem key data)).node[pos']?) hdelete
      simp only [Hasht.setBucket, Function.update_self] at hbucket
      rw [List.getElem?_set_self hlt'] at hbucket
      have hpos : pos = pos' := by
        by_contra hne
        rw [List.getElem?_set_ne hne, hslot'] at hbucket
        cases hbucket
      subst hpos
      obtain rfl := Option.some.inj (Option.some.inj (ha.slot.symm.trans hslot'))
      exact hsome
    · have hcode := congrArg Prod.fst (heq.symm.trans hdelete)
      exact absurd (show enoent = 0 from hcode) (by decide)
  · intro hsome
    refine ⟨(Slots.findSlot_eq_some hsome).1, ?_, ?_, fun σ modify args => ?_⟩
    · unfold hashtFindItem
      rw [hsome]
      rfl
    · unfold hashtDeleteItem
      rw [hsome]
    · unfold hashtModifyItem
      rw [hsome]

/-- **When the node acted on has the probe's key.** Exactly if every node of the probe's
bucket that agrees with the probe on the shorter of two different lengths stands behind one of
the same key. -/
theorem actsOn_exact_iff (h : Hasht P) (mem : Memory P) (key : HashKey) (data : P) :
    (∀ pos nd, ActsOn h mem key data pos nd → SameKey mem key data nd) ↔
      ∀ (pos : ℕ) (nd : HashNode P),
        (h.bucket (h.hash mem key data)).node[pos]? = some (some nd) →
        nodeMatches mem key data nd = true → nd.key.len ≠ key.len →
        ∃ pos' < pos, ∃ nd', (h.bucket (h.hash mem key data)).node[pos']? = some (some nd') ∧
          SameKey mem key data nd' := by
  constructor
  · intro hexact pos nd hslot hmatch hlen
    -- the node found has the probe's key, so it is not this one, and it comes first
    cases hfind : hashtFindNode h mem key data with
    | none =>
      have hno := Slots.findSlot_eq_none.mp hfind nd
        (Slots.mem_entries.mpr (List.mem_of_getElem? hslot))
      rw [hmatch] at hno
      cases hno
    | some r =>
      obtain ⟨pos', nd'⟩ := r
      have hkey := hexact pos' nd' (actsOn_iff.mpr hfind)
      have hslot' := (Slots.findSlot_eq_some hfind).1
      refine ⟨pos', ?_, nd', hslot', hkey⟩
      rcases Nat.lt_trichotomy pos' pos with hlt | rfl | hgt
      · exact hlt
      · obtain rfl := Option.some.inj (Option.some.inj (hslot.symm.trans hslot'))
        exact absurd hkey.1 hlen
      · have hno := Slots.findSlot_first hfind hgt hslot
        rw [hmatch] at hno
        cases hno
  · intro hcond pos nd ha
    have hfind := actsOn_iff.mp ha
    have hmatch := (Slots.findSlot_eq_some hfind).2
    by_contra hkey
    have hlen : nd.key.len ≠ key.len := fun hlen =>
      hkey ⟨hlen, (Hasht.nodeMatches_iff_of_len hlen).mp hmatch⟩
    obtain ⟨pos', hlt, nd', hslot', hkey'⟩ := hcond pos nd ha.slot hmatch hlen
    have hno := Slots.findSlot_first hfind hlt hslot'
    rw [(Hasht.nodeMatches_iff_of_len hkey'.1).mpr hkey'.2] at hno
    cases hno

/-- A table of one bucket: the item added with a key of two bytes is deleted for a probe that
has the first of them as its key. -/
theorem prefix_matches :
    ∃ s : Store ℕ, (tableRuns ℕ).Reach Machine.Always s ∧
      ∃ nd, ActsOn s.table s.mem ⟨0, 1⟩ 4 0 nd ∧ ¬ SameKey s.mem ⟨0, 1⟩ 4 nd := by
  obtain ⟨s, hreach, hs⟩ := Machine.exec_reach (M := tableRuns ℕ)
    (show (tableRuns ℕ).init ⟨(hashtNew ℕ none 8).get rfl, fun _ i => UInt8.ofNat i.toNat, []⟩ from
      ⟨none, 8, rfl⟩)
    (show ((tableRuns ℕ).exec Machine.Always
      ⟨(hashtNew ℕ none 8).get rfl, fun _ i => UInt8.ofNat i.toNat, []⟩ [.add ⟨0, 2⟩ 3 true]).map
      (fun s => (hashtFindNode s.table s.mem ⟨0, 1⟩ 4).any fun r =>
        decide (r.1 = 0 ∧ r.2.key.len = 2)) = some true by decide +kernel)
  obtain ⟨⟨pos, nd⟩, hfind, hr⟩ := (Option.any_eq_true _ _).mp hs
  obtain ⟨rfl, hlen⟩ := of_decide_eq_true hr
  refine ⟨s, hreach, nd, actsOn_iff.mpr hfind, fun hkey => ?_⟩
  exact absurd (hlen.symm.trans hkey.1) (by decide)

end Dungeon
