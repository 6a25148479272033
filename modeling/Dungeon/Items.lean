import Dungeon.Hasht
import Dungeon.Lib.Frees
import Dungeon.Lib.Machine

/-!
# The hash table is a multiset of items

All call sequences of one thread that uses one key descriptor, on a table of any volume
under any hash function.

- `ItemCall`, `itemRuns`: the calls, and between them what the caller does to memory. A
  stored item stays allocated and keeps its key bytes, which the callback of
  `hasht_modify_item` and whoever else writes to an item have to see to; everything else in
  memory may change. `hasht_clean_table` frees the items, which is undefined for what is no
  allocation, or none any more.
- `itemRuns_wf`: the table stays well formed. `itemRuns_sound`: the allocations are in order.
- `items_exact`: hence searches, changes and removals succeed exactly when an item with
  the probe's key is stored, a full table refuses an addition, and the two levels of counters
  count the items. Another addition is refused exactly when its bucket is full and too large
  to grow, and cleaning is defined exactly when the items are distinct allocations.
- `filled`: such a bucket is reached by additions alone.
- `items_not_exact`: hence neither condition can be left out.
-/

namespace Dungeon

variable {P : Type} {key : HashKey}

/-- The table, the memory its items live in, and the allocations. -/
structure Shelf (P : Type) where
  table : Hasht P
  mem : Memory P
  heap : Allocs P Unit

/-- A call on the table, a write to memory, or a call of `malloc` or `free` by the caller. -/
inductive ItemCall (P : Type) where
  | add (data : P) (alloc : Bool)
  | find (data : P)
  | delete (data : P)
  | modify (data : P) (cb : P → Memory P → Memory P)
  | clean
  | write (mem : Memory P)
  | malloc (data : P)
  | free (data : P)

/-- Memory after a write that leaves the key bytes of the stored items alone. -/
def Shelf.write (s : Shelf P) (key : HashKey) (mem : Memory P) : Option (Shelf P) :=
  if ∀ p ∈ s.table.items, keyBytes mem key p = keyBytes s.mem key p then
    some { s with mem := mem }
  else none

section Runs

variable [DecidableEq P]

/-- `hasht_clean_table`, and the calls of `free` in it. -/
def Shelf.clean (s : Shelf P) : Option (Shelf P) :=
  let r := hashtCleanTable s.table []
  (s.heap.freeAll r.2.2).map fun heap => { s with table := r.2.1, heap := heap }

/-- One call. -/
def Shelf.call (key : HashKey) (s : Shelf P) : ItemCall P → Option (Shelf P)
  | .add data alloc => some { s with table := (hashtAddItem s.table s.mem key data alloc).2 }
  | .find _ => some s
  | .delete data => some { s with table := (hashtDeleteItem s.table s.mem key data).2 }
  | .modify data cb => s.write key (hashtModifyItem s.table s.mem key data cb s.mem).2
  | .clean => s.clean
  | .write mem => s.write key mem
  | .malloc data =>
    if s.heap.Live data then none else some { s with heap := s.heap.malloc data () }
  | .free data =>
    if s.heap.Live data ∧ data ∉ s.table.items then some { s with heap := s.heap.free data }
    else none

/-- The call sequences on a table made by `hasht_new`. -/
def itemRuns (P : Type) [DecidableEq P] (key : HashKey) : Machine (Shelf P) (ItemCall P) where
  init s := s.heap = .empty ∧ ∃ (func : Option (List UInt8 → UInt32)) (volume : ℤ),
    hashtNew P func volume = some s.table
  step := Shelf.call key

omit [DecidableEq P] in
theorem Shelf.write_wf {s s' : Shelf P} {mem : Memory P} (hw : s.table.Wf s.mem key)
    (h : s.write key mem = some s') : s'.table.Wf s'.mem key ∧ s'.heap = s.heap := by
  unfold Shelf.write at h
  split at h
  next hkeys =>
    obtain rfl := Option.some.inj h
    exact ⟨hw.remember hkeys, rfl⟩
  next => cases h

/-- Every call keeps the table well formed. -/
theorem Shelf.call_wf {s s' : Shelf P} {c : ItemCall P} (hw : s.table.Wf s.mem key)
    (h : s.call key c = some s') : s'.table.Wf s'.mem key := by
  cases c with
  | add data alloc =>
    obtain rfl := Option.some.inj h
    show (hashtAddItem s.table s.mem key data alloc).2.Wf s.mem key
    rcases hw.addItem data alloc with ⟨-, -, hwf, -⟩ | ⟨heq, -⟩
    · exact hwf
    · rw [heq]
      exact hw
  | find data =>
    obtain rfl := Option.some.inj h
    exact hw
  | delete data =>
    obtain rfl := Option.some.inj h
    show (hashtDeleteItem s.table s.mem key data).2.Wf s.mem key
    rcases hw.deleteItem data with ⟨_, -, -, hwf, -⟩ | ⟨-, heq⟩
    · exact hwf
    · rw [heq]
      exact hw
  | modify data cb => exact (Shelf.write_wf hw h).1
  | clean =>
    obtain ⟨heap, -, rfl⟩ := Option.map_eq_some_iff.mp h
    exact (hw.cleanTable []).1
  | write mem => exact (Shelf.write_wf hw h).1
  | malloc data =>
    obtain ⟨-, heq⟩ := Option.ite_none_left_eq_some.mp h
    obtain rfl := Option.some.inj heq
    exact hw
  | free data =>
    obtain ⟨-, heq⟩ := Option.ite_none_right_eq_some.mp h
    obtain rfl := Option.some.inj heq
    exact hw

/-- Every call keeps the allocations in order. -/
theorem Shelf.call_sound {s s' : Shelf P} {c : ItemCall P} (hw : s.table.Wf s.mem key)
    (hs : s.heap.Sound) (h : s.call key c = some s') : s'.heap.Sound := by
  cases c with
  | add | find | delete =>
    obtain rfl := Option.some.inj h
    exact hs
  | modify | write =>
    rw [(Shelf.write_wf hw h).2]
    exact hs
  | clean =>
    obtain ⟨heap, hfree, rfl⟩ := Option.map_eq_some_iff.mp h
    exact (hs.freeAll hfree).1
  | malloc data =>
    obtain ⟨hfresh, heq⟩ := Option.ite_none_left_eq_some.mp h
    obtain rfl := Option.some.inj heq
    exact hs.malloc hfresh
  | free data =>
    obtain ⟨⟨hlive, -⟩, heq⟩ := Option.ite_none_right_eq_some.mp h
    obtain rfl := Option.some.inj heq
    exact (hs.free hlive).1

theorem itemRuns_wf {s : Shelf P} (h : (itemRuns P key).Reach Machine.Always s) :
    s.table.Wf s.mem key := by
  refine h.invariant ?_ fun _ _ _ _ hI _ hc => Shelf.call_wf hI hc
  rintro s ⟨-, func, volume, hnew⟩
  exact (Hasht.wf_hashtNew hnew).1

theorem itemRuns_sound {s : Shelf P} (h : (itemRuns P key).Reach Machine.Always s) :
    s.heap.Sound := by
  refine h.invariant (I := fun s => s.heap.Sound) ?_ fun _ _ _ hreach hI _ hc =>
    Shelf.call_sound (itemRuns_wf hreach) hI hc
  rintro s ⟨hempty, -⟩
  rw [hempty]
  exact Allocs.sound_empty

/-- Cleaning is defined exactly when the items are allocations and no two of them are one; it
frees these, and nothing is left in the table. -/
theorem Shelf.clean_spec {s : Shelf P} (hw : s.table.Wf s.mem key) (hs : s.heap.Sound) :
    (s.clean.isSome ↔ s.table.items.Nodup ∧ ∀ p ∈ s.table.items, s.heap.Live p) ∧
      ∀ s', s.clean = some s' → s'.table.items = 0 ∧
        ∀ p, s'.heap.Live p ↔ s.heap.Live p ∧ p ∉ s.table.items := by
  have hfreed : (((hashtCleanTable s.table []).2.2 : List P) : Multiset P) = s.table.items :=
    (Hasht.cleanTable_freed s.table []).trans (zero_add _)
  constructor
  · unfold Shelf.clean
    rw [Option.isSome_map, hs.freeAll_isSome, ← hfreed]
    rfl
  · intro s' h
    obtain ⟨heap, hfree, rfl⟩ := Option.map_eq_some_iff.mp h
    refine ⟨(hw.cleanTable []).2, fun p => ?_⟩
    rw [← hfreed]
    exact (hs.freeAll hfree).2 p

/-- **The table is a multiset of items.** A fresh one is empty. After any sequence of
calls each bucket's count is its number of occupied slots, the table's count is their sum,
which is the number of items, and at most the volume. A search or a change succeeds exactly
when some item has the probe's key bytes; a deletion then removes one such item and
otherwise nothing. An addition fails and changes nothing when the table is full. Otherwise,
with the memory it asks for granted, it stores one item more exactly when its bucket has a free
slot or can grow, and else fails and changes nothing. Cleaning is defined exactly when the items
are distinct allocations, and then removes everything. -/
theorem items_exact {s : Shelf P} (h : (itemRuns P key).Reach Machine.Always s) :
    (∀ i < s.table.nrBuckets, (s.table.bucket i).nrNodes
      = ((s.table.bucket i).node.countP Option.isSome : ℕ)) ∧
    s.table.nrNodes = ∑ i ∈ Finset.range s.table.nrBuckets, (s.table.bucket i).nrNodes ∧
    s.table.nrNodes = s.table.items.card ∧ s.table.nrNodes ≤ s.table.volume ∧
    (∀ data : P,
      ((∃ p ∈ s.table.items, keyBytes s.mem key p = keyBytes s.mem key data ∧
          hashtFindItem s.table s.mem key data = some p) ∨
        ((∀ p ∈ s.table.items, keyBytes s.mem key p ≠ keyBytes s.mem key data) ∧
          hashtFindItem s.table s.mem key data = none)) ∧
      (∀ cb : P → Memory P → Memory P,
        (∃ p ∈ s.table.items, keyBytes s.mem key p = keyBytes s.mem key data ∧
          hashtModifyItem s.table s.mem key data cb s.mem = (0, cb p s.mem)) ∨
        ((∀ p ∈ s.table.items, keyBytes s.mem key p ≠ keyBytes s.mem key data) ∧
          hashtModifyItem s.table s.mem key data cb s.mem = (-1, s.mem))) ∧
      ((∃ p, keyBytes s.mem key p = keyBytes s.mem key data ∧
          (hashtDeleteItem s.table s.mem key data).1 = 0 ∧
          s.table.items = p ::ₘ (hashtDeleteItem s.table s.mem key data).2.items) ∨
        ((∀ p ∈ s.table.items, keyBytes s.mem key p ≠ keyBytes s.mem key data) ∧
          hashtDeleteItem s.table s.mem key data = (enoent, s.table))) ∧
      (s.table.nrNodes = s.table.volume →
        ∀ alloc, hashtAddItem s.table s.mem key data alloc = (enomem, s.table)) ∧
      (s.table.nrNodes ≠ s.table.volume →
        ((hashtAddItem s.table s.mem key data true).1 = 0 ∧
            (hashtAddItem s.table s.mem key data true).2.items = data ::ₘ s.table.items ↔
          Hasht.Fits (s.table.bucket (s.table.hash s.mem key data))) ∧
        (hashtAddItem s.table s.mem key data true = (enomem, s.table) ↔
          ¬ Hasht.Fits (s.table.bucket (s.table.hash s.mem key data))))) ∧
    (((itemRuns P key).step s .clean).isSome ↔
      s.table.items.Nodup ∧ ∀ p ∈ s.table.items, s.heap.Live p) ∧
    ∀ s', (itemRuns P key).step s .clean = some s' → s'.table.items = 0 ∧
      ∀ p, s'.heap.Live p ↔ s.heap.Live p ∧ p ∉ s.table.items := by
  have hw := itemRuns_wf h
  refine ⟨fun i hi => ?_, hw.counted.count_eq_sum, hw.count, hw.le_volume, fun data =>
    ⟨hw.findItem data, fun cb => hw.modifyItem data cb s.mem, ?_, fun hfull alloc => ?_,
      fun hroom => ?_⟩, Shelf.clean_spec hw (itemRuns_sound h)⟩
  · rw [hw.bucket_count i hi, ← Slots.length_entries]
    rfl
  · rcases hw.deleteItem data with ⟨p, hkey, hcode, -, hitems⟩ | hkeep
    · exact .inl ⟨p, hkey, hcode, hitems⟩
    · exact .inr hkeep
  · unfold hashtAddItem
    rw [if_pos hfull.ge]
  · have hlt := lt_of_le_of_ne hw.le_volume hroom
    by_cases hfits : Hasht.Fits (s.table.bucket (s.table.hash s.mem key data))
    · rcases hw.addItem data true with ⟨hcode, -, -, hitems⟩ | ⟨-, hno⟩
      · refine ⟨iff_of_true ⟨hcode, hitems⟩ hfits, iff_of_false (fun hno => ?_) fun h => h hfits⟩
        rw [hno] at hcode
        cases hcode
      · exact absurd hfits (hno hlt rfl)
    · have hno : hashtAddItem s.table s.mem key data true = (enomem, s.table) :=
        Hasht.addItem_of_not_fits hfits true
      rw [hno]
      exact ⟨iff_of_false (fun h => absurd h.1 nofun) hfits, iff_of_true rfl hfits⟩

end Runs

/-- A table for three items, all of one key. -/
def smallShelf : Shelf ℕ := ⟨(hashtNew ℕ none 3).get rfl, fun _ _ => 7, .empty⟩

theorem smallShelf_init : (itemRuns ℕ ⟨0, 1⟩).init smallShelf := ⟨rfl, none, 3, rfl⟩

/-- Two items of one key, one of them removed and freed: the other one is found, and cleaning
frees it. -/
theorem items_exact_sameKey :
    ∃ s s' : Shelf ℕ, (itemRuns ℕ ⟨0, 1⟩).Reach Machine.Always s ∧ s.table.items.card = 1 ∧
      (∃ p ∈ s.table.items, hashtFindItem s.table s.mem ⟨0, 1⟩ 3 = some p) ∧
      (itemRuns ℕ ⟨0, 1⟩).step s .clean = some s' ∧ ¬ s'.heap.Live 4 := by
  obtain ⟨s, hreach, hs⟩ := Machine.exec_reach smallShelf_init
    (show ((itemRuns ℕ ⟨0, 1⟩).exec Machine.Always smallShelf
      [.malloc 3, .malloc 4, .add 3 true, .add 4 true, .delete 9, .free 3]).map
      (fun s => decide (s.table.nrNodes = 1 ∧ hashtFindItem s.table s.mem ⟨0, 1⟩ 3 = some 4 ∧
        s.heap.Live 4)) = some true by decide +kernel)
  obtain ⟨hnr, hfind, hlive⟩ := of_decide_eq_true hs
  obtain ⟨-, -, hcard, -, hcalls, hclean, hcleaned⟩ := items_exact hreach
  have hone : s.table.items.card = 1 := by omega
  obtain ⟨⟨p, hp, -, heq⟩ | ⟨-, heq⟩, -⟩ := hcalls 3
  · obtain rfl : 4 = p := Option.some.inj (hfind.symm.trans heq)
    obtain ⟨q, hq⟩ := Multiset.card_eq_one.mp hone
    have honly : s.table.items = {4} := by
      rw [hq] at hp ⊢
      rw [Multiset.mem_singleton.mp hp]
    have hdefined := hclean.mpr (by
      rw [honly]
      refine ⟨Multiset.nodup_singleton 4, fun p hp => ?_⟩
      rw [Multiset.mem_singleton.mp hp]
      exact hlive)
    obtain ⟨s', hs'⟩ := Option.isSome_iff_exists.mp hdefined
    exact ⟨s, s', hreach, hone, ⟨4, hp, heq⟩, hs',
      fun hlive => (((hcleaned s' hs').2 4).mp hlive).2 hp⟩
  · rw [hfind] at heq
    cases heq

/-! ## A bucket that cannot grow -/

/-- The sizes a bucket takes one after the other. -/
def bucketSizes : ℕ → ℕ
  | 0 => bucketDefaultSize
  | k + 1 => bucketSizes k + bucketGrowth (bucketSizes k)

theorem bucketSizes_pos (k : ℕ) : 0 < bucketSizes k := by
  induction k with
  | zero => decide
  | succ k ih => exact Nat.add_pos_left ih _

/-- The largest volume. -/
def intMax : ℤ := 2 ^ 31 - 1

/-- A reachable shelf of volume `intMax` whose first bucket, that of every key, holds `l` and has
`n` free slots behind it. -/
structure Filling (s : Shelf ℕ) (l : List (HashNode ℕ)) (n : ℕ) : Prop where
  reach : (itemRuns ℕ ⟨0, 1⟩).Reach Machine.Always s
  func : s.table.hashFunc = fun _ => 0
  volume : s.table.volume = intMax
  node : (s.table.bucket 0).node = l.map some ++ List.replicate n none
  nrNodes : s.table.nrNodes = l.length

namespace Filling

variable {s : Shelf ℕ} {l : List (HashNode ℕ)} {n : ℕ}

theorem hash_eq (hf : Filling s l n) (data : ℕ) : s.table.hash s.mem ⟨0, 1⟩ data = 0 := by
  unfold Hasht.hash
  rw [hf.func]
  exact Nat.zero_mod _

/-- An addition that finds or makes `n + 1` free slots fills the first of them. -/
theorem add (hf : Filling s l n) {m : ℕ} {b : Bucket ℕ} (data : ℕ)
    (hroom : (l.length : ℤ) < intMax)
    (hpos : bucketGetFreePos (s.table.bucket 0) true = some (l.length, b))
    (hb : b.node = l.map some ++ List.replicate (m + 1) none) :
    ∃ s' nd, Filling s' (l ++ [nd]) m := by
  have hadd : hashtAddItem s.table s.mem ⟨0, 1⟩ data true =
      (0, { s.table.setBucket 0
              { node := b.node.set l.length (some ⟨0, ⟨0, 1⟩, data⟩)
                nrNodes := b.nrNodes + 1 } with
            nrNodes := s.table.nrNodes + 1 }) := by
    unfold hashtAddItem
    rw [if_neg (by rw [hf.nrNodes, hf.volume]; exact not_le.mpr hroom)]
    dsimp only
    rw [hf.hash_eq, hpos]
  refine ⟨{ s with table := (hashtAddItem s.table s.mem ⟨0, 1⟩ data true).2 }, ⟨0, ⟨0, 1⟩, data⟩,
    hf.reach.next (a := .add data true) trivial rfl, ?_, ?_, ?_, ?_⟩ <;> rw [hadd]
  · exact hf.func
  · exact hf.volume
  · show (Function.update s.table.bucket 0 _ 0).node = _
    rw [Function.update_self, hb]
    exact Slots.set_dense l m _
  · show s.table.nrNodes + 1 = _
    rw [hf.nrNodes, List.length_append]
    rfl

/-- While there are free slots, the next one is filled. -/
theorem fillSlot (hf : Filling s l (n + 1)) (hroom : (l.length : ℤ) < intMax) :
    ∃ s' nd, Filling s' (l ++ [nd]) n := by
  refine hf.add 0 hroom ?_ hf.node
  unfold bucketGetFreePos
  rw [hf.node, Slots.freeSlot_dense, if_neg (by simp), if_neg (Nat.succ_ne_zero n)]

/-- A full bucket that can grow does so. -/
theorem grow (hf : Filling s l 0) (hne : l ≠ []) (hroom : (l.length : ℤ) < intMax)
    (hfits : l.length + bucketGrowth l.length < 2 ^ 31) :
    ∃ s' nd, Filling s' (l ++ [nd]) (l.length / 4) := by
  have hnode : (s.table.bucket 0).node = l.map some := hf.node.trans (List.append_nil _)
  refine hf.add (b := { s.table.bucket 0 with
    node := l.map some ++ bucketNewBucket (bucketGrowth l.length) }) 0 hroom ?_ rfl
  have hfull : Slots.freeSlot (l.map some) = none := by
    have hdense := Slots.freeSlot_dense l 0
    rwa [List.replicate_zero, List.append_nil, if_pos rfl] at hdense
  unfold bucketGetFreePos
  rw [hnode, if_neg (by simpa using hne), hfull, List.length_map]
  exact if_pos ⟨rfl, hfits⟩

/-- All free slots are filled. -/
theorem fill (hf : Filling s l n) (hroom : (l.length + n : ℤ) ≤ intMax) :
    ∃ s' l', Filling s' l' 0 ∧ l'.length = l.length + n := by
  induction n generalizing s l with
  | zero => exact ⟨s, l, hf, rfl⟩
  | succ n ih =>
    push_cast at hroom
    obtain ⟨s', nd, hf'⟩ := hf.fillSlot (by omega)
    have hlen : (l ++ [nd]).length = l.length + 1 := List.length_append
    obtain ⟨s'', l'', hf'', hlen'⟩ := ih hf' (by rw [hlen]; push_cast; omega)
    exact ⟨s'', l'', hf'', by omega⟩

end Filling

/-- A table without items, of the largest volume, whose hash function is constant. -/
def emptyShelf : Shelf ℕ :=
  ⟨(hashtNew ℕ (some fun _ => 0) intMax).get rfl, fun _ _ => 0, .empty⟩

theorem emptyShelf_init : (itemRuns ℕ ⟨0, 1⟩).init emptyShelf :=
  ⟨rfl, some fun _ => 0, intMax, rfl⟩

theorem emptyShelf_filling : Filling emptyShelf [] 0 where
  reach := Machine.Reach.start emptyShelf_init
  func := rfl
  volume := rfl
  node := rfl
  nrNodes := rfl

/-- The bucket is full at each of its sizes that is an `int`, in turn. -/
theorem filled (k : ℕ) (hk : ∀ j ≤ k, bucketSizes j < 2 ^ 31) :
    ∃ s l, Filling s l 0 ∧ l.length = bucketSizes k := by
  induction k with
  | zero =>
    -- the first item gets the bucket its slots
    obtain ⟨s, nd, hf⟩ := emptyShelf_filling.add (m := 1023)
      (b := ⟨bucketNewBucket bucketDefaultSize, 0⟩) 0 (by decide) rfl rfl
    have hroom : (1 + 1023 : ℤ) ≤ intMax := by decide
    obtain ⟨s', l', hf', hlen⟩ := hf.fill hroom
    exact ⟨s', l', hf', hlen⟩
  | succ k ih =>
    obtain ⟨s, l, hf, hlen⟩ := ih fun j hj => hk j (Nat.le_succ_of_le hj)
    have hsize : l.length + bucketGrowth l.length < 2 ^ 31 := hlen ▸ hk (k + 1) (Nat.le_refl _)
    have hgrowth : bucketGrowth l.length = l.length / 4 + 1 := rfl
    have hmax : intMax = 2 ^ 31 - 1 := rfl
    have hne : l ≠ [] := by
      rintro rfl
      exact absurd hlen (Nat.ne_of_lt (bucketSizes_pos k))
    obtain ⟨s', nd, hf'⟩ := hf.grow hne (by omega) hsize
    have hlen' : (l ++ [nd]).length = l.length + 1 := List.length_append
    obtain ⟨s'', l'', hf'', hend⟩ := hf'.fill (by rw [hlen']; push_cast; omega)
    refine ⟨s'', l'', hf'', ?_⟩
    show l''.length = bucketSizes k + bucketGrowth (bucketSizes k)
    rw [← hlen]
    omega

/-- Without the conditions an addition to a table with room is refused, the memory it asks for
granted, and cleaning frees an item twice. -/
theorem items_not_exact :
    (¬ ∀ s : Shelf ℕ, (itemRuns ℕ ⟨0, 1⟩).Reach Machine.Always s →
      s.table.nrNodes ≠ s.table.volume → ∀ data,
        (hashtAddItem s.table s.mem ⟨0, 1⟩ data true).1 = 0) ∧
    ¬ ∀ s : Shelf ℕ, (itemRuns ℕ ⟨0, 1⟩).Reach Machine.Always s →
      ∃ s', (itemRuns ℕ ⟨0, 1⟩).step s .clean = some s' := by
  constructor
  · intro hall
    obtain ⟨s, l, hf, hlen⟩ := filled 65 (by decide +kernel)
    have hsize : bucketSizes 65 + bucketGrowth (bucketSizes 65) ≥ 2 ^ 31 ∧
        (bucketSizes 65 : ℤ) ≠ intMax := by decide +kernel
    have hnode : (s.table.bucket 0).node = l.map some := hf.node.trans (List.append_nil _)
    have hnofit : ¬ Hasht.Fits (s.table.bucket (s.table.hash s.mem ⟨0, 1⟩ 0)) := by
      intro hfits
      rw [hf.hash_eq] at hfits
      unfold Hasht.Fits at hfits
      rw [hnode, List.length_map, hlen] at hfits
      have hfull := Slots.freeSlot_dense l 0
      rw [List.replicate_zero, List.append_nil, if_pos rfl] at hfull
      exact absurd (hfits hfull) (Nat.not_lt.mpr hsize.1)
    have hno : hashtAddItem s.table s.mem ⟨0, 1⟩ 0 true = (enomem, s.table) :=
      Hasht.addItem_of_not_fits hnofit true
    have hcode := hall s hf.reach (by rw [hf.nrNodes, hf.volume, hlen]; exact hsize.2) 0
    rw [hno] at hcode
    cases hcode
  · intro hall
    obtain ⟨s, hreach, hs⟩ := Machine.exec_reach smallShelf_init
      (show ((itemRuns ℕ ⟨0, 1⟩).exec Machine.Always smallShelf
        [.malloc 3, .add 3 true, .add 3 true]).map (fun s => ((itemRuns ℕ ⟨0, 1⟩).step s
          .clean).isNone) = some true by decide +kernel)
    obtain ⟨s', hclean⟩ := hall s hreach
    rw [hclean] at hs
    cases hs

end Dungeon
