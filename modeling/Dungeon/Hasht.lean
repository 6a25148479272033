import Mathlib.Algebra.BigOperators.Group.Finset.Basic
import Mathlib.Algebra.BigOperators.Ring.Finset
import Mathlib.Data.Multiset.Basic
import Dungeon.Lib.Slots
import Dungeon.Lib.Tally

/-!
# The hash table (`ds_hasht.c`)

A table of buckets of slots that saves pointers. A *key descriptor* says where in an item
its key lies; the table looks at these bytes of the stored item and of the probe each time.

- `HashKey`, `HashNode`, `Bucket`, `Hasht`: the structures of the source, without the
  locks and the statistics, which no operation reads.
- `hashtAddItem`, `hashtFindItem`, `hashtFetchItem`, `hashtDeleteItem`, `hashtModifyItem`,
  `hashtCleanTable`: the operations. Memory is a parameter, since the keys are read from it.
- `Hasht.items`: what the table holds, as a multiset.
- `Hasht.Counted`: both levels of counters agree with the occupied slots, whatever the keys.
- `Hasht.Wf`: under one key descriptor, every item lies in the bucket its key hashes to, and
  the table is `Counted`.
- `addItem_cases`, `deleteItem_cases`: all an addition and a removal can do to the slots. The
  lemmas after them say what each operation does to the items and that it keeps the two
  invariants.
-/

namespace Dungeon

variable {P : Type}

/-- What the items' memory holds: the byte at an offset from a pointer. -/
abbrev Memory (P : Type) := P → ℤ → UInt8

/-- `len` bytes from `offset` on. -/
def bytesAt (mem : Memory P) (p : P) (offset : ℤ) (len : ℕ) : List UInt8 :=
  (List.range len).map fun i : ℕ => mem p (offset + (i : ℤ))

/-- `hashkey_t`. -/
structure HashKey where
  offset : ℤ
  len : ℕ

/-- `struct node_st` with a value; a node whose value is `NULL` is a free slot. -/
structure HashNode (P : Type) where
  keyval : ℕ
  key : HashKey
  value : P

/-- `struct bucket_st`. The array `node` has `bucket_size` slots and is `NULL` while it has
none. -/
structure Bucket (P : Type) where
  node : List (Option (HashNode P))
  nrNodes : ℤ

/-- `struct hasht_st`. -/
structure Hasht (P : Type) where
  hashFunc : List UInt8 → UInt32
  volume : ℤ
  nrNodes : ℤ
  nrBuckets : ℕ
  bucket : ℕ → Bucket P

/-- `BUCKET_DEFAULT_SIZE`. -/
def bucketDefaultSize : ℕ := 1024

/-- `ENOENT`. -/
def enoent : ℤ := 2

/-- `ENOMEM`. -/
def enomem : ℤ := 12

/-- `bucket_new_bucket`: free slots. -/
def bucketNewBucket (size : ℕ) : List (Option (HashNode P)) := List.replicate size none

/-- By how much a full bucket grows. -/
def bucketGrowth (size : ℕ) : ℕ := size / 4 + 1

/-- `bucket_get_free_pos`: the first free slot, in a bucket that is made or grown when
there is none; `none` for `-1`. `alloc` is the outcome of the allocation. A grown size
that is no `int` any more turns into a request for more memory than there is. -/
def bucketGetFreePos (b : Bucket P) (alloc : Bool) : Option (ℕ × Bucket P) :=
  if b.node = [] then
    if alloc then some (0, { b with node := bucketNewBucket bucketDefaultSize }) else none
  else
    match Slots.freeSlot b.node with
    | some i => some (i, b)
    | none =>
      if alloc ∧ b.node.length + bucketGrowth b.node.length < 2 ^ 31 then
        some (b.node.length,
          { b with node := b.node ++ bucketNewBucket (bucketGrowth b.node.length) })
      else none

/-- Rotation of a word to the left. -/
def rotl (x n : UInt32) : UInt32 := (x <<< n) ||| (x >>> (32 - n))

/-- A word of four bytes, the first one lowest. -/
def word (b₀ b₁ b₂ b₃ : UInt8) : UInt32 :=
  b₀.toUInt32 + (b₁.toUInt32 <<< 8) + (b₂.toUInt32 <<< 16) + (b₃.toUInt32 <<< 24)

/-- The loop of `default_hash_func` over the whole words of the key. -/
def hashWords : List UInt8 → UInt32 → UInt32
  | b₀ :: b₁ :: b₂ :: b₃ :: data, hash =>
    let k := rotl (word b₀ b₁ b₂ b₃ * 0xcc9e2d51) 15 * 0x1b873593
    hashWords data (rotl (hash ^^^ k) 13 * 5 + 0xe6546b64)
  | _, hash => hash

/-- The bytes `default_hash_func` takes for the rest of the key: those at its start. -/
def hashRest (data : List UInt8) : UInt32 :=
  match data.length % 4, data with
  | 3, b₀ :: b₁ :: b₂ :: _ => word b₀ b₁ b₂ 0
  | 2, b₀ :: b₁ :: _ => word b₀ b₁ 0 0
  | 1, b₀ :: _ => word b₀ 0 0 0
  | _, _ => 0

/-- `default_hash_func`. -/
def defaultHashFunc (data : List UInt8) : UInt32 :=
  let hash := hashWords data 20000033 ^^^ rotl (hashRest data) 16 ^^^ UInt32.ofNat data.length
  let hash := (hash ^^^ (hash >>> 16)) * 0x85ebca6b
  let hash := (hash ^^^ (hash >>> 13)) * 0xc2b2ae35
  hash ^^^ (hash >>> 16)

/-- `hasht_new`; `none` for `NULL`, as a function and as the table. -/
def hashtNew (P : Type) (func : Option (List UInt8 → UInt32)) (volume : ℤ) :
    Option (Hasht P) :=
  if volume ≤ 0 then none
  else
    let nrBuckets := volume.toNat / 8
    some
      { hashFunc := func.getD defaultHashFunc
        volume := volume
        nrNodes := 0
        nrBuckets := if nrBuckets = 0 then 1 else nrBuckets
        bucket := fun _ => { node := [], nrNodes := 0 } }

/-- The key bytes of an item, or of a probe. -/
def keyBytes (mem : Memory P) (key : HashKey) (data : P) : List UInt8 :=
  bytesAt mem data key.offset key.len

namespace Hasht

/-- The bucket the key of `data` hashes to. -/
def hash (h : Hasht P) (mem : Memory P) (key : HashKey) (data : P) : ℕ :=
  (h.hashFunc (keyBytes mem key data)).toNat % h.nrBuckets

/-- One bucket changes. -/
def setBucket (h : Hasht P) (i : ℕ) (b : Bucket P) : Hasht P :=
  { h with bucket := Function.update h.bucket i b }

end Hasht

/-- The comparison in `hasht_find_node`: as many bytes as the shorter key has. -/
def nodeMatches (mem : Memory P) (key : HashKey) (data : P) (nd : HashNode P) : Bool :=
  bytesAt mem nd.value nd.key.offset (min key.len nd.key.len)
    = bytesAt mem data key.offset (min key.len nd.key.len)

/-- `hasht_find_node`: the slot in the bucket of the probe, and its node. -/
def hashtFindNode (h : Hasht P) (mem : Memory P) (key : HashKey) (data : P) :
    Option (ℕ × HashNode P) :=
  Slots.findSlot (nodeMatches mem key data) (h.bucket (h.hash mem key data)).node

/-- `hasht_add_item`: the return code and the table. -/
def hashtAddItem (h : Hasht P) (mem : Memory P) (key : HashKey) (data : P) (alloc : Bool) :
    ℤ × Hasht P :=
  if h.nrNodes ≥ h.volume then (enomem, h)
  else
    let hash := h.hash mem key data
    match bucketGetFreePos (h.bucket hash) alloc with
    | none => (enomem, h)
    | some (pos, b) =>
      (0, { h.setBucket hash
              { node := b.node.set pos (some { keyval := hash, key := key, value := data })
                nrNodes := b.nrNodes + 1 } with
            nrNodes := h.nrNodes + 1 })

/-- `hasht_find_item`. -/
def hashtFindItem (h : Hasht P) (mem : Memory P) (key : HashKey) (data : P) : Option P :=
  (hashtFindNode h mem key data).map fun r => r.2.value

/-- `hasht_fetch_item`: the slot is cleared, and its value read after that. -/
def hashtFetchItem (h : Hasht P) (mem : Memory P) (key : HashKey) (data : P) :
    Option P × Hasht P :=
  match hashtFindNode h mem key data with
  | none => (none, h)
  | some (pos, _) =>
    let hash := h.hash mem key data
    let node := (h.bucket hash).node.set pos none
    (node[pos]?.join.map HashNode.value,
      { h.setBucket hash { node := node, nrNodes := (h.bucket hash).nrNodes - 1 } with
        nrNodes := h.nrNodes - 1 })

/-- `hasht_delete_item`. -/
def hashtDeleteItem (h : Hasht P) (mem : Memory P) (key : HashKey) (data : P) :
    ℤ × Hasht P :=
  match hashtFindNode h mem key data with
  | none => (enoent, h)
  | some (pos, _) =>
    let hash := h.hash mem key data
    (0, { h.setBucket hash
            { node := (h.bucket hash).node.set pos none
              nrNodes := (h.bucket hash).nrNodes - 1 } with
          nrNodes := h.nrNodes - 1 })

/-- `hasht_modify_item`: the return code and what the callback `modify` makes of `args`,
which stands for everything it may change. -/
def hashtModifyItem {σ : Type} (h : Hasht P) (mem : Memory P) (key : HashKey) (data : P)
    (modify : P → σ → σ) (args : σ) : ℤ × σ :=
  match hashtFindNode h mem key data with
  | none => (-1, args)
  | some (_, nd) => (0, modify nd.value args)

/-- One turn of the loop of `hasht_clean_table`, on the table and what `free` was called with so
far: the values of a bucket are freed, in the order of its slots. -/
def cleanBucket (r : Hasht P × List P) (i : ℕ) : Hasht P × List P :=
  ({ r.1.setBucket i
        { node := List.replicate (r.1.bucket i).node.length none
          nrNodes := 0 } with
      nrNodes := r.1.nrNodes - (Slots.entries (r.1.bucket i).node).length },
    r.2 ++ (Slots.entries (r.1.bucket i).node).map HashNode.value)

/-- `hasht_clean_table`: the return code, the table, and what `free` was called with, after the
calls `freed` of before. -/
def hashtCleanTable (h : Hasht P) (freed : List P) : ℤ × Hasht P × List P :=
  (0, (List.range h.nrBuckets).foldl cleanBucket (h, freed))

/-! ## What a table holds -/

namespace Hasht

/-- The nodes in use in a bucket, in the order of its slots. -/
def nodes (h : Hasht P) (i : ℕ) : List (HashNode P) := Slots.entries (h.bucket i).node

/-- The items of one bucket. -/
def bucketItems (b : Bucket P) : Multiset P := ((Slots.entries b.node).map HashNode.value : List P)

/-- The items in the table, with multiplicities. -/
def items (h : Hasht P) : Multiset P := ∑ i ∈ Finset.range h.nrBuckets, bucketItems (h.bucket i)

/-- The counters count the slots in use, which are no more than the volume. -/
structure Counted (h : Hasht P) : Prop where
  nrBuckets_pos : 0 < h.nrBuckets
  bucket_count : ∀ i < h.nrBuckets, (h.bucket i).nrNodes = (h.nodes i).length
  count : h.nrNodes = h.items.card
  le_volume : h.nrNodes ≤ h.volume

/-- Every item lies in the bucket of its key, and the counters count the slots in use. -/
structure Wf (mem : Memory P) (key : HashKey) (h : Hasht P) : Prop where
  nrBuckets_pos : 0 < h.nrBuckets
  bucket_count : ∀ i < h.nrBuckets, (h.bucket i).nrNodes = (h.nodes i).length
  count : h.nrNodes = h.items.card
  le_volume : h.nrNodes ≤ h.volume
  placed : ∀ i < h.nrBuckets, ∀ nd ∈ h.nodes i, nd.key = key ∧ h.hash mem key nd.value = i

variable {h h' : Hasht P} {mem mem' : Memory P} {key : HashKey} {data : P}

theorem Wf.counted (hw : h.Wf mem key) : h.Counted :=
  ⟨hw.nrBuckets_pos, hw.bucket_count, hw.count, hw.le_volume⟩

theorem Counted.wf (hc : h.Counted)
    (hplaced : ∀ i < h.nrBuckets, ∀ nd ∈ h.nodes i, nd.key = key ∧ h.hash mem key nd.value = i) :
    h.Wf mem key :=
  ⟨hc.nrBuckets_pos, hc.bucket_count, hc.count, hc.le_volume, hplaced⟩

theorem mem_items {p : P} :
    p ∈ h.items ↔ ∃ i < h.nrBuckets, ∃ nd ∈ h.nodes i, nd.value = p := by
  unfold items bucketItems
  rw [Multiset.mem_sum]
  simp only [Finset.mem_range, Multiset.mem_coe, List.mem_map]
  rfl

/-- A fresh table holds nothing. -/
theorem wf_hashtNew {func : Option (List UInt8 → UInt32)} {volume : ℤ}
    (hnew : hashtNew P func volume = some h) : h.Wf mem key ∧ h.items = 0 := by
  unfold hashtNew at hnew
  split at hnew
  next => cases hnew
  next hvolume =>
    obtain rfl := Option.some.inj hnew
    have hitems : Hasht.items (P := P)
        { hashFunc := func.getD defaultHashFunc, volume := volume, nrNodes := 0,
          nrBuckets := if volume.toNat / 8 = 0 then 1 else volume.toNat / 8,
          bucket := fun _ => { node := [], nrNodes := 0 } } = 0 :=
      Finset.sum_const_zero
    refine ⟨⟨?_, fun _ _ => rfl, ?_, ?_, fun _ _ => nofun⟩, hitems⟩
    · dsimp only
      split <;> omega
    · rw [hitems, Multiset.card_zero]
      rfl
    · show 0 ≤ volume
      omega

/-- The keys are read from memory, so only the key bytes of the items matter. -/
theorem Wf.remember (hw : h.Wf mem key)
    (hkeys : ∀ p ∈ h.items, keyBytes mem' key p = keyBytes mem key p) : h.Wf mem' key where
  nrBuckets_pos := hw.nrBuckets_pos
  bucket_count := hw.bucket_count
  count := hw.count
  le_volume := hw.le_volume
  placed := by
    intro i hi nd hnd
    obtain ⟨hkey, hhash⟩ := hw.placed i hi nd hnd
    refine ⟨hkey, ?_⟩
    unfold hash
    rw [hkeys nd.value (mem_items.mpr ⟨i, hi, nd, hnd, rfl⟩)]
    exact hhash

theorem hash_lt (hw : h.Wf mem key) (data : P) : h.hash mem key data < h.nrBuckets :=
  Nat.mod_lt _ hw.nrBuckets_pos

theorem Counted.hash_lt (hc : h.Counted) (mem : Memory P) (key : HashKey) (data : P) :
    h.hash mem key data < h.nrBuckets :=
  Nat.mod_lt _ hc.nrBuckets_pos

/-- What the table holds after one bucket changed. -/
theorem items_setBucket {i : ℕ} (hi : i < h.nrBuckets) (b : Bucket P) :
    (h.setBucket i b).items + bucketItems (h.bucket i) = h.items + bucketItems b :=
  Tally.sum_update (Finset.mem_range.mpr hi) bucketItems h.bucket b

/-- One bucket changed, and the table's count with it. -/
theorem Counted.setBucket (hc : h.Counted) {i : ℕ} {b : Bucket P} {n : ℤ}
    (hb : b.nrNodes = (Slots.entries b.node).length)
    (hn : n = (h.setBucket i b).items.card) (hle : n ≤ h.volume) :
    Counted { h.setBucket i b with nrNodes := n } := by
  refine ⟨hc.nrBuckets_pos, fun j hj => ?_, hn, hle⟩
  show (Function.update h.bucket i b j).nrNodes
    = (Slots.entries (Function.update h.bucket i b j).node).length
  by_cases hji : j = i
  · rw [hji, Function.update_self]
    exact hb
  · rw [Function.update_of_ne hji]
    exact hc.bucket_count j hj

/-- The bucket that changed holds nodes in their place, as the others do. -/
theorem Wf.placed_setBucket (hw : h.Wf mem key) {i : ℕ} {b : Bucket P} {n : ℤ}
    (hplaced : ∀ nd ∈ Slots.entries b.node, nd.key = key ∧ h.hash mem key nd.value = i)
    {j : ℕ} (hj : j < h.nrBuckets) {nd : HashNode P}
    (hnd : nd ∈ nodes { h.setBucket i b with nrNodes := n } j) :
    nd.key = key ∧ h.hash mem key nd.value = j := by
  have hnd : nd ∈ Slots.entries (Function.update h.bucket i b j).node := hnd
  by_cases hji : j = i
  · rw [hji, Function.update_self] at hnd
    rw [hji]
    exact hplaced nd hnd
  · rw [Function.update_of_ne hji] at hnd
    exact hw.placed j hj nd hnd

theorem bucketItems_card (b : Bucket P) :
    (bucketItems b).card = (Slots.entries b.node).length := by
  unfold bucketItems
  rw [Multiset.coe_card, List.length_map]

/-- The table's count is the sum of the buckets' counts. -/
theorem Counted.count_eq_sum (hc : h.Counted) :
    h.nrNodes = ∑ i ∈ Finset.range h.nrBuckets, (h.bucket i).nrNodes := by
  rw [hc.count, items, Multiset.card_sum, Nat.cast_sum]
  refine Finset.sum_congr rfl fun i hi => ?_
  rw [bucketItems_card, hc.bucket_count i (Finset.mem_range.mp hi)]
  rfl

/-! ## Finding -/

/-- Keys of one length are compared as a whole. -/
theorem nodeMatches_iff_of_len {nd : HashNode P} (hlen : nd.key.len = key.len) :
    nodeMatches mem key data nd = true ↔
      keyBytes mem nd.key nd.value = keyBytes mem key data := by
  unfold nodeMatches keyBytes
  rw [decide_eq_true_iff, hlen, Nat.min_self]

/-- Under one key descriptor the comparison is equality of the key bytes. -/
theorem nodeMatches_iff {nd : HashNode P} (hkey : nd.key = key) :
    nodeMatches mem key data nd = true ↔ keyBytes mem key nd.value = keyBytes mem key data := by
  rw [nodeMatches_iff_of_len (congrArg HashKey.len hkey), hkey]

/-- Equal keys hash to the same bucket. -/
theorem hash_congr {p : P} (hp : keyBytes mem key p = keyBytes mem key data) :
    h.hash mem key p = h.hash mem key data := by
  unfold hash
  rw [hp]

/-- A search finds an item with the probe's key, in the bucket of the probe. -/
theorem Wf.findNode_some (hw : h.Wf mem key) {pos : ℕ} {nd : HashNode P}
    (hf : hashtFindNode h mem key data = some (pos, nd)) :
    (h.bucket (h.hash mem key data)).node[pos]? = some (some nd) ∧
      nd.value ∈ h.items ∧ keyBytes mem key nd.value = keyBytes mem key data := by
  obtain ⟨hslot, hmatch⟩ := Slots.findSlot_eq_some hf
  have hnd : nd ∈ h.nodes (h.hash mem key data) :=
    Slots.mem_entries.mpr (List.mem_of_getElem? hslot)
  have hlt := hash_lt hw data
  obtain ⟨hkey, -⟩ := hw.placed _ hlt nd hnd
  exact ⟨hslot, mem_items.mpr ⟨_, hlt, nd, hnd, rfl⟩, (nodeMatches_iff hkey).mp hmatch⟩

/-- A search finds nothing exactly when no item has the probe's key. -/
theorem Wf.findNode_none (hw : h.Wf mem key) :
    hashtFindNode h mem key data = none ↔
      ∀ p ∈ h.items, keyBytes mem key p ≠ keyBytes mem key data := by
  have hlt := hash_lt hw data
  unfold hashtFindNode
  rw [Slots.findSlot_eq_none]
  constructor
  · intro hnone p hp heq
    -- the item can only be in the bucket that was searched
    obtain ⟨i, hi, nd, hnd, rfl⟩ := mem_items.mp hp
    obtain ⟨hkey, hhash⟩ := hw.placed i hi nd hnd
    rw [hash_congr heq] at hhash
    subst hhash
    have hmatch := hnone nd hnd
    rw [(nodeMatches_iff hkey).mpr heq] at hmatch
    cases hmatch
  · intro hnone nd hnd
    obtain ⟨hkey, -⟩ := hw.placed _ hlt nd hnd
    rw [← Bool.not_eq_true, nodeMatches_iff hkey]
    exact hnone nd.value (mem_items.mpr ⟨_, hlt, nd, hnd, rfl⟩)

/-! ## Adding -/

/-- A full bucket can grow within an `int`. -/
def Fits (b : Bucket P) : Prop :=
  Slots.freeSlot b.node = none → b.node.length + bucketGrowth b.node.length < 2 ^ 31

/-- The position found is free, and a bucket that was made or grown for it holds the same
nodes. -/
theorem getFreePos_some {b b' : Bucket P} {alloc : Bool} {pos : ℕ}
    (hpos : bucketGetFreePos b alloc = some (pos, b')) :
    b'.node[pos]? = some none ∧ Slots.entries b'.node = Slots.entries b.node ∧
      b'.nrNodes = b.nrNodes := by
  unfold bucketGetFreePos at hpos
  split at hpos
  next hempty =>
    split at hpos
    next =>
      obtain ⟨rfl, rfl⟩ := Prod.mk.inj (Option.some.inj hpos)
      refine ⟨rfl, ?_, rfl⟩
      rw [hempty]
      exact Slots.entries_replicate _
    next => cases hpos
  next =>
    split at hpos
    next i hfree =>
      obtain ⟨rfl, rfl⟩ := Prod.mk.inj (Option.some.inj hpos)
      exact ⟨Slots.freeSlot_eq_some hfree, rfl, rfl⟩
    next =>
      split at hpos
      next =>
        obtain ⟨rfl, rfl⟩ := Prod.mk.inj (Option.some.inj hpos)
        refine ⟨?_, Slots.entries_append_replicate _ _, rfl⟩
        show (b.node ++ List.replicate _ none)[b.node.length]? = some none
        rw [List.getElem?_append_right (Nat.le_refl _), Nat.sub_self]
        exact List.getElem?_replicate_of_lt (Nat.succ_pos _)
      next => cases hpos

/-- There is a free position when the allocation is granted. -/
theorem getFreePos_isSome {b : Bucket P} (hfits : Fits b) :
    ∃ pos b', bucketGetFreePos b true = some (pos, b') := by
  unfold bucketGetFreePos
  split
  next => exact ⟨_, _, rfl⟩
  next =>
    split
    next => exact ⟨_, _, rfl⟩
    next hfull => exact ⟨_, _, if_pos ⟨rfl, hfits hfull⟩⟩

/-- There is none in a full bucket that cannot grow. -/
theorem getFreePos_eq_none {b : Bucket P} (hfits : ¬ Fits b) (alloc : Bool) :
    bucketGetFreePos b alloc = none := by
  obtain ⟨hfull, hbig⟩ := Classical.not_imp.mp hfits
  unfold bucketGetFreePos
  rw [if_neg, hfull]
  · exact if_neg fun h => hbig h.2
  · intro hempty
    rw [hempty] at hbig
    exact hbig (by simp [bucketGrowth])

/-- All an addition can do: its node joins the bucket of its key, or nothing changes. -/
theorem addItem_cases (h : Hasht P) (mem : Memory P) (key : HashKey) (data : P) (alloc : Bool) :
    (∃ b : Bucket P, hashtAddItem h mem key data alloc
        = (0, { h.setBucket (h.hash mem key data) b with nrNodes := h.nrNodes + 1 }) ∧
      h.nrNodes < h.volume ∧
      (Slots.entries b.node).Perm
        (⟨h.hash mem key data, key, data⟩ :: h.nodes (h.hash mem key data)) ∧
      b.nrNodes = (h.bucket (h.hash mem key data)).nrNodes + 1) ∨
    hashtAddItem h mem key data alloc = (enomem, h) ∧
      (h.nrNodes < h.volume → alloc = true → ¬ Fits (h.bucket (h.hash mem key data))) := by
  unfold hashtAddItem
  split
  next hfull => exact .inr ⟨rfl, fun hroom => absurd hfull (not_le.mpr hroom)⟩
  next hroom =>
    dsimp only
    split
    next hnone =>
      refine .inr ⟨rfl, ?_⟩
      rintro - rfl hfits
      obtain ⟨_, _, hpos⟩ := getFreePos_isSome hfits
      rw [hnone] at hpos
      cases hpos
    next pos b hpos =>
      obtain ⟨hfree, hentries, hnr⟩ := getFreePos_some hpos
      refine .inl ⟨_, rfl, lt_of_not_ge hroom, ?_, ?_⟩
      · have hfill := Slots.entries_fill hfree
          (⟨h.hash mem key data, key, data⟩ : HashNode P)
        rw [hentries] at hfill
        exact hfill
      · show b.nrNodes + 1 = _
        rw [hnr]

/-- An addition to a full bucket that cannot grow is refused. -/
theorem addItem_of_not_fits (hfits : ¬ Fits (h.bucket (h.hash mem key data))) (alloc : Bool) :
    hashtAddItem h mem key data alloc = (enomem, h) := by
  unfold hashtAddItem
  split
  next => rfl
  next =>
    dsimp only
    rw [getFreePos_eq_none hfits]

/-- What a bucket with one node more does to the table. -/
theorem Counted.addNode (hc : h.Counted) {i : ℕ} (hi : i < h.nrBuckets) {b : Bucket P}
    {nd : HashNode P} (hroom : h.nrNodes < h.volume)
    (hperm : (Slots.entries b.node).Perm (nd :: h.nodes i))
    (hnr : b.nrNodes = (h.bucket i).nrNodes + 1) :
    Counted { h.setBucket i b with nrNodes := h.nrNodes + 1 } ∧
      (h.setBucket i b).items = nd.value ::ₘ h.items := by
  have hitems : (h.setBucket i b).items = nd.value ::ₘ h.items := by
    have hsum := items_setBucket hi b
    have hb : bucketItems b = nd.value ::ₘ bucketItems (h.bucket i) :=
      Multiset.coe_eq_coe.mpr (hperm.map HashNode.value)
    rw [hb, Multiset.add_cons, ← Multiset.cons_add] at hsum
    exact add_right_cancel hsum
  refine ⟨hc.setBucket ?_ ?_ (by omega), hitems⟩
  · rw [hperm.length_eq, List.length_cons, hnr, hc.bucket_count i hi]
    push_cast
    rfl
  · rw [hitems, Multiset.card_cons, hc.count]
    push_cast
    rfl

/-- **Adding**: one item more, or no change. -/
theorem Counted.addItem (hc : h.Counted) (mem : Memory P) (key : HashKey) (data : P)
    (alloc : Bool) : (hashtAddItem h mem key data alloc).2.Counted := by
  rcases addItem_cases h mem key data alloc with ⟨b, heq, hroom, hperm, hnr⟩ | ⟨heq, -⟩
  · rw [heq]
    exact (hc.addNode (hc.hash_lt mem key data) hroom hperm hnr).1
  · rw [heq]
    exact hc

/-- **Adding** under one key descriptor: one item more, in the bucket of its key, or no
change. -/
theorem Wf.addItem (hw : h.Wf mem key) (data : P) (alloc : Bool) :
    ((hashtAddItem h mem key data alloc).1 = 0 ∧ h.nrNodes < h.volume ∧
      (hashtAddItem h mem key data alloc).2.Wf mem key ∧
      (hashtAddItem h mem key data alloc).2.items = data ::ₘ h.items) ∨
    hashtAddItem h mem key data alloc = (enomem, h) ∧
      (h.nrNodes < h.volume → alloc = true → ¬ Fits (h.bucket (h.hash mem key data))) := by
  rcases addItem_cases h mem key data alloc with ⟨b, heq, hroom, hperm, hnr⟩ | hkeep
  · have hlt := hash_lt hw data
    obtain ⟨hcounted, hitems⟩ := hw.counted.addNode hlt hroom hperm hnr
    rw [heq]
    refine .inl ⟨rfl, hroom, hcounted.wf fun j hj nd hnd => hw.placed_setBucket ?_ hj hnd, hitems⟩
    intro nd' hnd'
    rcases List.mem_cons.mp (hperm.mem_iff.mp hnd') with rfl | hnd'
    · exact ⟨rfl, rfl⟩
    · exact hw.placed _ hlt nd' hnd'
  · exact .inr hkeep

/-! ## Removing -/

/-- All a removal can do: the node that a search finds leaves its slot, or nothing changes. -/
theorem deleteItem_cases (h : Hasht P) (mem : Memory P) (key : HashKey) (data : P) :
    (∃ pos nd, hashtFindNode h mem key data = some (pos, nd) ∧
      hashtDeleteItem h mem key data = (0,
        { h.setBucket (h.hash mem key data)
            { node := (h.bucket (h.hash mem key data)).node.set pos none
              nrNodes := (h.bucket (h.hash mem key data)).nrNodes - 1 } with
          nrNodes := h.nrNodes - 1 })) ∨
    hashtFindNode h mem key data = none ∧ hashtDeleteItem h mem key data = (enoent, h) := by
  unfold hashtDeleteItem
  split
  next hnone => exact .inr ⟨hnone, rfl⟩
  next pos nd hsome => exact .inl ⟨pos, nd, hsome, rfl⟩

/-- A fetch leaves the table a deletion leaves. -/
theorem fetchItem_table (h : Hasht P) (mem : Memory P) (key : HashKey) (data : P) :
    (hashtFetchItem h mem key data).2 = (hashtDeleteItem h mem key data).2 := by
  unfold hashtFetchItem hashtDeleteItem
  split <;> rfl

/-- What a bucket with one node less does to the table. -/
theorem Counted.freeNode (hc : h.Counted) {i pos : ℕ} (hi : i < h.nrBuckets) {nd : HashNode P}
    (hslot : (h.bucket i).node[pos]? = some (some nd)) :
    Counted
      { h.setBucket i
          { node := (h.bucket i).node.set pos none, nrNodes := (h.bucket i).nrNodes - 1 } with
        nrNodes := h.nrNodes - 1 } ∧
    h.items = nd.value ::ₘ (h.setBucket i
      { node := (h.bucket i).node.set pos none, nrNodes := (h.bucket i).nrNodes - 1 }).items := by
  generalize hb' : ({ node := (h.bucket i).node.set pos none
                      nrNodes := (h.bucket i).nrNodes - 1 } : Bucket P) = b
  have hperm : (h.nodes i).Perm (nd :: Slots.entries b.node) := by
    rw [← hb']
    exact Slots.entries_free hslot
  have hitems : h.items = nd.value ::ₘ (h.setBucket i b).items := by
    have hsum := items_setBucket hi b
    have hb : bucketItems (h.bucket i) = nd.value ::ₘ bucketItems b :=
      Multiset.coe_eq_coe.mpr (hperm.map HashNode.value)
    rw [hb, Multiset.add_cons, ← Multiset.cons_add] at hsum
    exact (add_right_cancel hsum).symm
  have hcount := hc.count
  have hle := hc.le_volume
  refine ⟨hc.setBucket ?_ ?_ (by omega), hitems⟩
  · have hlen := hperm.length_eq
    have hbucket := hc.bucket_count i hi
    rw [List.length_cons] at hlen
    rw [← hb'] at hlen ⊢
    dsimp only at hlen ⊢
    omega
  · rw [hitems, Multiset.card_cons] at hcount
    omega

/-- **Deleting**: one item less, or no change. -/
theorem Counted.deleteItem (hc : h.Counted) (mem : Memory P) (key : HashKey) (data : P) :
    (hashtDeleteItem h mem key data).2.Counted := by
  rcases deleteItem_cases h mem key data with ⟨pos, nd, hsome, heq⟩ | ⟨-, heq⟩
  · rw [heq]
    exact (hc.freeNode (hc.hash_lt mem key data) (Slots.findSlot_eq_some hsome).1).1
  · rw [heq]
    exact hc

/-- **Deleting** under one key descriptor: one item with the probe's key less; no change when
there is none. -/
theorem Wf.deleteItem (hw : h.Wf mem key) (data : P) :
    (∃ p, keyBytes mem key p = keyBytes mem key data ∧
      (hashtDeleteItem h mem key data).1 = 0 ∧
      (hashtDeleteItem h mem key data).2.Wf mem key ∧
      h.items = p ::ₘ (hashtDeleteItem h mem key data).2.items) ∨
    ((∀ p ∈ h.items, keyBytes mem key p ≠ keyBytes mem key data) ∧
      hashtDeleteItem h mem key data = (enoent, h)) := by
  rcases deleteItem_cases h mem key data with ⟨pos, nd, hsome, heq⟩ | ⟨hnone, heq⟩
  · obtain ⟨hslot, -, hkey⟩ := hw.findNode_some hsome
    have hlt := hash_lt hw data
    obtain ⟨hcounted, hitems⟩ := hw.counted.freeNode hlt hslot
    rw [heq]
    refine .inl ⟨nd.value, hkey, rfl,
      hcounted.wf fun j hj nd hnd => hw.placed_setBucket ?_ hj hnd, hitems⟩
    intro nd' hnd'
    exact hw.placed _ hlt nd'
      ((Slots.entries_free hslot).mem_iff.mpr (List.mem_cons_of_mem _ hnd'))
  · exact .inr ⟨hw.findNode_none.mp hnone, heq⟩

/-- The buckets the loop of `hasht_clean_table` has passed are empty, the others are as
they were. -/
theorem cleanTable_loop (h : Hasht P) (freed : List P) (n : ℕ) :
    (List.range n).foldl cleanBucket (h, freed) =
      ({ h with
          nrNodes := h.nrNodes - ∑ i ∈ Finset.range n, ((h.nodes i).length : ℤ)
          bucket := fun i =>
            if i < n then ⟨List.replicate (h.bucket i).node.length none, 0⟩ else h.bucket i },
        freed ++ (List.range n).flatMap fun i => (h.nodes i).map HashNode.value) := by
  induction n with
  | zero =>
    rw [Finset.sum_range_zero, sub_zero, List.range_zero, List.flatMap_nil, List.append_nil]
    rfl
  | succ n ih =>
    rw [List.range_succ, List.foldl_append, ih, List.foldl_cons, List.foldl_nil,
      Finset.sum_range_succ, List.flatMap_append]
    unfold cleanBucket setBucket
    dsimp only
    rw [if_neg (Nat.lt_irrefl n), List.append_assoc, List.flatMap_cons, List.flatMap_nil,
      List.append_nil]
    congr 2
    · show _ - ((Slots.entries (h.bucket n).node).length : ℤ) = _
      rw [sub_sub]
      rfl
    · funext i
      by_cases hin : i = n
      · subst hin
        rw [Function.update_self, if_pos (Nat.lt_succ_self i)]
      · rw [Function.update_of_ne hin]
        by_cases hlt : i < n
        · rw [if_pos hlt, if_pos (by omega)]
        · rw [if_neg hlt, if_neg (by omega)]

/-- The items are freed, each as often as it is stored. -/
theorem cleanTable_freed (h : Hasht P) (freed : List P) :
    ((hashtCleanTable h freed).2.2 : Multiset P) = freed + h.items := by
  unfold hashtCleanTable
  rw [cleanTable_loop]
  show ((freed ++ _ : List P) : Multiset P) = _
  rw [← Multiset.coe_add]
  congr 1
  unfold items bucketItems
  generalize h.nrBuckets = n
  induction n with
  | zero => rfl
  | succ n ih =>
    rw [Finset.sum_range_succ, ← ih, List.range_succ, List.flatMap_append, ← Multiset.coe_add,
      List.flatMap_cons, List.flatMap_nil, List.append_nil]
    rfl

/-- **Cleaning** empties the table. -/
theorem Counted.cleanTable (hc : h.Counted) (freed : List P) :
    (hashtCleanTable h freed).2.1.Counted ∧ (hashtCleanTable h freed).2.1.items = 0 ∧
      ∀ i < h.nrBuckets, (hashtCleanTable h freed).2.1.nodes i = [] := by
  -- what the loop takes off the counter is the whole of it
  have hsum : h.nrNodes - ∑ i ∈ Finset.range h.nrBuckets, ((h.nodes i).length : ℤ) = 0 := by
    rw [hc.count_eq_sum, sub_eq_zero]
    exact Finset.sum_congr rfl fun i hi => hc.bucket_count i (Finset.mem_range.mp hi)
  unfold hashtCleanTable
  rw [cleanTable_loop, hsum]
  have hempty : ∀ i < h.nrBuckets, Slots.entries
      (if i < h.nrBuckets then ⟨List.replicate (h.bucket i).node.length none, 0⟩
        else h.bucket i : Bucket P).node = [] := by
    intro i hi
    rw [if_pos hi]
    exact Slots.entries_replicate _
  have hitems : items { h with
      nrNodes := 0
      bucket := fun i => if i < h.nrBuckets then
        ⟨List.replicate (h.bucket i).node.length none, 0⟩ else h.bucket i } = 0 := by
    refine Finset.sum_eq_zero fun i hi => ?_
    unfold bucketItems
    dsimp only
    rw [hempty i (Finset.mem_range.mp hi)]
    rfl
  refine ⟨⟨hc.nrBuckets_pos, ?_, ?_, ?_⟩, hitems, hempty⟩
  · intro i hi
    unfold nodes
    dsimp only at hi ⊢
    rw [hempty i hi, if_pos hi]
    rfl
  · rw [hitems]
    rfl
  · have hnr := hc.le_volume
    have hpos := hc.count
    show 0 ≤ h.volume
    omega

theorem cleanTable_nrBuckets (freed : List P) :
    (hashtCleanTable h freed).2.1.nrBuckets = h.nrBuckets := by
  unfold hashtCleanTable
  rw [cleanTable_loop]

theorem Wf.cleanTable (hw : h.Wf mem key) (freed : List P) :
    (hashtCleanTable h freed).2.1.Wf mem key ∧ (hashtCleanTable h freed).2.1.items = 0 := by
  obtain ⟨hcounted, hitems, hempty⟩ := hw.counted.cleanTable freed
  refine ⟨hcounted.wf fun i hi nd hnd => ?_, hitems⟩
  rw [cleanTable_nrBuckets] at hi
  rw [hempty i hi] at hnd
  cases hnd

/-- **Modifying** hands the callback an item with the probe's key, if there is one. -/
theorem Wf.modifyItem {σ : Type} (hw : h.Wf mem key) (data : P) (modify : P → σ → σ) (args : σ) :
    (∃ p ∈ h.items, keyBytes mem key p = keyBytes mem key data ∧
      hashtModifyItem h mem key data modify args = (0, modify p args)) ∨
    ((∀ p ∈ h.items, keyBytes mem key p ≠ keyBytes mem key data) ∧
      hashtModifyItem h mem key data modify args = (-1, args)) := by
  unfold hashtModifyItem
  split
  next hnone => exact .inr ⟨hw.findNode_none.mp hnone, rfl⟩
  next pos nd hsome =>
    obtain ⟨-, hmem, hkey⟩ := hw.findNode_some hsome
    exact .inl ⟨nd.value, hmem, hkey, rfl⟩

/-- **Finding** returns an item with the probe's key, if there is one. -/
theorem Wf.findItem (hw : h.Wf mem key) (data : P) :
    (∃ p ∈ h.items, keyBytes mem key p = keyBytes mem key data ∧
      hashtFindItem h mem key data = some p) ∨
    ((∀ p ∈ h.items, keyBytes mem key p ≠ keyBytes mem key data) ∧
      hashtFindItem h mem key data = none) := by
  unfold hashtFindItem
  cases hf : hashtFindNode h mem key data with
  | none => exact .inr ⟨hw.findNode_none.mp hf, rfl⟩
  | some r =>
    obtain ⟨-, hmem, hkey⟩ := hw.findNode_some hf
    exact .inl ⟨r.2.value, hmem, hkey, rfl⟩

/-- A change concerns the item a search finds. -/
theorem modifyItem_eq {σ : Type} (h : Hasht P) (mem : Memory P) (key : HashKey) (data : P)
    (modify : P → σ → σ) (args : σ) :
    hashtModifyItem h mem key data modify args
      = match hashtFindItem h mem key data with
        | none => (-1, args)
        | some p => (0, modify p args) := by
  unfold hashtModifyItem hashtFindItem
  cases hashtFindNode h mem key data <;> rfl

end Hasht

end Dungeon
