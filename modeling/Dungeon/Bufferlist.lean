import Mathlib.Algebra.BigOperators.Group.List.Basic
import Mathlib.Data.BitVec
import Dungeon.Llist
import Dungeon.Lib.Machine

/-!
# The buffer list is a byte FIFO (`ds_bufferlist.c`)

Bytes queue up in nodes of a linked list. A node owns the block it was written with; a
read or a move of the head consumes it from the front.

- `BufferNode`, `BufferList`: `buffer_node_t` and `buffer_list_t`. A block is the list of
  its bytes and the pointer `pos` an offset into it.
- `bufferWrite`, `bufferRead`, `bufferPop`, `bufferMoveHead`: the operations, with the
  outcomes `lock` of the `pthread_mutex_trylock`s they make.
- `BufferList.content`: the unread bytes, in order.
- `BufferList.Wf`: every node's unread part lies in its block, and the two counters of the
  wrapper agree with the nodes. Each operation keeps it, and its specification lemma says
  what it does to the content.
- `buffer_fifo`: hence the whole contract, in every state a single thread can reach.
-/

namespace Dungeon

/-- `buffer_node_t`: `size` unread bytes of the block `start`, from offset `pos`. -/
structure BufferNode where
  start : List UInt8
  pos : ℕ
  size : ℕ
  deriving DecidableEq

/-- `buffer_list_t`. `bufsize` stays at or below `max` and `nbytes` counts bytes in memory,
so neither wraps. -/
structure BufferList where
  base : Llist BufferNode
  bufsize : ℤ
  max : ℕ
  nbytes : ℤ
  deriving DecidableEq

/-- `DEFAULT_BUFSIZE`. -/
def defaultBufsize : ℕ := 65536

/-- `buffer_new_node`. -/
def bufferNewNode (data : List UInt8) : BufferNode where
  start := data
  pos := 0
  size := data.length

/-- `buffer_new`: the `uint32_t` size becomes an `int` in `llist_new`. -/
def bufferNew (bufsize : ℕ) : BufferList :=
  let bufsize := if bufsize = 0 then defaultBufsize else bufsize
  { base := llistNew (BitVec.ofNat 32 bufsize).toInt
    bufsize := 0
    max := bufsize
    nbytes := 0 }

namespace BufferNode

/-- `memcpy` of `n` bytes from `pos`. -/
def copy (bn : BufferNode) (n : ℕ) : List UInt8 := (bn.start.drop bn.pos).take n

/-- The unread bytes of a node. -/
def unread (bn : BufferNode) : List UInt8 := bn.copy bn.size

/-- `bn->pos += size; bn->size -= size;` -/
def advance (bn : BufferNode) (size : ℕ) : BufferNode :=
  { bn with pos := bn.pos + size, size := bn.size - size }

end BufferNode

/-- The first node changes in place. -/
def Llist.modifyHead (ll : Llist BufferNode) (f : BufferNode → BufferNode) : Llist BufferNode :=
  { ll with nodes := ll.nodes.modifyHead f }

/-- `buffer_pop`: the return code and the list. -/
def bufferPop (bl : BufferList) (lock : Bool) : ℤ × BufferList :=
  match llistFetchHeadNb bl.base lock with
  | .error ret => (ret, bl)
  | .ok (bn, base) =>
    (0, { bl with base := base, nbytes := bl.nbytes - bn.size, bufsize := bl.bufsize - 1 })

/-- `buffer_move_head`. -/
def bufferMoveHead (bl : BufferList) (size : ℕ) (lock : Bool) : ℤ × BufferList :=
  match llistGetHeadNb bl.base lock with
  | .error ret => (ret, bl)
  | .ok bn =>
    if bn.size > size then
      (0, { bl with
            base := bl.base.modifyHead fun bn => bn.advance size
            nbytes := bl.nbytes - size })
    else (-1, bl)

/-- `buffer_get_head`: the first node of the linked list. -/
def bufferGetHead (bl : BufferList) (lock : Bool) : Option ℕ :=
  (llistGetHeadNodeNb bl.base lock).toOption

/-- `buffer_get_next`. -/
def bufferGetNext (bl : BufferList) (ptr : ℕ) (lock : Bool) : Option ℕ :=
  llistGetNextNb bl.base ptr lock

/-- `buffer_get_data`, for a node of the list. -/
def bufferGetData (bl : BufferList) (buf : ℕ) : Option BufferNode := bl.base.nodes[buf]?

/-- The length of the list bounds the turns of the loop of `buffer_read`. -/
theorem fetchHeadNb_length {ll base : Llist BufferNode} {lock : Bool} {bn : BufferNode}
    (h : llistFetchHeadNb ll lock = .ok (bn, base)) : base.nodes.length < ll.nodes.length := by
  unfold llistFetchHeadNb llistFetchHeadUnlocked at h
  split at h
  next =>
    split at h
    next => cases h
    next =>
      split at h
      next => cases h
      next hnodes =>
        obtain ⟨rfl, rfl⟩ := Prod.mk.inj (Except.ok.inj h)
        rw [hnodes, List.length_cons]
        exact Nat.lt_succ_self _
  next => cases h

/-- The loop of `buffer_read`, whose `k`-th trylock has the outcome `lock k`: the return
value, the bytes copied so far and the list. -/
def bufferReadLoop (lock : ℕ → Bool) (k : ℕ) (bl : BufferList) (size : ℕ)
    (data : List UInt8) : ℤ × List UInt8 × BufferList :=
  if 0 < bl.nbytes ∧ 0 < size then
    match llistGetHeadNb bl.base (lock k) with
    | .error _ => (-1, data, bl)
    | .ok bn =>
      if bn.size ≤ size then
        -- the node is used up
        match _h : llistFetchHeadNb bl.base (lock (k + 1)) with
        | .error _ => (-1, data, bl)
        | .ok (bn, base) =>
          bufferReadLoop lock (k + 2)
            { bl with base := base, nbytes := bl.nbytes - bn.size, bufsize := bl.bufsize - 1 }
            (size - bn.size) (data ++ bn.copy bn.size)
      else
        -- the read ends inside the node: `size = 0` stops the loop
        ((data ++ bn.copy size).length, data ++ bn.copy size,
          { bl with
            base := bl.base.modifyHead fun bn => bn.advance size
            nbytes := bl.nbytes - size })
  else (data.length, data, bl)
termination_by bl.base.nodes.length
decreasing_by exact fetchHeadNb_length _h

/-- `buffer_read`: the return value, the bytes written to the caller's buffer and the
list. -/
def bufferRead (bl : BufferList) (size : ℕ) (lock : ℕ → Bool) : ℤ × List UInt8 × BufferList :=
  bufferReadLoop lock 0 bl size []

/-- `buffer_write`; its two allocations succeed when `malloc` holds, and `node` is the
outcome of the one in `llist_append_unlocked`. -/
def bufferWrite (bl : BufferList) (buf : List UInt8) (malloc node lock : Bool) :
    ℤ × BufferList :=
  if malloc then
    let r := llistAppendNb bl.base (bufferNewNode buf) lock node
    if r.1 ≠ 0 then (-1, bl)
    else
      (buf.length, { bl with
        base := r.2
        bufsize := bl.bufsize + 1
        nbytes := bl.nbytes + buf.length })
  else (-1, bl)

/-! ## Well-formed buffer lists -/

namespace BufferList

/-- The unread bytes, in order. -/
def content (bl : BufferList) : List UInt8 := (bl.base.nodes.map BufferNode.unread).flatten

/-- The unread sizes of the nodes. -/
def sizes (bl : BufferList) : List ℕ := bl.base.nodes.map BufferNode.size

/-- Every node's unread part ends with its block, and the counters agree with the nodes. -/
structure Wf (bl : BufferList) : Prop where
  exact : bl.base.Exact
  volume_eq : bl.base.volume = bl.max
  block_eq : ∀ bn ∈ bl.base.nodes, bn.pos + bn.size = bn.start.length
  nbytes_eq : bl.nbytes = (bl.sizes.sum : ℕ)
  bufsize_eq : bl.bufsize = bl.base.nodes.length

/-- The part of `Wf` that says nothing about the capacity. -/
structure Held (bl : BufferList) : Prop where
  length_eq : (bl.base.nodes.length : ℤ) = bl.base.nrNodes
  block_eq : ∀ bn ∈ bl.base.nodes, bn.pos + bn.size = bn.start.length
  nbytes_eq : bl.nbytes = (bl.sizes.sum : ℕ)
  bufsize_eq : bl.bufsize = bl.base.nodes.length

/-- `Held`, and a capacity that is the one asked for or admits no node at all. -/
structure Sized (bl : BufferList) : Prop extends Held bl where
  volume_eq : 0 < bl.base.volume → bl.base.volume = bl.max

/-- How many nodes more the linked list takes. -/
def room (bl : BufferList) : ℕ := (bl.base.volume - bl.base.nrNodes).toNat

variable {bl : BufferList} {bn : BufferNode} {rest : List BufferNode}

theorem Wf.held (h : bl.Wf) : bl.Held :=
  ⟨h.exact.length_eq, h.block_eq, h.nbytes_eq, h.bufsize_eq⟩

theorem Held.wf (h : bl.Held) (hle : bl.base.nrNodes ≤ bl.base.volume)
    (hvolume : bl.base.volume = bl.max) : bl.Wf :=
  ⟨⟨h.length_eq, hle⟩, hvolume, h.block_eq, h.nbytes_eq, h.bufsize_eq⟩

theorem Wf.sized (h : bl.Wf) : bl.Sized := ⟨h.held, fun _ => h.volume_eq⟩

/-- The `int` made of a `uint32_t` is that number, or is negative. -/
theorem toInt_of_pos {m : ℕ} (hlt : m < 2 ^ 32) (hpos : 0 < (BitVec.ofNat 32 m).toInt) :
    (BitVec.ofNat 32 m).toInt = m := by
  have hnat : (BitVec.ofNat 32 m).toNat = m := by
    rw [BitVec.toNat_ofNat, Nat.mod_eq_of_lt hlt]
  rw [BitVec.toInt_eq_toNat_cond, hnat] at hpos ⊢
  split at hpos
  next hlow => exact if_pos hlow
  next => omega

/-- A list made for more nodes than an `int` counts takes none. -/
theorem sized_bufferNew {bufsize : ℕ} (hlt : bufsize < 2 ^ 32) : (bufferNew bufsize).Sized := by
  refine ⟨⟨rfl, nofun, rfl, rfl⟩, toInt_of_pos ?_⟩
  unfold defaultBufsize
  split <;> omega

theorem wf_bufferNew {bufsize : ℕ} (hpos : 1 ≤ bufsize) (hlt : bufsize < 2 ^ 31) :
    (bufferNew bufsize).Wf := by
  have hvolume : (BitVec.ofNat 32 bufsize).toInt = bufsize := by
    have hnat : (BitVec.ofNat 32 bufsize).toNat = bufsize := by
      rw [BitVec.toNat_ofNat, Nat.mod_eq_of_lt (by omega)]
    rw [BitVec.toInt_eq_toNat_of_lt (by omega), hnat]
  unfold bufferNew
  rw [if_neg (by omega)]
  dsimp only
  rw [hvolume]
  exact ⟨Llist.exact_new (Int.natCast_nonneg _), rfl, nofun, rfl, rfl⟩

theorem length_copy {n : ℕ} (hblock : bn.pos + bn.size = bn.start.length) (hn : n ≤ bn.size) :
    (bn.copy n).length = n := by
  unfold BufferNode.copy
  rw [List.length_take, List.length_drop]
  omega

/-- The first counter of the wrapper is the length of the content. -/
theorem Held.nbytes_eq_length (h : bl.Held) : bl.nbytes = bl.content.length := by
  rw [h.nbytes_eq, content, List.length_flatten, List.map_map, sizes]
  have hlen : bl.base.nodes.map (List.length ∘ BufferNode.unread)
      = bl.base.nodes.map BufferNode.size := by
    refine List.map_congr_left fun bn hbn => ?_
    exact length_copy (h.block_eq bn hbn) (Nat.le_refl _)
  rw [hlen]

theorem content_cons (hnodes : bl.base.nodes = bn :: rest) :
    bl.content = bn.unread ++ (rest.map BufferNode.unread).flatten := by
  unfold content
  rw [hnodes, List.map_cons, List.flatten_cons]

/-- The list without its first node. -/
def dropHead (bl : BufferList) (bn : BufferNode) (rest : List BufferNode) : BufferList :=
  { bl with
    base := { bl.base with nodes := rest, nrNodes := bl.base.nrNodes - 1 }
    nbytes := bl.nbytes - bn.size
    bufsize := bl.bufsize - 1 }

/-- The list with the first `n` bytes of its first node read. -/
def advanceHead (bl : BufferList) (n : ℕ) : BufferList :=
  { bl with
    base := bl.base.modifyHead fun bn => bn.advance n
    nbytes := bl.nbytes - n }

/-- The counters of a list with a first node. -/
theorem Held.counts_cons (h : bl.Held) (hnodes : bl.base.nodes = bn :: rest) :
    ((rest.length + 1 : ℕ) : ℤ) = bl.base.nrNodes ∧
      bl.nbytes = (bn.size + (rest.map BufferNode.size).sum : ℕ) ∧
      bl.bufsize = ((rest.length + 1 : ℕ) : ℤ) := by
  refine ⟨?_, ?_, ?_⟩
  · rw [← h.length_eq, hnodes, List.length_cons]
  · rw [h.nbytes_eq, sizes, hnodes, List.map_cons, List.sum_cons]
  · rw [h.bufsize_eq, hnodes, List.length_cons]

theorem Held.dropHead (h : bl.Held) (hnodes : bl.base.nodes = bn :: rest) :
    (bl.dropHead bn rest).Held := by
  obtain ⟨hlen, hsum, hcount⟩ := h.counts_cons hnodes
  refine ⟨?_, fun b hb => h.block_eq b ?_, ?_, ?_⟩
  · show (rest.length : ℤ) = bl.base.nrNodes - 1
    omega
  · rw [hnodes]
    exact List.mem_cons_of_mem _ hb
  · show bl.nbytes - bn.size = ((rest.map BufferNode.size).sum : ℕ)
    omega
  · show bl.bufsize - 1 = rest.length
    omega

theorem Wf.dropHead (h : bl.Wf) (hnodes : bl.base.nodes = bn :: rest) :
    (bl.dropHead bn rest).Wf := by
  have hle := h.exact.le_volume
  refine (h.held.dropHead hnodes).wf ?_ h.volume_eq
  show bl.base.nrNodes - 1 ≤ bl.base.volume
  omega

theorem Held.advanceHead {n : ℕ} (h : bl.Held) (hnodes : bl.base.nodes = bn :: rest)
    (hn : n ≤ bn.size) : (bl.advanceHead n).Held := by
  have hnodes' : (bl.advanceHead n).base.nodes = bn.advance n :: rest := by
    show bl.base.nodes.modifyHead _ = _
    rw [hnodes]
    rfl
  obtain ⟨hlen, hsum, hcount⟩ := h.counts_cons hnodes
  refine ⟨?_, fun b hb => ?_, ?_, ?_⟩
  · rw [hnodes', List.length_cons]
    exact hlen
  · rw [hnodes', List.mem_cons] at hb
    rcases hb with rfl | hb
    · have hblock := h.block_eq bn (hnodes ▸ List.mem_cons_self)
      show bn.pos + n + (bn.size - n) = bn.start.length
      omega
    · exact h.block_eq b (hnodes ▸ List.mem_cons_of_mem _ hb)
  · unfold sizes
    rw [hnodes', List.map_cons, List.sum_cons]
    show bl.nbytes - n = ((bn.size - n + (rest.map BufferNode.size).sum : ℕ) : ℤ)
    omega
  · rw [hnodes', List.length_cons]
    exact hcount

theorem Wf.advanceHead {n : ℕ} (h : bl.Wf) (hnodes : bl.base.nodes = bn :: rest)
    (hn : n ≤ bn.size) : (bl.advanceHead n).Wf :=
  (h.held.advanceHead hnodes hn).wf h.exact.le_volume h.volume_eq

/-- Reading inside the first node takes the front of the content. -/
theorem Held.content_advanceHead {n : ℕ} (h : bl.Held) (hnodes : bl.base.nodes = bn :: rest)
    (hn : n ≤ bn.size) :
    bn.copy n = bl.content.take n ∧ (bl.advanceHead n).content = bl.content.drop n := by
  have hblock := h.block_eq bn (hnodes ▸ List.mem_cons_self)
  have hlen : bn.unread.length = bn.size := length_copy hblock (Nat.le_refl _)
  rw [content_cons hnodes, List.take_append_of_le_length (hlen ▸ hn),
    List.drop_append_of_le_length (hlen ▸ hn)]
  constructor
  · unfold BufferNode.unread BufferNode.copy
    rw [List.take_take, Nat.min_eq_left hn]
  · have hnodes' : (bl.advanceHead n).base.nodes = bn.advance n :: rest := by
      show bl.base.nodes.modifyHead _ = _
      rw [hnodes]
      rfl
    rw [content_cons hnodes']
    congr 1
    show (bn.start.drop (bn.pos + n)).take (bn.size - n) = bn.unread.drop n
    unfold BufferNode.unread BufferNode.copy
    rw [List.drop_take, List.drop_drop]

/-- A read that wants the whole head takes it off the front of the content. -/
theorem Held.content_dropHead {size : ℕ} (h : bl.Held) (hnodes : bl.base.nodes = bn :: rest)
    (hle : bn.size ≤ size) :
    bl.content.take size
        = bn.copy bn.size ++ (bl.dropHead bn rest).content.take (size - bn.size) ∧
      bl.content.drop size = (bl.dropHead bn rest).content.drop (size - bn.size) := by
  have hblock := h.block_eq bn (hnodes ▸ List.mem_cons_self)
  have hunread : bn.unread.length = bn.size := length_copy hblock (Nat.le_refl _)
  constructor
  · rw [content_cons hnodes, List.take_append, hunread, List.take_of_length_le (by omega)]
    rfl
  · rw [content_cons hnodes, List.drop_append, hunread, List.drop_of_length_le (by omega)]
    rfl

theorem Held.nrNodes_pos (h : bl.Held) (hnodes : bl.base.nodes = bn :: rest) :
    0 < bl.base.nrNodes := by
  have hlen := h.length_eq
  rw [hnodes, List.length_cons] at hlen
  omega

theorem Held.fetch_cons (h : bl.Held) (hnodes : bl.base.nodes = bn :: rest) :
    llistFetchHeadNb bl.base true
      = .ok (bn, { bl.base with nodes := rest, nrNodes := bl.base.nrNodes - 1 }) :=
  Llist.fetchHeadUnlocked_cons (h.nrNodes_pos hnodes) hnodes

theorem Held.get_cons (h : bl.Held) (hnodes : bl.base.nodes = bn :: rest) :
    llistGetHeadNb bl.base true = .ok bn :=
  Llist.getHeadUnlocked_cons (h.nrNodes_pos hnodes) hnodes

theorem Held.pop_cons (h : bl.Held) (hnodes : bl.base.nodes = bn :: rest) :
    bufferPop bl true = (0, bl.dropHead bn rest) := by
  unfold bufferPop
  rw [h.fetch_cons hnodes]
  rfl

theorem Held.moveHead_cons {size : ℕ} (h : bl.Held) (hnodes : bl.base.nodes = bn :: rest)
    (hlt : size < bn.size) : bufferMoveHead bl size true = (0, bl.advanceHead size) := by
  unfold bufferMoveHead
  rw [h.get_cons hnodes]
  exact if_pos hlt

theorem Held.getHead_cons (h : bl.Held) (hnodes : bl.base.nodes = bn :: rest) :
    bufferGetHead bl true = some 0 := by
  unfold bufferGetHead llistGetHeadNodeNb
  rw [if_pos rfl, Llist.getHeadNodeUnlocked_cons (h.nrNodes_pos hnodes) hnodes]
  rfl

theorem getHead_nil (hnodes : bl.base.nodes = []) : bufferGetHead bl true = none := by
  unfold bufferGetHead llistGetHeadNodeNb
  rw [if_pos rfl, Llist.getHeadNodeUnlocked_nil hnodes]
  rfl

/-- The list with a node for `buf` at its end. -/
def appended (bl : BufferList) (buf : List UInt8) : BufferList :=
  { bl with
    base := { bl.base with
      nodes := bl.base.nodes ++ [bufferNewNode buf], nrNodes := bl.base.nrNodes + 1 }
    bufsize := bl.bufsize + 1
    nbytes := bl.nbytes + buf.length }

/-- A write adds a node, or fails for want of room or memory and changes nothing. -/
theorem write_cases (bl : BufferList) (buf : List UInt8) (malloc node : Bool) :
    ((bl.base.nrNodes < bl.base.volume ∧ malloc = true ∧ node = true) ∧
      bufferWrite bl buf malloc node true = ((buf.length : ℤ), bl.appended buf)) ∨
    (¬ (bl.base.nrNodes < bl.base.volume ∧ malloc = true ∧ node = true) ∧
      bufferWrite bl buf malloc node true = (-1, bl)) := by
  unfold bufferWrite llistAppendNb
  cases malloc with
  | false => exact .inr ⟨fun h => Bool.false_ne_true h.2.1, rfl⟩
  | true =>
    rw [if_pos rfl, if_pos rfl]
    rcases Llist.appendUnlocked_cases bl.base (bufferNewNode buf) node with
      ⟨hroom, hnode, happend⟩ | ⟨hfail, happend⟩ <;> rw [happend]
    · exact .inl ⟨⟨hroom, rfl, hnode⟩, rfl⟩
    · refine .inr ⟨fun h => ?_, rfl⟩
      rw [hfail h.1] at h
      exact Bool.false_ne_true h.2.2

theorem Held.appended (h : bl.Held) (buf : List UInt8) : (bl.appended buf).Held := by
  have hlen := h.length_eq
  have hsum := h.nbytes_eq
  have hcount := h.bufsize_eq
  refine ⟨?_, fun bn hbn => ?_, ?_, ?_⟩
  · show ((bl.base.nodes ++ [bufferNewNode buf]).length : ℤ) = bl.base.nrNodes + 1
    rw [List.length_append, List.length_singleton]
    push_cast
    omega
  · rcases List.mem_append.mp hbn with hbn | hbn
    · exact h.block_eq bn hbn
    · obtain rfl := List.mem_singleton.mp hbn
      exact Nat.zero_add _
  · unfold sizes at hsum ⊢
    show bl.nbytes + buf.length
      = (((bl.base.nodes ++ [bufferNewNode buf]).map BufferNode.size).sum : ℕ)
    rw [List.map_append, List.sum_append]
    show bl.nbytes + buf.length
      = ((bl.base.nodes.map BufferNode.size).sum + (buf.length + 0) : ℕ)
    omega
  · show bl.bufsize + 1 = (bl.base.nodes ++ [bufferNewNode buf]).length
    rw [List.length_append, List.length_singleton]
    push_cast
    omega

theorem content_appended (bl : BufferList) (buf : List UInt8) :
    (bl.appended buf).content = bl.content ++ buf := by
  show ((bl.base.nodes ++ [bufferNewNode buf]).map BufferNode.unread).flatten = bl.content ++ buf
  rw [List.map_append, List.flatten_append]
  congr 1
  show (buf.drop 0).take buf.length ++ [] = buf
  rw [List.drop_zero, List.take_length, List.append_nil]

/-! ## What the operations do to the content -/

/-- **Writing appends** when a node more fits. -/
theorem Wf.write_of_room (h : bl.Wf) (hroom : bl.base.nodes.length < bl.max) (buf : List UInt8) :
    ∃ bl' : BufferList, bufferWrite bl buf true true true = ((buf.length : ℤ), bl') ∧ bl'.Wf ∧
      bl'.content = bl.content ++ buf ∧ bl'.max = bl.max := by
  have hlen := h.exact.length_eq
  have hroom' : bl.base.nrNodes < bl.base.volume := by
    rw [h.volume_eq]
    omega
  rcases write_cases bl buf true true with ⟨-, hwrite⟩ | ⟨hfail, -⟩
  · refine ⟨_, hwrite, (h.held.appended buf).wf ?_ h.volume_eq, content_appended bl buf, rfl⟩
    show bl.base.nrNodes + 1 ≤ bl.base.volume
    omega
  · exact absurd ⟨hroom', rfl, rfl⟩ hfail

/-- Writing to a list of `max` nodes fails and changes nothing. -/
theorem Wf.write_of_full (h : bl.Wf) (hfull : bl.base.nodes.length = bl.max)
    (buf : List UInt8) : bufferWrite bl buf true true true = (-1, bl) := by
  have hlen := h.exact.length_eq
  have hvol := h.volume_eq
  rcases write_cases bl buf true true with ⟨⟨hroom, -⟩, -⟩ | ⟨-, hwrite⟩
  · omega
  · exact hwrite

/-- **`buffer_pop`** drops the unread part of the first node; there is none to drop when
the list is empty. -/
theorem Wf.pop (h : bl.Wf) :
    (bl.base.nodes = [] ∧ bufferPop bl true = (-1, bl)) ∨
    ∃ bn rest, ∃ bl' : BufferList,
      bl.base.nodes = bn :: rest ∧ bufferPop bl true = (0, bl') ∧ bl'.Wf ∧
      bl'.base.nodes = rest ∧ bl.content = bn.unread ++ bl'.content ∧ bl'.max = bl.max := by
  cases hnodes : bl.base.nodes with
  | nil =>
    refine .inl ⟨rfl, ?_⟩
    unfold bufferPop llistFetchHeadNb
    rw [if_pos rfl, Llist.fetchHeadUnlocked_nil hnodes]
  | cons bn rest =>
    exact .inr ⟨bn, rest, bl.dropHead bn rest, rfl, h.held.pop_cons hnodes,
      h.dropHead hnodes, rfl, content_cons hnodes, rfl⟩

/-- **`buffer_move_head`** drops `size` bytes when the first node has more of them. -/
theorem Wf.moveHead (h : bl.Wf) (size : ℕ) :
    (∃ bn rest, ∃ bl' : BufferList, bl.base.nodes = bn :: rest ∧ size < bn.size ∧
      bufferMoveHead bl size true = (0, bl') ∧ bl'.Wf ∧
      bl'.content = bl.content.drop size ∧ bl'.max = bl.max) ∨
    ((∀ bn rest, bl.base.nodes = bn :: rest → bn.size ≤ size) ∧
      bufferMoveHead bl size true = (-1, bl)) := by
  cases hnodes : bl.base.nodes with
  | nil =>
    refine .inr ⟨nofun, ?_⟩
    unfold bufferMoveHead llistGetHeadNb
    rw [if_pos rfl, Llist.getHeadUnlocked_nil hnodes]
  | cons bn rest =>
    rcases Nat.lt_or_ge size bn.size with hlt | hge
    · exact .inl ⟨bn, rest, bl.advanceHead size, rfl, hlt, h.held.moveHead_cons hnodes hlt,
        h.advanceHead hnodes hlt.le, (h.held.content_advanceHead hnodes hlt.le).2, rfl⟩
    · refine .inr ⟨?_, ?_⟩
      · rintro _ _ ⟨⟩
        exact hge
      · unfold bufferMoveHead
        rw [h.held.get_cons hnodes]
        exact if_neg (not_lt.mpr hge)

section Turns

variable {lock : ℕ → Bool} {k size : ℕ} {data : List UInt8}

theorem readLoop_stop (hstop : ¬ (0 < bl.nbytes ∧ 0 < size)) :
    bufferReadLoop lock k bl size data = ((data.length : ℤ), data, bl) := by
  rw [bufferReadLoop, if_neg hstop]

/-- The head cannot be looked at. -/
theorem readLoop_busyGet (hmore : 0 < bl.nbytes ∧ 0 < size) (hget : lock k = false) :
    bufferReadLoop lock k bl size data = (-1, data, bl) := by
  rw [bufferReadLoop, if_pos hmore, hget]
  rfl

/-- The read ends inside the head. -/
theorem Held.readLoop_inside (h : bl.Held) (hnodes : bl.base.nodes = bn :: rest)
    (hmore : 0 < bl.nbytes ∧ 0 < size) (hget : lock k = true) (hlt : size < bn.size) :
    bufferReadLoop lock k bl size data
      = (((data ++ bn.copy size).length : ℤ), data ++ bn.copy size, bl.advanceHead size) := by
  rw [bufferReadLoop, if_pos hmore, hget, h.get_cons hnodes]
  dsimp only
  rw [if_neg (not_le.mpr hlt)]
  rfl

/-- The head is used up and cannot be fetched. -/
theorem Held.readLoop_busyFetch (h : bl.Held) (hnodes : bl.base.nodes = bn :: rest)
    (hmore : 0 < bl.nbytes ∧ 0 < size) (hget : lock k = true) (hle : bn.size ≤ size)
    (hfetch : lock (k + 1) = false) :
    bufferReadLoop lock k bl size data = (-1, data, bl) := by
  rw [bufferReadLoop, if_pos hmore, hget, h.get_cons hnodes]
  dsimp only
  rw [if_pos hle, hfetch]
  rfl

/-- The head is used up, and the loop goes on with the rest. -/
theorem Held.readLoop_whole (h : bl.Held) (hnodes : bl.base.nodes = bn :: rest)
    (hmore : 0 < bl.nbytes ∧ 0 < size) (hget : lock k = true) (hle : bn.size ≤ size)
    (hfetch : lock (k + 1) = true) :
    bufferReadLoop lock k bl size data
      = bufferReadLoop lock (k + 2) (bl.dropHead bn rest) (size - bn.size)
        (data ++ bn.copy bn.size) := by
  rw [bufferReadLoop, if_pos hmore, hget, h.get_cons hnodes]
  dsimp only
  rw [if_pos hle, hfetch]
  split
  next herr =>
    rw [h.fetch_cons hnodes] at herr
    cases herr
  next hok =>
    rw [h.fetch_cons hnodes] at hok
    obtain ⟨rfl, rfl⟩ := Prod.mk.inj (Except.ok.inj hok)
    rfl

end Turns

/-- A read of nothing, or of an empty list, takes all that is wanted. -/
theorem Held.take_drop_stop {size : ℕ} (h : bl.Held) (hstop : ¬ (0 < bl.nbytes ∧ 0 < size)) :
    bl.content.take size = [] ∧ bl.content.drop size = bl.content := by
  have hlen := h.nbytes_eq_length
  have hdone : size = 0 ∨ bl.content = [] := by
    rw [← List.length_eq_zero_iff]
    omega
  rcases hdone with rfl | hnil
  · exact ⟨List.take_zero, List.drop_zero⟩
  · rw [hnil]
    exact ⟨List.take_nil, List.drop_nil⟩

/-- While there are bytes there is a node. -/
theorem Held.nodes_ne_nil (h : bl.Held) (hpos : 0 < bl.nbytes) : bl.base.nodes ≠ [] := by
  intro hnil
  have hsum := h.nbytes_eq
  unfold sizes at hsum
  rw [hnil] at hsum
  exact absurd hsum hpos.ne'

/-- In its turn `i` a read of `size` bytes, from nodes of these sizes, asks for a lock that is
taken: the one for a look at the head, or the one for fetching a head it uses up. -/
def Denied (sizes : List ℕ) (size : ℕ) (lock : ℕ → Bool) (i : ℕ) : Prop :=
  (sizes.take i).sum < size ∧ (sizes.take i).sum < sizes.sum ∧
    (lock (2 * i) = false ∨ ((sizes.take (i + 1)).sum ≤ size ∧ lock (2 * i + 1) = false))

section Denied

variable {sizes : List ℕ} {size s k i : ℕ} {lock : ℕ → Bool} {data : List UInt8}

/-- The first turn is made when there is something to read. -/
theorem denied_zero : Denied (s :: sizes) size lock 0 ↔
    (0 < size ∧ 0 < (s :: sizes).sum) ∧ (lock 0 = false ∨ (s ≤ size ∧ lock 1 = false)) := by
  unfold Denied
  rw [List.take_zero, List.sum_nil, and_assoc, Nat.zero_add, List.take_succ_cons, List.take_zero,
    List.sum_singleton]

/-- A later turn is made when the first node is used up. -/
theorem denied_succ : Denied (s :: sizes) size lock (i + 1) ↔
    s ≤ size ∧ Denied sizes (size - s) (fun n => lock (n + 2)) i := by
  unfold Denied
  rw [List.take_succ_cons, List.take_succ_cons, List.sum_cons, List.sum_cons, List.sum_cons,
    show 2 * (i + 1) = 2 * i + 2 by omega, show 2 * i + 2 + 1 = 2 * i + 1 + 2 by omega]
  constructor
  · rintro ⟨hsize, hsum, hlock⟩
    refine ⟨by omega, by omega, by omega, hlock.imp_right fun ⟨hle, hl⟩ => ⟨by omega, hl⟩⟩
  · rintro ⟨hle, hsize, hsum, hlock⟩
    refine ⟨by omega, by omega, hlock.imp_right fun ⟨hle, hl⟩ => ⟨by omega, hl⟩⟩

theorem not_denied_nil : ¬ Denied [] size lock i := by
  rintro ⟨-, hsum, -⟩
  rw [List.take_nil] at hsum
  exact absurd hsum (Nat.lt_irrefl _)

theorem sizes_cons (hnodes : bl.base.nodes = bn :: rest) :
    bl.sizes = bn.size :: (bl.dropHead bn rest).sizes := by
  unfold sizes
  rw [hnodes]
  rfl

/-- What the loop of `buffer_read` still has to do when it gets the locks it asks for. -/
theorem Held.readLoop (h : bl.Held) (lock : ℕ → Bool) (k : ℕ) (data : List UInt8)
    (hgranted : ∀ i, ¬ Denied bl.sizes size (fun n => lock (k + n)) i) :
    ∃ bl' : BufferList, bufferReadLoop lock k bl size data
        = (((data ++ bl.content.take size).length : ℤ), data ++ bl.content.take size, bl') ∧
      bl'.Held ∧ bl'.content = bl.content.drop size ∧ bl'.max = bl.max ∧
      bl'.base.volume = bl.base.volume ∧ bl'.base.nrNodes ≤ bl.base.nrNodes := by
  -- the nodes are used up one by one
  induction hnodes : bl.base.nodes generalizing bl k size data with
  | nil =>
    have hstop : ¬ (0 < bl.nbytes ∧ 0 < size) := fun hmore => h.nodes_ne_nil hmore.1 hnodes
    obtain ⟨htake, hdrop⟩ := h.take_drop_stop hstop
    refine ⟨bl, ?_, h, hdrop.symm, rfl, rfl, le_rfl⟩
    rw [readLoop_stop hstop, htake, List.append_nil]
  | cons bn rest ih =>
    have hsizes := sizes_cons hnodes
    rw [hsizes] at hgranted
    by_cases hmore : 0 < bl.nbytes ∧ 0 < size
    · have hsum : 0 < (bn.size :: (bl.dropHead bn rest).sizes).sum := by
        rw [← hsizes]
        exact Int.natCast_pos.mp (h.nbytes_eq ▸ hmore.1)
      have hfirst : ¬ (lock k = false ∨ (bn.size ≤ size ∧ lock (k + 1) = false)) := fun hbusy =>
        hgranted 0 (denied_zero.mpr ⟨⟨hmore.2, hsum⟩, hbusy⟩)
      obtain ⟨hget, hfetch⟩ := not_or.mp hfirst
      have hget : lock k = true := by simpa using hget
      by_cases hle : bn.size ≤ size
      · have hfetch : lock (k + 1) = true := by simpa [hle] using hfetch
        obtain ⟨htake, hdrop⟩ := h.content_dropHead hnodes hle
        have hrest : ∀ i, ¬ Denied (bl.dropHead bn rest).sizes (size - bn.size)
            (fun n => lock (k + 2 + n)) i := by
          intro i hdenied
          refine hgranted (i + 1) (denied_succ.mpr ⟨hle, ?_⟩)
          simpa only [Nat.add_comm, Nat.add_left_comm, Nat.add_assoc] using hdenied
        obtain ⟨bl', heq, hheld, hcontent, hmax, hvolume, hcount⟩ :=
          ih (h.dropHead hnodes) (k + 2) (data ++ bn.copy bn.size) hrest rfl
        refine ⟨bl', ?_, hheld, hcontent.trans hdrop.symm, hmax, hvolume, hcount.trans ?_⟩
        · rw [h.readLoop_whole hnodes hmore hget hle hfetch, heq, htake, List.append_assoc]
        · show bl.base.nrNodes - 1 ≤ bl.base.nrNodes
          omega
      · obtain ⟨htake, hdrop⟩ := h.content_advanceHead (n := size) hnodes (by omega)
        refine ⟨bl.advanceHead size, ?_, h.advanceHead hnodes (by omega), hdrop, rfl, rfl, le_rfl⟩
        rw [h.readLoop_inside hnodes hmore hget (not_le.mp hle), htake]
    · obtain ⟨htake, hdrop⟩ := h.take_drop_stop hmore
      refine ⟨bl, ?_, h, hdrop.symm, rfl, rfl, le_rfl⟩
      rw [readLoop_stop hmore, htake, List.append_nil]

end Denied

/-- **`buffer_read`** copies out and removes the first `min size nbytes` bytes. -/
theorem Wf.read (h : bl.Wf) (size : ℕ) :
    ∃ bl' : BufferList, bufferRead bl size (fun _ => true)
        = (((min size bl.content.length : ℕ) : ℤ), bl.content.take size, bl') ∧
      bl'.Wf ∧ bl'.content = bl.content.drop size ∧ bl'.max = bl.max := by
  have hgranted : ∀ i, ¬ Denied bl.sizes size (fun _ => true) i := fun i hdenied =>
    hdenied.2.2.elim nofun fun hfetch => Bool.noConfusion hfetch.2
  obtain ⟨bl', heq, hheld, hcontent, hmax, hvolume, hcount⟩ :=
    h.held.readLoop (fun _ => true) 0 [] hgranted
  refine ⟨bl', ?_, hheld.wf ?_ ?_, hcontent, hmax⟩
  · unfold bufferRead
    rw [heq, List.nil_append, List.length_take]
  · rw [hvolume]
    exact hcount.trans h.exact.le_volume
  · rw [hvolume, hmax]
    exact h.volume_eq

end BufferList

/-! ## All call sequences of one thread -/

/-- A call, with its arguments. -/
inductive BufferCall where
  | write (buf : List UInt8)
  | read (size : ℕ)
  | pop
  | moveHead (size : ℕ)

/-- The list a call leaves; nobody else holds the lock and allocation succeeds. -/
def BufferCall.run (bl : BufferList) : BufferCall → BufferList
  | .write buf => (bufferWrite bl buf true true true).2
  | .read size => (bufferRead bl size fun _ => true).2.2
  | .pop => (bufferPop bl true).2
  | .moveHead size => (bufferMoveHead bl size true).2

/-- The call sequences on a list made by `buffer_new` with a capacity an `int` can hold. -/
def bufferRuns : Machine BufferList BufferCall where
  init bl := ∃ bufsize : ℕ, 1 ≤ bufsize ∧ bufsize < 2 ^ 31 ∧ bl = bufferNew bufsize
  step bl c := some (c.run bl)

/-- Every call keeps the list well formed. -/
theorem BufferList.Wf.run {bl : BufferList} (h : bl.Wf) (c : BufferCall) : (c.run bl).Wf := by
  cases c with
  | write buf =>
    have hle : bl.base.nodes.length ≤ bl.max := by
      have hlen := h.exact.length_eq
      have hvol := h.exact.le_volume
      have heq := h.volume_eq
      omega
    rcases Nat.lt_or_eq_of_le hle with hroom | hfull
    · obtain ⟨bl', heq, hwf, -⟩ := h.write_of_room hroom buf
      show (bufferWrite bl buf true true true).2.Wf
      rw [heq]
      exact hwf
    · show (bufferWrite bl buf true true true).2.Wf
      rw [h.write_of_full hfull]
      exact h
  | read size =>
    obtain ⟨bl', heq, hwf, -⟩ := h.read size
    show (bufferRead bl size fun _ => true).2.2.Wf
    rw [heq]
    exact hwf
  | pop =>
    show (bufferPop bl true).2.Wf
    rcases h.pop with ⟨-, heq⟩ | ⟨_, _, bl', -, heq, hwf, -⟩ <;> rw [heq]
    · exact h
    · exact hwf
  | moveHead size =>
    show (bufferMoveHead bl size true).2.Wf
    rcases h.moveHead size with ⟨_, _, bl', -, -, heq, hwf, -⟩ | ⟨-, heq⟩ <;> rw [heq]
    · exact hwf
    · exact h

theorem bufferRuns_wf {bl : BufferList} (h : bufferRuns.Reach Machine.Always bl) : bl.Wf := by
  refine h.invariant ?_ ?_
  · rintro _ ⟨bufsize, hpos, hlt, rfl⟩
    exact BufferList.wf_bufferNew hpos hlt
  · rintro bl c bl' - hI - hstep
    obtain rfl := Option.some.inj hstep
    exact hI.run c

/-- **The buffer list is a byte FIFO.** After any sequence of calls the counters are the
number of unread bytes and of nodes, of which there are at most `max`. Writing appends its
bytes unless `max` nodes are queued; reading copies out and removes the first bytes;
`buffer_pop` removes the unread part of the first node; `buffer_move_head` drops bytes of
the first node if it has more of them. A call that does none of this changes nothing. -/
theorem buffer_fifo {bl : BufferList} (h : bufferRuns.Reach Machine.Always bl) :
    (bl.nbytes = (bl.sizes.sum : ℕ) ∧ bl.nbytes = bl.content.length ∧
      bl.bufsize = bl.base.nodes.length ∧ bl.bufsize ≤ bl.max) ∧
    (∀ buf, (bl.base.nodes.length < bl.max → ∃ bl' : BufferList,
        bufferWrite bl buf true true true = ((buf.length : ℤ), bl') ∧
        bl'.content = bl.content ++ buf) ∧
      (bl.base.nodes.length = bl.max → bufferWrite bl buf true true true = (-1, bl))) ∧
    (∀ size, ∃ bl' : BufferList, bufferRead bl size (fun _ => true)
        = (((min size bl.content.length : ℕ) : ℤ), bl.content.take size, bl') ∧
      bl'.content = bl.content.drop size) ∧
    ((bl.base.nodes = [] ∧ bufferPop bl true = (-1, bl)) ∨
      ∃ bn rest, ∃ bl' : BufferList, bl.base.nodes = bn :: rest ∧ bufferPop bl true = (0, bl') ∧
        bl.content = bn.unread ++ bl'.content) ∧
    (∀ size, (∃ bn rest, ∃ bl' : BufferList, bl.base.nodes = bn :: rest ∧ size < bn.size ∧
        bufferMoveHead bl size true = (0, bl') ∧ bl'.content = bl.content.drop size) ∨
      ((∀ bn rest, bl.base.nodes = bn :: rest → bn.size ≤ size) ∧
        bufferMoveHead bl size true = (-1, bl))) := by
  have hwf := bufferRuns_wf h
  have hlen := hwf.exact.length_eq
  have hvol := hwf.exact.le_volume
  have hmax := hwf.volume_eq
  have hcount := hwf.bufsize_eq
  refine ⟨⟨hwf.nbytes_eq, hwf.held.nbytes_eq_length, hcount, by omega⟩, fun buf => ⟨?_, ?_⟩, ?_, ?_,
    ?_⟩
  · intro hroom
    obtain ⟨bl', heq, -, hcontent, -⟩ := hwf.write_of_room hroom buf
    exact ⟨bl', heq, hcontent⟩
  · exact fun hfull => hwf.write_of_full hfull buf
  · intro size
    obtain ⟨bl', heq, -, hcontent, -⟩ := hwf.read size
    exact ⟨bl', heq, hcontent⟩
  · rcases hwf.pop with hempty | ⟨bn, rest, bl', hnodes, heq, -, -, hcontent, -⟩
    · exact .inl hempty
    · exact .inr ⟨bn, rest, bl', hnodes, heq, hcontent⟩
  · intro size
    rcases hwf.moveHead size with ⟨bn, rest, bl', hnodes, hlt, heq, -, hcontent, -⟩ | hkeep
    · exact .inl ⟨bn, rest, bl', hnodes, hlt, heq, hcontent⟩
    · exact .inr hkeep

/-- A read across two nodes, after a move of the head and an empty write. -/
theorem buffer_fifo_acrossNodes :
    ∃ bl : BufferList, bufferRuns.Reach Machine.Always bl ∧ bl.content = [30] ∧
      bl.nbytes = 1 ∧ ∃ bl', bufferRead bl 5 (fun _ => true) = (1, [30], bl') := by
  obtain ⟨bl, hreach, hbl⟩ := Machine.exec_reach (M := bufferRuns)
    (show bufferRuns.init (bufferNew 3) from ⟨3, by omega, by omega, rfl⟩)
    (show (bufferRuns.exec Machine.Always (bufferNew 3)
      [.write [10, 11, 12], .write [], .write [20, 30], .moveHead 1, .read 3]).map
      (fun bl => decide (bl.content = [30])) = some true by decide +kernel)
  have hcontent : bl.content = [30] := of_decide_eq_true hbl
  obtain ⟨⟨-, hnbytes, -⟩, -, hread, -⟩ := buffer_fifo hreach
  obtain ⟨bl', heq, -⟩ := hread 5
  rw [hcontent] at hnbytes heq
  exact ⟨bl, hreach, hcontent, hnbytes, bl', heq⟩

end Dungeon
