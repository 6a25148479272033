import Dungeon.Bufferlist
import Dungeon.Conn

/-!
# Sending a buffer list (`conn_tcp_sendv_nb`)

One `writev` takes the first bytes of a buffer list and a second loop removes from the list
what was taken. Nobody else holds the list's lock.

- `Iovec`: `struct iovec`, a pointer into a block and a length.
- `gather`: the loop that fills the vector, `consume` the one that empties the list.
- `connTcpSendvNb`: the call, for a kernel that answers `writev` with any number of the bytes
  it was offered or with a failure.
- `gather_spec`, `consume_spec`: what each loop does to the content of the list.
- `sendv_exact`: the bytes that leave the list are the bytes that were taken.
-/

namespace Dungeon

/-- `DEFAULT_IOVS`. -/
def defaultIovs : ℕ := 8

/-- `struct iovec`: the block from `iov_base` on, and `iov_len`. -/
structure Iovec where
  iovBase : List UInt8
  iovLen : ℕ
  deriving DecidableEq

namespace Iovec

/-- The bytes an entry stands for. -/
def bytes (iov : Iovec) : List UInt8 := iov.iovBase.take iov.iovLen

/-- The bytes of a vector. -/
def offered (iovs : List Iovec) : List UInt8 := (iovs.map bytes).flatten

end Iovec

/-- The first loop, with `room` entries of the vector left: it walks the nodes from `buf` and
asks for `bytes` bytes more. A node without data would keep it for ever. -/
def gather (bl : BufferList) : ℕ → Option ℕ → ℕ → Option (List Iovec)
  | room + 1, some buf, bytes =>
    if bytes > 0 then
      match bufferGetData bl buf with
      | none => none
      | some bn =>
        let iovBase := bn.start.drop bn.pos
        if bytes > bn.size then
          (gather bl room (bufferGetNext bl buf true) (bytes - bn.size)).map
            (⟨iovBase, bn.size⟩ :: ·)
        else
          (gather bl room (bufferGetNext bl buf true) 0).map (⟨iovBase, bytes⟩ :: ·)
    else some []
  | _, _, _ => some []

theorem getHead_nodes {bl : BufferList} {buf : ℕ} (h : bufferGetHead bl true = some buf) :
    0 < bl.base.nrNodes ∧ bl.base.nodes ≠ [] := by
  unfold bufferGetHead llistGetHeadNodeNb llistGetHeadNodeUnlocked at h
  rw [if_pos rfl] at h
  split at h
  next => cases h
  next hpos =>
    split at h
    next => cases h
    next hnodes => exact ⟨not_le.mp hpos, hnodes ▸ List.cons_ne_nil _ _⟩

/-- The nodes bound the turns of the second loop. -/
theorem bufferPop_length {bl : BufferList} {buf : ℕ} (h : bufferGetHead bl true = some buf) :
    (bufferPop bl true).2.base.nodes.length < bl.base.nodes.length := by
  obtain ⟨hpos, hne⟩ := getHead_nodes h
  obtain ⟨bn, rest, hnodes⟩ := List.exists_cons_of_ne_nil hne
  unfold bufferPop llistFetchHeadNb
  rw [if_pos rfl, Llist.fetchHeadUnlocked_cons hpos hnodes, hnodes, List.length_cons]
  exact Nat.lt_succ_self _

/-- The second loop, with `bytes` taken bytes still to remove: the list, and whether the
branch that should never happen was taken. Reading a node without data is a fault. -/
def consume (bl : BufferList) (bytes : ℕ) : Option (BufferList × Bool) :=
  if bytes > 0 then
    match _h : bufferGetHead bl true with
    | none => some (bl, true)
    | some buf =>
      match bufferGetData bl buf with
      | none => none
      | some bn =>
        if bytes ≥ bn.size then consume (bufferPop bl true).2 (bytes - bn.size)
        -- `bytes = 0` stops the loop
        else some ((bufferMoveHead bl bytes true).2, false)
  else some (bl, false)
termination_by bl.base.nodes.length
decreasing_by exact bufferPop_length _h

/-- What a call of `conn_tcp_sendv_nb` leaves: the vector given to `writev`, whether the
branch that should never happen was taken, and the return value. -/
structure Sendv where
  conn : Conn
  bl : BufferList
  iovs : List Iovec
  unexpected : Bool
  ret : ℤ

/-- `conn_tcp_sendv_nb`, with the kernel's answer to `writev`. -/
def connTcpSendvNb (conn : Conn) (bl : BufferList) (size : ℕ) (writev : List Iovec → ℤ) :
    Option Sendv := do
  let iovs ← gather bl defaultIovs (bufferGetHead bl true) size
  let res := writev iovs
  if res < 0 then some ⟨conn, bl, iovs, false, res⟩
  else
    let conn := { conn with accepted := conn.accepted ++ (Iovec.offered iovs).take res.toNat }
    let (bl, unexpected) ← consume bl res.toNat
    some ⟨conn, bl, iovs, unexpected, res⟩

/-- The answers `writev` can give: it takes some of the bytes it was offered, or fails. -/
def WritevPossible (writev : List Iovec → ℤ) : Prop :=
  ∀ iovs, -1 ≤ writev iovs ∧ writev iovs ≤ (Iovec.offered iovs).length

namespace BufferList

variable {bl : BufferList} {bn : BufferNode} {pre rest : List BufferNode}

/-! ## The vector -/

/-- The pointer to the node at place `k`, when `rest` follows that place. -/
def cursor (k : ℕ) : List BufferNode → Option ℕ
  | [] => none
  | _ :: _ => some k

theorem Held.getHead_eq (h : bl.Held) : bufferGetHead bl true = cursor 0 bl.base.nodes := by
  cases hnodes : bl.base.nodes with
  | nil => exact getHead_nil hnodes
  | cons bn rest => exact h.getHead_cons hnodes

theorem getNext_eq (hnodes : bl.base.nodes = pre ++ bn :: rest) :
    bufferGetNext bl pre.length true = cursor (pre ++ [bn]).length rest := by
  unfold bufferGetNext llistGetNextNb llistGetNextUnlocked
  rw [if_pos rfl, hnodes, List.length_append, List.length_append, List.length_cons,
    List.length_singleton]
  cases rest with
  | nil => exact if_pos rfl
  | cons _ _ =>
    rw [List.length_cons, if_neg (by omega)]
    rfl

theorem getData_eq (hnodes : bl.base.nodes = pre ++ bn :: rest) :
    bufferGetData bl pre.length = some bn := by
  unfold bufferGetData
  rw [hnodes, List.getElem?_append_right (Nat.le_refl _), Nat.sub_self, List.getElem?_cons_zero]

/-- One turn of the first loop. -/
theorem gather_cons (hnodes : bl.base.nodes = pre ++ bn :: rest) (room bytes : ℕ) :
    gather bl (room + 1) (cursor pre.length (bn :: rest)) bytes =
      if bytes > 0 then
        if bytes > bn.size then
          (gather bl room (cursor (pre ++ [bn]).length rest) (bytes - bn.size)).map
            (⟨bn.start.drop bn.pos, bn.size⟩ :: ·)
        else
          (gather bl room (cursor (pre ++ [bn]).length rest) 0).map
            (⟨bn.start.drop bn.pos, bytes⟩ :: ·)
      else some [] := by
  show gather bl (room + 1) (some pre.length) bytes = _
  rw [gather, getData_eq hnodes, getNext_eq hnodes]

/-- **The first loop** offers the bytes of the nodes that follow, at most as many as asked
for. -/
theorem gather_spec (hblock : ∀ bn ∈ bl.base.nodes, bn.pos + bn.size = bn.start.length)
    (hnodes : bl.base.nodes = pre ++ rest) (room bytes : ℕ) :
    ∃ iovs, gather bl room (cursor pre.length rest) bytes = some iovs ∧ iovs.length ≤ room ∧
      Iovec.offered iovs <+: (rest.map BufferNode.unread).flatten ∧
      (Iovec.offered iovs).length ≤ bytes := by
  -- the walk goes through the rest of the nodes, one turn each
  induction rest generalizing pre room bytes with
  | nil =>
    unfold gather
    cases room <;> exact ⟨[], rfl, Nat.zero_le _, List.nil_prefix, Nat.zero_le _⟩
  | cons bn rest ih =>
    cases room with
    | zero => exact ⟨[], rfl, Nat.le_refl _, List.nil_prefix, Nat.zero_le _⟩
    | succ room =>
      have hnodes' : bl.base.nodes = (pre ++ [bn]) ++ rest := by
        rw [List.append_assoc, List.singleton_append, hnodes]
      have hbn : bn.pos + bn.size = bn.start.length := by
        refine hblock bn ?_
        rw [hnodes]
        exact List.mem_append_right _ List.mem_cons_self
      rw [gather_cons hnodes, List.map_cons, List.flatten_cons]
      by_cases hbytes : bytes > 0
      · rw [if_pos hbytes]
        by_cases hmore : bytes > bn.size
        · -- the whole node, and the walk goes on
          rw [if_pos hmore]
          obtain ⟨iovs, heq, hroom, hprefix, hlen⟩ :=
            ih hnodes' room (bytes - bn.size)
          rw [heq]
          refine ⟨_, rfl, Nat.succ_le_succ hroom, ?_, ?_⟩
          · show bn.unread ++ Iovec.offered iovs <+: _
            exact (List.prefix_append_right_inj _).mpr hprefix
          · show (bn.unread ++ Iovec.offered iovs).length ≤ bytes
            rw [List.length_append]
            have hunread : bn.unread.length = bn.size := length_copy hbn (Nat.le_refl _)
            omega
        · -- the last entry ends inside the node
          rw [if_neg hmore]
          obtain ⟨iovs, heq, hroom, -, hlen⟩ := ih hnodes' room 0
          have hnil : Iovec.offered iovs = [] :=
            List.eq_nil_of_length_eq_zero (Nat.le_zero.mp hlen)
          have hoffered : Iovec.offered (⟨bn.start.drop bn.pos, bytes⟩ :: iovs)
              = bn.copy bytes := by
            show bn.copy bytes ++ Iovec.offered iovs = bn.copy bytes
            rw [hnil, List.append_nil]
          rw [heq]
          refine ⟨_, rfl, Nat.succ_le_succ hroom, ?_, ?_⟩
          · rw [hoffered]
            refine List.IsPrefix.trans ?_ (List.prefix_append _ _)
            exact List.take_prefix_take_left (not_lt.mp hmore)
          · rw [hoffered]
            exact (length_copy hbn (not_lt.mp hmore)).le
      · rw [if_neg hbytes]
        exact ⟨[], rfl, Nat.zero_le _, List.nil_prefix, Nat.zero_le _⟩

/-! ## Removing what was taken -/

theorem Held.unread_length (h : bl.Held) (hnodes : bl.base.nodes = bn :: rest) :
    bn.unread.length = bn.size :=
  length_copy (h.block_eq bn (hnodes ▸ List.mem_cons_self)) (Nat.le_refl _)

/-- One turn of the second loop. -/
theorem Held.consume_cons (h : bl.Held) (hnodes : bl.base.nodes = bn :: rest) {bytes : ℕ}
    (hbytes : 0 < bytes) :
    consume bl bytes =
      if bytes ≥ bn.size then consume (bl.dropHead bn rest) (bytes - bn.size)
      else some (bl.advanceHead bytes, false) := by
  have hdata : bufferGetData bl ([] : List BufferNode).length = some bn := getData_eq hnodes
  rw [consume, if_pos hbytes]
  split
  next hhead =>
    rw [h.getHead_cons hnodes] at hhead
    cases hhead
  next buf hhead =>
    rw [h.getHead_cons hnodes] at hhead
    obtain rfl := Option.some.inj hhead
    rw [show bufferGetData bl 0 = some bn from hdata]
    dsimp only
    rw [h.pop_cons hnodes]
    split
    next => rfl
    next hlt => rw [h.moveHead_cons hnodes (not_le.mp hlt)]

/-- **The second loop** removes exactly the first `bytes` bytes, of any that are there. -/
theorem Held.consume_spec (h : bl.Held) {bytes : ℕ} (hle : bytes ≤ bl.content.length) :
    ∃ bl' : BufferList, consume bl bytes = some (bl', false) ∧ bl'.Held ∧
      bl'.content = bl.content.drop bytes := by
  induction hnodes : bl.base.nodes generalizing bl bytes with
  | nil =>
    have hnil : bl.content = [] := by
      unfold content
      rw [hnodes]
      rfl
    rw [hnil, List.length_nil, Nat.le_zero] at hle
    rw [hle, List.drop_zero]
    refine ⟨bl, ?_, h, rfl⟩
    rw [consume, if_neg (Nat.lt_irrefl 0)]
  | cons bn rest ih =>
    rcases Nat.eq_zero_or_pos bytes with rfl | hpos
    · refine ⟨bl, ?_, h, (List.drop_zero).symm⟩
      rw [consume, if_neg (Nat.lt_irrefl 0)]
    · rw [h.consume_cons hnodes hpos]
      by_cases hall : bytes ≥ bn.size
      · -- the node is used up, and the loop goes on with the rest
        rw [if_pos hall]
        obtain ⟨-, hdrop⟩ := h.content_dropHead hnodes hall
        have hle' : bytes - bn.size ≤ (bl.dropHead bn rest).content.length := by
          have hlen := congrArg List.length hdrop
          have hcontent := congrArg List.length (content_cons hnodes)
          rw [List.length_append, h.unread_length hnodes] at hcontent
          show bytes - bn.size ≤ ((rest.map BufferNode.unread).flatten).length
          omega
        obtain ⟨bl', heq, hheld, hcontent⟩ := ih (h.dropHead hnodes) hle' rfl
        exact ⟨bl', heq, hheld, hcontent.trans hdrop.symm⟩
      · rw [if_neg hall]
        have hlt := not_le.mp hall
        exact ⟨bl.advanceHead bytes, rfl, h.advanceHead hnodes hlt.le,
          (h.content_advanceHead hnodes hlt.le).2⟩

/-! ## The call -/

/-- **A send removes what it sent.** Whatever the list holds and however much is asked for,
the call returns what `writev` answered. The bytes offered to `writev` are the first of the
list, no more than asked for. After a failure the list is as it was. Otherwise the bytes that
`writev` took, and no others, are gone from its front; the counters agree with what is left,
and the list was never found empty too early. -/
theorem sendv_exact (h : bl.Held) (conn : Conn) (size : ℕ) {writev : List Iovec → ℤ}
    (hwritev : WritevPossible writev) :
    ∃ out, connTcpSendvNb conn bl size writev = some out ∧
      Iovec.offered out.iovs <+: bl.content ∧ (Iovec.offered out.iovs).length ≤ size ∧
      out.iovs.length ≤ defaultIovs ∧ out.ret = writev out.iovs ∧ out.unexpected = false ∧
      (out.ret < 0 → out.bl = bl ∧ out.conn = conn) ∧
      (0 ≤ out.ret → out.bl.content = bl.content.drop out.ret.toNat ∧
        out.conn.accepted = conn.accepted ++ bl.content.take out.ret.toNat) ∧
      out.bl.Held := by
  obtain ⟨iovs, hgather, hroom, hprefix, hlen⟩ :=
    gather_spec h.block_eq (show bl.base.nodes = [] ++ bl.base.nodes from rfl) defaultIovs size
  obtain ⟨hlow, hhigh⟩ := hwritev iovs
  have hcall : connTcpSendvNb conn bl size writev
      = if writev iovs < 0 then some ⟨conn, bl, iovs, false, writev iovs⟩
        else (consume bl (writev iovs).toNat).bind fun r =>
          some ⟨{ conn with
            accepted := conn.accepted ++ (Iovec.offered iovs).take (writev iovs).toNat },
            r.1, iovs, r.2, writev iovs⟩ := by
    unfold connTcpSendvNb
    rw [h.getHead_eq]
    have hgather' : gather bl defaultIovs (cursor 0 bl.base.nodes) size = some iovs := hgather
    rw [hgather']
    rfl
  rw [hcall]
  by_cases hneg : writev iovs < 0
  · rw [if_pos hneg]
    refine ⟨_, rfl, hprefix, hlen, hroom, rfl, rfl, fun _ => ⟨rfl, rfl⟩, fun hpos => ?_, h⟩
    exact absurd hneg (not_lt.mpr hpos)
  · rw [if_neg hneg]
    have hnat : (writev iovs).toNat ≤ (Iovec.offered iovs).length := by omega
    obtain ⟨bl', hconsume, hheld, hcontent⟩ :=
      h.consume_spec (hnat.trans hprefix.length_le)
    rw [hconsume]
    refine ⟨_, rfl, hprefix, hlen, hroom, rfl, rfl, fun hret => absurd hret hneg, fun _ => ?_,
      hheld⟩
    refine ⟨hcontent, ?_⟩
    show conn.accepted ++ (Iovec.offered iovs).take (writev iovs).toNat = _
    obtain ⟨tail, htail⟩ := hprefix
    have hbytes : bl.content = Iovec.offered iovs ++ tail := htail.symm
    rw [hbytes, List.take_append_of_le_length hnat]

/-- Three nodes, the first partly read and the second empty. -/
def threeNodes : BufferList :=
  ⟨⟨3, 5, [⟨[10, 11, 12], 1, 2⟩, ⟨[], 0, 0⟩, ⟨[20, 21, 22], 0, 3⟩]⟩, 3, 5, 5⟩

/-- Four bytes are offered and three of them taken. -/
theorem sendv_exact_partly :
    threeNodes.content = [11, 12, 20, 21, 22] ∧
      ∃ out, connTcpSendvNb .fresh threeNodes 4 (fun iovs => min 3 (Iovec.offered iovs).length)
          = some out ∧
        Iovec.offered out.iovs = [11, 12, 20, 21] ∧ out.ret = 3 ∧
        out.bl.content = [21, 22] := by
  have hheld : threeNodes.Held := ⟨rfl, by decide, rfl, rfl⟩
  have hwritev : WritevPossible fun iovs => min 3 (Iovec.offered iovs).length := by
    intro iovs
    constructor <;> dsimp only <;> omega
  obtain ⟨out, heq, -, -, -, -, -, -, hsent, -⟩ := sendv_exact hheld .fresh 4 hwritev
  have hrun : (connTcpSendvNb .fresh threeNodes 4
      (fun iovs => min 3 (Iovec.offered iovs).length)).map
        (fun out => (Iovec.offered out.iovs, out.ret)) = some ([11, 12, 20, 21], 3) := by
    decide +kernel
  rw [heq] at hrun
  obtain ⟨hiovs, hret⟩ := Prod.mk.inj (Option.some.inj hrun)
  refine ⟨rfl, out, heq, hiovs, hret, ?_⟩
  rw [(hsent (by omega)).1, hret]
  rfl

end BufferList

end Dungeon
