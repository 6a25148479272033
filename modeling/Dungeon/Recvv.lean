import Mathlib.Algebra.Order.Group.Nat
import Mathlib.Data.List.Range
import Dungeon.Bufferlist
import Dungeon.Conn

/-!
# Receiving into a buffer list (`conn_tcp_recvv_nb`)

The bytes of a socket go to a block of the call's own and from there to new nodes of a buffer
list, a chunk a turn. Nobody else holds the list's lock.

- `RecvvTurn`: what a turn of the loop meets, from the kernel and from `malloc`.
- `recvvLoop`, `connTcpRecvvNb`: the call. `errno` is part of its state, since a `recv` that
  does not fail leaves it as it was.
- `Exit`: the five ways the loop ends, and `recvvLoop_spec`: it ends in one of them, after
  turns that stored what they received.
- `recvv_lossless_iff`, `recvv_reports_iff`: when no received byte is lost, and when the
  return value tells what was stored. The room of the list is only looked at after a write,
  and after stored bytes the end of the stream and a failure are told by `errno` alone.
-/

namespace Dungeon

/-- `DATA_BUFSIZE`. -/
def dataBufsize : ℕ := 4096

/-- `EINVAL`. -/
def einval : ℤ := 22

namespace RecvResult

/-- `errno` after a `recv` that found `errno`. -/
def errnoAfter (errno : ℕ) : RecvResult → ℕ
  | .error e => e
  | .data _ | .eof => errno

/-- The bytes a `recv` delivered. -/
def bytes : RecvResult → List UInt8
  | .data bytes => bytes
  | .eof | .error _ => []

/-- Whether a `recv` delivered anything. -/
def IsData (res : RecvResult) : Prop := ∃ bytes, res = .data bytes

end RecvResult

/-- What a turn meets: the kernel's answer, and the outcomes of the allocations in
`buffer_write`. -/
structure RecvvTurn where
  recv : RecvResult
  malloc : Bool
  node : Bool

/-- What a call leaves: `calls` counts the calls of `recv`. -/
structure Recvv where
  conn : Conn
  bl : BufferList
  calls : ℕ
  ret : ℤ

/-- Whether the answer `errno` stands for "later". -/
def Later (errno : ℕ) : Prop := errno = eagain ∨ errno = eintr

instance (errno : ℕ) : Decidable (Later errno) := inferInstanceAs (Decidable (_ ∨ _))

/-- The loop, before the turn that meets `turns 0`. -/
def recvvLoop (turns : ℕ → RecvvTurn) (conn : Conn) (bl : BufferList)
    (buf : List.Vector UInt8 dataBufsize) (errno calls size total : ℕ) : Recvv :=
  if size > 0 then
    let s := if size > dataBufsize then dataBufsize else size
    let (conn, buf, res) := connTcpRecvNb conn buf (turns 0).recv
    let errno := (turns 0).recv.errnoAfter errno
    if res ≤ 0 then
      if Later errno ∧ total > 0 then ⟨conn, bl, calls + 1, total⟩
      else if res = 0 then ⟨conn, bl, calls + 1, res⟩
      else ⟨conn, bl, calls + 1, -errno⟩
    else
      let (ret, bl) :=
        bufferWrite bl (Block.fetch buf 0 res.toNat) (turns 0).malloc (turns 0).node true
      if ret < 0 then ⟨conn, bl, calls + 1, total⟩
      else
        let total := total + res.toNat
        -- the only look at the room of the list
        if bl.bufsize = bl.max then ⟨conn, bl, calls + 1, total⟩
        else
          recvvLoop (fun k => turns (k + 1)) conn bl buf errno (calls + 1) (size - s) total
  else ⟨conn, bl, calls, total⟩
termination_by size
decreasing_by
  unfold dataBufsize at *
  split <;> omega

/-- `conn_tcp_recvv_nb`; `buf` is the block it allocates, if there is memory. -/
def connTcpRecvvNb (conn : Conn) (bl : BufferList) (size errno : ℕ)
    (buf : Option (List.Vector UInt8 dataBufsize)) (turns : ℕ → RecvvTurn) : Recvv :=
  match buf with
  | none => ⟨conn, bl, 0, -einval⟩
  | some buf => recvvLoop turns conn bl buf errno 0 size 0

/-- The kernel's answers fit what the turns ask for. -/
def RecvvPossible (turns : ℕ → RecvvTurn) (size : ℕ) : Prop :=
  ∀ t, t * dataBufsize < size →
    (turns t).recv.Possible (min dataBufsize (size - t * dataBufsize))

/-- A turn that takes data and has the memory to store it. -/
structure RecvvTurn.Stores (turn : RecvvTurn) : Prop where
  isData : turn.recv.IsData
  malloc : turn.malloc = true
  node : turn.node = true

/-- What `t` turns stored. -/
def stored (turns : ℕ → RecvvTurn) (t : ℕ) : List UInt8 :=
  ((List.range t).map fun k => (turns k).recv.bytes).flatten

/-- How the loop ends at turn `t`, for a list with room for `room` nodes: the received bytes
it loses, the number of `recv`s and the return value. -/
inductive Exit (turns : ℕ → RecvvTurn) (size room errno total t : ℕ) :
    List UInt8 → ℕ → ℤ → Prop
  | served (hsize : size ≤ t * dataBufsize) : Exit turns size room errno total t [] t total
  | full (hpos : 0 < t) (hfull : t = room) : Exit turns size room errno total t [] t total
  | ended (hsize : t * dataBufsize < size) (hroom : t < room ∨ t = 0)
      (hrecv : (turns t).recv = .eof) :
      Exit turns size room errno total t [] (t + 1)
        (if Later errno ∧ total > 0 then total else 0)
  | failed (e : ℕ) (hsize : t * dataBufsize < size) (hroom : t < room ∨ t = 0)
      (hrecv : (turns t).recv = .error e) :
      Exit turns size room errno total t [] (t + 1) (if Later e ∧ total > 0 then total else -e)
  | dropped (bytes : List UInt8) (hsize : t * dataBufsize < size) (hroom : t < room ∨ t = 0)
      (hrecv : (turns t).recv = .data bytes)
      (hfail : ¬ (t < room ∧ (turns t).malloc = true ∧ (turns t).node = true)) :
      Exit turns size room errno total t bytes (t + 1) total

variable {turns : ℕ → RecvvTurn} {conn : Conn} {bl : BufferList}
  {buf : List.Vector UInt8 dataBufsize} {errno calls size total room t : ℕ}
  {lost : List UInt8} {ret : ℤ}

theorem stored_zero (turns : ℕ → RecvvTurn) : stored turns 0 = [] := rfl

theorem stored_succ (turns : ℕ → RecvvTurn) (t : ℕ) :
    stored turns (t + 1) = (turns 0).recv.bytes ++ stored (fun k => turns (k + 1)) t := by
  unfold stored
  rw [List.range_succ_eq_map, List.map_cons, List.flatten_cons, List.map_map]
  rfl

theorem stored_succ_of_data {bytes : List UInt8} (hrecv : (turns 0).recv = .data bytes) (t : ℕ) :
    stored turns (t + 1) = bytes ++ stored (fun k => turns (k + 1)) t := by
  rw [stored_succ, hrecv]
  rfl

theorem RecvvPossible.tail (h : RecvvPossible turns size) :
    RecvvPossible (fun k => turns (k + 1)) (size - dataBufsize) := by
  intro t ht
  have hstep : (t + 1) * dataBufsize = t * dataBufsize + dataBufsize := Nat.succ_mul _ _
  have hturn := h (t + 1) (by omega)
  rwa [hstep, show size - (t * dataBufsize + dataBufsize)
    = size - dataBufsize - t * dataBufsize by omega] at hturn

/-- An exit of the rest of the loop is one of the whole. -/
theorem Exit.succ (hroom : 1 < room)
    (h : Exit (fun k => turns (k + 1)) (size - dataBufsize) (room - 1) errno total t lost calls
      ret) : Exit turns size room errno total (t + 1) lost (calls + 1) ret := by
  have hstep : (t + 1) * dataBufsize = t * dataBufsize + dataBufsize := Nat.succ_mul _ _
  cases h with
  | served hsize => exact .served (by omega)
  | full hpos hfull => exact .full (by omega) (by omega)
  | ended hsize _ hrecv => exact .ended (by omega) (by omega) hrecv
  | failed e hsize _ hrecv => exact .failed e (by omega) (by omega) hrecv
  | dropped _ hsize _ hrecv hfail =>
    refine .dropped _ (by omega) (by omega) hrecv fun h => hfail ⟨?_, h.2⟩
    omega

/-! ## One turn -/

/-- The connection after `recv` delivered `bytes`. -/
def Conn.receive (conn : Conn) (bytes : List UInt8) : Conn :=
  { conn with received := conn.received ++ bytes }

theorem Conn.receive_nil (conn : Conn) : conn.receive [] = conn := by
  unfold Conn.receive
  rw [List.append_nil]

theorem recvvLoop_eof (hsize : 0 < size) (hrecv : (turns 0).recv = .eof) :
    recvvLoop turns conn bl buf errno calls size total
      = ⟨conn.receive [], bl, calls + 1, if Later errno ∧ total > 0 then total else 0⟩ := by
  rw [recvvLoop, if_pos hsize, hrecv, Conn.receive_nil]
  dsimp only [connTcpRecvNb, RecvResult.errnoAfter]
  rw [if_pos (Int.le_refl 0)]
  split <;> rfl

theorem recvvLoop_error {e : ℕ} (hsize : 0 < size) (hrecv : (turns 0).recv = .error e)
    (he : 0 < e) :
    recvvLoop turns conn bl buf errno calls size total
      = ⟨conn.receive [], bl, calls + 1, if Later e ∧ total > 0 then total else -e⟩ := by
  rw [recvvLoop, if_pos hsize, hrecv, Conn.receive_nil]
  dsimp only [connTcpRecvNb, RecvResult.errnoAfter]
  rw [if_pos (by omega), if_neg (show ¬ (-e : ℤ) = 0 by omega)]
  split <;> rfl

/-- A turn with data writes it, and goes on unless that failed or filled the list. -/
theorem recvvLoop_data {bytes : List UInt8} (hsize : 0 < size)
    (hrecv : (turns 0).recv = .data bytes) (hpos : 0 < bytes.length)
    (hle : bytes.length ≤ dataBufsize) :
    recvvLoop turns conn bl buf errno calls size total =
      let r := bufferWrite bl bytes (turns 0).malloc (turns 0).node true
      if r.1 < 0 then ⟨conn.receive bytes, r.2, calls + 1, total⟩
      else if r.2.bufsize = r.2.max then
        ⟨conn.receive bytes, r.2, calls + 1, (total + bytes.length : ℕ)⟩
      else
        recvvLoop (fun k => turns (k + 1)) (conn.receive bytes) r.2 (Block.store buf bytes) errno
          (calls + 1) (size - dataBufsize) (total + bytes.length) := by
  have hfetch : Block.fetch (Block.store buf bytes) 0 bytes.length = bytes := by
    have hwhole := Block.fetch_store buf ((List.append_nil bytes).symm ▸ hle)
    rwa [List.append_nil] at hwhole
  have hrest : size - (if size > dataBufsize then dataBufsize else size)
      = size - dataBufsize := by
    split <;> omega
  rw [recvvLoop, if_pos hsize, hrecv]
  dsimp only [connTcpRecvNb, RecvResult.errnoAfter]
  rw [if_neg (by omega), Int.toNat_natCast, hfetch, hrest]
  rfl

namespace BufferList

theorem room_pos : 0 < bl.room ↔ bl.base.nrNodes < bl.base.volume := by
  unfold room
  omega

theorem Sized.appended (h : bl.Sized) (bytes : List UInt8) : (bl.appended bytes).Sized :=
  ⟨h.toHeld.appended bytes, h.volume_eq⟩

/-- The fullness check of the loop sees a list without room. -/
theorem Sized.full_iff (h : bl.Sized) (hroom : 0 < bl.room) (bytes : List UInt8) :
    (bl.appended bytes).bufsize = (bl.appended bytes).max ↔ bl.room = 1 := by
  have hlen := h.length_eq
  have hcount := h.bufsize_eq
  have hlt := room_pos.mp hroom
  have hvolume := h.volume_eq (by omega)
  show bl.bufsize + 1 = bl.max ↔ bl.room = 1
  unfold room
  omega

theorem room_appended (bl : BufferList) (bytes : List UInt8) :
    (bl.appended bytes).room = bl.room - 1 := by
  show (bl.base.volume - (bl.base.nrNodes + 1)).toNat = (bl.base.volume - bl.base.nrNodes).toNat - 1
  omega

end BufferList

/-! ## The loop -/

/-- `out` is what is left when the loop stored the data of `t` turns and lost the last
bytes it received. -/
structure Leaves (turns : ℕ → RecvvTurn) (conn : Conn) (bl : BufferList) (calls size t : ℕ)
    (lost : List UInt8) (n : ℕ) (out : Recvv) : Prop where
  le_room : t ≤ bl.room
  stores : ∀ k < t, k * dataBufsize < size ∧ (turns k).Stores
  received : out.conn.received = conn.received ++ stored turns t ++ lost
  content : out.bl.content = bl.content ++ stored turns t
  sized : out.bl.Sized
  calls_eq : out.calls = calls + n

/-- The loop ends before it stored anything. -/
theorem Leaves.zero {n : ℕ} (hsized : bl.Sized) :
    Leaves turns conn bl calls size 0 lost n ⟨conn.receive lost, bl, calls + n, ret⟩ where
  le_room := Nat.zero_le _
  stores := nofun
  received := by
    rw [stored_zero, List.append_nil]
    rfl
  content := by rw [stored_zero, List.append_nil]
  sized := hsized
  calls_eq := rfl

/-- A turn that stores `bytes`, and then the rest of the loop. -/
theorem Leaves.succ {bytes : List UInt8} {n : ℕ} {out : Recvv} (hsize : 0 < size)
    (hrecv : (turns 0).recv = .data bytes) (hstores : (turns 0).Stores) (hroom : 0 < bl.room)
    (h : Leaves (fun k => turns (k + 1)) (conn.receive bytes) (bl.appended bytes) (calls + 1)
      (size - dataBufsize) t lost n out) :
    Leaves turns conn bl calls size (t + 1) lost (n + 1) out := by
  have hsucc := stored_succ_of_data hrecv t
  have hle := h.le_room
  rw [BufferList.room_appended] at hle
  refine ⟨by omega, ?_, ?_, ?_, h.sized, ?_⟩
  · intro k hk
    cases k with
    | zero => exact ⟨by omega, hstores⟩
    | succ k =>
      obtain ⟨hturn, hstore⟩ := h.stores k (by omega)
      have hstep : (k + 1) * dataBufsize = k * dataBufsize + dataBufsize := Nat.succ_mul _ _
      exact ⟨by omega, hstore⟩
  · rw [h.received, hsucc]
    show conn.received ++ bytes ++ _ ++ _ = _
    simp only [List.append_assoc]
  · rw [h.content, BufferList.content_appended, hsucc, List.append_assoc]
  · rw [h.calls_eq]
    omega

/-- **What the loop does.** Some turns store what they received, and then it ends in one of
the five ways. -/
theorem recvvLoop_spec (hsized : bl.Sized) (hpossible : RecvvPossible turns size) (conn : Conn)
    (buf : List.Vector UInt8 dataBufsize) (errno calls total : ℕ) :
    ∃ t lost n, Leaves turns conn bl calls size t lost n
        (recvvLoop turns conn bl buf errno calls size total) ∧
      Exit turns size bl.room errno (total + (stored turns t).length) t lost n
        (recvvLoop turns conn bl buf errno calls size total).ret := by
  -- each turn asks for one chunk of what is left of `size`
  induction size using Nat.strong_induction_on
    generalizing turns conn bl buf calls total with
  | _ size ih =>
  rcases Nat.eq_zero_or_pos size with rfl | hsize
  · refine ⟨0, [], 0, ?_⟩
    have heq : recvvLoop turns conn bl buf errno calls 0 total
        = ⟨conn.receive [], bl, calls + 0, total⟩ := by
      rw [recvvLoop, if_neg (Nat.lt_irrefl 0), Conn.receive_nil, Nat.add_zero]
    rw [heq]
    exact ⟨Leaves.zero hsized, .served (Nat.zero_le _)⟩
  · have hfirst : 0 * dataBufsize < size := by omega
    have hturn := hpossible 0 hfirst
    cases hrecv : (turns 0).recv with
    | eof =>
      refine ⟨0, [], 1, ?_⟩
      rw [recvvLoop_eof hsize hrecv]
      exact ⟨Leaves.zero hsized, .ended hfirst (.inr rfl) hrecv⟩
    | error e =>
      rw [hrecv] at hturn
      refine ⟨0, [], 1, ?_⟩
      rw [recvvLoop_error hsize hrecv hturn]
      exact ⟨Leaves.zero hsized, .failed e hfirst (.inr rfl) hrecv⟩
    | data bytes =>
      rw [hrecv] at hturn
      obtain ⟨hpos, hlen⟩ := hturn
      rw [recvvLoop_data hsize hrecv hpos (by omega)]
      rcases bl.write_cases bytes (turns 0).malloc (turns 0).node with
        ⟨⟨hroom, hmalloc, hnode⟩, hwrite⟩ | ⟨hfail, hwrite⟩ <;> rw [hwrite] <;> dsimp only
      · -- the bytes are stored
        have hroom' : 0 < bl.room := BufferList.room_pos.mpr hroom
        have hstores : (turns 0).Stores := ⟨⟨bytes, hrecv⟩, hmalloc, hnode⟩
        have hbytes : ∀ t, (stored turns (t + 1)).length
            = bytes.length + (stored (fun k => turns (k + 1)) t).length := by
          intro t
          rw [stored_succ_of_data hrecv, List.length_append]
        rw [if_neg (by omega)]
        by_cases hfull : bl.room = 1
        · rw [if_pos ((hsized.full_iff hroom' bytes).mpr hfull)]
          refine ⟨1, [], 1, ?_, ?_⟩
          · have hrest : Leaves (fun k => turns (k + 1)) (conn.receive bytes) (bl.appended bytes)
                (calls + 1) (size - dataBufsize) 0 [] 0
                ⟨(conn.receive bytes).receive [], bl.appended bytes, calls + 1 + 0,
                  (total + bytes.length : ℕ)⟩ := Leaves.zero (hsized.appended bytes)
            rw [Conn.receive_nil] at hrest
            exact hrest.succ hsize hrecv hstores hroom'
          · have hexit : Exit turns size bl.room errno (total + (stored turns 1).length) 1 [] 1
                (total + (stored turns 1).length : ℕ) := .full Nat.one_pos hfull.symm
            rwa [hbytes 0, stored_zero, List.length_nil, Nat.add_zero] at hexit ⊢
        · rw [if_neg fun h => hfull ((hsized.full_iff hroom' bytes).mp h)]
          obtain ⟨t, lost, n, hleaves, hexit⟩ := ih (size - dataBufsize)
            (Nat.sub_lt hsize (by decide)) (hsized.appended bytes) hpossible.tail
            (conn.receive bytes) (Block.store buf bytes) (calls + 1) (total + bytes.length)
          refine ⟨t + 1, lost, n + 1, hleaves.succ hsize hrecv hstores hroom', ?_⟩
          rw [BufferList.room_appended] at hexit
          rw [hbytes t, ← Nat.add_assoc]
          exact hexit.succ (by omega)
      · -- they are not, and they are gone from the socket
        rw [if_pos (by omega)]
        refine ⟨0, bytes, 1, Leaves.zero hsized, ?_⟩
        refine .dropped bytes hfirst (.inr rfl) hrecv fun h => hfail ⟨?_, h.2⟩
        exact BufferList.room_pos.mp h.1

/-! ## Lost bytes -/

/-- The bytes received during the call are the ones added to the list. -/
def Recvv.Lossless (out : Recvv) (conn : Conn) (bl : BufferList) : Prop :=
  ∃ delivered, out.conn.received = conn.received ++ delivered ∧
    out.bl.content = bl.content ++ delivered

/-- There is room for a node when the first turn takes data, and memory whenever one of the
turns that have room takes data. -/
def AllStored (turns : ℕ → RecvvTurn) (size room : ℕ) : Prop :=
  (0 < size → (turns 0).recv.IsData → 0 < room) ∧
  ∀ t < room, t * dataBufsize < size → (∀ k ≤ t, (turns k).recv.IsData) →
    (turns t).malloc = true ∧ (turns t).node = true

theorem Leaves.lossless_iff {n : ℕ} {out : Recvv}
    (h : Leaves turns conn bl calls size t lost n out) : out.Lossless conn bl ↔ lost = [] := by
  constructor
  · rintro ⟨delivered, hreceived, hcontent⟩
    rw [h.content] at hcontent
    obtain rfl := List.append_cancel_left hcontent
    rw [h.received] at hreceived
    exact List.append_right_eq_self.mp hreceived
  · rintro rfl
    refine ⟨stored turns t, ?_, h.content⟩
    rw [h.received, List.append_nil]

/-- A loop that loses nothing gets past every turn that takes data while there is room. -/
theorem Exit.passed {t' n : ℕ} (h : Exit turns size room errno total t [] n ret)
    (hpossible : RecvvPossible turns size) (hsize : t' * dataBufsize < size)
    (hroom : t' < room ∨ t' = 0) (hdata : ∀ k ≤ t', (turns k).recv.IsData) : t' < t := by
  by_contra hle
  have hbefore : t ≤ t' := not_lt.mp hle
  have hmul : t * dataBufsize ≤ t' * dataBufsize := Nat.mul_le_mul_right _ hbefore
  obtain ⟨bytes, hbytes⟩ := hdata t hbefore
  cases h with
  | served hserved => omega
  | full hpos hfull => omega
  | ended _ _ hrecv => cases hbytes.symm.trans hrecv
  | failed e _ _ hrecv => cases hbytes.symm.trans hrecv
  | dropped _ hturn _ hrecv _ =>
    have hanswer := hpossible t hturn
    rw [hrecv] at hanswer
    exact Nat.lt_irrefl 0 hanswer.1

/-- **No byte is lost iff whatever is received can be stored.** -/
theorem recvv_lossless_iff (hsized : bl.Sized) (hpossible : RecvvPossible turns size)
    (conn : Conn) (errno : ℕ) (buf : Option (List.Vector UInt8 dataBufsize)) :
    (connTcpRecvvNb conn bl size errno buf turns).Lossless conn bl ↔
      (buf.isSome → AllStored turns size bl.room) := by
  cases buf with
  | none =>
    refine ⟨nofun, fun _ => ⟨[], ?_, ?_⟩⟩ <;> exact (List.append_nil _).symm
  | some buf =>
    obtain ⟨t, lost, n, hleaves, hexit⟩ :=
      recvvLoop_spec hsized hpossible conn buf errno 0 0
    show (recvvLoop turns conn bl buf errno 0 size 0).Lossless conn bl ↔ _
    rw [hleaves.lossless_iff]
    generalize (recvvLoop turns conn bl buf errno 0 size 0).ret = ret at hexit
    constructor
    · rintro rfl -
      constructor
      · -- the first turn was passed, so a node was free
        intro hsize hdata
        have hpassed : 0 < t := by
          refine hexit.passed hpossible (by omega) (.inr rfl) fun k hk => ?_
          rwa [Nat.le_zero.mp hk]
        exact hpassed.trans_le hleaves.le_room
      · intro t' hroom hsize hdata
        have hpassed := hexit.passed hpossible hsize (.inl hroom) hdata
        obtain ⟨-, hstores⟩ := hleaves.stores t' hpassed
        exact ⟨hstores.malloc, hstores.node⟩
    · intro hall
      obtain ⟨hfirst, hmemory⟩ := hall rfl
      cases hexit with
      | served | full | ended | failed => rfl
      | dropped _ hsize hroom hrecv hfail =>
        -- the dropped bytes had a place
        have hdata : ∀ k ≤ t, (turns k).recv.IsData := by
          intro k hk
          rcases Nat.lt_or_eq_of_le hk with hlt | rfl
          · exact (hleaves.stores k hlt).2.isData
          · exact ⟨_, hrecv⟩
        have hlt : t < bl.room := by
          rcases hroom with hlt | rfl
          · exact hlt
          · exact hfirst (by omega) (hdata 0 (Nat.le_refl 0))
        exact absurd ⟨hlt, hmemory t hlt hsize hdata⟩ hfail

/-- The block of a call, as it is allocated. -/
def blankBuf : List.Vector UInt8 dataBufsize := List.Vector.replicate dataBufsize 0

/-- A socket with one byte for every `recv`. -/
def oneByte : ℕ → RecvvTurn := fun _ => ⟨.data [7], true, true⟩

theorem oneByte_possible {size : ℕ} : RecvvPossible oneByte size := by
  intro t ht
  refine ⟨Nat.one_pos, ?_⟩
  show 1 ≤ min dataBufsize (size - t * dataBufsize)
  unfold dataBufsize at *
  omega

/-- An empty list takes the byte. -/
theorem recvv_lossless_iff_room :
    (connTcpRecvvNb .fresh (bufferNew 2) 10 0 (some blankBuf) oneByte).Lossless .fresh
      (bufferNew 2) := by
  refine (recvv_lossless_iff (BufferList.sized_bufferNew (by decide)) oneByte_possible .fresh 0
    (some blankBuf)).mpr fun _ => ⟨fun _ _ => ?_, fun _ _ _ _ => ⟨rfl, rfl⟩⟩
  decide

/-- A list for one node, which holds one. -/
def fullList : BufferList := ⟨⟨1, 1, [⟨[1], 0, 1⟩]⟩, 1, 1, 1⟩

/-- A full list does not: the byte is received and gone, and the call returns zero. -/
theorem recvv_drops : bufferRuns.Reach Machine.Always fullList ∧
    connTcpRecvvNb .fresh fullList 10 0 (some blankBuf) oneByte
      = ⟨Conn.fresh.receive [7], fullList, 1, 0⟩ ∧
    ¬ (connTcpRecvvNb .fresh fullList 10 0 (some blankBuf) oneByte).Lossless .fresh fullList := by
  obtain ⟨bl, hreach, hbl⟩ := Machine.exec_reach (M := bufferRuns)
    (show bufferRuns.init (bufferNew 1) from ⟨1, by omega, by omega, rfl⟩)
    (show (bufferRuns.exec Machine.Always (bufferNew 1) [.write [1]]).map
      (fun bl => decide (bl = fullList)) = some true by decide +kernel)
  obtain rfl := of_decide_eq_true hbl
  have hcall : connTcpRecvvNb .fresh fullList 10 0 (some blankBuf) oneByte
      = ⟨Conn.fresh.receive [7], fullList, 1, 0⟩ :=
    recvvLoop_data (by decide) (show (oneByte 0).recv = .data [7] from rfl) (by decide)
      (by decide)
  refine ⟨hreach, hcall, ?_⟩
  rw [hcall]
  rintro ⟨delivered, hreceived, hcontent⟩
  obtain rfl : [7] = delivered := hreceived
  revert hcontent
  decide

/-! ## What the return value tells -/

/-- A positive value is the number of bytes that were added to the list; zero stands for the
end of the stream and a negative value for a failure, and then none were added. -/
def Recvv.Reports (out : Recvv) (turns : ℕ → RecvvTurn) (bl : BufferList) : Prop :=
  ∃ appended, out.bl.content = bl.content ++ appended ∧
    (∀ r : ℤ, 0 < r → (out.ret = r ↔ (appended.length : ℤ) = r)) ∧
    (out.ret = 0 → appended = [] ∧ ∃ k < out.calls, (turns k).recv = .eof) ∧
    (out.ret < 0 → appended = [] ∧ ∃ k < out.calls, ∃ e, (turns k).recv = .error e)

/-- There is room for a node when the first turn takes data; and when turns that took data
are followed by one that does not, while there is room and more was asked for, then `errno`
stands for "later" after it. The end of the stream leaves `errno` as it was. -/
def AllTold (turns : ℕ → RecvvTurn) (size room errno : ℕ) : Prop :=
  ((turns 0).recv.IsData → 0 < room) ∧
  ∀ t < room, 0 < t → t * dataBufsize < size → (∀ k < t, (turns k).recv.IsData) →
    ¬ (turns t).recv.IsData → Later ((turns t).recv.errnoAfter errno)

theorem stored_pos (hpossible : RecvvPossible turns size) (hsize : 0 < size) (hpos : 0 < t)
    (hdata : (turns 0).recv.IsData) : 0 < (stored turns t).length := by
  obtain ⟨t, rfl⟩ := Nat.exists_eq_succ_of_ne_zero hpos.ne'
  obtain ⟨bytes, hbytes⟩ := hdata
  have hanswer := hpossible 0 (by omega)
  rw [hbytes] at hanswer
  rw [stored_succ_of_data hbytes, List.length_append]
  exact Nat.add_pos_left hanswer.1 _

theorem Leaves.reports_iff {n : ℕ} {out : Recvv}
    (h : Leaves turns conn bl 0 size t lost n out) : out.Reports turns bl ↔
      (∀ r : ℤ, 0 < r → (out.ret = r ↔ ((stored turns t).length : ℤ) = r)) ∧
      (out.ret = 0 → stored turns t = [] ∧ ∃ k < n, (turns k).recv = .eof) ∧
      (out.ret < 0 → stored turns t = [] ∧ ∃ k < n, ∃ e, (turns k).recv = .error e) := by
  have hcalls : out.calls = n := by
    rw [h.calls_eq, Nat.zero_add]
  unfold Recvv.Reports
  rw [hcalls]
  constructor
  · rintro ⟨appended, hcontent, hrest⟩
    rw [h.content] at hcontent
    rwa [List.append_cancel_left hcontent]
  · exact fun hrest => ⟨stored turns t, h.content, hrest⟩

/-- With memory, the only bytes that are lost are those of a first turn without room. -/
theorem Exit.lost_eq {n : ℕ} (h : Exit turns size room errno total t lost n ret)
    (hmemory : ∀ t, (turns t).malloc = true ∧ (turns t).node = true) :
    lost = [] ∨ (room = 0 ∧ t = 0 ∧ (turns 0).recv.IsData ∧ ret = total) := by
  cases h with
  | served | full | ended | failed => exact .inl rfl
  | dropped _ _ hroom hrecv hfail =>
    have hfull : ¬ t < room := fun hlt => hfail ⟨hlt, hmemory t⟩
    obtain rfl : t = 0 := hroom.resolve_left hfull
    exact .inr ⟨by omega, rfl, ⟨_, hrecv⟩, rfl⟩

/-- The value tells what was stored just when a first turn that takes data does not end the
loop, and the total is returned after any turn that did. -/
theorem Exit.tells_iff {n : ℕ}
    (h : Exit turns size room errno (stored turns t).length t lost n ret)
    (hsize : 0 < size) (hpossible : RecvvPossible turns size)
    (hdata : ∀ k < t, (turns k).recv.IsData) :
    ((∀ r : ℤ, 0 < r → (ret = r ↔ ((stored turns t).length : ℤ) = r)) ∧
      (ret = 0 → stored turns t = [] ∧ ∃ k < n, (turns k).recv = .eof) ∧
      (ret < 0 → stored turns t = [] ∧ ∃ k < n, ∃ e, (turns k).recv = .error e)) ↔
    (t = 0 → ¬ (turns 0).recv.IsData) ∧ (0 < t → ret = (stored turns t).length) := by
  rcases Nat.eq_zero_or_pos t with rfl | hpos
  · -- nothing was stored
    rw [stored_zero] at h ⊢
    cases h with
    | served hserved => omega
    | full hpos _ => exact absurd hpos (Nat.lt_irrefl 0)
    | ended _ _ hrecv =>
      rw [if_neg fun h => Nat.lt_irrefl 0 h.2]
      refine iff_of_true ⟨fun _ _ => Iff.rfl, fun _ => ⟨rfl, 0, Nat.one_pos, hrecv⟩, fun h => ?_⟩
        ⟨fun _ ⟨_, hbytes⟩ => ?_, fun h => absurd h (Nat.lt_irrefl 0)⟩
      · omega
      · cases hbytes.symm.trans hrecv
    | failed e hturn _ hrecv =>
      have hanswer := hpossible 0 hturn
      rw [hrecv] at hanswer
      have he : 0 < e := hanswer
      rw [if_neg fun h => Nat.lt_irrefl 0 h.2]
      refine iff_of_true ⟨fun r hr => ?_, fun h => ?_, fun _ => ⟨rfl, 0, Nat.one_pos, e, hrecv⟩⟩
        ⟨fun _ ⟨_, hbytes⟩ => ?_, fun h => absurd h (Nat.lt_irrefl 0)⟩
      · rw [List.length_nil]
        omega
      · omega
      · cases hbytes.symm.trans hrecv
    | dropped _ _ _ hrecv _ =>
      -- zero is returned without an end of the stream
      refine iff_of_false (fun ⟨_, hzero, _⟩ => ?_) fun ⟨hno, _⟩ => hno rfl ⟨_, hrecv⟩
      obtain ⟨-, k, hk, heof⟩ := hzero rfl
      obtain rfl : k = 0 := by omega
      cases hrecv.symm.trans heof
  · have hlen := stored_pos hpossible hsize hpos (hdata 0 hpos)
    constructor
    · rintro ⟨hcount, -⟩
      exact ⟨fun h => absurd h hpos.ne', fun _ => (hcount _ (by omega)).mpr rfl⟩
    · rintro ⟨-, htotal⟩
      rw [htotal hpos]
      refine ⟨fun _ _ => Iff.rfl, fun h => ?_, fun h => ?_⟩ <;> omega

/-- With memory, that is decided by the room at entry and by `errno` at the last turn. -/
theorem Exit.allTold_iff {n : ℕ}
    (h : Exit turns size room errno (stored turns t).length t lost n ret)
    (hsize : 0 < size) (hpossible : RecvvPossible turns size)
    (hmemory : ∀ t, (turns t).malloc = true ∧ (turns t).node = true) (hroom : t ≤ room)
    (hdata : ∀ k < t, (turns k).recv.IsData) :
    (t = 0 → ¬ (turns 0).recv.IsData) ∧ (0 < t → ret = (stored turns t).length) ↔
      AllTold turns size room errno := by
  have hlost := h.lost_eq hmemory
  have hlen : 0 < t → 0 < (stored turns t).length :=
    fun hpos => stored_pos hpossible hsize hpos (hdata 0 hpos)
  constructor
  · rintro ⟨hfirst, htotal⟩
    have hpositive : (turns 0).recv.IsData → 0 < room := by
      intro hbytes
      by_contra hnone
      exact hfirst (by omega) hbytes
    refine ⟨hpositive, fun t' hlt hpos hmore hbefore hnot => ?_⟩
    obtain rfl : lost = [] := hlost.resolve_right fun h => by omega
    -- the loop ends at the turn that takes nothing
    have hmul : (t' - 1) * dataBufsize ≤ t' * dataBufsize :=
      Nat.mul_le_mul_right _ (Nat.sub_le _ _)
    have hle : t' - 1 < t :=
      h.passed hpossible (by omega) (.inl (by omega)) fun k hk => hbefore k (by omega)
    have hge : ¬ t' < t := fun hlt => hnot (hdata t' hlt)
    obtain rfl : t' = t := by omega
    have hbytes := hlen hpos
    have hret := htotal hpos
    cases h with
    | served hserved => omega
    | full _ hfull => omega
    | ended _ _ hrecv | failed _ _ _ hrecv =>
      rw [hrecv]
      show Later _
      by_contra hnever
      rw [if_neg fun h => hnever h.1] at hret
      omega
    | dropped _ _ _ hrecv _ => exact absurd ⟨_, hrecv⟩ hnot
  · rintro ⟨hfirst, hlater⟩
    cases h with
    | served hserved =>
      constructor
      · intro hnone
        rw [hnone, Nat.zero_mul] at hserved
        omega
      · intro _
        rfl
    | full hpos _ => exact ⟨fun h => absurd h hpos.ne', fun _ => rfl⟩
    | ended hmore hfree hrecv | failed _ hmore hfree hrecv =>
      have hnot : ¬ (turns t).recv.IsData := fun ⟨_, hbytes⟩ => by cases hbytes.symm.trans hrecv
      constructor
      · intro hnone
        rwa [hnone] at hnot
      · intro hpos
        have hend := hlater t (by omega) hpos hmore hdata hnot
        rw [hrecv] at hend
        exact if_pos ⟨hend, hlen hpos⟩
    | dropped _ _ hfree hrecv hfail =>
      -- a turn with room and memory loses nothing
      have hlt : t < room := by
        rcases hfree with hlt | rfl
        · exact hlt
        · exact hfirst ⟨_, hrecv⟩
      exact absurd ⟨hlt, hmemory t⟩ hfail

/-- **The return value tells what was stored iff `errno` lets it.** -/
theorem recvv_reports_iff (hsized : bl.Sized) (hpossible : RecvvPossible turns size)
    (hsize : 0 < size) (hmemory : ∀ t, (turns t).malloc = true ∧ (turns t).node = true)
    (conn : Conn) (errno : ℕ) (buf : List.Vector UInt8 dataBufsize) :
    (connTcpRecvvNb conn bl size errno (some buf) turns).Reports turns bl ↔
      AllTold turns size bl.room errno := by
  obtain ⟨t, lost, n, hleaves, hexit⟩ := recvvLoop_spec hsized hpossible conn buf errno 0 0
  have hdata : ∀ k < t, (turns k).recv.IsData := fun k hk => (hleaves.stores k hk).2.isData
  show (recvvLoop turns conn bl buf errno 0 size 0).Reports turns bl ↔ _
  rw [Nat.zero_add] at hexit
  exact hleaves.reports_iff.trans ((hexit.tells_iff hsize hpossible hdata).trans
    (hexit.allTold_iff hsize hpossible hmemory hleaves.le_room hdata))

/-- One byte and then the end of the stream. -/
def byteThenEnd : ℕ → RecvvTurn := fun t => ⟨if t = 0 then .data [7] else .eof, true, true⟩

theorem byteThenEnd_possible {size : ℕ} : RecvvPossible byteThenEnd size := by
  intro t ht
  unfold byteThenEnd
  dsimp only
  split
  · refine ⟨Nat.one_pos, ?_⟩
    show 1 ≤ min dataBufsize (size - t * dataBufsize)
    unfold dataBufsize at *
    omega
  · trivial

/-- With `EAGAIN` left over from an earlier call, the byte is reported. -/
theorem recvv_reports_iff_stale :
    (connTcpRecvvNb .fresh (bufferNew 2) 8192 eagain (some blankBuf) byteThenEnd).Reports
      byteThenEnd (bufferNew 2) := by
  refine (recvv_reports_iff (BufferList.sized_bufferNew (by decide)) byteThenEnd_possible
    (by decide) (fun _ => ⟨rfl, rfl⟩) .fresh eagain blankBuf).mpr ⟨fun _ => by decide, ?_⟩
  intro t _ hpos _ _ _
  unfold byteThenEnd
  rw [if_neg hpos.ne']
  exact .inl rfl

/-- Otherwise the caller is told of the end of the stream, and not of the byte before it. -/
theorem recvv_hides :
    (connTcpRecvvNb .fresh (bufferNew 2) 8192 0 (some blankBuf) byteThenEnd).bl.content = [7] ∧
    (connTcpRecvvNb .fresh (bufferNew 2) 8192 0 (some blankBuf) byteThenEnd).ret = 0 ∧
    ¬ (connTcpRecvvNb .fresh (bufferNew 2) 8192 0 (some blankBuf) byteThenEnd).Reports
      byteThenEnd (bufferNew 2) := by
  have hcall : connTcpRecvvNb .fresh (bufferNew 2) 8192 0 (some blankBuf) byteThenEnd
      = ⟨⟨[7], []⟩, (bufferNew 2).appended [7], 2, 0⟩ := by
    show recvvLoop byteThenEnd .fresh (bufferNew 2) blankBuf 0 0 8192 0 = _
    rw [recvvLoop_data (by decide) (show (byteThenEnd 0).recv = .data [7] from rfl) (by decide)
      (by decide)]
    exact recvvLoop_eof (by decide) rfl
  rw [hcall]
  refine ⟨by decide, rfl, ?_⟩
  rintro ⟨appended, hcontent, -, hzero, -⟩
  rw [(hzero rfl).1] at hcontent
  revert hcontent
  decide

end Dungeon
