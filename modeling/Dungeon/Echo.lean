import Dungeon.Conn
import Dungeon.Heart
import Dungeon.Lib.Machine

/-!
# The echo room (`modules/echo/mod.c`)

The imp of one connection, which sends back what it receives. It is entered anew after every
partial send, with a state and two numbers to remember where it was.

- `EchoerMemory`, `echoNew`, `echoDriver`: the imp.
- `echoRuns`: all sequences of calls, whatever the kernel answers and whether or not the
  wait timed out.
- `EchoerMemory.pending`: the bytes that have been received and not yet sent.
- `echo_reflects`: what was received is what was sent and then what is pending.
-/

namespace Dungeon

namespace Echo

/-- `BUFSIZE`. -/
def bufsize : ℕ := 4096

/-- `enum state_en`. -/
inductive State where
  | recv
  | send
  | term
  | ex
  deriving DecidableEq

/-- `struct echoer_memory_st`. -/
structure EchoerMemory where
  conn : Conn
  state : State
  buf : List.Vector UInt8 bufsize
  len : ℤ
  pos : ℤ

/-- `echo_new`. -/
def echoNew (m : EchoerMemory) : EchoerMemory := { m with state := .recv, len := 0, pos := 0 }

/-- What one call meets: `IMP_TIMEDOUT`, the kernel's answers, and whether `imp_set_ioev`
succeeds. -/
structure Call where
  timedOut : Bool
  recv : RecvResult
  send : SendResult
  setIoev : Bool

/-- Wait for the socket, or give up. -/
def waitIoev (setIoev : Bool) : BitVec 32 := if setIoev then toBlock else toTerm

/-- `case ST_RECV`. -/
def driveRecv (m : EchoerMemory) (c : Call) : BitVec 32 × EchoerMemory :=
  if c.timedOut then (toRun, { m with state := .ex })
  else
    let (conn, buf, len) := connTcpRecvNb m.conn m.buf c.recv
    let m := { m with conn := conn, buf := buf, len := len }
    if len = 0 then (toRun, { m with state := .term })
    else if len < 0 then
      if c.recv.again then (waitIoev c.setIoev, m) else (toRun, { m with state := .ex })
    else (toRun, { m with pos := 0, state := .send })

/-- `case ST_SEND`. -/
def driveSend (m : EchoerMemory) (c : Call) : BitVec 32 × EchoerMemory :=
  if c.timedOut then (toRun, { m with state := .ex })
  else
    let (conn, ret) :=
      connTcpSendNb m.conn (Block.fetch m.buf m.pos.toNat m.len.toNat) c.send
    let m := { m with conn := conn }
    if ret ≤ 0 then
      if c.send.again then (waitIoev c.setIoev, m) else (toRun, { m with state := .ex })
    else
      let m := { m with pos := m.pos + ret, len := m.len - ret }
      if m.len ≤ 0 then (toRun, { m with state := .recv })
      else (waitIoev c.setIoev, m)

/-- `echo_driver`. -/
def echoDriver (m : EchoerMemory) (c : Call) : BitVec 32 × EchoerMemory :=
  match m.state with
  | .recv => driveRecv m c
  | .send => driveSend m c
  | .ex => (toRun, { m with state := .term })
  | .term => (toTerm, m)

/-- The kernel's answers fit what the imp asks for. -/
def Call.Possible (c : Call) (m : EchoerMemory) : Prop :=
  (m.state = .recv → c.recv.Possible bufsize) ∧
  (m.state = .send → c.send.Possible m.len.toNat)

instance (c : Call) (m : EchoerMemory) : Decidable (c.Possible m) :=
  inferInstanceAs (Decidable (_ ∧ _))

/-- The runs of an imp on a connection of its own. -/
def echoRuns : Machine EchoerMemory Call where
  init m := ∃ m₀ : EchoerMemory, m₀.conn = .fresh ∧ m = echoNew m₀
  step m c := if c.Possible m then some (echoDriver m c).2 else none

/-! ## The bytes on their way -/

/-- Received and not yet sent. -/
def EchoerMemory.pending (m : EchoerMemory) : List UInt8 :=
  Block.fetch m.buf m.pos.toNat m.len.toNat

/-- In every state the received bytes are the sent ones and the ones on their way. An imp
that gave up keeps them for ever. -/
structure Reflects (m : EchoerMemory) : Prop where
  recv : m.state = .recv → m.conn.received = m.conn.accepted
  send : m.state = .send → m.conn.received = m.conn.accepted ++ m.pending ∧
    0 ≤ m.pos ∧ 0 < m.len ∧ m.pos + m.len ≤ bufsize
  begins : m.conn.accepted <+: m.conn.received

variable {m m' : EchoerMemory} {c : Call}

/-- Giving up keeps the streams. -/
theorem Reflects.stop (hr : Reflects m) {m' : EchoerMemory} (hconn : m'.conn = m.conn)
    (hstate : m'.state = .ex ∨ m'.state = .term) : Reflects m' where
  recv h := by
    rw [h] at hstate
    rcases hstate with hstate | hstate <;> cases hstate
  send h := by
    rw [h] at hstate
    rcases hstate with hstate | hstate <;> cases hstate
  begins := by
    rw [hconn]
    exact hr.begins

theorem Reflects.driveRecv (hr : Reflects m) (hs : m.state = .recv)
    (hc : c.recv.Possible bufsize) : Reflects (driveRecv m c).2 := by
  have hall := hr.recv hs
  unfold Echo.driveRecv
  split
  next => exact hr.stop rfl (.inl rfl)
  next =>
    cases hres : c.recv with
    | eof => exact hr.stop rfl (.inr rfl)
    | error errno =>
      rw [hres] at hc
      have hneg : (-errno : ℤ) < 0 := by
        have : 0 < errno := hc
        omega
      dsimp only [connTcpRecvNb]
      rw [if_neg hneg.ne, if_pos hneg]
      split
      · exact ⟨fun _ => hall, fun h => (by rw [hs] at h; cases h), hr.begins⟩
      · exact hr.stop rfl (.inl rfl)
    | data bytes =>
      rw [hres] at hc
      obtain ⟨hpos, hle⟩ := hc
      dsimp only [connTcpRecvNb]
      rw [if_neg (by omega), if_neg (by omega)]
      have hfetch : Block.fetch (Block.store m.buf bytes) 0 bytes.length = bytes := by
        have hwhole := Block.fetch_store m.buf ((List.append_nil bytes).symm ▸ hle)
        rwa [List.append_nil] at hwhole
      refine ⟨nofun, fun _ => ⟨?_, le_rfl, Int.natCast_pos.mpr hpos, ?_⟩, ?_⟩
      · show m.conn.received ++ bytes = m.conn.accepted ++ Block.fetch _ 0 bytes.length
        rw [hfetch, hall]
      · show (0 : ℤ) + bytes.length ≤ bufsize
        omega
      · exact hr.begins.trans (List.prefix_append _ _)

theorem Reflects.driveSend (hr : Reflects m) (hs : m.state = .send)
    (hc : c.send.Possible m.len.toNat) : Reflects (driveSend m c).2 := by
  obtain ⟨hall, hpos, hlen, hfit⟩ := hr.send hs
  unfold Echo.driveSend
  split
  next => exact hr.stop rfl (.inl rfl)
  next =>
    cases hres : c.send with
    | failed ret errno =>
      rw [hres] at hc
      have hret : ret ≤ 0 := hc
      dsimp only [connTcpSendNb]
      rw [if_pos hret]
      split
      · exact ⟨fun h => (by rw [hs] at h; cases h), fun _ => ⟨hall, hpos, hlen, hfit⟩, hr.begins⟩
      · exact hr.stop rfl (.inl rfl)
    | taken n =>
      rw [hres] at hc
      obtain ⟨hn, hle⟩ := hc
      dsimp only [connTcpSendNb]
      rw [if_neg (by omega)]
      -- the pending bytes are cut where the kernel stopped
      have hsplit := Block.fetch_split m.buf m.pos.toNat n m.len.toNat
      have hmoved : m.conn.received
          = (m.conn.accepted ++ (Block.fetch m.buf m.pos.toNat m.len.toNat).take n)
            ++ Block.fetch m.buf (m.pos + n).toNat (m.len - n).toNat := by
        have hp : (m.pos + n).toNat = m.pos.toNat + n := by omega
        have hl : (m.len - n).toNat = m.len.toNat - n := by omega
        rw [hp, hl, List.append_assoc, hsplit]
        exact hall
      have hbegins : (m.conn.accepted ++ (Block.fetch m.buf m.pos.toNat m.len.toNat).take n)
          <+: m.conn.received := by
        rw [hmoved]
        exact List.prefix_append _ _
      split
      next hdone =>
        have hzero : (m.len - n).toNat = 0 := by omega
        rw [hzero, Block.fetch_zero, List.append_nil] at hmoved
        exact ⟨fun _ => hmoved, nofun, hbegins⟩
      next hmore =>
        refine ⟨fun h => (by rw [hs] at h; cases h), fun _ => ⟨hmoved, ?_, ?_, ?_⟩, hbegins⟩
        · show 0 ≤ m.pos + n
          omega
        · show 0 < m.len - n
          omega
        · show m.pos + n + (m.len - n) ≤ bufsize
          omega

/-- Every call keeps the streams together. -/
theorem Reflects.step (hr : Reflects m) (h : echoRuns.step m c = some m') : Reflects m' := by
  obtain ⟨hc, heq⟩ := Option.ite_none_right_eq_some.mp h
  obtain rfl := Option.some.inj heq
  unfold echoDriver
  cases hs : m.state with
  | recv => exact hr.driveRecv hs (hc.1 hs)
  | send => exact hr.driveSend hs (hc.2 hs)
  | ex => exact hr.stop rfl (.inr rfl)
  | term => exact hr

theorem echoRuns_reflects (h : echoRuns.Reach Machine.Always m) : Reflects m := by
  refine h.invariant ?_ fun _ _ _ _ hr _ hstep => hr.step hstep
  rintro m ⟨m₀, hfresh, rfl⟩
  have hconn : (echoNew m₀).conn = .fresh := hfresh
  refine ⟨fun _ => ?_, nofun, ?_⟩
  · rw [hconn]
    rfl
  · rw [hconn]
    exact List.prefix_rfl

/-- **The echo room reflects the stream.** After any calls the bytes sent are the first of
those received; all of them, whenever the imp is about to receive. While it sends, the rest
lies in its buffer. -/
theorem echo_reflects (h : echoRuns.Reach Machine.Always m) :
    m.conn.accepted <+: m.conn.received ∧
    (m.state = .recv → m.conn.accepted = m.conn.received) ∧
    (m.state = .send → m.conn.received = m.conn.accepted ++ m.pending ∧
      0 ≤ m.pos ∧ 0 < m.len ∧ m.pos + m.len ≤ bufsize) := by
  have hr := echoRuns_reflects h
  exact ⟨hr.begins, fun hs => (hr.recv hs).symm, hr.send⟩

/-- The memory of an imp as it is summoned. -/
def blankMemory : EchoerMemory :=
  ⟨.fresh, .term, ⟨List.replicate bufsize 0, List.length_replicate⟩, 0, 0⟩

/-- Two bytes, sent one at a time with a wait in between. -/
theorem echo_reflects_partialSend :
    ∃ m, echoRuns.Reach Machine.Always m ∧ m.conn.accepted ≠ m.conn.received ∧
      m.conn.accepted <+: m.conn.received := by
  obtain ⟨m, hreach, hm⟩ := Machine.exec_reach (M := echoRuns)
    (show echoRuns.init (echoNew blankMemory) from ⟨_, rfl, rfl⟩)
    (show (echoRuns.exec Machine.Always (echoNew blankMemory)
      [⟨false, .data [7, 8], .failed (-1) eagain, true⟩, ⟨false, .eof, .taken 1, true⟩,
        ⟨false, .eof, .failed (-1) eagain, true⟩]).map
      (fun m => decide (m.conn.accepted ≠ m.conn.received)) = some true by decide +kernel)
  exact ⟨m, hreach, of_decide_eq_true hm, (echo_reflects hreach).1⟩

end Echo

end Dungeon
