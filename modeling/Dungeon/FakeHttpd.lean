import Mathlib.Data.Nat.Digits.Defs
import Dungeon.Conn
import Dungeon.Heart
import Dungeon.Lib.Machine

/-!
# The HTTP room (`modules/fake_httpd/mod.c`)

The imp of one connection. It receives once, and answers with a header that announces as
many bytes as it received and a body of that many bytes of padding. Header and body are sent
in states of their own, a piece at a time.

- `EchoerMemory`, `echoNew`, `echoDriver`: the imp. Every call adds a line to its journal, an
  array that nobody measures: `strcat` past its end has no outcome.
- `httpdRuns`: all sequences of calls, whatever the kernel answers and whether or not a wait
  timed out.
- `Framed`: what was sent is the beginning of a response.
- `response_framed`: it always is, all of it was sent when the imp leaves the state that
  sends the body, and the two counters of what is left never wrap.
-/

namespace Dungeon

namespace FakeHttpd

/-- `BUFSIZE`. -/
def bufsize : ℕ := 4096

/-- `enum state_en`. -/
inductive State where
  | recv
  | prepareHeader
  | sendHeader
  | sendBody
  | term
  | ex
  deriving DecidableEq

/-- The values a `size_t` does not reach. -/
def sizeMod : ℕ := 2 ^ 64

/-- Subtraction on `size_t`. -/
def sizeSub (a b : ℕ) : ℕ := (a + sizeMod - b) % sizeMod

/-- What the array `memoirs` holds: a text, one byte a character, with room for the zero that
ends it. -/
def Memoirs : Type := {text : List Char // text.length < bufsize}

/-- `struct echoer_memory_st`. -/
structure EchoerMemory where
  conn : Conn
  state : State
  length : ℕ
  header : List.Vector UInt8 bufsize
  headerLen : ℕ
  headerPos : ℕ
  memoirs : Memoirs

/-- What `snprintf` leaves of a text in an array of `BUFSIZE` bytes. -/
def snprintf (text : String) : Memoirs :=
  ⟨text.toList.take (bufsize - 1), by
    rw [List.length_take]
    exact (Nat.min_le_left _ _).trans_lt (by decide)⟩

/-- `echo_new`; `impId`, `ipstr`, `port` and `delta` tell the imp, its peer and the time. -/
def echoNew (m : EchoerMemory) (impId : ℤ) (ipstr : String) (port delta : ℤ) : EchoerMemory :=
  { m with
    state := .recv
    length := 0
    memoirs := snprintf ("imp[" ++ toString impId ++ "] for " ++ ipstr ++ ":"
      ++ toString port ++ " (+" ++ toString delta ++ "s)->") }

/-- `padding_data`, with the zero that ends it. -/
def paddingData : List UInt8 := List.replicate 1024 97 ++ [0]

/-- `padding_data_size`. -/
def paddingDataSize : ℕ := 1025

/-- `min`. -/
def minSize (x y : ℕ) : ℕ := if x > y then y else x

/-- The bytes of a text. -/
def textBytes (text : List Char) : List UInt8 := text.map fun c => UInt8.ofNat c.toNat

/-- `fake_http_header_fmt` with a length in it. -/
def headerText (length : ℕ) : List UInt8 :=
  textBytes "HTTP/1.1 200 OK\r\nContent-Type: text/plain; charset=utf-8\r\nContent-Length: ".toList
    ++ textBytes (Nat.toDigits 10 length) ++ textBytes "\r\n\r\n".toList

/-- `buf`, on the stack, which is written and never read. -/
def stackBuf : List.Vector UInt8 bufsize := ⟨List.replicate bufsize 0, List.length_replicate⟩

/-- What one call meets: the bits `IMP_TIMEDOUT` and `IMP_IOERR`, the kernel's answers, the
time and the text of an error. -/
structure Call where
  timedOut : Bool
  ioErr : Bool
  recv : RecvResult
  send : SendResult
  delta : ℤ
  errText : String

/-- `sprintf` of a line into `log`. -/
def stamp (place : String) (c : Call) (text : String) : String :=
  place ++ "[+" ++ toString c.delta ++ "s] " ++ text

/-- `strcat` to the journal. There is no outcome when the line does not fit. -/
def strcat (memoirs : Memoirs) (log : String) : Option Memoirs :=
  if h : (memoirs.val ++ log.toList).length < bufsize then some ⟨memoirs.val ++ log.toList, h⟩
  else none

/-- A line in the journal. -/
def EchoerMemory.note (m : EchoerMemory) (place : String) (c : Call) (text : String) :
    Option EchoerMemory :=
  (strcat m.memoirs (stamp place c text)).map fun memoirs => { m with memoirs := memoirs }

/-- `case ST_RECV`. -/
def driveRecv (m : EchoerMemory) (c : Call) : Option (BitVec 32 × EchoerMemory) :=
  if c.timedOut || c.ioErr then
    (m.note "ST_RECV" c "timed out->").map fun m => (toRun, { m with state := .ex })
  else
    let (conn, _, len) := connTcpRecvNb m.conn stackBuf c.recv
    let m := { m with conn := conn }
    if len = 0 then
      (m.note "ST_RECV" c "EOF->").map fun m => (toRun, { m with state := .term })
    else if len < 0 then
      if c.recv.again then (m.note "ST_RECV" c "sleep->").map fun m => (toBlock, m)
      else
        (m.note "ST_RECV" c ("error: " ++ c.errText ++ "->")).map fun m =>
          (toRun, { m with state := .ex })
    else
      (m.note "ST_RECV" c "OK->").map fun m =>
        (toRun, { m with length := len.toNat % sizeMod, state := .prepareHeader })

/-- `case ST_PREPARE_HEADER`. -/
def drivePrepareHeader (m : EchoerMemory) (c : Call) : Option (BitVec 32 × EchoerMemory) :=
  let text := headerText m.length
  let m := { m with
    header := Block.store m.header (text.take (bufsize - 1) ++ [0])
    headerLen := text.length }
  if m.headerLen = bufsize then
    (m.note "ST_PREPARE_HEADER" c "Header id too long!->").map fun m =>
      (toRun, { m with state := .ex })
  else
    (m.note "ST_PREPARE_HEADER" c "OK->").map fun m =>
      (toRun, { m with headerPos := 0, state := .sendHeader })

/-- `case ST_SEND_HEADER`. -/
def driveSendHeader (m : EchoerMemory) (c : Call) : Option (BitVec 32 × EchoerMemory) :=
  if c.timedOut || c.ioErr then
    (m.note "ST_SEND_HEADER" c "timed out or error->").map fun m =>
      (toRun, { m with state := .ex })
  else
    let (conn, ret) :=
      connTcpSendNb m.conn (Block.fetch m.header m.headerPos m.headerLen) c.send
    let m := { m with conn := conn }
    if ret ≤ 0 then
      if c.send.again then (m.note "ST_SEND_HEADER" c "sleep->").map fun m => (toBlock, m)
      else
        (m.note "ST_SEND_HEADER" c ("error: " ++ c.errText ++ "->")).map fun m =>
          (toRun, { m with state := .ex })
    else
      let m := { m with
        headerPos := (m.headerPos + ret.toNat) % sizeMod
        headerLen := sizeSub m.headerLen ret.toNat }
      if m.headerLen = 0 then
        (m.note "ST_SEND_HEADER" c (toString ret ++ " bytes sent, OK->")).map fun m =>
          (toRun, { m with state := .sendBody })
      else
        (m.note "ST_SEND_HEADER" c (toString ret ++ " bytes sent, again->")).map fun m =>
          (toRun, m)

/-- `case ST_SEND_BODY`. -/
def driveSendBody (m : EchoerMemory) (c : Call) : Option (BitVec 32 × EchoerMemory) :=
  if c.timedOut || c.ioErr then
    (m.note "ST_SEND_BODY" c "timed out or error->").map fun m =>
      (toRun, { m with state := .ex })
  else
    let (conn, ret) :=
      connTcpSendNb m.conn (paddingData.take (minSize paddingDataSize m.length)) c.send
    let m := { m with conn := conn }
    if ret ≤ 0 then
      if c.send.again then (m.note "ST_SEND_BODY" c "sleep->").map fun m => (toBlock, m)
      else
        (m.note "ST_SEND_BODY" c ("error: " ++ c.errText ++ "->")).map fun m =>
          (toRun, { m with state := .ex })
    else
      let m := { m with length := sizeSub m.length ret.toNat }
      if m.length ≤ 0 then
        (m.note "ST_SEND_BODY" c (toString ret ++ " bytes sent, OK->")).map fun m =>
          (toRun, { m with state := .term })
      else
        (m.note "ST_SEND_BODY" c (toString ret ++ " bytes sent, again->")).map fun m =>
          (toRun, m)

/-- `echo_driver`. -/
def echoDriver (m : EchoerMemory) (c : Call) : Option (BitVec 32 × EchoerMemory) :=
  match m.state with
  | .recv => driveRecv m c
  | .prepareHeader => drivePrepareHeader m c
  | .sendHeader => driveSendHeader m c
  | .sendBody => driveSendBody m c
  | .ex =>
    (m.note "ST_Ex" c "Exception happened!").map fun m => (toRun, { m with state := .term })
  | .term => some (toTerm, m)

/-- The kernel's answers fit what the imp asks for. -/
def Call.Possible (c : Call) (m : EchoerMemory) : Prop :=
  (m.state = .recv → c.recv.Possible bufsize) ∧
  (m.state = .sendHeader → c.send.Possible m.headerLen) ∧
  (m.state = .sendBody → c.send.Possible (minSize paddingDataSize m.length))

instance (c : Call) (m : EchoerMemory) : Decidable (c.Possible m) :=
  inferInstanceAs (Decidable (_ ∧ _ ∧ _))

/-- The runs of an imp on a connection of its own. -/
def httpdRuns : Machine EchoerMemory Call where
  init m := ∃ (m₀ : EchoerMemory) (impId : ℤ) (ipstr : String) (port delta : ℤ),
    m₀.conn = .fresh ∧ m = echoNew m₀ impId ipstr port delta
  step m c := if c.Possible m then (echoDriver m c).map Prod.snd else none

/-! ## What has been sent -/

/-- Bytes of padding. -/
def Padding (body : List UInt8) : Prop := ∀ b ∈ body, b ∈ paddingData

/-- The sent bytes begin a response to what was received. -/
def Framed (m : EchoerMemory) : Prop := ∃ body, Padding body ∧
  body.length = m.conn.received.length ∧
  m.conn.accepted <+: headerText m.conn.received.length ++ body

/-- What is behind the imp in each state, and what is left to send. -/
def Progress (m : EchoerMemory) : State → Prop
  | .recv => m.conn.received = [] ∧ m.conn.accepted = []
  | .prepareHeader => m.conn.accepted = [] ∧ m.length = m.conn.received.length ∧
      0 < m.length ∧ m.length ≤ bufsize
  | .sendHeader =>
      m.conn.accepted ++ Block.fetch m.header m.headerPos m.headerLen
        = headerText m.conn.received.length ∧
      0 < m.headerLen ∧ m.headerPos + m.headerLen ≤ bufsize ∧
      m.length = m.conn.received.length ∧ 0 < m.length ∧ m.length ≤ bufsize
  | .sendBody => ∃ body, Padding body ∧
      m.conn.accepted = headerText m.conn.received.length ++ body ∧
      body.length + m.length = m.conn.received.length ∧ 0 < m.length ∧ m.length ≤ bufsize
  | .term | .ex => Framed m

variable {m m' : EchoerMemory} {c : Call} {r : BitVec 32 × EchoerMemory}

theorem padding_replicate (n : ℕ) : Padding (List.replicate n 97) := by
  intro b hb
  rw [List.eq_of_mem_replicate hb]
  decide

theorem padding_append {xs ys : List UInt8} (hx : Padding xs) (hy : Padding ys) :
    Padding (xs ++ ys) := by
  intro b hb
  rcases List.mem_append.mp hb with hb | hb
  · exact hx b hb
  · exact hy b hb

/-- The beginning of a header begins a response. -/
theorem framed_of_header (h : m.conn.accepted <+: headerText m.conn.received.length) :
    Framed m :=
  ⟨List.replicate m.conn.received.length 97, padding_replicate _, List.length_replicate,
    h.trans (List.prefix_append _ _)⟩

/-- A header and the beginning of a body begin a response. -/
theorem framed_of_body {body : List UInt8} {n : ℕ} (hpad : Padding body)
    (hacc : m.conn.accepted = headerText m.conn.received.length ++ body)
    (hlen : body.length + n = m.conn.received.length) : Framed m := by
  refine ⟨body ++ List.replicate n 97, padding_append hpad (padding_replicate n), ?_, ?_⟩
  · rw [List.length_append, List.length_replicate, hlen]
  · rw [hacc, ← List.append_assoc]
    exact List.prefix_append _ _

theorem Progress.framed {s : State} (hp : Progress m s) : Framed m := by
  cases s with
  | recv =>
    refine framed_of_header ?_
    rw [hp.2]
    exact List.nil_prefix
  | prepareHeader =>
    refine framed_of_header ?_
    rw [hp.1]
    exact List.nil_prefix
  | sendHeader =>
    refine framed_of_header ?_
    rw [← hp.1]
    exact List.prefix_append _ _
  | sendBody =>
    obtain ⟨body, hpad, hacc, hlen, -⟩ := hp
    exact framed_of_body hpad hacc hlen
  | term => exact hp
  | ex => exact hp

/-! ## What one call does -/

/-- A call that neither receives nor sends. -/
structure Idle (m m' : EchoerMemory) : Prop where
  conn : m'.conn = m.conn
  length : m'.length = m.length
  header : m'.header = m.header
  headerLen : m'.headerLen = m.headerLen
  headerPos : m'.headerPos = m.headerPos
  state : m'.state = m.state ∨ m'.state = .ex ∨ m'.state = .term

theorem Idle.progress (hi : Idle m m') (hp : Progress m m.state) : Progress m' m'.state := by
  have hframed : Framed m' := by
    unfold Framed
    rw [hi.conn]
    exact hp.framed
  rcases hi.state with hs | hs | hs <;> rw [hs]
  · obtain ⟨hconn, hlength, hheader, hlen, hpos, -⟩ := hi
    cases hm : m.state <;> rw [hm] at hp
    case term => exact hframed
    case ex => exact hframed
    all_goals
      unfold Progress at hp ⊢
      rw [hconn]
      simp only [hlength, hheader, hlen, hpos]
      exact hp
  · exact hframed
  · exact hframed

/-- A line in the journal changes nothing else. -/
theorem note_map {place text : String} {f : EchoerMemory → BitVec 32 × EchoerMemory}
    (h : (m.note place c text).map f = some r) : ∃ t, r = f { m with memoirs := t } := by
  obtain ⟨m₁, hm, rfl⟩ := Option.map_eq_some_iff.mp h
  obtain ⟨t, -, rfl⟩ := Option.map_eq_some_iff.mp hm
  exact ⟨t, rfl⟩

/-- Receiving: idle, or the bytes are counted. -/
theorem driveRecv_cases (hc : c.recv.Possible bufsize) (h : driveRecv m c = some r) :
    Idle m r.2 ∨
    ∃ bytes, 0 < bytes.length ∧ bytes.length ≤ bufsize ∧
      r.2.conn = { m.conn with received := m.conn.received ++ bytes } ∧
      r.2.length = bytes.length ∧ r.2.state = .prepareHeader := by
  unfold driveRecv at h
  split at h
  next =>
    obtain ⟨t, rfl⟩ := note_map h
    exact .inl ⟨rfl, rfl, rfl, rfl, rfl, .inr (.inl rfl)⟩
  next =>
    cases hres : c.recv with
    | eof =>
      rw [hres] at h
      obtain ⟨t, rfl⟩ := note_map h
      exact .inl ⟨rfl, rfl, rfl, rfl, rfl, .inr (.inr rfl)⟩
    | error errno =>
      rw [hres] at hc h
      have hneg : (-errno : ℤ) < 0 := by
        have hpos : 0 < errno := hc
        omega
      dsimp only [connTcpRecvNb] at h
      rw [if_neg hneg.ne, if_pos hneg] at h
      split at h
      next =>
        obtain ⟨t, rfl⟩ := note_map h
        exact .inl ⟨rfl, rfl, rfl, rfl, rfl, .inl rfl⟩
      next =>
        obtain ⟨t, rfl⟩ := note_map h
        exact .inl ⟨rfl, rfl, rfl, rfl, rfl, .inr (.inl rfl)⟩
    | data bytes =>
      rw [hres] at hc h
      obtain ⟨hpos, hle⟩ := hc
      dsimp only [connTcpRecvNb] at h
      rw [if_neg (by omega), if_neg (by omega)] at h
      obtain ⟨t, rfl⟩ := note_map h
      refine .inr ⟨bytes, hpos, hle, rfl, ?_, rfl⟩
      show (bytes.length : ℤ).toNat % sizeMod = bytes.length
      have hsmall : bytes.length < sizeMod := hle.trans_lt (by decide)
      rw [Int.toNat_natCast, Nat.mod_eq_of_lt hsmall]

/-- Decimal numbers of lengths a buffer can have are short. -/
theorem length_headerText {n : ℕ} (hn : n ≤ bufsize) :
    0 < (headerText n).length ∧ (headerText n).length < bufsize := by
  have hdigits : (Nat.toDigits 10 n).length ≤ 4 :=
    Nat.toDigits_length 10 n 4 (by decide) (hn.trans_lt (by decide))
  unfold headerText textBytes
  simp only [List.length_append, List.length_map]
  have hfmt : ("HTTP/1.1 200 OK\r\nContent-Type: text/plain; charset=utf-8\r\nContent-Length: "
      ).toList.length
      = 74 := by decide
  have hend : ("\r\n\r\n").toList.length = 4 := by decide
  rw [hfmt, hend]
  unfold bufsize
  omega

/-- The header is written, whole. -/
theorem drivePrepareHeader_spec (hle : m.length ≤ bufsize)
    (h : drivePrepareHeader m c = some r) :
    r.2.conn = m.conn ∧ r.2.length = m.length ∧
      r.2.headerLen = (headerText m.length).length ∧ r.2.headerPos = 0 ∧
      Block.fetch r.2.header 0 (headerText m.length).length = headerText m.length ∧
      r.2.state = .sendHeader := by
  obtain ⟨-, hlt⟩ := length_headerText hle
  unfold drivePrepareHeader at h
  dsimp only at h
  rw [if_neg hlt.ne] at h
  obtain ⟨t, rfl⟩ := note_map h
  refine ⟨rfl, rfl, rfl, rfl, ?_, rfl⟩
  show Block.fetch (Block.store m.header ((headerText m.length).take (bufsize - 1) ++ [0])) 0
    (headerText m.length).length = headerText m.length
  rw [List.take_of_length_le (Nat.le_sub_one_of_lt hlt)]
  refine Block.fetch_store m.header ?_
  rw [List.length_append]
  exact hlt

theorem sizeSub_eq {a b : ℕ} (hb : b ≤ a) (ha : a ≤ bufsize) : sizeSub a b = a - b := by
  unfold sizeSub
  have hsmall : a - b < sizeMod := (Nat.sub_le a b).trans_lt (ha.trans_lt (by decide))
  rw [show a + sizeMod - b = a - b + sizeMod by omega, Nat.add_mod_right,
    Nat.mod_eq_of_lt hsmall]

/-- Sending the header: idle, or a piece of it goes. -/
theorem driveSendHeader_cases (hc : c.send.Possible m.headerLen)
    (hfit : m.headerPos + m.headerLen ≤ bufsize) (h : driveSendHeader m c = some r) :
    Idle m r.2 ∨
    ∃ n, 0 < n ∧ n ≤ m.headerLen ∧
      r.2.conn = { m.conn with accepted := m.conn.accepted
        ++ (Block.fetch m.header m.headerPos m.headerLen).take n } ∧
      r.2.length = m.length ∧ r.2.header = m.header ∧
      r.2.headerLen = m.headerLen - n ∧ r.2.headerPos = m.headerPos + n ∧
      r.2.state = if m.headerLen - n = 0 then .sendBody else m.state := by
  unfold driveSendHeader at h
  split at h
  next =>
    obtain ⟨t, rfl⟩ := note_map h
    exact .inl ⟨rfl, rfl, rfl, rfl, rfl, .inr (.inl rfl)⟩
  next =>
    cases hres : c.send with
    | failed ret errno =>
      rw [hres] at hc h
      have hret : ret ≤ 0 := hc
      dsimp only [connTcpSendNb] at h
      rw [if_pos hret] at h
      split at h
      next =>
        obtain ⟨t, rfl⟩ := note_map h
        exact .inl ⟨rfl, rfl, rfl, rfl, rfl, .inl rfl⟩
      next =>
        obtain ⟨t, rfl⟩ := note_map h
        exact .inl ⟨rfl, rfl, rfl, rfl, rfl, .inr (.inl rfl)⟩
    | taken n =>
      rw [hres] at hc h
      obtain ⟨hn, hle⟩ := hc
      have hpos : (m.headerPos + n) % sizeMod = m.headerPos + n :=
        Nat.mod_eq_of_lt (lt_of_le_of_lt (by omega) (show bufsize < sizeMod by decide))
      dsimp only [connTcpSendNb] at h
      rw [if_neg (by omega), Int.toNat_natCast, sizeSub_eq hle (by omega), hpos] at h
      refine .inr ⟨n, hn, hle, ?_⟩
      by_cases hdone : m.headerLen - n = 0
      · rw [if_pos hdone] at h ⊢
        obtain ⟨t, rfl⟩ := note_map h
        exact ⟨rfl, rfl, rfl, rfl, rfl, rfl⟩
      · rw [if_neg hdone] at h ⊢
        obtain ⟨t, rfl⟩ := note_map h
        exact ⟨rfl, rfl, rfl, rfl, rfl, rfl⟩

/-- Sending the body: idle, or a piece of the padding goes. -/
theorem driveSendBody_cases (hs : m.state = .sendBody)
    (hc : c.send.Possible (minSize paddingDataSize m.length)) (hle : m.length ≤ bufsize)
    (h : driveSendBody m c = some r) :
    (Idle m r.2 ∧ r.2.state ≠ .term) ∨
    ∃ n, 0 < n ∧ n ≤ m.length ∧
      r.2.conn = { m.conn with accepted := m.conn.accepted ++ paddingData.take n } ∧
      (paddingData.take n).length = n ∧
      r.2.length = m.length - n ∧ r.2.headerLen = m.headerLen ∧
      r.2.state = if m.length - n = 0 then .term else .sendBody := by
  unfold driveSendBody at h
  split at h
  next =>
    obtain ⟨t, rfl⟩ := note_map h
    exact .inl ⟨⟨rfl, rfl, rfl, rfl, rfl, .inr (.inl rfl)⟩, nofun⟩
  next =>
    cases hres : c.send with
    | failed ret errno =>
      rw [hres] at hc h
      have hret : ret ≤ 0 := hc
      dsimp only [connTcpSendNb] at h
      rw [if_pos hret] at h
      split at h
      next =>
        obtain ⟨t, rfl⟩ := note_map h
        refine .inl ⟨⟨rfl, rfl, rfl, rfl, rfl, .inl rfl⟩, ?_⟩
        show m.state ≠ .term
        rw [hs]
        nofun
      next =>
        obtain ⟨t, rfl⟩ := note_map h
        exact .inl ⟨⟨rfl, rfl, rfl, rfl, rfl, .inr (.inl rfl)⟩, nofun⟩
    | taken n =>
      rw [hres] at hc h
      obtain ⟨hn, hmin⟩ := hc
      -- the block and what is left both bound what was offered
      obtain ⟨hblock, hleft⟩ : n ≤ 1025 ∧ n ≤ m.length := by
        unfold minSize paddingDataSize at hmin
        split at hmin <;> omega
      have hcut : (paddingData.take (minSize paddingDataSize m.length)).take n
          = paddingData.take n := by
        rw [List.take_take, Nat.min_eq_left hmin]
      have hlen : (paddingData.take n).length = n := by
        rw [List.length_take]
        unfold paddingData
        rw [List.length_append, List.length_replicate, List.length_singleton]
        omega
      dsimp only [connTcpSendNb] at h
      rw [if_neg (by omega), Int.toNat_natCast, sizeSub_eq hleft hle, hcut] at h
      refine .inr ⟨n, hn, hleft, ?_⟩
      by_cases hdone : m.length - n = 0
      · rw [if_pos hdone.le] at h
        obtain ⟨t, rfl⟩ := note_map h
        rw [if_pos hdone]
        exact ⟨rfl, hlen, rfl, rfl, rfl⟩
      · rw [if_neg (fun h => hdone (Nat.le_zero.mp h))] at h
        obtain ⟨t, rfl⟩ := note_map h
        rw [if_neg hdone]
        exact ⟨rfl, hlen, rfl, rfl, hs⟩

/-! ## Runs -/

/-- Receiving fixes the length of the body. -/
theorem Progress.driveRecv (hp : Progress m m.state) (hs : m.state = .recv)
    (hc : c.recv.Possible bufsize) (h : FakeHttpd.driveRecv m c = some r) :
    Progress r.2 r.2.state := by
  rcases driveRecv_cases hc h with hidle | ⟨bytes, hpos, hle, hconn, hlen, hst⟩
  · exact hidle.progress hp
  · rw [hs] at hp
    obtain ⟨hreceived, haccepted⟩ := hp
    rw [hst]
    refine ⟨?_, ?_, ?_, ?_⟩
    · rw [hconn]
      exact haccepted
    · rw [hconn, hlen, hreceived]
      rfl
    · rw [hlen]
      exact hpos
    · rw [hlen]
      exact hle

/-- The header announces what was received, and all of it is left to send. -/
theorem Progress.drivePrepareHeader (hp : Progress m .prepareHeader)
    (h : FakeHttpd.drivePrepareHeader m c = some r) : Progress r.2 r.2.state := by
  obtain ⟨haccepted, hlength, hpos, hle⟩ := hp
  obtain ⟨hconn, hlen, hheader, hhpos, hfetch, hst⟩ := drivePrepareHeader_spec hle h
  obtain ⟨htext, hshort⟩ := length_headerText hle
  rw [hst]
  refine ⟨?_, ?_, ?_, ?_, ?_, ?_⟩
  · rw [hconn, haccepted, hhpos, hheader, hfetch, ← hlength]
    rfl
  · rw [hheader]
    exact htext
  · rw [hhpos, hheader, Nat.zero_add]
    exact hshort.le
  · rw [hconn, hlen]
    exact hlength
  · rw [hlen]
    exact hpos
  · rw [hlen]
    exact hle

/-- A piece of the header is sent. -/
theorem Progress.driveSendHeader (hp : Progress m m.state) (hs : m.state = .sendHeader)
    (hc : c.send.Possible m.headerLen) (h : FakeHttpd.driveSendHeader m c = some r) :
    Progress r.2 r.2.state := by
  have hall := hp
  rw [hs] at hall
  obtain ⟨htext, hleft, hfit, hlength, hpos, hle⟩ := hall
  rcases driveSendHeader_cases hc hfit h with
    hidle | ⟨n, hn, hnle, hconn, hlen, hheader, hhlen, hhpos, hst⟩
  · exact hidle.progress hp
  -- the header is cut where the kernel stopped
  have hsplit := Block.fetch_split m.header m.headerPos n m.headerLen
  rw [← hsplit, ← List.append_assoc] at htext
  rw [hst]
  split
  next hdone =>
    -- nothing of the header is left: the body begins, with nothing of it sent
    rw [hdone, Block.fetch_zero, List.append_nil] at htext
    refine ⟨[], nofun, ?_, ?_, ?_, ?_⟩
    · rw [hconn, List.append_nil]
      exact htext
    · rw [hconn, hlen, List.length_nil, Nat.zero_add]
      exact hlength
    · rw [hlen]
      exact hpos
    · rw [hlen]
      exact hle
  next hmore =>
    rw [hs]
    refine ⟨?_, ?_, ?_, ?_, ?_, ?_⟩
    · rw [hconn, hheader, hhpos, hhlen]
      exact htext
    · rw [hhlen]
      exact Nat.pos_of_ne_zero hmore
    · rw [hhpos, hhlen]
      omega
    · rw [hconn, hlen]
      exact hlength
    · rw [hlen]
      exact hpos
    · rw [hlen]
      exact hle

/-- A piece of the body is sent. -/
theorem Progress.driveSendBody (hp : Progress m m.state) (hs : m.state = .sendBody)
    (hc : c.send.Possible (minSize paddingDataSize m.length))
    (h : FakeHttpd.driveSendBody m c = some r) : Progress r.2 r.2.state := by
  have hall := hp
  rw [hs] at hall
  obtain ⟨body, hpad, haccepted, hlength, hpos, hle⟩ := hall
  rcases driveSendBody_cases hs hc hle h with
    ⟨hidle, -⟩ | ⟨n, hn, hnle, hconn, hcut, hlen, -, hst⟩
  · exact hidle.progress hp
  have hmore : Padding (body ++ paddingData.take n) :=
    padding_append hpad fun b hb => List.mem_of_mem_take hb
  have hacc : r.2.conn.accepted
      = headerText r.2.conn.received.length ++ (body ++ paddingData.take n) := by
    rw [hconn, ← List.append_assoc, ← haccepted]
  have hcount : (body ++ paddingData.take n).length + (m.length - n)
      = r.2.conn.received.length := by
    rw [hconn, List.length_append, hcut, ← hlength]
    omega
  rw [hst]
  split
  next => exact framed_of_body hmore hacc hcount
  next hrest =>
    refine ⟨_, hmore, hacc, ?_, ?_, ?_⟩
    · rw [hlen]
      exact hcount
    · rw [hlen]
      exact Nat.pos_of_ne_zero hrest
    · rw [hlen]
      omega

/-- A step is a call that the kernel can answer so, and that has an outcome. -/
theorem httpdRuns_step (h : httpdRuns.step m c = some m') :
    c.Possible m ∧ ∃ r, echoDriver m c = some r ∧ r.2 = m' := by
  obtain ⟨hc, heq⟩ := Option.ite_none_right_eq_some.mp h
  exact ⟨hc, Option.map_eq_some_iff.mp heq⟩

/-- One call keeps what is behind the imp and what is left together. -/
theorem Progress.step (hp : Progress m m.state) (hc : c.Possible m)
    (h : echoDriver m c = some r) : Progress r.2 r.2.state := by
  unfold echoDriver at h
  cases hs : m.state with
  | recv =>
    rw [hs] at h
    exact hp.driveRecv hs (hc.1 hs) h
  | prepareHeader =>
    rw [hs] at hp h
    exact hp.drivePrepareHeader h
  | sendHeader =>
    rw [hs] at h
    exact hp.driveSendHeader hs (hc.2.1 hs) h
  | sendBody =>
    rw [hs] at h
    exact hp.driveSendBody hs (hc.2.2 hs) h
  | ex =>
    rw [hs] at h
    obtain ⟨t, rfl⟩ := note_map h
    exact hp.framed
  | term =>
    rw [hs] at h
    obtain rfl := Option.some.inj h
    exact hp

theorem httpdRuns_progress (h : httpdRuns.Reach Machine.Always m) : Progress m m.state := by
  refine h.invariant (I := fun m => Progress m m.state) ?_ ?_
  case refine_2 =>
    intro m c m' _ hp _ hstep
    obtain ⟨hc, r, hr, rfl⟩ := httpdRuns_step hstep
    exact hp.step hc hr
  rintro m ⟨m₀, impId, ipstr, port, delta, hfresh, rfl⟩
  have hconn : (echoNew m₀ impId ipstr port delta).conn = .fresh := hfresh
  show Progress (echoNew m₀ impId ipstr port delta) .recv
  constructor
  · rw [hconn]
    rfl
  · rw [hconn]
    rfl

/-- What is accepted of the header is taken off what is left of it. -/
theorem sendHeader_accounts (hp : Progress m .sendHeader)
    (hc : c.send.Possible m.headerLen) (h : driveSendHeader m c = some r) :
    r.2.conn.received = m.conn.received ∧
      r.2.headerLen + r.2.conn.accepted.length = m.headerLen + m.conn.accepted.length := by
  obtain ⟨-, -, hfit, -⟩ := hp
  rcases driveSendHeader_cases hc hfit h with hidle | ⟨n, hn, hnle, hconn, -, -, hhlen, -, -⟩
  · rw [hidle.conn, hidle.headerLen]
    exact ⟨rfl, rfl⟩
  · have hcut : ((Block.fetch m.header m.headerPos m.headerLen).take n).length = n := by
      rw [List.length_take, Block.length_fetch m.header hfit, Nat.min_eq_left hnle]
    rw [hconn, hhlen]
    refine ⟨rfl, ?_⟩
    rw [List.length_append, hcut]
    omega

/-- What is accepted of the body is taken off what is left of it, and nothing is left when
the sending ends. -/
theorem sendBody_accounts (hp : Progress m .sendBody) (hs : m.state = .sendBody)
    (hc : c.send.Possible (minSize paddingDataSize m.length))
    (h : driveSendBody m c = some r) :
    r.2.conn.received = m.conn.received ∧
      r.2.length + r.2.conn.accepted.length = m.length + m.conn.accepted.length ∧
      (r.2.state = .term → ∃ body, Padding body ∧ body.length = m.conn.received.length ∧
        r.2.conn.accepted = headerText m.conn.received.length ++ body) := by
  obtain ⟨body, hpad, haccepted, hlength, hpos, hle⟩ := hp
  rcases driveSendBody_cases hs hc hle h with
    ⟨hidle, hnot⟩ | ⟨n, hn, hnle, hconn, hcut, hlen, -, hst⟩
  · rw [hidle.conn, hidle.length]
    exact ⟨rfl, rfl, fun hterm => absurd hterm hnot⟩
  · rw [hconn, hlen]
    refine ⟨rfl, ?_, fun hterm => ?_⟩
    · rw [List.length_append, hcut]
      omega
    · -- the last piece is the one that brings the counter to zero
      have hdone : m.length - n = 0 := by
        by_contra hmore
        rw [if_neg hmore] at hst
        exact absurd (hst.symm.trans hterm) nofun
      refine ⟨body ++ paddingData.take n,
        padding_append hpad fun b hb => List.mem_of_mem_take hb, ?_, ?_⟩
      · rw [List.length_append, hcut]
        omega
      · rw [← List.append_assoc, ← haccepted]

/-- **The response is framed.** After any calls the bytes sent begin a header that announces
as many bytes as were received, which happens at most once, and a body of so many bytes of
padding. A call that ends the sending of the body has sent all of it. While header or body
are sent, the counter of what is left goes down by what is accepted, so it never wraps. (A
call whose line leaves the journal has no outcome.) -/
theorem response_framed (h : httpdRuns.Reach Machine.Always m) :
    Framed m ∧ (m.state = .recv → m.conn.received = []) ∧
    ∀ c m', httpdRuns.step m c = some m' →
      (m.state ≠ .recv → m'.conn.received = m.conn.received) ∧
      (m.state = .sendHeader →
        m'.headerLen + m'.conn.accepted.length = m.headerLen + m.conn.accepted.length) ∧
      (m.state = .sendBody →
        m'.length + m'.conn.accepted.length = m.length + m.conn.accepted.length) ∧
      (m.state = .sendBody → m'.state = .term → ∃ body, Padding body ∧
        body.length = m.conn.received.length ∧
        m'.conn.accepted = headerText m.conn.received.length ++ body) := by
  have hp := httpdRuns_progress h
  refine ⟨hp.framed, fun hs => ?_, fun c m' hstep => ?_⟩
  · rw [hs] at hp
    exact hp.1
  obtain ⟨hc, r, hr, rfl⟩ := httpdRuns_step hstep
  unfold echoDriver at hr
  cases hs : m.state with
  | recv => exact ⟨fun h => absurd rfl h, nofun, nofun, nofun⟩
  | prepareHeader =>
    rw [hs] at hp hr
    obtain ⟨hconn, -⟩ := drivePrepareHeader_spec hp.2.2.2 hr
    exact ⟨fun _ => congrArg Conn.received hconn, nofun, nofun, nofun⟩
  | sendHeader =>
    rw [hs] at hp hr
    obtain ⟨hreceived, haccount⟩ := sendHeader_accounts hp (hc.2.1 hs) hr
    exact ⟨fun _ => hreceived, fun _ => haccount, nofun, nofun⟩
  | sendBody =>
    rw [hs] at hp hr
    obtain ⟨hreceived, haccount, hdone⟩ := sendBody_accounts hp hs (hc.2.2 hs) hr
    exact ⟨fun _ => hreceived, nofun, fun _ => haccount, fun _ => hdone⟩
  | ex =>
    rw [hs] at hr
    obtain ⟨t, rfl⟩ := note_map hr
    exact ⟨fun _ => rfl, nofun, nofun, nofun⟩
  | term =>
    rw [hs] at hr
    obtain rfl := Option.some.inj hr
    exact ⟨fun _ => rfl, nofun, nofun, nofun⟩

/-- The memory of an imp as it is summoned. -/
def blankMemory : EchoerMemory := ⟨.fresh, .term, 0, stackBuf, 0, 0, snprintf ""⟩

/-- A request of two bytes; the header goes in two pieces with a wait in between, the body in
one. -/
theorem response_framed_twoPieces :
    ∃ m, httpdRuns.Reach Machine.Always m ∧ m.state = .term ∧ m.conn.received.length = 2 ∧
      Framed m := by
  obtain ⟨m, hreach, hm⟩ := Machine.exec_reach (M := httpdRuns)
    (show httpdRuns.init (echoNew blankMemory 1 "10.0.0.1" 80 0) from
      ⟨_, 1, "10.0.0.1", 80, 0, rfl, rfl⟩)
    (show (httpdRuns.exec Machine.Always (echoNew blankMemory 1 "10.0.0.1" 80 0)
      [⟨false, false, .data [7, 8], .failed (-1) eagain, 0, ""⟩,
        ⟨false, false, .eof, .failed (-1) eagain, 0, ""⟩,
        ⟨false, false, .eof, .taken 70, 0, ""⟩,
        ⟨false, false, .eof, .failed (-1) eagain, 0, ""⟩,
        ⟨false, false, .eof, .taken 9, 0, ""⟩,
        ⟨false, false, .eof, .taken 2, 0, ""⟩]).map
      (fun m => decide (m.state = .term ∧ m.conn.received.length = 2)) = some true
      by decide +kernel)
  obtain ⟨hstate, hlength⟩ := of_decide_eq_true hm
  exact ⟨m, hreach, hstate, hlength, (response_framed hreach).1⟩

end FakeHttpd

end Dungeon
