import Mathlib.Data.Int.Notation
import Dungeon.Lib.Block

/-!
# TCP connections (`util_conn_tcp.c`)

The non-blocking calls on a connected socket. The kernel is outside the program: what `recv`
and `send` answer is a parameter, and any answer is allowed that they can give to what they
were asked for.

- `Conn`: a connection, as the two streams of its socket. The byte counts and times the
  source keeps in it are read by no modelled function.
- `RecvResult`, `SendResult`: the answers of the kernel, with `errno`.
- `connTcpRecvNb`, `connTcpSendNb`: the calls.
-/

namespace Dungeon

/-- `EINTR`. -/
def eintr : ℕ := 4

/-- `EAGAIN`. -/
def eagain : ℕ := 11

/-- What a socket has delivered and what it has accepted so far. -/
structure Conn where
  received : List UInt8
  accepted : List UInt8

/-- A connection nothing has been read from or written to. -/
def Conn.fresh : Conn := ⟨[], []⟩

/-- What `recv` answers. -/
inductive RecvResult where
  | data (bytes : List UInt8)
  | eof
  | error (errno : ℕ)

/-- The answers to a request for up to `size` bytes. -/
def RecvResult.Possible (size : ℕ) : RecvResult → Prop
  | .data bytes => 0 < bytes.length ∧ bytes.length ≤ size
  | .eof => True
  | .error errno => 0 < errno

/-- What `send` answers: how many bytes it took, or a result that is not positive. -/
inductive SendResult where
  | taken (n : ℕ)
  | failed (ret : ℤ) (errno : ℕ)

/-- The answers to an offer of `size` bytes. -/
def SendResult.Possible (size : ℕ) : SendResult → Prop
  | .taken n => 0 < n ∧ n ≤ size
  | .failed ret _ => ret ≤ 0

instance (size : ℕ) : (res : RecvResult) → Decidable (res.Possible size)
  | .data bytes => inferInstanceAs (Decidable (0 < bytes.length ∧ bytes.length ≤ size))
  | .eof => isTrue trivial
  | .error errno => inferInstanceAs (Decidable (0 < errno))

instance (size : ℕ) : (res : SendResult) → Decidable (res.Possible size)
  | .taken n => inferInstanceAs (Decidable (0 < n ∧ n ≤ size))
  | .failed ret _ => inferInstanceAs (Decidable (ret ≤ 0))

/-- Whether a call failed with `EAGAIN`. -/
def RecvResult.again : RecvResult → Bool
  | .error errno => errno = eagain
  | .data _ | .eof => false

/-- Whether a call failed with `EAGAIN`. -/
def SendResult.again : SendResult → Bool
  | .failed _ errno => errno = eagain
  | .taken _ => false

/-- `conn_tcp_recv_nb`: the connection, the buffer and the return value. -/
def connTcpRecvNb {size : ℕ} (conn : Conn) (buf : List.Vector UInt8 size) :
    RecvResult → Conn × List.Vector UInt8 size × ℤ
  | .data bytes =>
    ({ conn with received := conn.received ++ bytes }, Block.store buf bytes, bytes.length)
  | .eof => (conn, buf, 0)
  | .error errno => (conn, buf, -errno)

/-- `conn_tcp_send_nb` with the bytes it is given: the connection and the return value. -/
def connTcpSendNb (conn : Conn) (bytes : List UInt8) : SendResult → Conn × ℤ
  | .taken n => ({ conn with accepted := conn.accepted ++ bytes.take n }, n)
  | .failed ret _ => (conn, ret)

end Dungeon
