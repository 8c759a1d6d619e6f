import ZiModem.Hal.CInt
import ZiModem.Reactive.Accounting

/-! # The TCP socket of the HAL

`TcpSocket` over the kernel's end of one connection, on the POSIX branch of the
source. Every system call takes its outcome as an argument, so a run may meet
any sequence of short reads, spurious blocks and failures; an outcome the
kernel cannot produce (more bytes than are queued or asked for) is not enabled.
-/

namespace ZiModem.Hal.Net

/-! ## The kernel's end of a connection -/

inductive Peer
  | up
  | closed
  | reset
  deriving DecidableEq, Repr

/-- One connection: the bytes received and not yet handed over, the far end, and whether the last
failed call left `EWOULDBLOCK` or `EAGAIN` in `errno`. -/
structure Conn where
  queued : List UInt8
  peer : Peer
  errnoBlocks : Bool
  deriving DecidableEq, Repr

/-- The outcome of one `recv`. A hard error may come with the loss of what is still queued. -/
inductive Recv
  | data (n : Nat)
  | wouldBlock
  | closed
  | hardError (discard : Bool)
  deriving DecidableEq, Repr

namespace Conn

/-- A consuming `recv` of at most `len` bytes: the connection afterwards, the returned `ssize_t`
and the bytes handed over. -/
def recv (c : Conn) (len : Nat) : Recv → Option (Conn × Int × List UInt8)
  | .data n =>
      if 0 < n ∧ n ≤ len ∧ n ≤ c.queued.length then
        some ({ c with queued := c.queued.drop n }, n, c.queued.take n)
      else none
  | .wouldBlock => some ({ c with errnoBlocks := true }, -1, [])
  | .closed => some (c, 0, [])
  | .hardError discard =>
      some ({ c with queued := if discard then [] else c.queued, errnoBlocks := false }, -1, [])

/-- `recv` of one byte with `MSG_PEEK`, which hands nothing over. -/
def recvPeek (c : Conn) : Recv → Option (Conn × Int)
  | .data n => if n = 1 ∧ c.queued ≠ [] then some (c, 1) else none
  | .wouldBlock => some ({ c with errnoBlocks := true }, -1)
  | .closed => some (c, 0)
  | .hardError discard =>
      some ({ c with queued := if discard then [] else c.queued, errnoBlocks := false }, -1)

/-- `bytes_available_native`: `FIONREAD`, or 0 where the `ioctl` fails. -/
def bytesAvailableNative (c : Conn) (ioctlOk : Bool) : Int :=
  if ioctlOk then toInt c.queued.length else 0

end Conn

/-! ## The socket -/

/-- `TcpSocket`: the native handle (`none` is `kInvalid`) and the byte pushed back by
`peek_byte` (`none` is `-1`). -/
structure TcpSocket where
  handle : Option Nat
  peeked : Option UInt8
  deriving DecidableEq, Repr

/-- What a call of `read` leaves behind: the value it returns, the bytes it stored from `buf[0]`
on, and the bytes its `recv` handed over. -/
structure ReadResult where
  sock : TcpSocket
  conn : Conn
  ret : Int
  buf : List UInt8
  handed : List UInt8
  deriving DecidableEq, Repr

namespace TcpSocket

/-- `TcpSocket::TcpSocket`. -/
def closed : TcpSocket := ⟨none, none⟩

/-- A socket that `connect` or `adopt` has just given a native handle. -/
def opened (native : Nat) : TcpSocket := ⟨some native, none⟩

def isOpen (s : TcpSocket) : Bool := s.handle.isSome

/-- `TcpSocket::close`, without the effect on the native handle. -/
def close (_ : TcpSocket) : TcpSocket := closed

/-- `TcpSocket::connect`: the old connection is closed first; `native` is the handle of a
connection that name resolution, `socket` and `::connect` all made possible. -/
def connect (s : TcpSocket) : (native : Option Nat) → TcpSocket × Bool
  | none => (s.close, false)
  | some h => ({ s.close with handle := some h }, true)

/-- The part of `read` from `recv` on, after `written` bytes were taken from the pushback. -/
def readRecv (s : TcpSocket) (c : Conn) (written : List UInt8) (len : Nat) (r : Recv) :
    Option ReadResult :=
  match c.recv (len - written.length) r with
  | none => none
  | some (c', ssize, bytes) =>
      let n := toInt ssize
      let ret :=
        if 0 < n then toInt (written.length + n)
        else if n = 0 then
          if 0 < written.length then written.length else -1  -- orderly peer close
        else if c'.errnoBlocks then written.length else -1
      some ⟨s, c', ret, written ++ bytes, bytes⟩

def read (s : TcpSocket) (c : Conn) (len : Nat) (r : Recv) : Option ReadResult :=
  if s.isOpen = false ∨ len = 0 then some ⟨s, c, 0, [], []⟩
  else
    match s.peeked with
    | some b =>
        let s' := { s with peeked := none }
        if len = 1 then some ⟨s', c, 1, [b], []⟩ else readRecv s' c [b] len r
    | none => readRecv s c [] len r

/-- `TcpSocket::peek_byte`: the socket, the connection, the returned value and the bytes that
`recv` handed over. -/
def peekByte (s : TcpSocket) (c : Conn) (r : Recv) :
    Option (TcpSocket × Conn × Int × List UInt8) :=
  match s.peeked with
  | some b => some (s, c, b.toNat, [])
  | none =>
      match s.read c 1 r with
      | none => none
      | some res =>
          match res.buf with
          | b :: _ =>
              if res.ret = 1 then
                some ({ res.sock with peeked := some b }, res.conn, b.toNat, res.handed)
              else some (res.sock, res.conn, -1, res.handed)
          | [] => some (res.sock, res.conn, -1, res.handed)

def available (s : TcpSocket) (c : Conn) (ioctlOk : Bool) : Int :=
  if s.isOpen = false then 0
  else c.bytesAvailableNative ioctlOk + if s.peeked.isSome then 1 else 0

def connected (s : TcpSocket) (c : Conn) (r : Recv) : Option (Conn × Bool) :=
  if s.isOpen = false then some (c, false)
  else
    match c.recvPeek r with
    | none => none
    | some (c', n) =>
        if n = 0 then some (c', false)
        else if n < 0 ∧ c'.errnoBlocks = false then some (c', false)
        else some (c', true)

/-! ## What one call can do -/

def pushback (s : TcpSocket) : List UInt8 := s.peeked.toList

@[simp] theorem pushback_some (h : Option Nat) (b : UInt8) : pushback ⟨h, some b⟩ = [b] := rfl

@[simp] theorem pushback_none (h : Option Nat) : pushback ⟨h, none⟩ = [] := rfl

end TcpSocket

/-- `recv` by outcome: the only ways in which it changes the connection. -/
theorem Conn.recv_cases {c c' : Conn} {len : Nat} {r : Recv} {ssize : Int} {bytes : List UInt8}
    (h : c.recv len r = some (c', ssize, bytes)) :
    (∃ n, r = .data n ∧ 0 < n ∧ n ≤ len ∧ ssize = n ∧ bytes.length = n ∧
      c.queued = bytes ++ c'.queued ∧ c'.errnoBlocks = c.errnoBlocks) ∨
    (r = .wouldBlock ∧ ssize = -1 ∧ bytes = [] ∧ c'.errnoBlocks = true ∧ c'.queued = c.queued) ∨
    (r = .closed ∧ ssize = 0 ∧ bytes = [] ∧ c' = c) ∨
    (∃ d, r = .hardError d ∧ ssize = -1 ∧ bytes = [] ∧ c'.errnoBlocks = false) := by
  cases r with
  | data n =>
      simp only [Conn.recv] at h
      split at h
      next hn =>
        cases h
        exact .inl ⟨n, rfl, hn.1, hn.2.1, rfl, by simp [hn.2.2],
          (List.take_append_drop n c.queued).symm, rfl⟩
      next => cases h
  | wouldBlock => cases h; exact .inr (.inl ⟨rfl, rfl, rfl, rfl, rfl⟩)
  | closed => cases h; exact .inr (.inr (.inl ⟨rfl, rfl, rfl, rfl⟩))
  | hardError d => cases h; exact .inr (.inr (.inr ⟨d, rfl, rfl, rfl, rfl⟩))

end ZiModem.Hal.Net
