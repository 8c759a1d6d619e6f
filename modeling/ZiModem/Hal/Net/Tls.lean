import ZiModem.Hal.Net.TcpSocket

/-! # The TLS socket of the HAL

`TlsSocket` with mbedTLS as an oracle: each call into the library takes its
result as an argument, so a run may meet any sequence of records, retries,
orderly ends and errors. The polling loops of `connect` and `write` consume a
list of results, each with the answer of the clock asked after it; a list that
ends before the loop does describes no call.
-/

namespace ZiModem.Hal.Net

open Reactive

/-! ## What mbedTLS answers -/

def recordMax : Nat := 1536

structure Record where
  bytes : List UInt8
  nonempty : bytes ≠ []
  fits : bytes.length ≤ recordMax
  deriving DecidableEq, Repr

/-- `mbedtls_ssl_read`: a record, a retry, or the end of the session (0, a close notification or
an error code). -/
inductive SslRead
  | plaintext (record : Record)
  | wantRead
  | wantWrite
  | stopped (code : Int)
  deriving DecidableEq, Repr

inductive SslWrite
  | accepted (n : Nat)
  | wantRead
  | wantWrite
  | stopped (code : Int)
  deriving DecidableEq, Repr

def SslWrite.Wants : SslWrite → Prop
  | .wantRead | .wantWrite => True
  | _ => False

instance : DecidablePred SslWrite.Wants
  | .wantRead => .isTrue trivial
  | .wantWrite => .isTrue trivial
  | .accepted _ => .isFalse id
  | .stopped _ => .isFalse id

inductive SslHandshake
  | done
  | wantRead
  | wantWrite
  | failed (code : Int)
  deriving DecidableEq, Repr

/-- What one `TlsSocket::connect` meets: the TCP connect, the seeding, the configuration and the
set-up of the context, then the handshake results with "the deadline has passed". -/
structure ConnectOracle where
  native : Option Nat
  seeded : Bool
  configured : Bool
  setUp : Bool
  handshake : List (SslHandshake × Bool)
  deriving DecidableEq, Repr

/-! ## The socket -/

/-- `TlsSocketImpl`, without the mbedTLS contexts. -/
structure TlsSocket where
  tcp : TcpSocket
  rx : List UInt8
  rxpos : Nat
  handshaked : Bool
  fatal : Bool
  deriving DecidableEq, Repr

namespace TlsSocket

/-- `TlsSocket::TlsSocket`. -/
def fresh : TlsSocket := ⟨.closed, [], 0, false, false⟩

def unread (s : TlsSocket) : List UInt8 := s.rx.drop s.rxpos

/-- `pump`, with the `mbedtls_ssl_read` it made, if it made one. -/
def pump (s : TlsSocket) (r : SslRead) : TlsSocket × Option SslRead :=
  if s.rxpos < s.rx.length ∨ s.fatal = true then (s, none)
  else
    let s' := { s with rx := [], rxpos := 0 }
    match r with
    | .plaintext record => ({ s' with rx := record.bytes }, some r)
    | .wantRead => (s', some r)
    | .wantWrite => (s', some r)
    | .stopped _ => ({ s' with fatal := true }, some r)

/-- The handshake loop of `connect`: `none` if the results end before the loop does. -/
def handshakeLoop : List (SslHandshake × Bool) → Option Bool
  | [] => none
  | (.done, _) :: _ => some true
  | (.failed _, _) :: _ => some false
  | (.wantRead, late) :: rest => if late then some false else handshakeLoop rest
  | (.wantWrite, late) :: rest => if late then some false else handshakeLoop rest

def connect (s : TlsSocket) (o : ConnectOracle) : Option (TlsSocket × Bool) :=
  match s.tcp.connect o.native with
  | (tcp, false) => some ({ s with tcp := tcp }, false)
  | (tcp, true) =>
      let failed := { s with tcp := tcp.close }
      if o.seeded = false then some (failed, false)
      else if o.configured = false then some (failed, false)
      else if o.setUp = false then some (failed, false)
      else
        match handshakeLoop o.handshake with
        | none => none
        | some false => some (failed, false)
        | some true => some ({ s with tcp := tcp, handshaked := true }, true)

/-- `TlsSocket::connected`; `up` is the answer of the TCP probe on an open handle. -/
def connected (s : TlsSocket) (up : Bool) : Bool :=
  s.handshaked && !s.fatal && (s.tcp.isOpen && up)

def available (s : TlsSocket) (r : SslRead) : TlsSocket × Int × Option SslRead :=
  if s.handshaked = false then (s, 0, none)
  else
    let (s', call) := s.pump r
    (s', toInt (s'.rx.length - s'.rxpos : Nat), call)

/-- `TlsSocket::read`: the value returned and the bytes copied to the caller. -/
def read (s : TlsSocket) (len : Nat) (r : SslRead) :
    TlsSocket × Int × List UInt8 × Option SslRead :=
  if s.handshaked = false ∨ len = 0 then (s, 0, [], none)
  else
    let (s', call) := s.pump r
    let avail := s'.rx.length - s'.rxpos
    if avail = 0 then (s', if s'.fatal then -1 else 0, [], call)
    else
      let n := min len avail
      ({ s' with rxpos := s'.rxpos + n }, toInt n, (s'.rx.drop s'.rxpos).take n, call)

def peekByte (s : TlsSocket) (r : SslRead) : TlsSocket × Int × Option SslRead :=
  if s.handshaked = false then (s, -1, none)
  else
    let (s', call) := s.pump r
    match s'.rx[s'.rxpos]? with
    | some b => (s', b.toNat, call)
    | none => (s', -1, call)

/-- The loop of `write` after `sent` bytes: the bytes accepted in the end, whether the session
died, and the calls made, each with the bytes it offered. -/
def writeLoop (buf : List UInt8) :
    Nat → List (SslWrite × Bool) → Option (Nat × Bool × List (List UInt8 × SslWrite))
  | sent, [] => if sent < buf.length then none else some (sent, false, [])
  | sent, (w, late) :: rest =>
      if sent < buf.length then
        let call := (buf.drop sent, w)
        match w with
        | .accepted n =>
            if 0 < n ∧ n ≤ buf.length - sent then
              (writeLoop buf (sent + n) rest).map fun (k, dead, calls) => (k, dead, call :: calls)
            else none
        | .stopped _ => some (sent, true, [call])
        | _ =>
            if late then some (sent, false, [call])
            else (writeLoop buf sent rest).map fun (k, dead, calls) => (k, dead, call :: calls)
      else some (sent, false, [])

def write (s : TlsSocket) (buf : List UInt8) (ws : List (SslWrite × Bool)) :
    Option (TlsSocket × Nat × List (List UInt8 × SslWrite)) :=
  if s.handshaked = false ∨ buf.length = 0 then some (s, 0, [])
  else
    match writeLoop buf 0 ws with
    | none => none
    | some (sent, dead, calls) => some ({ s with fatal := s.fatal || dead }, sent, calls)

/-- `TlsSocket::close`, with whether it sends a close notification. -/
def close (s : TlsSocket) : TlsSocket × Bool :=
  (⟨s.tcp.close, [], 0, false, true⟩, s.handshaked && !s.fatal)

end TlsSocket

/-! ## Histories of one socket -/

inductive TlsAction
  | connect (o : ConnectOracle)
  | available (r : SslRead)
  | read (len : Nat) (r : SslRead)
  | peekByte (r : SslRead)
  | write (buf : List UInt8) (ws : List (SslWrite × Bool))
  | connected (up : Bool)
  | close
  deriving DecidableEq, Repr

inductive TlsEvent
  | connect (ok : Bool)
  | available (n : Int) (call : Option SslRead)
  | read (ret : Int) (buf : List UInt8) (call : Option SslRead)
  | peekByte (ret : Int) (call : Option SslRead)
  | write (sent : Nat) (calls : List (List UInt8 × SslWrite))
  | connected (up : Bool)
  | close (notify : Bool)
  deriving DecidableEq, Repr

def TlsSocket.step (s : TlsSocket) : TlsAction → Option (TlsSocket × TlsEvent)
  | .connect o => (s.connect o).map fun (s', ok) => (s', .connect ok)
  | .available r =>
      let (s', n, call) := s.available r
      some (s', .available n call)
  | .read len r =>
      let (s', ret, buf, call) := s.read len r
      some (s', .read ret buf call)
  | .peekByte r =>
      let (s', ret, call) := s.peekByte r
      some (s', .peekByte ret call)
  | .write buf ws => (s.write buf ws).map fun (s', sent, calls) => (s', .write sent calls)
  | .connected up => some (s, .connected (s.connected up))
  | .close =>
      let (s', notify) := s.close
      some (s', .close notify)

def tls : Machine TlsSocket TlsAction TlsEvent := ⟨TlsSocket.step⟩

/-- The result of the `mbedtls_ssl_read` behind an event, if it made one. -/
def TlsEvent.sslRead : TlsEvent → Option SslRead
  | .available _ call => call
  | .read _ _ call => call
  | .peekByte _ call => call
  | _ => none

def SslRead.bytes : SslRead → List UInt8
  | .plaintext record => record.bytes
  | _ => []

/-- The plaintext on its way from mbedTLS to the callers of `read`. -/
def plaintextFlow : Flow TlsSocket TlsEvent UInt8 where
  held s := s.unread
  put o := (o.sslRead.map SslRead.bytes).getD []
  taken
    | .read ret buf _ => buf.take ret.toNat
    | _ => []

end ZiModem.Hal.Net
