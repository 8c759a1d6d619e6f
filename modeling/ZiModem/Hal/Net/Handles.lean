import ZiModem.Hal.Net.TcpSocket
import ZiModem.Hal.Net.UdpSocket
import ZiModem.Reactive.Resources

/-! # Who owns a native handle

Any collection of `TcpSocket`, `TcpListener` and `UdpSocket` objects, over the
kernel's table of open handles. Every operation comes with the system calls it
makes, in order; at each of them the kernel may refuse. A handle that was closed
may be given out again under the same number.
-/

namespace ZiModem.Hal.Net

open Reactive

/-! ## Acquiring a handle -/

/-- What becomes of the native socket that a call tries to open: there is none, it is closed again
after so many uses, or it is kept after so many. -/
inductive Opening
  | refused
  | failed (native uses : Nat)
  | opened (native uses : Nat)
  deriving DecidableEq, Repr

namespace Opening

def calls : Opening → List (Use Nat)
  | refused => []
  | failed native uses =>
      .acquire native :: (List.replicate uses (.use native) ++ [.release native])
  | opened native uses => .acquire native :: List.replicate uses (.use native)

def native : Opening → Option Nat
  | opened native _ => some native
  | _ => none

end Opening

inductive ConnectOutcome
  | unresolved
  | noSocket
  | connectFails (native : Nat)
  | connected (native : Nat)
  deriving DecidableEq, Repr

/-- `::connect`, then the two `fcntl` calls of `set_non_blocking`. -/
def ConnectOutcome.opening : ConnectOutcome → Opening
  | unresolved | noSocket => .refused
  | connectFails native => .failed native 1
  | connected native => .opened native 3

inductive ListenOutcome
  | noSocket
  | bindFails (native : Nat)
  | listenFails (native : Nat)
  | listening (native : Nat)
  deriving DecidableEq, Repr

/-- `setsockopt`, `bind`, `::listen`, and `fcntl` twice. -/
def ListenOutcome.opening : ListenOutcome → Opening
  | noSocket => .refused
  | bindFails native => .failed native 2
  | listenFails native => .failed native 3
  | listening native => .opened native 5

inductive BeginOutcome
  | noSocket
  | bindFails (native : Nat)
  | bound (native : Nat)
  deriving DecidableEq, Repr

def BeginOutcome.opening : BeginOutcome → Opening
  | noSocket => .refused
  | bindFails native => .failed native 1
  | bound native => .opened native 3

inductive AcceptOutcome
  | nonePending
  | acceptFails
  | accepted (native : Nat)
  deriving DecidableEq, Repr

def AcceptOutcome.opening : AcceptOutcome → Opening
  | nonePending | acceptFails => .refused
  | accepted native => .opened native 2

/-- `select`, and `::accept` where a client is pending. -/
def AcceptOutcome.uses : AcceptOutcome → Nat
  | nonePending => 1
  | acceptFails | accepted _ => 2

/-! ## The objects -/

structure TcpListener where
  handle : Option Nat
  deriving DecidableEq, Repr

def TcpListener.fresh : TcpListener := ⟨none⟩

def TcpListener.listen (_ : TcpListener) (native : Option Nat) : TcpListener := ⟨native⟩

/-- `TcpListener::close`, without the effect on the native handle. -/
def TcpListener.close (_ : TcpListener) : TcpListener := ⟨none⟩

namespace TcpSocket

def adopt (native : Option Nat) : TcpSocket := ⟨native, none⟩

/-- `TcpSocket(TcpSocket&&)`: the new socket and what is left of `other`. -/
def moveConstruct (other : TcpSocket) : TcpSocket × TcpSocket :=
  (⟨other.handle, other.peeked⟩, ⟨none, none⟩)

/-- `operator=(TcpSocket&&)` from another socket. -/
def moveAssign (s other : TcpSocket) : TcpSocket × TcpSocket :=
  ({ s.close with handle := other.handle, peeked := other.peeked }, ⟨none, none⟩)

def Receives (s : TcpSocket) (len : Nat) : Prop := s.isOpen = true ∧ s.pushback.length < len

instance (s : TcpSocket) (len : Nat) : Decidable (s.Receives len) :=
  inferInstanceAs (Decidable (_ ∧ _))

end TcpSocket

inductive NetObject
  | tcp (s : TcpSocket)
  | listener (s : TcpListener)
  | udp (s : UdpSocket)
  deriving DecidableEq, Repr

namespace NetObject

def handle : NetObject → Option Nat
  | tcp s => s.handle
  | listener s => s.handle
  | udp s => s.handle

def close : NetObject → NetObject
  | tcp s => tcp s.close
  | listener s => listener s.close
  | udp s => udp s.close

/-- The system call that `close` and the destructors make on an open handle. -/
def closing (o : NetObject) : List (Use Nat) := o.handle.toList.map .release

/-- So many system calls on the object's own handle, if it is open. -/
def touching (o : NetObject) (uses : Nat) : List (Use Nat) :=
  o.handle.toList.flatMap fun native => List.replicate uses (.use native)

end NetObject

/-! ## The collection -/

/-- The objects that exist, and which handles the kernel has open. -/
structure Sockets (κ : Type*) where
  object : κ → Option NetObject
  live : Nat → Bool

/-- `observe` is any other member function: it makes at most one system call on the handle. -/
inductive SocketAction (κ : Type*)
  | construct (k : κ) (o : NetObject)
  | connect (k : κ) (c : ConnectOutcome)
  | listen (k : κ) (c : ListenOutcome)
  | begin (k : κ) (c : BeginOutcome)
  | accept (l k : κ) (c : AcceptOutcome)
  | moveConstruct (k other : κ)
  | moveAssign (k other : κ)
  | close (k : κ)
  | destroy (k : κ)
  | read (k : κ) (c : Conn) (len : Nat) (r : Recv)
  | peekByte (k : κ) (c : Conn) (r : Recv)
  | packet (k : κ) (a : UdpAction)
  | observe (k : κ)
  deriving DecidableEq, Repr

inductive SocketEvent (κ : Type*)
  | failed (k : κ) (calls : List (Use Nat))
  | closed (k : κ) (calls : List (Use Nat))
  | moved (k other : κ) (calls : List (Use Nat))
  | done (calls : List (Use Nat))
  deriving DecidableEq, Repr

def SocketEvent.calls {κ : Type*} : SocketEvent κ → List (Use Nat)
  | failed _ calls | closed _ calls | moved _ _ calls | done calls => calls

def UdpAction.isPacket : UdpAction → Bool
  | begin _ | close => false
  | _ => true

/-- The system calls behind a packet operation on an open socket. -/
def UdpEvent.systemCalls : UdpEvent → Nat
  | endPacket _ (some _) | parsePacket _ _ => 1
  | _ => 0

def NetObject.defaults : List NetObject := [tcp .closed, listener .fresh, udp .fresh]

namespace Sockets

variable {κ : Type*}

def initial : Sockets κ := ⟨fun _ => none, fun _ => false⟩

def holds (s : Sockets κ) (k : κ) : Option Nat := (s.object k).bind NetObject.handle

/-- Make the system calls of a step, if the kernel may answer so. -/
def commit (s : Sockets κ) (e : SocketEvent κ) : Option (Sockets κ × SocketEvent κ) :=
  if Use.Granted s.live e.calls then some ({ s with live := Use.settle s.live e.calls }, e)
  else none

variable [DecidableEq κ]

def set (s : Sockets κ) (k : κ) (o : Option NetObject) : Sockets κ :=
  { s with object := Function.update s.object k o }

/-- Replace the object that tried to open, and make the system calls. -/
def reopen (s : Sockets κ) (k : κ) (old new : NetObject) (opening : Opening) :
    Option (Sockets κ × SocketEvent κ) :=
  let calls := old.closing ++ opening.calls
  (s.set k (some new)).commit (if opening.native = none then .failed k calls else .done calls)

def step (s : Sockets κ) : SocketAction κ → Option (Sockets κ × SocketEvent κ)
  | .construct k o =>
      if s.object k = none ∧ o ∈ NetObject.defaults then (s.set k (some o)).commit (.done [])
      else none
  | .connect k c =>
      match s.object k with
      | some (.tcp sock) =>
          s.reopen k (.tcp sock) (.tcp (sock.connect c.opening.native).1) c.opening
      | _ => none
  | .listen k c =>
      match s.object k with
      | some (.listener sock) =>
          s.reopen k (.listener sock) (.listener (sock.listen c.opening.native)) c.opening
      | _ => none
  | .begin k c =>
      match s.object k with
      | some (.udp sock) =>
          s.reopen k (.udp sock) (.udp (sock.begin c.opening.native).1) c.opening
      | _ => none
  | .accept l k c =>
      match s.object l with
      | some (.listener sock) =>
          if s.object k = none then
            let opening := if sock.handle = none then .refused else c.opening
            (s.set k (some (.tcp (.adopt opening.native)))).commit
              (.done ((NetObject.listener sock).touching c.uses ++ opening.calls))
          else none
      | _ => none
  | .moveConstruct k other =>
      match s.object other with
      | some (.tcp sock) =>
          if s.object k = none then
            ((s.set k (some (.tcp sock.moveConstruct.1))).set other
              (some (.tcp sock.moveConstruct.2))).commit (.moved k other [])
          else none
      | _ => none
  | .moveAssign k other =>
      match s.object k, s.object other with
      | some (.tcp sock), some (.tcp sock') =>
          if k = other then s.commit (.moved k other [])
          else
            ((s.set k (some (.tcp (sock.moveAssign sock').1))).set other
              (some (.tcp (sock.moveAssign sock').2))).commit
                (.moved k other (NetObject.tcp sock).closing)
      | _, _ => none
  | .close k =>
      match s.object k with
      | some o => (s.set k (some o.close)).commit (.closed k o.closing)
      | none => none
  | .destroy k =>
      match s.object k with
      | some o => (s.set k none).commit (.closed k o.closing)
      | none => none
  | .read k c len r =>
      match s.object k with
      | some (.tcp sock) =>
          match sock.read c len r with
          | some res =>
              (s.set k (some (.tcp res.sock))).commit
                (.done ((NetObject.tcp sock).touching (if sock.Receives len then 1 else 0)))
          | none => none
      | _ => none
  | .peekByte k c r =>
      match s.object k with
      | some (.tcp sock) =>
          match sock.peekByte c r with
          | some (sock', _) =>
              (s.set k (some (.tcp sock'))).commit
                (.done ((NetObject.tcp sock).touching (if sock.Receives 1 then 1 else 0)))
          | none => none
      | _ => none
  | .packet k a =>
      match s.object k with
      | some (.udp sock) =>
          if a.isPacket then
            match sock.step a with
            | some (sock', o) =>
                (s.set k (some (.udp sock'))).commit
                  (.done ((NetObject.udp sock).touching o.systemCalls))
            | none => none
          else none
      | _ => none
  | .observe k =>
      match s.object k with
      | some o => s.commit (.done (o.touching 1))
      | none => none

end Sockets

def sockets (κ : Type*) [DecidableEq κ] : Machine (Sockets κ) (SocketAction κ) (SocketEvent κ) :=
  ⟨Sockets.step⟩

/-! ## What single calls do to handles and pushbacks -/

theorem NetObject.close_handle (o : NetObject) : o.close.handle = none := by
  cases o <;> rfl

theorem TcpSocket.connect_handle (s : TcpSocket) (native : Option Nat) :
    (s.connect native).1 = ⟨native, none⟩ := by
  cases native <;> rfl

theorem TcpSocket.readRecv_sock {s : TcpSocket} {c : Conn} {written : List UInt8} {len : Nat}
    {r : Recv} {res : ReadResult} (h : readRecv s c written len r = some res) : res.sock = s := by
  unfold readRecv at h
  split at h
  · cases h
  · cases h
    rfl

theorem TcpSocket.read_keeps {s : TcpSocket} {c : Conn} {len : Nat} {r : Recv} {res : ReadResult}
    (h : s.read c len r = some res) :
    res.sock.handle = s.handle ∧ (s.peeked = none → res.sock.peeked = none) := by
  unfold TcpSocket.read at h
  split at h
  next =>
    cases h
    exact ⟨rfl, id⟩
  next =>
    split at h
    next =>
      dsimp only at h
      split at h
      · cases h
        exact ⟨rfl, fun _ => rfl⟩
      · rw [readRecv_sock h]
        exact ⟨rfl, fun _ => rfl⟩
    next =>
      rw [readRecv_sock h]
      exact ⟨rfl, id⟩

theorem TcpSocket.peekByte_keeps {s s' : TcpSocket} {c c' : Conn} {r : Recv} {ret : Int}
    {handed : List UInt8} (h : s.peekByte c r = some (s', c', ret, handed)) :
    s'.handle = s.handle ∧ (s.handle = none → s.peeked = none → s'.peeked = none) := by
  unfold TcpSocket.peekByte at h
  split at h
  next =>
    cases h
    exact ⟨rfl, fun _ hp => hp⟩
  next =>
    split at h
    next => cases h
    next res hread =>
      have hkeeps := read_keeps hread
      have hclosed : s.handle = none → res.buf = [] := by
        intro hnone
        simp only [TcpSocket.read, TcpSocket.isOpen, hnone, Option.isSome_none, true_or, if_true,
          Option.some.injEq] at hread
        rw [← hread]
      split at h
      next b rest hbuf =>
        have hopen : s.handle ≠ none := by
          intro hnone
          rw [hclosed hnone] at hbuf
          cases hbuf
        split at h
        · cases h
          exact ⟨hkeeps.1, fun hnone => absurd hnone hopen⟩
        · cases h
          exact ⟨hkeeps.1, fun hnone => absurd hnone hopen⟩
      next =>
        cases h
        exact ⟨hkeeps.1, fun _ => hkeeps.2⟩

theorem UdpSocket.packet_handle {s s' : UdpSocket} {a : UdpAction} {o : UdpEvent}
    (ha : a.isPacket = true) (h : s.step a = some (s', o)) : s'.handle = s.handle := by
  cases a with
  | begin native => cases ha
  | close => cases ha
  | beginPacket host port =>
      cases h
      rfl
  | write buf =>
      cases h
      rfl
  | endPacket addr ssize =>
      cases h
      unfold endPacket
      split
      · rfl
      · split <;> rfl
  | parsePacket datagram =>
      cases h
      unfold parsePacket
      split
      · rfl
      · dsimp only
        split
        · rfl
        · rfl
  | read len =>
      cases h
      rw [read_fst]

/-! ## The invariant -/

namespace Sockets

variable {κ : Type*}

def Clean (s : Sockets κ) : Prop :=
  ∀ k sock, s.object k = some (.tcp sock) → sock.handle = none → sock = .closed

structure Good (s : Sockets κ) : Prop where
  owns : Owns s.live s.holds
  clean : s.Clean

theorem good_initial : (initial : Sockets κ).Good where
  owns := Owns.empty
  clean := fun k sock h => by cases h

structure Keeps (s : Sockets κ) (calls : List (Use Nat)) (s' : Sockets κ) : Prop where
  lawful : Use.Lawful s.live calls
  live : s'.live = Use.settle s.live calls
  good : s'.Good

theorem commit_cases {s s' : Sockets κ} {e o : SocketEvent κ} (h : s.commit e = some (s', o)) :
    Use.Granted s.live e.calls ∧ s' = { s with live := Use.settle s.live e.calls } ∧ o = e := by
  unfold commit at h
  split at h
  next hgranted =>
    cases h
    exact ⟨hgranted, rfl, rfl⟩
  next => cases h

variable {s : Sockets κ} {k : κ}

theorem holds_of_object {o : NetObject} (h : s.object k = some o) : s.holds k = o.handle := by
  simp [holds, h]

theorem holds_of_none (h : s.object k = none) : s.holds k = none := by
  simp [holds, h]

theorem Good.touching (h : s.Good) {o : NetObject} (hk : s.object k = some o) (uses : Nat) :
    Use.Lawful s.live (o.touching uses) ∧ Use.settle s.live (o.touching uses) = s.live := by
  apply Use.lawful_uses
  intro u hu
  unfold NetObject.touching at hu
  obtain ⟨native, hnative, hmem⟩ := List.mem_flatMap.mp hu
  refine ⟨native, List.eq_of_mem_replicate hmem, h.owns.live_of_holds (k := k) ?_⟩
  rw [holds_of_object hk]
  exact Option.mem_toList.mp hnative

variable [DecidableEq κ]

@[simp] theorem set_live (o : Option NetObject) : (s.set k o).live = s.live := rfl

@[simp] theorem set_object_self (o : Option NetObject) : (s.set k o).object k = o :=
  Function.update_self ..

theorem set_object_other {j : κ} (o : Option NetObject) (h : j ≠ k) :
    (s.set k o).object j = s.object j :=
  Function.update_of_ne h ..

theorem set_holds (o : Option NetObject) :
    (s.set k o).holds = Function.update s.holds k (o.bind NetObject.handle) := by
  funext j
  by_cases hj : j = k
  · subst hj
    simp [holds, set]
  · simp [holds, set, hj]

theorem Clean.set (h : s.Clean) {o : Option NetObject}
    (ho : ∀ sock, o = some (.tcp sock) → sock.handle = none → sock = .closed) :
    (s.set k o).Clean := by
  intro j sock hj hnone
  by_cases hjk : j = k
  · subst hjk
    rw [set_object_self] at hj
    exact ho sock hj hnone
  · rw [set_object_other o hjk] at hj
    exact h j sock hj hnone

omit [DecidableEq κ] in
/-- The native socket that a call opens is closed again or kept by an object that has none. -/
theorem opening_spec [DecidableEq κ] {live : Nat → Bool} {holds : κ → Option Nat}
    (h : Owns live holds) (hk : holds k = none) {opening : Opening}
    (hgranted : Use.Granted live opening.calls) :
    Use.Lawful live opening.calls ∧
      Owns (Use.settle live opening.calls) (Function.update holds k opening.native) := by
  cases opening with
  | refused =>
      refine ⟨trivial, ?_⟩
      rw [show Function.update holds k Opening.refused.native = holds from
        Function.update_eq_self_iff.mpr hk.symm]
      exact h
  | failed native uses =>
      have hfree : live native = false := hgranted.1 native rfl
      have huses := Use.lawful_replicate (Function.update_self native true live) uses
      have hback : Use.settle live (Opening.failed native uses).calls = live := by
        show Use.settle (Function.update live native true) (_ ++ [.release native]) = live
        rw [Use.settle_append, huses.2]
        show Function.update (Function.update live native true) native false = live
        rw [Function.update_idem, ← hfree, Function.update_eq_self]
      refine ⟨⟨hfree, ?_⟩, ?_⟩
      · show Use.Lawful (Function.update live native true) (_ ++ [.release native])
        rw [Use.lawful_append, huses.2]
        exact ⟨huses.1, Function.update_self .., trivial⟩
      · rw [hback, show Function.update holds k (Opening.failed native uses).native = holds from
          Function.update_eq_self_iff.mpr hk.symm]
        exact h
  | opened native uses =>
      have hfree : live native = false := hgranted.1 native rfl
      have huses := Use.lawful_replicate (Function.update_self native true live) uses
      refine ⟨⟨hfree, huses.1⟩, ?_⟩
      show Owns (Use.settle (Function.update live native true) _) _
      rw [huses.2]
      exact h.acquire hfree hk

theorem Good.closing (h : s.Good) {o : NetObject} (hk : s.object k = some o) :
    Use.Lawful s.live o.closing ∧
      Owns (Use.settle s.live o.closing) (Function.update s.holds k none) := by
  have hholds := holds_of_object hk
  unfold NetObject.closing
  cases hnative : o.handle with
  | none =>
      rw [hnative] at hholds
      refine ⟨trivial, ?_⟩
      rw [Function.update_eq_self_iff.mpr hholds.symm]
      exact h.owns
  | some native =>
      rw [hnative] at hholds
      exact ⟨⟨h.owns.live_of_holds hholds, trivial⟩, h.owns.release hholds⟩

/-! ## What one step can do -/

variable {s' : Sockets κ} {o : SocketEvent κ}

/-- A call leaves an object of the same kind with the same handle, and a closed socket closed. -/
structure Stays (old new : NetObject) : Prop where
  handle : new.handle = old.handle
  kind : ∀ sock, new = .tcp sock → ∃ sock', old = .tcp sock'
  closed : old = .tcp .closed → new = .tcp .closed

inductive StepCase (s s' : Sockets κ) (o : SocketEvent κ) : Prop
  | construct (k : κ) (d : NetObject) : s.object k = none → d ∈ NetObject.defaults →
      (s.set k (some d)).commit (.done []) = some (s', o) → StepCase s s' o
  | quiet (k : κ) (old new : NetObject) (uses : Nat) : s.object k = some old → Stays old new →
      (s.set k (some new)).commit (.done (old.touching uses)) = some (s', o) → StepCase s s' o
  | selfMove (k : κ) : s.commit (.moved k k []) = some (s', o) → StepCase s s' o
  | adopt (l k : κ) (sock : TcpListener) (opening : Opening) (uses : Nat) :
      s.object l = some (.listener sock) → s.object k = none →
      (s.set k (some (.tcp (.adopt opening.native)))).commit
        (.done ((NetObject.listener sock).touching uses ++ opening.calls)) = some (s', o) →
      StepCase s s' o
  | shut (k : κ) (old : NetObject) (new : Option NetObject) : s.object k = some old →
      new = none ∨ new = some old.close →
      (s.set k new).commit (.closed k old.closing) = some (s', o) → StepCase s s' o
  | reopen (k : κ) (old new : NetObject) (opening : Opening) : s.object k = some old →
      new.handle = opening.native → (∀ sock, new = .tcp sock → sock = ⟨opening.native, none⟩) →
      s.reopen k old new opening = some (s', o) → StepCase s s' o
  | move (k other : κ) (sock : TcpSocket) (calls : List (Use Nat)) :
      s.object other = some (.tcp sock) → k ≠ other →
      (s.object k = none ∧ calls = [] ∨ ∃ old, s.object k = some old ∧ calls = old.closing) →
      ((s.set k (some (.tcp ⟨sock.handle, sock.peeked⟩))).set other (some (.tcp .closed))).commit
        (.moved k other calls) = some (s', o) → StepCase s s' o

theorem stays_read {sock : TcpSocket} {c : Conn} {len : Nat} {r : Recv} {res : ReadResult}
    (h : sock.read c len r = some res) : Stays (.tcp sock) (.tcp res.sock) where
  handle := (TcpSocket.read_keeps h).1
  kind := fun _ _ => ⟨sock, rfl⟩
  closed := by
    intro hclosed
    cases hclosed
    cases h
    rfl

theorem stays_peekByte {sock sock' : TcpSocket} {c c' : Conn} {r : Recv} {ret : Int}
    {handed : List UInt8} (h : sock.peekByte c r = some (sock', c', ret, handed)) :
    Stays (.tcp sock) (.tcp sock') where
  handle := (TcpSocket.peekByte_keeps h).1
  kind := fun _ _ => ⟨sock, rfl⟩
  closed := by
    intro hclosed
    cases hclosed
    cases h
    rfl

theorem stays_packet {sock sock' : UdpSocket} {a : UdpAction} {e : UdpEvent}
    (ha : a.isPacket = true) (h : sock.step a = some (sock', e)) :
    Stays (.udp sock) (.udp sock') where
  handle := UdpSocket.packet_handle ha h
  kind := fun _ hnew => by cases hnew
  closed := fun hclosed => by cases hclosed

theorem stays_self (old : NetObject) : Stays old old where
  handle := rfl
  kind := fun sock hnew => ⟨sock, hnew⟩
  closed := id

theorem step_cases {a : SocketAction κ} (hstep : s.step a = some (s', o)) : StepCase s s' o := by
  cases a with
  | construct k d =>
      simp only [Sockets.step] at hstep
      split at hstep
      next hd => exact .construct k d hd.1 hd.2 hstep
      next => cases hstep
  | connect k c =>
      simp only [Sockets.step] at hstep
      split at hstep
      next sock hk =>
        rw [TcpSocket.connect_handle] at hstep
        exact .reopen k _ _ _ hk rfl (fun new hnew => (NetObject.tcp.inj hnew).symm) hstep
      next => cases hstep
  | listen k c =>
      simp only [Sockets.step] at hstep
      split at hstep
      next sock hk => exact .reopen k _ _ _ hk rfl (fun new hnew => by cases hnew) hstep
      next => cases hstep
  | begin k c =>
      simp only [Sockets.step] at hstep
      split at hstep
      next sock hk =>
        rw [UdpSocket.begin_fst] at hstep
        exact .reopen k _ _ _ hk rfl (fun new hnew => by cases hnew) hstep
      next => cases hstep
  | accept l k c =>
      simp only [Sockets.step] at hstep
      split at hstep
      next sock hl =>
        split at hstep
        next hk => exact .adopt l k sock _ _ hl hk hstep
        next => cases hstep
      next => cases hstep
  | moveConstruct k other =>
      simp only [Sockets.step] at hstep
      split at hstep
      next sock hother =>
        split at hstep
        next hk =>
          apply StepCase.move k other sock [] hother ?_ (.inl ⟨hk, rfl⟩) hstep
          rintro rfl
          rw [hk] at hother
          cases hother
        next => cases hstep
      next => cases hstep
  | moveAssign k other =>
      simp only [Sockets.step] at hstep
      split at hstep
      next sock sock' hk hother =>
        split at hstep
        next heq =>
          rw [← heq] at hstep
          exact .selfMove k hstep
        next hne => exact .move k other sock' _ hother hne (.inr ⟨_, hk, rfl⟩) hstep
      next => cases hstep
  | close k =>
      simp only [Sockets.step] at hstep
      split at hstep
      next old hk => exact .shut k old _ hk (.inr rfl) hstep
      next => cases hstep
  | destroy k =>
      simp only [Sockets.step] at hstep
      split at hstep
      next old hk => exact .shut k old _ hk (.inl rfl) hstep
      next => cases hstep
  | read k c len r =>
      simp only [Sockets.step] at hstep
      split at hstep
      next sock hk =>
        split at hstep
        next res hread => exact .quiet k _ _ _ hk (stays_read hread) hstep
        next => cases hstep
      next => cases hstep
  | peekByte k c r =>
      simp only [Sockets.step] at hstep
      split at hstep
      next sock hk =>
        split at hstep
        next sock' rest hpeek => exact .quiet k _ _ _ hk (stays_peekByte hpeek) hstep
        next => cases hstep
      next => cases hstep
  | packet k a =>
      simp only [Sockets.step] at hstep
      split at hstep
      next sock hk =>
        split at hstep
        next ha =>
          split at hstep
          next sock' e hcall => exact .quiet k _ _ _ hk (stays_packet ha hcall) hstep
          next => cases hstep
        next => cases hstep
      next => cases hstep
  | observe k =>
      simp only [Sockets.step] at hstep
      split at hstep
      next old hk =>
        have hsame : s.set k (some old) = s := by
          unfold Sockets.set
          rw [Function.update_eq_self_iff.mpr hk.symm]
        apply StepCase.quiet k old old 1 hk (stays_self old)
        rw [hsame]
        exact hstep
      next => cases hstep

/-! ## Every step keeps it -/

theorem Good.construct (h : s.Good) {d : NetObject} (hk : s.object k = none)
    (hd : d ∈ NetObject.defaults) (hstep : (s.set k (some d)).commit (.done []) = some (s', o)) :
    s.Keeps o.calls s' := by
  have hdefault : d.handle = none ∧ ∀ sock, d = .tcp sock → sock = .closed := by
    unfold NetObject.defaults at hd
    rcases List.mem_cons.mp hd with rfl | hd
    · exact ⟨rfl, fun sock h => (NetObject.tcp.inj h).symm⟩
    · rcases List.mem_cons.mp hd with rfl | hd
      · exact ⟨rfl, fun sock h => by cases h⟩
      · rw [List.mem_singleton.mp hd]
        exact ⟨rfl, fun sock h => by cases h⟩
  obtain ⟨-, rfl, rfl⟩ := commit_cases hstep
  refine ⟨trivial, rfl, ?_, h.clean.set fun sock ho _ => hdefault.2 sock (Option.some.inj ho)⟩
  show Owns s.live (s.set k (some d)).holds
  have hsame : Function.update s.holds k d.handle = s.holds := by
    apply Function.update_eq_self_iff.mpr
    rw [hdefault.1, holds_of_none hk]
  rw [set_holds]
  show Owns s.live (Function.update s.holds k d.handle)
  rw [hsame]
  exact h.owns

theorem Good.quiet (h : s.Good) {old new : NetObject} {uses : Nat} (hk : s.object k = some old)
    (hstays : Stays old new)
    (hstep : (s.set k (some new)).commit (.done (old.touching uses)) = some (s', o)) :
    s.Keeps o.calls s' := by
  obtain ⟨-, rfl, rfl⟩ := commit_cases hstep
  have htouch := h.touching hk uses
  apply Keeps.mk htouch.1 rfl
  refine ⟨?_, h.clean.set ?_⟩
  · have hsame : Function.update s.holds k new.handle = s.holds := by
      apply Function.update_eq_self_iff.mpr
      rw [hstays.handle, holds_of_object hk]
    show Owns (Use.settle s.live (old.touching uses)) (s.set k (some new)).holds
    rw [htouch.2, set_holds]
    show Owns s.live (Function.update s.holds k new.handle)
    rw [hsame]
    exact h.owns
  · intro sock ho hnone
    obtain rfl := Option.some.inj ho
    obtain ⟨sock', rfl⟩ := hstays.kind sock rfl
    have hclosed : sock' = .closed := h.clean k sock' hk (hstays.handle.symm.trans hnone)
    rw [hclosed] at hstays
    exact NetObject.tcp.inj (hstays.closed rfl)

theorem Good.shut (h : s.Good) {old : NetObject} {new : Option NetObject}
    (hk : s.object k = some old) (hnew : new = none ∨ new = some old.close)
    (hstep : (s.set k new).commit (.closed k old.closing) = some (s', o)) :
    s.Keeps o.calls s' ∧ s'.holds k = none := by
  obtain ⟨-, rfl, rfl⟩ := commit_cases hstep
  have hclosing := h.closing hk
  have hhandle : new.bind NetObject.handle = none := by
    rcases hnew with rfl | rfl
    · rfl
    · exact old.close_handle
  have hholds : (s.set k new).holds = Function.update s.holds k none := by
    rw [set_holds, hhandle]
  refine ⟨Keeps.mk hclosing.1 rfl ⟨?_, h.clean.set ?_⟩, ?_⟩
  · show Owns _ (s.set k new).holds
    rw [hholds]
    exact hclosing.2
  · intro sock ho _
    rcases hnew with rfl | rfl
    · cases ho
    · cases old with
      | tcp old => exact (NetObject.tcp.inj (Option.some.inj ho)).symm
      | listener old => cases ho
      | udp old => cases ho
  · show (s.set k new).holds k = none
    rw [hholds, Function.update_self]

theorem reopen_event {old new : NetObject} {opening : Opening}
    (hstep : s.reopen k old new opening = some (s', o)) :
    (o = .failed k (old.closing ++ opening.calls) ∧ opening.native = none ∨
      o = .done (old.closing ++ opening.calls) ∧ opening.native ≠ none) ∧
    Use.Granted s.live (old.closing ++ opening.calls) ∧
    s' = { s.set k (some new) with
      live := Use.settle s.live (old.closing ++ opening.calls) } := by
  unfold Sockets.reopen at hstep
  by_cases hnative : opening.native = none
  · simp only [hnative, if_true] at hstep
    obtain ⟨hgranted, rfl, rfl⟩ := commit_cases hstep
    exact ⟨.inl ⟨rfl, hnative⟩, hgranted, rfl⟩
  · simp only [hnative, if_false] at hstep
    obtain ⟨hgranted, rfl, rfl⟩ := commit_cases hstep
    exact ⟨.inr ⟨rfl, hnative⟩, hgranted, rfl⟩

theorem Good.reopen (h : s.Good) {old new : NetObject} {opening : Opening}
    (hk : s.object k = some old) (hnew : new.handle = opening.native)
    (hsock : ∀ sock, new = .tcp sock → sock = ⟨opening.native, none⟩)
    (hstep : s.reopen k old new opening = some (s', o)) : s.Keeps o.calls s' := by
  obtain ⟨hevent, hgranted, rfl⟩ := reopen_event hstep
  have hcalls : o.calls = old.closing ++ opening.calls := by
    rcases hevent with ⟨rfl, -⟩ | ⟨rfl, -⟩
    · rfl
    · rfl
  have hclosing := h.closing hk
  have hopening := opening_spec hclosing.2 (Function.update_self ..)
    (Use.granted_append.mp hgranted).2
  rw [Function.update_idem] at hopening
  rw [hcalls]
  refine Keeps.mk (Use.lawful_append.mpr ⟨hclosing.1, hopening.1⟩) rfl ⟨?_, h.clean.set ?_⟩
  · show Owns _ (s.set k (some new)).holds
    rw [set_holds, Use.settle_append]
    show Owns _ (Function.update s.holds k new.handle)
    rw [hnew]
    exact hopening.2
  · intro sock ho hnone
    obtain rfl := Option.some.inj ho
    rw [hsock sock rfl] at hnone ⊢
    rw [show opening.native = none from hnone]
    rfl

theorem Good.adopt (h : s.Good) {l : κ} {sock : TcpListener} {opening : Opening} {uses : Nat}
    (hl : s.object l = some (.listener sock)) (hk : s.object k = none)
    (hstep : (s.set k (some (.tcp (.adopt opening.native)))).commit
      (.done ((NetObject.listener sock).touching uses ++ opening.calls)) = some (s', o)) :
    s.Keeps o.calls s' := by
  obtain ⟨hgranted, rfl, rfl⟩ := commit_cases hstep
  have htouch := h.touching hl uses
  have hafter := (Use.granted_append.mp hgranted).2
  rw [set_live, htouch.2] at hafter
  have hopening := opening_spec h.owns (holds_of_none hk) hafter
  apply Keeps.mk ?_ rfl
  · refine ⟨?_, h.clean.set ?_⟩
    · show Owns (Use.settle s.live (_ ++ _)) (s.set k _).holds
      rw [set_holds, Use.settle_append, htouch.2]
      exact hopening.2
    · intro new hnew hnone
      cases hnew
      show TcpSocket.mk _ none = TcpSocket.mk none none
      rw [show opening.native = none from hnone]
  · show Use.Lawful s.live (_ ++ _)
    rw [Use.lawful_append, htouch.2]
    exact ⟨htouch.1, hopening.1⟩

theorem Good.move (h : s.Good) {other : κ} {sock : TcpSocket} {calls : List (Use Nat)}
    (hother : s.object other = some (.tcp sock)) (hne : k ≠ other)
    (hcalls : s.object k = none ∧ calls = [] ∨ ∃ old, s.object k = some old ∧ calls = old.closing)
    (hstep : ((s.set k (some (.tcp ⟨sock.handle, sock.peeked⟩))).set other
      (some (.tcp .closed))).commit (.moved k other calls) = some (s', o)) :
    s.Keeps o.calls s' ∧ s'.object other = some (.tcp .closed) := by
  obtain ⟨-, rfl, rfl⟩ := commit_cases hstep
  have hfreed : Use.Lawful s.live calls ∧
      Owns (Use.settle s.live calls) (Function.update s.holds k none) := by
    rcases hcalls with ⟨hk, rfl⟩ | ⟨old, hk, rfl⟩
    · rw [Function.update_eq_self_iff.mpr (holds_of_none hk).symm]
      exact ⟨trivial, h.owns⟩
    · exact h.closing hk
  refine ⟨Keeps.mk hfreed.1 rfl ⟨?_, Clean.set (h.clean.set ?_) ?_⟩, set_object_self _⟩
  · have hempty : Function.update s.holds k none k = none := Function.update_self ..
    have hmoved := hfreed.2.transfer (k := other) hempty
    rw [Function.update_of_ne hne.symm, holds_of_object hother, Function.update_idem] at hmoved
    show Owns _ ((s.set k _).set other _).holds
    rw [set_holds, set_holds]
    exact hmoved
  · intro new hnew hnone
    cases hnew
    exact h.clean other sock hother hnone
  · intro new hnew _
    exact (NetObject.tcp.inj (Option.some.inj hnew)).symm

theorem Good.step (h : s.Good) (hcase : StepCase s s' o) : s.Keeps o.calls s' := by
  cases hcase with
  | construct k d hk hd hstep => exact h.construct hk hd hstep
  | quiet k old new uses hk hstays hstep => exact h.quiet hk hstays hstep
  | selfMove k hstep =>
      obtain ⟨-, rfl, rfl⟩ := commit_cases hstep
      exact ⟨trivial, rfl, h⟩
  | adopt l k sock opening uses hl hk hstep => exact h.adopt hl hk hstep
  | shut k old new hk hnew hstep => exact (h.shut hk hnew hstep).1
  | reopen k old new opening hk hnew hsock hstep => exact h.reopen hk hnew hsock hstep
  | move k other sock calls hother hne hcalls hstep => exact (h.move hother hne hcalls hstep).1

/-! ## What the last step leaves -/

omit [DecidableEq κ] in
theorem not_live_of_refused {live : Nat → Bool} {opening : Opening} (hnone : opening.native = none)
    (hgranted : Use.Granted live opening.calls) {n : Nat} (hmem : .acquire n ∈ opening.calls) :
    Use.settle live opening.calls n = false := by
  cases opening with
  | refused => cases hmem
  | opened native uses => cases hnone
  | failed native uses =>
      have hn : n = native := by
        rcases List.mem_cons.mp hmem with heq | hmem
        · exact Use.acquire.inj heq
        · rcases List.mem_append.mp hmem with hmem | hmem
          · cases List.eq_of_mem_replicate hmem
          · cases List.mem_singleton.mp hmem
      show Use.settle (Function.update live native true) (_ ++ [.release native]) n = false
      rw [Use.settle_append, hn]
      exact Function.update_self ..

theorem failed_step {calls : List (Use Nat)}
    (hcase : StepCase s s' (.failed k calls)) :
    s'.holds k = none ∧ ∀ n, .acquire n ∈ calls → s'.live n = false := by
  cases hcase with
  | reopen j old new opening hk hnew hsock hstep =>
      obtain ⟨hevent, hgranted, rfl⟩ := reopen_event hstep
      rcases hevent with ⟨heq, hnative⟩ | ⟨heq, -⟩
      · obtain ⟨rfl, rfl⟩ := SocketEvent.failed.inj heq
        constructor
        · show (s.set k (some new)).holds k = none
          rw [set_holds, Function.update_self]
          exact hnew.trans hnative
        · intro n hmem
          show Use.settle s.live (_ ++ _) n = false
          rw [Use.settle_append]
          apply not_live_of_refused hnative (Use.granted_append.mp hgranted).2
          rcases List.mem_append.mp hmem with hmem | hmem
          · obtain ⟨native, -, heq⟩ := List.mem_map.mp hmem
            cases heq
          · exact hmem
      · cases heq
  | construct k d hk hd hstep => cases (commit_cases hstep).2.2
  | quiet k old new uses hk hstays hstep => cases (commit_cases hstep).2.2
  | selfMove k hstep => cases (commit_cases hstep).2.2
  | adopt l k sock opening uses hl hk hstep => cases (commit_cases hstep).2.2
  | shut k old new hk hnew hstep => cases (commit_cases hstep).2.2
  | move k other sock calls hother hne hcalls hstep => cases (commit_cases hstep).2.2

theorem closed_step (h : s.Good) {calls : List (Use Nat)}
    (hcase : StepCase s s' (.closed k calls)) : s'.holds k = none := by
  cases hcase with
  | shut j old new hk hnew hstep =>
      have hshut := (h.shut hk hnew hstep).2
      obtain ⟨rfl, -⟩ := SocketEvent.closed.inj (commit_cases hstep).2.2
      exact hshut
  | reopen j old new opening hk hnew hsock hstep =>
      rcases (reopen_event hstep).1 with ⟨heq, -⟩ | ⟨heq, -⟩
      · cases heq
      · cases heq
  | construct k d hk hd hstep => cases (commit_cases hstep).2.2
  | quiet k old new uses hk hstays hstep => cases (commit_cases hstep).2.2
  | selfMove k hstep => cases (commit_cases hstep).2.2
  | adopt l k sock opening uses hl hk hstep => cases (commit_cases hstep).2.2
  | move k other sock calls hother hne hcalls hstep => cases (commit_cases hstep).2.2

theorem moved_step (h : s.Good) {other : κ} {calls : List (Use Nat)}
    (hcase : StepCase s s' (.moved k other calls)) (hne : k ≠ other) :
    s'.object other = some (.tcp .closed) := by
  cases hcase with
  | move j other' sock calls' hother hne' hcalls hstep =>
      have hmoved := (h.move hother hne' hcalls hstep).2
      obtain ⟨-, rfl, -⟩ := SocketEvent.moved.inj (commit_cases hstep).2.2
      exact hmoved
  | selfMove j hstep =>
      obtain ⟨rfl, rfl, -⟩ := SocketEvent.moved.inj (commit_cases hstep).2.2
      exact absurd rfl hne
  | reopen j old new opening hk hnew hsock hstep =>
      rcases (reopen_event hstep).1 with ⟨heq, -⟩ | ⟨heq, -⟩
      · cases heq
      · cases heq
  | construct k d hk hd hstep => cases (commit_cases hstep).2.2
  | quiet k old new uses hk hstays hstep => cases (commit_cases hstep).2.2
  | adopt l k sock opening uses hl hk hstep => cases (commit_cases hstep).2.2
  | shut k old new hk hnew hstep => cases (commit_cases hstep).2.2

end Sockets

/-! ## Whole runs -/

/-- Who owns what after every history. `lawful` and `once` are about the kernel's side: a handle is
used and closed only while it is open, and once for each time that it was opened. -/
structure HandlesOwned {κ : Type*} (os : List (SocketEvent κ)) (s : Sockets κ) : Prop where
  lawful : Use.Lawful (fun _ => false) (os.flatMap SocketEvent.calls)
  once : ∀ n, (os.flatMap SocketEvent.calls).count (.acquire n) =
    (os.flatMap SocketEvent.calls).count (.release n) + (s.live n).toNat
  owned : ∀ n, s.live n = true ↔ ∃ k, s.holds k = some n
  sole : ∀ k k' n, s.holds k = some n → s.holds k' = some n → k = k'
  clean : ∀ k sock, s.object k = some (.tcp sock) → sock.handle = none → sock.peeked = none
  failed : ∀ xs k calls, os = xs ++ [.failed k calls] →
    s.holds k = none ∧ ∀ n, .acquire n ∈ calls → s.live n = false
  closed : ∀ xs k calls, os = xs ++ [.closed k calls] → s.holds k = none
  moved : ∀ xs k other calls, os = xs ++ [.moved k other calls] → k ≠ other →
    s.object other = some (.tcp .closed)

section Runs

variable {κ : Type*} [DecidableEq κ] {s : Sockets κ} {as : List (SocketAction κ)}
  {os : List (SocketEvent κ)}

theorem good_of_run (hrun : (sockets κ).run .initial as = some (s, os)) : s.Good :=
  Machine.invariant (fun _ _ _ _ h hstep => (h.step (Sockets.step_cases hstep)).good)
    Sockets.good_initial hrun

theorem lawful_of_run (hrun : (sockets κ).run .initial as = some (s, os)) :
    Use.Lawful (fun _ => false) (os.flatMap SocketEvent.calls) ∧
      s.live = Use.settle (fun _ => false) (os.flatMap SocketEvent.calls) := by
  have hall : s.Good ∧ Use.Lawful (fun _ => false) (os.flatMap SocketEvent.calls) ∧
      s.live = Use.settle (fun _ => false) (os.flatMap SocketEvent.calls) := by
    apply Machine.history (I := fun os s => s.Good ∧
      Use.Lawful (fun _ => false) (os.flatMap SocketEvent.calls) ∧
        s.live = Use.settle (fun _ => false) (os.flatMap SocketEvent.calls)) ?_
      ⟨Sockets.good_initial, trivial, rfl⟩ hrun
    intro os s a s' o h hstep
    have hkeeps := h.1.step (Sockets.step_cases hstep)
    apply And.intro hkeeps.good
    rw [List.flatMap_append, List.flatMap_singleton, Use.lawful_append, Use.settle_append, ← h.2.2]
    exact ⟨⟨h.2.1, hkeeps.lawful⟩, hkeeps.live⟩
  exact hall.2

/-- Every native handle is closed or has one owner, whatever the operations and their failures. -/
theorem handlesOwned_of_run (hrun : (sockets κ).run .initial as = some (s, os)) :
    HandlesOwned os s where
  lawful := (lawful_of_run hrun).1
  once := by
    intro n
    have hcount := (lawful_of_run hrun).1.count n
    rw [← (lawful_of_run hrun).2] at hcount
    exact hcount
  owned := (good_of_run hrun).owns.live_iff
  sole := (good_of_run hrun).owns.sole
  clean := by
    intro k sock hk hnone
    rw [(good_of_run hrun).clean k sock hk hnone]
    rfl
  failed := by
    intro xs k calls hos
    rw [hos] at hrun
    obtain ⟨as₁, a, s₁, -, -, hstep⟩ := Machine.run_last hrun
    exact Sockets.failed_step (Sockets.step_cases hstep)
  closed := by
    intro xs k calls hos
    rw [hos] at hrun
    obtain ⟨as₁, a, s₁, -, hbefore, hstep⟩ := Machine.run_last hrun
    exact Sockets.closed_step (good_of_run hbefore) (Sockets.step_cases hstep)
  moved := by
    intro xs k other calls hos hne
    rw [hos] at hrun
    obtain ⟨as₁, a, s₁, -, hbefore, hstep⟩ := Machine.run_last hrun
    exact Sockets.moved_step (good_of_run hbefore) (Sockets.step_cases hstep) hne

end Runs

/-- A failed connect, a listener whose client is moved over an open socket and into itself, and the
same number given out twice. -/
def exchange : List (SocketAction Nat) :=
  [.construct 0 (.tcp .closed), .connect 0 (.connectFails 3), .connect 0 (.connected 3),
    .construct 1 (.listener .fresh), .listen 1 (.listening 4), .accept 1 2 (.accepted 5),
    .moveAssign 0 2, .moveAssign 0 0, .connect 2 (.connected 3), .destroy 2, .close 0]

theorem handlesOwned_exchange : ∃ s os, (sockets Nat).run .initial exchange = some (s, os) ∧
    .failed 0 [.acquire 3, .use 3, .release 3] ∈ os ∧ .moved 0 2 [.release 3] ∈ os ∧
      HandlesOwned os s := by
  have hrun : (sockets Nat).run .initial exchange = some (_, _) := rfl
  exact ⟨_, _, hrun, by decide, by decide, handlesOwned_of_run hrun⟩

end ZiModem.Hal.Net
