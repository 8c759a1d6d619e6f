import ZiModem.Hal.Net.Available
import ZiModem.Hal.Net.Bio
import ZiModem.Hal.Net.Handles
import ZiModem.Reactive.Family
import ZiModem.Reactive.Reaching

/-! # Calls to an echo server

`StartEchoServer` of the test console at one end, a `TcpSocket` of the modem at the
other. Every client has a task of its own, which reads up to 4096 bytes and writes
them back before it reads again. What is between the two ends is in the buffers of
the two kernels; it arrives in order and in pieces of any size. A full buffer makes
the task wait with its write, and the modem's sends fail. The modem's kernel answers
truthfully, and no connection is reset before the modem closes it.
-/

namespace ZiModem.Console

open Reactive Hal Hal.Net

/-! ## One conversation -/

/-- The task that serves one client. `pending` before `AcceptTcpClientAsync` has returned it,
`finished` after the end of the stream, `failed` after an `IOException`, with what it had not
written. -/
inductive EchoTask
  | pending
  | reading
  | writing (rest : List UInt8)
  | finished
  | failed (dropped : List UInt8)
  deriving DecidableEq, Repr

def EchoTask.rest : EchoTask → List UInt8
  | writing rest | failed rest => rest
  | pending | reading | finished => []

def EchoTask.Disposed : EchoTask → Prop
  | finished | failed _ => True
  | pending | reading | writing _ => False

instance : DecidablePred EchoTask.Disposed
  | .finished | .failed _ => .isTrue trivial
  | .pending | .reading | .writing _ => .isFalse id

/-- How many bytes there is room for: on the way to the server, on the way to the modem, and in the
queue of the modem's kernel. -/
structure Buffers where
  toServer : Nat
  toModem : Nat
  queued : Nat
  toServer_pos : 0 < toServer
  toModem_pos : 0 < toModem
  queued_pos : 0 < queued
  deriving DecidableEq, Repr

structure Conversation where
  room : Buffers
  modem : Endpoint
  toServer : List UInt8
  task : EchoTask
  toModem : List UInt8
  deriving DecidableEq, Repr

/-- Calls of the modem, then steps of the task, then what the network does. -/
inductive EchoAction
  | call (a : StreamAction)
  | write (buf : List UInt8) (w : Send)
  | stop
  | accept
  | readAsync (n : Nat)
  | readFails
  | writeAsync (n : Nat)
  | writeFails
  | arrive (n : Nat)
  | hangUp
  deriving DecidableEq, Repr

inductive EchoEvent
  | stream (o : StreamEvent)
  | wrote (ret : Nat) (sent : List UInt8)
  | echoed (bytes : List UInt8)
  | quiet
  deriving DecidableEq, Repr

def isCall : StreamAction → Bool
  | .read _ _ | .peekByte _ | .available _ | .connected _ => true
  | .arrive _ | .peerClose | .peerReset _ => false

namespace Conversation

/-- The modem has connected, and the listener has not looked yet. -/
def connected (native : Nat) (room : Buffers) : Conversation :=
  ⟨room, .opened native ⟨[], .up, false⟩, [], .pending, []⟩

def sends (s : Conversation) (buf : List UInt8) (w : Send) : List UInt8 :=
  if s.modem.sock.isOpen then buf.take w.ret.toNat else []

def step (s : Conversation) : EchoAction → Option (Conversation × EchoEvent)
  | .call a =>
      if isCall a = true ∧ s.modem.Answers a then
        (s.modem.step a).map fun r => ({ s with modem := r.1 }, .stream r.2)
      else none
  | .write buf w =>
      if w.Fits buf.length ∧
          s.toServer.length + (s.sends buf w).length ≤ s.room.toServer then
        some ({ s with toServer := s.toServer ++ s.sends buf w },
          .wrote (s.modem.sock.write buf (toInt w.ret)) (s.sends buf w))
      else none
  | .stop => some ({ s with modem := { s.modem with sock := s.modem.sock.close } }, .quiet)
  | .accept => if s.task = .pending then some ({ s with task := .reading }, .quiet) else none
  | .readAsync n =>
      if s.task = .reading ∧ n ≤ 4096 ∧ n ≤ s.toServer.length then
        if 0 < n then
          some ({ s with task := .writing (s.toServer.take n), toServer := s.toServer.drop n },
            .quiet)
        else if s.toServer = [] ∧ s.modem.sock.isOpen = false then
          some ({ s with task := .finished }, .quiet)
        else none
      else none
  | .readFails => if s.task = .reading then some ({ s with task := .failed [] }, .quiet) else none
  | .writeAsync n =>
      match s.task with
      | .writing rest =>
          if 0 < n ∧ n ≤ rest.length ∧ s.toModem.length + n ≤ s.room.toModem then
            let task := if n < rest.length then .writing (rest.drop n) else .reading
            some ({ s with task := task, toModem := s.toModem ++ rest.take n },
              .echoed (rest.take n))
          else none
      | _ => none
  | .writeFails =>
      match s.task with
      | .writing rest => some ({ s with task := .failed rest }, .quiet)
      | _ => none
  | .arrive n =>
      if s.modem.sock.isOpen = true ∧ 0 < n ∧ n ≤ s.toModem.length ∧
          s.modem.conn.queued.length + n ≤ s.room.queued then
        (s.modem.step (.arrive (s.toModem.take n))).map fun r =>
          ({ s with modem := r.1, toModem := s.toModem.drop n }, .quiet)
      else none
  | .hangUp =>
      if s.modem.sock.isOpen = true ∧ s.task.Disposed ∧ s.toModem = [] then
        (s.modem.step .peerClose).map fun r => ({ s with modem := r.1 }, .quiet)
      else none

end Conversation

def conversation : Machine Conversation EchoAction EchoEvent := ⟨Conversation.step⟩

def echoServer (κ : Type*) [DecidableEq κ] :
    Machine (κ → Conversation) (κ × EchoAction) (κ × EchoEvent) := conversation.family κ

/-! ## The bytes of a history -/

def EchoEvent.sent : EchoEvent → List UInt8
  | wrote _ sent => sent
  | _ => []

def EchoEvent.written : EchoEvent → List UInt8
  | echoed bytes => bytes
  | _ => []

def EchoEvent.received : EchoEvent → List UInt8
  | stream (.read ret buf _) => buf.take ret.toNat
  | _ => []

def Conversation.unwritten (s : Conversation) : List UInt8 := s.task.rest ++ s.toServer

def Conversation.unread (s : Conversation) : List UInt8 := s.modem.received ++ s.toModem

def serverFlow : Flow Conversation EchoEvent UInt8 where
  held := Conversation.unwritten
  put := EchoEvent.sent
  taken := EchoEvent.written

def modemFlow : Flow Conversation EchoEvent UInt8 where
  held := Conversation.unread
  put := EchoEvent.written
  taken := EchoEvent.received

/-- The modem keeps its connection, and does not ask for more than an `int` can count. -/
def Listens (_ : Conversation) : EchoAction → Prop
  | .call (.read len _) => (len : Int) ≤ intMax
  | .stop => False
  | _ => True

instance (s : Conversation) : DecidablePred (Listens s)
  | .call (.read len _) => inferInstanceAs (Decidable ((len : Int) ≤ intMax))
  | .stop => .isFalse id
  | .call (.arrive _) | .call .peerClose | .call (.peerReset _) => .isTrue trivial
  | .call (.peekByte _) | .call (.available _) | .call (.connected _) => .isTrue trivial
  | .write _ _ | .accept | .readAsync _ | .readFails | .writeAsync _ => .isTrue trivial
  | .writeFails | .arrive _ | .hangUp => .isTrue trivial

/-! ## The modem's end -/

section Modem

variable {s s' : Endpoint}

theorem readRecv_queue {sock : TcpSocket} {c : Conn} {written : List UInt8} {len : Nat} {r : Recv}
    {res : ReadResult} (hr : ∀ d, r ≠ .hardError d)
    (h : TcpSocket.readRecv sock c written len r = some res) :
    c.queued = res.handed ++ res.conn.queued ∧ res.conn.peer = c.peer := by
  unfold TcpSocket.readRecv at h
  cases hrecv : c.recv (len - written.length) r with
  | none => simp [hrecv] at h
  | some out =>
      obtain ⟨c', ssize, bytes⟩ := out
      simp only [hrecv, Option.some.injEq] at h
      rw [← h]
      refine ⟨?_, Conn.recv_peer hrecv⟩
      rcases Conn.recv_cases hrecv with ⟨n, -, -, -, -, -, hqueue, -⟩ | ⟨-, -, rfl, -, hqueue⟩ |
        ⟨-, -, rfl, rfl⟩ | ⟨d, rfl, -⟩
      · exact hqueue
      · exact hqueue.symm
      · rfl
      · exact absurd rfl (hr d)

theorem read_queue {sock : TcpSocket} {c : Conn} {len : Nat} {r : Recv} {res : ReadResult}
    (hopen : sock.isOpen = true) (hr : ∀ d, r ≠ .hardError d)
    (h : sock.read c len r = some res) :
    c.queued = res.handed ++ res.conn.queued ∧ res.conn.peer = c.peer := by
  rcases TcpSocket.read_cases hopen h with ⟨-, rfl⟩ | ⟨b, -, -, rfl⟩ | ⟨-, hrecv⟩
  · exact ⟨rfl, rfl⟩
  · exact ⟨rfl, rfl⟩
  · exact readRecv_queue hr hrecv

theorem peekByte_queue {sock sock' : TcpSocket} {c c' : Conn} {r : Recv} {ret : Int}
    {handed : List UInt8} (hopen : sock.isOpen = true) (hr : ∀ d, r ≠ .hardError d)
    (h : sock.peekByte c r = some (sock', c', ret, handed)) :
    c.queued = handed ++ c'.queued ∧ c'.peer = c.peer := by
  unfold TcpSocket.peekByte at h
  split at h
  next =>
    cases h
    exact ⟨rfl, rfl⟩
  next =>
    cases hread : sock.read c 1 r with
    | none => simp [hread] at h
    | some res =>
        have hqueue := read_queue hopen hr hread
        simp only [hread] at h
        split at h
        · split at h <;> cases h <;> exact hqueue
        · cases h
          exact hqueue

theorem call_handle {a : StreamAction} {o : StreamEvent} (h : s.step a = some (s', o)) :
    s'.sock.handle = s.sock.handle := by
  cases a with
  | read len r =>
      obtain ⟨res, hread, rfl, -⟩ := step_read h
      exact (TcpSocket.read_keeps hread).1
  | peekByte r =>
      obtain ⟨ret, handed, hpeek, -⟩ := step_peekByte h
      exact (TcpSocket.peekByte_keeps hpeek).1
  | _ => rw [(step_observer h (fun _ _ => by simp) (fun _ => by simp)).1]

structure Connected (s : Endpoint) : Prop where
  opened : s.Opened
  peer : s.conn.peer ≠ .reset

/-- A call that is answered truthfully takes from the front of the queue what it hands over, and
from there the bytes that it counts. -/
theorem call_conserves {a : StreamAction} {o : StreamEvent} (hs : Connected s)
    (ha : isCall a = true) (hanswers : s.Answers a) (hcounts : ReadCounts s a)
    (h : s.step a = some (s', o)) :
    s'.Opened ∧ s'.conn.peer = s.conn.peer ∧
      s.received = (EchoEvent.stream o).received ++ s'.received := by
  have hopen' := step_opened hs.opened h
  have hflow := (step_conserves_iff hs.opened h).mpr hcounts
  have hreset : ∀ r : Recv, r.Truthful s.conn → ∀ d, r ≠ .hardError d := by
    rintro r hr d rfl
    exact hs.peer hr
  have hsame : s'.conn.queued = s.conn.queued ∧ s'.conn.peer = s.conn.peer →
      s'.sock = s.sock → s'.Opened ∧ s'.conn.peer = s.conn.peer ∧ s.received = s'.received := by
    rintro ⟨hqueued, hpeer⟩ hsock
    refine ⟨hopen', hpeer, ?_⟩
    rw [Endpoint.received, Endpoint.received, hqueued, hsock]
  cases a with
  | arrive bytes | peerClose | peerReset discard => cases ha
  | available ioctlOk =>
      cases h
      exact hsame ⟨rfl, rfl⟩ rfl
  | connected r =>
      simp only [Endpoint.step] at h
      cases hconn : s.sock.connected s.conn r with
      | none => simp [hconn] at h
      | some out =>
          simp only [hconn] at h
          cases h
          exact hsame (TcpSocket.connected_truthful hs.opened hs.peer hanswers hconn).2 rfl
  | read len r =>
      obtain ⟨res, hread, rfl, rfl⟩ := step_read h
      obtain ⟨hqueue, hpeer⟩ := read_queue hs.opened (hreset r hanswers) hread
      refine ⟨hopen', hpeer, ?_⟩
      have htaken : s.sock.pushback ++ res.handed =
          res.buf.take res.ret.toNat ++ res.sock.pushback := hflow
      rw [Endpoint.received, hqueue, ← List.append_assoc, htaken, List.append_assoc]
      rfl
  | peekByte r =>
      obtain ⟨ret, handed, hpeek, rfl⟩ := step_peekByte h
      obtain ⟨hqueue, hpeer⟩ := peekByte_queue hs.opened (hreset r hanswers) hpeek
      refine ⟨hopen', hpeer, ?_⟩
      have hkept : s.sock.pushback ++ handed = s'.sock.pushback :=
        (TcpSocket.peekByte_cases hs.opened hpeek).2.1
      rw [Endpoint.received, hqueue, ← List.append_assoc, hkept]
      rfl

theorem readCounts_of_fits {a : StreamAction} {o : StreamEvent} (hs : Connected s)
    (hanswers : s.Answers a) (hfits : ∀ len r, a = .read len r → (len : Int) ≤ intMax)
    (h : s.step a = some (s', o)) : ReadCounts s a := by
  cases a with
  | read len r =>
      cases r with
      | data n =>
          obtain ⟨res, hread, -⟩ := step_read h
          have hlen := hfits len _ rfl
          rcases TcpSocket.read_cases hs.opened hread with ⟨hzero, -⟩ | ⟨b, hb, hone, -⟩ |
            ⟨hmore, hrecv⟩
          · exact .inl (hzero ▸ Nat.zero_le _)
          · refine .inl (hone ▸ ?_)
            simp [TcpSocket.pushback, hb]
          · obtain ⟨-, -, hout⟩ := TcpSocket.readRecv_cases hrecv
            rcases hout with ⟨k, hk, -, hle, -⟩ | ⟨hr, -⟩ | ⟨hr, -⟩ | ⟨d, hr, -⟩
            · cases hk
              right
              omega
            all_goals cases hr
      | hardError d => exact absurd hanswers hs.peer
      | wouldBlock | closed => trivial
  | _ => trivial

end Modem

/-! ## One step -/

namespace Conversation

inductive StepCase (s : Conversation) : EchoAction → Conversation → EchoEvent → Prop
  | call (a : StreamAction) (m : Endpoint) (o : StreamEvent) : isCall a = true →
      s.modem.Answers a → s.modem.step a = some (m, o) →
      StepCase s (.call a) { s with modem := m } (.stream o)
  | write (buf : List UInt8) (w : Send) (ret : Nat) :
      StepCase s (.write buf w) { s with toServer := s.toServer ++ s.sends buf w }
        (.wrote ret (s.sends buf w))
  | stop : StepCase s .stop { s with modem := { s.modem with sock := s.modem.sock.close } } .quiet
  | accept : s.task = .pending → StepCase s .accept { s with task := .reading } .quiet
  | readAsync (n : Nat) : s.task = .reading → 0 < n → n ≤ s.toServer.length →
      StepCase s (.readAsync n)
        { s with task := .writing (s.toServer.take n), toServer := s.toServer.drop n } .quiet
  | endOfStream : s.task = .reading → s.toServer = [] → s.modem.sock.isOpen = false →
      StepCase s (.readAsync 0) { s with task := .finished } .quiet
  | readFails : s.task = .reading → StepCase s .readFails { s with task := .failed [] } .quiet
  | writeAsync (n : Nat) (rest : List UInt8) (task : EchoTask) : s.task = .writing rest →
      0 < n → task.rest = rest.drop n →
      (task = .reading ∨ task = .writing (rest.drop n) ∧ n < rest.length) →
      StepCase s (.writeAsync n) { s with task := task, toModem := s.toModem ++ rest.take n }
        (.echoed (rest.take n))
  | writeFails (rest : List UInt8) : s.task = .writing rest →
      StepCase s .writeFails { s with task := .failed rest } .quiet
  | arrive (n : Nat) : s.modem.conn.peer = .up →
      StepCase s (.arrive n)
        { s with
          modem := { s.modem with
            conn := { s.modem.conn with queued := s.modem.conn.queued ++ s.toModem.take n } }
          toModem := s.toModem.drop n } .quiet
  | hangUp : s.task.Disposed → s.toModem = [] →
      StepCase s .hangUp
        { s with modem := { s.modem with conn := { s.modem.conn with peer := .closed } } } .quiet

theorem step_cases {s s' : Conversation} {a : EchoAction} {o : EchoEvent}
    (h : s.step a = some (s', o)) : s.StepCase a s' o := by
  cases a with
  | call a =>
      simp only [step] at h
      split at h
      next hcall =>
        obtain ⟨⟨m, o₁⟩, hstep, heq⟩ := Option.map_eq_some_iff.mp h
        cases heq
        exact .call a m o₁ hcall.1 hcall.2 hstep
      next => cases h
  | write buf w =>
      simp only [step] at h
      split at h <;> cases h
      exact .write buf w _
  | stop =>
      cases h
      exact .stop
  | accept =>
      simp only [step] at h
      split at h <;> cases h
      next htask => exact .accept htask
  | readAsync n =>
      simp only [step] at h
      split at h
      next hread =>
        split at h
        next hpos =>
          cases h
          exact .readAsync n hread.1 hpos hread.2.2
        next hzero =>
          split at h <;> cases h
          next hend =>
            obtain rfl : n = 0 := by omega
            exact .endOfStream hread.1 hend.1 hend.2
      next => cases h
  | readFails =>
      simp only [step] at h
      split at h <;> cases h
      next htask => exact .readFails htask
  | writeAsync n =>
      simp only [step] at h
      split at h
      next rest htask =>
        split at h <;> cases h
        next hn =>
          refine .writeAsync n rest _ htask hn.1 ?_ ?_
          · split
            next => rfl
            next hall => exact (List.drop_eq_nil_of_le (by omega)).symm
          · split
            next hmore => exact .inr ⟨rfl, hmore⟩
            next => exact .inl rfl
      next => cases h
  | writeFails =>
      simp only [step] at h
      split at h
      next rest htask =>
        cases h
        exact .writeFails rest htask
      next => cases h
  | arrive n =>
      simp only [step] at h
      split at h
      next =>
        obtain ⟨⟨m, o₁⟩, hstep, heq⟩ := Option.map_eq_some_iff.mp h
        cases heq
        simp only [Endpoint.step] at hstep
        split at hstep <;> cases hstep
        next hup => exact .arrive n hup
      next => cases h
  | hangUp =>
      simp only [step] at h
      split at h
      next hended =>
        obtain ⟨⟨m, o₁⟩, hstep, heq⟩ := Option.map_eq_some_iff.mp h
        cases heq
        simp only [Endpoint.step] at hstep
        split at hstep <;> cases hstep
        exact .hangUp hended.2.1 hended.2.2
      next => cases h

theorem step_server {s s' : Conversation} {a : EchoAction} {o : EchoEvent}
    (h : s.step a = some (s', o)) : serverFlow.Conserves s o s' := by
  show s.unwritten ++ o.sent = o.written ++ s'.unwritten
  cases step_cases h with
  | call a m o₁ _ _ _ => exact List.append_nil _
  | write buf w ret => exact List.append_assoc ..
  | stop => exact List.append_nil _
  | accept htask => simp [unwritten, htask, EchoTask.rest, EchoEvent.sent, EchoEvent.written]
  | readAsync n htask _ _ =>
      simp [unwritten, htask, EchoTask.rest, EchoEvent.sent, EchoEvent.written]
  | endOfStream htask _ _ =>
      simp [unwritten, htask, EchoTask.rest, EchoEvent.sent, EchoEvent.written]
  | readFails htask => simp [unwritten, htask, EchoTask.rest, EchoEvent.sent, EchoEvent.written]
  | writeAsync n rest task htask _ hrest _ =>
      have hold : s.task.rest = rest := congrArg EchoTask.rest htask
      simp only [unwritten, hold, hrest, EchoEvent.sent, EchoEvent.written, List.append_nil]
      rw [← List.append_assoc, List.take_append_drop]
  | writeFails rest htask =>
      simp [unwritten, htask, EchoTask.rest, EchoEvent.sent, EchoEvent.written]
  | arrive n _ => exact List.append_nil _
  | hangUp _ _ => exact List.append_nil _

theorem step_modem {s s' : Conversation} {a : EchoAction} {o : EchoEvent}
    (hs : Connected s.modem) (hlistens : Listens s a) (h : s.step a = some (s', o)) :
    Connected s'.modem ∧ modemFlow.Conserves s o s' := by
  show _ ∧ s.unread ++ o.written = o.received ++ s'.unread
  cases step_cases h with
  | call a m o₁ hcall hanswers hstep =>
      have hcounts := readCounts_of_fits hs hanswers (by rintro len r rfl; exact hlistens) hstep
      obtain ⟨hopened, hpeer, hflow⟩ := call_conserves hs hcall hanswers hcounts hstep
      refine ⟨⟨hopened, hpeer ▸ hs.peer⟩, ?_⟩
      simp only [unread, hflow, EchoEvent.written, List.append_nil, List.append_assoc]
  | write buf w ret => exact ⟨hs, List.append_nil _⟩
  | stop => exact absurd hlistens id
  | accept _ | readAsync _ _ _ _ | endOfStream _ _ _ | readFails _ | writeFails _ _ =>
      exact ⟨hs, List.append_nil _⟩
  | writeAsync n rest task _ _ _ _ => exact ⟨hs, List.append_assoc ..⟩
  | arrive n _ =>
      refine ⟨⟨hs.opened, hs.peer⟩, ?_⟩
      simp [unread, Endpoint.received, EchoEvent.written, EchoEvent.received]
  | hangUp _ _ =>
      refine ⟨⟨hs.opened, by simp⟩, ?_⟩
      simp [unread, Endpoint.received, EchoEvent.written, EchoEvent.received]

structure Served (s : Conversation) : Prop where
  writing : ∀ rest, s.task = .writing rest → rest ≠ []
  finished : s.task = .finished → s.toServer = [] ∧ s.modem.sock.isOpen = false

theorem Served.step {s s' : Conversation} {a : EchoAction} {o : EchoEvent} (hs : s.Served)
    (h : s.step a = some (s', o)) : s'.Served := by
  cases step_cases h with
  | call a m o₁ _ _ hstep =>
      refine ⟨hs.writing, fun htask => ⟨(hs.finished htask).1, ?_⟩⟩
      have hclosed := (hs.finished htask).2
      rwa [TcpSocket.isOpen, ← call_handle hstep] at hclosed
  | write buf w ret =>
      refine ⟨hs.writing, fun htask => ⟨?_, (hs.finished htask).2⟩⟩
      simp [sends, hs.finished htask]
  | stop => exact ⟨hs.writing, fun htask => ⟨(hs.finished htask).1, rfl⟩⟩
  | accept _ | readFails _ | writeFails _ _ => exact ⟨by simp, by simp⟩
  | readAsync n _ hpos hle =>
      refine ⟨fun rest htask => ?_, by simp⟩
      cases htask
      rw [← List.length_pos_iff, List.length_take]
      omega
  | endOfStream _ hnil hclosed => exact ⟨by simp, fun _ => ⟨hnil, hclosed⟩⟩
  | writeAsync n rest task _ _ _ htask =>
      rcases htask with rfl | ⟨rfl, hmore⟩
      · exact ⟨by simp, by simp⟩
      · refine ⟨fun rest' heq => ?_, by simp⟩
        cases heq
        rw [← List.length_pos_iff, List.length_drop]
        omega
  | arrive n _ | hangUp _ _ => exact ⟨hs.writing, hs.finished⟩

/-- The modem is connected, and nothing but the task's own end closes the far end. -/
structure Attended (s : Conversation) : Prop where
  connected : Connected s.modem
  up : ¬ s.task.Disposed → s.modem.conn.peer = .up

theorem attended_connected (native : Nat) (room : Buffers) : (connected native room).Attended where
  connected := ⟨rfl, by simp [connected, Endpoint.opened]⟩
  up := fun _ => rfl

theorem Attended.step {s s' : Conversation} {a : EchoAction} {o : EchoEvent} (hs : s.Attended)
    (hlistens : Listens s a) (h : s.step a = some (s', o)) : s'.Attended := by
  refine ⟨(step_modem hs.connected hlistens h).1, fun hlive => ?_⟩
  cases step_cases h with
  | call a m o₁ hcall hanswers hstep =>
      have hcounts :=
        readCounts_of_fits hs.connected hanswers (by rintro len r rfl; exact hlistens) hstep
      have hpeer := (call_conserves hs.connected hcall hanswers hcounts hstep).2.1
      exact hpeer.trans (hs.up hlive)
  | write buf w ret => exact hs.up hlive
  | stop => exact absurd hlistens id
  | accept htask | readAsync _ htask _ _ =>
      apply hs.up
      rw [htask]
      exact id
  | endOfStream _ _ _ | readFails _ | writeFails _ _ => exact absurd trivial hlive
  | writeAsync n rest task htask _ _ _ =>
      apply hs.up
      rw [htask]
      exact id
  | arrive n hup => exact hup
  | hangUp hended _ => exact absurd hended hlive

end Conversation

/-! ## Whole runs -/

section Runs

variable {native : Nat} {room : Buffers} {as : List EchoAction} {s : Conversation}
  {os : List EchoEvent}

theorem server_of_run (hrun : conversation.run (.connected native room) as = some (s, os)) :
    os.flatMap EchoEvent.sent = os.flatMap EchoEvent.written ++ s.unwritten :=
  serverFlow.balanced_run (M := conversation) (J := fun _ => True) (fun _ _ _ _ _ _ => trivial)
    (fun _ _ _ _ _ hstep => Conversation.step_server hstep) trivial hrun

theorem served_of_run (hrun : conversation.run (.connected native room) as = some (s, os)) :
    s.Served :=
  Machine.invariant (M := conversation) (fun _ _ _ _ hs hstep => hs.step hstep)
    ⟨by simp [Conversation.connected], by simp [Conversation.connected]⟩ hrun

theorem attended_of_run (hlistens : conversation.Along Listens (.connected native room) as)
    (hrun : conversation.run (.connected native room) as = some (s, os)) : s.Attended :=
  Machine.invariant_along (M := conversation) (fun _ _ _ _ hs hg hstep => hs.step hg hstep)
    (Conversation.attended_connected native room) hlistens hrun

theorem modem_of_run (hlistens : conversation.Along Listens (.connected native room) as)
    (hrun : conversation.run (.connected native room) as = some (s, os)) :
    os.flatMap EchoEvent.written = os.flatMap EchoEvent.received ++ s.unread :=
  modemFlow.balanced_along (M := conversation) (J := fun s => Connected s.modem)
    (fun _ _ _ _ hs hg hstep => (Conversation.step_modem hs hg hstep).1)
    (fun _ _ _ _ hs hg hstep => (Conversation.step_modem hs hg hstep).2)
    (Conversation.attended_connected native room).connected hlistens hrun

end Runs

/-- What a conversation has come to: the task has written back what the modem sent, in order, up to
what it has still to do, and all of it once the stream has ended; and the modem has read what the
task wrote, up to what is on its way, while it keeps the connection. -/
structure Echoes (native : Nat) (room : Buffers) (as : List EchoAction) (os : List EchoEvent)
    (s : Conversation) : Prop where
  written : os.flatMap EchoEvent.sent = os.flatMap EchoEvent.written ++ s.unwritten
  finished : s.task = .finished → os.flatMap EchoEvent.sent = os.flatMap EchoEvent.written
  received : conversation.Along Listens (.connected native room) as →
    os.flatMap EchoEvent.written = os.flatMap EchoEvent.received ++ s.unread

/-! ## Nothing gets stuck -/

/-- The steps of the task and of the network, and reads of the modem. -/
def EchoAction.GoesOn : EchoAction → Prop
  | accept | readAsync _ | writeAsync _ | arrive _ => True
  | call (.read len _) => (len : Int) ≤ intMax
  | _ => False

theorem EchoAction.GoesOn.listens {b : EchoAction} (hb : b.GoesOn) (s : Conversation) :
    Listens s b := by
  cases b with
  | accept | readAsync _ | writeAsync _ | arrive _ => trivial
  | call a =>
      cases a with
      | read len r => exact hb
      | _ => exact absurd hb id
  | _ => exact absurd hb id

theorem read_one {s : Endpoint} (hs : Connected s) (hreceived : s.received ≠ []) :
    ∃ r s' o, r.Truthful s.conn ∧ s.step (.read 1 r) = some (s', o) ∧
      s'.received.length < s.received.length := by
  obtain ⟨⟨handle, peeked⟩, ⟨queued, peer, errnoBlocks⟩⟩ := s
  have hopen : handle.isSome = true := hs.opened
  cases peeked with
  | some b =>
      obtain ⟨r, htruthful, -⟩ := Recv.truthful_exists hs.peer
      refine ⟨r, ⟨⟨handle, none⟩, ⟨queued, peer, errnoBlocks⟩⟩, .read 1 [b] [], htruthful, ?_, ?_⟩
      · simp [Endpoint.step, TcpSocket.read, TcpSocket.isOpen, hopen]
      · simp [Endpoint.received, TcpSocket.pushback]
  | none =>
      cases queued with
      | nil => simp [Endpoint.received, TcpSocket.pushback] at hreceived
      | cons b queued =>
          refine ⟨.data 1, ⟨⟨handle, none⟩, ⟨queued, peer, errnoBlocks⟩⟩, .read 1 [b] [b],
            by simp [Recv.Truthful], ?_, ?_⟩
          · have hone : toInt 1 = 1 := by decide
            simp [Endpoint.step, TcpSocket.read, TcpSocket.isOpen, hopen, TcpSocket.readRecv,
              Conn.recv, hone]
          · simp [Endpoint.received, TcpSocket.pushback]

namespace Conversation

variable {s : Conversation}

/-- Nothing is on its way any more, and the modem has read what came. -/
def Settled (s : Conversation) : Prop := s.unwritten = [] ∧ s.unread = []

def distance (s : Conversation) : Nat :=
  4 * s.toServer.length + 3 * s.task.rest.length + 2 * s.toModem.length +
    s.modem.received.length + if s.task = .pending then 1 else 0

/-- The task, the network or a read of the modem can take something on its way one step further. -/
def Advances (s : Conversation) : Prop :=
  ∃ b s' o, b.GoesOn ∧ conversation.step s b = some (s', o) ∧ ¬ s'.task.Disposed ∧
    s'.distance < s.distance

theorem modem_reads (ha : s.Attended) (hlive : ¬ s.task.Disposed)
    (hreceived : s.modem.received ≠ []) : s.Advances := by
  have hopen : s.modem.sock.isOpen = true := ha.connected.opened
  obtain ⟨r, m, o, htruthful, hread, hless⟩ := read_one ha.connected hreceived
  have hstep : conversation.step s (.call (.read 1 r)) =
      some ({ s with modem := m }, .stream o) := by
    simp [conversation, step, isCall, Endpoint.Answers, htruthful, hread]
  refine ⟨_, _, _, by simp [EchoAction.GoesOn, intMax], hstep, hlive, ?_⟩
  simp only [distance]
  omega

theorem network_delivers (ha : s.Attended) (hlive : ¬ s.task.Disposed)
    (hqueued : s.modem.conn.queued = []) (htoModem : s.toModem ≠ []) : s.Advances := by
  have hopen : s.modem.sock.isOpen = true := ha.connected.opened
  have hup := ha.up hlive
  have hpos : 0 < s.toModem.length := List.length_pos_iff.mpr htoModem
  have hroom : 0 + 1 ≤ s.room.queued := s.room.queued_pos
  have hstep : conversation.step s (.arrive 1) = some ({ s with
      modem := { s.modem with
        conn := { s.modem.conn with queued := s.modem.conn.queued ++ s.toModem.take 1 } }
      toModem := s.toModem.drop 1 }, .quiet) := by
    have hle : 1 ≤ s.toModem.length := hpos
    simp only [conversation, step, hopen, hqueued, List.length_nil, Nat.one_pos, hle, hroom,
      and_self, if_true, Endpoint.step, hup, Option.map_some]
  refine ⟨.arrive 1, _, _, trivial, hstep, hlive, ?_⟩
  simp only [distance, Endpoint.received, hqueued, List.length_append, List.length_drop,
    List.length_take, List.length_nil]
  omega

theorem task_begins (htask : s.task = .pending) : s.Advances := by
  have hstep : conversation.step s .accept = some ({ s with task := .reading }, .quiet) := by
    simp only [conversation, step, htask, if_true]
  refine ⟨.accept, _, _, trivial, hstep, id, ?_⟩
  simp [distance, htask, EchoTask.rest]

theorem task_reads (htask : s.task = .reading) (htoServer : s.toServer ≠ []) : s.Advances := by
  have hpos : 0 < s.toServer.length := List.length_pos_iff.mpr htoServer
  have hstep : conversation.step s (.readAsync 1) = some ({ s with
      task := .writing (s.toServer.take 1), toServer := s.toServer.drop 1 }, .quiet) := by
    have hle : 1 ≤ s.toServer.length := hpos
    simp only [conversation, step, htask, hle, Nat.one_pos, and_self, if_true, Nat.reduceLeDiff]
  refine ⟨.readAsync 1, _, _, trivial, hstep, id, ?_⟩
  simp only [distance, htask, EchoTask.rest, List.length_drop, List.length_take,
    List.length_nil, reduceCtorEq, if_false]
  omega

theorem task_writes {rest : List UInt8} (htask : s.task = .writing rest) (hrest : rest ≠ [])
    (htoModem : s.toModem = []) : s.Advances := by
  have hpos : 0 < rest.length := List.length_pos_iff.mpr hrest
  have hroom : 0 + 1 ≤ s.room.toModem := s.room.toModem_pos
  have hle : 1 ≤ rest.length := hpos
  obtain ⟨task, hstep, hdrop, hlive', hbegun⟩ : ∃ task, conversation.step s (.writeAsync 1) =
        some ({ s with task := task, toModem := s.toModem ++ rest.take 1 },
          .echoed (rest.take 1)) ∧
      task.rest = rest.drop 1 ∧ ¬ task.Disposed ∧ task ≠ .pending := by
    simp only [conversation, step, htask, htoModem, List.length_nil, Nat.one_pos, hle, hroom,
      and_self, if_true]
    refine ⟨_, rfl, ?_⟩
    split
    next => exact ⟨rfl, id, by simp⟩
    next hlast => exact ⟨(List.drop_eq_nil_of_le (by omega)).symm, id, by simp⟩
  refine ⟨.writeAsync 1, _, _, trivial, hstep, hlive', ?_⟩
  have hold : s.task.rest = rest := congrArg EchoTask.rest htask
  simp only [distance, hdrop, hold, List.length_drop, List.length_append, List.length_take,
    if_neg hbegun]
  omega

/-- As long as something is on its way, it can be moved: the modem can read, and once it has read
all there is, its queue has room for what the task has written; and so on up to the modem's own
writes. -/
theorem goes_on (hs : s.Served) (ha : s.Attended) (hlive : ¬ s.task.Disposed)
    (hmore : ¬ s.Settled) : s.Advances := by
  by_cases hreceived : s.modem.received = []
  swap
  · exact modem_reads ha hlive hreceived
  have hqueued : s.modem.conn.queued = [] := (List.append_eq_nil_iff.mp hreceived).2
  by_cases htoModem : s.toModem = []
  swap
  · exact network_delivers ha hlive hqueued htoModem
  cases htask : s.task with
  | pending => exact task_begins htask
  | reading =>
      apply task_reads htask
      intro hnil
      exact hmore ⟨by simp [unwritten, htask, EchoTask.rest, hnil], by
        simp [unread, hreceived, htoModem]⟩
  | writing rest => exact task_writes htask (hs.writing rest htask) htoModem
  | finished | failed dropped =>
      rw [htask] at hlive
      exact absurd trivial hlive

theorem live_settles (hs : s.Served) (ha : s.Attended) (hlive : ¬ s.task.Disposed) :
    ∃ s', conversation.Reaches EchoAction.GoesOn s s' ∧ s'.Settled := by
  have hround : ∀ s : Conversation, (s.Served ∧ s.Attended ∧ ¬ s.task.Disposed) → ¬ s.Settled →
      ∃ s₁, conversation.Reaches EchoAction.GoesOn s s₁ ∧
        (s₁.Served ∧ s₁.Attended ∧ ¬ s₁.task.Disposed) ∧ s₁.distance < s.distance := by
    rintro s ⟨hs, ha, hlive⟩ hmore
    obtain ⟨b, s₁, o, hb, hstep, hlive₁, hless⟩ := goes_on hs ha hlive hmore
    exact ⟨s₁, .single hstep hb, ⟨hs.step hstep, ha.step (hb.listens s) hstep, hlive₁⟩, hless⟩
  obtain ⟨s', hreaches, -, hsettled⟩ :=
    Machine.reaches_of_variant distance hround ⟨hs, ha, hlive⟩
  exact ⟨s', hreaches, hsettled⟩

end Conversation

section Clients

variable {κ : Type*} [DecidableEq κ] {native : κ → Nat} {room : κ → Buffers}
  {as : List (κ × EchoAction)} {s : κ → Conversation} {os : List (κ × EchoEvent)}

/-- Whatever the clients do, and however their tasks and the network interleave: each of them is
sent back its own bytes, in order, none lost and none twice. -/
theorem echoes_exactly
    (hrun : (echoServer κ).run (fun k => .connected (native k) (room k)) as = some (s, os))
    (k : κ) :
    Echoes (native k) (room k) (Machine.part k as) (Machine.part k os) (s k) := by
  have hrun' := Machine.family_run hrun k
  have hserver := server_of_run hrun'
  refine ⟨hserver, fun htask => ?_, fun hlistens => modem_of_run hlistens hrun'⟩
  have hnil : (s k).unwritten = [] := by
    simp [Conversation.unwritten, htask, EchoTask.rest, ((served_of_run hrun').finished htask).1]
  rw [hserver, hnil, List.append_nil]

/-- Room for two bytes in each direction, and for one in the modem's queue. -/
def smallRoom : Buffers := ⟨2, 2, 1, by decide, by decide, by decide⟩

/-- Two clients at once: one peeks at the first of its two bytes and reads it, the other one hangs
up behind its only byte. -/
def twoClients : List (Bool × EchoAction) :=
  [(true, .write [72, 73] (.sent 2)), (false, .write [1, 2] (.sent 1)), (true, .accept),
    (true, .readAsync 1), (false, .stop), (false, .accept), (true, .writeAsync 1),
    (false, .readAsync 1), (true, .arrive 1), (true, .call (.peekByte (.data 1))),
    (true, .call (.read 1 .wouldBlock)), (false, .writeAsync 1), (false, .readAsync 0)]

theorem twoClients_echo :
    ∃ s os, (echoServer Bool).run (fun _ => .connected 3 smallRoom) twoClients = some (s, os) ∧
      (s false).task = .finished ∧ (Machine.part true os).flatMap EchoEvent.received = [72] ∧
        ∀ k, Echoes 3 smallRoom (Machine.part k twoClients) (Machine.part k os) (s k) := by
  have hrun : (echoServer Bool).run (fun _ => .connected 3 smallRoom) twoClients =
      some (_, _) := rfl
  exact ⟨_, _, hrun, rfl, rfl, echoes_exactly hrun⟩

/-- As long as a client keeps its connection and its task runs, neither end waits for the other for
good, however small the buffers: the task, the network and reads of the modem can go on until the
modem has read all that it sent. -/
theorem echo_comes_back
    (hrun : (echoServer κ).run (fun k => .connected (native k) (room k)) as = some (s, os)) (k : κ)
    (hlistens : conversation.Along Listens (.connected (native k) (room k)) (Machine.part k as))
    (hlive : ¬ (s k).task.Disposed) :
    ∃ bs s' os', conversation.run (s k) bs = some (s', os') ∧ (∀ b ∈ bs, b.GoesOn) ∧
      (Machine.part k os ++ os').flatMap EchoEvent.received =
        (Machine.part k os ++ os').flatMap EchoEvent.sent := by
  have hrun' := Machine.family_run hrun k
  obtain ⟨s', ⟨bs, os', hbs, hgoesOn⟩, hunwritten, hunread⟩ :=
    Conversation.live_settles (served_of_run hrun') (attended_of_run hlistens hrun') hlive
  have hwhole : conversation.run (.connected (native k) (room k)) (Machine.part k as ++ bs) =
      some (s', Machine.part k os ++ os') :=
    Machine.run_append_iff.mpr ⟨s k, _, os', hrun', hbs, rfl⟩
  have hall : conversation.Along Listens (.connected (native k) (room k))
      (Machine.part k as ++ bs) := by
    refine (Machine.along_append hrun').mpr ⟨hlistens, ?_⟩
    exact Machine.along_of_mem (P := Listens (s k)) (fun b hb => (hgoesOn b hb).listens _) _
  refine ⟨bs, s', os', hbs, hgoesOn, ?_⟩
  rw [server_of_run hwhole, modem_of_run hall hwhole, hunwritten, hunread, List.append_nil,
    List.append_nil]

/-- The other byte of the first client comes back. -/
theorem twoClients_settle :
    ∃ s os, (echoServer Bool).run (fun _ => .connected 3 smallRoom) twoClients = some (s, os) ∧
      ∃ bs s' os', conversation.run (s true) bs = some (s', os') ∧ (∀ b ∈ bs, b.GoesOn) ∧
        (Machine.part true os ++ os').flatMap EchoEvent.received =
          (Machine.part true os ++ os').flatMap EchoEvent.sent := by
  have hrun : (echoServer Bool).run (fun _ => .connected 3 smallRoom) twoClients = some (_, _) :=
    rfl
  exact ⟨_, _, hrun, echo_comes_back hrun true (by decide) id⟩

end Clients

end ZiModem.Console
