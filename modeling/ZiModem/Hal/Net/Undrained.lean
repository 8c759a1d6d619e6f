import ZiModem.Hal.Net.Stream
import ZiModem.Hal.Net.TlsCalls

/-! # Data that is left to read

A client reads for as long as `connected()` says so, and `connected()` asks the
operating system. Both sockets move bytes out of its queue into buffers of their
own before the caller reads them, so once the far end has closed, the answer no
longer counts what is left. The runs here are those in which the far end does
not reset and the operating system answers truthfully.
-/

namespace ZiModem.Hal.Net

open Reactive

/-! ## The rule for both sockets -/

section Rule

variable {σ α ω : Type*}

/-- What is left to read keeps the client connected, and observing it never disconnects it. -/
structure StaysConnected (M : Machine σ α ω) (undrained up : σ → Prop) (observes : α → Prop)
    (s₀ : σ) (as : List α) : Prop where
  undrained_up : M.Throughout (fun _ s => undrained s → up s) s₀ as
  observed_up : ∀ bs a, bs ++ [a] <+: as → observes a → ∀ s os s' o,
    M.run s₀ bs = some (s, os) → M.step s a = some (s', o) → up s → up s'

variable {M : Machine σ α ω} {undrained up : σ → Prop} {observes : α → Prop} {J : σ → Prop}
  {G : σ → α → Prop}

theorem staysConnected_nil {s₀ : σ} :
    StaysConnected M undrained up observes s₀ [] ↔ (undrained s₀ → up s₀) := by
  constructor
  · intro h
    exact Machine.throughout_nil.mp h.undrained_up
  · intro h₀
    refine ⟨Machine.throughout_nil.mpr h₀, fun bs a hbs => ?_⟩
    simp at hbs

theorem staysConnected_snoc {s₀ s s' : σ} {as : List α} {a : α} {os : List ω} {o : ω}
    (hrun : M.run s₀ as = some (s, os)) (hstep : M.step s a = some (s', o)) :
    StaysConnected M undrained up observes s₀ (as ++ [a]) ↔
      StaysConnected M undrained up observes s₀ as ∧
        (undrained s' → up s') ∧ (observes a → up s → up s') := by
  have hafter := Machine.run_snoc_iff.mpr ⟨s, os, o, hrun, hstep, rfl⟩
  constructor
  · intro h
    obtain ⟨hbefore, hlast⟩ := (Machine.throughout_snoc hafter).mp h.undrained_up
    refine ⟨⟨hbefore, fun bs b hbs => ?_⟩, hlast, fun ha => ?_⟩
    · exact h.observed_up bs b (hbs.trans (List.prefix_append _ _))
    · exact h.observed_up as a List.prefix_rfl ha s os s' o hrun hstep
  · rintro ⟨h, hlast, hobserved⟩
    refine ⟨(Machine.throughout_snoc hafter).mpr ⟨h.undrained_up, hlast⟩, ?_⟩
    intro bs b hbs hb s₁ os₁ s₂ o₂ hrun₁ hstep₁ hup
    rcases List.prefix_concat_iff.mp hbs with heq | hbs
    · obtain ⟨rfl, hb'⟩ := List.append_inj' heq rfl
      cases hb'
      cases hrun.symm.trans hrun₁
      cases hstep.symm.trans hstep₁
      exact hobserved hb hup
    · exact h.observed_up bs b hbs hb s₁ os₁ s₂ o₂ hrun₁ hstep₁ hup

/-- Where `G` allows exactly the steps that leave the client as it should be, a client stays
connected exactly along allowed steps. -/
theorem staysConnected_iff (hJ : ∀ s a s' o, J s → M.step s a = some (s', o) → J s')
    (hstep : ∀ s a s' o, J s → (undrained s → up s) → M.step s a = some (s', o) →
      ((undrained s' → up s') ∧ (observes a → up s → up s') ↔ G s a))
    {s₀ s : σ} {as : List α} {os : List ω} (hj : J s₀) (hrun : M.run s₀ as = some (s, os)) :
    StaysConnected M undrained up observes s₀ as ↔
      (undrained s₀ → up s₀) ∧ M.Along G s₀ as := by
  induction as using List.reverseRecOn generalizing s os with
  | nil => simp [staysConnected_nil]
  | append_singleton as a ih =>
      obtain ⟨s₁, os₁, o, h₁, h₂, rfl⟩ := Machine.run_snoc_iff.mp hrun
      have hj₁ : J s₁ := Machine.invariant hJ hj h₁
      rw [staysConnected_snoc h₁ h₂, ih h₁, Machine.along_append h₁, Machine.along_cons h₂, and_assoc]
      simp only [Machine.along_nil, and_true]
      apply and_congr_right
      intro h₀
      apply and_congr_right
      intro halong
      have hstays := (ih h₁).mpr ⟨h₀, halong⟩
      exact hstep s₁ a s o hj₁ (hstays.undrained_up as List.prefix_rfl s₁ os₁ h₁) h₂

end Rule

/-! ## The kernel's answers -/

/-- The answer fits what is queued and what the far end has done. -/
def Recv.Truthful (c : Conn) : Recv → Prop
  | .data _ => c.queued ≠ []
  | .wouldBlock => c.queued = [] ∧ c.peer = .up
  | .closed => c.queued = [] ∧ c.peer = .closed
  | .hardError _ => c.peer = .reset

instance (c : Conn) : DecidablePred (Recv.Truthful c)
  | .data _ => inferInstanceAs (Decidable (c.queued ≠ []))
  | .wouldBlock | .closed => inferInstanceAs (Decidable (_ ∧ _))
  | .hardError _ => inferInstanceAs (Decidable (c.peer = .reset))

def Conn.Live (c : Conn) : Prop := c.queued ≠ [] ∨ c.peer = .up

instance (c : Conn) : Decidable c.Live := inferInstanceAs (Decidable (_ ∨ _))

theorem Recv.truthful_exists {c : Conn} (hreset : c.peer ≠ .reset) :
    ∃ r : Recv, r.Truthful c ∧ (c.recvPeek r).isSome = true := by
  by_cases hqueued : c.queued = []
  · cases hpeer : c.peer with
    | up => exact ⟨.wouldBlock, ⟨hqueued, hpeer⟩, rfl⟩
    | closed => exact ⟨.closed, ⟨hqueued, hpeer⟩, rfl⟩
    | reset => exact absurd hpeer hreset
  · exact ⟨.data 1, hqueued, by simp [Conn.recvPeek, hqueued]⟩

theorem TcpSocket.connected_truthful {s : TcpSocket} {c c' : Conn} {r : Recv} {up : Bool}
    (hopen : s.isOpen = true) (hreset : c.peer ≠ .reset) (hr : r.Truthful c)
    (h : s.connected c r = some (c', up)) :
    (up = true ↔ c.Live) ∧ c'.queued = c.queued ∧ c'.peer = c.peer := by
  cases r with
  | data n =>
      by_cases hn : n = 1 ∧ c.queued ≠ []
      · simp only [connected, hopen, Conn.recvPeek, if_pos hn, Bool.true_eq_false, if_false] at h
        cases h
        simp [Conn.Live, hn.2]
      · simp [connected, hopen, Conn.recvPeek, hn] at h
  | wouldBlock =>
      simp [connected, hopen, Conn.recvPeek] at h
      obtain ⟨rfl, rfl⟩ := h
      simp [Conn.Live, hr.2]
  | closed =>
      simp [connected, hopen, Conn.recvPeek] at h
      obtain ⟨rfl, rfl⟩ := h
      simp [Conn.Live, hr.1, hr.2]
  | hardError discard => exact absurd hr hreset

theorem TcpSocket.connected_isSome {s : TcpSocket} {c : Conn} {r : Recv}
    (h : (c.recvPeek r).isSome = true) : ∃ c' up, s.connected c r = some (c', up) := by
  obtain ⟨⟨c', n⟩, hpeek⟩ := Option.isSome_iff_exists.mp h
  simp only [connected, hpeek]
  split
  · exact ⟨_, _, rfl⟩
  · split
    · exact ⟨_, _, rfl⟩
    · split <;> exact ⟨_, _, rfl⟩

/-! ## `WiFiClient` over a TCP socket -/

/-- `TcpSocket::write`, with the value of `send` as an `int`. -/
def TcpSocket.write (s : TcpSocket) (buf : List UInt8) (n : Int) : Nat :=
  if s.isOpen = false ∨ buf.length = 0 then 0 else if 0 < n then n.toNat else 0

/-- A step of the byte stream, or a write, which it does not see. -/
inductive ClientAction
  | stream (a : StreamAction)
  | write (buf : List UInt8) (n : Int)
  deriving DecidableEq, Repr

inductive ClientEvent
  | stream (o : StreamEvent)
  | write (n : Nat)
  deriving DecidableEq, Repr

/-- The kernel answers truthfully, and the far end does not reset. -/
def Endpoint.Answers (s : Endpoint) : StreamAction → Prop
  | .read _ r | .peekByte r | .connected r => r.Truthful s.conn
  | .peerReset _ => False
  | _ => True

instance (s : Endpoint) : DecidablePred s.Answers
  | .read _ r | .peekByte r | .connected r => inferInstanceAs (Decidable (r.Truthful s.conn))
  | .peerReset _ => .isFalse id
  | .arrive _ | .peerClose | .available _ => .isTrue trivial

def tcpClient : Machine Endpoint ClientAction ClientEvent where
  step s
    | .stream a => if s.Answers a then (s.step a).map fun r => (r.1, .stream r.2) else none
    | .write buf n => some (s, .write (s.sock.write buf n))

def Endpoint.Undrained (s : Endpoint) : Prop := s.sock.peeked ≠ none ∨ s.conn.queued ≠ []

def Endpoint.Up (s : Endpoint) : Prop :=
  ∀ r c' up, r.Truthful s.conn → s.sock.connected s.conn r = some (c', up) → up = true

def ClientAction.Observes : ClientAction → Prop
  | .stream (.available _) | .stream (.peekByte _) => True
  | _ => False

/-- The far end does not close while a pushed-back byte is all that is left, and no peek takes the
last byte out of the queue once it has closed. -/
def KeepsQueue (s : Endpoint) : ClientAction → Prop
  | .stream .peerClose => s.sock.peeked ≠ none → s.conn.queued ≠ []
  | .stream (.peekByte _) =>
      s.conn.peer = .closed → s.sock.peeked = none → s.conn.queued.length ≠ 1
  | _ => True

instance (s : Endpoint) : DecidablePred (KeepsQueue s)
  | .stream .peerClose => inferInstanceAs (Decidable (s.sock.peeked ≠ none → _))
  | .stream (.peekByte _) => inferInstanceAs (Decidable (s.conn.peer = .closed → _ → _ ≠ _))
  | .stream (.arrive _) | .stream (.peerReset _) | .stream (.read _ _) => .isTrue trivial
  | .stream (.available _) | .stream (.connected _) | .write _ _ => .isTrue trivial

structure Endpoint.Client (s : Endpoint) : Prop where
  opened : s.sock.isOpen = true
  peer : s.conn.peer ≠ .reset

section Tcp

variable {s s' : Endpoint}

theorem Conn.recv_peer {c c' : Conn} {len : Nat} {r : Recv} {n : Int} {bytes : List UInt8}
    (h : c.recv len r = some (c', n, bytes)) : c'.peer = c.peer := by
  cases r with
  | data k =>
      simp only [Conn.recv] at h
      split at h <;> cases h
      rfl
  | _ =>
      cases h
      rfl

theorem read_clears {len : Nat} {r : Recv} {o : StreamEvent} (hopen : s.sock.isOpen = true)
    (h : s.step (.read len r) = some (s', o)) :
    s' = s ∨ s'.sock.isOpen = true ∧ s'.sock.peeked = none ∧ s'.conn.peer = s.conn.peer := by
  obtain ⟨res, hread, rfl, -⟩ := step_read h
  rcases TcpSocket.read_cases hopen hread with ⟨-, rfl⟩ | ⟨b, -, -, rfl⟩ | ⟨-, hrecv⟩
  · exact .inl rfl
  · exact .inr ⟨hopen, rfl, rfl⟩
  · have hsock := (TcpSocket.readRecv_cases hrecv).1
    unfold TcpSocket.readRecv at hrecv
    split at hrecv
    · cases hrecv
    next c' ssize bytes hconn =>
      cases hrecv
      exact .inr ⟨hopen, rfl, Conn.recv_peer hconn⟩

theorem peekByte_takes {r : Recv} {o : StreamEvent} (hclient : s.Client)
    (hr : r.Truthful s.conn) (hnone : s.sock.peeked = none)
    (h : s.step (.peekByte r) = some (s', o)) :
    s'.sock.isOpen = true ∧ s'.conn.peer = s.conn.peer ∧
      ((∃ b, s.conn.queued = b :: s'.conn.queued ∧ s'.sock.peeked = some b) ∨
        (s.conn.queued = [] ∧ s'.conn.queued = [] ∧ s'.sock.peeked = none)) := by
  obtain ⟨ret, handed, hpeek, -⟩ := step_peekByte h
  obtain ⟨hopen', -, -⟩ := TcpSocket.peekByte_cases hclient.opened hpeek
  refine ⟨hopen', ?_⟩
  obtain ⟨⟨handle, peeked⟩, conn⟩ := s
  have hopen : handle.isSome = true := hclient.opened
  dsimp only at hnone hr
  subst hnone
  simp only [TcpSocket.peekByte, TcpSocket.read, TcpSocket.isOpen, hopen, TcpSocket.readRecv,
    Bool.true_eq_false, Nat.one_ne_zero, or_self, if_false, List.length_nil, Nat.sub_zero] at hpeek
  cases r with
  | data n =>
      by_cases hn : 0 < n ∧ n ≤ 1 ∧ n ≤ conn.queued.length
      · obtain rfl : n = 1 := by omega
        cases hqueued : conn.queued with
        | nil => exact absurd hqueued hr
        | cons b rest =>
            have hone : toInt 1 = 1 := by decide
            simp [Conn.recv, hqueued, hone] at hpeek
            obtain ⟨hsock, hconn, -⟩ := hpeek
            rw [← hsock, ← hconn]
            exact ⟨rfl, .inl ⟨b, rfl, rfl⟩⟩
      · simp [Conn.recv, hn] at hpeek
  | wouldBlock | closed =>
      simp [Conn.recv] at hpeek
      obtain ⟨hsock, hconn, -⟩ := hpeek
      rw [← hsock, ← hconn]
      exact ⟨rfl, .inr ⟨hr.1, hr.1, rfl⟩⟩
  | hardError discard => exact absurd hr hclient.peer

theorem Endpoint.Client.up_iff (h : s.Client) : s.Up ↔ s.conn.queued ≠ [] ∨ s.conn.peer = .up := by
  constructor
  · intro hup
    obtain ⟨r, hr, hanswer⟩ := Recv.truthful_exists h.peer
    obtain ⟨c', up, hconnected⟩ := TcpSocket.connected_isSome (s := s.sock) hanswer
    exact (TcpSocket.connected_truthful h.opened h.peer hr hconnected).1.mp
      (hup r c' up hr hconnected)
  · intro hlive r c' up hr hconnected
    exact (TcpSocket.connected_truthful h.opened h.peer hr hconnected).1.mpr hlive

theorem tcpClient_stream {a : StreamAction} {o : ClientEvent}
    (h : tcpClient.step s (.stream a) = some (s', o)) :
    s.Answers a ∧ ∃ o', s.step a = some (s', o') := by
  simp only [tcpClient] at h
  split at h
  next ha =>
    obtain ⟨⟨s₁, o'⟩, hstep, heq⟩ := Option.map_eq_some_iff.mp h
    cases heq
    exact ⟨ha, o', hstep⟩
  next => cases h

/-- What a step of the stream can do to the socket and to the queue. -/
inductive ClientCase (s : Endpoint) : StreamAction → Endpoint → Prop
  | arrive (bytes : List UInt8) : s.conn.peer = .up →
      ClientCase s (.arrive bytes)
        { s with conn := { s.conn with queued := s.conn.queued ++ bytes } }
  | peerClose : s.conn.peer = .up →
      ClientCase s .peerClose { s with conn := { s.conn with peer := .closed } }
  | keep (a : StreamAction) (s' : Endpoint) : (∀ len r, a ≠ .read len r) → a ≠ .peerClose →
      s'.sock.isOpen = true → s'.sock.peeked = s.sock.peeked → s'.conn.queued = s.conn.queued →
      s'.conn.peer = s.conn.peer →
      (∀ r, a = .peekByte r → s.sock.peeked ≠ none ∨ s.conn.queued = []) → ClientCase s a s'
  | same (len : Nat) (r : Recv) : ClientCase s (.read len r) s
  | read (len : Nat) (r : Recv) (s' : Endpoint) : s'.sock.isOpen = true →
      s'.sock.peeked = none → s'.conn.peer = s.conn.peer → ClientCase s (.read len r) s'
  | peek (r : Recv) (s' : Endpoint) (b : UInt8) : s'.sock.isOpen = true → s.sock.peeked = none →
      s'.conn.peer = s.conn.peer → s.conn.queued = b :: s'.conn.queued →
      s'.sock.peeked = some b → ClientCase s (.peekByte r) s'

theorem client_cases {a : StreamAction} {o : StreamEvent} (hclient : s.Client) (ha : s.Answers a)
    (h : s.step a = some (s', o)) : ClientCase s a s' := by
  cases a with
  | arrive bytes =>
      simp only [Endpoint.step] at h
      split at h
      next hup =>
        cases h
        exact .arrive bytes hup
      next => cases h
  | peerClose =>
      simp only [Endpoint.step] at h
      split at h
      next hup =>
        cases h
        exact .peerClose hup
      next => cases h
  | peerReset discard => exact ha.elim
  | available ioctlOk =>
      cases h
      exact .keep _ s (by simp) (by simp) hclient.opened rfl rfl rfl (by simp)
  | connected r =>
      simp only [Endpoint.step] at h
      split at h
      next => cases h
      next c' up hconnected =>
        cases h
        obtain ⟨-, hqueued, hpeer⟩ :=
          TcpSocket.connected_truthful hclient.opened hclient.peer ha hconnected
        exact .keep _ _ (by simp) (by simp) hclient.opened rfl hqueued hpeer (by simp)
  | read len r =>
      rcases read_clears hclient.opened h with rfl | ⟨hopen, hnone, hpeer⟩
      · exact .same len r
      · exact .read len r s' hopen hnone hpeer
  | peekByte r =>
      by_cases hnone : s.sock.peeked = none
      · obtain ⟨hopen, hpeer, ⟨b, hqueued, hpeeked⟩ | ⟨hempty, hempty', hpeeked⟩⟩ :=
          peekByte_takes hclient ha hnone h
        · exact .peek r s' b hopen hnone hpeer hqueued hpeeked
        · exact .keep _ s' (by simp) (by simp) hopen (hpeeked.trans hnone.symm)
            (hempty'.trans hempty.symm) hpeer fun _ _ => .inr hempty
      · obtain ⟨ret, handed, hpeek, -⟩ := step_peekByte h
        obtain ⟨b, hb⟩ := Option.ne_none_iff_exists'.mp hnone
        simp only [TcpSocket.peekByte, hb, Option.some.injEq, Prod.mk.injEq] at hpeek
        obtain ⟨hsock, hconn, -⟩ := hpeek
        exact .keep _ s' (by simp) (by simp) (hsock ▸ hclient.opened) (hsock ▸ rfl) (hconn ▸ rfl)
          (hconn ▸ rfl) fun _ _ => .inl hnone

theorem Endpoint.Client.step (h : s.Client) {a : ClientAction} {o : ClientEvent}
    (hstep : tcpClient.step s a = some (s', o)) : s'.Client := by
  cases a with
  | write buf n =>
      cases hstep
      exact h
  | stream a =>
      obtain ⟨ha, o', hstream⟩ := tcpClient_stream hstep
      cases client_cases h ha hstream with
      | arrive bytes hup => exact ⟨h.opened, h.peer⟩
      | peerClose hup => exact ⟨h.opened, by simp⟩
      | keep a s' _ _ hopen _ _ hpeer => exact ⟨hopen, hpeer ▸ h.peer⟩
      | same len r => exact h
      | read len r s' hopen _ hpeer => exact ⟨hopen, hpeer ▸ h.peer⟩
      | peek r s' b hopen _ hpeer _ _ => exact ⟨hopen, hpeer ▸ h.peer⟩

/-- A step that breaks the rule closes behind a pushed-back byte, or pushes the last one back. -/
theorem Endpoint.Client.keeps_iff (h : s.Client) (hup : s.Undrained → s.Up) {a : ClientAction}
    {o : ClientEvent} (hstep : tcpClient.step s a = some (s', o)) :
    (s'.Undrained → s'.Up) ↔ KeepsQueue s a := by
  have hclient := h.step hstep
  rw [h.up_iff] at hup
  rw [hclient.up_iff]
  cases a with
  | write buf n =>
      cases hstep
      exact iff_of_true hup trivial
  | stream a =>
      obtain ⟨ha, o', hstream⟩ := tcpClient_stream hstep
      cases client_cases h ha hstream with
      | arrive bytes hpeer => exact iff_of_true (fun _ => .inr hpeer) trivial
      | peerClose hpeer =>
          constructor
          · intro hall hpeeked
            rcases hall (.inl hpeeked) with hqueued | hpeer'
            · exact hqueued
            · cases hpeer'
          · rintro hrule (hpeeked | hqueued)
            · exact .inl (hrule hpeeked)
            · exact .inl hqueued
      | keep a s' _ hclose hopen hpeeked hqueued hpeer hpeek =>
          have hkept : s'.Undrained → s'.conn.queued ≠ [] ∨ s'.conn.peer = .up := by
            rw [Endpoint.Undrained, hpeeked, hqueued, hpeer]
            exact hup
          refine iff_of_true hkept ?_
          cases a with
          | peerClose => exact absurd rfl hclose
          | peekByte r =>
              intro _ hnone hlength
              rcases hpeek r rfl with hsome | hempty
              · exact hsome hnone
              · rw [hempty] at hlength
                cases hlength
          | _ => trivial
      | same len r => exact iff_of_true hup trivial
      | read len r s' hopen hnone hpeer =>
          refine iff_of_true (fun hleft => ?_) trivial
          rcases hleft with hpeeked | hqueued
          · exact absurd hnone hpeeked
          · exact .inl hqueued
      | peek r s' b hopen hnone hpeer hqueued hpeeked =>
          have hleft : s'.Undrained := .inl (by simp [hpeeked])
          have hlast : s.conn.queued.length ≠ 1 ↔ s'.conn.queued ≠ [] := by
            rw [hqueued, List.length_cons, ← List.length_pos_iff]
            omega
          simp only [KeepsQueue, hlast, hpeer]
          constructor
          · intro hall hclosed _
            rcases hall hleft with hqueued' | hpeer'
            · exact hqueued'
            · rw [hclosed] at hpeer'
              cases hpeer'
          · intro hrule _
            cases hpeer' : s.conn.peer with
            | up => exact .inr rfl
            | closed => exact .inl (hrule hpeer' hnone)
            | reset => exact absurd hpeer' h.peer

theorem Endpoint.Client.observe (h : s.Client) {a : ClientAction} {o : ClientEvent}
    (ha : a.Observes) (hstep : tcpClient.step s a = some (s', o)) (hup : s.Up) :
    s'.Up ∨ s'.Undrained := by
  have hclient := h.step hstep
  rw [h.up_iff] at hup
  rw [hclient.up_iff]
  cases a with
  | write buf n => exact ha.elim
  | stream a =>
      obtain ⟨hanswers, o', hstream⟩ := tcpClient_stream hstep
      cases client_cases h hanswers hstream with
      | arrive bytes hpeer => exact ha.elim
      | peerClose hpeer => exact ha.elim
      | keep a s' _ _ _ _ hqueued hpeer _ =>
          rw [hqueued, hpeer]
          exact .inl hup
      | same len r => exact ha.elim
      | read len r s' _ _ _ => exact ha.elim
      | peek r s' b _ _ _ _ hpeeked => exact .inr (.inl (by simp [hpeeked]))

/-- The rule for a client that is to stay connected, call by call. -/
theorem Endpoint.Client.stays_iff (h : s.Client) (hup : s.Undrained → s.Up) {a : ClientAction}
    {o : ClientEvent} (hstep : tcpClient.step s a = some (s', o)) :
    (s'.Undrained → s'.Up) ∧ (a.Observes → s.Up → s'.Up) ↔ KeepsQueue s a := by
  rw [h.keeps_iff hup hstep]
  apply and_iff_left_of_imp
  intro hrule ha hbefore
  rcases h.observe ha hstep hbefore with hafter | hleft
  · exact hafter
  · exact (h.keeps_iff hup hstep).mpr hrule hleft

end Tcp

/-! ## `WiFiClientSecure` over a TLS socket -/

/-- A TLS socket and the kernel's end of the connection below it. -/
structure Secure where
  sock : TlsSocket
  conn : Conn
  deriving DecidableEq, Repr

/-- A call on the socket comes with the number of queued bytes that mbedTLS reads for it. -/
inductive SecureAction
  | arrive (bytes : List UInt8)
  | peerClose
  | call (a : TlsAction) (consumed : Nat)
  | connected (r : Recv)
  deriving DecidableEq, Repr

inductive SecureEvent
  | peer
  | call (o : TlsEvent)
  deriving DecidableEq, Repr

def TlsAction.Transfers : TlsAction → Prop
  | .available _ | .read _ _ | .peekByte _ | .write _ _ => True
  | _ => False

instance : DecidablePred TlsAction.Transfers
  | .available _ | .read _ _ | .peekByte _ | .write _ _ => .isTrue trivial
  | .connect _ | .connected _ | .close => .isFalse id

namespace Secure

def step (s : Secure) : SecureAction → Option (Secure × SecureEvent)
  | .arrive bytes =>
      if s.conn.peer = .up then
        some ({ s with conn := { s.conn with queued := s.conn.queued ++ bytes } }, .peer)
      else none
  | .peerClose =>
      if s.conn.peer = .up then some ({ s with conn := { s.conn with peer := .closed } }, .peer)
      else none
  | .call a consumed =>
      if a.Transfers ∧ consumed ≤ s.conn.queued.length then
        (s.sock.step a).map fun r =>
          -- nothing is read off the queue but by a call into mbedTLS
          let queued := if sslCalls a r.2 = [] then s.conn.queued else s.conn.queued.drop consumed
          (⟨r.1, { s.conn with queued := queued }⟩, .call r.2)
      else none
  | .connected r =>
      if r.Truthful s.conn then
        (s.sock.tcp.connected s.conn r).map fun out =>
          (⟨s.sock, out.1⟩, .call (.connected (s.sock.connected out.2)))
      else none

def Undrained (s : Secure) : Prop := s.sock.unread ≠ [] ∨ s.conn.queued ≠ []

def Up (s : Secure) : Prop :=
  ∀ r c' up, r.Truthful s.conn → s.sock.tcp.connected s.conn r = some (c', up) →
    s.sock.connected up = true

/-- The handshake is done, the TCP socket is open, and the far end has not reset. -/
structure Client (s : Secure) : Prop where
  session : s.sock.InSession
  opened : s.sock.tcp.isOpen = true
  peer : s.conn.peer ≠ .reset

end Secure

/-- The calls of one secure client with what may happen in between. -/
def tlsClient : Machine Secure SecureAction SecureEvent := ⟨Secure.step⟩

def SecureAction.Observes : SecureAction → Prop
  | .call (.available _) _ | .call (.peekByte _) _ => True
  | _ => False

/-- The result of an `mbedtls_ssl_read` leaves the client connected if something is left after
`len` bytes of it were read: there is more in the queue or to come, and an end comes last. -/
def Secure.Refills (s : Secure) (consumed len : Nat) : SslRead → Prop
  | .plaintext record => record.bytes.length ≤ len ∨ s.conn.queued.drop consumed ≠ [] ∨
      s.conn.peer = .up
  | .stopped _ => s.conn.queued.drop consumed = []
  | _ => True

/-- An observer's refill leaves a connected client connected: it meets no end, and there is more
in the queue or to come. -/
def Secure.Spares (s : Secure) (consumed : Nat) : SslRead → Prop
  | .stopped _ => False
  | _ => s.conn.queued.drop consumed ≠ [] ∨ s.conn.peer = .up

/-- A write leaves the client connected if an error comes when nothing is left, and what is
decrypted is not all. -/
def Secure.Flushes (s : Secure) (consumed : Nat) (buf : List UInt8)
    (ws : List (SslWrite × Bool)) : Prop :=
  ((TlsSocket.writeLoop buf 0 ws).any (·.2.1) = true →
      s.sock.unread = [] ∧ s.conn.queued.drop consumed = []) ∧
    (s.sock.unread ≠ [] → s.conn.queued.drop consumed ≠ [] ∨ s.conn.peer = .up)

/-- Nothing arrives at a session that is dead, the far end does not close while decrypted bytes are
all that is left, and the calls that reach mbedTLS leave the client connected. -/
def KeepsSession (s : Secure) : SecureAction → Prop
  | .arrive bytes => s.sock.fatal = true → bytes = []
  | .peerClose => s.sock.unread ≠ [] → s.conn.queued ≠ []
  | .call a consumed => s.sock.Reaches a →
      match a with
      | .available r | .peekByte r =>
          s.Refills consumed 0 r ∧ (s.conn.Live → s.Spares consumed r)
      | .read len r => s.Refills consumed len r
      | .write buf ws => s.Flushes consumed buf ws
      | _ => True
  | .connected _ => True

instance (s : Secure) (consumed len : Nat) : DecidablePred (s.Refills consumed len)
  | .plaintext _ => inferInstanceAs (Decidable (_ ≤ _ ∨ _ ≠ _ ∨ _ = _))
  | .stopped _ => inferInstanceAs (Decidable (_ = _))
  | .wantRead | .wantWrite => .isTrue trivial

instance (s : Secure) (consumed : Nat) : DecidablePred (s.Spares consumed)
  | .stopped _ => .isFalse id
  | .plaintext _ | .wantRead | .wantWrite => inferInstanceAs (Decidable (_ ≠ _ ∨ _ = _))

instance (s : Secure) (consumed : Nat) (buf : List UInt8) (ws : List (SslWrite × Bool)) :
    Decidable (s.Flushes consumed buf ws) :=
  inferInstanceAs (Decidable ((_ → _ = _ ∧ _ = _) ∧ (_ → _ ∨ _)))

instance (s : Secure) : DecidablePred (KeepsSession s)
  | .arrive _ => inferInstanceAs (Decidable (s.sock.fatal = true → _ = _))
  | .peerClose => inferInstanceAs (Decidable (s.sock.unread ≠ [] → _ ≠ _))
  | .call (.available r) consumed | .call (.peekByte r) consumed =>
      inferInstanceAs (Decidable (s.sock.Reaches _ →
        s.Refills consumed 0 r ∧ (s.conn.Live → s.Spares consumed r)))
  | .call (.read len r) consumed =>
      inferInstanceAs (Decidable (s.sock.Reaches _ → s.Refills consumed len r))
  | .call (.write buf ws) consumed =>
      inferInstanceAs (Decidable (s.sock.Reaches _ → s.Flushes consumed buf ws))
  | .call (.connect _) _ | .call (.connected _) _ | .call .close _ => .isTrue fun _ => trivial
  | .connected _ => .isTrue trivial

section Tls

variable {s s' : Secure}

theorem Secure.Client.up_iff (h : s.Client) :
    s.Up ↔ s.sock.fatal = false ∧ (s.conn.queued ≠ [] ∨ s.conn.peer = .up) := by
  simp only [Secure.Up, TlsSocket.connected, h.session.handshaked, h.opened, Bool.true_and,
    Bool.and_eq_true, Bool.not_eq_true']
  constructor
  · intro hup
    obtain ⟨r, hr, hanswer⟩ := Recv.truthful_exists h.peer
    obtain ⟨c', up, hconnected⟩ := TcpSocket.connected_isSome (s := s.sock.tcp) hanswer
    obtain ⟨halive, hlive⟩ := hup r c' up hr hconnected
    exact ⟨halive, (TcpSocket.connected_truthful h.opened h.peer hr hconnected).1.mp hlive⟩
  · rintro ⟨halive, hlive⟩ r c' up hr hconnected
    exact ⟨halive, (TcpSocket.connected_truthful h.opened h.peer hr hconnected).1.mpr hlive⟩

theorem sslCalls_eq_nil_iff {sock sock' : TlsSocket} {a : TlsAction} {o : TlsEvent}
    (ha : a.Transfers) (h : sock.step a = some (sock', o)) :
    sslCalls a o = [] ↔ ¬ sock.Reaches a := by
  cases a with
  | available r => simp [TlsSocket.available_call h]
  | read len r => simp [TlsSocket.read_call h]
  | peekByte r => simp [TlsSocket.peekByte_call h]
  | write buf ws =>
      rcases TlsSocket.write_call h with ⟨hnot, hnone⟩ | ⟨hreach, k, dead, calls, hloop, hcalls⟩
      · simp [hnot, hnone]
      · obtain ⟨w, rest, rfl⟩ := hloop.offers (List.length_pos_iff.mpr hreach.2)
        simp [hreach, hcalls]
  | _ => exact ha.elim

theorem tlsClient_call {a : TlsAction} {consumed : Nat} {o : SecureEvent}
    (h : tlsClient.step s (.call a consumed) = some (s', o)) :
    a.Transfers ∧ (∃ o', s.sock.step a = some (s'.sock, o')) ∧ s'.conn.peer = s.conn.peer ∧
      s'.conn.queued = if s.sock.Reaches a then s.conn.queued.drop consumed else s.conn.queued := by
  simp only [tlsClient, Secure.step] at h
  split at h
  next ha =>
    obtain ⟨⟨sock', o'⟩, hstep, heq⟩ := Option.map_eq_some_iff.mp h
    cases heq
    refine ⟨ha.1, ⟨o', hstep⟩, rfl, ?_⟩
    by_cases hreach : s.sock.Reaches a
    · simp [sslCalls_eq_nil_iff ha.1 hstep, hreach]
    · simp [sslCalls_eq_nil_iff ha.1 hstep, hreach]
  next => cases h

theorem pump_leaves {sock sock' : TlsSocket} {len : Nat} {r : SslRead}
    (hunread : sock'.unread = (sock.pump r).1.unread.drop len)
    (hfatal : sock'.fatal = (sock.pump r).1.fatal) :
    (sock.fatal = false ∧ sock.unread = [] → sock'.unread = r.bytes.drop len ∧
        (sock'.fatal = true ↔ ∃ code, r = .stopped code)) ∧
      (¬ (sock.fatal = false ∧ sock.unread = []) →
        (sock'.unread ≠ [] → sock.unread ≠ []) ∧ sock'.fatal = sock.fatal) := by
  constructor
  · rintro ⟨halive, hdrained⟩
    obtain ⟨heq, hstop⟩ := TlsSocket.pump_of_drained hdrained halive r
    have hbytes : (sock.pump r).1.unread = r.bytes := by
      rw [heq]
      rfl
    rw [hunread, hfatal, hbytes]
    exact ⟨rfl, hstop⟩
  · intro hidle
    have hsame : sock.pump r = (sock, none) := by
      by_cases hdead : sock.fatal = true
      · exact TlsSocket.pump_of_fatal hdead r
      · exact TlsSocket.pump_of_unread (fun hdrained => hidle ⟨by simpa using hdead, hdrained⟩) r
    rw [hunread, hfatal, hsame]
    refine ⟨fun hleft hnil => hleft ?_, rfl⟩
    rw [hnil, List.drop_nil]

theorem read_leaves {sock sock' : TlsSocket} (hsession : sock.InSession) {len : Nat} {r : SslRead}
    {o : TlsEvent} (hlen : 0 < len) (h : sock.step (.read len r) = some (sock', o)) :
    sock'.unread = (sock.pump r).1.unread.drop len ∧ sock'.fatal = (sock.pump r).1.fatal := by
  simp only [TlsSocket.step, TlsSocket.read_spec hsession.valid hsession.handshaked hlen,
    Option.some.injEq] at h
  split at h
  next hnil =>
    simp only [Prod.mk.injEq] at h
    rw [← h.1, hnil, List.drop_nil]
    exact ⟨rfl, rfl⟩
  next =>
    simp only [Prod.mk.injEq] at h
    rw [← h.1, TlsSocket.unread_advance]
    exact ⟨List.drop_eq_drop_iff.mpr (by omega), rfl⟩

/-- The calls that read, if they reach mbedTLS and if they do not. -/
theorem transfers_reads {sock sock' : TlsSocket} (hsession : sock.InSession) {a : TlsAction}
    {len : Nat} {r : SslRead} {o : TlsEvent}
    (ha : a = .available r ∧ len = 0 ∨ a = .peekByte r ∧ len = 0 ∨ a = .read len r)
    (h : sock.step a = some (sock', o)) :
    (sock.Reaches a → sock'.unread = r.bytes.drop len ∧
        (sock'.fatal = true ↔ ∃ code, r = .stopped code)) ∧
      (¬ sock.Reaches a → (sock'.unread ≠ [] → sock.unread ≠ []) ∧ sock'.fatal = sock.fatal) := by
  have hhand := hsession.handshaked
  rcases ha with ⟨rfl, rfl⟩ | ⟨rfl, rfl⟩ | rfl
  · simp only [TlsSocket.step, TlsSocket.available_spec hsession.valid hhand] at h
    cases h
    simpa only [TlsSocket.Reaches, hhand, true_and] using
      pump_leaves List.drop_zero.symm rfl
  · simp only [TlsSocket.step, TlsSocket.peekByte_spec hhand] at h
    cases h
    simpa only [TlsSocket.Reaches, hhand, true_and] using
      pump_leaves List.drop_zero.symm rfl
  · by_cases hlen : 0 < len
    · obtain ⟨hunread, hfatal⟩ := read_leaves hsession hlen h
      simpa only [TlsSocket.Reaches, hhand, hlen, and_true, true_and] using
        pump_leaves hunread hfatal
    · simp only [TlsSocket.step, TlsSocket.read_idle fun hread => hlen hread.2] at h
      cases h
      exact ⟨fun hreach => absurd hreach.2.2.2 hlen, fun _ => ⟨id, rfl⟩⟩

theorem transfers_write {sock sock' : TlsSocket} {buf : List UInt8} {ws : List (SslWrite × Bool)}
    {o : TlsEvent} (h : sock.step (.write buf ws) = some (sock', o)) :
    sock'.unread = sock.unread ∧
      (sock.Reaches (.write buf ws) → (sock'.fatal = true ↔
        sock.fatal = true ∨ (TlsSocket.writeLoop buf 0 ws).any (·.2.1) = true)) ∧
      (¬ sock.Reaches (.write buf ws) → sock'.fatal = sock.fatal) := by
  obtain ⟨sent, calls, hwrite, -⟩ := TlsSocket.step_write h
  by_cases hidle : sock.handshaked = false ∨ buf.length = 0
  · have hnot : ¬ sock.Reaches (.write buf ws) := by
      rintro ⟨hhand, hbuf⟩
      rcases hidle with hfresh | hempty
      · rw [hhand] at hfresh
        cases hfresh
      · exact hbuf (List.eq_nil_of_length_eq_zero hempty)
    simp only [TlsSocket.write, if_pos hidle, Option.some.injEq, Prod.mk.injEq] at hwrite
    obtain ⟨rfl, -⟩ := hwrite
    exact ⟨rfl, fun hreach => absurd hreach hnot, fun _ => rfl⟩
  · have hreach : sock.Reaches (.write buf ws) := by
      rw [not_or] at hidle
      exact ⟨by simpa using hidle.1, fun hnil => hidle.2 (by rw [hnil]; rfl)⟩
    simp only [TlsSocket.write, if_neg hidle] at hwrite
    cases hloop : TlsSocket.writeLoop buf 0 ws with
    | none => simp [hloop] at hwrite
    | some out =>
        simp only [hloop, Option.some.injEq, Prod.mk.injEq] at hwrite
        obtain ⟨rfl, -⟩ := hwrite
        exact ⟨rfl, fun _ => by simp, fun hnot => absurd hreach hnot⟩

theorem Secure.Client.step (h : s.Client) {a : SecureAction} {o : SecureEvent}
    (hstep : tlsClient.step s a = some (s', o)) : s'.Client := by
  cases a with
  | arrive bytes =>
      simp only [tlsClient, Secure.step] at hstep
      split at hstep <;> cases hstep
      exact ⟨h.session, h.opened, h.peer⟩
  | peerClose =>
      simp only [tlsClient, Secure.step] at hstep
      split at hstep <;> cases hstep
      exact ⟨h.session, h.opened, by simp⟩
  | connected r =>
      simp only [tlsClient, Secure.step] at hstep
      split at hstep
      next hr =>
        obtain ⟨⟨conn', up⟩, hconnected, heq⟩ := Option.map_eq_some_iff.mp hstep
        cases heq
        obtain ⟨-, -, hpeer⟩ :=
          TcpSocket.connected_truthful h.opened h.peer hr hconnected
        exact ⟨h.session, h.opened, hpeer ▸ h.peer⟩
      next => cases hstep
  | call a consumed =>
      obtain ⟨ha, ⟨o', hsocket⟩, hpeer, -⟩ := tlsClient_call hstep
      have hsession : a.InSession := by
        cases a <;> first | exact ha.elim | trivial
      have hone := TlsSocket.session_step h.session.valid hsession hsocket
      exact ⟨h.session.step hsession hsocket, hone.tcp ▸ h.opened, hpeer ▸ h.peer⟩

theorem Secure.Client.drained_of_fatal (h : s.Client) (hup : s.Undrained → s.Up)
    (hdead : s.sock.fatal = true) : s.sock.unread = [] ∧ s.conn.queued = [] := by
  have hdown : ¬ s.Undrained := by
    intro hleft
    have halive := (h.up_iff.mp (hup hleft)).1
    rw [hdead] at halive
    cases halive
  rw [Secure.Undrained, not_or, not_not, not_not] at hdown
  exact hdown

theorem Secure.Client.reads_iff (h : s.Client) (hup : s.Undrained → s.Up) {a : TlsAction}
    {consumed len : Nat} {r : SslRead} {o : SecureEvent}
    (ha : a = .available r ∧ len = 0 ∨ a = .peekByte r ∧ len = 0 ∨ a = .read len r)
    (hstep : tlsClient.step s (.call a consumed) = some (s', o)) :
    (s'.Undrained → s'.Up) ↔ (s.sock.Reaches a → s.Refills consumed len r) := by
  obtain ⟨-, ⟨o', hsocket⟩, hpeer, hqueued⟩ := tlsClient_call hstep
  obtain ⟨hreached, hidle⟩ := transfers_reads h.session ha hsocket
  rw [h.up_iff] at hup
  rw [(h.step hstep).up_iff]
  by_cases hreach : s.sock.Reaches a
  · obtain ⟨hunread, hfatal⟩ := hreached hreach
    rw [if_pos hreach] at hqueued
    rw [imp_iff_right hreach, Secure.Undrained, hunread, hqueued, hpeer]
    cases r with
    | plaintext record =>
        have halive : s'.sock.fatal = false := by
          rw [← Bool.not_eq_true, hfatal]
          simp
        simp only [Secure.Refills, SslRead.bytes, ne_eq, List.drop_eq_nil_iff (l := record.bytes),
          halive, true_and]
        constructor
        · intro hall
          by_cases hfits : record.bytes.length ≤ len
          · exact .inl hfits
          · exact .inr (hall (.inl hfits))
        · intro hrule hleft
          rcases hrule with hfits | hmore
          · rcases hleft with hunread | hrest
            · exact absurd hfits hunread
            · exact .inl hrest
          · exact hmore
    | wantRead | wantWrite =>
        have halive : s'.sock.fatal = false := by
          rw [← Bool.not_eq_true, hfatal]
          simp
        refine iff_of_true ?_ trivial
        rintro (hnone | hrest)
        · simp [SslRead.bytes] at hnone
        · exact ⟨halive, .inl hrest⟩
    | stopped code =>
        have hdead : s'.sock.fatal = true := hfatal.mpr ⟨code, rfl⟩
        simp [Secure.Refills, SslRead.bytes, hdead]
  · obtain ⟨hleft, hfatal⟩ := hidle hreach
    rw [if_neg hreach] at hqueued
    refine iff_of_true ?_ fun hr => absurd hr hreach
    rw [Secure.Undrained, hqueued, hpeer, hfatal]
    rintro (hunread | hrest)
    · exact hup (.inl (hleft hunread))
    · exact hup (.inr hrest)

theorem Secure.Client.writes_iff (h : s.Client) (hup : s.Undrained → s.Up) {buf : List UInt8}
    {ws : List (SslWrite × Bool)} {consumed : Nat} {o : SecureEvent}
    (hstep : tlsClient.step s (.call (.write buf ws) consumed) = some (s', o)) :
    (s'.Undrained → s'.Up) ↔
      (s.sock.Reaches (.write buf ws) → s.Flushes consumed buf ws) := by
  obtain ⟨-, ⟨o', hsocket⟩, hpeer, hqueued⟩ := tlsClient_call hstep
  obtain ⟨hunread, hreached, hidle⟩ := transfers_write hsocket
  have hbefore := hup
  rw [h.up_iff] at hup
  rw [(h.step hstep).up_iff, Secure.Undrained, hunread, hpeer]
  by_cases hreach : s.sock.Reaches (.write buf ws)
  · have hfatal := hreached hreach
    rw [if_pos hreach] at hqueued
    rw [imp_iff_right hreach, ← Bool.not_eq_true, hfatal, hqueued, Secure.Flushes]
    constructor
    · intro hall
      refine ⟨fun hstops => ?_, fun hunread => (hall (.inl hunread)).2⟩
      by_contra hleft
      exact (hall (not_and_or.mp hleft)).1 (.inr hstops)
    · rintro ⟨hstops, hmore⟩ hleft
      have hlives : ¬ (s.sock.unread = [] ∧ s.conn.queued.drop consumed = []) :=
        not_and_or.mpr hleft
      refine ⟨not_or.mpr ⟨fun hdead => hlives ?_, fun hstop => hlives (hstops hstop)⟩, ?_⟩
      · obtain ⟨hnone, hempty⟩ := h.drained_of_fatal hbefore hdead
        exact ⟨hnone, by rw [hempty, List.drop_nil]⟩
      · rcases hleft with hunread | hrest
        · exact hmore hunread
        · exact .inl hrest
  · rw [if_neg hreach] at hqueued
    refine iff_of_true ?_ fun hr => absurd hr hreach
    rw [hqueued, hidle hreach]
    exact hup

theorem Secure.Client.spares_iff (h : s.Client) {a : TlsAction} {consumed : Nat} {r : SslRead}
    {o : SecureEvent} (ha : a = .available r ∨ a = .peekByte r)
    (hstep : tlsClient.step s (.call a consumed) = some (s', o)) :
    (s.Up → s'.Up) ↔ (s.sock.Reaches a → s.conn.Live → s.Spares consumed r) := by
  have hreads : a = .available r ∧ 0 = 0 ∨ a = .peekByte r ∧ 0 = 0 ∨ a = .read 0 r := by
    rcases ha with rfl | rfl
    · exact .inl ⟨rfl, rfl⟩
    · exact .inr (.inl ⟨rfl, rfl⟩)
  obtain ⟨-, ⟨o', hsocket⟩, hpeer, hqueued⟩ := tlsClient_call hstep
  obtain ⟨hreached, hidle⟩ := transfers_reads h.session hreads hsocket
  rw [h.up_iff, (h.step hstep).up_iff, hpeer]
  by_cases hreach : s.sock.Reaches a
  · have hfatal := (hreached hreach).2
    have halive : s.sock.fatal = false := by
      rcases ha with rfl | rfl
      · exact hreach.2.1
      · exact hreach.2.1
    rw [if_pos hreach] at hqueued
    rw [imp_iff_right hreach, halive, hqueued, eq_self, true_and, Conn.Live]
    apply imp_congr_right
    intro _
    cases r with
    | stopped code =>
        have hdead : s'.sock.fatal = true := hfatal.mpr ⟨code, rfl⟩
        simp [Secure.Spares, hdead]
    | _ =>
        have halive' : s'.sock.fatal = false := by
          rw [← Bool.not_eq_true, hfatal]
          simp
        simp only [Secure.Spares, halive', true_and]
  · rw [if_neg hreach] at hqueued
    rw [hqueued, (hidle hreach).2]
    exact iff_of_true id fun hr => absurd hr hreach

theorem Secure.Client.arrives_iff (h : s.Client) (hup : s.Undrained → s.Up) {bytes : List UInt8}
    {o : SecureEvent} (hstep : tlsClient.step s (.arrive bytes) = some (s', o)) :
    (s'.Undrained → s'.Up) ↔ (s.sock.fatal = true → bytes = []) := by
  rw [(h.step hstep).up_iff]
  simp only [tlsClient, Secure.step] at hstep
  split at hstep <;> cases hstep
  next hpeer =>
    constructor
    · intro hall hdead
      by_contra hbytes
      have halive := (hall (.inr (by simp [hbytes]))).1
      rw [show s.sock.fatal = false from halive] at hdead
      cases hdead
    · intro hrule hleft
      refine ⟨?_, .inr hpeer⟩
      by_contra hdead
      rw [Bool.not_eq_false] at hdead
      obtain ⟨hnone, hempty⟩ := h.drained_of_fatal hup hdead
      rcases hleft with hunread | hqueued
      · exact hunread hnone
      · exact hqueued (by simp [hempty, hrule hdead])

theorem Secure.Client.closes_iff (h : s.Client) (hup : s.Undrained → s.Up) {o : SecureEvent}
    (hstep : tlsClient.step s .peerClose = some (s', o)) :
    (s'.Undrained → s'.Up) ↔ (s.sock.unread ≠ [] → s.conn.queued ≠ []) := by
  rw [(h.step hstep).up_iff]
  rw [h.up_iff] at hup
  simp only [tlsClient, Secure.step] at hstep
  split at hstep <;> cases hstep
  next hpeer =>
    constructor
    · intro hall hunread
      rcases (hall (.inl hunread)).2 with hqueued | hpeer'
      · exact hqueued
      · cases hpeer'
    · intro hrule hleft
      refine ⟨(hup hleft).1, .inl ?_⟩
      rcases hleft with hunread | hqueued
      · exact hrule hunread
      · exact hqueued

theorem Secure.Client.asked (h : s.Client) (hup : s.Undrained → s.Up) {r : Recv} {o : SecureEvent}
    (hstep : tlsClient.step s (.connected r) = some (s', o)) : s'.Undrained → s'.Up := by
  rw [(h.step hstep).up_iff]
  rw [h.up_iff] at hup
  simp only [tlsClient, Secure.step] at hstep
  split at hstep
  next hr =>
    obtain ⟨⟨conn', up⟩, hconnected, heq⟩ := Option.map_eq_some_iff.mp hstep
    cases heq
    obtain ⟨-, hqueued, hpeer⟩ := TcpSocket.connected_truthful h.opened h.peer hr hconnected
    rw [Secure.Undrained, hqueued, hpeer]
    exact hup
  next => cases hstep

theorem Secure.Client.stays_iff (h : s.Client) (hup : s.Undrained → s.Up) {a : SecureAction}
    {o : SecureEvent} (hstep : tlsClient.step s a = some (s', o)) :
    (s'.Undrained → s'.Up) ∧ (a.Observes → s.Up → s'.Up) ↔ KeepsSession s a := by
  have hquiet : ¬ a.Observes → ((s'.Undrained → s'.Up) ∧ (a.Observes → s.Up → s'.Up) ↔
      (s'.Undrained → s'.Up)) := fun hnot => and_iff_left fun ha => absurd ha hnot
  cases a with
  | call a consumed =>
      cases a with
      | available r =>
          simp only [SecureAction.Observes, true_implies]
          rw [h.reads_iff hup (.inl ⟨rfl, rfl⟩) hstep, h.spares_iff (.inl rfl) hstep, ← imp_and]
          rfl
      | peekByte r =>
          simp only [SecureAction.Observes, true_implies]
          rw [h.reads_iff hup (.inr (.inl ⟨rfl, rfl⟩)) hstep, h.spares_iff (.inr rfl) hstep, ← imp_and]
          rfl
      | read len r =>
          rw [hquiet id]
          exact h.reads_iff hup (.inr (.inr rfl)) hstep
      | write buf ws =>
          rw [hquiet id]
          exact h.writes_iff hup hstep
      | _ => exact (tlsClient_call hstep).1.elim
  | arrive bytes =>
      rw [hquiet id]
      exact h.arrives_iff hup hstep
  | peerClose =>
      rw [hquiet id]
      exact h.closes_iff hup hstep
  | connected r =>
      rw [hquiet id]
      exact iff_of_true (h.asked hup hstep) trivial

theorem Secure.Client.of_connect {o : ConnectOracle} {sock : TlsSocket} {c : Conn}
    (hconnect : TlsSocket.fresh.connect o = some (sock, true)) (hreset : c.peer ≠ .reset) :
    Secure.Client ⟨sock, c⟩ ∧ sock.unread = [] ∧ sock.fatal = false := by
  obtain ⟨native, seeded, configured, setUp, handshake⟩ := o
  cases native with
  | none => cases hconnect
  | some native =>
      simp only [TlsSocket.connect, TcpSocket.connect] at hconnect
      repeat' split at hconnect
      all_goals cases hconnect
      exact ⟨⟨⟨⟨Nat.le_refl 0, Nat.zero_le _⟩, rfl⟩, rfl, hreset⟩, rfl, rfl⟩

end Tls

/-! ## Reading while `connected()` -/

/-- What is left to read keeps a client connected, and no observer disconnects it, exactly along
runs of the rule. -/
theorem clients_stayConnected_iff {c : Conn} (hreset : c.peer ≠ .reset) :
    (∀ native as s os, tcpClient.run (.opened native c) as = some (s, os) →
        (StaysConnected tcpClient Endpoint.Undrained Endpoint.Up ClientAction.Observes
            (.opened native c) as ↔
          tcpClient.Along KeepsQueue (.opened native c) as)) ∧
      ∀ o sock, TlsSocket.fresh.connect o = some (sock, true) → ∀ as s os,
        tlsClient.run ⟨sock, c⟩ as = some (s, os) →
          (StaysConnected tlsClient Secure.Undrained Secure.Up SecureAction.Observes ⟨sock, c⟩ as ↔
            tlsClient.Along KeepsSession ⟨sock, c⟩ as) := by
  constructor
  · intro native as s os hrun
    have hclient : (Endpoint.opened native c).Client := ⟨rfl, hreset⟩
    have h₀ : (Endpoint.opened native c).Undrained → (Endpoint.opened native c).Up := by
      rw [hclient.up_iff]
      rintro (hpeeked | hqueued)
      · exact absurd rfl hpeeked
      · exact .inl hqueued
    rw [staysConnected_iff (fun s a s' o h => h.step)
      (fun s a s' o h hup hstep => h.stays_iff hup hstep) hclient hrun]
    exact and_iff_right h₀
  · intro o sock hconnect as s os hrun
    obtain ⟨hclient, hunread, halive⟩ := Secure.Client.of_connect hconnect hreset
    have h₀ : Secure.Undrained ⟨sock, c⟩ → Secure.Up ⟨sock, c⟩ := by
      rw [hclient.up_iff]
      rintro (hleft | hqueued)
      · exact absurd hunread hleft
      · exact ⟨halive, .inl hqueued⟩
    rw [staysConnected_iff (fun s a s' o h => h.step)
      (fun s a s' o h hup hstep => h.stays_iff hup hstep) hclient hrun]
    exact and_iff_right h₀

/-- Both clients drained to the end: the last byte is read, not peeked at, after the close. -/
theorem clients_stayConnected_drained :
    StaysConnected tcpClient Endpoint.Undrained Endpoint.Up ClientAction.Observes
        (.opened 3 ⟨[], .up, false⟩)
        [.stream (.arrive [1, 2]), .stream .peerClose, .stream (.peekByte (.data 1)),
          .stream (.read 2 (.data 1)), .stream (.connected .closed)] ∧
      StaysConnected tlsClient Secure.Undrained Secure.Up SecureAction.Observes
        ⟨⟨.opened 3, [], 0, true, false⟩, ⟨[], .up, false⟩⟩
        [.arrive [22, 21], .call (.available .wantRead) 0,
          .call (.read 4 (.plaintext ⟨[1, 2], by simp, by decide⟩)) 1, .peerClose,
          .call (.read 4 (.stopped (-30848))) 1, .connected .closed] := by
  obtain ⟨htcp, htls⟩ := clients_stayConnected_iff (c := ⟨[], .up, false⟩) (by decide)
  exact ⟨(htcp 3 _ _ _ rfl).mpr (by decide),
    (htls ⟨some 3, true, true, true, [(.done, false)]⟩ _ rfl _ _ _ rfl).mpr (by decide +kernel)⟩

/-- A peek at the last byte of a connection that the far end has closed. -/
theorem not_clients_stayConnected :
    ¬ ∀ native c, c.peer ≠ .reset → ∀ as s os,
      tcpClient.run (.opened native c) as = some (s, os) →
        StaysConnected tcpClient Endpoint.Undrained Endpoint.Up ClientAction.Observes
          (.opened native c) as := by
  intro hall
  have hrun : tcpClient.run (.opened 3 ⟨[], .up, false⟩)
      [.stream (.arrive [7]), .stream .peerClose, .stream (.peekByte (.data 1))] =
        some (_, _) := rfl
  have hstays := hall 3 _ (by decide) _ _ _ hrun
  have hup := hstays.undrained_up _ List.prefix_rfl _ _ hrun (.inl (by decide))
  have hconnected := hup .closed _ false ⟨rfl, rfl⟩ rfl
  cases hconnected

end ZiModem.Hal.Net
