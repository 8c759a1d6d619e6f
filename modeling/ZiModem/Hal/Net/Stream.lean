import ZiModem.Hal.Net.TcpSocket

/-! # The byte stream of an open TCP socket

Calls of `read`, `peek_byte`, `available` and `connected` on one open socket,
interleaved with arrivals, the far end's close and its reset. The flow followed
is that of the pushed-back byte: `recv` puts bytes in, the positive counts
returned by `read` take them out, and at most one byte is held in between.
-/

namespace ZiModem.Hal.Net

open Reactive

structure Endpoint where
  sock : TcpSocket
  conn : Conn
  deriving DecidableEq, Repr

inductive StreamAction
  | arrive (bytes : List UInt8)
  | peerClose
  | peerReset (discard : Bool)
  | read (len : Nat) (r : Recv)
  | peekByte (r : Recv)
  | available (ioctlOk : Bool)
  | connected (r : Recv)
  deriving DecidableEq, Repr

/-- What a step shows: for `read` the returned value, the bytes stored in the caller's buffer and
the bytes its `recv` handed over. -/
inductive StreamEvent
  | peer
  | read (ret : Int) (buf handed : List UInt8)
  | peekByte (ret : Int) (handed : List UInt8)
  | available (n : Int)
  | connected (up : Bool)
  deriving DecidableEq, Repr

namespace Endpoint

def opened (native : Nat) (c : Conn) : Endpoint := ⟨.opened native, c⟩

def step (s : Endpoint) : StreamAction → Option (Endpoint × StreamEvent)
  | .arrive bytes =>
      if s.conn.peer = .up then
        some ({ s with conn := { s.conn with queued := s.conn.queued ++ bytes } }, .peer)
      else none
  | .peerClose =>
      if s.conn.peer = .up then some ({ s with conn := { s.conn with peer := .closed } }, .peer)
      else none
  | .peerReset discard =>
      let queued := if discard then [] else s.conn.queued
      some ({ s with conn := { s.conn with peer := .reset, queued := queued } }, .peer)
  | .read len r =>
      match s.sock.read s.conn len r with
      | none => none
      | some res => some (⟨res.sock, res.conn⟩, .read res.ret res.buf res.handed)
  | .peekByte r =>
      match s.sock.peekByte s.conn r with
      | none => none
      | some (sock, conn, ret, handed) => some (⟨sock, conn⟩, .peekByte ret handed)
  | .available ioctlOk => some (s, .available (s.sock.available s.conn ioctlOk))
  | .connected r =>
      match s.sock.connected s.conn r with
      | none => none
      | some (conn, up) => some ({ s with conn := conn }, .connected up)

end Endpoint

/-- The calls on one socket with everything the network may do in between. -/
def tcpStream : Machine Endpoint StreamAction StreamEvent := ⟨Endpoint.step⟩

def pushbackFlow : Flow Endpoint StreamEvent UInt8 where
  held s := s.sock.pushback
  put
    | .read _ _ handed => handed
    | .peekByte _ handed => handed
    | _ => []
  taken
    | .read ret buf _ => buf.take ret.toNat
    | _ => []

/-- What a call that reports nothing must not do, and what peeking and the observers keep. -/
def QuietStep (s : Endpoint) : StreamEvent → Endpoint → Prop
  | .read ret _ handed, s' => ret ≤ 0 → handed = [] ∧ s'.sock = s.sock
  | .peekByte ret handed, s' =>
      s.sock.pushback ++ handed = s'.sock.pushback ∧
        ret = (match s'.sock.peeked with | some b => (b.toNat : Int) | none => -1)
  | _, s' => s'.sock = s.sock

/-- The stream is intact: at every point the bytes handed over are the bytes counted by `read`
followed by the pushback, and a call that reports nothing has consumed nothing. -/
def StreamIntact (s₀ : Endpoint) (as : List StreamAction) : Prop :=
  tcpStream.Throughout (fun os s => pushbackFlow.Balanced s₀ os s) s₀ as ∧
    ∀ bs a, bs ++ [a] <+: as → ∀ s os s' o, tcpStream.run s₀ bs = some (s, os) →
      tcpStream.step s a = some (s', o) → QuietStep s o s'

/-- The side condition on one step: a read that goes on to `recv` with a byte already taken from
the pushback meets no hard error, and what it collects fits the returned `int`. -/
def ReadCounts (s : Endpoint) : StreamAction → Prop
  | .read len (.hardError _) => len ≤ 1 ∨ s.sock.peeked = none
  | .read len (.data n) =>
      len ≤ s.sock.pushback.length ∨ (s.sock.pushback.length + n : Int) ≤ intMax
  | _ => True

/-! ## The calls, outcome by outcome -/

/-- `read` on an open socket: nothing asked for, the pushback is enough, or on to `recv`. -/
theorem TcpSocket.read_cases {s : TcpSocket} {c : Conn} {len : Nat} {r : Recv} {res : ReadResult}
    (hopen : s.isOpen = true) (h : s.read c len r = some res) :
    (len = 0 ∧ res = ⟨s, c, 0, [], []⟩) ∨
    (∃ b, s.peeked = some b ∧ len = 1 ∧ res = ⟨{ s with peeked := none }, c, 1, [b], []⟩) ∨
    (s.pushback.length < len ∧
      readRecv { s with peeked := none } c s.pushback len r = some res) := by
  unfold TcpSocket.read at h
  by_cases hlen : len = 0
  · simp only [hlen, or_true, if_true, Option.some.injEq] at h
    exact .inl ⟨hlen, h.symm⟩
  · simp only [hopen, hlen, Bool.true_eq_false, or_self, if_false] at h
    obtain ⟨handle, peeked⟩ := s
    cases peeked with
    | none => exact .inr (.inr ⟨Nat.pos_of_ne_zero hlen, h⟩)
    | some b =>
        by_cases hone : len = 1
        · simp only [hone, if_true, Option.some.injEq] at h
          exact .inr (.inl ⟨b, rfl, hone, h.symm⟩)
        · simp only [hone, if_false] at h
          refine .inr (.inr ⟨?_, h⟩)
          rw [TcpSocket.pushback_some, List.length_singleton]
          omega

theorem TcpSocket.readRecv_cases {s : TcpSocket} {c : Conn} {written : List UInt8} {len : Nat}
    {r : Recv} {res : ReadResult} (h : readRecv s c written len r = some res) :
    res.sock = s ∧ res.buf = written ++ res.handed ∧
    ((∃ n, r = .data n ∧ 0 < n ∧ n ≤ len - written.length ∧ res.handed.length = n ∧
        res.ret ≤ max intMax written.length ∧
        ((written.length + n : Int) ≤ intMax → res.ret = written.length + n)) ∨
      (r = .wouldBlock ∧ res.handed = [] ∧ res.ret = written.length) ∨
      (r = .closed ∧ res.handed = [] ∧
        res.ret = if 0 < written.length then (written.length : Int) else -1) ∨
      (∃ d, r = .hardError d ∧ res.handed = [] ∧ res.ret = -1)) := by
  unfold TcpSocket.readRecv at h
  cases hrecv : c.recv (len - written.length) r with
  | none => simp [hrecv] at h
  | some out =>
      obtain ⟨c', ssize, bytes⟩ := out
      simp only [hrecv, Option.some.injEq] at h
      subst h
      refine ⟨rfl, rfl, ?_⟩
      rcases Conn.recv_cases hrecv with ⟨n, rfl, hpos, hle, rfl, hbytes, -, -⟩ |
        ⟨rfl, rfl, rfl, herr, -⟩ | ⟨rfl, rfl, rfl, -⟩ | ⟨d, rfl, rfl, rfl, herr⟩
      · refine .inl ⟨n, rfl, hpos, hle, hbytes, ?_, ?_⟩
        · have hsum := toInt_le (written.length + toInt n)
          dsimp only
          split
          · omega
          · split
            · split <;> simp only [intMax] at * <;> omega
            · split <;> simp only [intMax] at * <;> omega
        · intro hfit
          have hn : toInt n = n := toInt_natCast (by omega)
          have hs : toInt (written.length + (n : Int)) = written.length + n :=
            toInt_of_range (by simp only [intMax]; omega) hfit
          simp [hn, hs, hpos]
      · exact .inr (.inl ⟨rfl, rfl, by simp [herr]⟩)
      · exact .inr (.inr (.inl ⟨rfl, rfl, by simp⟩))
      · exact .inr (.inr (.inr ⟨d, rfl, rfl, by simp [herr]⟩))

theorem TcpSocket.pushback_length_le (s : TcpSocket) : s.pushback.length ≤ 1 := by
  unfold TcpSocket.pushback
  cases s.peeked <;> simp

theorem TcpSocket.pushback_eq_nil_iff {s : TcpSocket} : s.pushback = [] ↔ s.peeked = none := by
  unfold TcpSocket.pushback
  cases s.peeked <;> simp

theorem TcpSocket.drop_pushback {s : TcpSocket} (h : s.peeked = none) :
    { s with peeked := none } = s := by
  cases s
  simp_all

theorem TcpSocket.peekByte_cases {s s' : TcpSocket} {c c' : Conn} {r : Recv} {ret : Int}
    {handed : List UInt8} (hopen : s.isOpen = true)
    (h : s.peekByte c r = some (s', c', ret, handed)) :
    s'.isOpen = true ∧ s.pushback ++ handed = s'.pushback ∧
      ret = (match s'.peeked with | some b => (b.toNat : Int) | none => -1) := by
  obtain ⟨handle, peeked⟩ := s
  cases peeked with
  | some b =>
      simp only [TcpSocket.peekByte, Option.some.injEq, Prod.mk.injEq] at h
      obtain ⟨rfl, -, rfl, rfl⟩ := h
      exact ⟨hopen, rfl, rfl⟩
  | none =>
      simp only [TcpSocket.peekByte] at h
      cases hread : TcpSocket.read ⟨handle, none⟩ c 1 r with
      | none => simp [hread] at h
      | some res =>
          have hcases := TcpSocket.read_cases hopen hread
          simp only [Nat.one_ne_zero, false_and, reduceCtorEq, exists_false, false_or] at hcases
          obtain ⟨hsock, hbuf, hout⟩ := TcpSocket.readRecv_cases hcases.2
          simp only [hread] at h
          rw [TcpSocket.pushback_none, List.nil_append] at hbuf
          rcases hout with ⟨n, -, hpos, hle, hlen, -, hret⟩ | ⟨-, hnil, -⟩ | ⟨-, hnil, -⟩ |
            ⟨d, -, hnil, -⟩
          · have hn : n = 1 := by
              simp only [TcpSocket.pushback_none, List.length_nil] at hle
              omega
            subst hn
            obtain ⟨b, hb⟩ := List.length_eq_one_iff.mp hlen
            have hone : res.ret = 1 := by
              have := hret (by simp [intMax])
              simpa using this
            simp only [hbuf, hb, hone, if_true, Option.some.injEq, Prod.mk.injEq] at h
            obtain ⟨rfl, -, rfl, rfl⟩ := h
            refine ⟨?_, rfl, rfl⟩
            rw [hsock]
            exact hopen
          all_goals
            simp only [hbuf, hnil, Option.some.injEq, Prod.mk.injEq] at h
            obtain ⟨rfl, -, rfl, rfl⟩ := h
            rw [hsock]
            exact ⟨hopen, rfl, rfl⟩

/-! ## One step -/

def Endpoint.Opened (s : Endpoint) : Prop := s.sock.isOpen = true

theorem step_read {s s' : Endpoint} {len : Nat} {r : Recv} {o : StreamEvent}
    (h : s.step (.read len r) = some (s', o)) :
    ∃ res, s.sock.read s.conn len r = some res ∧ s' = ⟨res.sock, res.conn⟩ ∧
      o = .read res.ret res.buf res.handed := by
  simp only [Endpoint.step] at h
  cases hread : s.sock.read s.conn len r with
  | none => simp [hread] at h
  | some res =>
      simp only [hread, Option.some.injEq, Prod.mk.injEq] at h
      exact ⟨res, rfl, h.1.symm, h.2.symm⟩

theorem step_peekByte {s s' : Endpoint} {r : Recv} {o : StreamEvent}
    (h : s.step (.peekByte r) = some (s', o)) :
    ∃ ret handed, s.sock.peekByte s.conn r = some (s'.sock, s'.conn, ret, handed) ∧
      o = .peekByte ret handed := by
  simp only [Endpoint.step] at h
  cases hpeek : s.sock.peekByte s.conn r with
  | none => simp [hpeek] at h
  | some out =>
      obtain ⟨sock, conn, ret, handed⟩ := out
      simp only [hpeek, Option.some.injEq, Prod.mk.injEq] at h
      obtain ⟨rfl, rfl⟩ := h
      exact ⟨ret, handed, rfl, rfl⟩

theorem step_observer {s s' : Endpoint} {a : StreamAction} {o : StreamEvent}
    (h : s.step a = some (s', o)) (hread : ∀ len r, a ≠ .read len r)
    (hpeek : ∀ r, a ≠ .peekByte r) :
    s'.sock = s.sock ∧ pushbackFlow.put o = [] ∧ pushbackFlow.taken o = [] ∧ QuietStep s o s' := by
  cases a with
  | read len r => exact absurd rfl (hread len r)
  | peekByte r => exact absurd rfl (hpeek r)
  | arrive bytes =>
      simp only [Endpoint.step] at h
      split at h <;> cases h
      exact ⟨rfl, rfl, rfl, rfl⟩
  | peerClose =>
      simp only [Endpoint.step] at h
      split at h <;> cases h
      exact ⟨rfl, rfl, rfl, rfl⟩
  | peerReset discard => cases h; exact ⟨rfl, rfl, rfl, rfl⟩
  | available ioctlOk => cases h; exact ⟨rfl, rfl, rfl, rfl⟩
  | connected r =>
      simp only [Endpoint.step] at h
      cases hconn : s.sock.connected s.conn r with
      | none => simp [hconn] at h
      | some out =>
          simp only [hconn] at h
          cases h
          exact ⟨rfl, rfl, rfl, rfl⟩

theorem step_opened {s s' : Endpoint} {a : StreamAction} {o : StreamEvent} (hs : s.Opened)
    (h : s.step a = some (s', o)) : s'.Opened := by
  cases a with
  | read len r =>
      obtain ⟨res, hread, rfl, -⟩ := step_read h
      unfold Endpoint.Opened
      rcases TcpSocket.read_cases hs hread with ⟨-, rfl⟩ | ⟨b, -, -, rfl⟩ | ⟨-, hrecv⟩
      · exact hs
      · exact hs
      · rw [(TcpSocket.readRecv_cases hrecv).1]
        exact hs
  | peekByte r =>
      obtain ⟨ret, handed, hpeek, -⟩ := step_peekByte h
      exact (TcpSocket.peekByte_cases hs hpeek).1
  | _ =>
      unfold Endpoint.Opened
      rw [(step_observer h (fun _ _ => by simp) (fun _ => by simp)).1]
      exact hs

/-- A read keeps the balance exactly when it counts what it consumed. -/
theorem read_conserves_iff {s : Endpoint} {len : Nat} {r : Recv} {res : ReadResult}
    (hs : s.Opened) (hread : s.sock.read s.conn len r = some res) :
    pushbackFlow.Conserves s (.read res.ret res.buf res.handed) ⟨res.sock, res.conn⟩ ↔
      ReadCounts s (.read len r) := by
  have hshort := s.sock.pushback_length_le
  simp only [Flow.Conserves, pushbackFlow]
  rcases TcpSocket.read_cases hs hread with ⟨hlen, rfl⟩ | ⟨b, hb, hlen, rfl⟩ | ⟨hlen, hrecv⟩
  · cases r <;> simp [ReadCounts, hlen]
  · have hpush : s.sock.pushback = [b] := by simp [TcpSocket.pushback, hb]
    cases r <;> simp [ReadCounts, hlen, hpush]
  · obtain ⟨hsock, hbuf, hout⟩ := TcpSocket.readRecv_cases hrecv
    rw [hsock, hbuf, TcpSocket.pushback_none, List.append_nil]
    have hall : s.sock.pushback ++ res.handed =
        (s.sock.pushback ++ res.handed).take res.ret.toNat ↔
          s.sock.pushback.length + res.handed.length ≤ res.ret.toNat := by
      rw [eq_comm, List.take_eq_self_iff, List.length_append]
    rw [hall]
    rcases hout with ⟨n, rfl, hpos, -, hn, hmax, hret⟩ | ⟨rfl, hnil, hret⟩ | ⟨rfl, hnil, hret⟩ |
      ⟨d, rfl, hnil, hret⟩
    · rw [hn]
      simp only [ReadCounts, Nat.not_le.mpr hlen, false_or]
      constructor
      · intro hle
        simp only [intMax] at hmax ⊢
        omega
      · intro hfit
        rw [hret hfit]
        omega
    · simp [ReadCounts, hnil, hret]
    · rw [hret]
      by_cases hpos : 0 < s.sock.pushback.length
      · simp [ReadCounts, hnil, hpos]
      · simp only [hnil, hpos, if_false, List.length_nil, ReadCounts, iff_true]
        omega
    · rw [hret, hnil]
      simp only [ReadCounts, List.length_nil, ← TcpSocket.pushback_eq_nil_iff,
        ← List.length_eq_zero_iff, Int.reduceNeg, Int.reduceToNat]
      omega

theorem step_conserves_iff {s s' : Endpoint} {a : StreamAction} {o : StreamEvent} (hs : s.Opened)
    (h : s.step a = some (s', o)) : pushbackFlow.Conserves s o s' ↔ ReadCounts s a := by
  cases a with
  | read len r =>
      obtain ⟨res, hread, rfl, rfl⟩ := step_read h
      exact read_conserves_iff hs hread
  | peekByte r =>
      obtain ⟨ret, handed, hpeek, rfl⟩ := step_peekByte h
      have hkeep := (TcpSocket.peekByte_cases hs hpeek).2.1
      simp [Flow.Conserves, pushbackFlow, ReadCounts, hkeep]
  | _ =>
      obtain ⟨hsock, hput, htaken, -⟩ := step_observer h (fun _ _ => by simp) (fun _ => by simp)
      simp only [Flow.Conserves, hput, htaken, ReadCounts, iff_true, List.append_nil,
        List.nil_append]
      simp [pushbackFlow, hsock]

theorem step_quiet {s s' : Endpoint} {a : StreamAction} {o : StreamEvent} (hs : s.Opened)
    (h : s.step a = some (s', o)) (hcount : ReadCounts s a) : QuietStep s o s' := by
  cases a with
  | read len r =>
      have hflow := (step_conserves_iff hs h).mpr hcount
      have hopen := step_opened hs h
      obtain ⟨res, hread, rfl, rfl⟩ := step_read h
      intro hret
      have hnat : res.ret.toNat = 0 := Int.toNat_of_nonpos hret
      simp only [Flow.Conserves, pushbackFlow, hnat, List.take_zero, List.nil_append] at hflow
      rcases TcpSocket.read_cases hs hread with ⟨-, rfl⟩ | ⟨b, -, -, rfl⟩ | ⟨-, hrecv⟩
      · exact ⟨rfl, rfl⟩
      · simp at hret
      · rw [(TcpSocket.readRecv_cases hrecv).1] at hflow ⊢
        obtain ⟨hpush, hhanded⟩ := List.append_eq_nil_iff.mp hflow
        refine ⟨hhanded, ?_⟩
        exact TcpSocket.drop_pushback (TcpSocket.pushback_eq_nil_iff.mp hpush)
  | peekByte r =>
      obtain ⟨ret, handed, hpeek, rfl⟩ := step_peekByte h
      exact (TcpSocket.peekByte_cases hs hpeek).2
  | _ => exact (step_observer h (fun _ _ => by simp) (fun _ => by simp)).2.2.2

/-! ## Whole runs -/

/-- On an open socket the stream stays intact over a run exactly when every read of the run
counts what it consumed. -/
theorem streamIntact_iff (native : Nat) (c : Conn) (as : List StreamAction) (s : Endpoint)
    (os : List StreamEvent) (hrun : tcpStream.run (.opened native c) as = some (s, os)) :
    StreamIntact (.opened native c) as ↔ tcpStream.Along ReadCounts (.opened native c) as := by
  have hstart : (Endpoint.opened native c).Opened := rfl
  have hopened : ∀ bs s' os', tcpStream.run (.opened native c) bs = some (s', os') → s'.Opened :=
    fun bs s' os' h => Machine.invariant (M := tcpStream)
      (fun s a s' o hs hstep => step_opened hs hstep) hstart h
  have hflow : tcpStream.Throughout
        (fun os s => pushbackFlow.Balanced (.opened native c) os s) (.opened native c) as ↔
      tcpStream.Along ReadCounts (.opened native c) as := by
    have hexact := Machine.throughout_iff_along (M := tcpStream) (G := ReadCounts)
      (I := fun os s => s.Opened ∧ pushbackFlow.Balanced (.opened native c) os s)
      (fun os s a s' o hI hstep => by
        rw [hI.2.snoc_iff, step_conserves_iff hI.1 hstep]
        exact and_iff_right (step_opened hI.1 hstep))
      ⟨hstart, pushbackFlow.balanced_nil _⟩ hrun
    rw [← hexact]
    constructor
    · intro hall bs hbs s' os' h
      exact ⟨hopened bs s' os' h, hall bs hbs s' os' h⟩
    · intro hall bs hbs s' os' h
      exact (hall bs hbs s' os' h).2
  constructor
  · intro hintact
    exact hflow.mp hintact.1
  · intro halong
    refine ⟨hflow.mpr halong, ?_⟩
    rintro bs a ⟨cs, rfl⟩ s₁ os₁ s₂ o hbefore hstep
    have hwhole : tcpStream.run (.opened native c) (bs ++ [a]) = some (s₂, os₁ ++ [o]) :=
      Machine.run_snoc_iff.mpr ⟨s₁, os₁, o, hbefore, hstep, rfl⟩
    have hprefix := ((Machine.along_append hwhole).mp halong).1
    have hlast := ((Machine.along_append hbefore).mp hprefix).2
    exact step_quiet (hopened bs s₁ os₁ hbefore) hstep hlast.1

/-- A peeked byte, the byte behind it, and a read of both. -/
theorem streamIntact_peek_read :
    StreamIntact (.opened 3 ⟨[65, 66], .up, false⟩) [.peekByte (.data 1), .read 2 (.data 1)] :=
  (streamIntact_iff 3 ⟨[65, 66], .up, false⟩ [.peekByte (.data 1), .read 2 (.data 1)]
    ⟨.opened 3, ⟨[], .up, false⟩⟩ [.peekByte 65 [65], .read 2 [65, 66] [66]] rfl).mpr
    ⟨trivial, .inr (by decide), trivial⟩

/-- The far end resets after a byte was peeked: the next read of two bytes returns `-1` and the
byte is gone. -/
theorem not_streamIntact_of_reset : ¬ ∀ (native : Nat) (c : Conn) (as : List StreamAction)
    (s : Endpoint) (os : List StreamEvent),
    tcpStream.run (.opened native c) as = some (s, os) → StreamIntact (.opened native c) as := by
  intro hall
  have hintact := hall 3 ⟨[65], .up, false⟩
    [.peekByte (.data 1), .peerReset false, .read 2 (.hardError false)]
    ⟨.opened 3, ⟨[], .reset, false⟩⟩ [.peekByte 65 [65], .peer, .read (-1) [65] []] rfl
  have hlost := hintact.1 _ List.prefix_rfl ⟨.opened 3, ⟨[], .reset, false⟩⟩
    [.peekByte 65 [65], .peer, .read (-1) [65] []] rfl
  exact absurd hlost (by unfold Flow.Balanced; decide)

end ZiModem.Hal.Net
