import ZiModem.Hal.Net.Available
import ZiModem.Hal.Net.Undrained

/-! # The BIO callbacks of mbedTLS

`bio_recv` and `bio_send` tell mbedTLS whether to try again or to give up.
`TcpSocket::read` still knows which it is. `TcpSocket::write` returns 0 either
way, and `bio_send` asks `connected()`, which looks at the receive side only.
-/

namespace ZiModem.Hal.Net

open Reactive

inductive Send
  | sent (n : Nat)
  | wouldBlock
  | hardError
  deriving DecidableEq, Repr

def Send.ret : Send → Int
  | .sent n => n
  | _ => -1

def Send.Fits (len : Nat) : Send → Prop
  | .sent n => 0 < n ∧ n ≤ len
  | _ => True

instance (len : Nat) : DecidablePred (Send.Fits len)
  | .sent _ => inferInstanceAs (Decidable (_ ∧ _))
  | .wouldBlock => .isTrue trivial
  | .hardError => .isTrue trivial

/-- What a callback returns: a count, `MBEDTLS_ERR_SSL_WANT_READ` or `_WANT_WRITE`, or
`MBEDTLS_ERR_NET_RECV_FAILED` or `_SEND_FAILED`. -/
inductive BioResult
  | count (n : Int)
  | wantRead
  | wantWrite
  | recvFailed
  | sendFailed
  deriving DecidableEq, Repr

/-- `bio_send`; `r` is the answer to the probe of `connected()`, if it comes to that. -/
def bioSend (tcp : TcpSocket) (c : Conn) (buf : List UInt8) (w : Send) (r : Recv) :
    Option (Conn × BioResult) :=
  let n := tcp.write buf w.ret
  if 0 < n then some (c, .count (toInt n))
  else
    match tcp.connected c r with
    | none => none
    | some (c', up) => some (c', if up then .wantWrite else .sendFailed)

/-- `bio_recv`, with the bytes it stores; `r` is the answer to the `recv`, and `probe` to the probe
of `connected()`, if it comes to that. -/
def bioRecv (tcp : TcpSocket) (c : Conn) (len : Nat) (r probe : Recv) :
    Option (TcpSocket × Conn × BioResult × List UInt8) :=
  match tcp.read c len r with
  | none => none
  | some res =>
      if 0 < res.ret then some (res.sock, res.conn, .count res.ret, res.buf)
      else if res.ret < 0 then some (res.sock, res.conn, .recvFailed, res.buf)
      else
        match res.sock.connected res.conn probe with
        | none => none
        | some (c', up) => some (res.sock, c', if up then .wantRead else .recvFailed, res.buf)

/-- What `bio_send` owes to mbedTLS for each outcome of the `send`. -/
structure Send.Classified (w : Send) (result : BioResult) : Prop where
  sent : ∀ n, w = .sent n → result = .count n
  blocked : result = .wantWrite ↔ w = .wouldBlock
  failed : result = .sendFailed ↔ w = .hardError

/-- What `bio_recv` owes to mbedTLS for each answer to the `recv`. -/
structure Recv.Classified (r : Recv) (result : BioResult) (bytes : List UInt8) : Prop where
  data : ∀ n, r = .data n → result = .count n ∧ bytes.length = n
  blocked : result = .wantRead ↔ r = .wouldBlock
  failed : result = .recvFailed ↔ r = .closed ∨ ∃ discard, r = .hardError discard

/-! ## The callbacks on a connection in one state -/

theorem connected_takes (native : Nat) (c : Conn) :
    ∃ c', (TcpSocket.opened native).connected c (c.takes 1) = some (c', decide c.Live) := by
  by_cases hqueued : c.queued = []
  · cases hpeer : c.peer <;>
      simp [Conn.takes, hqueued, hpeer, Conn.Live, TcpSocket.connected, TcpSocket.isOpen,
        TcpSocket.opened, Conn.recvPeek]
  · have hpos := List.length_pos_iff.mpr hqueued
    have hone : min 1 c.queued.length = 1 := by omega
    simp [Conn.takes, hqueued, Conn.Live, TcpSocket.connected, TcpSocket.isOpen, TcpSocket.opened,
      Conn.recvPeek, hone]

section Callbacks

variable {native : Nat} {c : Conn} {buf : List UInt8} {w : Send} {len : Nat}

theorem bioSend_sent {n : Nat} (hfits : (Send.sent n).Fits buf.length)
    (hbuf : (buf.length : Int) ≤ intMax) (r : Recv) :
    bioSend (.opened native) c buf (.sent n) r = some (c, .count n) := by
  have hpos : 0 < buf.length := Nat.lt_of_lt_of_le hfits.1 hfits.2
  have hle : (n : Int) ≤ buf.length := Int.ofNat_le.mpr hfits.2
  have hwrite : (TcpSocket.opened native).write buf (Send.sent n).ret = n := by
    have hn : 0 < (n : Int) := Int.natCast_pos.mpr hfits.1
    simp only [TcpSocket.write, TcpSocket.isOpen, TcpSocket.opened, Option.isSome_some,
      Bool.true_eq_false, Nat.ne_of_gt hpos, or_self, if_false, Send.ret, Int.toNat_natCast]
    exact if_pos hn
  simp only [bioSend, hwrite, if_pos hfits.1, toInt_natCast (Int.le_trans hle hbuf)]

theorem bioSend_failed (native : Nat) (c : Conn) (buf : List UInt8) (hw : w.ret = -1) :
    ∃ c', bioSend (.opened native) c buf w (c.takes 1) =
      some (c', if c.Live then .wantWrite else .sendFailed) := by
  obtain ⟨c', hprobe⟩ := connected_takes native c
  have hwrite : (TcpSocket.opened native).write buf w.ret = 0 := by
    simp [TcpSocket.write, hw]
  refine ⟨c', ?_⟩
  simp only [bioSend, hwrite, Nat.lt_irrefl, if_false, hprobe, decide_eq_true_eq]

/-- What `connected()` says is the right answer to a failed `send` only where it happens to
agree. -/
theorem Send.classified_iff_live (c : Conn) (hw : w.ret = -1) :
    w.Classified (if c.Live then .wantWrite else .sendFailed) ↔
      (w = .wouldBlock → c.Live) ∧ (w = .hardError → ¬ c.Live) := by
  constructor
  · rintro ⟨-, hblocked, hfailed⟩
    by_cases hlive : c.Live
    · rw [if_pos hlive] at hfailed
      exact ⟨fun _ => hlive, fun hhard => absurd (hfailed.mpr hhard) (by decide)⟩
    · rw [if_neg hlive] at hblocked
      exact ⟨fun hwould => absurd (hblocked.mpr hwould) (by decide), fun _ => hlive⟩
  · rintro ⟨hwould, hhard⟩
    cases w with
    | sent n => cases hw
    | wouldBlock =>
        rw [if_pos (hwould rfl)]
        exact ⟨by simp, by simp, by simp⟩
    | hardError =>
        rw [if_neg (hhard rfl)]
        exact ⟨by simp, by simp, by simp⟩

theorem bioRecv_classifies (native : Nat) (c : Conn) (hlen : 0 < len)
    (hmax : (len : Int) ≤ intMax) :
    ∃ tcp' c' result bytes, bioRecv (.opened native) c len (c.takes len) (c.takes 1) =
      some (tcp', c', result, bytes) ∧ (c.takes len).Classified result bytes := by
  have hread : ∀ r, (TcpSocket.opened native).read c len r =
      TcpSocket.readRecv (.opened native) c [] len r := by
    intro r
    simp [TcpSocket.read, TcpSocket.isOpen, TcpSocket.opened, Nat.ne_of_gt hlen]
  simp only [bioRecv, hread, TcpSocket.readRecv, List.length_nil, Nat.sub_zero]
  by_cases hqueued : c.queued = []
  · cases hpeer : c.peer with
    | up =>
        have htakes : ∀ n, c.takes n = .wouldBlock := by simp [Conn.takes, hqueued, hpeer]
        simp only [htakes, Conn.recv, toInt_neg_one]
        exact ⟨_, _, _, _, rfl, by simp, by simp, by simp⟩
    | closed =>
        have htakes : c.takes len = .closed := by simp [Conn.takes, hqueued, hpeer]
        simp only [htakes, Conn.recv, toInt_zero]
        exact ⟨_, _, _, _, rfl, by simp, by simp, by simp⟩
    | reset =>
        have htakes : c.takes len = .hardError false := by simp [Conn.takes, hqueued, hpeer]
        simp only [htakes, Conn.recv, toInt_neg_one]
        exact ⟨_, _, _, _, rfl, by simp, by simp, by simp⟩
  · have htakes : c.takes len = .data (min len c.queued.length) := by simp [Conn.takes, hqueued]
    have hpos := List.length_pos_iff.mpr hqueued
    have hlength : (c.queued.take len).length = min len c.queued.length := List.length_take
    have hcast : toInt ((c.queued.take len).length : Int) = (c.queued.take len).length :=
      toInt_natCast (by omega)
    have hcount : (0 : Int) < (c.queued.take len).length := by omega
    simp only [Conn.recv_takes hlen hqueued, hcast, if_pos hcount, Int.natCast_zero, Int.zero_add]
    refine ⟨_, _, _, _, rfl, ?_, ?_, ?_⟩
    · intro n heq
      rw [htakes] at heq
      cases heq
      rw [List.nil_append, hlength]
      exact ⟨rfl, rfl⟩
    · simp [htakes]
    · simp [htakes]

/-- Both callbacks classify every outcome on a connection exactly when a `send` that would block
finds the receive side live, and one that fails hard finds it dead. -/
theorem bio_classifies_iff (native : Nat) (c : Conn) (hbuf : (buf.length : Int) ≤ intMax)
    (hfits : w.Fits buf.length) (hlen : 0 < len) (hmax : (len : Int) ≤ intMax) :
    ((∃ c' result, bioSend (.opened native) c buf w (c.takes 1) = some (c', result) ∧
        w.Classified result) ∧
      ∃ tcp' c' result bytes, bioRecv (.opened native) c len (c.takes len) (c.takes 1) =
        some (tcp', c', result, bytes) ∧ (c.takes len).Classified result bytes) ↔
      (w = .wouldBlock → c.Live) ∧ (w = .hardError → ¬ c.Live) := by
  rw [and_iff_left (bioRecv_classifies native c hlen hmax)]
  by_cases hw : w.ret = -1
  · obtain ⟨c', hsend⟩ := bioSend_failed native c buf hw
    rw [← Send.classified_iff_live c hw, hsend]
    constructor
    · rintro ⟨_, _, heq, hclassified⟩
      cases heq
      exact hclassified
    · exact fun hclassified => ⟨c', _, rfl, hclassified⟩
  · cases w with
    | sent n =>
        rw [bioSend_sent hfits hbuf]
        exact iff_of_true ⟨c, _, rfl, by simp, by simp, by simp⟩ (by simp)
    | wouldBlock => exact absurd rfl hw
    | hardError => exact absurd rfl hw

end Callbacks

/-- A full send buffer while the far end is up. -/
theorem bio_classifies_full_buffer :
    ((∃ c' result, bioSend (.opened 3) ⟨[], .up, false⟩ [1] .wouldBlock .wouldBlock =
        some (c', result) ∧ Send.Classified .wouldBlock result) ∧
      ∃ tcp' c' result bytes, bioRecv (.opened 3) ⟨[], .up, false⟩ 5 .wouldBlock .wouldBlock =
        some (tcp', c', result, bytes) ∧ Recv.Classified .wouldBlock result bytes) ↔
      (Send.wouldBlock = .wouldBlock → Conn.Live ⟨[], .up, false⟩) ∧
        (Send.wouldBlock = .hardError → ¬ Conn.Live ⟨[], .up, false⟩) :=
  bio_classifies_iff 3 ⟨[], .up, false⟩ (by decide) trivial (by decide) (by decide)

/-- The far end has closed its direction and reads on slowly: a full send buffer is reported as a
failed send. -/
theorem not_bio_classifies : ¬ ∀ (c : Conn) (buf : List UInt8) (w : Send), 0 < buf.length →
    (buf.length : Int) ≤ intMax → w.Fits buf.length →
    ∃ c' result, bioSend (.opened 3) c buf w (c.takes 1) = some (c', result) ∧
      w.Classified result := by
  intro hall
  obtain ⟨c', result, hsend, hclassified⟩ :=
    hall ⟨[], .closed, false⟩ [1] .wouldBlock (by decide) (by decide) trivial
  cases hsend
  exact absurd (hclassified.blocked.mpr rfl) (by decide)

end ZiModem.Hal.Net
