import ZiModem.Hal.Net.TlsSession

/-! # After a TLS connect that failed

Each failure exit of `connect` closes the TCP socket and nothing else. What an
earlier session left behind stays: the handshake flag, the buffered plaintext
and the mbedTLS context, out of which the next poll reads on. The last theorem
says from which states a failed connect leaves a socket that looks closed.
-/

namespace ZiModem.Hal.Net

open Reactive

/-- A call before the next `connect`, with the answers mbedTLS gives over a closed TCP socket: it
accepts no byte, and it yields plaintext only if it holds some, as of a record of which `pump` has
taken no more than the first `recordMax` bytes. -/
def TlsAction.OverClosed (held : Bool) : TlsAction → Prop
  | .connect _ => False
  | .available r | .read _ r | .peekByte r => held = false → ∀ record, r ≠ .plaintext record
  | .write _ ws => ∀ n late, (.accepted n, late) ∉ ws
  | _ => True

def TlsEvent.ShowsClosed : TlsEvent → Prop
  | .connected up => up = false
  | .available n _ => n = 0
  | .read ret buf _ => ret ≤ 0 ∧ buf = []
  | .peekByte ret _ => ret = -1
  | .write sent _ => sent = 0
  | _ => True

namespace TlsSocket

/-- Nothing of an earlier session can come to light: there was none, or its plaintext is used up
and no more can come. -/
def Exhausted (held : Bool) (s : TlsSocket) : Prop :=
  s.handshaked = false ∨ s.unread = [] ∧ (s.fatal = true ∨ held = false)

/-- Every failure exit does the same. -/
theorem connect_failed {s s' : TlsSocket} {o : ConnectOracle} (h : s.connect o = some (s', false)) :
    s' = { s with tcp := .closed } := by
  cases hnative : o.native with
  | none =>
      simp only [connect, TcpSocket.connect, hnative] at h
      cases h
      rfl
  | some native =>
      simp only [connect, TcpSocket.connect, hnative] at h
      split at h
      next => cases h; rfl
      split at h
      next => cases h; rfl
      split at h
      next => cases h; rfl
      cases hloop : handshakeLoop o.handshake with
      | none => simp [hloop] at h
      | some done =>
          cases done with
          | false => simp only [hloop] at h; cases h; rfl
          | true => simp only [hloop] at h; cases h

/-! ## Calls on an exhausted socket -/

section Exhausted

variable {s s' : TlsSocket} {held : Bool}

theorem pump_exhausted (hclosed : s.tcp.isOpen = false) (hh : s.handshaked = true)
    (hs : s.Exhausted held) {r : SslRead} (hr : held = false → ∀ record, r ≠ .plaintext record) :
    (s.pump r).1.unread = [] ∧ (s.pump r).1.tcp.isOpen = false ∧ (s.pump r).1.Exhausted held := by
  obtain ⟨hempty, hdone⟩ := hs.resolve_left (by simp [hh])
  by_cases hfatal : s.fatal = true
  · rw [pump_of_fatal hfatal]
    exact ⟨hempty, hclosed, hs⟩
  · have hheld : held = false := hdone.resolve_left hfatal
    obtain ⟨heq, -⟩ := pump_of_drained hempty (by simpa using hfatal) r
    have hbytes : r.bytes = [] := by
      cases r with
      | plaintext record => exact absurd rfl (hr hheld record)
      | _ => rfl
    rw [heq, hbytes]
    exact ⟨rfl, hclosed, .inr ⟨rfl, .inr hheld⟩⟩

theorem available_empty {r : SslRead} (h : (s.pump r).1.unread = []) : (s.available r).2.1 = 0 := by
  unfold available
  split
  · rfl
  · have hlength := unread_length (s.pump r).1
    rw [h, List.length_nil] at hlength
    simp only [← hlength]
    rfl

theorem read_empty {len : Nat} {r : SslRead} (h : (s.pump r).1.unread = []) :
    (s.read len r).2.1 ≤ 0 ∧ (s.read len r).2.2.1 = [] := by
  unfold read
  split
  · exact ⟨Int.le_refl 0, rfl⟩
  · have hlength := unread_length (s.pump r).1
    rw [h, List.length_nil] at hlength
    simp only [← hlength, if_true]
    split <;> simp

theorem peekByte_empty {r : SslRead} (h : (s.pump r).1.unread = []) : (s.peekByte r).2.1 = -1 := by
  by_cases hh : s.handshaked = true
  · rw [peekByte_spec hh, h]
  · rw [peekByte_idle hh]

theorem available_exhausted (hclosed : s.tcp.isOpen = false) (hs : s.Exhausted held) {r : SslRead}
    (hr : held = false → ∀ record, r ≠ .plaintext record) :
    ((s.available r).1.tcp.isOpen = false ∧ (s.available r).1.Exhausted held) ∧
      (s.available r).2.1 = 0 := by
  by_cases hh : s.handshaked = true
  · obtain ⟨hempty, hkept⟩ := pump_exhausted hclosed hh hs hr
    refine ⟨?_, available_empty hempty⟩
    simp only [available, hh, Bool.true_eq_false, if_false]
    exact hkept
  · rw [available_idle hh]
    exact ⟨⟨hclosed, hs⟩, rfl⟩

theorem peekByte_exhausted (hclosed : s.tcp.isOpen = false) (hs : s.Exhausted held) {r : SslRead}
    (hr : held = false → ∀ record, r ≠ .plaintext record) :
    ((s.peekByte r).1.tcp.isOpen = false ∧ (s.peekByte r).1.Exhausted held) ∧
      (s.peekByte r).2.1 = -1 := by
  by_cases hh : s.handshaked = true
  · obtain ⟨hempty, hkept⟩ := pump_exhausted hclosed hh hs hr
    refine ⟨?_, peekByte_empty hempty⟩
    rw [peekByte_spec hh]
    exact hkept
  · rw [peekByte_idle hh]
    exact ⟨⟨hclosed, hs⟩, rfl⟩

theorem read_exhausted (hclosed : s.tcp.isOpen = false) (hs : s.Exhausted held) {len : Nat}
    {r : SslRead} (hr : held = false → ∀ record, r ≠ .plaintext record) :
    ((s.read len r).1.tcp.isOpen = false ∧ (s.read len r).1.Exhausted held) ∧
      (s.read len r).2.1 ≤ 0 ∧ (s.read len r).2.2.1 = [] := by
  by_cases hh : s.handshaked = true ∧ 0 < len
  · obtain ⟨hempty, hkept⟩ := pump_exhausted hclosed hh.1 hs hr
    refine ⟨?_, read_empty hempty⟩
    have hlength := unread_length (s.pump r).1
    rw [hempty, List.length_nil] at hlength
    simp only [read, hh.1, Nat.ne_of_gt hh.2, Bool.true_eq_false, or_self, if_false, ← hlength,
      if_true]
    exact hkept
  · rw [read_idle hh]
    exact ⟨⟨hclosed, hs⟩, Int.le_refl 0, rfl⟩

end Exhausted

theorem WriteRun.nothing_sent {buf : List UInt8} {ws : List (SslWrite × Bool)} {sent k : Nat}
    {dead : Bool} {calls : List (List UInt8 × SslWrite)} (h : WriteRun buf sent ws k dead calls)
    (hnone : ∀ n late, (.accepted n, late) ∉ ws) : k = sent := by
  induction h with
  | accepted _ n late => exact absurd List.mem_cons_self (hnone n late)
  | retry _ _ _ _ _ _ _ _ _ ih => exact ih fun n late hmem => hnone n late (.tail _ hmem)
  | _ => rfl

theorem write_nothing_sent {s s' : TlsSocket} {buf : List UInt8} {ws : List (SslWrite × Bool)}
    {sent : Nat} {calls : List (List UInt8 × SslWrite)}
    (h : s.write buf ws = some (s', sent, calls))
    (hnone : ∀ n late, (.accepted n, late) ∉ ws) : sent = 0 := by
  simp only [write] at h
  split at h
  next => cases h; rfl
  next =>
    cases hloop : writeLoop buf 0 ws with
    | none => simp [hloop] at h
    | some out =>
        simp only [hloop, Option.some.injEq, Prod.mk.injEq] at h
        rw [← h.2.1]
        exact (writeLoop_run hloop).nothing_sent hnone

/-- One call: an exhausted socket over a closed handle stays one and shows it. -/
theorem exhausted_step {s s' : TlsSocket} {held : Bool} {a : TlsAction} {o : TlsEvent}
    (hclosed : s.tcp.isOpen = false) (hs : s.Exhausted held) (ha : a.OverClosed held)
    (h : s.step a = some (s', o)) :
    (s'.tcp.isOpen = false ∧ s'.Exhausted held) ∧ o.ShowsClosed := by
  cases a with
  | connect c => exact ha.elim
  | close => cases h; exact ⟨⟨rfl, .inl rfl⟩, trivial⟩
  | connected up =>
      cases h
      refine ⟨⟨hclosed, hs⟩, ?_⟩
      simp [TlsEvent.ShowsClosed, connected, hclosed]
  | write buf ws =>
      obtain ⟨sent, calls, hwrite, rfl⟩ := step_write h
      refine ⟨?_, write_nothing_sent hwrite ha⟩
      obtain ⟨hkeep, hfatal⟩ := write_spec hwrite
      rw [hkeep]
      refine ⟨hclosed, hs.imp_right fun hdone => ⟨hdone.1, hdone.2.imp_left fun hdead => ?_⟩⟩
      exact hfatal.mpr (.inl hdead)
  | available r =>
      cases h
      exact available_exhausted hclosed hs ha
  | peekByte r =>
      cases h
      exact peekByte_exhausted hclosed hs ha
  | read len r =>
      cases h
      exact read_exhausted hclosed hs ha

theorem read_one {s : TlsSocket} (hh : s.handshaked = true) {r : SslRead}
    (h : (s.pump r).1.unread ≠ []) : (s.read 1 r).2.2.1 ≠ [] := by
  have hlength := unread_length (s.pump r).1
  have hpos := List.length_pos_iff.mpr h
  have havail : (s.pump r).1.rx.length - (s.pump r).1.rxpos ≠ 0 := by omega
  simp only [read, hh, Bool.true_eq_false, Nat.one_ne_zero, or_self, if_false, havail]
  rw [show (s.pump r).1.rx.drop (s.pump r).1.rxpos = (s.pump r).1.unread from rfl, Ne,
    List.take_eq_nil_iff]
  rintro (hzero | hnil)
  · omega
  · exact h hnil

theorem read_yields {s : TlsSocket} {held : Bool} (hs : ¬ s.Exhausted held) :
    ∃ r, (TlsAction.read 1 r).OverClosed held ∧ (s.read 1 r).2.2.1 ≠ [] := by
  rw [Exhausted, not_or, Bool.not_eq_false] at hs
  obtain ⟨hh, hleft⟩ := hs
  by_cases hempty : s.unread = []
  · obtain ⟨hfatal, hheld⟩ := not_or.mp fun hdone => hleft ⟨hempty, hdone⟩
    refine ⟨.plaintext ⟨[0], by decide, by decide⟩, fun hnone => absurd hnone hheld, ?_⟩
    apply read_one hh
    rw [(pump_of_drained hempty (by simpa using hfatal) _).1]
    simp [unread, SslRead.bytes]
  · refine ⟨.wantRead, fun _ _ heq => (by cases heq), ?_⟩
    apply read_one hh
    rw [pump_of_unread hempty]
    exact hempty

end TlsSocket

/-- A failed connect leaves a socket that looks closed until the next connect, whatever is called
on it, exactly when the earlier session is exhausted. -/
theorem failedConnect_closed_iff {s s₁ : TlsSocket} {c : ConnectOracle}
    (hconnect : s.connect c = some (s₁, false)) (held : Bool) :
    (∀ as s₂ os, (∀ a ∈ as, a.OverClosed held) → tls.run s₁ as = some (s₂, os) →
      s₂.tcp.isOpen = false ∧ ∀ o ∈ os, o.ShowsClosed) ↔ s.Exhausted held := by
  have hfailed := TlsSocket.connect_failed hconnect
  constructor
  · intro hall
    by_contra hleft
    have hleft₁ : ¬ s₁.Exhausted held := by
      rw [hfailed]
      exact hleft
    obtain ⟨r, hr, hyields⟩ := TlsSocket.read_yields hleft₁
    obtain ⟨-, hshows⟩ := hall [.read 1 r] _ [.read _ _ _] (by simpa using hr) rfl
    exact hyields (hshows _ (List.mem_singleton_self _)).2
  · intro hs as s₂ os has hrun
    have hstart : s₁.tcp.isOpen = false ∧ s₁.Exhausted held := by
      rw [hfailed]
      exact ⟨rfl, hs⟩
    have hhistory := Machine.history_along (M := tls) (G := fun _ a => a.OverClosed held)
      (I := fun os s => (s.tcp.isOpen = false ∧ s.Exhausted held) ∧ ∀ o ∈ os, o.ShowsClosed)
      (fun os s a s' o hI ha hstep => by
        obtain ⟨hkept, hshows⟩ := TlsSocket.exhausted_step hI.1.1 hI.1.2 ha hstep
        refine ⟨hkept, fun o' ho' => ?_⟩
        rcases List.mem_append.mp ho' with hmem | hmem
        · exact hI.2 o' hmem
        · rw [List.mem_singleton.mp hmem]
          exact hshows)
      ⟨hstart, by simp⟩ (Machine.along_of_mem has s₁) hrun
    exact ⟨hhistory.1.1, hhistory.2⟩

def readToEnd : List TlsAction :=
  [.connect connectAtOnce, .read 1 (.plaintext ⟨[7], by decide, by decide⟩), .read 1 (.stopped 0)]

/-- The session is read to its end before the next connect fails, by the handshake. -/
theorem failedConnect_closed_readToEnd :
    ∃ s s₁ hos, tls.run .fresh readToEnd = some (s, hos) ∧ s.handshaked = true ∧
      s.connect ⟨some 6, true, true, true, [(.wantRead, false), (.failed (-30592), false)]⟩ =
        some (s₁, false) ∧
      ∀ as s₂ os, (∀ a ∈ as, a.OverClosed true) → tls.run s₁ as = some (s₂, os) →
        s₂.tcp.isOpen = false ∧ ∀ o ∈ os, o.ShowsClosed := by
  have hrun : tls.run .fresh readToEnd = some (⟨.opened 5, [], 0, true, true⟩, _) := rfl
  have hconnect : TlsSocket.connect ⟨.opened 5, [], 0, true, true⟩
      ⟨some 6, true, true, true, [(.wantRead, false), (.failed (-30592), false)]⟩ =
      some (⟨.closed, [], 0, true, true⟩, false) := rfl
  exact ⟨_, _, _, hrun, rfl, hconnect,
    (failedConnect_closed_iff hconnect true).mpr (.inr ⟨rfl, .inl rfl⟩)⟩

/-- A session has one byte unread when the next connect does not reach its host: the byte is still
offered. -/
theorem not_failedConnect_closed : ¬ ∀ (hist : List TlsAction) (s : TlsSocket)
    (hos : List TlsEvent) (c : ConnectOracle) (s₁ : TlsSocket),
    tls.run .fresh hist = some (s, hos) → s.connect c = some (s₁, false) →
    ∀ as s₂ os, (∀ a ∈ as, a.OverClosed false) → tls.run s₁ as = some (s₂, os) →
      s₂.tcp.isOpen = false ∧ ∀ o ∈ os, o.ShowsClosed := by
  intro hall
  have hshows := hall [.connect connectAtOnce, .available (.plaintext ⟨[7], by decide, by decide⟩)]
    ⟨.opened 5, [7], 0, true, false⟩
    [.connect true, .available 1 (some (.plaintext ⟨[7], by decide, by decide⟩))]
    ⟨none, true, true, true, []⟩ ⟨.closed, [7], 0, true, false⟩ (by decide +kernel) rfl
    [.available .wantRead] ⟨.closed, [7], 0, true, false⟩ [.available 1 none]
    (by simp [TlsAction.OverClosed]) (by decide +kernel)
  have hzero : (1 : Int) = 0 := hshows.2 _ (List.mem_singleton_self _)
  exact absurd hzero (by decide)

end ZiModem.Hal.Net
