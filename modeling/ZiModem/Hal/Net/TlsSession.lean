import ZiModem.Hal.Net.Tls

/-! # Sessions of a TLS socket

Within a session no call loses, duplicates or reorders plaintext: `pump` refills
the buffer only when it is empty, and `read` moves `rxpos` by what it copied.
Across sessions the buffer and the fatal flag are inherited, because `connect`
resets neither; the last section says exactly when that does no harm.
-/

namespace ZiModem.Hal.Net

open Reactive

namespace TlsSocket

structure Valid (s : TlsSocket) : Prop where
  pos_le : s.rxpos ≤ s.rx.length
  size_le : s.rx.length ≤ recordMax

theorem valid_fresh : fresh.Valid := ⟨Nat.le_refl _, Nat.zero_le _⟩

theorem unread_length (s : TlsSocket) : s.unread.length = s.rx.length - s.rxpos := by
  rw [unread, List.length_drop]

theorem unread_eq_nil_iff (s : TlsSocket) : s.unread = [] ↔ s.rx.length ≤ s.rxpos := by
  rw [unread, List.drop_eq_nil_iff]

theorem unread_advance (s : TlsSocket) (n : Nat) :
    ({ s with rxpos := s.rxpos + n } : TlsSocket).unread = s.unread.drop n := by
  simp [unread, List.drop_drop]

/-! ## Pumping -/

theorem pump_of_unread {s : TlsSocket} (h : s.unread ≠ []) (r : SslRead) :
    s.pump r = (s, none) := by
  rw [Ne, unread_eq_nil_iff, Nat.not_le] at h
  simp [pump, h]

theorem pump_of_fatal {s : TlsSocket} (h : s.fatal = true) (r : SslRead) :
    s.pump r = (s, none) := by
  simp [pump, h]

theorem pump_of_drained {s : TlsSocket} (hdrained : s.unread = []) (halive : s.fatal = false)
    (r : SslRead) :
    s.pump r = ({ s with rx := r.bytes, rxpos := 0, fatal := (s.pump r).1.fatal }, some r) ∧
      ((s.pump r).1.fatal = true ↔ ∃ code, r = .stopped code) := by
  have hpos := Nat.not_lt.mpr ((unread_eq_nil_iff s).mp hdrained)
  cases r <;> simp [pump, hpos, halive, SslRead.bytes]

/-- What `pump` keeps and what it adds: the unread bytes are followed by the plaintext of the
one call it may make, and a dead session makes none. -/
theorem pump_spec {s : TlsSocket} (hv : s.Valid) (r : SslRead) :
    (s.pump r).1.Valid ∧ (s.pump r).1.handshaked = s.handshaked ∧ (s.pump r).1.tcp = s.tcp ∧
      s.unread ++ ((s.pump r).2.map SslRead.bytes).getD [] = (s.pump r).1.unread ∧
      ((s.pump r).1.fatal = true ↔ s.fatal = true ∨ ∃ code, (s.pump r).2 = some (.stopped code)) ∧
      (s.fatal = true → (s.pump r).2 = none) ∧ ((s.pump r).2 = none ∨ (s.pump r).2 = some r) := by
  by_cases hfatal : s.fatal = true
  · rw [pump_of_fatal hfatal r]
    exact ⟨hv, rfl, rfl, by simp, by simp, fun _ => rfl, .inl rfl⟩
  · by_cases hdrained : s.unread = []
    · have halive : s.fatal = false := by simpa using hfatal
      obtain ⟨heq, hstop⟩ := pump_of_drained hdrained halive r
      rw [heq]
      refine ⟨?_, rfl, rfl, ?_, ?_, ?_, .inr rfl⟩
      · refine ⟨Nat.zero_le _, ?_⟩
        cases r with
        | plaintext record => exact record.fits
        | _ => exact Nat.zero_le _
      · rw [hdrained]
        rfl
      · simp only [halive, Bool.false_eq_true, false_or, Option.some.injEq]
        exact hstop
      · intro h
        exact absurd h hfatal
    · rw [pump_of_unread hdrained r]
      exact ⟨hv, rfl, rfl, by simp, by simp, fun _ => rfl, .inl rfl⟩

/-! ## The calls -/

theorem available_spec {s : TlsSocket} (hv : s.Valid) (hh : s.handshaked = true) (r : SslRead) :
    s.available r = ((s.pump r).1, ((s.pump r).1.unread.length : Int), (s.pump r).2) := by
  obtain ⟨hv', -⟩ := pump_spec hv r
  have hsmall : ((s.pump r).1.rx.length - (s.pump r).1.rxpos : Nat) ≤ recordMax :=
    Nat.le_trans (Nat.sub_le _ _) hv'.size_le
  have hcast := toInt_natCast (n := (s.pump r).1.rx.length - (s.pump r).1.rxpos)
    (by simp only [recordMax, intMax] at *; omega)
  simp [available, hh, unread_length, hcast]

theorem peekByte_spec {s : TlsSocket} (hh : s.handshaked = true) (r : SslRead) :
    s.peekByte r = ((s.pump r).1,
      (match (s.pump r).1.unread with | [] => -1 | b :: _ => (b.toNat : Int)), (s.pump r).2) := by
  have hnext : (s.pump r).1.rx[(s.pump r).1.rxpos]? = (s.pump r).1.unread.head? := by
    rw [unread, List.head?_drop]
  simp only [peekByte, hh, Bool.true_eq_false, if_false, hnext]
  cases (s.pump r).1.unread <;> rfl

theorem read_spec {s : TlsSocket} (hv : s.Valid) (hh : s.handshaked = true) {len : Nat}
    (hlen : 0 < len) (r : SslRead) :
    s.read len r =
      if (s.pump r).1.unread = [] then
        ((s.pump r).1, if (s.pump r).1.fatal then -1 else 0, [], (s.pump r).2)
      else
        ({ (s.pump r).1 with
            rxpos := (s.pump r).1.rxpos + min len (s.pump r).1.unread.length },
          ((min len (s.pump r).1.unread.length : Nat) : Int), (s.pump r).1.unread.take len,
          (s.pump r).2) := by
  obtain ⟨hv', -⟩ := pump_spec hv r
  have hsmall : (s.pump r).1.unread.length ≤ recordMax := by
    rw [unread_length]
    exact Nat.le_trans (Nat.sub_le _ _) hv'.size_le
  have hcast : toInt ((min len (s.pump r).1.unread.length : Nat) : Int) =
      (min len (s.pump r).1.unread.length : Nat) :=
    toInt_natCast (by simp only [recordMax, intMax] at *; omega)
  have htake : (s.pump r).1.unread.take (min len (s.pump r).1.unread.length) =
      (s.pump r).1.unread.take len := by
    rw [List.take_eq_take_iff]
    omega
  have hdrop : (s.pump r).1.rx.drop (s.pump r).1.rxpos = (s.pump r).1.unread := rfl
  simp only [read, hh, Nat.ne_of_gt hlen, Bool.true_eq_false, or_self, if_false]
  rw [← unread_length, hdrop, htake, hcast]
  by_cases hnil : (s.pump r).1.unread = []
  · simp [hnil]
  · simp [hnil]

theorem available_idle {s : TlsSocket} (hh : ¬ s.handshaked = true) (r : SslRead) :
    s.available r = (s, 0, none) := by
  simp [available, hh]

theorem peekByte_idle {s : TlsSocket} (hh : ¬ s.handshaked = true) (r : SslRead) :
    s.peekByte r = (s, -1, none) := by
  simp [peekByte, hh]

theorem read_idle {s : TlsSocket} {len : Nat} (hh : ¬ (s.handshaked = true ∧ 0 < len))
    (r : SslRead) : s.read len r = (s, 0, [], none) := by
  simp only [read]
  rw [if_pos]
  by_cases hhand : s.handshaked = true
  · exact .inr (Nat.eq_zero_of_not_pos fun hpos => hh ⟨hhand, hpos⟩)
  · exact .inl (by simpa using hhand)

inductive WriteRun (buf : List UInt8) : Nat → List (SslWrite × Bool) → Nat → Bool →
    List (List UInt8 × SslWrite) → Prop
  | full (sent : Nat) (ws : List (SslWrite × Bool)) : buf.length ≤ sent →
      WriteRun buf sent ws sent false []
  | accepted (sent n : Nat) (late : Bool) (ws : List (SslWrite × Bool)) (k : Nat) (dead : Bool)
      (calls : List (List UInt8 × SslWrite)) : sent < buf.length → 0 < n →
      n ≤ buf.length - sent → WriteRun buf (sent + n) ws k dead calls →
      WriteRun buf sent ((.accepted n, late) :: ws) k dead ((buf.drop sent, .accepted n) :: calls)
  | stopped (sent : Nat) (code : Int) (late : Bool) (ws : List (SslWrite × Bool)) :
      sent < buf.length →
      WriteRun buf sent ((.stopped code, late) :: ws) sent true [(buf.drop sent, .stopped code)]
  | deadline (sent : Nat) (w : SslWrite) (ws : List (SslWrite × Bool)) : sent < buf.length →
      w.Wants → WriteRun buf sent ((w, true) :: ws) sent false [(buf.drop sent, w)]
  | retry (sent : Nat) (w : SslWrite) (ws : List (SslWrite × Bool)) (k : Nat) (dead : Bool)
      (calls : List (List UInt8 × SslWrite)) : sent < buf.length → w.Wants →
      WriteRun buf sent ws k dead calls →
      WriteRun buf sent ((w, false) :: ws) k dead ((buf.drop sent, w) :: calls)

theorem writeLoop_run {buf : List UInt8} {ws : List (SslWrite × Bool)} {sent k : Nat} {dead : Bool}
    {calls : List (List UInt8 × SslWrite)} (h : writeLoop buf sent ws = some (k, dead, calls)) :
    WriteRun buf sent ws k dead calls := by
  induction ws generalizing sent k dead calls with
  | nil =>
      by_cases hsent : sent < buf.length
      · simp [writeLoop, hsent] at h
      · simp only [writeLoop, if_neg hsent] at h
        cases h
        exact .full sent [] (Nat.le_of_not_lt hsent)
  | cons w ws ih =>
      obtain ⟨w, late⟩ := w
      by_cases hsent : sent < buf.length
      · simp only [writeLoop, if_pos hsent] at h
        cases w with
        | accepted n =>
            by_cases hn : 0 < n ∧ n ≤ buf.length - sent
            · simp only [if_pos hn, Option.map_eq_some_iff, Prod.mk.injEq] at h
              obtain ⟨⟨k', dead', calls'⟩, hrest, rfl, rfl, rfl⟩ := h
              exact .accepted sent n late ws k' dead' calls' hsent hn.1 hn.2 (ih hrest)
            · simp [hn] at h
        | stopped code =>
            cases h
            exact .stopped sent code late ws hsent
        | wantRead | wantWrite =>
            cases late with
            | true =>
                cases h
                exact .deadline sent _ ws hsent trivial
            | false =>
                simp only [Bool.false_eq_true, if_false, Option.map_eq_some_iff, Prod.mk.injEq] at h
                obtain ⟨⟨k', dead', calls'⟩, hrest, rfl, rfl, rfl⟩ := h
                exact .retry sent _ ws k' dead' calls' hsent trivial (ih hrest)
      · simp only [writeLoop, if_neg hsent] at h
        cases h
        exact .full sent _ (Nat.le_of_not_lt hsent)

theorem WriteRun.dead_iff {buf : List UInt8} {ws : List (SslWrite × Bool)} {sent k : Nat}
    {dead : Bool} {calls : List (List UInt8 × SslWrite)} (h : WriteRun buf sent ws k dead calls) :
    dead = true ↔ ∃ bytes code, (bytes, SslWrite.stopped code) ∈ calls := by
  induction h with
  | full => simp
  | accepted _ _ _ _ _ _ _ _ _ _ _ ih =>
      rw [ih]
      simp
  | stopped sent code => simp
  | deadline _ w _ _ hw => cases w <;> first | exact hw.elim | simp
  | retry _ w _ _ _ _ _ hw _ ih =>
      rw [ih]
      cases w <;> first | exact hw.elim | simp

theorem write_spec {s s' : TlsSocket} {buf : List UInt8} {ws : List (SslWrite × Bool)} {sent : Nat}
    {calls : List (List UInt8 × SslWrite)} (h : s.write buf ws = some (s', sent, calls)) :
    s' = { s with fatal := s'.fatal } ∧
      (s'.fatal = true ↔ s.fatal = true ∨ ∃ bytes code, (bytes, SslWrite.stopped code) ∈ calls) := by
  simp only [write] at h
  split at h
  next => cases h; simp
  next =>
    cases hloop : writeLoop buf 0 ws with
    | none => simp [hloop] at h
    | some out =>
        obtain ⟨k, dead, calls'⟩ := out
        simp only [hloop, Option.some.injEq, Prod.mk.injEq] at h
        obtain ⟨rfl, rfl, rfl⟩ := h
        refine ⟨rfl, ?_⟩
        rw [← (writeLoop_run hloop).dead_iff, Bool.or_eq_true]

theorem connect_spec {s s' : TlsSocket} {o : ConnectOracle} {ok : Bool}
    (h : s.connect o = some (s', ok)) :
    s'.rx = s.rx ∧ s'.rxpos = s.rxpos ∧ s'.fatal = s.fatal ∧
      (ok = true → s'.handshaked = true ∧ s'.tcp.isOpen = true) := by
  cases hnative : o.native with
  | none =>
      simp only [connect, TcpSocket.connect, hnative] at h
      cases h
      exact ⟨rfl, rfl, rfl, by simp⟩
  | some native =>
      simp only [connect, TcpSocket.connect, hnative] at h
      split at h
      next => cases h; exact ⟨rfl, rfl, rfl, by simp⟩
      split at h
      next => cases h; exact ⟨rfl, rfl, rfl, by simp⟩
      split at h
      next => cases h; exact ⟨rfl, rfl, rfl, by simp⟩
      cases hloop : handshakeLoop o.handshake with
      | none => simp [hloop] at h
      | some done =>
          cases done with
          | false => simp only [hloop] at h; cases h; exact ⟨rfl, rfl, rfl, by simp⟩
          | true => simp only [hloop] at h; cases h; exact ⟨rfl, rfl, rfl, fun _ => ⟨rfl, rfl⟩⟩

end TlsSocket

/-! ## One step -/

/-- The calls of one session: everything but `connect` and `close`. -/
def TlsAction.InSession : TlsAction → Prop
  | .connect _ => False
  | .close => False
  | _ => True

/-- The calls that neither consume plaintext nor change the session. -/
def TlsAction.Observes : TlsAction → Prop
  | .read _ _ => False
  | a => a.InSession

/-- After this the session is over: a `close`, or a result of mbedTLS that is no retry. -/
def TlsEvent.EndsSession : TlsEvent → Prop
  | .close _ => True
  | .write _ calls => ∃ bytes code, (bytes, SslWrite.stopped code) ∈ calls
  | o => ∃ code, o.sslRead = some (.stopped code)

namespace TlsSocket

theorem step_connect {s s' : TlsSocket} {c : ConnectOracle} {o : TlsEvent}
    (h : s.step (.connect c) = some (s', o)) :
    ∃ ok, s.connect c = some (s', ok) ∧ o = .connect ok := by
  simp only [step, Option.map_eq_some_iff, Prod.mk.injEq] at h
  obtain ⟨⟨s₁, ok⟩, hconnect, rfl, rfl⟩ := h
  exact ⟨ok, hconnect, rfl⟩

theorem step_write {s s' : TlsSocket} {buf : List UInt8} {ws : List (SslWrite × Bool)}
    {o : TlsEvent} (h : s.step (.write buf ws) = some (s', o)) :
    ∃ sent calls, s.write buf ws = some (s', sent, calls) ∧ o = .write sent calls := by
  simp only [step, Option.map_eq_some_iff, Prod.mk.injEq] at h
  obtain ⟨⟨s₁, sent, calls⟩, hwrite, rfl, rfl⟩ := h
  exact ⟨sent, calls, hwrite, rfl⟩

/-- The effect of one call in a session on everything that later calls depend on. -/
structure SessionStep (s : TlsSocket) (o : TlsEvent) (s' : TlsSocket) : Prop where
  valid : s'.Valid
  handshaked : s'.handshaked = s.handshaked
  tcp : s'.tcp = s.tcp
  conserves : plaintextFlow.Conserves s o s'
  fatal : s'.fatal = true ↔ s.fatal = true ∨ o.EndsSession
  silent : s.fatal = true → o.sslRead = none

theorem sessionStep_of_silent {s : TlsSocket} {o : TlsEvent} (hv : s.Valid)
    (hput : plaintextFlow.put o = []) (htaken : plaintextFlow.taken o = [])
    (hlives : ¬ o.EndsSession) (hcall : o.sslRead = none) : SessionStep s o s :=
  ⟨hv, rfl, rfl, by simp [Flow.Conserves, hput, htaken], by simp [hlives], fun _ => hcall⟩

theorem session_step {s s' : TlsSocket} {a : TlsAction} {o : TlsEvent} (hv : s.Valid)
    (ha : a.InSession) (h : s.step a = some (s', o)) : SessionStep s o s' := by
  cases a with
  | connect c => exact ha.elim
  | close => exact ha.elim
  | connected up =>
      cases h
      exact sessionStep_of_silent hv rfl rfl (by simp [TlsEvent.EndsSession, TlsEvent.sslRead]) rfl
  | write buf ws =>
      obtain ⟨sent, calls, hwrite, rfl⟩ := step_write h
      obtain ⟨hkeep, hfatal⟩ := write_spec hwrite
      rw [hkeep]
      refine ⟨⟨hv.pos_le, hv.size_le⟩, rfl, rfl, ?_, hfatal, fun _ => rfl⟩
      simp [Flow.Conserves, plaintextFlow, TlsEvent.sslRead, unread]
  | available r =>
      by_cases hh : s.handshaked = true
      · have hpump := pump_spec hv r
        simp only [step, available_spec hv hh, Option.some.injEq, Prod.mk.injEq] at h
        obtain ⟨rfl, rfl⟩ := h
        obtain ⟨hv', hhand, htcp, hunread, hfatal, hquiet, -⟩ := hpump
        refine ⟨hv', hhand, htcp, ?_, hfatal, hquiet⟩
        simpa [Flow.Conserves, plaintextFlow, TlsEvent.sslRead] using hunread
      · simp only [step, available_idle hh, Option.some.injEq, Prod.mk.injEq] at h
        obtain ⟨rfl, rfl⟩ := h
        exact sessionStep_of_silent hv rfl rfl
          (by simp [TlsEvent.EndsSession, TlsEvent.sslRead]) rfl
  | peekByte r =>
      by_cases hh : s.handshaked = true
      · have hpump := pump_spec hv r
        simp only [step, peekByte_spec hh, Option.some.injEq, Prod.mk.injEq] at h
        obtain ⟨rfl, rfl⟩ := h
        obtain ⟨hv', hhand, htcp, hunread, hfatal, hquiet, -⟩ := hpump
        refine ⟨hv', hhand, htcp, ?_, hfatal, hquiet⟩
        simpa [Flow.Conserves, plaintextFlow, TlsEvent.sslRead] using hunread
      · simp only [step, peekByte_idle hh, Option.some.injEq, Prod.mk.injEq] at h
        obtain ⟨rfl, rfl⟩ := h
        exact sessionStep_of_silent hv rfl rfl
          (by simp [TlsEvent.EndsSession, TlsEvent.sslRead]) rfl
  | read len r =>
      by_cases hh : s.handshaked = true ∧ 0 < len
      · obtain ⟨hv', hhand, htcp, hunread, hfatal, hquiet, -⟩ := pump_spec hv r
        simp only [step, read_spec hv hh.1 hh.2, Option.some.injEq] at h
        split at h
        next hnil =>
          simp only [Prod.mk.injEq] at h
          obtain ⟨rfl, rfl⟩ := h
          refine ⟨hv', hhand, htcp, ?_, hfatal, hquiet⟩
          simpa [Flow.Conserves, plaintextFlow, TlsEvent.sslRead] using hunread
        next hsome =>
          simp only [Prod.mk.injEq] at h
          obtain ⟨rfl, rfl⟩ := h
          have hlength := unread_length (s.pump r).1
          refine ⟨⟨?_, hv'.size_le⟩, hhand, htcp, ?_, hfatal, hquiet⟩
          · have hpos := hv'.pos_le
            dsimp only
            omega
          · have htake : ((s.pump r).1.unread.take len).take
                (min len (s.pump r).1.unread.length) =
                  (s.pump r).1.unread.take (min len (s.pump r).1.unread.length) := by
              rw [List.take_take]
              congr 1
              omega
            simp only [Flow.Conserves, plaintextFlow, TlsEvent.sslRead, Int.toNat_natCast]
            rw [hunread, unread_advance, htake, List.take_append_drop]
      · simp only [step, read_idle hh, Option.some.injEq, Prod.mk.injEq] at h
        obtain ⟨rfl, rfl⟩ := h
        exact sessionStep_of_silent hv rfl rfl
          (by simp [TlsEvent.EndsSession, TlsEvent.sslRead]) rfl

theorem step_valid {s s' : TlsSocket} {a : TlsAction} {o : TlsEvent} (hv : s.Valid)
    (h : s.step a = some (s', o)) : s'.Valid := by
  cases a with
  | connect c =>
      obtain ⟨ok, hconnect, -⟩ := step_connect h
      obtain ⟨hrx, hpos, -⟩ := connect_spec hconnect
      exact ⟨by rw [hrx, hpos]; exact hv.pos_le, by rw [hrx]; exact hv.size_le⟩
  | close => cases h; exact ⟨Nat.le_refl _, Nat.zero_le _⟩
  | _ => exact (session_step hv (by exact trivial) h).valid

theorem step_fatal_iff {s s' : TlsSocket} {a : TlsAction} {o : TlsEvent} (hv : s.Valid)
    (h : s.step a = some (s', o)) : s'.fatal = true ↔ s.fatal = true ∨ o.EndsSession := by
  cases a with
  | connect c =>
      obtain ⟨ok, hconnect, rfl⟩ := step_connect h
      rw [(connect_spec hconnect).2.2.1]
      simp [TlsEvent.EndsSession, TlsEvent.sslRead]
  | close =>
      cases h
      simp [TlsEvent.EndsSession]
  | _ => exact (session_step hv (by exact trivial) h).fatal

/-- On any history of a socket the buffer is valid, and the fatal flag is set exactly when some
call has ended a session: no `connect` ever clears it. -/
theorem fatal_iff_history {as : List TlsAction} {s : TlsSocket} {os : List TlsEvent}
    (hrun : tls.run fresh as = some (s, os)) :
    s.Valid ∧ (s.fatal = true ↔ ∃ o ∈ os, o.EndsSession) := by
  refine Machine.history (M := tls)
    (I := fun os s => s.Valid ∧ (s.fatal = true ↔ ∃ o ∈ os, o.EndsSession)) ?_
    ⟨valid_fresh, by simp [fresh]⟩ hrun
  intro os s a s' o hI hstep
  refine ⟨step_valid hI.1 hstep, ?_⟩
  rw [step_fatal_iff hI.1 hstep, hI.2]
  simp [or_and_right, exists_or]

/-! ## One session -/

/-- A state inside a session: the buffer is valid and the handshake is done. -/
structure InSession (s : TlsSocket) : Prop where
  valid : s.Valid
  handshaked : s.handshaked = true

theorem InSession.step {s s' : TlsSocket} {a : TlsAction} {o : TlsEvent} (hs : s.InSession)
    (ha : a.InSession) (h : s.step a = some (s', o)) : s'.InSession :=
  have hstep := session_step hs.valid ha h
  ⟨hstep.valid, hstep.handshaked.trans hs.handshaked⟩

theorem inSession_run {s s' : TlsSocket} {as : List TlsAction} {os : List TlsEvent}
    (hs : s.InSession) (has : ∀ a ∈ as, a.InSession) (hrun : tls.run s as = some (s', os)) :
    s'.InSession ∧ plaintextFlow.Balanced s os s' := by
  have hG : tls.Along (fun _ a => a.InSession) s as := Machine.along_of_mem has s
  constructor
  · exact Machine.invariant_along (M := tls) (fun s a s' o hJ ha h => hJ.step ha h) hs hG hrun
  · exact Flow.balanced_along (M := tls) (J := InSession)
      (fun s a s' o hJ ha h => hJ.step ha h)
      (fun s a s' o hJ ha h => (session_step hJ.valid ha h).conserves) hs hG hrun

theorem observes_keeps_unread {s s' : TlsSocket} {a : TlsAction} {o : TlsEvent}
    (hs : s.InSession) (hsome : s.unread ≠ []) (ha : a.Observes) (h : s.step a = some (s', o)) :
    s'.unread = s.unread := by
  cases a with
  | connect c => exact ha.elim
  | close => exact ha.elim
  | read len r => exact ha.elim
  | connected up => cases h; rfl
  | write buf ws =>
      obtain ⟨sent, calls, hwrite, -⟩ := step_write h
      rw [(write_spec hwrite).1]
      rfl
  | available r =>
      simp only [step, available_spec hs.valid hs.handshaked, pump_of_unread hsome r] at h
      cases h
      rfl
  | peekByte r =>
      simp only [step, peekByte_spec hs.handshaked, pump_of_unread hsome r] at h
      cases h
      rfl

theorem observes_run {s s' : TlsSocket} {as : List TlsAction} {os : List TlsEvent}
    (hs : s.InSession) (hsome : s.unread ≠ []) (has : ∀ a ∈ as, a.Observes)
    (hrun : tls.run s as = some (s', os)) : s'.InSession ∧ s'.unread = s.unread := by
  induction as generalizing s os with
  | nil => cases hrun; exact ⟨hs, rfl⟩
  | cons a as ih =>
      obtain ⟨s₁, o, os₁, hstep, hrest, -⟩ := Machine.run_cons_iff.mp hrun
      have ha := has a List.mem_cons_self
      have hsession : a.InSession := by
        cases a <;> first | exact ha | trivial
      have hkeep := observes_keeps_unread hs hsome ha hstep
      have hafter := ih (hs.step hsession hstep) (by rw [hkeep]; exact hsome)
        (fun b hb => has b (List.mem_cons_of_mem a hb)) hrest
      exact ⟨hafter.1, hafter.2.trans hkeep⟩

end TlsSocket

/-- What holds at every point of a session, after the calls observed in `os`. -/
structure SessionStream (os : List TlsEvent) (s : TlsSocket) : Prop where
  pos_le : s.rxpos ≤ s.rx.length
  stream : os.flatMap plaintextFlow.put = os.flatMap plaintextFlow.taken ++ s.unread
  available_counts : ∀ r s' n call, tls.step s (.available r) = some (s', .available n call) →
    n = s'.unread.length
  peek_next : ∀ r s' ret call, tls.step s (.peekByte r) = some (s', .peekByte ret call) →
    ret = match s'.unread with | [] => -1 | b :: _ => (b.toNat : Int)
  read_after_available : ∀ r s₁ n call, tls.step s (.available r) = some (s₁, .available n call) →
    0 < n → ∀ bs, (∀ b ∈ bs, b.Observes) → ∀ s₂ os', tls.run s₁ bs = some (s₂, os') →
    ∀ len r' s₃ ret buf call', 0 < len →
      tls.step s₂ (.read len r') = some (s₃, .read ret buf call') →
      ret = min (len : Int) n ∧ buf = s₁.unread.take len
  read_dead : ∀ len r s' buf call, tls.step s (.read len r) = some (s', .read (-1) buf call) →
    s'.fatal = true ∧ (os ++ [TlsEvent.read (-1) buf call]).flatMap plaintextFlow.put =
      (os ++ [TlsEvent.read (-1) buf call]).flatMap plaintextFlow.taken
  dead_silent : ∀ a s' o, a.InSession → tls.step s a = some (s', o) → s.fatal = true →
    o.sslRead = none

namespace TlsSocket

theorem read_dead {s s' : TlsSocket} (hs : s.InSession) {len : Nat} {r : SslRead}
    {buf : List UInt8} {call : Option SslRead}
    (h : tls.step s (.read len r) = some (s', .read (-1) buf call)) :
    s'.fatal = true ∧ s'.unread = [] := by
  change s.step (.read len r) = _ at h
  by_cases hlen : 0 < len
  · simp only [step, read_spec hs.valid hs.handshaked hlen] at h
    split at h
    next hnil =>
      simp only [Option.some.injEq, Prod.mk.injEq, TlsEvent.read.injEq] at h
      obtain ⟨rfl, hret, -, -⟩ := h
      refine ⟨?_, hnil⟩
      by_contra halive
      simp [halive] at hret
    next =>
      simp only [Option.some.injEq, Prod.mk.injEq, TlsEvent.read.injEq] at h
      omega
  · have hzero : len = 0 := by omega
    simp [step, read, hzero] at h

theorem read_after_available {s s₁ s₂ s₃ : TlsSocket} (hs : s.InSession) {r r' : SslRead}
    {n ret : Int} {call call' : Option SslRead} {bs : List TlsAction} {os : List TlsEvent}
    {len : Nat} {buf : List UInt8}
    (havail : tls.step s (.available r) = some (s₁, .available n call)) (hn : 0 < n)
    (hbs : ∀ b ∈ bs, b.Observes) (hrun : tls.run s₁ bs = some (s₂, os)) (hlen : 0 < len)
    (hread : tls.step s₂ (.read len r') = some (s₃, .read ret buf call')) :
    ret = min (len : Int) n ∧ buf = s₁.unread.take len := by
  have hs₁ : s₁.InSession := hs.step (a := .available r) trivial havail
  change s.step (.available r) = _ at havail
  change s₂.step (.read len r') = _ at hread
  simp only [step, available_spec hs.valid hs.handshaked, Option.some.injEq, Prod.mk.injEq,
    TlsEvent.available.injEq] at havail
  obtain ⟨rfl, rfl, -⟩ := havail
  have hsome : (s.pump r).1.unread ≠ [] := by
    intro hnil
    simp [hnil] at hn
  obtain ⟨hs₂, hkeep⟩ := observes_run hs₁ hsome hbs hrun
  have hsome₂ : s₂.unread ≠ [] := by
    rw [hkeep]
    exact hsome
  simp only [step, read_spec hs₂.valid hs₂.handshaked hlen, pump_of_unread hsome₂ r', hsome₂,
    if_false, Option.some.injEq, Prod.mk.injEq, TlsEvent.read.injEq] at hread
  obtain ⟨-, rfl, rfl, -⟩ := hread
  rw [hkeep]
  exact ⟨by omega, rfl⟩

theorem sessionStream_of_inSession {s : TlsSocket} {os : List TlsEvent} (hs : s.InSession)
    (hstream : os.flatMap plaintextFlow.put = os.flatMap plaintextFlow.taken ++ s.unread) :
    SessionStream os s where
  pos_le := hs.valid.pos_le
  stream := hstream
  available_counts := by
    intro r s' n call h
    change s.step (.available r) = _ at h
    simp only [step, available_spec hs.valid hs.handshaked, Option.some.injEq, Prod.mk.injEq,
      TlsEvent.available.injEq] at h
    obtain ⟨rfl, rfl, -⟩ := h
    rfl
  peek_next := by
    intro r s' ret call h
    change s.step (.peekByte r) = _ at h
    simp only [step, peekByte_spec hs.handshaked, Option.some.injEq, Prod.mk.injEq,
      TlsEvent.peekByte.injEq] at h
    obtain ⟨rfl, rfl, -⟩ := h
    rfl
  read_after_available := by
    intro r s₁ n call havail hn bs hbs s₂ os' hrun len r' s₃ ret buf call' hlen hread
    exact read_after_available hs havail hn hbs hrun hlen hread
  read_dead := by
    intro len r s' buf call h
    obtain ⟨hfatal, hdrained⟩ := read_dead hs h
    refine ⟨hfatal, ?_⟩
    have hconserves := (session_step hs.valid (a := .read len r) trivial h).conserves
    have htaken : plaintextFlow.taken (.read (-1) buf call) = [] := by simp [plaintextFlow]
    rw [Flow.Conserves, htaken, List.nil_append] at hconserves
    change s.unread ++ _ = s'.unread at hconserves
    rw [hdrained, List.append_eq_nil_iff] at hconserves
    rw [List.flatMap_append, List.flatMap_append, hstream, hconserves.1]
    simpa [htaken] using hconserves.2
  dead_silent := by
    intro a s' o ha h
    exact (session_step hs.valid ha h).silent

end TlsSocket

/-- From a successful connect on a fresh socket, for every interleaving of calls up to `close`
and every sequence of answers of mbedTLS. -/
theorem sessionStream_of_connect (c : ConnectOracle) (s₁ : TlsSocket) (as : List TlsAction)
    (s : TlsSocket) (os : List TlsEvent) (hconnect : TlsSocket.fresh.connect c = some (s₁, true))
    (has : ∀ a ∈ as, a.InSession) (hrun : tls.run s₁ as = some (s, os)) : SessionStream os s := by
  obtain ⟨hrx, hpos, -, hok⟩ := TlsSocket.connect_spec hconnect
  have hempty : s₁.unread = [] := by
    simp [TlsSocket.unread, hrx, TlsSocket.fresh]
  have hstart : s₁.InSession :=
    ⟨⟨by rw [hrx, hpos]; exact Nat.le_refl _, by rw [hrx]; exact Nat.zero_le _⟩, (hok rfl).1⟩
  obtain ⟨hs, hbalanced⟩ := TlsSocket.inSession_run hstart has hrun
  refine TlsSocket.sessionStream_of_inSession hs ?_
  change s₁.unread ++ _ = _ ++ s.unread at hbalanced
  rw [← hbalanced, hempty, List.nil_append]

def connectAtOnce : ConnectOracle := ⟨some 5, true, true, true, [(.done, false)]⟩

/-- Three bytes arrive, one is peeked at, two are read, and the session dies with one left. -/
theorem sessionStream_example :
    SessionStream
      [.available 3 (some (.plaintext ⟨[1, 2, 3], by decide, by decide⟩)), .peekByte 1 none,
        .read 2 [1, 2] none, .write 0 [([7], .stopped (-80))]]
      ⟨.opened 5, [1, 2, 3], 2, true, true⟩ :=
  sessionStream_of_connect connectAtOnce ⟨.opened 5, [], 0, true, false⟩
    [.available (.plaintext ⟨[1, 2, 3], by decide, by decide⟩), .peekByte .wantRead,
      .read 2 .wantRead, .write [7] [(.stopped (-80), false)]]
    _ _ rfl (by simp [TlsAction.InSession]) (by decide +kernel)

/-! ## Connecting again -/

/-- A call of the new session on which mbedTLS reports no error and the TCP probe succeeds. -/
def TlsAction.Healthy : TlsAction → Prop
  | .connect _ => False
  | .close => False
  | .available r => ∀ code, r ≠ .stopped code
  | .read _ r => ∀ code, r ≠ .stopped code
  | .peekByte r => ∀ code, r ≠ .stopped code
  | .write _ ws => ∀ code late, (SslWrite.stopped code, late) ∉ ws
  | .connected up => up = true

/-- The new session is up and carries its own plaintext only: what was read, followed by what is
buffered, is what mbedTLS produced since the connect, and a peek shows the next byte of it. -/
structure FreshStream (os : List TlsEvent) (s : TlsSocket) : Prop where
  up : s.connected true = true
  reported_up : TlsEvent.connected false ∉ os
  stream : os.flatMap plaintextFlow.put = os.flatMap plaintextFlow.taken ++ s.unread
  peek_next : ∀ r s' ret call, tls.step s (.peekByte r) = some (s', .peekByte ret call) →
    ret = match s'.unread with | [] => -1 | b :: _ => (b.toNat : Int)

namespace TlsSocket

theorem WriteRun.calls_answered {buf : List UInt8} {ws : List (SslWrite × Bool)} {sent k : Nat}
    {dead : Bool} {calls : List (List UInt8 × SslWrite)} (h : WriteRun buf sent ws k dead calls) :
    ∀ call ∈ calls, ∃ late, (call.2, late) ∈ ws := by
  have hcons : ∀ (w : SslWrite) (late : Bool) (ws : List (SslWrite × Bool)) (bytes : List UInt8)
      (calls : List (List UInt8 × SslWrite)), (∀ call ∈ calls, ∃ late', (call.2, late') ∈ ws) →
      ∀ call ∈ (bytes, w) :: calls, ∃ late', (call.2, late') ∈ (w, late) :: ws := by
    intro w late ws bytes calls hrest call hmem
    rcases List.mem_cons.mp hmem with rfl | hmem
    · exact ⟨late, List.mem_cons_self⟩
    · obtain ⟨late', hlate⟩ := hrest call hmem
      exact ⟨late', List.mem_cons_of_mem _ hlate⟩
  induction h with
  | full => simp
  | accepted _ _ _ _ _ _ _ _ _ _ _ ih => exact hcons _ _ _ _ _ ih
  | stopped => exact hcons _ _ _ _ [] (by simp)
  | deadline => exact hcons _ _ _ _ [] (by simp)
  | retry _ _ _ _ _ _ _ _ _ ih => exact hcons _ _ _ _ _ ih

theorem healthy_lives {s s' : TlsSocket} {a : TlsAction} {o : TlsEvent} (hv : s.Valid)
    (ha : a.Healthy) (h : s.step a = some (s', o)) : ¬ o.EndsSession := by
  have hpumped : ∀ r, (∀ code, r ≠ .stopped code) →
      ¬ ∃ code, (s.pump r).2 = some (.stopped code) := by
    intro r hr hstop
    obtain ⟨code, hcode⟩ := hstop
    rcases (pump_spec hv r).2.2.2.2.2.2 with hnone | hsome
    · rw [hnone] at hcode
      cases hcode
    · rw [hsome, Option.some.injEq] at hcode
      exact hr code hcode
  cases a with
  | connect c => exact ha.elim
  | close => exact ha.elim
  | connected up =>
      cases h
      simp [TlsEvent.EndsSession, TlsEvent.sslRead]
  | write buf ws =>
      obtain ⟨sent, calls, hwrite, rfl⟩ := step_write h
      rintro ⟨bytes, code, hmem⟩
      simp only [write] at hwrite
      split at hwrite
      next =>
        cases hwrite
        cases hmem
      next =>
        cases hloop : writeLoop buf 0 ws with
        | none => simp [hloop] at hwrite
        | some out =>
            obtain ⟨k, dead, calls'⟩ := out
            simp only [hloop, Option.some.injEq, Prod.mk.injEq] at hwrite
            obtain ⟨-, -, rfl⟩ := hwrite
            obtain ⟨late, hlate⟩ := (writeLoop_run hloop).calls_answered _ hmem
            exact ha code late hlate
  | available r =>
      by_cases hh : s.handshaked = true
      · simp only [step, available_spec hv hh] at h
        cases h
        exact hpumped r ha
      · simp only [step, available_idle hh] at h
        cases h
        simp [TlsEvent.EndsSession, TlsEvent.sslRead]
  | peekByte r =>
      by_cases hh : s.handshaked = true
      · simp only [step, peekByte_spec hh] at h
        cases h
        exact hpumped r ha
      · simp only [step, peekByte_idle hh] at h
        cases h
        simp [TlsEvent.EndsSession, TlsEvent.sslRead]
  | read len r =>
      by_cases hh : s.handshaked = true ∧ 0 < len
      · simp only [step, read_spec hv hh.1 hh.2] at h
        split at h <;> cases h <;> exact hpumped r ha
      · simp only [step, read_idle hh] at h
        cases h
        simp [TlsEvent.EndsSession, TlsEvent.sslRead]

theorem connected_of_alive {s : TlsSocket} (hh : s.handshaked = true) (halive : s.fatal = false)
    (hopen : s.tcp.isOpen = true) : s.connected true = true := by
  simp [connected, hh, halive, hopen]

theorem freshStream_of_start {s₁ s₂ : TlsSocket} {as : List TlsAction} {os : List TlsEvent}
    (hs : s₁.InSession) (hopen : s₁.tcp.isOpen = true) (halive : s₁.fatal = false)
    (hempty : s₁.unread = []) (has : ∀ a ∈ as, a.Healthy)
    (hrun : tls.run s₁ as = some (s₂, os)) : FreshStream os s₂ := by
  have hsession : ∀ a ∈ as, a.InSession := by
    intro a ha
    have hhealthy := has a ha
    cases a <;> first | exact hhealthy | trivial
  have hG : tls.Along (fun _ a => a.Healthy) s₁ as := Machine.along_of_mem has s₁
  have hlive := Machine.history_along (M := tls) (G := fun _ a => a.Healthy)
    (I := fun os s => (s.InSession ∧ s.fatal = false ∧ s.tcp.isOpen = true) ∧
      TlsEvent.connected false ∉ os)
    (fun os s a s' o hI ha hstep => by
      obtain ⟨⟨hin, hfatal, hup⟩, hreported⟩ := hI
      have hsess : a.InSession := by
        cases a <;> first | exact ha | trivial
      have hone := session_step hin.valid hsess hstep
      have hlives := healthy_lives hin.valid ha hstep
      refine ⟨⟨hin.step hsess hstep, ?_, by rw [hone.tcp]; exact hup⟩, ?_⟩
      · by_contra hdead
        have hdead' : s'.fatal = true := by simpa using hdead
        rcases hone.fatal.mp hdead' with h | h
        · rw [hfatal] at h
          cases h
        · exact hlives h
      · rw [List.mem_append, not_or, List.mem_singleton]
        refine ⟨hreported, ?_⟩
        intro heq
        cases a with
        | connected up =>
            change s.step (.connected up) = _ at hstep
            simp only [step, Option.some.injEq, Prod.mk.injEq] at hstep
            rw [show up = true from ha, connected_of_alive hin.handshaked hfatal hup] at hstep
            rw [← hstep.2] at heq
            cases heq
        | write buf ws =>
            obtain ⟨sent, calls, -, rfl⟩ := step_write hstep
            cases heq
        | connect c => exact ha
        | close => exact ha
        | _ =>
            subst heq
            cases hstep)
    ⟨⟨hs, halive, hopen⟩, by simp⟩ hG hrun
  obtain ⟨⟨hin, hfatal, hup⟩, hreported⟩ := hlive
  obtain ⟨-, hbalanced⟩ := inSession_run hs hsession hrun
  change s₁.unread ++ _ = _ ++ s₂.unread at hbalanced
  rw [hempty, List.nil_append] at hbalanced
  exact ⟨connected_of_alive hin.handshaked hfatal hup, hreported, hbalanced,
    (sessionStream_of_inSession hin hbalanced).peek_next⟩

end TlsSocket

/-- After any history of a socket, a connect that succeeds starts a fresh session exactly when no
earlier call has ended a session and the buffered plaintext was read to its end. -/
theorem reconnect_fresh_iff (hist : List TlsAction) (s : TlsSocket) (hos : List TlsEvent)
    (c : ConnectOracle) (s₁ : TlsSocket) (hhist : tls.run .fresh hist = some (s, hos))
    (hconnect : s.connect c = some (s₁, true)) :
    (∀ as, (∀ a ∈ as, a.Healthy) → ∀ s₂ os, tls.run s₁ as = some (s₂, os) → FreshStream os s₂) ↔
      (∀ o ∈ hos, ¬ o.EndsSession) ∧ s.rx.length ≤ s.rxpos := by
  obtain ⟨hvalid, hfatal⟩ := TlsSocket.fatal_iff_history hhist
  obtain ⟨hrx, hpos, hdead, hok⟩ := TlsSocket.connect_spec hconnect
  obtain ⟨hhand, hopen⟩ := hok rfl
  have hunread : s₁.unread = s.unread := by rw [TlsSocket.unread, hrx, hpos, TlsSocket.unread]
  have halive : (∀ o ∈ hos, ¬ o.EndsSession) ↔ s.fatal = false := by
    rw [← Bool.not_eq_true, hfatal]
    simp
  rw [halive, ← TlsSocket.unread_eq_nil_iff]
  constructor
  · intro hall
    have hstart : FreshStream [] s₁ := hall [] (by simp) s₁ [] rfl
    constructor
    · have hup := hstart.up
      simp only [TlsSocket.connected, Bool.and_eq_true, Bool.not_eq_true'] at hup
      rw [← hdead]
      exact hup.1.2
    · have hempty := hstart.stream
      simp only [List.flatMap_nil, List.nil_append] at hempty
      rw [← hunread]
      exact hempty.symm
  · intro hclean as has s₂ os hrun
    have hvalid₁ : s₁.Valid :=
      ⟨by rw [hrx, hpos]; exact hvalid.pos_le, by rw [hrx]; exact hvalid.size_le⟩
    exact TlsSocket.freshStream_of_start ⟨hvalid₁, hhand⟩ hopen (hdead.trans hclean.1)
      (hunread.trans hclean.2) has hrun

/-- A second connect right after a first session that was neither closed nor left unread. -/
theorem reconnect_fresh_example :
    (∀ as, (∀ a ∈ as, a.Healthy) → ∀ s₂ os,
        tls.run ⟨.opened 5, [7], 1, true, false⟩ as = some (s₂, os) → FreshStream os s₂) ↔
      (∀ o ∈ [TlsEvent.connect true, .read 1 [7] (some (.plaintext ⟨[7], by decide, by decide⟩))],
        ¬ o.EndsSession) ∧ ([7] : List UInt8).length ≤ 1 :=
  reconnect_fresh_iff
    [.connect connectAtOnce, .read 1 (.plaintext ⟨[7], by decide, by decide⟩)]
    ⟨.opened 5, [7], 1, true, false⟩ _ connectAtOnce _ (by decide +kernel) (by decide +kernel)

/-- Connect, close, connect again: the second session looks dead from the start. -/
theorem not_reconnect_fresh : ¬ ∀ (hist : List TlsAction) (s : TlsSocket) (hos : List TlsEvent)
    (c : ConnectOracle) (s₁ : TlsSocket), tls.run .fresh hist = some (s, hos) →
    s.connect c = some (s₁, true) →
    ∀ as, (∀ a ∈ as, a.Healthy) → ∀ s₂ os, tls.run s₁ as = some (s₂, os) → FreshStream os s₂ := by
  intro hall
  have hfresh := hall [.connect connectAtOnce, .close] ⟨.closed, [], 0, false, true⟩
    [.connect true, .close true] connectAtOnce ⟨.opened 5, [], 0, true, true⟩ (by decide +kernel)
    (by decide +kernel) [] (by simp) ⟨.opened 5, [], 0, true, true⟩ [] rfl
  exact absurd hfresh.up (by decide)

end ZiModem.Hal.Net
