import ZiModem.Hal.Net.TlsSession
import ZiModem.Reactive.Traces

/-! # The calls into mbedTLS

mbedTLS has two rules for a session. A write that returned `WANT_READ` or
`WANT_WRITE` is made again with the same bytes before any other, and after an
error the session is used no more. The socket keeps the first as long as no
write gives up at its deadline, and the second except where `write` does not
look at the fatal flag and where a failed second handshake leaves the flags of
the first session.
-/

namespace ZiModem.Hal.Net

open Reactive

/-- A call into mbedTLS with its result. `connect` marks the beginning of a `TlsSocket::connect`,
and `write` keeps the bytes it offered. -/
inductive SslCall
  | connect
  | handshake (r : SslHandshake)
  | read (r : SslRead)
  | write (bytes : List UInt8) (r : SslWrite)
  | closeNotify
  deriving DecidableEq, Repr

def handshakeCalls : List (SslHandshake × Bool) → List SslHandshake
  | [] => []
  | (.done, _) :: _ => [.done]
  | (.failed code, _) :: _ => [.failed code]
  | (.wantRead, late) :: rest => .wantRead :: if late then [] else handshakeCalls rest
  | (.wantWrite, late) :: rest => .wantWrite :: if late then [] else handshakeCalls rest

/-- The handshake begins once the TCP connect, the seeding, the configuration and the set-up of the
context have succeeded. -/
def ConnectOracle.handshakes (o : ConnectOracle) : List SslHandshake :=
  if o.native.isSome && o.seeded && o.configured && o.setUp then handshakeCalls o.handshake else []

def sslCalls : TlsAction → TlsEvent → List SslCall
  | .connect o, _ => .connect :: o.handshakes.map .handshake
  | _, .write _ calls => calls.map fun call => .write call.1 call.2
  | _, .close notify => if notify then [.closeNotify] else []
  | _, o => (o.sslRead.map .read).toList

def tlsCalls : Machine TlsSocket TlsAction (List SslCall) := tls.observe fun _ a o => sslCalls a o

namespace SslCall

def IsConnect (c : SslCall) : Prop := c = .connect

def Uses : SslCall → Prop
  | read _ | write _ _ | closeNotify => True
  | _ => False

def HandshakeFails : SslCall → Prop
  | handshake (.failed _) => True
  | _ => False

/-- An error other than `WANT_READ` and `WANT_WRITE`. The end of the stream, which is 0, is none. -/
def Errs : SslCall → Prop
  | handshake (.failed _) => True
  | read (.stopped code) | write _ (.stopped code) => code < 0
  | _ => False

instance : DecidablePred IsConnect := fun c => inferInstanceAs (Decidable (c = .connect))

instance : DecidablePred Uses
  | read _ | write _ _ | closeNotify => .isTrue trivial
  | connect | handshake _ => .isFalse id

instance : DecidablePred HandshakeFails
  | handshake (.failed _) => .isTrue trivial
  | handshake .done | handshake .wantRead | handshake .wantWrite => .isFalse id
  | connect | read _ | write _ _ | closeNotify => .isFalse id

instance : DecidablePred Errs
  | handshake (.failed _) => .isTrue trivial
  | read (.stopped code) | write _ (.stopped code) => inferInstanceAs (Decidable (code < 0))
  | handshake .done | handshake .wantRead | handshake .wantWrite => .isFalse id
  | read (.plaintext _) | read .wantRead | read .wantWrite => .isFalse id
  | write _ (.accepted _) | write _ .wantRead | write _ .wantWrite => .isFalse id
  | connect | closeNotify => .isFalse id

end SslCall

/-! ## What one call on the socket makes -/

namespace TlsSocket

/-- The call gets through to mbedTLS: `pump` reads when the buffer is drained and the flag is not
set, `close` says goodbye when it is not set, and `write` does not look at it. -/
def Reaches (s : TlsSocket) : TlsAction → Prop
  | .available _ | .peekByte _ => s.handshaked = true ∧ s.fatal = false ∧ s.unread = []
  | .read len _ => s.handshaked = true ∧ s.fatal = false ∧ s.unread = [] ∧ 0 < len
  | .write buf _ => s.handshaked = true ∧ buf ≠ []
  | .close => s.handshaked = true ∧ s.fatal = false
  | .connect _ | .connected _ => False

instance (s : TlsSocket) : DecidablePred s.Reaches
  | .available _ | .peekByte _ => inferInstanceAs (Decidable (_ ∧ _ ∧ _))
  | .read _ _ => inferInstanceAs (Decidable (_ ∧ _ ∧ _ ∧ _))
  | .write _ _ | .close => inferInstanceAs (Decidable (_ ∧ _))
  | .connect _ | .connected _ => .isFalse id

variable {s s' : TlsSocket} {o : TlsEvent}

theorem pump_call (s : TlsSocket) (r : SslRead) :
    (s.pump r).2 = if s.fatal = false ∧ s.unread = [] then some r else none := by
  by_cases hfatal : s.fatal = true
  · simp [pump_of_fatal hfatal, hfatal]
  · have halive : s.fatal = false := by simpa using hfatal
    by_cases hdrained : s.unread = []
    · rw [if_pos ⟨halive, hdrained⟩, (pump_of_drained hdrained halive r).1]
    · rw [if_neg fun h => hdrained h.2, pump_of_unread hdrained]

theorem available_call {r : SslRead} (hstep : s.step (.available r) = some (s', o)) :
    sslCalls (.available r) o = if s.Reaches (.available r) then [.read r] else [] := by
  by_cases hh : s.handshaked = true
  · simp only [step, available, hh, Bool.true_eq_false, if_false, Option.some.injEq,
      Prod.mk.injEq] at hstep
    obtain ⟨-, rfl⟩ := hstep
    simp only [sslCalls, TlsEvent.sslRead, pump_call, Reaches, hh, true_and]
    split <;> rfl
  · simp only [step, available_idle hh] at hstep
    cases hstep
    rw [if_neg fun h => hh h.1]
    rfl

theorem peekByte_call {r : SslRead} (hstep : s.step (.peekByte r) = some (s', o)) :
    sslCalls (.peekByte r) o = if s.Reaches (.peekByte r) then [.read r] else [] := by
  by_cases hh : s.handshaked = true
  · simp only [step, peekByte_spec hh, Option.some.injEq, Prod.mk.injEq] at hstep
    obtain ⟨-, rfl⟩ := hstep
    simp only [sslCalls, TlsEvent.sslRead, pump_call, Reaches, hh, true_and]
    split <;> rfl
  · simp only [step, peekByte_idle hh] at hstep
    cases hstep
    rw [if_neg fun h => hh h.1]
    rfl

theorem read_call {len : Nat} {r : SslRead} (hstep : s.step (.read len r) = some (s', o)) :
    sslCalls (.read len r) o = if s.Reaches (.read len r) then [.read r] else [] := by
  by_cases hh : s.handshaked = true ∧ 0 < len
  · have hcall : o.sslRead = (s.pump r).2 ∧ sslCalls (.read len r) o =
        (o.sslRead.map .read).toList := by
      simp only [step, read, hh, Nat.ne_of_gt hh.2, Bool.true_eq_false, or_self, if_false] at hstep
      split at hstep <;> cases hstep <;> exact ⟨rfl, rfl⟩
    rw [hcall.2, hcall.1, pump_call]
    simp only [Reaches, hh, true_and, and_true]
    split <;> rfl
  · simp only [step, read_idle hh] at hstep
    cases hstep
    rw [if_neg fun h => hh ⟨h.1, h.2.2.2⟩]
    rfl

theorem WriteRun.errs_last {buf : List UInt8} {ws : List (SslWrite × Bool)} {sent k : Nat}
    {dead : Bool} {calls : List (List UInt8 × SslWrite)} (h : WriteRun buf sent ws k dead calls) :
    ∀ call ∈ calls.dropLast, ¬ (SslCall.write call.1 call.2).Errs := by
  have hcons : ∀ (call : List UInt8 × SslWrite) (calls : List (List UInt8 × SslWrite)),
      ¬ (SslCall.write call.1 call.2).Errs →
      (∀ c ∈ calls.dropLast, ¬ (SslCall.write c.1 c.2).Errs) →
      ∀ c ∈ (call :: calls).dropLast, ¬ (SslCall.write c.1 c.2).Errs := by
    intro call calls hcall hrest c hc
    cases calls with
    | nil => cases hc
    | cons c' calls =>
        rcases List.mem_cons.mp hc with rfl | hc
        · exact hcall
        · exact hrest c hc
  induction h with
  | full | stopped | deadline => simp
  | accepted _ _ _ _ _ _ _ _ _ _ _ ih => exact hcons _ _ id ih
  | retry _ w _ _ _ _ _ hw _ ih =>
      refine hcons _ _ ?_ ih
      cases w <;> first | exact hw.elim | exact id

theorem WriteRun.offers {buf : List UInt8} {ws : List (SslWrite × Bool)} {sent k : Nat}
    {dead : Bool} {calls : List (List UInt8 × SslWrite)} (h : WriteRun buf sent ws k dead calls)
    (hsent : sent < buf.length) : ∃ w rest, calls = (buf.drop sent, w) :: rest := by
  cases h with
  | full hfull => omega
  | _ => exact ⟨_, _, rfl⟩

theorem write_call {buf : List UInt8} {ws : List (SslWrite × Bool)}
    (hstep : s.step (.write buf ws) = some (s', o)) :
    (¬ s.Reaches (.write buf ws) ∧ sslCalls (.write buf ws) o = []) ∨
      (s.Reaches (.write buf ws) ∧ ∃ k dead calls, WriteRun buf 0 ws k dead calls ∧
        sslCalls (.write buf ws) o = calls.map fun call => .write call.1 call.2) := by
  obtain ⟨sent, calls, hwrite, rfl⟩ := step_write hstep
  by_cases hreach : s.handshaked = false ∨ buf.length = 0
  · simp only [write, if_pos hreach, Option.some.injEq, Prod.mk.injEq] at hwrite
    obtain ⟨-, -, rfl⟩ := hwrite
    refine .inl ⟨?_, rfl⟩
    rintro ⟨hh, hbuf⟩
    rcases hreach with hidle | hempty
    · rw [hh] at hidle
      cases hidle
    · exact hbuf (List.eq_nil_of_length_eq_zero hempty)
  · simp only [write, if_neg hreach] at hwrite
    rw [not_or] at hreach
    cases hloop : writeLoop buf 0 ws with
    | none => simp [hloop] at hwrite
    | some out =>
        obtain ⟨k, dead, calls'⟩ := out
        simp only [hloop, Option.some.injEq, Prod.mk.injEq] at hwrite
        obtain ⟨-, rfl, rfl⟩ := hwrite
        refine .inr ⟨⟨by simpa using hreach.1, ?_⟩, k, dead, calls', writeLoop_run hloop, rfl⟩
        rintro rfl
        exact hreach.2 rfl

theorem unused_of_not_reaches {a : TlsAction} (h : ¬ s.Reaches a)
    (hstep : s.step a = some (s', o)) : ∀ c ∈ sslCalls a o, ¬ c.Uses := by
  cases a with
  | connect oracle =>
      simp only [sslCalls, List.mem_cons, List.mem_map]
      rintro c (rfl | ⟨r, -, rfl⟩)
      · exact id
      · exact id
  | available r => simp [available_call hstep, h]
  | read len r => simp [read_call hstep, h]
  | peekByte r => simp [peekByte_call hstep, h]
  | write buf ws =>
      rcases write_call hstep with ⟨-, hnone⟩ | ⟨hreach, -⟩
      · simp [hnone]
      · exact absurd hreach h
  | connected up =>
      cases hstep
      simp [sslCalls, TlsEvent.sslRead]
  | close =>
      cases hstep
      have hquiet : (s.handshaked && !s.fatal) = false := by
        by_contra hnotify
        simp only [Bool.not_eq_false, Bool.and_eq_true, Bool.not_eq_true'] at hnotify
        exact h hnotify
      simp [sslCalls, hquiet]

/-- One that does uses the session at once, and meets an error only at its end. -/
theorem used_of_reaches {a : TlsAction} (h : s.Reaches a) (hstep : s.step a = some (s', o)) :
    (∃ u us, sslCalls a o = u :: us ∧ u.Uses) ∧ ∀ c ∈ (sslCalls a o).dropLast, ¬ c.Errs := by
  cases a with
  | connect oracle => exact h.elim
  | connected up => exact h.elim
  | available r =>
      rw [available_call hstep, if_pos h]
      exact ⟨⟨.read r, [], rfl, trivial⟩, by simp⟩
  | read len r =>
      rw [read_call hstep, if_pos h]
      exact ⟨⟨.read r, [], rfl, trivial⟩, by simp⟩
  | peekByte r =>
      rw [peekByte_call hstep, if_pos h]
      exact ⟨⟨.read r, [], rfl, trivial⟩, by simp⟩
  | close =>
      cases hstep
      have hcalls : sslCalls .close (.close (s.handshaked && !s.fatal)) = [.closeNotify] := by
        simp [sslCalls, h.1, h.2]
      rw [hcalls]
      exact ⟨⟨.closeNotify, [], rfl, trivial⟩, by simp⟩
  | write buf ws =>
      rcases write_call hstep with ⟨hnot, -⟩ | ⟨-, k, dead, calls, hloop, hcalls⟩
      · exact absurd h hnot
      · rw [hcalls]
        constructor
        · obtain ⟨w, rest, rfl⟩ := hloop.offers (List.length_pos_iff.mpr h.2)
          exact ⟨.write (buf.drop 0) w, _, List.map_cons .., trivial⟩
        · rw [← List.map_dropLast]
          simp only [List.mem_map]
          rintro c ⟨call, hmem, rfl⟩
          exact hloop.errs_last call hmem

end TlsSocket

/-- Every call but `connect` goes on with the same session, and an error that it meets ends it. -/
theorem sslCalls_of_session {a : TlsAction} {o : TlsEvent} (ha : ∀ oracle, a ≠ .connect oracle) :
    ∀ c ∈ sslCalls a o, ¬ c.IsConnect ∧ (c.Errs → o.EndsSession) := by
  intro c hc
  unfold sslCalls at hc
  split at hc
  next oracle => exact absurd rfl (ha _)
  next calls _ =>
    obtain ⟨⟨bytes, w⟩, hmem, rfl⟩ := List.mem_map.mp hc
    refine ⟨by simp [SslCall.IsConnect], fun herr => ?_⟩
    cases w with
    | stopped code => exact ⟨bytes, code, hmem⟩
    | _ => exact herr.elim
  next notify _ =>
    split at hc
    · rw [List.mem_singleton.mp hc]
      exact ⟨by simp [SslCall.IsConnect], fun herr => herr.elim⟩
    · cases hc
  next hwrite hclose =>
    obtain ⟨r, hr, rfl⟩ := Option.map_eq_some_iff.mp (Option.mem_toList.mp hc)
    refine ⟨by simp [SslCall.IsConnect], fun herr => ?_⟩
    cases r with
    | stopped code =>
        cases o <;> first | exact ⟨code, hr⟩ | cases hr
    | _ => exact herr.elim

/-! ## The session after an error -/

def Broken (os : List (List SslCall)) : Prop := Since SslCall.Errs SslCall.IsConnect os.flatten

def HandshakeFailed (os : List (List SslCall)) : Prop :=
  Since SslCall.HandshakeFails SslCall.IsConnect os.flatten

def DeadUnused (os : List (List SslCall)) : Prop :=
  NeverSince SslCall.Errs SslCall.IsConnect SslCall.Uses os.flatten

/-- Nothing is written after an error, and nothing that gets past the fatal flag is done after a
handshake that failed. -/
def SparesDead (r : TlsSocket × List (List SslCall)) (a : TlsAction) : Prop :=
  r.1.Reaches a →
    match a with
    | .write _ _ => ¬ Broken r.2
    | _ => ¬ HandshakeFailed r.2

/-- An error sets the fatal flag, or it was one of the handshake. -/
structure Flagged (os : List (List SslCall)) (s : TlsSocket) : Prop where
  valid : s.Valid
  fatal : Broken os → s.fatal = true ∨ HandshakeFailed os

/-- While the flag is not set, no error but one of the handshake was returned. -/
theorem Flagged.broken_iff {os : List (List SslCall)} {s : TlsSocket} (h : Flagged os s)
    (halive : s.fatal = false) : Broken os ↔ HandshakeFailed os := by
  constructor
  · intro hbroken
    rcases h.fatal hbroken with hfatal | hfailed
    · rw [halive] at hfatal
      cases hfatal
    · exact hfailed
  · intro hfailed
    refine hfailed.mono ?_
    intro c _ hc
    cases c with
    | handshake r => cases r <;> exact hc
    | _ => exact hc.elim

theorem Flagged.step {os : List (List SslCall)} {s s' : TlsSocket} {a : TlsAction}
    {calls : List SslCall} (h : Flagged os s) (hstep : tlsCalls.step s a = some (s', calls)) :
    Flagged (os ++ [calls]) s' := by
  obtain ⟨o, hsocket, rfl⟩ := Machine.observe_step_iff.mp hstep
  refine ⟨TlsSocket.step_valid h.valid hsocket, ?_⟩
  have happend : (os ++ [sslCalls a o]).flatten = os.flatten ++ sslCalls a o := by simp
  rw [Broken, HandshakeFailed, happend]
  intro hbroken
  by_cases ha : ∃ oracle, a = .connect oracle
  · obtain ⟨oracle, rfl⟩ := ha
    have hconnect : SslCall.connect.IsConnect := rfl
    rw [sslCalls, since_restart_iff hconnect (show ¬ SslCall.connect.Errs from id)] at hbroken
    rw [sslCalls, since_restart_iff hconnect (show ¬ SslCall.connect.HandshakeFails from id)]
    refine .inr (hbroken.mono ?_)
    simp only [List.mem_map]
    rintro c ⟨r, -, rfl⟩ herr
    cases r <;> exact herr
  · have hsession := sslCalls_of_session (o := o) (not_exists.mp ha)
    rw [TlsSocket.step_fatal_iff h.valid hsocket]
    by_cases herr : ∃ c ∈ sslCalls a o, c.Errs
    · obtain ⟨c, hc, herr⟩ := herr
      exact .inl (.inr ((hsession c hc).2 herr))
    · push Not at herr
      rcases h.fatal (since_of_append herr hbroken) with hfatal | hfailed
      · exact .inl (.inl hfatal)
      · exact .inr (hfailed.append fun c hc => (hsession c hc).1)

theorem deadUnused_iff {as : List TlsAction} {s : TlsSocket} {os : List (List SslCall)}
    (hrun : tlsCalls.run .fresh as = some (s, os)) :
    tlsCalls.Throughout (fun os _ => DeadUnused os) .fresh as ↔
      tlsCalls.recorded.Along SparesDead (.fresh, []) as := by
  apply Machine.throughout_iff_recorded (J := Flagged) (fun _ _ _ _ _ h hstep => h.step hstep) ?_
    ⟨TlsSocket.valid_fresh, fun hbroken => absurd hbroken not_since_nil⟩ neverSince_nil hrun
  intro os s a s' calls hflagged hunused hstep
  obtain ⟨o, hsocket, rfl⟩ := Machine.observe_step_iff.mp hstep
  have happend : (os ++ [sslCalls a o]).flatten = os.flatten ++ sslCalls a o := by simp
  rw [DeadUnused, happend]
  by_cases hreach : s.Reaches a
  · obtain ⟨⟨u, us, hcalls, hu⟩, herrs⟩ := TlsSocket.used_of_reaches hreach hsocket
    rw [hcalls] at herrs ⊢
    refine (neverSince_append_iff hu herrs).trans ((and_iff_right hunused).trans ?_)
    show ¬ Broken os ↔ SparesDead (s, os) a
    have hsame : s.fatal = false → (¬ Broken os ↔ ¬ HandshakeFailed os) := fun halive =>
      not_congr (hflagged.broken_iff halive)
    cases a with
    | connect oracle => exact hreach.elim
    | connected up => exact hreach.elim
    | write buf ws => exact ⟨fun h _ => h, fun h => h hreach⟩
    | close | available r | peekByte r | read len r =>
        exact (hsame (by simp [hreach.2])).trans ⟨fun h _ => h, fun h => h hreach⟩
  · rw [neverSince_append_of_unused (TlsSocket.unused_of_not_reaches hreach hsocket)]
    exact ⟨fun _ h => absurd h hreach, fun _ => hunused⟩

instance (os : List (List SslCall)) : Decidable (Broken os) :=
  inferInstanceAs (Decidable (Since _ _ _))

instance (os : List (List SslCall)) : Decidable (HandshakeFailed os) :=
  inferInstanceAs (Decidable (Since _ _ _))

instance (r : TlsSocket × List (List SslCall)) : DecidablePred (SparesDead r)
  | .write _ _ => inferInstanceAs (Decidable (r.1.Reaches _ → ¬ Broken r.2))
  | .connect _ | .available _ | .read _ _ | .peekByte _ | .connected _ | .close =>
      inferInstanceAs (Decidable (r.1.Reaches _ → ¬ HandshakeFailed r.2))

/-- A session that the peer ends, and that is then closed. -/
theorem deadUnused_endedByPeer :
    tlsCalls.Throughout (fun os _ => DeadUnused os) .fresh
      [.connect connectAtOnce, .write [1, 2] [(.accepted 2, false)], .read 1 (.stopped (-30848)),
        .available .wantRead, .close] :=
  (deadUnused_iff rfl).mpr (by decide +kernel)

/-- After an error of `mbedtls_ssl_read`, `write` calls `mbedtls_ssl_write` all the same. -/
theorem not_deadUnused :
    ¬ ∀ as : List TlsAction, tlsCalls.Throughout (fun os _ => DeadUnused os) .fresh as := by
  intro hall
  have hrun : tlsCalls.run .fresh [.connect connectAtOnce, .read 1 (.stopped (-1)),
      .write [7] [(.accepted 1, false)]] = some (_, _) := rfl
  exact hall _ _ List.prefix_rfl _ _ hrun
    [.connect, .handshake .done, .read (.stopped (-1))] (.write [7] (.accepted 1)) [] rfl trivial
    (by decide)

/-! ## Writes that are made again -/

namespace SslCall

def WantsAgain (p : List UInt8) (c : SslCall) : Prop := ∃ w, c = .write p w ∧ w.Wants

def Settles : SslCall → Prop
  | connect | write _ _ => True
  | _ => False

def WritesOther (p : List UInt8) (c : SslCall) : Prop := ∃ bytes w, c = .write bytes w ∧ bytes ≠ p

end SslCall

/-- Within a session, the write that follows one which is to be made again has the same bytes. -/
def WritesRepeat (os : List (List SslCall)) : Prop :=
  ∀ p, NeverSince (SslCall.WantsAgain p) SslCall.Settles (SslCall.WritesOther p) os.flatten

/-- The bytes of the last write of the session, if it is to be made again. -/
def pendingWrite (calls : List SslCall) : Option (List UInt8) :=
  calls.foldl (fun p c =>
    match c with
    | .connect => none
    | .write bytes w => if w.Wants then some bytes else none
    | _ => p) none

theorem pendingWrite_iff {calls : List SslCall} {p : List UInt8} :
    pendingWrite calls = some p ↔ Since (SslCall.WantsAgain p) SslCall.Settles calls := by
  induction calls using List.reverseRecOn with
  | nil => simp [pendingWrite, not_since_nil]
  | append_singleton calls c ih =>
      rw [since_snoc_iff, ← ih, pendingWrite, List.foldl_append, ← pendingWrite]
      cases c with
      | connect => simp [SslCall.WantsAgain, SslCall.Settles]
      | write bytes w =>
          by_cases hw : w.Wants
          · simp [SslCall.WantsAgain, SslCall.Settles, hw]
          · simp [SslCall.WantsAgain, SslCall.Settles, hw]
      | _ => simp [SslCall.WantsAgain, SslCall.Settles]

/-- What a `write` offers first is the bytes that are to be written again, if there are any. -/
def RepeatsPending (r : TlsSocket × List (List SslCall)) (a : TlsAction) : Prop :=
  match a with
  | .write buf _ => r.1.handshaked = true → buf ≠ [] → ∀ p ∈ pendingWrite r.2.flatten, buf = p
  | _ => True

theorem TlsSocket.no_write {s s' : TlsSocket} {a : TlsAction} {o : TlsEvent}
    (ha : ∀ buf ws, a ≠ .write buf ws) (hstep : s.step a = some (s', o)) (p : List UInt8) :
    ∀ c ∈ sslCalls a o, ¬ c.WritesOther p := by
  have hread : ∀ (r : SslRead) (c : SslCall), c ∈ [SslCall.read r] → ¬ c.WritesOther p := by
    rintro r c hc ⟨bytes, w, rfl, -⟩
    simp at hc
  intro c hc
  cases a with
  | write buf ws => exact absurd rfl (ha buf ws)
  | connect oracle =>
      rintro ⟨bytes, w, rfl, -⟩
      simp [sslCalls] at hc
  | available r =>
      rw [available_call hstep] at hc
      split at hc
      · exact hread r c hc
      · cases hc
  | read len r =>
      rw [read_call hstep] at hc
      split at hc
      · exact hread r c hc
      · cases hc
  | peekByte r =>
      rw [peekByte_call hstep] at hc
      split at hc
      · exact hread r c hc
      · cases hc
  | connected up =>
      cases hstep
      cases hc
  | close =>
      cases hstep
      rintro ⟨bytes, w, rfl, -⟩
      simp [sslCalls] at hc

theorem writesRepeat_snoc {calls : List SslCall} {bytes : List UInt8} {w : SslWrite}
    (h : ∀ p, NeverSince (SslCall.WantsAgain p) SslCall.Settles (SslCall.WritesOther p) calls)
    (hpending : ∀ p, Since (SslCall.WantsAgain p) SslCall.Settles calls → bytes = p) :
    (∀ p, NeverSince (SslCall.WantsAgain p) SslCall.Settles (SslCall.WritesOther p)
        (calls ++ [.write bytes w])) ∧
      ∀ p, Since (SslCall.WantsAgain p) SslCall.Settles (calls ++ [.write bytes w]) →
        w.Wants ∧ bytes = p := by
  constructor
  · intro p
    refine neverSince_snoc_iff.mpr ⟨h p, ?_⟩
    rintro ⟨bytes', w', heq, hother⟩ hsince
    cases heq
    exact hother (hpending p hsince)
  · intro p hsince
    rcases since_snoc_iff.mp hsince with ⟨w', heq, hw'⟩ | ⟨-, hsettles⟩
    · cases heq
      exact ⟨hw', rfl⟩
    · exact absurd trivial hsettles

theorem TlsSocket.WriteRun.repeats {buf : List UInt8} {ws : List (SslWrite × Bool)} {sent k : Nat}
    {dead : Bool} {calls : List (List UInt8 × SslWrite)}
    (hloop : TlsSocket.WriteRun buf sent ws k dead calls) {before : List SslCall}
    (h : ∀ p, NeverSince (SslCall.WantsAgain p) SslCall.Settles (SslCall.WritesOther p) before)
    (hpending : ∀ p, Since (SslCall.WantsAgain p) SslCall.Settles before → buf.drop sent = p) :
    ∀ p, NeverSince (SslCall.WantsAgain p) SslCall.Settles (SslCall.WritesOther p)
      (before ++ calls.map fun call => .write call.1 call.2) := by
  induction hloop generalizing before with
  | full => simpa using h
  | accepted sent n late ws k dead calls hsent hpos hn _ ih =>
      obtain ⟨hsnoc, hlast⟩ := writesRepeat_snoc (w := .accepted n) h hpending
      rw [List.map_cons, List.append_cons]
      exact ih hsnoc fun p hsince => ((hlast p hsince).1).elim
  | stopped sent code => exact (writesRepeat_snoc h hpending).1
  | deadline => exact (writesRepeat_snoc h hpending).1
  | retry sent w ws k dead calls hsent hw _ ih =>
      obtain ⟨hsnoc, hlast⟩ := writesRepeat_snoc (w := w) h hpending
      rw [List.map_cons, List.append_cons]
      exact ih hsnoc fun p hsince => (hlast p hsince).2

theorem writesRepeat_iff {s₀ s : TlsSocket} {as : List TlsAction} {os : List (List SslCall)}
    (hrun : tlsCalls.run s₀ as = some (s, os)) :
    tlsCalls.Throughout (fun os _ => WritesRepeat os) s₀ as ↔
      tlsCalls.recorded.Along RepeatsPending (s₀, []) as := by
  apply Machine.throughout_iff_recorded (J := fun _ _ => True) (fun _ _ _ _ _ _ _ => trivial) ?_
    trivial (fun _ => neverSince_nil) hrun
  intro os s a s' calls _ hrepeat hstep
  obtain ⟨o, hsocket, rfl⟩ := Machine.observe_step_iff.mp hstep
  have happend : (os ++ [sslCalls a o]).flatten = os.flatten ++ sslCalls a o := by simp
  rw [WritesRepeat, happend]
  by_cases hwrite : ∃ buf ws, a = .write buf ws
  · obtain ⟨buf, ws, rfl⟩ := hwrite
    simp only [RepeatsPending, Option.mem_def, pendingWrite_iff]
    rcases TlsSocket.write_call hsocket with ⟨hnot, hnone⟩ | ⟨hreach, k, dead, calls, hloop, hcalls⟩
    · rw [hnone, List.append_nil]
      exact ⟨fun _ hh hbuf => absurd ⟨hh, hbuf⟩ hnot, fun _ => hrepeat⟩
    · rw [hcalls]
      constructor
      · intro hafter _ _ p hsince
        obtain ⟨w, rest, rfl⟩ := hloop.offers (List.length_pos_iff.mpr hreach.2)
        by_contra hother
        exact hafter p os.flatten (.write buf w) _ rfl ⟨buf, w, rfl, hother⟩ hsince
      · intro hrule
        exact hloop.repeats hrepeat (hrule hreach.1 hreach.2)
  · have hallowed : RepeatsPending (s, os) a := by
      cases a with
      | write buf ws => exact absurd ⟨buf, ws, rfl⟩ hwrite
      | _ => trivial
    refine iff_of_true (fun p => ?_) hallowed
    rw [neverSince_append_of_unused
      (TlsSocket.no_write (fun buf ws ha => hwrite ⟨buf, ws, ha⟩) hsocket p)]
    exact hrepeat p

instance (r : TlsSocket × List (List SslCall)) : DecidablePred (RepeatsPending r)
  | .write buf _ => inferInstanceAs (Decidable (r.1.handshaked = true → buf ≠ [] →
      ∀ p ∈ pendingWrite r.2.flatten, buf = p))
  | .connect _ | .available _ | .read _ _ | .peekByte _ | .connected _ | .close => .isTrue trivial

/-- A write that gives up at its deadline and is made again with what is left of it. -/
theorem writesRepeat_remainder :
    tlsCalls.Throughout (fun os _ => WritesRepeat os) .fresh
      [.connect connectAtOnce, .write [1, 2, 3] [(.accepted 1, false), (.wantWrite, true)],
        .available .wantRead, .write [2, 3] [(.wantWrite, false), (.accepted 2, false)]] :=
  (writesRepeat_iff rfl).mpr (by decide +kernel)

/-- A write that gives up at its deadline, and then one of something else. -/
theorem not_writesRepeat :
    ¬ ∀ (s₀ : TlsSocket) (as : List TlsAction),
      tlsCalls.Throughout (fun os _ => WritesRepeat os) s₀ as := by
  intro hall
  have hrun : tlsCalls.run .fresh [.connect connectAtOnce, .write [1, 2] [(.wantWrite, true)],
      .write [3] [(.accepted 1, false)]] = some (_, _) := rfl
  exact hall _ _ _ List.prefix_rfl _ _ hrun [1, 2]
    [.connect, .handshake .done, .write [1, 2] .wantWrite] (.write [3] (.accepted 1)) [] rfl
    ⟨[3], _, rfl, by decide⟩ ⟨[.connect, .handshake .done], _, [], rfl, ⟨.wantWrite, rfl, trivial⟩,
      by simp⟩

end ZiModem.Hal.Net
