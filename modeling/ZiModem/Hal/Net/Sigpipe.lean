import ZiModem.Hal.Net.Bio

/-! # Writes and `SIGPIPE`

On POSIX a `send` without `MSG_NOSIGNAL` on a stream that the far end has reset
raises `SIGPIPE`, and the default action of that signal ends the process. The
HAL passes no flags, and nothing in it changes the action. A system may hold the
reset as the error of the next call on the socket; that call then fails with
`ECONNRESET` and without the signal, and the ones after it raise it. The machine
here has one step for every `send`, so that a reset may come between any two of
them.
-/

namespace ZiModem.Hal.Net

open Reactive

/-! ## `send` under POSIX -/

/-- `send` on an open handle, with the error that is pending on it before and after: `none` is
`SIGPIPE`. -/
def sendNative (peer : Peer) (pending noSignal : Bool) (w : Send) : Option (Int × Bool) :=
  if peer = .reset then
    -- the error that the reset has left comes first, and then `EPIPE`
    if pending ∨ noSignal then some (-1, false) else none
  else some (w.ret, pending)

/-- `TcpSocket::write`, which passes no flags. -/
def TcpSocket.writePosix (s : TcpSocket) (peer : Peer) (pending : Bool) (buf : List UInt8)
    (w : Send) : Option (Nat × Bool) :=
  if s.isOpen = false ∨ buf.length = 0 then some (0, pending)
  else (sendNative peer pending false w).map fun (n, left) => (s.write buf n, left)

/-! ## The calls -/

/-- `TcpSocket::write`, and what `WiFiClient` has on top of it. -/
inductive WriteCall
  | write (buf : List UInt8)
  | writeByte (b : UInt8)
  | print (s : Option (List UInt8))
  | println (s : Option (List UInt8))
  | printf (formatted : List UInt8)
  deriving DecidableEq, Repr

/-- The buffers a call hands to `TcpSocket::write`, one after another. -/
def WriteCall.writes : WriteCall → List (List UInt8)
  | .write buf => [buf]
  | .writeByte b => [[b]]
  | .print s => s.toList  -- a null pointer is not written
  | .println s => s.toList ++ [[13, 10]]
  | .printf formatted => if formatted = [] then [] else [formatted.take 255]

/-- Where the call on a connection stands. `flushed` says that mbedTLS has got bytes out since it
was last called. -/
inductive LinkCall
  | idle
  | writes (left : List (List UInt8)) (count : Nat)
  | sslWrite (buf : List UInt8) (sent : Nat) (flushed : Bool)
  | closeNotify
  deriving DecidableEq, Repr

/-- A connection: a `WiFiClient` uses the TCP socket alone. `pending` says that the system has yet
to report a reset. `resetAtCall` is no part of the program: it says whether the far end had reset
when the call began. -/
structure Link where
  sock : TlsSocket
  peer : Peer
  pending : Bool
  call : LinkCall
  resetAtCall : Bool
  deriving DecidableEq, Repr

/-- What may happen to a connection. A reset may leave an error pending, which a `recv` may be
`told` of. `send` is the next `send` of its call, `answer` the end of an `mbedtls_ssl_write`, with
"the deadline has passed", and `notified` that of an `mbedtls_ssl_close_notify`. -/
inductive LinkAction
  | peerClose
  | peerReset (pending : Bool)
  | told
  | write (c : WriteCall)
  | tlsWrite (buf : List UInt8)
  | tlsClose
  | send (bytes : List UInt8) (w : Send)
  | written
  | answer (r : SslWrite) (late : Bool)
  | notified
  deriving DecidableEq, Repr

inductive LinkEvent
  | runs
  | returned (ret : Nat)
  | killed
  deriving DecidableEq, Repr

namespace Link

def begin (l : Link) (call : LinkCall) : Link :=
  { l with call := call, resetAtCall := decide (l.peer = .reset) }

def finish (l : Link) (sock : TlsSocket) (ret : Nat) : Link × LinkEvent :=
  ({ l with sock := sock, call := .idle }, .returned ret)

/-- A `send` of the call in progress, after which it stands at `next`. -/
def sends (l : Link) (bytes : List UInt8) (w : Send) (next : Nat → LinkCall) : Link × LinkEvent :=
  match l.sock.tcp.writePosix l.peer l.pending bytes w with
  | none => (l, .killed)
  | some (n, left) => ({ l with call := next n, pending := left }, .runs)

/-- The answer to an `mbedtls_ssl_write`. It accepts bytes only if it got some out. -/
def answered (l : Link) (buf : List UInt8) (sent : Nat) (flushed : Bool) (late : Bool) :
    SslWrite → Option (Link × LinkEvent)
  | .accepted n =>
      if flushed = true ∧ 0 < n ∧ n ≤ buf.length - sent then
        if sent + n < buf.length then
          some ({ l with call := .sslWrite buf (sent + n) false }, .runs)
        else some (l.finish l.sock (sent + n))
      else none
  | .stopped _ => some (l.finish { l.sock with fatal := true } sent)
  | _ =>
      if late then some (l.finish l.sock sent)
      else some ({ l with call := .sslWrite buf sent false }, .runs)

def step (l : Link) : LinkAction → Option (Link × LinkEvent)
  | .peerClose => if l.peer = .up then some ({ l with peer := .closed }, .runs) else none
  | .peerReset pending =>
      if l.peer ≠ .reset then some ({ l with peer := .reset, pending := pending }, .runs) else none
  | .told => if l.pending then some ({ l with pending := false }, .runs) else none
  | .write c => if l.call = .idle then some (l.begin (.writes c.writes 0), .runs) else none
  | .tlsWrite buf =>
      if l.call ≠ .idle then none
      else if l.sock.handshaked = false ∨ buf.length = 0 then some ((l.begin .idle).finish l.sock 0)
      else some (l.begin (.sslWrite buf 0 false), .runs)
  | .tlsClose =>
      if l.call ≠ .idle then none
      else if l.sock.close.2 then some (l.begin .closeNotify, .runs)
      else some ((l.begin .idle).finish l.sock.close.1 0)
  | .send bytes w =>
      if w.Fits bytes.length then
        match l.call with
        | .idle => none
        | .writes [] _ => none
        | .writes (buf :: left) count =>
            if bytes = buf then some (l.sends bytes w fun n => .writes left (count + n)) else none
        | .sslWrite buf sent flushed =>
            some (l.sends bytes w fun n => .sslWrite buf sent (flushed || decide (0 < n)))
        | .closeNotify => some (l.sends bytes w fun _ => .closeNotify)
      else none
  | .written =>
      match l.call with
      | .writes [] count => some (l.finish l.sock count)
      | _ => none
  | .answer r late =>
      match l.call with
      | .sslWrite buf sent flushed => l.answered buf sent flushed late r
      | _ => none
  | .notified =>
      match l.call with
      | .closeNotify => some (l.finish l.sock.close.1 0)
      | _ => none

end Link

/-- The host process: its connections, and whether no signal has ended it. -/
structure HostProcess (ι : Type*) where
  links : ι → Link
  alive : Bool

/-- What a step shows; a call that returns shows its value, whether the far end had reset when it
began, and the fatal flag. -/
inductive HostEvent (ι : Type*)
  | runs
  | returned (i : ι) (ret : Nat) (resetAtCall fatal : Bool)
  | killed
  deriving DecidableEq, Repr

/-- Any interleaving of the calls on a family of connections with what their far ends do. -/
def writers (ι : Type*) [DecidableEq ι] :
    Machine (HostProcess ι) (ι × LinkAction) (HostEvent ι) where
  step s a :=
    if s.alive = false then none
    else
      match (s.links a.1).step a.2 with
      | none => none
      | some (l, .killed) => some (⟨Function.update s.links a.1 l, false⟩, .killed)
      | some (l, .runs) => some ({ s with links := Function.update s.links a.1 l }, .runs)
      | some (l, .returned ret) =>
          some ({ s with links := Function.update s.links a.1 l },
            .returned a.1 ret l.resetAtCall l.sock.fatal)

/-- A process with connections of any kind, and no call in progress. -/
def HostProcess.start {ι : Type*} (socks : ι → TlsSocket) (peers : ι → Peer × Bool) :
    HostProcess ι :=
  ⟨fun i => ⟨socks i, (peers i).1, (peers i).2, .idle, false⟩, true⟩

/-- Every call so far has returned or still runs, and those on a connection that was reset before
they began report 0 or find the socket fatal. -/
structure SurvivesWrites {ι : Type*} (os : List (HostEvent ι)) (s : HostProcess ι) : Prop where
  alive : s.alive = true
  reports : ∀ i ret fatal, .returned i ret true fatal ∈ os → ret = 0 ∨ fatal = true

/-- A `send` of the bytes finds no reset that the system has reported before. -/
def Link.Spares (l : Link) (bytes : List UInt8) : Prop :=
  l.peer = .reset → l.pending = true ∨ l.sock.tcp.isOpen = false ∨ bytes = []

/-- The side condition on one step: no call hands bytes to `send` on a handle whose far end has
reset, unless the system has yet to report that. -/
def MeetsNoReset {ι : Type*} (s : HostProcess ι) : ι × LinkAction → Prop
  | (i, .send bytes _) => (s.links i).Spares bytes
  | _ => True

def LinkCall.Empty : LinkCall → Prop
  | .writes _ count => count = 0
  | .sslWrite _ sent flushed => sent = 0 ∧ flushed = false
  | _ => True

/-! ## One step -/

theorem Link.writePosix_eq_none_iff {l : Link} {bytes : List UInt8} {w : Send} :
    l.sock.tcp.writePosix l.peer l.pending bytes w = none ↔ ¬ l.Spares bytes := by
  simp only [TcpSocket.writePosix, List.length_eq_zero_iff, Spares]
  by_cases hquiet : l.sock.tcp.isOpen = false ∨ bytes = []
  · simp [hquiet]
  · rw [if_neg hquiet]
    by_cases hreset : l.peer = .reset
    · cases hpending : l.pending <;> simp [sendNative, hreset, hquiet]
    · simp [sendNative, hreset]

theorem TcpSocket.writePosix_reset {s : TcpSocket} {pending left : Bool} {buf : List UInt8}
    {w : Send} {n : Nat} (h : s.writePosix .reset pending buf w = some (n, left)) : n = 0 := by
  simp only [writePosix] at h
  split at h
  · cases h
    rfl
  · cases pending with
    | false => simp [sendNative] at h
    | true =>
        obtain ⟨⟨ret, left'⟩, hsend, heq⟩ := Option.map_eq_some_iff.mp h
        cases hsend
        cases heq
        simp [write]

namespace Link

def Stalled (l : Link) : Prop := l.resetAtCall = true → l.peer = .reset ∧ l.call.Empty

/-- What a step comes to: it is no `send` that raises the signal, a stalled call stays stalled, and
if it returns it reports 0 or finds the socket fatal. -/
structure Quiet (l' : Link) (o : LinkEvent) : Prop where
  runs : o ≠ .killed
  stalled : l'.Stalled
  reports : ∀ ret, o = .returned ret → l'.resetAtCall = true → ret = 0 ∨ l'.sock.fatal = true

variable {l l' : Link} {o : LinkEvent}

theorem quiet_begin (call : LinkCall) (hcall : call.Empty) : (l.begin call).Quiet .runs :=
  ⟨by simp, fun hreset => ⟨of_decide_eq_true hreset, hcall⟩, by simp⟩

theorem quiet_finish {sock : TlsSocket} {ret : Nat}
    (hpeer : l.resetAtCall = true → l.peer = .reset)
    (hret : l.resetAtCall = true → ret = 0 ∨ sock.fatal = true) :
    (l.finish sock ret).1.Quiet (l.finish sock ret).2 := by
  refine ⟨by simp [finish], fun hreset => ⟨hpeer hreset, trivial⟩, ?_⟩
  intro ret' heq
  cases heq
  exact hret

theorem sends_killed_iff (bytes : List UInt8) (w : Send) (next : Nat → LinkCall) :
    (l.sends bytes w next).2 = .killed ↔
      ¬ l.Spares bytes := by
  rw [← writePosix_eq_none_iff (w := w), sends]
  cases l.sock.tcp.writePosix l.peer l.pending bytes w <;> simp

theorem sends_killed {bytes : List UInt8} {w : Send} {next : Nat → LinkCall}
    (h : (l.sends bytes w next).2 = .killed) : (l.sends bytes w next).1 = l := by
  cases hwrite : l.sock.tcp.writePosix l.peer l.pending bytes w with
  | none => simp [sends, hwrite]
  | some r => simp [sends, hwrite] at h

theorem quiet_sends {bytes : List UInt8} {w : Send} {next : Nat → LinkCall} (hl : l.Stalled)
    (hnext : l.call.Empty → (next 0).Empty)
    (hquiet : (l.sends bytes w next).2 ≠ .killed) :
    (l.sends bytes w next).1.Quiet (l.sends bytes w next).2 := by
  cases hwrite : l.sock.tcp.writePosix l.peer l.pending bytes w with
  | none => simp [sends, hwrite] at hquiet
  | some r =>
      obtain ⟨n, left⟩ := r
      simp only [sends, hwrite]
      refine ⟨by simp, fun hreset => ?_, by simp⟩
      obtain ⟨hpeer, hempty⟩ := hl hreset
      rw [hpeer] at hwrite
      rw [TcpSocket.writePosix_reset hwrite]
      exact ⟨hpeer, hnext hempty⟩

theorem quiet_answered {buf : List UInt8} {sent : Nat} {flushed late : Bool} {r : SslWrite}
    (hl : l.Stalled) (hcall : l.call = .sslWrite buf sent flushed)
    (h : l.answered buf sent flushed late r = some (l', o)) : l'.Quiet o := by
  have hsent : l.resetAtCall = true → sent = 0 ∧ flushed = false := by
    intro hreset
    have hempty := (hl hreset).2
    rw [hcall] at hempty
    exact hempty
  have hpeer : l.resetAtCall = true → l.peer = .reset := fun hreset => (hl hreset).1
  cases r with
  | accepted n =>
      simp only [answered] at h
      split at h
      next hgot =>
        have hnot : ¬ l.resetAtCall = true := by
          intro hreset
          rw [(hsent hreset).2] at hgot
          exact absurd hgot.1 (by decide)
        split at h
        · cases h
          exact ⟨by simp, fun hreset => absurd hreset hnot, by simp⟩
        · cases h
          exact quiet_finish hpeer fun hreset => absurd hreset hnot
      next => cases h
  | stopped code =>
      cases h
      exact quiet_finish hpeer fun _ => .inr rfl
  | wantRead | wantWrite =>
      simp only [answered] at h
      split at h
      · cases h
        exact quiet_finish hpeer fun hreset => .inl (hsent hreset).1
      · cases h
        exact ⟨by simp, fun hreset => ⟨hpeer hreset, (hsent hreset).1, rfl⟩, by simp⟩

/-- One poll of `write` is one step of its loop, whatever `bio_send` did in it: either the call
returns what the loop returns, or the loop goes on where the call stands. -/
theorem answered_refines {buf : List UInt8} {sent : Nat} {flushed late : Bool} {r : SslWrite}
    (hroom : sent < buf.length) (h : l.answered buf sent flushed late r = some (l', o)) :
    (∃ ret dead, o = .returned ret ∧ l'.sock.fatal = (l.sock.fatal || dead) ∧
      ∀ rest, TlsSocket.writeLoop buf sent ((r, late) :: rest) =
        some (ret, dead, [(buf.drop sent, r)])) ∨
    (∃ sent', l'.call = .sslWrite buf sent' false ∧ sent' < buf.length ∧
      ∀ rest, TlsSocket.writeLoop buf sent ((r, late) :: rest) =
        (TlsSocket.writeLoop buf sent' rest).map fun (k, dead, calls) =>
          (k, dead, (buf.drop sent, r) :: calls)) := by
  simp only [TlsSocket.writeLoop, if_pos hroom]
  cases r with
  | accepted n =>
      simp only [answered] at h
      split at h
      next hgot =>
        split at h
        next hmore =>
          cases h
          exact .inr ⟨_, rfl, hmore, fun rest => if_pos hgot.2⟩
        next hfull =>
          cases h
          refine .inl ⟨_, false, rfl, by simp, fun rest => ?_⟩
          simp only [if_pos hgot.2]
          cases rest <;> simp [TlsSocket.writeLoop, hfull]
      next => cases h
  | stopped code =>
      cases h
      exact .inl ⟨_, true, rfl, by simp, fun _ => rfl⟩
  | wantRead | wantWrite =>
      simp only [answered] at h
      split at h
      next hlate =>
        cases h
        exact .inl ⟨_, false, rfl, by simp, fun _ => if_pos hlate⟩
      next hearly =>
        cases h
        exact .inr ⟨_, rfl, hroom, fun _ => if_neg hearly⟩

/-- The signal comes from a `send` on a handle whose far end has reset; every other step is
quiet. -/
structure Outcome (l : Link) (a : LinkAction) (l' : Link) (o : LinkEvent) : Prop where
  killed_iff : o = .killed ↔ ∃ bytes w, a = .send bytes w ∧ ¬ l.Spares bytes
  stops : o = .killed → l' = l
  quiet : o ≠ .killed → l'.Quiet o

theorem Quiet.outcome {a : LinkAction} (h : l'.Quiet o) (hne : ∀ bytes w, a ≠ .send bytes w) :
    l.Outcome a l' o := by
  refine ⟨iff_of_false h.runs ?_, fun hkilled => absurd hkilled h.runs, fun _ => h⟩
  rintro ⟨bytes, w, rfl, -⟩
  exact hne bytes w rfl

theorem sends_outcome {bytes : List UInt8} {w : Send} {next : Nat → LinkCall} (hl : l.Stalled)
    (hnext : l.call.Empty → (next 0).Empty) :
    l.Outcome (.send bytes w) (l.sends bytes w next).1 (l.sends bytes w next).2 := by
  refine ⟨(sends_killed_iff bytes w next).trans ⟨fun hnot => ⟨bytes, w, rfl, hnot⟩, ?_⟩,
    sends_killed, quiet_sends hl hnext⟩
  rintro ⟨_, _, heq, hnot⟩
  cases heq
  exact hnot

theorem step_send_outcome {bytes : List UInt8} {w : Send} (hl : l.Stalled)
    (h : l.step (.send bytes w) = some (l', o)) : l.Outcome (.send bytes w) l' o := by
  have hsends : ∀ next : Nat → LinkCall, (l.call.Empty → (next 0).Empty) →
      l.sends bytes w next = (l', o) → l.Outcome (.send bytes w) l' o := by
    intro next hnext heq
    have hout : l.Outcome (.send bytes w) (l.sends bytes w next).1 (l.sends bytes w next).2 :=
      sends_outcome hl hnext
    rw [heq] at hout
    exact hout
  simp only [step] at h
  split at h
  next =>
    split at h
    next => cases h
    next => cases h
    next buf left count hcall =>
      split at h
      next =>
        apply hsends _ ?_ (Option.some.inj h)
        rw [hcall]
        exact fun hzero => hzero
      next => cases h
    next buf sent flushed hcall =>
      apply hsends _ ?_ (Option.some.inj h)
      rw [hcall]
      rintro ⟨hsent, hflushed⟩
      exact ⟨hsent, by simp [hflushed]⟩
    next => exact hsends (fun _ => .closeNotify) (fun _ => trivial) (Option.some.inj h)
  next => cases h

theorem step_outcome {a : LinkAction} (hl : l.Stalled) (h : l.step a = some (l', o)) :
    l.Outcome a l' o := by
  have hpeer : l.resetAtCall = true → l.peer = .reset := fun hreset => (hl hreset).1
  cases a with
  | send bytes w => exact step_send_outcome hl h
  | peerClose =>
      simp only [step] at h
      split at h <;> cases h
      next hup =>
        refine Quiet.outcome ⟨by simp, fun hreset => ?_, by simp⟩ (by simp)
        exact absurd ((hpeer hreset).symm.trans hup) (by decide)
  | peerReset pending =>
      simp only [step] at h
      split at h <;> cases h
      have hquiet : Quiet { l with peer := .reset, pending := pending } .runs :=
        ⟨by simp, fun hreset => ⟨rfl, (hl hreset).2⟩, by simp⟩
      exact hquiet.outcome (by simp)
  | told =>
      simp only [step] at h
      split at h <;> cases h
      have hquiet : Quiet { l with pending := false } .runs := ⟨by simp, hl, by simp⟩
      exact hquiet.outcome (by simp)
  | write c =>
      simp only [step] at h
      split at h <;> cases h
      exact (quiet_begin (.writes c.writes 0) rfl).outcome (by simp)
  | tlsWrite buf =>
      simp only [step] at h
      split at h
      next => cases h
      split at h <;> cases h
      · exact (quiet_finish of_decide_eq_true fun _ => .inl rfl).outcome (by simp)
      · exact (quiet_begin (.sslWrite buf 0 false) ⟨rfl, rfl⟩).outcome (by simp)
  | tlsClose =>
      simp only [step] at h
      split at h
      next => cases h
      split at h <;> cases h
      · exact (quiet_begin .closeNotify trivial).outcome (by simp)
      · exact (quiet_finish of_decide_eq_true fun _ => .inl rfl).outcome (by simp)
  | written =>
      simp only [step] at h
      split at h <;> cases h
      next count hcall =>
        refine (quiet_finish hpeer fun hreset => .inl ?_).outcome (by simp)
        have hempty := (hl hreset).2
        rw [hcall] at hempty
        exact hempty
  | answer r late =>
      simp only [step] at h
      split at h
      next buf sent flushed hcall => exact (quiet_answered hl hcall h).outcome (by simp)
      next => cases h
  | notified =>
      simp only [step] at h
      split at h <;> cases h
      exact (quiet_finish hpeer fun _ => .inl rfl).outcome (by simp)

end Link

/-! ## Whole runs -/

section Runs

variable {ι : Type*} [DecidableEq ι] {s s' : HostProcess ι} {a : ι × LinkAction}
  {o : HostEvent ι} {os : List (HostEvent ι)}

theorem writers_step (h : (writers ι).step s a = some (s', o)) :
    s.alive = true ∧ ∃ l e, (s.links a.1).step a.2 = some (l, e) ∧
      s'.links = Function.update s.links a.1 l ∧ (s'.alive = false ↔ e = .killed) ∧
      (∀ i ret reset fatal, o = .returned i ret reset fatal ↔
        e = .returned ret ∧ i = a.1 ∧ reset = l.resetAtCall ∧ fatal = l.sock.fatal) := by
  simp only [writers] at h
  split at h
  next => cases h
  next halive =>
    have halive' : s.alive = true := by simpa using halive
    refine ⟨halive', ?_⟩
    cases hlink : (s.links a.1).step a.2 with
    | none => simp [hlink] at h
    | some out =>
        obtain ⟨l, e⟩ := out
        cases e with
        | runs =>
            simp only [hlink] at h
            cases h
            exact ⟨l, .runs, rfl, rfl, by simp [halive'], by simp⟩
        | killed =>
            simp only [hlink] at h
            cases h
            exact ⟨l, .killed, rfl, rfl, by simp, by simp⟩
        | returned ret =>
            simp only [hlink] at h
            cases h
            refine ⟨l, .returned ret, rfl, rfl, by simp [halive'], ?_⟩
            intro i ret' reset fatal
            simp only [HostEvent.returned.injEq, LinkEvent.returned.injEq]
            exact ⟨fun ⟨h₁, h₂, h₃, h₄⟩ => ⟨h₂, h₁.symm, h₃.symm, h₄.symm⟩,
              fun ⟨h₁, h₂, h₃, h₄⟩ => ⟨h₂.symm, h₁, h₃.symm, h₄.symm⟩⟩

theorem stalled_step (hlinks : ∀ i, (s.links i).Stalled)
    (h : (writers ι).step s a = some (s', o)) (i : ι) : (s'.links i).Stalled := by
  obtain ⟨-, l, e, hlink, hlinks', -⟩ := writers_step h
  have hout := Link.step_outcome (hlinks a.1) hlink
  rw [hlinks']
  by_cases hi : i = a.1
  · rw [hi, Function.update_self]
    by_cases hkilled : e = .killed
    · rw [hout.stops hkilled]
      exact hlinks a.1
    · exact (hout.quiet hkilled).stalled
  · rw [Function.update_of_ne hi]
    exact hlinks i

/-- A step kills the process exactly when it breaks the side condition. -/
theorem step_alive_iff (hlinks : ∀ i, (s.links i).Stalled)
    (h : (writers ι).step s a = some (s', o)) : s'.alive = true ↔ MeetsNoReset s a := by
  obtain ⟨-, l, e, hlink, -, halive, -⟩ := writers_step h
  rw [← Bool.not_eq_false, halive, (Link.step_outcome (hlinks a.1) hlink).killed_iff]
  obtain ⟨i, b⟩ := a
  cases b with
  | send bytes w =>
      simp only [MeetsNoReset, LinkAction.send.injEq]
      constructor
      · intro hnone
        by_contra hnot
        exact hnone ⟨bytes, w, ⟨rfl, rfl⟩, hnot⟩
      · rintro hok ⟨_, _, ⟨rfl, rfl⟩, hnot⟩
        exact hnot hok
  | _ => simp [MeetsNoReset]

theorem survivesWrites_snoc_iff (hlinks : ∀ i, (s.links i).Stalled) (hos : SurvivesWrites os s)
    (h : (writers ι).step s a = some (s', o)) :
    SurvivesWrites (os ++ [o]) s' ↔ MeetsNoReset s a := by
  rw [← step_alive_iff hlinks h]
  constructor
  · exact fun hsurvives => hsurvives.alive
  · intro hup
    obtain ⟨-, l, e, hlink, -, halive, hreturned⟩ := writers_step h
    have hrunning : e ≠ .killed := fun heq => by
      rw [halive.mpr heq] at hup
      cases hup
    have hquiet := (Link.step_outcome (hlinks a.1) hlink).quiet hrunning
    refine ⟨hup, fun i ret fatal hmem => ?_⟩
    rcases List.mem_append.mp hmem with hmem | hmem
    · exact hos.reports i ret fatal hmem
    · have heq := (List.mem_singleton.mp hmem).symm
      obtain ⟨hret, -, hreset, rfl⟩ := (hreturned i ret true fatal).mp heq
      exact hquiet.reports ret hret hreset.symm

end Runs

end ZiModem.Hal.Net
