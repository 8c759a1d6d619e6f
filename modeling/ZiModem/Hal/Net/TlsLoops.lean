import ZiModem.Hal.Net.TlsSession
import ZiModem.Reactive.Polling

/-! # The polling loops of a TLS socket

The loop of `write` and the handshake loop of `connect`, fed with whatever
mbedTLS answers and whatever the clock shows. They look at the clock only after
a retry, so what ends them is that bytes run out, or time does. Times are
nanoseconds of the steady clock.
-/

namespace ZiModem.Hal.Net

open Reactive

def writeBudget : Nat := 10000000000

def handshakeBudget : Nat := 15000000000

def SslWrite.took : SslWrite → Nat
  | .accepted n => n
  | _ => 0

def SslHandshake.Wants : SslHandshake → Prop
  | .wantRead | .wantWrite => True
  | _ => False

instance : DecidablePred SslHandshake.Wants
  | .wantRead => .isTrue trivial
  | .wantWrite => .isTrue trivial
  | .done => .isFalse id
  | .failed _ => .isFalse id

def acceptedBefore (p : Polls SslWrite) : Nat → Nat
  | 0 => 0
  | i + 1 => acceptedBefore p i + (p.answer i).took

/-- mbedTLS accepts at least one byte, and no more than are left of `len`. -/
def AcceptsWithin (p : Polls SslWrite) (len : Nat) : Prop :=
  ∀ i n, p.answer i = .accepted n → acceptedBefore p i < len →
    0 < n ∧ n ≤ len - acceptedBefore p i

/-- What a call of `write` that returned `sent` has done: the bytes accepted are the first `sent`
of the buffer, in order; `calls` are the first polls; and if it fell short, its last call stopped
it or asked for a retry after the deadline. -/
structure WriteAccount (buf : List UInt8) (p : Polls SslWrite) (deadline sent : Nat)
    (calls : List (List UInt8 × SslWrite)) : Prop where
  sent_le : sent ≤ buf.length
  accepted_eq : (calls.flatMap fun call => call.1.take call.2.took) = buf.take sent
  polled : ∀ j call, calls[j]? = some call → call.2 = p.answer j
  short : sent < buf.length → ∃ bytes w, calls.getLast? = some (bytes, w) ∧
    ((∃ code, w = .stopped code) ∨ w.Wants ∧ deadline < p.now (calls.length - 1))

structure HandshakeAccount (p : Polls SslHandshake) (deadline m : Nat) (ok : Bool) : Prop where
  waited : ∀ j < m, (p.answer j).Wants ∧ p.now j ≤ deadline
  ok_iff : ok = true ↔ p.answer m = .done
  failed : ok = false → (∃ code, p.answer m = .failed code) ∨
    (p.answer m).Wants ∧ deadline < p.now m

namespace TlsSocket

/-! ## Termination -/

section Termination

variable {start pause budget : Nat}

/-- The loop of `write` ends: each poll uses up a byte of the buffer or a wait of the budget. -/
theorem writeLoop_terminates {p : Polls SslWrite} {buf : List UInt8} (hpause : 0 < pause)
    (hpaced : p.Paced SslWrite.Wants start pause) (haccepts : AcceptsWithin p buf.length)
    {i n : Nat} (hin : acceptedBefore p i ≤ buf.length)
    (hfuel : buf.length - acceptedBefore p i + (budget / pause + 1 - p.waited SslWrite.Wants i)
      < n) :
    ∃ out, writeLoop buf (acceptedBefore p i) (p.answers (start + budget) i n) = some out := by
  induction n generalizing i with
  | zero => exact absurd hfuel (Nat.not_lt_zero _)
  | succ n ih =>
      by_cases hsent : acceptedBefore p i < buf.length
      · have hwaited := Polls.waited_succ p SslWrite.Wants i
        have hbefore : acceptedBefore p (i + 1) = acceptedBefore p i + (p.answer i).took := rfl
        simp only [Polls.answers, writeLoop, if_pos hsent]
        cases hanswer : p.answer i with
        | stopped code => exact ⟨_, rfl⟩
        | accepted k =>
            have hk := haccepts i k hanswer hsent
            simp only [hanswer, SslWrite.Wants, if_false] at hwaited
            simp only [hanswer, SslWrite.took] at hbefore
            obtain ⟨out, hout⟩ := ih (i := i + 1) (by omega) (by omega)
            rw [hbefore] at hout
            simp only [if_pos hk, hout]
            exact ⟨_, rfl⟩
        | wantRead | wantWrite =>
            by_cases hlate : start + budget < p.now i
            · simp only [hlate, decide_true, if_true]
              exact ⟨_, rfl⟩
            · have hfew : p.waited SslWrite.Wants i ≤ budget / pause :=
                hpaced.waited_le hpause (Nat.not_lt.mp hlate)
              simp only [hanswer, SslWrite.Wants, if_true] at hwaited
              simp only [hanswer, SslWrite.took, Nat.add_zero] at hbefore
              obtain ⟨out, hout⟩ := ih (i := i + 1) (by omega) (by omega)
              rw [hbefore] at hout
              simp only [hlate, decide_false, Bool.false_eq_true, if_false, hout]
              exact ⟨_, rfl⟩
      · simp only [Polls.answers, writeLoop, if_neg hsent]
        exact ⟨_, rfl⟩

/-- The handshake loop ends: each poll that does not end it uses up a wait of the budget. -/
theorem handshakeLoop_ends {p : Polls SslHandshake} (hpause : 0 < pause)
    (hpaced : p.Paced SslHandshake.Wants start pause) {i n : Nat}
    (hbefore : ∀ j < i, (p.answer j).Wants ∧ p.now j ≤ start + budget)
    (hfuel : budget / pause + 1 - p.waited SslHandshake.Wants i < n) :
    ∃ m ok, handshakeLoop (p.answers (start + budget) i n) = some ok ∧
      HandshakeAccount p (start + budget) m ok := by
  induction n generalizing i with
  | zero => exact absurd hfuel (Nat.not_lt_zero _)
  | succ n ih =>
      simp only [Polls.answers]
      cases hanswer : p.answer i with
      | done => exact ⟨i, true, rfl, hbefore, by simp [hanswer], by simp⟩
      | failed code =>
          exact ⟨i, false, rfl, hbefore, by simp [hanswer], fun _ => .inl ⟨code, hanswer⟩⟩
      | wantRead | wantWrite =>
          have hwants : (p.answer i).Wants := by
            rw [hanswer]
            trivial
          by_cases hlate : start + budget < p.now i
          · simp only [handshakeLoop, hlate, decide_true, if_true]
            exact ⟨i, false, rfl, hbefore, by simp [hanswer], fun _ => .inr ⟨hwants, hlate⟩⟩
          · have hintime := Nat.not_lt.mp hlate
            have hfew := hpaced.waited_le hpause hintime
            have hwaited := Polls.waited_succ p SslHandshake.Wants i
            rw [if_pos hwants] at hwaited
            simp only [handshakeLoop, hlate, decide_false, Bool.false_eq_true, if_false]
            apply ih ?_ (by omega)
            intro j hj
            rcases Nat.lt_succ_iff_lt_or_eq.mp hj with hj | rfl
            · exact hbefore j hj
            · exact ⟨hwants, hintime⟩

end Termination

/-! ## Accounting -/

section Accounting

variable {buf : List UInt8} {ws : List (SslWrite × Bool)} {sent k : Nat} {dead : Bool}
  {calls : List (List UInt8 × SslWrite)}

theorem WriteRun.accepted_eq (h : WriteRun buf sent ws k dead calls) (hsent : sent ≤ buf.length) :
    sent ≤ k ∧ k ≤ buf.length ∧
      (calls.flatMap fun call => call.1.take call.2.took) = (buf.drop sent).take (k - sent) := by
  induction h with
  | full => simp [hsent]
  | accepted sent n late ws k dead calls hroom hpos hfits _ ih =>
      obtain ⟨hle, hin, htaken⟩ := ih (by omega)
      refine ⟨by omega, hin, ?_⟩
      have hsplit : k - sent = n + (k - (sent + n)) := by omega
      rw [List.flatMap_cons, htaken, hsplit, List.take_add, List.drop_drop]
      rfl
  | stopped => simp [hsent, SslWrite.took]
  | deadline sent w ws hroom hwants =>
      cases w <;> first | exact hwants.elim | simp [hsent, SslWrite.took]
  | retry sent w ws k dead calls hroom hwants _ ih =>
      obtain ⟨hle, hin, htaken⟩ := ih hsent
      refine ⟨hle, hin, ?_⟩
      rw [List.flatMap_cons, htaken]
      cases w <;> first | exact hwants.elim | rfl

theorem WriteRun.polled (h : WriteRun buf sent ws k dead calls) {j : Nat}
    {call : List UInt8 × SslWrite} (hcall : calls[j]? = some call) :
    ∃ late, ws[j]? = some (call.2, late) := by
  induction h generalizing j with
  | full => simp at hcall
  | accepted _ _ late _ _ _ _ _ _ _ _ ih =>
      cases j with
      | zero => cases hcall; exact ⟨late, rfl⟩
      | succ j => exact ih hcall
  | stopped _ _ late =>
      cases j with
      | zero => cases hcall; exact ⟨late, rfl⟩
      | succ j => simp at hcall
  | deadline =>
      cases j with
      | zero => cases hcall; exact ⟨true, rfl⟩
      | succ j => simp at hcall
  | retry _ _ _ _ _ _ _ _ _ ih =>
      cases j with
      | zero => cases hcall; exact ⟨false, rfl⟩
      | succ j => exact ih hcall

/-- What ends the loop before the buffer is sent is its last call: mbedTLS stopped it, or asked for
a retry too late. -/
theorem WriteRun.last (h : WriteRun buf sent ws k dead calls)
    (hend : dead = true ∨ k < buf.length) :
    ∃ bytes w, calls.getLast? = some (bytes, w) ∧ (dead = true ↔ ∃ code, w = .stopped code) ∧
      ((∃ code, w = .stopped code) ∨ w.Wants ∧ ws[calls.length - 1]? = some (w, true)) := by
  have hcons : ∀ (call : List UInt8 × SslWrite) (calls : List (List UInt8 × SslWrite))
      (w : SslWrite) (bytes : List UInt8), calls.getLast? = some (bytes, w) →
      (call :: calls).getLast? = some (bytes, w) ∧
        (call :: calls).length - 1 = calls.length - 1 + 1 := by
    intro call calls w bytes hlast
    have hpos : 0 < calls.length := by
      rw [List.length_pos_iff]
      rintro rfl
      cases hlast
    rw [List.getLast?_cons, hlast, List.length_cons]
    exact ⟨rfl, by omega⟩
  induction h with
  | full sent ws hfull =>
      simp only [Bool.false_eq_true, false_or] at hend
      omega
  | accepted _ _ _ _ _ _ calls _ _ _ _ ih =>
      obtain ⟨bytes, w, hlast, hdead, hends⟩ := ih hend
      obtain ⟨hlast', hindex⟩ := hcons _ calls w bytes hlast
      refine ⟨bytes, w, hlast', hdead, ?_⟩
      rw [hindex, List.getElem?_cons_succ]
      exact hends
  | stopped sent code => exact ⟨_, _, rfl, by simp, .inl ⟨code, rfl⟩⟩
  | deadline sent w ws _ hwants =>
      refine ⟨_, _, rfl, ?_, .inr ⟨hwants, rfl⟩⟩
      cases w <;> first | exact hwants.elim | simp
  | retry _ _ _ _ _ calls _ _ _ ih =>
      obtain ⟨bytes, w, hlast, hdead, hends⟩ := ih hend
      obtain ⟨hlast', hindex⟩ := hcons _ calls w bytes hlast
      refine ⟨bytes, w, hlast', hdead, ?_⟩
      rw [hindex, List.getElem?_cons_succ]
      exact hends

end Accounting

theorem write_account {s s' : TlsSocket} {buf : List UInt8} {p : Polls SslWrite} {deadline n : Nat}
    {sent : Nat} {calls : List (List UInt8 × SslWrite)} (hh : s.handshaked = true)
    (h : s.write buf (p.answers deadline 0 n) = some (s', sent, calls)) :
    WriteAccount buf p deadline sent calls ∧
      (s'.fatal = true ↔ s.fatal = true ∨ ∃ bytes code,
        calls.getLast? = some (bytes, .stopped code)) := by
  by_cases hlen : buf.length = 0
  · simp only [write, hlen, or_true, if_true, Option.some.injEq, Prod.mk.injEq] at h
    obtain ⟨rfl, rfl, rfl⟩ := h
    refine ⟨⟨Nat.zero_le _, by simp, by simp, fun hshort => ?_⟩, by simp⟩
    omega
  · simp only [write, hh, hlen, Bool.true_eq_false, or_self, if_false] at h
    cases hloop : writeLoop buf 0 (p.answers deadline 0 n) with
    | none => simp [hloop] at h
    | some out =>
        obtain ⟨k, dead, calls'⟩ := out
        simp only [hloop, Option.some.injEq, Prod.mk.injEq] at h
        obtain ⟨rfl, rfl, rfl⟩ := h
        have hrun := writeLoop_run hloop
        obtain ⟨-, hin, htaken⟩ := hrun.accepted_eq (Nat.zero_le _)
        refine ⟨⟨hin, by simpa using htaken, ?_, ?_⟩, ?_⟩
        · intro j call hcall
          obtain ⟨late, hpolled⟩ := hrun.polled hcall
          rw [(Polls.answers_eq_of_getElem? hpolled).1, Nat.zero_add]
        · intro hshort
          obtain ⟨bytes, w, hlast, -, hends⟩ := hrun.last (.inr hshort)
          refine ⟨bytes, w, hlast, hends.imp_right fun hwants => ⟨hwants.1, ?_⟩⟩
          have hlate := (Polls.answers_eq_of_getElem? hwants.2).2
          rw [Nat.zero_add] at hlate
          exact of_decide_eq_true hlate.symm
        · rw [Bool.or_eq_true]
          apply or_congr_right
          constructor
          · intro hdead
            obtain ⟨bytes, w, hlast, hstop, -⟩ := hrun.last (.inl hdead)
            obtain ⟨code, rfl⟩ := hstop.mp hdead
            exact ⟨bytes, code, hlast⟩
          · rintro ⟨bytes, code, hlast⟩
            exact hrun.dead_iff.mpr ⟨bytes, code, List.mem_of_getLast? hlast⟩

end TlsSocket

/-- Both loops end whatever mbedTLS answers, on any clock that moves on by some `pause` while they
sleep. A `write` accounts for every byte accepted, and a handshake for its result. -/
theorem polling_loops_exact {pause : Nat} (hpause : 0 < pause) (s : TlsSocket) (start : Nat) :
    (∀ (buf : List UInt8) (p : Polls SslWrite), p.Paced SslWrite.Wants start pause →
      AcceptsWithin p buf.length → ∃ s' sent calls,
        s.write buf (p.answers (start + writeBudget) 0 (buf.length + (writeBudget / pause + 2))) =
          some (s', sent, calls) ∧
        (s.handshaked = false ∧ s' = s ∧ sent = 0 ∧ calls = [] ∨
          WriteAccount buf p (start + writeBudget) sent calls ∧
          (s'.fatal = true ↔ s.fatal = true ∨ ∃ bytes code,
            calls.getLast? = some (bytes, .stopped code)))) ∧
    ∀ (native : Nat) (p : Polls SslHandshake), p.Paced SslHandshake.Wants start pause →
      ∃ s' m ok,
        s.connect ⟨some native, true, true, true,
          p.answers (start + handshakeBudget) 0 (handshakeBudget / pause + 2)⟩ = some (s', ok) ∧
        HandshakeAccount p (start + handshakeBudget) m ok ∧
        s' = if ok then { s with tcp := .opened native, handshaked := true }
          else { s with tcp := .closed } := by
  constructor
  · intro buf p hpaced haccepts
    have hfuel : buf.length - acceptedBefore p 0 +
        (writeBudget / pause + 1 - p.waited SslWrite.Wants 0) <
          buf.length + (writeBudget / pause + 2) := by
      generalize writeBudget / pause = waits
      omega
    obtain ⟨out, hloop⟩ := TlsSocket.writeLoop_terminates hpause hpaced haccepts (Nat.zero_le _)
      hfuel
    by_cases hh : s.handshaked = true
    · have hwrite : ∃ s' sent calls, s.write buf (p.answers (start + writeBudget) 0
          (buf.length + (writeBudget / pause + 2))) = some (s', sent, calls) := by
        unfold TlsSocket.write
        split
        · exact ⟨_, _, _, rfl⟩
        · rw [show TlsSocket.writeLoop buf 0 _ = _ from hloop]
          exact ⟨_, _, _, rfl⟩
      obtain ⟨s', sent, calls, hwrite⟩ := hwrite
      exact ⟨s', sent, calls, hwrite, .inr (TlsSocket.write_account hh hwrite)⟩
    · have hidle : s.handshaked = false := by simpa using hh
      exact ⟨s, 0, [], by simp [TlsSocket.write, hidle], .inl ⟨hidle, rfl, rfl, rfl⟩⟩
  · intro native p hpaced
    have hfuel : handshakeBudget / pause + 1 - p.waited SslHandshake.Wants 0 <
        handshakeBudget / pause + 2 := by
      generalize handshakeBudget / pause = waits
      omega
    obtain ⟨m, ok, hloop, haccount⟩ := TlsSocket.handshakeLoop_ends hpause hpaced
      (fun j hj => absurd hj (Nat.not_lt_zero j)) hfuel
    simp only [TlsSocket.connect, TcpSocket.connect, Bool.true_eq_false, if_false, hloop]
    cases ok with
    | true => exact ⟨_, m, true, rfl, haccount, rfl⟩
    | false => exact ⟨_, m, false, rfl, haccount, rfl⟩

/-- A retry, then a byte at a time, on a clock that moves on by a millisecond a poll. -/
def retryThenBytes : Polls SslWrite :=
  ⟨fun i => if i = 0 then .wantWrite else .accepted 1, fun i => i * 1000000⟩

def threeRounds : Polls SslHandshake :=
  ⟨fun i => if i < 3 then .wantRead else .done, fun i => i * 1000000⟩

theorem polling_loops_exact_example :
    (∃ s' sent calls,
        TlsSocket.write ⟨.opened 5, [], 0, true, false⟩ [1, 2]
          (retryThenBytes.answers (0 + writeBudget) 0 (2 + (writeBudget / 1000000 + 2))) =
            some (s', sent, calls) ∧
        (true = false ∧ s' = ⟨.opened 5, [], 0, true, false⟩ ∧ sent = 0 ∧ calls = [] ∨
          WriteAccount [1, 2] retryThenBytes (0 + writeBudget) sent calls ∧
          (s'.fatal = true ↔ false = true ∨ ∃ bytes code,
            calls.getLast? = some (bytes, .stopped code)))) ∧
    ∃ s' m ok,
      TlsSocket.connect ⟨.opened 5, [], 0, true, false⟩ ⟨some 7, true, true, true,
        threeRounds.answers (0 + handshakeBudget) 0 (handshakeBudget / 1000000 + 2)⟩ =
          some (s', ok) ∧
      HandshakeAccount threeRounds (0 + handshakeBudget) m ok ∧
      s' = if ok then ⟨.opened 7, [], 0, true, false⟩ else ⟨.closed, [], 0, true, false⟩ := by
  have hloops := polling_loops_exact (show 0 < 1000000 by decide)
    ⟨.opened 5, [], 0, true, false⟩ 0
  constructor
  · apply hloops.1 [1, 2] retryThenBytes
    · exact ⟨Nat.zero_le _, fun i => by simp only [retryThenBytes]; omega,
        fun i _ => by simp only [retryThenBytes]; omega⟩
    · intro i n hanswer hroom
      simp only [retryThenBytes] at hanswer
      split at hanswer
      · cases hanswer
      · cases hanswer
        exact ⟨Nat.one_pos, by omega⟩
  · apply hloops.2 7 threeRounds
    exact ⟨Nat.zero_le _, fun i => by simp only [threeRounds]; omega,
      fun i _ => by simp only [threeRounds]; omega⟩

end ZiModem.Hal.Net
