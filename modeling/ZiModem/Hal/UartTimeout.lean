import ZiModem.Hal.UartFifo
import ZiModem.Reactive.WrappedDeadline

/-! # `readBytes` against the clock

The deadline of a call of `readBytes` is kept in an `unsigned long`, `w` bits
wide, and so is what it is compared with; the clock itself has 64 bits. What the
timeout means is stated on the journal of a run, which knows the whole readings.
-/

namespace ZiModem.Hal

open Reactive

structure UartEntry (τ γ : Type*) where
  before : Uart τ γ
  action : UartAction τ
  event : UartEvent τ

def journal (τ γ : Type*) [DecidableEq τ] (w : Nat) :
    Machine (Uart τ γ) (UartAction τ) (UartEntry τ γ) :=
  (uart τ γ w).observe UartEntry.mk

variable {τ γ : Type*} [DecidableEq τ]

/-- The reading from which thread `t` computes a deadline in this step, and the timeout it adds. -/
def UartEntry.deadlineSet (t : τ) (e : UartEntry τ γ) : Option (Nat × Nat) :=
  match e.action, e.before.readBytes t with
  | .clock t' now, some rb =>
      if t' = t ∧ rb.pc = .setDeadline then some (now, e.before.timeoutMs) else none
  | _, _ => none

/-- The clock at the last byte that thread `t`'s call consumed, or at the call itself, and the
timeout in force there. -/
def waitingSince (t : τ) (es : List (UartEntry τ γ)) : Option (Nat × Nat) :=
  (es.filterMap (UartEntry.deadlineSet t)).getLast?

/-- What the timeout demands of one step: a call returns short of its length only at a reading at
which the timeout has passed, and a call that found nothing does return at such a reading. -/
def Timely (es : List (UartEntry τ γ)) (e : UartEntry τ γ) : Prop :=
  ∀ t rb since timeoutMs, e.before.readBytes t = some rb →
    waitingSince t es = some (since, timeoutMs) →
    (∀ count buffer, e.event = .readBytesReturn t count buffer → count < rb.length →
      ∃ now, e.action = .clock t now ∧ since + timeoutMs ≤ now) ∧
    (∀ now, e.action = .clock t now → rb.pc = .checkDeadline → since + timeoutMs ≤ now →
      ∃ count buffer, e.event = .readBytesReturn t count buffer)

def HonoursTimeout (es : List (UartEntry τ γ)) : Prop :=
  ∀ xs e, xs ++ [e] <+: es → Timely xs e

/-- The side condition on one step: where it compares the clock with a deadline, the wrapped values
are ordered as the blocks of `2^w` are in which the whole ones lie. -/
def ComparesTruly (w : Nat) (r : Uart τ γ × List (UartEntry τ γ)) : UartAction τ → Prop
  | .clock t now =>
      match r.1.readBytes t, waitingSince t r.2 with
      | some rb, some (since, timeoutMs) =>
          rb.pc = .checkDeadline → ComparesAlike (2 ^ w) (since + timeoutMs) now
      | _, _ => True
  | _ => True

/-! ## One step of a call of `readBytes` -/

section Step

variable {w : Nat} {s s' : Uart τ γ} {a : UartAction τ} {o : UartEvent τ}

theorem Uart.own_cases {rb : ReadBytes} (hrb : s.readBytes a.thread = some rb)
    (h : s.step w a = some (s', o)) :
    (∃ now, a = .clock a.thread now ∧ rb.pc = .setDeadline ∧ o = .clock a.thread ∧
      s'.readBytes a.thread =
        some { rb with deadline := (now + s.timeoutMs) % 2 ^ w, pc := .loop }) ∨
    (∃ now, a = .clock a.thread now ∧ rb.pc = .checkDeadline ∧
      (rb.deadline ≤ now % 2 ^ w ∧ s'.readBytes a.thread = none ∧
          o = .readBytesReturn a.thread rb.buffer.length rb.buffer ∨
        ¬ rb.deadline ≤ now % 2 ^ w ∧ s'.readBytes a.thread = some { rb with pc := .loop } ∧
          o = .clock a.thread)) ∨
    (a = .iterate a.thread ∧ rb.pc = .loop ∧
      ((∃ rb' ret, s'.readBytes a.thread = some rb' ∧ rb'.deadline = rb.deadline ∧
          (rb'.pc = .checkDeadline → rb'.buffer.length < rb'.length) ∧ o = .poll a.thread ret) ∨
        rb.length ≤ rb.buffer.length ∧ s'.readBytes a.thread = none ∧
          o = .readBytesReturn a.thread rb.buffer.length rb.buffer)) := by
  simp only [Uart.step, hrb] at h
  cases a with
  | clock t now =>
      simp only [Uart.clock] at h
      cases hpc : rb.pc with
      | setDeadline =>
          simp only [hpc, Option.some.injEq, Prod.mk.injEq] at h
          obtain ⟨rfl, rfl⟩ := h
          exact .inl ⟨now, rfl, rfl, rfl, Uart.setReadBytes_self t _⟩
      | checkDeadline =>
          refine .inr (.inl ⟨now, rfl, rfl, ?_⟩)
          simp only [hpc] at h
          by_cases hpast : rb.deadline ≤ now % 2 ^ w
          · rw [if_pos hpast] at h
            cases h
            exact .inl ⟨hpast, Uart.setReadBytes_self t _, rfl⟩
          · rw [if_neg hpast] at h
            cases h
            exact .inr ⟨hpast, Uart.setReadBytes_self t _, rfl⟩
      | loop => simp [hpc] at h
  | iterate t =>
      simp only [Uart.iterate] at h
      cases hpc : rb.pc with
      | loop =>
          refine .inr (.inr ⟨rfl, rfl, ?_⟩)
          simp only [hpc] at h
          by_cases hroom : rb.buffer.length < rb.length
          · rw [if_pos hroom] at h
            cases h
            refine .inl ⟨_, _, Uart.setReadBytes_self t _, ?_, ?_, rfl⟩
            · split <;> rfl
            · split
              · intro hpc'
                cases hpc'
              · exact fun _ => hroom
          · rw [if_neg hroom] at h
            cases h
            exact .inr ⟨Nat.not_lt.mp hroom, Uart.setReadBytes_self t _, rfl⟩
      | setDeadline => simp [hpc] at h
      | checkDeadline => simp [hpc] at h
  | _ => cases h

theorem Uart.idle_cases (hrb : s.readBytes a.thread = none) (h : s.step w a = some (s', o)) :
    (∀ t count buffer, o ≠ .readBytesReturn t count buffer) ∧
      ∀ rb, s'.readBytes a.thread = some rb → rb.pc = .setDeadline := by
  simp only [Uart.step, hrb] at h
  cases a with
  | readBytes t length =>
      cases h
      refine ⟨fun _ _ _ heq => (by cases heq), ?_⟩
      intro rb hstart
      rw [show (UartAction.readBytes t length).thread = t from rfl,
        Uart.setReadBytes_self] at hstart
      cases hstart
      rfl
  | clock t now => cases h
  | iterate t => cases h
  | _ =>
      cases h
      refine ⟨fun _ _ _ heq => (by cases heq), ?_⟩
      intro rb hsame
      exact absurd (hrb.symm.trans hsame) (Option.some_ne_none rb).symm

theorem Uart.step_thread (h : s.step w a = some (s', o)) : o.thread = a.thread := by
  cases hrb : s.readBytes a.thread with
  | none =>
      simp only [Uart.step, hrb] at h
      cases a <;> cases h <;> rfl
  | some rb =>
      rcases Uart.own_cases hrb h with ⟨-, -, -, rfl, -⟩ | ⟨-, -, -, ⟨-, -, rfl⟩ | ⟨-, -, rfl⟩⟩ |
        ⟨-, -, ⟨-, -, -, -, -, rfl⟩ | ⟨-, -, rfl⟩⟩
      all_goals rfl

theorem Uart.returns_iff {t : τ} {now : Nat} {rb : ReadBytes} (hrb : s.readBytes t = some rb)
    (hpc : rb.pc = .checkDeadline) (h : s.step w (.clock t now) = some (s', o)) :
    (∃ count buffer, o = .readBytesReturn t count buffer) ↔ rb.deadline ≤ now % 2 ^ w := by
  rcases Uart.own_cases (a := .clock t now) hrb h with ⟨-, -, hpc', -⟩ |
    ⟨now', haction, -, ⟨hpast, -, rfl⟩ | ⟨hpast, -, rfl⟩⟩ | ⟨haction, -⟩
  · rw [hpc] at hpc'
    cases hpc'
  · cases haction
    exact iff_of_true ⟨_, _, rfl⟩ hpast
  · cases haction
    refine iff_of_false ?_ hpast
    rintro ⟨_, _, heq⟩
    cases heq
  · cases haction

/-- A call returns short of its length only where it compares the clock with its deadline. -/
theorem Uart.short_return {t : τ} {count : Nat} {buffer : List UInt8} {rb : ReadBytes}
    (hrb : s.readBytes t = some rb) (h : s.step w a = some (s', .readBytesReturn t count buffer))
    (hshort : count < rb.length) : ∃ now, a = .clock t now ∧ rb.pc = .checkDeadline := by
  obtain rfl : t = a.thread := Uart.step_thread h
  rcases Uart.own_cases hrb h with ⟨-, -, -, heq, -⟩ |
    ⟨now, haction, hpc, -⟩ | ⟨-, -, ⟨_, _, -, -, -, heq⟩ | ⟨hfull, -, heq⟩⟩
  · cases heq
  · exact ⟨now, haction, hpc⟩
  · cases heq
  · cases heq
    omega

end Step

/-! ## The journal -/

section Journal

variable {w : Nat} {s s' : Uart τ γ} {a : UartAction τ} {e : UartEntry τ γ}
  {es : List (UartEntry τ γ)}

theorem journal_step_iff :
    (journal τ γ w).step s a = some (s', e) ↔
      e.before = s ∧ e.action = a ∧ s.step w a = some (s', e.event) := by
  obtain ⟨before, action, event⟩ := e
  rw [journal, Machine.observe_step_iff]
  constructor
  · rintro ⟨o, hstep, heq⟩
    cases heq
    exact ⟨rfl, rfl, hstep⟩
  · rintro ⟨rfl, rfl, hstep⟩
    exact ⟨event, hstep, rfl⟩

theorem waitingSince_snoc (t : τ) (es : List (UartEntry τ γ)) (e : UartEntry τ γ) :
    waitingSince t (es ++ [e]) = (e.deadlineSet t).or (waitingSince t es) := by
  unfold waitingSince
  rw [List.filterMap_append, List.getLast?_append]
  cases hset : e.deadlineSet t <;> simp [hset]

theorem deadlineSet_eq_none {t : τ} (h : ∀ rb, e.before.readBytes t = some rb →
    e.action.thread = t → rb.pc ≠ .setDeadline) : e.deadlineSet t = none := by
  unfold UartEntry.deadlineSet
  split
  next t' now rb haction hrb =>
    rw [if_neg]
    rintro ⟨rfl, hpc⟩
    exact h rb hrb (by rw [haction]; rfl) hpc
  next => rfl

/-- What a call of `readBytes` in progress knows: past its reading of the clock it holds the wrapped
sum of that reading and the timeout, and it compares only while bytes are missing. -/
structure HoldsDeadline (w : Nat) (waiting : Option (Nat × Nat)) (rb : ReadBytes) : Prop where
  deadline_eq : rb.pc ≠ .setDeadline →
    ∃ since timeoutMs, waiting = some (since, timeoutMs) ∧
      rb.deadline = (since + timeoutMs) % 2 ^ w
  missing : rb.pc = .checkDeadline → rb.buffer.length < rb.length

theorem holdsDeadline_step (hJ : ∀ t rb, s.readBytes t = some rb →
      HoldsDeadline w (waitingSince t es) rb) (h : (journal τ γ w).step s a = some (s', e))
    (t : τ) (rb : ReadBytes) (hrb : s'.readBytes t = some rb) :
    HoldsDeadline w (waitingSince t (es ++ [e])) rb := by
  obtain ⟨rfl, rfl, hstep⟩ := journal_step_iff.mp h
  rw [waitingSince_snoc]
  by_cases ht : t = e.action.thread
  · subst ht
    cases hbefore : e.before.readBytes e.action.thread with
    | none =>
        have hpc := (Uart.idle_cases hbefore hstep).2 rb hrb
        exact ⟨fun hne => absurd hpc hne, fun hcheck => by rw [hpc] at hcheck; cases hcheck⟩
    | some rb₀ =>
        have hold := hJ _ rb₀ hbefore
        have hkeep : rb₀.pc ≠ .setDeadline → e.deadlineSet e.action.thread = none := by
          intro hne
          apply deadlineSet_eq_none
          intro rb₁ hrb₁ _
          cases hbefore.symm.trans hrb₁
          exact hne
        rcases Uart.own_cases hbefore hstep with ⟨now, haction, hpc, -, hafter⟩ |
          ⟨now, -, hpc, ⟨-, hafter, -⟩ | ⟨-, hafter, -⟩⟩ |
          ⟨-, hpc, ⟨rb', ret, hafter, hdeadline, hroom, -⟩ | ⟨-, hafter, -⟩⟩
        · have hset : e.deadlineSet e.action.thread = some (now, e.before.timeoutMs) := by
            unfold UartEntry.deadlineSet
            rw [hbefore, haction]
            exact if_pos ⟨rfl, hpc⟩
          cases hrb.symm.trans hafter
          rw [hset]
          exact ⟨fun _ => ⟨now, _, rfl, rfl⟩, fun hcheck => by cases hcheck⟩
        · cases hrb.symm.trans hafter
        · cases hrb.symm.trans hafter
          have hne : rb₀.pc ≠ .setDeadline := by rw [hpc]; decide
          rw [hkeep hne]
          exact ⟨fun _ => hold.deadline_eq hne, fun hcheck => by cases hcheck⟩
        · cases hrb.symm.trans hafter
          have hne : rb₀.pc ≠ .setDeadline := by rw [hpc]; decide
          rw [hkeep hne, Option.none_or]
          refine ⟨fun _ => ?_, hroom⟩
          rw [hdeadline]
          exact hold.deadline_eq hne
        · cases hrb.symm.trans hafter
  · have hsame : e.before.readBytes t = some rb := by
      rw [← (Uart.step_spec hstep).2.2 t (by rw [Uart.step_thread hstep]; exact ht)]
      exact hrb
    rw [deadlineSet_eq_none fun _ _ hthread => absurd hthread.symm ht]
    exact hJ t rb hsame

theorem HoldsDeadline.returns_iff {t : τ} {now since timeoutMs : Nat} {rb : ReadBytes}
    (hold : HoldsDeadline w (waitingSince t es) rb)
    (hwaiting : waitingSince t es = some (since, timeoutMs)) (hrb : s.readBytes t = some rb)
    (hpc : rb.pc = .checkDeadline) {o : UartEvent τ} (h : s.step w (.clock t now) = some (s', o)) :
    (∃ count buffer, o = .readBytesReturn t count buffer) ↔
      (since + timeoutMs) % 2 ^ w ≤ now % 2 ^ w := by
  obtain ⟨_, _, heq, hdeadline⟩ := hold.deadline_eq (by rw [hpc]; decide)
  cases hwaiting.symm.trans heq
  rw [← hdeadline]
  exact Uart.returns_iff hrb hpc h

/-- A step is timely exactly when the comparison it makes, if any, tells the truth. -/
theorem timely_iff (hJ : ∀ t rb, s.readBytes t = some rb →
      HoldsDeadline w (waitingSince t es) rb) (h : (journal τ γ w).step s a = some (s', e)) :
    Timely es e ↔ ComparesTruly w (s, es) a := by
  obtain ⟨rfl, rfl, hstep⟩ := journal_step_iff.mp h
  constructor
  · intro htimely
    cases haction : e.action with
    | clock t now =>
        simp only [ComparesTruly]
        split
        next rb since timeoutMs hrb hwaiting =>
          intro hpc
          obtain ⟨hearly, hlate⟩ := htimely t rb since timeoutMs hrb hwaiting
          have hiff := (hJ t rb hrb).returns_iff hwaiting hrb hpc (haction ▸ hstep)
          rw [← mod_le_mod_iff_le_iff, ← hiff]
          constructor
          · rintro ⟨count, buffer, hevent⟩
            have hcount : count = rb.buffer.length := by
              have hown := (Uart.step_spec hstep).2.1
              rw [hevent, show UartEvent.thread (.readBytesReturn t count buffer) = t from rfl,
                hrb] at hown
              exact hown.2.1
            obtain ⟨now', haction', hpast⟩ := hearly count buffer hevent
              (hcount ▸ (hJ t rb hrb).missing hpc)
            cases haction.symm.trans haction'
            exact hpast
          · exact hlate now haction hpc
        next => trivial
    | _ => trivial
  · intro htruly t rb since timeoutMs hrb hwaiting
    constructor
    · intro count buffer hevent hshort
      obtain ⟨now, haction, hpc⟩ := Uart.short_return hrb (hevent ▸ hstep) hshort
      have hiff := (hJ t rb hrb).returns_iff hwaiting hrb hpc (haction ▸ hstep)
      simp only [haction, ComparesTruly, hrb, hwaiting] at htruly
      refine ⟨now, haction, ?_⟩
      exact (mod_le_mod_iff_le_iff.mpr (htruly hpc)).mp (hiff.mp ⟨count, buffer, hevent⟩)
    · intro now haction hpc hpast
      have hiff := (hJ t rb hrb).returns_iff hwaiting hrb hpc (haction ▸ hstep)
      simp only [haction, ComparesTruly, hrb, hwaiting] at htruly
      exact hiff.mpr ((mod_le_mod_iff_le_iff.mpr (htruly hpc)).mpr hpast)

end Journal

/-! ## Whole runs -/

section Runs

variable {w : Nat} {s : Uart τ γ} {as : List (UartAction τ)} {es : List (UartEntry τ γ)}

theorem honoursTimeout_snoc {e : UartEntry τ γ} :
    HonoursTimeout (es ++ [e]) ↔ HonoursTimeout es ∧ Timely es e := by
  constructor
  · intro h
    exact ⟨fun xs e' hxs => h xs e' (hxs.trans (List.prefix_append _ _)), h es e List.prefix_rfl⟩
  · rintro ⟨hall, hlast⟩ xs e' hxs
    rcases List.prefix_concat_iff.mp hxs with heq | hxs
    · obtain ⟨rfl, hlast'⟩ := List.append_inj' heq rfl
      cases hlast'
      exact hlast
    · exact hall xs e' hxs

/-- In a run of any threads and any clock, every call of `readBytes` honours its timeout exactly
when no comparison of a wrapped reading with a wrapped deadline is deceived. -/
theorem honoursTimeout_iff (hrun : (journal τ γ w).run .initial as = some (s, es)) :
    (journal τ γ w).Throughout (fun es _ => HonoursTimeout es) .initial as ↔
      (journal τ γ w).recorded.Along (ComparesTruly w) (.initial, []) as := by
  apply Machine.throughout_iff_recorded
    (J := fun es s => ∀ t rb, s.readBytes t = some rb → HoldsDeadline w (waitingSince t es) rb)
    (fun es s a s' e hJ hstep => holdsDeadline_step hJ hstep) ?_ ?_ ?_ hrun
  · intro es s a s' e hJ hI hstep
    rw [honoursTimeout_snoc, timely_iff hJ hstep, and_iff_right hI]
  · intro t rb hrb
    cases hrb
  · intro xs e hxs
    exact absurd (List.prefix_nil.mp hxs) (by simp)

/-- One byte is asked for with the default timeout: a turn finds nothing at 10 ms, the next one
finds the byte that another thread has fed. -/
theorem honoursTimeout_byte_arrives :
    (journal Bool Unit 32).Throughout (fun es _ => HonoursTimeout es) .initial
      [.readBytes true 1, .clock true 5, .iterate true, .clock true 10, .feedInput false [7],
        .iterate true, .clock true 11, .iterate true] :=
  (honoursTimeout_iff rfl).mpr
    ⟨trivial, trivial, trivial, fun _ => by decide, trivial, trivial, (fun h => by cases h),
      trivial, trivial⟩

end Runs

def UartAction.reading {τ : Type*} : UartAction τ → Option Nat
  | .clock _ now => some now
  | _ => none

/-- Ten milliseconds before a 32-bit clock wraps, a call with the default timeout of a second gives
up at its first turn: its deadline has wrapped and the clock has not. -/
theorem not_honoursTimeout_at_wrap : ¬ ∀ (as : List (UartAction Unit)) (s : Uart Unit Unit)
    (es : List (UartEntry Unit Unit)), (journal Unit Unit 32).run .initial as = some (s, es) →
    (as.filterMap UartAction.reading).Pairwise (· ≤ ·) →
    (∀ now ∈ as.filterMap UartAction.reading, now < 2 ^ 64) → HonoursTimeout es := by
  intro hall
  have hhonours := hall [.readBytes () 1, .clock () 4294967286, .iterate (), .clock () 4294967291]
    _ _ rfl (by decide) (by decide)
  have hlast := (honoursTimeout_snoc.mp
    (show HonoursTimeout ([_, _, _] ++ [_]) from hhonours)).2
  obtain ⟨hearly, -⟩ := hlast () _ 4294967286 1000 rfl rfl
  obtain ⟨now, haction, hpast⟩ := hearly 0 [] rfl (by decide)
  cases haction
  exact absurd hpast (by decide)

end ZiModem.Hal
