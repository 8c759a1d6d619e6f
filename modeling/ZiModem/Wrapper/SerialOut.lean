import Mathlib.Logic.Function.Basic
import ZiModem.Hal.Serial
import ZiModem.Reactive.Accounting

/-! # Modem to host: the wake-up and its consumer

`serial::write` queues its bytes and copies the data-ready callback under the
serial lock, and raises the callback after the lock is released. The closure
installed by `zimodem_host_create` takes `callback_mutex` and calls the consumer
registered as `on_serial_out`, here the one of the managed wrapper, which drains
the queue into a buffer and hands the buffer on. Any number of threads write.
-/

namespace ZiModem.Wrapper

open Reactive ZiModem.Hal

/-- Where a call of `serial::write` stands once its critical section is over: holding a copy of
the callback, at one of the calls of `OnSerialOutNative`, or about to give up `callback_mutex`. -/
inductive WritePc
  | notify
  | rxAvailable (buffer : List UInt8)
  | rxRead (buffer : List UInt8)
  | invoke (buffer : List UInt8)
  | unlock
  deriving DecidableEq, Repr

namespace WritePc

def buffer : WritePc → List UInt8
  | rxAvailable buffer | rxRead buffer | invoke buffer => buffer
  | notify | unlock => []

def Locked (pc : WritePc) : Prop := pc ≠ notify

def Drains : WritePc → Prop
  | notify | rxAvailable _ | rxRead _ => True
  | invoke _ | unlock => False

end WritePc

/-- The queues and slots of the HAL, whether a consumer is registered as `on_serial_out`, the owner
of `callback_mutex`, and the calls of `serial::write` in progress. -/
structure SerialOut (τ γ : Type*) where
  serial : Serial γ
  onSerialOut : Bool
  callbackMutex : Option τ
  writer : τ → Option WritePc

inductive SerialOutAction (τ : Type*)
  | write (t : τ) (data : List UInt8)
  | advance (t : τ)
  deriving DecidableEq, Repr

/-- What a step shows. `serialDataReceived` is the event of the managed wrapper. -/
inductive SerialOutEvent (τ : Type*)
  | write (t : τ) (data : List UInt8)
  | locked (t : τ)
  | rxAvailable (t : τ) (ret : Bool)
  | rxRead (t : τ) (ret : Int)
  | serialDataReceived (t : τ) (data : List UInt8)
  | nothingReceived (t : τ)
  | unlocked (t : τ)
  deriving DecidableEq, Repr

namespace SerialOutEvent

variable {τ : Type*}

def written : SerialOutEvent τ → List UInt8
  | write _ data => data
  | _ => []

def delivered : SerialOutEvent τ → List UInt8
  | serialDataReceived _ data => data
  | _ => []

end SerialOutEvent

namespace SerialOut

variable {τ γ : Type*} [DecidableEq τ]

def setWriter (s : SerialOut τ γ) (t : τ) (pc : Option WritePc) : SerialOut τ γ :=
  { s with writer := Function.update s.writer t pc }

/-- The next step of a call that holds a copy of the data-ready callback. -/
def advance (s : SerialOut τ γ) (t : τ) : WritePc → Option (SerialOut τ γ × SerialOutEvent τ)
  | .notify =>
      if s.callbackMutex = none then
        let pc := if s.onSerialOut then .rxAvailable [] else .unlock
        some ({ s with callbackMutex := some t }.setWriter t (some pc), .locked t)
      else none
  | .rxAvailable buffer =>
      let pc := if s.serial.rxAvailable then .rxRead buffer else .invoke buffer
      some (s.setWriter t (some pc), .rxAvailable t s.serial.rxAvailable)
  | .rxRead buffer =>
      let b := s.serial.rxRead.2
      let pc := if b < 0 then .invoke buffer else .rxAvailable (buffer ++ [UInt8.ofNat b.toNat])
      some ({ s with serial := s.serial.rxRead.1 }.setWriter t (some pc), .rxRead t b)
  | .invoke buffer =>
      let o := if 0 < buffer.length then .serialDataReceived t buffer else .nothingReceived t
      some (s.setWriter t (some .unlock), o)
  | .unlock => some ({ s with callbackMutex := none }.setWriter t none, .unlocked t)

def step (s : SerialOut τ γ) : SerialOutAction τ → Option (SerialOut τ γ × SerialOutEvent τ)
  | .write t data =>
      match s.writer t with
      | some _ => none
      | none =>
          let pc := if (s.serial.write data).2.isSome then some .notify else none
          some ({ s with serial := (s.serial.write data).1 }.setWriter t pc, .write t data)
  | .advance t =>
      match s.writer t with
      | some pc => s.advance t pc
      | none => none

end SerialOut

def serialOut (τ γ : Type*) [DecidableEq τ] :
    Machine (SerialOut τ γ) (SerialOutAction τ) (SerialOutEvent τ) := ⟨SerialOut.step⟩

/-! ## The invariant -/

namespace SerialOut

variable {τ γ : Type*}

/-- What the consumer has collected and not yet handed on: the buffer of the thread that owns
`callback_mutex`. -/
def inHand (s : SerialOut τ γ) : List UInt8 :=
  match s.callbackMutex with
  | none => []
  | some t => ((s.writer t).map WritePc.buffer).getD []

theorem inHand_owner {s : SerialOut τ γ} {t : τ} {pc : WritePc} (h : s.callbackMutex = some t)
    (hpc : s.writer t = some pc) : s.inHand = pc.buffer := by
  unfold inHand
  rw [h]
  simp [hpc]

/-- The callbacks are in place, `callback_mutex` is owned by the thread that is past its lock, and
as long as bytes are queued some thread is on its way to drain them. -/
structure Woken (s : SerialOut τ γ) : Prop where
  installed : s.serial.dataReady.isSome = true
  registered : s.onSerialOut = true
  owner : ∀ t, s.callbackMutex = some t ↔ ∃ pc, s.writer t = some pc ∧ pc.Locked
  pending : s.serial.rxQueue ≠ [] → ∃ t pc, s.writer t = some pc ∧ pc.Drains

/-- Before the first write: the callbacks are in place and nothing is queued or in progress. -/
structure Ready (s : SerialOut τ γ) : Prop where
  installed : s.serial.dataReady.isSome = true
  registered : s.onSerialOut = true
  unlocked : s.callbackMutex = none
  empty : s.serial.rxQueue = []
  idle : ∀ t, s.writer t = none

theorem Ready.woken {s : SerialOut τ γ} (h : s.Ready) : s.Woken where
  installed := h.installed
  registered := h.registered
  owner := fun t => by simp [h.unlocked, h.idle t]
  pending := fun hne => absurd h.empty hne

end SerialOut

def rxDelivery {τ γ : Type*} : Flow (SerialOut τ γ) (SerialOutEvent τ) UInt8 :=
  ⟨fun s => s.inHand ++ s.serial.rxQueue, SerialOutEvent.written, SerialOutEvent.delivered⟩

/-! ## One step -/

section Step

variable {τ γ : Type*} [DecidableEq τ] {s s' : SerialOut τ γ} {o : SerialOutEvent τ}

namespace SerialOut

@[simp] theorem setWriter_serial (t : τ) (pc : Option WritePc) :
    (s.setWriter t pc).serial = s.serial := rfl

@[simp] theorem setWriter_callbackMutex (t : τ) (pc : Option WritePc) :
    (s.setWriter t pc).callbackMutex = s.callbackMutex := rfl

@[simp] theorem setWriter_self (t : τ) (pc : Option WritePc) :
    (s.setWriter t pc).writer t = pc := by
  simp [setWriter]

theorem setWriter_other {t t' : τ} (pc : Option WritePc) (h : t' ≠ t) :
    (s.setWriter t pc).writer t' = s.writer t' := by
  simp [setWriter, h]

theorem inHand_setWriter_other {t : τ} (pc : Option WritePc) (h : s.callbackMutex ≠ some t) :
    (s.setWriter t pc).inHand = s.inHand := by
  unfold inHand
  rw [setWriter_callbackMutex]
  cases hown : s.callbackMutex with
  | none => rfl
  | some t' =>
      have hne : t' ≠ t := by
        intro heq
        exact h (heq ▸ hown)
      show ((((s.setWriter t pc).writer t').map WritePc.buffer).getD []) = _
      rw [setWriter_other pc hne]

theorem inHand_setWriter_owner {t : τ} (pc : WritePc) (h : s.callbackMutex = some t) :
    (s.setWriter t (some pc)).inHand = pc.buffer := by
  unfold inHand
  rw [setWriter_callbackMutex, h]
  simp

theorem owner_setWriter {t : τ} {pc pc' : WritePc}
    (howner : ∀ t, s.callbackMutex = some t ↔ ∃ pc, s.writer t = some pc ∧ pc.Locked)
    (hpc : s.writer t = some pc) (hlocked : pc.Locked) (hlocked' : pc'.Locked) (t' : τ) :
    s.callbackMutex = some t' ↔
      ∃ pc, (s.setWriter t (some pc')).writer t' = some pc ∧ pc.Locked := by
  by_cases ht : t' = t
  · subst ht
    simp only [setWriter_self, Option.some.injEq, exists_eq_left']
    exact ⟨fun _ => hlocked', fun _ => (howner t').mpr ⟨pc, hpc, hlocked⟩⟩
  · rw [setWriter_other _ ht]
    exact howner t'

/-! The steps of one call, in the order of the source. -/

theorem Woken.write {t : τ} {data : List UInt8} (h : s.Woken) (hidle : s.writer t = none)
    (hstep : s.step (.write t data) = some (s', o)) : s'.Woken ∧ rxDelivery.Conserves s o s' := by
  simp only [step, hidle, Option.some.injEq, Prod.mk.injEq] at hstep
  rcases hstep with ⟨rfl, rfl⟩
  have hnotOwner : s.callbackMutex ≠ some t := by
    intro hown
    obtain ⟨pc, hpc, _⟩ := (h.owner t).mp hown
    rw [hidle] at hpc
    cases hpc
  refine ⟨⟨h.installed, h.registered, ?_, ?_⟩, ?_⟩
  · intro t'
    by_cases ht : t' = t
    · subst ht
      -- the thread does not own the mutex before, and is at most at its lock after
      simp only [setWriter_callbackMutex, setWriter_self]
      refine ⟨fun hown => absurd hown hnotOwner, ?_⟩
      rintro ⟨pc, hpc, hlocked⟩
      exact absurd (by grind) hlocked
    · rw [setWriter_other _ ht]
      exact h.owner t'
  · intro hqueue
    by_cases hdata : data = []
    · have hbefore : s.serial.rxQueue ≠ [] := by
        simpa [hdata] using hqueue
      obtain ⟨t', pc, hpc, hdrains⟩ := h.pending hbefore
      have ht : t' ≠ t := by
        intro heq
        rw [heq, hidle] at hpc
        cases hpc
      exact ⟨t', pc, (setWriter_other _ ht).trans hpc, hdrains⟩
    · have hlen : 0 < data.length := List.length_pos_iff.mpr hdata
      refine ⟨t, .notify, ?_, trivial⟩
      simp [Serial.write, hlen, h.installed]
  · have hhand : ∀ pc,
        ({ s with serial := (s.serial.write data).1 }.setWriter t pc).inHand = s.inHand :=
      fun pc => inHand_setWriter_other pc hnotOwner
    simp [Flow.Conserves, rxDelivery, SerialOutEvent.written, SerialOutEvent.delivered, hhand]

/-- A step of the owner that stays past its lock, keeps the mutex and accounts for what it
takes out of the queue and out of its buffer. -/
theorem Woken.owner_moves {t : τ} {pc pc' : WritePc} {serial : Serial γ} (h : s.Woken)
    (hpc : s.writer t = some pc) (hlocked : pc.Locked) (hlocked' : pc'.Locked)
    (hinstalled : serial.dataReady = s.serial.dataReady)
    (hpending : serial.rxQueue ≠ [] → pc'.Drains ∨ ¬ pc.Drains ∧ s.serial.rxQueue ≠ [])
    (hbytes : pc.buffer ++ s.serial.rxQueue = o.delivered ++ (pc'.buffer ++ serial.rxQueue))
    (hnew : o.written = []) :
    ({ s with serial := serial }.setWriter t (some pc')).Woken ∧
      rxDelivery.Conserves s o ({ s with serial := serial }.setWriter t (some pc')) := by
  have hown : s.callbackMutex = some t := (h.owner t).mpr ⟨pc, hpc, hlocked⟩
  refine ⟨⟨?_, h.registered, owner_setWriter h.owner hpc hlocked hlocked', ?_⟩, ?_⟩
  · show serial.dataReady.isSome = true
    rw [hinstalled]
    exact h.installed
  · intro hqueue
    rcases hpending hqueue with hdrains | ⟨hdone, hbefore⟩
    · exact ⟨t, pc', by simp, hdrains⟩
    · obtain ⟨t', pc'', hpc'', hdrains⟩ := h.pending hbefore
      have ht : t' ≠ t := by
        intro heq
        rw [heq, hpc] at hpc''
        cases hpc''
        exact hdone hdrains
      exact ⟨t', pc'', (setWriter_other _ ht).trans hpc'', hdrains⟩
  · have hhand : ({ s with serial := serial }.setWriter t (some pc')).inHand = pc'.buffer :=
      inHand_setWriter_owner pc' hown
    simp only [Flow.Conserves, rxDelivery, setWriter_serial, hhand, inHand_owner hown hpc, hnew,
      List.append_nil]
    exact hbytes

theorem Woken.lock {t : τ} (h : s.Woken) (hpc : s.writer t = some .notify)
    (hstep : s.advance t .notify = some (s', o)) : s'.Woken ∧ rxDelivery.Conserves s o s' := by
  unfold advance at hstep
  by_cases hfree : s.callbackMutex = none
  · simp only [hfree, h.registered, if_true, Option.some.injEq, Prod.mk.injEq] at hstep
    rcases hstep with ⟨rfl, rfl⟩
    refine ⟨⟨h.installed, rfl, ?_, ?_⟩, ?_⟩
    · intro t'
      by_cases ht : t' = t
      · subst ht
        simp [WritePc.Locked]
      · rw [setWriter_other _ ht]
        have hnone := h.owner t'
        rw [hfree] at hnone
        simp only [setWriter_callbackMutex, Option.some.injEq]
        exact ⟨fun heq => absurd heq.symm ht, fun hex => by cases hnone.mpr hex⟩
    · intro _
      exact ⟨t, .rxAvailable [], by simp, trivial⟩
    · simp [Flow.Conserves, rxDelivery, SerialOutEvent.written, SerialOutEvent.delivered, inHand,
        hfree, WritePc.buffer]
  · simp [hfree] at hstep

theorem Woken.testQueue {t : τ} {buffer : List UInt8} (h : s.Woken)
    (hpc : s.writer t = some (.rxAvailable buffer))
    (hstep : s.advance t (.rxAvailable buffer) = some (s', o)) :
    s'.Woken ∧ rxDelivery.Conserves s o s' := by
  simp only [advance, Option.some.injEq, Prod.mk.injEq] at hstep
  rcases hstep with ⟨rfl, rfl⟩
  by_cases hempty : s.serial.rxQueue = []
  · have hno : s.serial.rxAvailable = false := by
      simp [Serial.rxAvailable, hempty]
    simp only [hno]
    exact h.owner_moves hpc nofun nofun rfl (fun hne => absurd hempty hne) rfl rfl
  · have hyes : s.serial.rxAvailable = true := by
      simp [Serial.rxAvailable, hempty]
    simp only [hyes]
    exact h.owner_moves hpc nofun nofun rfl (fun _ => .inl trivial) rfl rfl

theorem Woken.takeByte {t : τ} {buffer : List UInt8} (h : s.Woken)
    (hpc : s.writer t = some (.rxRead buffer))
    (hstep : s.advance t (.rxRead buffer) = some (s', o)) :
    s'.Woken ∧ rxDelivery.Conserves s o s' := by
  simp only [advance, Option.some.injEq, Prod.mk.injEq] at hstep
  rcases hstep with ⟨rfl, rfl⟩
  cases hqueue : s.serial.rxQueue with
  | nil =>
      have hret : s.serial.rxRead.2 < 0 := by
        simp [Serial.rxRead, hqueue]
      simp only [hret, if_true]
      refine h.owner_moves hpc nofun nofun rfl ?_ ?_ rfl
      · intro hne
        exact absurd (by simp [hqueue]) hne
      · simp [WritePc.buffer, SerialOutEvent.delivered, hqueue]
  | cons b rest =>
      have hret : s.serial.rxRead.2 = b.toNat := by
        simp [Serial.rxRead, hqueue]
      have hnonneg : ¬ (b.toNat : Int) < 0 := by omega
      simp only [hret, if_neg hnonneg]
      refine h.owner_moves hpc nofun nofun rfl (fun _ => .inl trivial) ?_ rfl
      simp [WritePc.buffer, SerialOutEvent.delivered, hqueue]

theorem Woken.raise {t : τ} {buffer : List UInt8} (h : s.Woken)
    (hpc : s.writer t = some (.invoke buffer))
    (hstep : s.advance t (.invoke buffer) = some (s', o)) :
    s'.Woken ∧ rxDelivery.Conserves s o s' := by
  simp only [advance, Option.some.injEq, Prod.mk.injEq] at hstep
  rcases hstep with ⟨rfl, rfl⟩
  by_cases hlen : 0 < buffer.length
  · simp only [hlen, if_true]
    exact h.owner_moves hpc nofun nofun rfl (fun hne => .inr ⟨nofun, hne⟩) rfl rfl
  · have hnil : buffer = [] := by simpa using hlen
    simp only [hlen, if_false]
    refine h.owner_moves hpc nofun nofun rfl (fun hne => .inr ⟨nofun, hne⟩) ?_ rfl
    rw [hnil]
    rfl

theorem Woken.unlock {t : τ} (h : s.Woken) (hpc : s.writer t = some .unlock)
    (hstep : s.advance t .unlock = some (s', o)) : s'.Woken ∧ rxDelivery.Conserves s o s' := by
  simp only [advance, Option.some.injEq, Prod.mk.injEq] at hstep
  rcases hstep with ⟨rfl, rfl⟩
  have hown : s.callbackMutex = some t := (h.owner t).mpr ⟨.unlock, hpc, nofun⟩
  refine ⟨⟨h.installed, h.registered, ?_, ?_⟩, ?_⟩
  · intro t'
    by_cases ht : t' = t
    · subst ht
      simp
    · rw [setWriter_other _ ht]
      have hother := h.owner t'
      rw [hown] at hother
      simp only [setWriter_callbackMutex, reduceCtorEq, false_iff]
      intro hex
      exact ht (Option.some.inj (hother.mpr hex)).symm
  · intro hqueue
    obtain ⟨t', pc, hpc', hdrains⟩ := h.pending hqueue
    have ht : t' ≠ t := by
      intro heq
      rw [heq, hpc] at hpc'
      cases hpc'
      exact hdrains
    exact ⟨t', pc, (setWriter_other _ ht).trans hpc', hdrains⟩
  · simp [Flow.Conserves, rxDelivery, SerialOutEvent.written, SerialOutEvent.delivered, inHand,
      hown, hpc, WritePc.buffer]

theorem Woken.step {a : SerialOutAction τ} (h : s.Woken) (hstep : s.step a = some (s', o)) :
    s'.Woken ∧ rxDelivery.Conserves s o s' := by
  cases a with
  | write t data =>
      cases hpc : s.writer t with
      | none => exact h.write hpc hstep
      | some pc => simp [SerialOut.step, hpc] at hstep
  | advance t =>
      cases hpc : s.writer t with
      | none => simp [SerialOut.step, hpc] at hstep
      | some pc =>
          simp only [SerialOut.step, hpc] at hstep
          cases pc with
          | notify => exact h.lock hpc hstep
          | rxAvailable buffer => exact h.testQueue hpc hstep
          | rxRead buffer => exact h.takeByte hpc hstep
          | invoke buffer => exact h.raise hpc hstep
          | unlock => exact h.unlock hpc hstep

end SerialOut

end Step

/-! ## Runs -/

section Runs

variable {τ γ : Type*} [DecidableEq τ] {s₀ s : SerialOut τ γ} {as : List (SerialOutAction τ)}
  {os : List (SerialOutEvent τ)}

theorem woken_run (h₀ : s₀.Ready) (hrun : (serialOut τ γ).run s₀ as = some (s, os)) : s.Woken :=
  Machine.invariant (fun _ _ _ _ h hstep => (h.step hstep).1) h₀.woken hrun

theorem rxDelivery_balanced (h₀ : s₀.Ready) (hrun : (serialOut τ γ).run s₀ as = some (s, os)) :
    rxDelivery.Balanced s₀ os s :=
  Flow.balanced_run (fun _ _ _ _ h hstep => (SerialOut.Woken.step h hstep).1)
    (fun _ _ _ _ h hstep => (SerialOut.Woken.step h hstep).2) h₀.woken hrun

/-- Whatever threads write and however their steps interleave, the bytes handed on, in hand and
queued are the bytes written, in order; and once no write is in progress, all were handed on. -/
theorem serialOut_delivers (h₀ : s₀.Ready) (hrun : (serialOut τ γ).run s₀ as = some (s, os)) :
    os.flatMap SerialOutEvent.delivered ++ s.inHand ++ s.serial.rxQueue =
        os.flatMap SerialOutEvent.written ∧
      ((∀ t, s.writer t = none) →
        s.serial.rxQueue = [] ∧
          os.flatMap SerialOutEvent.delivered = os.flatMap SerialOutEvent.written) := by
  have hstart : rxDelivery.held s₀ = [] := by
    simp [rxDelivery, SerialOut.inHand, h₀.unlocked, h₀.empty]
  have hbytes : os.flatMap SerialOutEvent.delivered ++ (s.inHand ++ s.serial.rxQueue) =
      os.flatMap SerialOutEvent.written := by
    have hbal := rxDelivery_balanced h₀ hrun
    rw [Flow.Balanced, hstart, List.nil_append] at hbal
    exact hbal.symm
  refine ⟨by rw [List.append_assoc, hbytes], ?_⟩
  intro hidle
  have hwoken := woken_run h₀ hrun
  have hqueue : s.serial.rxQueue = [] := by
    by_contra hne
    obtain ⟨t, pc, hpc, _⟩ := hwoken.pending hne
    rw [hidle t] at hpc
    cases hpc
  have hhand : s.inHand = [] := by
    unfold SerialOut.inHand
    cases s.callbackMutex with
    | none => rfl
    | some t => simp [hidle t]
  rw [hqueue, hhand, List.append_nil, List.append_nil] at hbytes
  exact ⟨hqueue, hbytes⟩

def SerialOut.registered (τ : Type*) : SerialOut τ Unit :=
  ⟨{ Serial.initial with dataReady := some () }, true, none, fun _ => none⟩

/-- The first writer's drain takes the second writer's byte along, whose own wake-up then finds
the queue empty. -/
def overlappingWrites : List (SerialOutAction Bool) :=
  List.flatten [[.write true [1, 2]], List.replicate 3 (.advance true), [.write false [3]],
    List.replicate 7 (.advance true), List.replicate 4 (.advance false)]

theorem overlappingWrites_delivered :
    ∃ s os, (serialOut Bool Unit).run (.registered Bool) overlappingWrites = some (s, os) ∧
      .serialDataReceived true [1, 2, 3] ∈ os ∧ .nothingReceived false ∈ os ∧
      os.flatMap SerialOutEvent.delivered = os.flatMap SerialOutEvent.written := by
  have hrun : (serialOut Bool Unit).run (.registered Bool) overlappingWrites = some (_, _) := rfl
  have hready : (SerialOut.registered Bool).Ready := ⟨rfl, rfl, rfl, rfl, fun _ => rfl⟩
  exact ⟨_, _, hrun, by decide, by decide,
    ((serialOut_delivers hready hrun).2 (by decide)).2⟩

end Runs

end ZiModem.Wrapper
