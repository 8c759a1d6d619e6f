import ZiModem.Reactive.Reaching
import ZiModem.Wrapper.SerialOut

/-! # Modem to host: nothing stays behind

The thread that owns `callback_mutex` can always take its next step, and its call
comes to an end. A thread that waits for the mutex can take it then, and leaves
the queue empty. So the threads in the middle of `serial::write` can hand on
everything that was written, whatever the point at which the others stop.
-/

namespace ZiModem.Wrapper

open Reactive ZiModem.Hal

variable {τ γ : Type*}

def SerialOutAction.Advances : SerialOutAction τ → Prop
  | advance _ => True
  | write _ _ => False

def WritePc.rank : WritePc → Nat
  | rxAvailable _ => 4
  | rxRead _ => 3
  | invoke _ => 2
  | unlock => 1
  | notify => 0

namespace SerialOut

def untilUnlocked (s : SerialOut τ γ) : Nat :=
  match s.callbackMutex with
  | none => 0
  | some t => 3 * s.serial.rxQueue.length + ((s.writer t).map WritePc.rank).getD 0

/-- What is queued will be drained by the owner of `callback_mutex`. -/
def Swept (s : SerialOut τ γ) : Prop :=
  s.serial.rxQueue ≠ [] →
    ∃ t pc, s.callbackMutex = some t ∧ s.writer t = some pc ∧ pc.Drains

variable [DecidableEq τ] {s s' : SerialOut τ γ} {t : τ} {pc pc' : WritePc}

theorem untilUnlocked_setWriter (h : s.callbackMutex = some t) :
    (s.setWriter t (some pc)).untilUnlocked = 3 * s.serial.rxQueue.length + pc.rank := by
  simp [untilUnlocked, h]

theorem swept_setWriter (h : s.callbackMutex = some t)
    (hpc : s.serial.rxQueue ≠ [] → pc.Drains) : (s.setWriter t (some pc)).Swept :=
  fun hqueue => ⟨t, pc, h, setWriter_self t _, hpc hqueue⟩

theorem Woken.owner_advances (h : s.Woken) (hmutex : s.callbackMutex = some t) :
    ∃ s' o, (serialOut τ γ).step s (.advance t) = some (s', o) ∧
      s'.untilUnlocked < s.untilUnlocked ∧ (s.Swept → s'.Swept) := by
  obtain ⟨pc, hpc, hlocked⟩ := (h.owner t).mp hmutex
  have hbefore : s.untilUnlocked = 3 * s.serial.rxQueue.length + pc.rank := by
    simp [untilUnlocked, hmutex, hpc]
  have hdrains : s.Swept → s.serial.rxQueue ≠ [] → pc.Drains := by
    intro hswept hqueue
    obtain ⟨t', pc', hmutex', hpc', hdrains⟩ := hswept hqueue
    rw [hmutex] at hmutex'
    cases hmutex'
    rw [hpc] at hpc'
    cases hpc'
    exact hdrains
  have hstep : (serialOut τ γ).step s (.advance t) = s.advance t pc := by
    simp only [serialOut, SerialOut.step, hpc]
  rw [hstep, hbefore]
  cases pc with
  | notify => exact absurd rfl hlocked
  | rxAvailable buffer =>
      refine ⟨_, _, rfl, ?_, fun _ => ?_⟩
      · rw [untilUnlocked_setWriter hmutex]
        split <;> simp [WritePc.rank]
      · refine swept_setWriter hmutex fun hqueue => ?_
        have hsome : s.serial.rxAvailable = true := by simp [Serial.rxAvailable, hqueue]
        simp [hsome, WritePc.Drains]
  | rxRead buffer =>
      refine ⟨_, _, rfl, ?_, fun _ => ?_⟩
      · rw [untilUnlocked_setWriter (s := { s with serial := s.serial.rxRead.1 }) hmutex]
        cases hqueue : s.serial.rxQueue with
        | nil => simp [Serial.rxRead, hqueue, WritePc.rank]
        | cons b rest =>
            have hbyte : ¬ (b.toNat : Int) < 0 := by omega
            simp [Serial.rxRead, hqueue, hbyte, WritePc.rank]
            omega
      · refine swept_setWriter (s := { s with serial := s.serial.rxRead.1 }) hmutex fun hqueue => ?_
        cases hqueue' : s.serial.rxQueue with
        | nil => simp [Serial.rxRead, hqueue'] at hqueue
        | cons b rest =>
            have hbyte : ¬ (b.toNat : Int) < 0 := by omega
            simp [Serial.rxRead, hqueue', hbyte, WritePc.Drains]
  | invoke buffer =>
      refine ⟨_, _, rfl, ?_, fun hswept => ?_⟩
      · rw [untilUnlocked_setWriter hmutex]
        simp [WritePc.rank]
      · exact swept_setWriter hmutex fun hqueue => (hdrains hswept hqueue).elim
  | unlock =>
      refine ⟨_, _, rfl, ?_, fun hswept hqueue => (hdrains hswept hqueue).elim⟩
      simp [untilUnlocked, WritePc.rank]

theorem Woken.exists_unlocked (h : s.Woken) (p : Prop) (hswept : p → s.Swept) :
    ∃ s', (serialOut τ γ).Reaches SerialOutAction.Advances s s' ∧ (s'.Woken ∧ (p → s'.Swept)) ∧
      s'.callbackMutex = none := by
  refine Machine.reaches_of_variant untilUnlocked (fun s hs hlocked => ?_) ⟨h, hswept⟩
  obtain ⟨t, hmutex⟩ := Option.ne_none_iff_exists'.mp hlocked
  obtain ⟨s', o, hstep, hless, hkeeps⟩ := hs.1.owner_advances hmutex
  exact ⟨s', .single hstep trivial,
    ⟨(hs.1.step (a := .advance t) hstep).1, fun hp => hkeeps (hs.2 hp)⟩, hless⟩

omit [DecidableEq τ] in
theorem Swept.queue_nil (h : s.Swept) (hmutex : s.callbackMutex = none) :
    s.serial.rxQueue = [] := by
  by_contra hqueue
  obtain ⟨t, pc, howner, -⟩ := h hqueue
  rw [hmutex] at howner
  cases howner

/-- The calls in progress can hand on everything that was written. -/
theorem Woken.drains (h : s.Woken) :
    ∃ s', (serialOut τ γ).Reaches SerialOutAction.Advances s s' ∧ s'.Woken ∧
      s'.inHand ++ s'.serial.rxQueue = [] := by
  have hdone : ∀ s : SerialOut τ γ, s.callbackMutex = none → s.serial.rxQueue = [] →
      s.inHand ++ s.serial.rxQueue = [] := by
    intro s hmutex hqueue
    simp [inHand, hmutex, hqueue]
  obtain ⟨s₁, hreach₁, ⟨hwoken₁, -⟩, hfree₁⟩ := h.exists_unlocked False False.elim
  by_cases hqueue : s₁.serial.rxQueue = []
  · exact ⟨s₁, hreach₁, hwoken₁, hdone s₁ hfree₁ hqueue⟩
  · obtain ⟨t, pc, hpc, hdrains⟩ := hwoken₁.pending hqueue
    have hnotify : pc = .notify := by
      by_contra hlocked
      have howner := (hwoken₁.owner t).mpr ⟨pc, hpc, hlocked⟩
      rw [hfree₁] at howner
      cases howner
    have hlock : (serialOut τ γ).step s₁ (.advance t) =
        some ({ s₁ with callbackMutex := some t }.setWriter t (some (.rxAvailable [])),
          .locked t) := by
      simp only [serialOut, SerialOut.step, hpc, hnotify, advance, hfree₁, hwoken₁.registered,
        if_true]
    obtain ⟨s₂, hreach₂, ⟨hwoken₂, hswept₂⟩, hfree₂⟩ :=
      (hwoken₁.step (a := .advance t) hlock).1.exists_unlocked True fun _ =>
        swept_setWriter (s := { s₁ with callbackMutex := some t }) rfl fun _ => trivial
    exact ⟨s₂, hreach₁.trans (.head hlock trivial hreach₂), hwoken₂,
      hdone s₂ hfree₂ ((hswept₂ trivial).queue_nil hfree₂)⟩

end SerialOut

end ZiModem.Wrapper
