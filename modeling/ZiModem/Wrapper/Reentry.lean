import ZiModem.Wrapper.Dispatch

/-! # Re-entry from a user callback

A user callback other than `on_line_config` runs with `callback_mutex` held by
its own thread. Every call the header allows it is harmless there, except a
change of a pin: that raises the signal closure, which locks `callback_mutex`.
-/

namespace ZiModem.Wrapper

open Reactive ZiModem.Hal

variable {φ ν : Type*}

/-- A thread that holds `callback_mutex` writes only pin values that raise no signal. -/
def QuietPins (d : Device φ ν) (H : List Mutex) (b : Block φ ν) (_ : Option UserCall) : Prop :=
  match b with
  | .hal (.digitalWrite pin value) =>
      .callback ∈ H → ¬ d.pins.Changes pin value ∨ d.pins.callback = none
  | _ => True

instance (d : Device φ ν) (H : List Mutex) (b : Block φ ν) (c : Option UserCall) :
    Decidable (QuietPins d H b c) := by
  rcases b with (_ | _ | _ | _ | _ | _ | _ | _ | _ | _ | _ | _) | _ | _ | _ | _ | _ | _
  case hal.digitalWrite => exact inferInstanceAs (Decidable (_ ∈ H → ¬ _ ∨ _ = none))
  all_goals exact .isTrue trivial

/-- Only the body of a user callback, and the calls it makes, are reached with a mutex held, and
that mutex is `callback_mutex`. -/
def FitsCallback (H : List Mutex) : Block φ ν → Prop
  | .hal c => H = [] ∨ H = [.callback] ∧ ∃ call : UserCall, c = call.hal
  | .user _ _ _ => H = [] ∨ H = [.callback]
  | _ => H = []

namespace UserCall

theorem hal_quiet {d : Device φ ν} {call : UserCall}
    (h : QuietPins d [.callback] (.hal call.hal) none) : (d.hal call.hal).2 = none := by
  cases call with
  | setPin pin value =>
      have hquiet : ¬ d.pins.Changes pin value ∨ d.pins.callback = none :=
        h List.mem_cons_self
      simp [hal, Device.hal, Pins.digitalWrite_quiet hquiet]
  | writeSerial data | rxAvailable | rxRead | getLineConfig => rfl

end UserCall

theorem HalCall.mutex_ne_callback (c : HalCall) : c.mutex ≠ .callback := by
  cases c <;> simp [mutex]

theorem dispatch_discipline :
    (dispatch φ ν).Discipline FitsCallback QuietPins where
  entry := by
    intro b hb
    cases b with
    | hal c => exact .inl rfl
    | user e cb ctx => exact .inl rfl
    | _ => rfl
  unheld := by
    intro H b m hfits hguard
    cases b with
    | hal c =>
        have hm : c.mutex = m := Option.some.inj hguard
        rcases hfits with rfl | ⟨rfl, _⟩
        · simp
        · have hne := c.mutex_ne_callback
          rw [hm] at hne
          simpa using hne
    | user e cb ctx => cases hguard
    | _ =>
        have hH : H = [] := hfits
        simp [hH]
  stay := by
    intro d H b choice e next call hfits _ hexec hcont
    cases Block.exec_cases hexec with
    | invoke l ev cb hptr =>
        -- the user runs under `callback_mutex` and nothing else
        have hH : H = [] := hfits
        cases hcont
        refine ⟨hH, fun b' hb' => ?_⟩
        cases hb'
        rw [hH]
        exact .inr rfl
    | lineConfigCall cb ctx settings =>
        have hH : H = [] := hfits
        cases hcont
        exact ⟨.inl hH, nofun⟩
    | userCall ev cb ctx userCall =>
        cases hcont
        refine ⟨hfits, fun b' hb' => ?_⟩
        cases hb'
        rcases hfits with rfl | rfl
        · exact .inl rfl
        · exact .inr ⟨rfl, userCall, rfl⟩
    | _ => cases hcont
  leave := by
    intro d H b choice e b' hfits hquiet hexec hcont
    cases Block.exec_cases hexec with
    | hal c =>
        have hraise : (d.hal c).2.map Block.lambda = some b' := by
          simpa using hcont
        obtain ⟨l, hl, rfl⟩ := Option.map_eq_some_iff.mp hraise
        rcases hfits with hH | ⟨rfl, call, rfl⟩
        · exact hH
        · rw [UserCall.hal_quiet hquiet] at hl
          cases hl
    | copy baud config cb _ =>
        cases hcont
        exact hfits
    | setCallbacks cbs =>
        cases hcont
        exact hfits
    | _ => cases hcont

section Runs

variable {τ : Type*} [DecidableEq τ]

/-- As long as no thread that holds `callback_mutex` changes a pin, no thread ever comes to lock a
mutex that it holds. -/
theorem dispatch_never_selfLock {d : Device φ ν}
    {as : List (ThreadAction τ (Block φ ν) (Option UserCall))}
    (hquiet : ((dispatch φ ν).threads τ).Along ((dispatch φ ν).Respects QuietPins)
      (Config.idle d) as) :
    ((dispatch φ ν).threads τ).Throughout (fun _ s => ¬ (dispatch φ ν).SelfLock s)
      (Config.idle d) as :=
  dispatch_discipline.never_selfLock hquiet

/-- And a thread that does change one is about to lock `callback_mutex` again two steps later. -/
theorem selfLock_of_changed_pin {s : Config (Device φ ν) Mutex (Block φ ν) τ}
    (hcons : (dispatch φ ν).Consistent s) {t : τ} {c : Option UserCall}
    (hloud : ¬ (dispatch φ ν).Respects QuietPins s (.advance t c)) :
    ∃ s' os, ((dispatch φ ν).threads τ).run s [.advance t c, .advance t c] = some (s', os) ∧
      (dispatch φ ν).SelfLock s' := by
  simp only [Program.Respects] at hloud
  split at hloud
  · rename_i b rest hstack
    unfold QuietPins at hloud
    split at hloud
    · rename_i pin value
      push Not at hloud
      obtain ⟨hheld, hchange, hslot⟩ := hloud
      obtain ⟨cb, hcb⟩ := Option.ne_none_iff_exists'.mp hslot
      have hraise := Pins.digitalWrite_loud hchange hcb
      have hleave : ((s.shared.hal (.digitalWrite pin value)).2.map Block.lambda : Option _) =
          some (Block.lambda (.signal pin value) : Block φ ν) := by
        simp [Device.hal, hraise]
      exact Program.selfLock_of_leave hcons hstack rfl (congrArg Cont.leave hleave) rfl hheld
    · exact absurd trivial hloud
  · exact absurd trivial hloud

/-- A signal consumer and nothing else is registered, and no pin was written yet. -/
def Device.signalled : Device Unit Unit :=
  ⟨.initial, Pins.initial.setSignalCallback (some ()), none, ⟨none, some (), none, none, ()⟩⟩

/-- The worker raises DCD, and the consumer then sets a pin before it returns. -/
def setPinFromSignal (pin value : Int) :
    List (ThreadAction Unit (Block Unit Unit) (Option UserCall)) :=
  List.flatten [[.call () (.hal (.digitalWrite 10 0))], List.replicate 6 (.advance () none),
    [.advance () (some (.setPin pin value))], List.replicate 3 (.advance () none)]

/-- Setting the pin to the value it has already is harmless. -/
theorem setPinFromSignal_same :
    ∃ s os, ((dispatch Unit Unit).threads Unit).run (Config.idle .signalled)
        (setPinFromSignal 10 0) = some (s, os) ∧ ¬ (dispatch Unit Unit).SelfLock s := by
  have hrun : ((dispatch Unit Unit).threads Unit).run (Config.idle .signalled)
      (setPinFromSignal 10 0) = some (_, _) := rfl
  exact ⟨_, _, hrun, dispatch_never_selfLock (by decide) _ List.prefix_rfl _ _ hrun⟩

/-- Withdrawing CTS from within the signal callback locks `callback_mutex` a second time. -/
theorem selfLock_of_setPinFromSignal :
    ¬ ∀ (d : Device Unit Unit) (as : List (ThreadAction Unit (Block Unit Unit) (Option UserCall))),
      ((dispatch Unit Unit).threads Unit).Throughout
        (fun _ s => ¬ (dispatch Unit Unit).SelfLock s) (Config.idle d) as := by
  intro hall
  have hrun : ((dispatch Unit Unit).threads Unit).run (Config.idle .signalled)
      (setPinFromSignal 9 1) = some (_, _) := rfl
  exact hall _ _ _ List.prefix_rfl _ _ hrun
    ⟨(), .lambda (.signal 9 1), .callback,
      [.inside (.user (.signal 10 0) () ()), .inside .called], rfl, rfl, rfl⟩

end Runs

end ZiModem.Wrapper
