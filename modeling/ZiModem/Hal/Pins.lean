import Mathlib.Logic.Function.Basic

/-! # The pin table

The values last written to each pin, and the slot of the callback that hears of
changes. `pin_mode` only fills a table that nothing reads, so it has no part here.
-/

namespace ZiModem.Hal

/-- `g_value` and `g_callback`. A pin that was never written has no value. -/
structure Pins (γ : Type*) where
  value : Int → Option Int
  callback : Option γ

namespace Pins

variable {γ : Type*}

def initial : Pins γ := ⟨fun _ => none, none⟩

/-- Writing `value` is a change: the pin has no value yet, or another one. -/
def Changes (s : Pins γ) (pin value : Int) : Prop := s.value pin ≠ some value

instance (s : Pins γ) (pin value : Int) : Decidable (s.Changes pin value) :=
  inferInstanceAs (Decidable (s.value pin ≠ some value))

/-- `digital_write` up to the end of its critical section, with the callback it goes on to call
and the arguments it passes to it. -/
def digitalWrite (s : Pins γ) (pin value : Int) : Pins γ × Option (γ × Int × Int) :=
  ({ s with value := Function.update s.value pin (some value) },
    if s.Changes pin value then s.callback.map fun cb => (cb, pin, value) else none)

def digitalRead (s : Pins γ) (pin : Int) : Int := (s.value pin).getD 0

def setSignalCallback (s : Pins γ) (callback : Option γ) : Pins γ := { s with callback := callback }

theorem digitalWrite_quiet {s : Pins γ} {pin value : Int}
    (h : ¬ s.Changes pin value ∨ s.callback = none) : (s.digitalWrite pin value).2 = none := by
  rcases h with hsame | hnone
  · simp [digitalWrite, hsame]
  · simp [digitalWrite, hnone]

theorem digitalWrite_loud {s : Pins γ} {pin value : Int} {cb : γ} (hchange : s.Changes pin value)
    (hcb : s.callback = some cb) : (s.digitalWrite pin value).2 = some (cb, pin, value) := by
  simp [digitalWrite, hchange, hcb]

theorem digitalWrite_raised {s : Pins γ} {pin value : Int} {call : γ × Int × Int}
    (h : (s.digitalWrite pin value).2 = some call) :
    s.Changes pin value ∧ s.callback = some call.1 ∧ call.2 = (pin, value) := by
  simp only [digitalWrite] at h
  split at h
  next hchange =>
    obtain ⟨cb, hcb, rfl⟩ := Option.map_eq_some_iff.mp h
    exact ⟨hchange, hcb, rfl⟩
  next => cases h

end Pins

end ZiModem.Hal
