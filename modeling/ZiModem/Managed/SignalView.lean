import ZiModem.Wrapper.Convergence

/-! # The signals as `ZiModemDevice` shows them

The control lines are active-low: a native pin value of 0 is asserted, and
`ZimodemPinState` follows that. The parameter of `on_signal` is called `active`
and carries the same native value, which `OnSignalNative` turns into the `Active`
of its event by comparing it with 0.
-/

namespace ZiModem.Managed

open Reactive ZiModem.Hal ZiModem.Wrapper

/-! ## The managed layer -/

def zimodemPinActive : Int := 0

inductive ZimodemPin
  | dsr
  | dtr
  | ri
  | rts
  | cts
  | dcd
  deriving DecidableEq, Repr

def ZimodemPin.number : ZimodemPin → Int
  | dsr => 5
  | dtr => 6
  | ri => 7
  | rts => 8
  | cts => 9
  | dcd => 10

inductive ZimodemPinState
  | active
  | inactive
  deriving DecidableEq, Repr

def ZimodemPinState.value : ZimodemPinState → Int
  | active => 0
  | inactive => 1

def ZimodemPinState.ofValue (value : Int) : ZimodemPinState :=
  if value = zimodemPinActive then active else inactive

structure SignalChangedEventArgs where
  pin : Int
  active : Bool
  deriving DecidableEq, Repr

def SignalChangedEventArgs.state (e : SignalChangedEventArgs) : ZimodemPinState :=
  if e.active then .active else .inactive

/-- `OnSignalNative`, with what it passes to the subscribers of `SignalChanged`. -/
def onSignalNative (pin active : Int) : SignalChangedEventArgs := ⟨pin, active ≠ 0⟩

/-- `SetPin`, as the call of the C ABI that it makes. -/
def setPin (pin : ZimodemPin) (state : ZimodemPinState) : UserCall := .setPin pin.number state.value

/-! ## What the events should say -/

section View

variable {φ ν τ : Type*}

/-- An event about a write of `value` to `pin`: it says whether the line is asserted, and gives back
the state of a `SetPin` that made the write. -/
structure Reports (pin value : Int) (e : SignalChangedEventArgs) : Prop where
  pin_eq : e.pin = pin
  active_iff : e.active = true ↔ value = zimodemPinActive
  setPin_eq : ∀ p state, setPin p state = .setPin pin value → e.state = state

/-- The state of `pin` that its last event has left a subscriber with. -/
def viewed (pin : Int) (os : List (ThreadEvent τ (DispatchEvent φ ν))) : Option ZimodemPinState :=
  (delivered pin os).getLast?.map fun value => (onSignalNative pin value).state

/-- Every event reports its write, and a written pin whose changes are all delivered is seen in the
state that `digital_read` gives. -/
structure SignalView (os : List (ThreadEvent τ (DispatchEvent φ ν)))
    (s : Config (Device φ ν) Mutex (Block φ ν) τ) : Prop where
  reports : ∀ t pin value cb ctx, .saw t (.invoked (.signal pin value) cb ctx) ∈ os →
    Reports pin value (onSignalNative pin value)
  folded : ∀ pin, ¬ Undelivered pin s → s.shared.pins.value pin ≠ none →
    viewed pin os = some (.ofValue (s.shared.pins.digitalRead pin))

def RaisesNoSignal (s : Config (Device φ ν) Mutex (Block φ ν) τ) :
    ThreadAction τ (Block φ ν) (Option UserCall) → Prop
  | .call _ _ => True
  | .advance t _ =>
      match s.stack t with
      | .inside (.lambda (.signal _ _)) :: _ => False
      | _ => True

instance (s : Config (Device φ ν) Mutex (Block φ ν) τ)
    (a : ThreadAction τ (Block φ ν) (Option UserCall)) : Decidable (RaisesNoSignal s a) := by
  rcases a with ⟨t, b⟩ | ⟨t, c⟩
  · exact .isTrue trivial
  · dsimp only [RaisesNoSignal]
    rcases s.stack t with _ | ⟨_ | (_ | (_ | _ | _ | _) | _ | _ | _ | _ | _) | _, _⟩
    case cons.inside.lambda.signal => exact .isFalse id
    all_goals exact .isTrue trivial

theorem not_reports (pin value : Int) : ¬ Reports pin value (onSignalNative pin value) := by
  intro h
  have hactive := h.active_iff
  simp only [onSignalNative, zimodemPinActive, decide_eq_true_eq] at hactive
  exact iff_not_self hactive.symm

theorem raisesNoSignal_iff {s : Config (Device φ ν) Mutex (Block φ ν) τ}
    {a : ThreadAction τ (Block φ ν) (Option UserCall)} :
    RaisesNoSignal s a ↔ ∀ pin value t rest, ¬ Tells pin value t rest s a := by
  constructor
  · rintro h pin value t rest ⟨⟨c, rfl⟩, hstack⟩
    simp [RaisesNoSignal, hstack] at h
  · intro h
    cases a with
    | call t b => trivial
    | advance t c =>
        unfold RaisesNoSignal
        split
        · trivial
        · next t₁ c₁ heq =>
            cases heq
            split
            · next pin value rest hstack => exact h pin value t rest ⟨⟨c, rfl⟩, hstack⟩
            · trivial

/-! ## One step -/

section Step

variable [DecidableEq τ] {s s' : Config (Device φ ν) Mutex (Block φ ν) τ}
  {a : ThreadAction τ (Block φ ν) (Option UserCall)} {o : ThreadEvent τ (DispatchEvent φ ν)}
  {os : List (ThreadEvent τ (DispatchEvent φ ν))}

theorem tells_of_invoked {t : τ} {pin value : Int} {cb : φ} {ctx : ν}
    (hstep : ((dispatch φ ν).threads τ).step s a =
      some (s', .saw t (.invoked (.signal pin value) cb ctx))) :
    ∃ rest, Tells pin value t rest s a := by
  obtain ⟨c, b, rest, e, rfl, hstack, hexec, hseen, -⟩ := (dispatch φ ν).step_saw hstep
  refine ⟨rest, ⟨c, rfl⟩, ?_⟩
  rw [hstack]
  change b.exec s.shared c = some e at hexec
  cases b with
  | lambda l =>
      cases l with
      | lineConfig baud config =>
          cases hexec
          cases hseen
      | signal pin' value' =>
          simp only [Block.exec, Block.invoke, Option.some.injEq] at hexec
          split at hexec <;> cases hexec <;> cases hseen
          rfl
      | dataReady | log message =>
          simp only [Block.exec, Block.invoke, Option.some.injEq] at hexec
          split at hexec <;> cases hexec <;> cases hseen
  | user ev cb' ctx' =>
      cases c <;> cases hexec <;> cases hseen
  | _ =>
      cases hexec
      cases hseen

omit [DecidableEq τ] in
theorem delivered_eq_nil (h : ∀ t pin value cb ctx,
      ThreadEvent.saw t (.invoked (.signal pin value) cb ctx) ∈ os →
        Reports pin value (onSignalNative pin value)) (pin : Int) : delivered pin os = [] := by
  rw [delivered, List.flatMap_eq_nil_iff]
  intro o ho
  unfold eventSignals
  split
  · next t p value cb ctx => exact absurd (h t p value cb ctx ho) (not_reports p value)
  · rfl

omit [DecidableEq τ] in
theorem SignalView.mirrored (h : SignalView os s) : Mirrored os s := by
  intro pin hpending
  rw [delivered_eq_nil h.reports pin]
  by_contra hwritten
  have hseen := h.folded pin hpending fun hnone => hwritten (by rw [hnone]; rfl)
  rw [viewed, delivered_eq_nil h.reports pin] at hseen
  cases hseen

theorem SignalView.step_iff (h : SignalView os s) (hheard : Heard s)
    (hstep : ((dispatch φ ν).threads τ).step s a = some (s', o)) :
    SignalView (os ++ [o]) s' ↔ RaisesNoSignal s a := by
  rw [raisesNoSignal_iff]
  constructor
  · intro hafter pin value t rest htells
    cases pinStep_of_step hheard hstep pin with
    | quiet hnot _ _ _ => exact hnot value t rest htells
    | change hnot _ => exact hnot value t rest htells
    | tell value' t' rest' _ hevent _ _ =>
        have hnil := delivered_eq_nil hafter.reports pin
        rw [delivered_snoc, hevent] at hnil
        simp at hnil
  · intro hsilent
    have hmirrored : Mirrored (os ++ [o]) s' := by
      rw [h.mirrored.step_iff hheard hstep, inOrder_iff]
      intro pin value t rest htells
      exact absurd htells (hsilent pin value t rest)
    have hreports : ∀ t pin value cb ctx,
        .saw t (.invoked (.signal pin value) cb ctx) ∈ os ++ [o] →
          Reports pin value (onSignalNative pin value) := by
      intro t pin value cb ctx hmem
      rcases List.mem_append.mp hmem with hmem | hmem
      · exact h.reports t pin value cb ctx hmem
      · rw [← List.mem_singleton.mp hmem] at hstep
        obtain ⟨rest, htells⟩ := tells_of_invoked hstep
        exact absurd htells (hsilent pin value t rest)
    refine ⟨hreports, fun pin hpending hwritten => ?_⟩
    have hlast := hmirrored pin hpending
    rw [delivered_eq_nil hreports] at hlast
    exact absurd hlast.symm hwritten

/-- From a table without values, with the closure installed and `OnSignalNative` registered: the
events give the right view of the pins exactly as long as there are none. -/
theorem signalView_iff {d : Device φ ν} (hinstalled : d.pins.callback = some ())
    (hvalue : ∀ pin, d.pins.value pin = none) (hhears : d.callbacks.onSignal ≠ none)
    {as : List (ThreadAction τ (Block φ ν) (Option UserCall))} (has : ∀ a ∈ as, HearsSignals a)
    (hrun : ((dispatch φ ν).threads τ).run (Config.idle d) as = some (s, os)) :
    ((dispatch φ ν).threads τ).Throughout SignalView (Config.idle d) as ↔
      ((dispatch φ ν).threads τ).Along RaisesNoSignal (Config.idle d) as := by
  rw [← Machine.along_recorded hrun []]
  apply Machine.throughout_iff_recorded_along (A := fun _ a => HearsSignals a)
    (J := fun _ s => Heard s)
  · intro _ s a s' o h ha hstep
    exact h.step ha hstep
  · intro os s a s' o h hview _ hstep
    exact hview.step_iff h hstep
  · exact ⟨hinstalled, hhears, by simp [Config.idle, Config.Running]⟩
  · exact ⟨by simp, fun pin _ hwritten => absurd (hvalue pin) hwritten⟩
  · exact Machine.along_of_mem has _
  · exact hrun

end Step

end View

/-- The host drives CTS, and the event is still to come. -/
theorem signalView_before_event :
    ((dispatch Unit Unit).threads Unit).Throughout SignalView (Config.idle .fresh)
      (.call () (.hal (setPin .cts .active).hal) :: List.replicate 3 (.advance () none)) :=
  have hrun : ((dispatch Unit Unit).threads Unit).run (Config.idle .fresh)
      (.call () (.hal (setPin .cts .active).hal) :: List.replicate 3 (.advance () none)) =
        some (_, _) := rfl
  (signalView_iff rfl (fun _ => rfl) (by decide) (by decide) hrun).mpr (by decide +kernel)

/-- The host asserts CTS, and the event says that it is not asserted. -/
theorem not_signalView_of_setPin :
    ¬ ∀ as : List (ThreadAction Unit (Block Unit Unit) (Option UserCall)),
      (∀ a ∈ as, HearsSignals a) →
        ((dispatch Unit Unit).threads Unit).Throughout SignalView (Config.idle .fresh) as := by
  intro hall
  have hrun : ((dispatch Unit Unit).threads Unit).run (Config.idle .fresh)
      (.call () (.hal (setPin .cts .active).hal) :: List.replicate 5 (.advance () none)) =
        some (_, _) := rfl
  have hview := hall _ (by decide) _ List.prefix_rfl _ _ hrun
  have hreports := hview.reports () 9 0 () () (by decide)
  exact not_reports 9 0 hreports

end ZiModem.Managed
