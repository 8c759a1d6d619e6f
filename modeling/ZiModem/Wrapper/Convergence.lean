import Mathlib.Data.Fintype.Basic
import ZiModem.Wrapper.Notification

/-! # Events and the pin table

Any number of threads write pins. A write changes the table under the lock of
the pins and tells the user of it later, without the lock, and in between the
change is undelivered. Once every change of a pin is delivered, a host that
mirrors the pin from its events has what the table has, as long as no event is
overtaken: one that is delivered carries the value in the table, or another
change of the pin is still undelivered.
-/

namespace ZiModem.Wrapper

open Reactive ZiModem.Hal

section Convergence

variable {φ ν τ : Type*}

/-! ## What is on its way -/

def Block.signals (pin : Int) : Block φ ν → List Int
  | lambda l => l.signals pin
  | _ => []

/-- A change of the pin is in the table, and the user was not told of it. -/
def Undelivered (pin : Int) (s : Config (Device φ ν) Mutex (Block φ ν) τ) : Prop :=
  ∃ t b, s.Running t b ∧ b.signals pin ≠ []

instance [Fintype τ] (pin : Int) (s : Config (Device φ ν) Mutex (Block φ ν) τ) :
    Decidable (Undelivered pin s) :=
  decidable_of_iff (∃ t, ∃ f ∈ s.stack t, ∃ b ∈ f.block, b.signals pin ≠ []) (by
    constructor
    · rintro ⟨t, f, hf, b, hb, hsignals⟩
      exact ⟨t, b, ⟨f, hf, hb⟩, hsignals⟩
    · rintro ⟨t, b, ⟨f, hf, hb⟩, hsignals⟩
      exact ⟨t, f, hf, b, hb, hsignals⟩)

def Block.Writes : Block φ ν → Prop
  | hal (.digitalWrite _ _) | lambda (.signal _ _) => True
  | _ => False

def Writing (s : Config (Device φ ν) Mutex (Block φ ν) τ) : Prop :=
  ∃ t b, s.Running t b ∧ b.Writes

theorem Undelivered.writing {pin : Int} {s : Config (Device φ ν) Mutex (Block φ ν) τ}
    (h : Undelivered pin s) : Writing s := by
  obtain ⟨t, b, hb, hsignals⟩ := h
  refine ⟨t, b, hb, ?_⟩
  cases b with
  | lambda l =>
      cases l with
      | signal p value => trivial
      | _ => exact absurd rfl hsignals
  | _ => exact absurd rfl hsignals

def eventSignals (pin : Int) : ThreadEvent τ (DispatchEvent φ ν) → List Int
  | .saw _ (.invoked (.signal p value) _ _) => if p = pin then [value] else []
  | _ => []

/-- The values of `pin` that the user was told, in the order of the events. -/
def delivered (pin : Int) (os : List (ThreadEvent τ (DispatchEvent φ ν))) : List Int :=
  os.flatMap (eventSignals pin)

/-- A pin whose changes are all delivered reads as its last event says. -/
def Mirrored (os : List (ThreadEvent τ (DispatchEvent φ ν)))
    (s : Config (Device φ ν) Mutex (Block φ ν) τ) : Prop :=
  ∀ pin, ¬ Undelivered pin s → (delivered pin os).getLast? = s.shared.pins.value pin

/-- While no `digital_write` is in progress, every written pin reads as its last event says. -/
def Converged (os : List (ThreadEvent τ (DispatchEvent φ ν)))
    (s : Config (Device φ ν) Mutex (Block φ ν) τ) : Prop :=
  ¬ Writing s → ∀ pin, s.shared.pins.value pin ≠ none →
    (delivered pin os).getLast? = some (s.shared.pins.digitalRead pin)

theorem Mirrored.converged {os : List (ThreadEvent τ (DispatchEvent φ ν))}
    {s : Config (Device φ ν) Mutex (Block φ ν) τ} (h : Mirrored os s) : Converged os s := by
  intro hquiet pin hwritten
  obtain ⟨value, hvalue⟩ := Option.ne_none_iff_exists'.mp hwritten
  rw [h pin fun hpending => hquiet hpending.writing, Pins.digitalRead, hvalue]
  rfl

/-- A call of `zimodem_host_set_callbacks` registers an `on_signal`. -/
def HearsSignals : ThreadAction τ (Block φ ν) (Option UserCall) → Prop
  | .call _ (.setCallbacks cbs) => cbs.onSignal ≠ none
  | _ => True

instance : DecidablePred (HearsSignals : ThreadAction τ (Block φ ν) (Option UserCall) → Prop)
  | .call _ (.setCallbacks _) => decidable_of_iff _ Option.isSome_iff_ne_none
  | .call _ (.hal _) | .call _ (.lambda _) | .call _ .called => .isTrue trivial
  | .call _ (.lineConfigCall _ _ _) | .call _ (.user _ _ _) => .isTrue trivial
  | .call _ (.setCallbacksReturn _) | .advance _ _ => .isTrue trivial

section Rule

variable [DecidableEq τ]

/-- An event that is delivered carries the value in the table, or another change of the pin is
still undelivered. -/
def InOrder (s : Config (Device φ ν) Mutex (Block φ ν) τ) :
    ThreadAction τ (Block φ ν) (Option UserCall) → Prop
  | .call _ _ => True
  | .advance t _ =>
      match s.stack t with
      | .inside (.lambda (.signal pin value)) :: rest =>
          s.shared.pins.value pin = some value ∨ Undelivered pin (s.setStack t rest)
      | _ => True

instance [Fintype τ] (s : Config (Device φ ν) Mutex (Block φ ν) τ)
    (a : ThreadAction τ (Block φ ν) (Option UserCall)) : Decidable (InOrder s a) := by
  rcases a with ⟨t, b⟩ | ⟨t, c⟩
  · exact .isTrue trivial
  · dsimp only [InOrder]
    rcases s.stack t with _ | ⟨_ | (_ | (_ | _ | _ | _) | _ | _ | _ | _ | _) | _, _⟩
    case cons.inside.lambda.signal => infer_instance
    all_goals exact .isTrue trivial

def Tells (pin value : Int) (t : τ) (rest : List (Frame Mutex (Block φ ν)))
    (s : Config (Device φ ν) Mutex (Block φ ν) τ)
    (a : ThreadAction τ (Block φ ν) (Option UserCall)) : Prop :=
  (∃ c, a = .advance t c) ∧ s.stack t = .inside (.lambda (.signal pin value)) :: rest

theorem inOrder_iff {s : Config (Device φ ν) Mutex (Block φ ν) τ}
    {a : ThreadAction τ (Block φ ν) (Option UserCall)} :
    InOrder s a ↔ ∀ pin value t rest, Tells pin value t rest s a →
      s.shared.pins.value pin = some value ∨ Undelivered pin (s.setStack t rest) := by
  constructor
  · rintro h pin value t rest ⟨⟨c, rfl⟩, hstack⟩
    simpa [InOrder, hstack] using h
  · intro h
    cases a with
    | call t b => trivial
    | advance t c =>
        unfold InOrder
        split
        · trivial
        · next t₁ c₁ heq =>
            cases heq
            split
            · next pin value rest hstack => exact h pin value t rest ⟨⟨c, rfl⟩, hstack⟩
            · trivial

/-! ## One step -/

/-- The closure for pins is installed, and every `set_callbacks` registers an `on_signal`. -/
structure Heard (s : Config (Device φ ν) Mutex (Block φ ν) τ) : Prop where
  installed : s.shared.pins.callback = some ()
  hears : s.shared.callbacks.onSignal ≠ none
  replaced : ∀ t cbs, s.Running t (.setCallbacks cbs) → cbs.onSignal ≠ none

theorem not_names_setCallbacks {d : Device φ ν} {b : Block φ ν} {c : Option UserCall}
    {e : Effect (Device φ ν) (Block φ ν) (DispatchEvent φ ν)} (hexec : b.exec d c = some e)
    (cbs : Callbacks φ ν) : ¬ e.cont.Names (.setCallbacks cbs) := by
  cases Block.exec_cases hexec with
  | hal call => simp [Cont.Names]
  | _ => simp [Cont.Names]

theorem hal_pins_callback (d : Device φ ν) (call : HalCall) :
    (d.hal call).1.pins.callback = d.pins.callback := by
  cases call <;> rfl

theorem exec_pins_callback {d : Device φ ν} {b : Block φ ν} {c : Option UserCall}
    {e : Effect (Device φ ν) (Block φ ν) (DispatchEvent φ ν)} (hexec : b.exec d c = some e) :
    e.shared.pins.callback = d.pins.callback := by
  cases Block.exec_cases hexec with
  | hal call => exact hal_pins_callback d call
  | _ => rfl

theorem Heard.step {s s' : Config (Device φ ν) Mutex (Block φ ν) τ} (h : Heard s)
    {a : ThreadAction τ (Block φ ν) (Option UserCall)} (ha : HearsSignals a)
    {o : ThreadEvent τ (DispatchEvent φ ν)}
    (hstep : ((dispatch φ ν).threads τ).step s a = some (s', o)) : Heard s' := by
  have hreplaced : ∀ t cbs, s'.Running t (.setCallbacks cbs) → cbs.onSignal ≠ none := by
    intro t cbs hrunning
    rcases Program.running_step hstep hrunning with hbefore | ⟨rfl, -⟩ |
      ⟨c, b, rest, e, -, -, hexec, hnames⟩
    · exact h.replaced t cbs hbefore
    · exact ha
    · exact absurd hnames (not_names_setCallbacks hexec cbs)
  refine ⟨?_, ?_, hreplaced⟩
  · cases (dispatch φ ν).step_cases hstep with
    | call t b _ _ => exact h.installed
    | lock t c b rest _ _ => simpa using h.installed
    | exec t c b rest e _ hexec => exact (exec_pins_callback hexec).trans h.installed
    | unlock t c m after rest _ => simpa using h.installed
  · cases (dispatch φ ν).step_cases hstep with
    | call t b _ _ => exact h.hears
    | lock t c b rest _ _ => simpa using h.hears
    | exec t c b rest e hstack hexec =>
        show e.shared.callbacks.onSignal ≠ none
        rcases Block.exec_callbacks hexec with hsame | ⟨cbs, rfl, hcbs⟩
        · rw [hsame]
          exact h.hears
        · rw [hcbs]
          exact h.replaced t cbs ⟨_, hstack ▸ List.mem_cons_self, rfl⟩
    | unlock t c m after rest _ => simpa using h.hears

/-- What a step is to a pin: nothing, a change of it, or an event about it. -/
inductive PinStep (pin : Int) (s : Config (Device φ ν) Mutex (Block φ ν) τ)
    (a : ThreadAction τ (Block φ ν) (Option UserCall))
    (s' : Config (Device φ ν) Mutex (Block φ ν) τ) (o : ThreadEvent τ (DispatchEvent φ ν)) : Prop
  | quiet : (∀ value t rest, ¬ Tells pin value t rest s a) → eventSignals pin o = [] →
      s'.shared.pins.value pin = s.shared.pins.value pin →
      (Undelivered pin s' ↔ Undelivered pin s) → PinStep pin s a s' o
  | change : (∀ value t rest, ¬ Tells pin value t rest s a) → Undelivered pin s' →
      PinStep pin s a s' o
  | tell (value : Int) (t : τ) (rest : List (Frame Mutex (Block φ ν))) :
      Tells pin value t rest s a → eventSignals pin o = [value] →
      s'.shared.pins.value pin = s.shared.pins.value pin →
      (Undelivered pin s' ↔ Undelivered pin (s.setStack t rest)) → PinStep pin s a s' o

theorem undelivered_setStack_append {pin : Int} {s : Config (Device φ ν) Mutex (Block φ ν) τ}
    {t : τ} {fs rest : List (Frame Mutex (Block φ ν))} :
    Undelivered pin (s.setStack t (fs ++ rest)) ↔
      (∃ f ∈ fs, ∃ b, f.block = some b ∧ b.signals pin ≠ []) ∨
        Undelivered pin (s.setStack t rest) := by
  simp only [Undelivered, Config.running_setStack_append, or_and_right, exists_or]
  apply or_congr_left
  constructor
  · rintro ⟨t', b, ⟨rfl, f, hf, hb⟩, hsignals⟩
    exact ⟨f, hf, b, hb, hsignals⟩
  · rintro ⟨f, hf, b, hb, hsignals⟩
    exact ⟨t, b, ⟨rfl, f, hf, hb⟩, hsignals⟩

theorem undelivered_cons {pin : Int} {s : Config (Device φ ν) Mutex (Block φ ν) τ} {t : τ}
    {f : Frame Mutex (Block φ ν)} {rest : List (Frame Mutex (Block φ ν))}
    (hstack : s.stack t = f :: rest) :
    Undelivered pin s ↔ (∃ b, f.block = some b ∧ b.signals pin ≠ []) ∨
      Undelivered pin (s.setStack t rest) := by
  simp only [Undelivered, Config.running_cons hstack, or_and_right, exists_or]
  apply or_congr_left
  constructor
  · rintro ⟨t', b, ⟨rfl, hb⟩, hsignals⟩
    exact ⟨b, hb, hsignals⟩
  · rintro ⟨b, hb, hsignals⟩
    exact ⟨t, b, ⟨rfl, hb⟩, hsignals⟩

omit [DecidableEq τ] in
theorem undelivered_congr {pin : Int} {s₁ s₂ : Config (Device φ ν) Mutex (Block φ ν) τ}
    (h : s₁.stack = s₂.stack) : Undelivered pin s₁ ↔ Undelivered pin s₂ := by
  simp only [Undelivered, Config.running_congr h]

theorem undelivered_replace {pin : Int} {s s₁ : Config (Device φ ν) Mutex (Block φ ν) τ} {t : τ}
    {f : Frame Mutex (Block φ ν)} {fs rest : List (Frame Mutex (Block φ ν))}
    (hstack : s.stack t = f :: rest) (hsame : s₁.stack = s.stack)
    (hcarries : (∃ g ∈ fs, ∃ b, g.block = some b ∧ b.signals pin ≠ []) ↔
      ∃ b, f.block = some b ∧ b.signals pin ≠ []) :
    Undelivered pin (s₁.setStack t (fs ++ rest)) ↔ Undelivered pin s := by
  have hrest : (s₁.setStack t rest).stack = (s.setStack t rest).stack := by
    simp [Config.setStack, hsame]
  rw [undelivered_setStack_append, undelivered_cons hstack, hcarries, undelivered_congr hrest]

def Block.Ignores (pin : Int) (b : Block φ ν) : Prop :=
  b.signals pin = [] ∧ ∀ call, b = .hal call → call.writes pin = []

omit [DecidableEq τ] in
theorem ignores_invoke {d : Device φ ν} {b : Block φ ν} {pin : Int} {event : UserEvent}
    (hevent : ∀ value, event ≠ .signal pin value) :
    (∀ f ∈ (dispatch φ ν).resume b (Block.invoke d event).cont, ∀ b', f.block = some b' →
        b'.signals pin = []) ∧
      (Block.invoke d event).shared.pins.value pin = d.pins.value pin ∧
      ∀ t : τ, eventSignals pin
        (((Block.invoke d event).seen.map (ThreadEvent.saw t)).getD (.quiet t)) = [] := by
  unfold Block.invoke
  split
  · refine ⟨?_, rfl, fun _ => rfl⟩
    simp [Program.resume, Frame.block]
  · refine ⟨?_, rfl, fun _ => ?_⟩
    · simp [Program.resume, Frame.block, Block.signals]
    · cases event with
      | signal p value =>
          have hp : p ≠ pin := by
            rintro rfl
            exact hevent value rfl
          simp [eventSignals, hp]
      | _ => rfl

theorem Block.not_ignores {b : Block φ ν} {pin : Int} (h : ¬ b.Ignores pin) :
    ∃ value, b = .hal (.digitalWrite pin value) ∨ b = .lambda (.signal pin value) := by
  by_contra hnot
  apply h
  constructor
  · cases b with
    | lambda l =>
        cases l with
        | signal p value =>
            have hp : p ≠ pin := by
              rintro rfl
              exact hnot ⟨value, .inr rfl⟩
            exact if_neg hp
        | _ => rfl
    | _ => rfl
  · rintro call rfl
    cases call with
    | digitalWrite p value =>
        have hp : p ≠ pin := by
          rintro rfl
          exact hnot ⟨value, .inl rfl⟩
        exact if_neg hp
    | _ => rfl

omit [DecidableEq τ] in
theorem Block.Ignores.exec {d : Device φ ν} {b : Block φ ν} {c : Option UserCall} {pin : Int}
    {e : Effect (Device φ ν) (Block φ ν) (DispatchEvent φ ν)} (hb : b.Ignores pin)
    (hexec : b.exec d c = some e) :
    (∀ f ∈ (dispatch φ ν).resume b e.cont, ∀ b', f.block = some b' → b'.signals pin = []) ∧
      e.shared.pins.value pin = d.pins.value pin ∧
      ∀ t : τ, eventSignals pin ((e.seen.map (ThreadEvent.saw t)).getD (.quiet t)) = [] := by
  cases b with
  | hal call =>
      cases hexec
      obtain ⟨hnone, hvalue⟩ := hal_signals_of_quiet (d := d) (hb.2 call rfl)
      refine ⟨fun f hf b' hblock => ?_, hvalue, fun _ => rfl⟩
      rw [List.mem_singleton.mp hf] at hblock
      obtain ⟨l, hl, rfl⟩ := Option.map_eq_some_iff.mp hblock
      rw [hl] at hnone
      rw [Block.signals]
      simpa using hnone
  | lambda l =>
      cases l with
      | lineConfig baud config =>
          cases hexec
          refine ⟨fun f hf b' hblock => ?_, rfl, fun _ => rfl⟩
          rw [List.mem_singleton.mp hf] at hblock
          obtain ⟨cb, -, rfl⟩ := Option.map_eq_some_iff.mp hblock
          rfl
      | signal p value =>
          cases hexec
          apply ignores_invoke
          rintro value' heq
          cases heq
          have hnone := hb.1
          simp [Block.signals, Lambda.signals] at hnone
      | dataReady | log message =>
          cases hexec
          apply ignores_invoke
          simp
  | user e cb ctx =>
      cases c <;> cases hexec <;>
        exact ⟨by simp [Program.resume, Frame.block, Block.signals], rfl, fun _ => rfl⟩
  | _ =>
      cases hexec
      exact ⟨by simp [Program.resume, Frame.block, Block.signals], rfl, fun _ => rfl⟩

section Steps

variable {s s' : Config (Device φ ν) Mutex (Block φ ν) τ} {pin : Int} {t : τ}
  {c : Option UserCall} {rest : List (Frame Mutex (Block φ ν))}

omit [DecidableEq τ] in
/-- The innermost frame of the thread that moves says whether it tells the user. -/
theorem Tells.top {f : Frame Mutex (Block φ ν)} {value : Int} {t₁ : τ}
    {rest₁ : List (Frame Mutex (Block φ ν))} (htells : Tells pin value t₁ rest₁ s (.advance t c))
    (hstack : s.stack t = f :: rest) : f = .inside (.lambda (.signal pin value)) := by
  obtain ⟨⟨c₁, hc⟩, htop⟩ := htells
  cases hc
  rw [hstack] at htop
  exact (List.cons.inj htop).1

theorem pinStep_call {b : Block φ ν} (hentry : b.entry = true) (hidle : s.stack t = []) :
    PinStep pin s (.call t b) (s.setStack t [.enter b]) (.quiet t) := by
  refine .quiet ?_ rfl rfl ?_
  · rintro value t rest ⟨⟨c, hc⟩, -⟩
    cases hc
  · have hb : b.signals pin = [] := by
      cases b with
      | lambda l =>
          cases l with
          | log message => rfl
          | _ => cases hentry
      | _ => rfl
    have hempty : (s.setStack t []).stack = s.stack := by
      rw [Config.setStack, ← hidle, Function.update_eq_self]
    rw [← List.append_nil [Frame.enter b], undelivered_setStack_append,
      undelivered_congr hempty]
    simp [Frame.block, hb]

section Exec

variable {b : Block φ ν} {e : Effect (Device φ ν) (Block φ ν) (DispatchEvent φ ν)}

theorem pinStep_ignored (hignores : b.Ignores pin) (hstack : s.stack t = .inside b :: rest)
    (hexec : b.exec s.shared c = some e) :
    PinStep pin s (.advance t c)
      ({ s with shared := e.shared }.setStack t ((dispatch φ ν).resume b e.cont ++ rest))
      ((e.seen.map (ThreadEvent.saw t)).getD (.quiet t)) := by
  obtain ⟨hframes, hvalue, hevent⟩ := hignores.exec (τ := τ) hexec
  refine .quiet ?_ (hevent t) hvalue ?_
  · intro value t₁ rest₁ htells
    cases htells.top hstack
    simp [Block.Ignores, Block.signals, Lambda.signals] at hignores
  · apply undelivered_replace hstack rfl
    apply iff_of_false
    · rintro ⟨f, hf, b', hblock, hsignals⟩
      exact hsignals (hframes f hf b' hblock)
    · rintro ⟨b', hblock, hsignals⟩
      cases hblock
      exact hsignals hignores.1

theorem pinStep_write (h : Heard s) {value : Int}
    (hstack : s.stack t = .inside (.hal (.digitalWrite pin value)) :: rest)
    (hexec : (Block.hal (.digitalWrite pin value)).exec s.shared c = some e) :
    PinStep pin s (.advance t c)
      ({ s with shared := e.shared }.setStack t
        ((dispatch φ ν).resume (.hal (.digitalWrite pin value)) e.cont ++ rest))
      ((e.seen.map (ThreadEvent.saw t)).getD (.quiet t)) := by
  cases hexec
  have hnot : ∀ value₁ t₁ rest₁, ¬ Tells pin value₁ t₁ rest₁ s (.advance t c) := by
    intro value₁ t₁ rest₁ htells
    cases htells.top hstack
  by_cases hchange : s.shared.pins.Changes pin value
  · refine .change hnot (undelivered_setStack_append.mpr (.inl ?_))
    have hraise : (s.shared.hal (.digitalWrite pin value)).2 = some (.signal pin value) := by
      simp [Device.hal, Pins.digitalWrite_loud hchange h.installed]
    refine ⟨_, List.mem_singleton_self _, .lambda (.signal pin value), ?_, ?_⟩
    · rw [hraise]
      rfl
    · simp [Block.signals, Lambda.signals]
  · have hnone : (s.shared.hal (.digitalWrite pin value)).2 = none := by
      simp [Device.hal, Pins.digitalWrite_quiet (.inl hchange)]
    have hvalue : s.shared.pins.value pin = some value := not_not.mp hchange
    refine .quiet hnot rfl ?_ ?_
    · rw [hvalue]
      exact Function.update_self ..
    · apply undelivered_replace hstack rfl
      simp [Program.resume, Frame.block, hnone, Block.signals]

theorem pinStep_tell (h : Heard s) {value : Int}
    (hstack : s.stack t = .inside (.lambda (.signal pin value)) :: rest)
    (hexec : (Block.lambda (.signal pin value)).exec s.shared c = some e) :
    PinStep pin s (.advance t c)
      ({ s with shared := e.shared }.setStack t
        ((dispatch φ ν).resume (.lambda (.signal pin value)) e.cont ++ rest))
      ((e.seen.map (ThreadEvent.saw t)).getD (.quiet t)) := by
  obtain ⟨cb, hcb⟩ := Option.ne_none_iff_exists'.mp h.hears
  have he : e = ⟨s.shared, some (.invoked (.signal pin value) cb
      s.shared.callbacks.userContext),
      .stay .called (some (.user (.signal pin value) cb s.shared.callbacks.userContext))⟩ := by
    simpa [Block.exec, Block.invoke, Callbacks.pointer, hcb] using hexec.symm
  subst he
  refine .tell value t rest ⟨⟨c, rfl⟩, hstack⟩ ?_ rfl ?_
  · simp [eventSignals]
  · rw [undelivered_setStack_append]
    simp [Program.resume, Frame.block, Block.signals]

end Exec

theorem pinStep_of_step (h : Heard s) {a : ThreadAction τ (Block φ ν) (Option UserCall)}
    {o : ThreadEvent τ (DispatchEvent φ ν)}
    (hstep : ((dispatch φ ν).threads τ).step s a = some (s', o)) (pin : Int) :
    PinStep pin s a s' o := by
  cases (dispatch φ ν).step_cases hstep with
  | call t b hentry hidle => exact pinStep_call hentry hidle
  | lock t c b rest hstack hfree =>
      refine .quiet ?_ rfl (by simp) ?_
      · intro value t₁ rest₁ htells
        cases htells.top hstack
      · show Undelivered pin ((s.setOwner _ _).setStack t ([.inside b] ++ rest)) ↔ _
        apply undelivered_replace hstack (Config.setOwner_stack _ _ _)
        simp [Frame.block]
  | unlock t c m after rest hstack =>
      refine .quiet ?_ rfl (by simp) ?_
      · intro value t₁ rest₁ htells
        cases htells.top hstack
      · apply undelivered_replace hstack (Config.setOwner_stack _ _ _)
        cases after <;> simp [Frame.block]
  | exec t c b rest e hstack hexec =>
      by_cases hignores : b.Ignores pin
      · exact pinStep_ignored hignores hstack hexec
      · obtain ⟨value, rfl | rfl⟩ := Block.not_ignores hignores
        · exact pinStep_write h hstack hexec
        · exact pinStep_tell h hstack hexec

end Steps

/-! ## Runs -/

omit [DecidableEq τ] in
theorem delivered_snoc (pin : Int) (os : List (ThreadEvent τ (DispatchEvent φ ν)))
    (o : ThreadEvent τ (DispatchEvent φ ν)) :
    delivered pin (os ++ [o]) = delivered pin os ++ eventSignals pin o := by
  simp [delivered]

/-- The mirror stays right in exactly the advances that deliver in order. -/
theorem Mirrored.step_iff {os : List (ThreadEvent τ (DispatchEvent φ ν))}
    {s s' : Config (Device φ ν) Mutex (Block φ ν) τ} (hm : Mirrored os s) (h : Heard s)
    {a : ThreadAction τ (Block φ ν) (Option UserCall)} {o : ThreadEvent τ (DispatchEvent φ ν)}
    (hstep : ((dispatch φ ν).threads τ).step s a = some (s', o)) :
    Mirrored (os ++ [o]) s' ↔ InOrder s a := by
  rw [inOrder_iff]
  constructor
  · intro hafter pin value t rest htells
    cases pinStep_of_step h hstep pin with
    | quiet hnot _ _ _ => exact absurd htells (hnot value t rest)
    | change hnot _ => exact absurd htells (hnot value t rest)
    | tell value₁ t₁ rest₁ htells₁ hevent hvalue hpending =>
        obtain ⟨⟨c, rfl⟩, hstack⟩ := htells
        obtain ⟨⟨c₁, hc⟩, hstack₁⟩ := htells₁
        cases hc
        rw [hstack] at hstack₁
        cases hstack₁
        by_cases hleft : Undelivered pin (s.setStack t rest)
        · exact .inr hleft
        · have hlast := hafter pin fun hpend => hleft (hpending.mp hpend)
          rw [delivered_snoc, hevent, List.getLast?_concat, hvalue] at hlast
          exact .inl hlast.symm
  · intro hrule pin hquiet
    cases pinStep_of_step h hstep pin with
    | quiet _ hevent hvalue hpending =>
        rw [delivered_snoc, hevent, List.append_nil, hvalue]
        exact hm pin fun hpend => hquiet (hpending.mpr hpend)
    | change _ hpending => exact absurd hpending hquiet
    | tell value t rest htells hevent hvalue hpending =>
        rw [delivered_snoc, hevent, List.getLast?_concat, hvalue]
        rcases hrule pin value t rest htells with hsame | hleft
        · exact hsame.symm
        · exact absurd (hpending.mpr hleft) hquiet

/-- From a table without values, with the closure installed and an `on_signal` registered
throughout, every interleaving of any threads: the mirror is right in every state exactly if every
event is delivered in order, and then the events converge to the table. -/
theorem signals_converge {d : Device φ ν} (hinstalled : d.pins.callback = some ())
    (hvalue : ∀ pin, d.pins.value pin = none) (hhears : d.callbacks.onSignal ≠ none)
    {as : List (ThreadAction τ (Block φ ν) (Option UserCall))} (has : ∀ a ∈ as, HearsSignals a)
    {s : Config (Device φ ν) Mutex (Block φ ν) τ} {os : List (ThreadEvent τ (DispatchEvent φ ν))}
    (hrun : ((dispatch φ ν).threads τ).run (Config.idle d) as = some (s, os)) :
    (((dispatch φ ν).threads τ).Throughout Mirrored (Config.idle d) as ↔
        ((dispatch φ ν).threads τ).Along InOrder (Config.idle d) as) ∧
      (((dispatch φ ν).threads τ).Along InOrder (Config.idle d) as →
        ((dispatch φ ν).threads τ).Throughout Converged (Config.idle d) as) := by
  have hexact : ((dispatch φ ν).threads τ).Throughout Mirrored (Config.idle d) as ↔
      ((dispatch φ ν).threads τ).Along InOrder (Config.idle d) as := by
    rw [← Machine.along_recorded hrun []]
    apply Machine.throughout_iff_recorded_along (A := fun _ a => HearsSignals a)
      (J := fun _ s => Heard s)
    · intro _ s a s' o h ha hstep
      exact h.step ha hstep
    · intro os s a s' o h hm _ hstep
      exact hm.step_iff h hstep
    · exact ⟨hinstalled, hhears, by simp [Config.idle, Config.Running]⟩
    · intro pin _
      exact (hvalue pin).symm
    · exact Machine.along_of_mem has _
    · exact hrun
  refine ⟨hexact, fun hrule bs hbs s₁ os₁ hrun₁ => ?_⟩
  exact (hexact.mpr hrule bs hbs s₁ os₁ hrun₁).converged

end Rule

/-! ## Two writers -/

def advances (t : Bool) (n : Nat) : List (ThreadAction Bool (Block Unit Unit) (Option UserCall)) :=
  List.replicate n (.advance t none)

/-- Two threads change a pin one after the other: the first raises it and the second drops it. The
events are delivered in the order of `first`. -/
def twoWriters (first : Bool) : List (ThreadAction Bool (Block Unit Unit) (Option UserCall)) :=
  List.flatten [[.call true (.hal (.digitalWrite 2 1))], advances true 3,
    [.call false (.hal (.digitalWrite 2 0))], advances false 3, advances first 7, advances (!first) 7]

theorem signals_converge_twoWriters :
    ((dispatch Unit Unit).threads Bool).Throughout Converged (Config.idle .fresh)
      (twoWriters true) :=
  have hrun : ((dispatch Unit Unit).threads Bool).run (Config.idle .fresh) (twoWriters true) =
      some (_, _) := rfl
  (signals_converge rfl (fun _ => rfl) (by decide) (by decide) hrun).2 (by decide +kernel)

/-- The second writer's event overtakes the first one's: the pin is dropped, and the user was told
last that it was raised. -/
theorem not_converge_overtaken :
    ¬ ∀ as : List (ThreadAction Bool (Block Unit Unit) (Option UserCall)),
      (∀ a ∈ as, HearsSignals a) →
        ((dispatch Unit Unit).threads Bool).Throughout Converged (Config.idle .fresh) as := by
  intro hall
  have hrun : ((dispatch Unit Unit).threads Bool).run (Config.idle .fresh) (twoWriters false) =
      some (_, _) := rfl
  have hconverged := hall _ (by decide) _ List.prefix_rfl _ _ hrun
  have hlast := hconverged ?_ 2 (by decide)
  · exact absurd hlast (by decide)
  · rintro ⟨t, b, ⟨f, hf, -⟩, -⟩
    cases t <;> cases hf

end Convergence

end ZiModem.Wrapper
